/-!
# The endings of a text

A question about every ending of a text, from the whole text to nothing, has one answer for each of them, kept in a
list in this order.  The functions below turn the answers for what comes after some character or run of characters
into those for what begins with it, each in one pass over the text.
-/

namespace IndentLint.Text

/-- The endings of a text, from the whole text to nothing. -/
def endings : List α → List (List α)
  | [] => [[]]
  | c :: cs => (c :: cs) :: endings cs

/-- What comes after each character that `p` holds of. -/
def endingsAfter (p : α → Bool) : List α → List (List α)
  | [] => []
  | c :: cs => if p c then cs :: endingsAfter p cs else endingsAfter p cs

/-- What may be left by a run of characters that `p` holds of. -/
def endingsAfterRun (p : α → Bool) : List α → List (List α)
  | [] => [[]]
  | c :: cs => (c :: cs) :: if p c then endingsAfterRun p cs else []

/-- Which endings are empty. -/
def atEnd : List α → List Bool
  | [] => [true]
  | _ :: cs => false :: atEnd cs

/-- Which endings begin with a character that `p` holds of and go on with a marked ending. -/
def afterOne (p : α → Bool) : List α → List Bool → List Bool
  | c :: cs, _ :: marks => (p c && marks.headD false) :: afterOne p cs marks
  | _, _ => [false]

/-- Which endings begin with a run of characters that `p` holds of and go on with a marked ending. -/
def afterRun (p : α → Bool) : List α → List Bool → List Bool
  | c :: cs, mark :: marks =>
    let rest := afterRun p cs marks
    (mark || (p c && rest.headD false)) :: rest
  | _, marks => [marks.headD false]

/-- Which endings hold a character that `p` holds of with a marked ending after it. -/
def afterSome (p : α → Bool) : List α → List Bool → List Bool
  | c :: cs, _ :: marks =>
    let rest := afterSome p cs marks
    ((p c && marks.headD false) || rest.headD false) :: rest
  | _, _ => [false]

/-- The endings that are marked in one of two lists. -/
def either (xs ys : List Bool) : List Bool :=
  List.zipWith (· || ·) xs ys

/-! ### What the marks mean -/

@[simp] theorem head?_endings (cs : List α) : (endings cs).head? = some cs := by
  cases cs <;> rfl

@[simp] theorem getLast?_endings (cs : List α) : (endings cs).getLast? = some [] := by
  induction cs with
  | nil => rfl
  | cons c cs ih => simp [endings, List.getLast?_cons, ih]

@[simp] theorem headD_map_endings (f : List α → Bool) (cs : List α) (b : Bool) :
    ((endings cs).map f).headD b = f cs := by
  cases cs <;> rfl

theorem atEnd_eq_map (cs : List α) : atEnd cs = (endings cs).map List.isEmpty := by
  induction cs with
  | nil => rfl
  | cons c cs ih => simp [atEnd, endings, ih]

theorem afterOne_map_endings (p : α → Bool) (f : List α → Bool) (cs : List α) :
    afterOne p cs ((endings cs).map f) = (endings cs).map fun r => r.head?.any p && f r.tail := by
  induction cs with
  | nil => simp [afterOne, endings]
  | cons c cs ih => simp [afterOne, endings, ih]

theorem afterRun_map_endings (p : α → Bool) (f : List α → Bool) (cs : List α) :
    afterRun p cs ((endings cs).map f) = (endings cs).map fun r => (endingsAfterRun p r).any f := by
  induction cs with
  | nil => simp [afterRun, endings, endingsAfterRun]
  | cons c cs ih => by_cases h : p c <;> simp [afterRun, endings, endingsAfterRun, ih, h]

theorem afterSome_map_endings (p : α → Bool) (f : List α → Bool) (cs : List α) :
    afterSome p cs ((endings cs).map f) = (endings cs).map fun r => (endingsAfter p r).any f := by
  induction cs with
  | nil => simp [afterSome, endings, endingsAfter]
  | cons c cs ih => by_cases h : p c <;> simp [afterSome, endings, endingsAfter, ih, h]

theorem either_map (f g : β → Bool) (xs : List β) :
    either (xs.map f) (xs.map g) = xs.map fun x => f x || g x := by
  induction xs with
  | nil => rfl
  | cons x xs ih => simp [either] at ih ⊢

end IndentLint.Text
