import IndentLint.Proofs.Syntax.Paths

/-!
# Changing the text of one token

`DiffersInText` relates two trees that are the same but for the text of one token.  Any other token stands at the same
path in both.  The way down to it leaves the way to the changed token at some node, and the two positions differ in the
frame of this node only, in one of the siblings there (`DiffersInText.exists_mem_positionsAt`).
-/

namespace IndentLint

/-- The trees differ in nothing but the text of the token at a path. -/
inductive Element.DiffersInText : List Nat → Element → Element → Prop
  | token (kind : Kind) (text text' : List Char) : DiffersInText [] (.token kind text) (.token kind text')
  | node (kind : Kind) (front back : List Element) {path : List Nat} {e e' : Element} (h : DiffersInText path e e') :
      DiffersInText (front.length :: path) (.node kind (front ++ e :: back)) (.node kind (front ++ e' :: back))

/-- The frames differ in nothing but the text of the token at a path, which leads into a sibling. -/
inductive Frame.DiffersInText : List Nat → Frame → Frame → Prop
  | before (kind : Kind) (near far after : List Element) {path : List Nat} {e e' : Element}
      (h : Element.DiffersInText path e e') :
      DiffersInText (far.length :: path) ⟨kind, near ++ e :: far, after⟩ ⟨kind, near ++ e' :: far, after⟩
  | after (kind : Kind) (before near far : List Element) {path : List Nat} {e e' : Element}
      (h : Element.DiffersInText path e e') :
      DiffersInText ((before.length + 1 + near.length) :: path)
        ⟨kind, before, near ++ e :: far⟩ ⟨kind, before, near ++ e' :: far⟩

namespace Frame.DiffersInText

variable {path : List Nat} {f f' : Frame}

theorem kind_eq (h : f.DiffersInText path f') : f'.kind = f.kind := by
  cases h <;> rfl

theorem length_before (h : f.DiffersInText path f') : f'.before.length = f.before.length := by
  cases h with
  | before => simp
  | after => rfl

end Frame.DiffersInText

namespace Element.DiffersInText

open Cursor

variable {path : List Nat} {e e' : Element}

theorem kind_eq (h : e.DiffersInText path e') : e'.kind = e.kind := by
  cases h <;> rfl

/-- A list divided at two of its elements: they are the same, or one lies on one side of the other. -/
private theorem split_cases {front back front' back' : List Element} {x y : Element}
    (h : front ++ x :: back = front' ++ y :: back') :
    (∃ mid, front = front' ++ y :: mid ∧ back' = mid ++ x :: back) ∨
      (front' = front ∧ y = x ∧ back' = back) ∨
      ∃ mid, front' = front ++ x :: mid ∧ back = mid ++ y :: back' := by
  rcases List.append_eq_append_iff.1 h with ⟨mid, hfront, hback⟩ | ⟨mid, hfront, hback⟩
  · rcases mid with _ | ⟨z, mid⟩
    · obtain ⟨rfl, rfl⟩ := List.cons.inj hback
      exact Or.inr (Or.inl ⟨by simpa using hfront, rfl, rfl⟩)
    · obtain ⟨rfl, rfl⟩ := List.cons.inj hback
      exact Or.inr (Or.inr ⟨mid, hfront, rfl⟩)
  · rcases mid with _ | ⟨z, mid⟩
    · obtain ⟨rfl, rfl⟩ := List.cons.inj hback
      exact Or.inr (Or.inl ⟨by simpa using hfront.symm, rfl, rfl⟩)
    · obtain ⟨rfl, rfl⟩ := List.cons.inj hback
      exact Or.inl ⟨mid, hfront, rfl⟩

/-- A token other than the changed one has its place in the changed tree too.  Its frames are the same but for one,
from which the changed token lies in a sibling. -/
theorem exists_mem_positionsAt (h : e.DiffersInText path e') {start : Nat} {frames : List Frame} {c : Cursor}
    (hc : c ∈ positionsAt start frames e) (htoken : c.element.isNode = false)
    (hpath : c.path ≠ pathOfFrames frames ++ path) (start' : Nat) :
    ∃ inner f f' outer at' sibling, c.frames = inner ++ f :: outer ∧ f.DiffersInText sibling f' ∧
      pathOfFrames frames ++ path = pathOfFrames outer ++ sibling ∧
      ⟨c.element, at', inner ++ f' :: outer⟩ ∈ positionsAt start' frames e' := by
  induction h generalizing start frames start' with
  | token kind text text' =>
    obtain rfl := List.mem_singleton.1 hc
    exact absurd (by simp [Cursor.path]) hpath
  | @node kind front back path d d' hd ih =>
    rw [positionsAt, List.mem_cons] at hc
    rcases hc with rfl | hc
    · exact absurd htoken (by simp [isNode])
    obtain ⟨front₁, e₁, back₁, hsplit, hin⟩ := mem_positionsOfList.1 hc
    rw [List.append_nil] at hin
    rcases split_cases hsplit with ⟨mid, rfl, rfl⟩ | ⟨rfl, rfl, rfl⟩ | ⟨mid, rfl, rfl⟩
    · -- the token lies in a child before the changed one
      obtain ⟨inner, n, hframes, -, hmove⟩ := exists_inner_of_mem_positionsAt e₁ hin
      refine ⟨inner, _, ⟨kind, front₁.reverse, mid ++ d' :: back⟩, frames,
        start' + Text.byteLength (textOfList front₁) + n, _, hframes, .after kind front₁.reverse mid back hd, ?_, ?_⟩
      · rw [List.length_reverse, List.length_append, List.length_cons, Nat.add_assoc, Nat.add_comm 1]
      · rw [positionsAt, List.mem_cons, mem_positionsOfList]
        refine Or.inr ⟨front₁, e₁, mid ++ d' :: back, by simp, ?_⟩
        rw [List.append_nil]
        exact hmove _ _
    · -- the way down is the same at this node
      obtain ⟨inner, f, f', outer, at', sibling, hframes, hf, houter, hmem⟩ :=
        ih hin (by simpa using hpath) (start' + Text.byteLength (textOfList front₁))
      refine ⟨inner, f, f', outer, at', sibling, hframes, hf, by simpa using houter, ?_⟩
      rw [positionsAt, List.mem_cons, mem_positionsOfList]
      refine Or.inr ⟨front₁, d', back₁, rfl, ?_⟩
      rw [List.append_nil]
      exact hmem
    · -- the token lies in a child behind the changed one
      obtain ⟨inner, n, hframes, -, hmove⟩ := exists_inner_of_mem_positionsAt e₁ hin
      refine ⟨inner, ⟨kind, mid.reverse ++ d :: front.reverse, back₁⟩,
        ⟨kind, mid.reverse ++ d' :: front.reverse, back₁⟩, frames,
        start' + Text.byteLength (textOfList (front ++ d' :: mid)) + n, _, by simpa using hframes,
        .before kind mid.reverse front.reverse back₁ hd, by simp, ?_⟩
      rw [positionsAt, List.mem_cons, mem_positionsOfList]
      refine Or.inr ⟨front ++ d' :: mid, e₁, back₁, by simp, ?_⟩
      have hreverse : (front ++ d' :: mid).reverse ++ [] = mid.reverse ++ d' :: front.reverse := by simp
      rw [hreverse]
      exact hmove _ _

end Element.DiffersInText

end IndentLint
