import IndentLint.Proofs.Text.Bytes
import IndentLint.Text.Lines
import Mathlib.Data.List.GetD
import Mathlib.Data.List.TakeWhile

/-!
# Line starts and positions

The line starts of a text are the bytes just after its line feeds, in strictly increasing order, and those of a
longer text are those of its parts in a row.  So at a boundary between two characters the line index gives one more
than the number of line feeds before it, and one more than the number of characters since the last of them
(`LineIndex.position_byteLength`).  At any byte the index has a line, and the line starts at the byte or before it
(`LineIndex.position?_ofText`).
-/

namespace IndentLint

namespace Text

/-! ### Line starts -/

theorem lineStartsFrom_append (offset : Nat) (a b : List Char) :
    lineStartsFrom offset (a ++ b) = lineStartsFrom offset a ++ lineStartsFrom (offset + byteLength a) b := by
  induction a generalizing offset with
  | nil => simp [lineStartsFrom]
  | cons c a ih =>
    by_cases hc : c = '\n'
    · subst hc
      have hsize : '\n'.utf8Size = 1 := rfl
      simp only [List.cons_append, lineStartsFrom, ↓reduceIte, ih, byteLength_cons, hsize, Nat.add_assoc]
    · simp only [List.cons_append, lineStartsFrom, hc, ↓reduceIte, ih, byteLength_cons, Nat.add_assoc]

theorem mem_lineStartsFrom {offset x : Nat} {cs : List Char} :
    x ∈ lineStartsFrom offset cs ↔
      ∃ front behind, cs = front ++ '\n' :: behind ∧ x = offset + byteLength front + 1 := by
  induction cs generalizing offset with
  | nil => simp [lineStartsFrom]
  | cons c cs ih =>
    by_cases hc : c = '\n'
    · subst hc
      simp only [lineStartsFrom, ↓reduceIte, List.mem_cons, ih]
      constructor
      · rintro (rfl | ⟨front, behind, rfl, rfl⟩)
        · exact ⟨[], cs, rfl, rfl⟩
        · exact ⟨'\n' :: front, behind, rfl, by simp [Char.utf8Size]; omega⟩
      · rintro ⟨front, behind, heq, rfl⟩
        cases front with
        | nil => exact Or.inl rfl
        | cons d front =>
          obtain ⟨rfl, rfl⟩ := List.cons.inj heq
          exact Or.inr ⟨front, behind, rfl, by simp [Char.utf8Size]; omega⟩
    · simp only [lineStartsFrom, hc, ↓reduceIte, ih]
      constructor
      · rintro ⟨front, behind, rfl, rfl⟩
        exact ⟨c :: front, behind, rfl, by rw [byteLength_cons]; omega⟩
      · rintro ⟨front, behind, heq, rfl⟩
        cases front with
        | nil => exact absurd (List.cons.inj heq).1 hc
        | cons d front =>
          obtain ⟨rfl, rfl⟩ := List.cons.inj heq
          exact ⟨front, behind, rfl, by rw [byteLength_cons]; omega⟩

theorem lt_of_mem_lineStartsFrom {offset x : Nat} {cs : List Char} (h : x ∈ lineStartsFrom offset cs) :
    offset < x := by
  obtain ⟨front, behind, -, rfl⟩ := mem_lineStartsFrom.1 h
  omega

private theorem le_of_mem_lineStartsFrom {offset x : Nat} {cs : List Char} (h : x ∈ lineStartsFrom offset cs) :
    x ≤ offset + byteLength cs := by
  obtain ⟨front, behind, rfl, rfl⟩ := mem_lineStartsFrom.1 h
  have hsize : '\n'.utf8Size = 1 := rfl
  rw [byteLength_append, byteLength_cons, hsize]
  omega

theorem pairwise_lineStartsFrom (offset : Nat) (cs : List Char) :
    (lineStartsFrom offset cs).Pairwise (· < ·) := by
  induction cs generalizing offset with
  | nil => exact List.Pairwise.nil
  | cons c cs ih =>
    rw [lineStartsFrom]
    split
    · exact List.pairwise_cons.2 ⟨fun x hx => lt_of_mem_lineStartsFrom hx, ih _⟩
    · exact ih _

private theorem length_lineStartsFrom (offset : Nat) (cs : List Char) :
    (lineStartsFrom offset cs).length = cs.count '\n' := by
  induction cs generalizing offset with
  | nil => rfl
  | cons c cs ih =>
    rw [lineStartsFrom]
    split
    · rename_i hc
      subst hc
      rw [List.length_cons, ih, List.count_cons_self]
    · rename_i hc
      rw [ih, List.count_cons_of_ne hc]

private theorem lineStartsFrom_eq_nil {offset : Nat} {cs : List Char} (h : '\n' ∉ cs) :
    lineStartsFrom offset cs = [] := by
  rw [← List.length_eq_zero_iff, length_lineStartsFrom]
  exact List.count_eq_zero.2 h

/-! ### The last line -/

theorem bne_newline_of_mem {cs : List Char} (h : '\n' ∉ cs) : ∀ c ∈ cs, (c != '\n') = true := by
  intro c hc
  have hne : c ≠ '\n' := fun he => h (he ▸ hc)
  simpa using hne

theorem lastLine_eq_self {cs : List Char} (h : '\n' ∉ cs) : lastLine cs = cs := by
  rw [lastLine, List.takeWhile_eq_self_iff.2 (bne_newline_of_mem (mt List.mem_reverse.1 h)), List.reverse_reverse]

theorem lastLine_append_newline {front tail : List Char} (h : '\n' ∉ tail) :
    lastLine (front ++ '\n' :: tail) = tail := by
  rw [lastLine, List.reverse_append, List.reverse_cons, List.append_assoc,
    List.takeWhile_append_of_pos (bne_newline_of_mem (mt List.mem_reverse.1 h))]
  simp

/-- A text has no line feed at all, or a last one. -/
theorem newline_cases (cs : List Char) : '\n' ∉ cs ∨ ∃ front tail, cs = front ++ '\n' :: tail ∧ '\n' ∉ tail := by
  induction cs with
  | nil => exact Or.inl (by simp)
  | cons c cs ih =>
    rcases ih with h | ⟨front, tail, rfl, h⟩
    · by_cases hc : c = '\n'
      · exact Or.inr ⟨[], cs, by rw [hc]; rfl, h⟩
      · exact Or.inl (by simp [h, Ne.symm hc])
    · exact Or.inr ⟨c :: front, tail, rfl, h⟩

theorem lastLine_append (a b : List Char) :
    lastLine (a ++ b) = if b.contains '\n' then lastLine b else lastLine a ++ b := by
  rcases newline_cases b with hb | ⟨front, tail, rfl, htail⟩
  · rw [if_neg fun h => hb (List.contains_iff_mem.1 h)]
    rcases newline_cases a with ha | ⟨front, tail, rfl, htail⟩
    · rw [lastLine_eq_self ha, lastLine_eq_self (by simp [ha, hb])]
    · rw [List.append_assoc, List.cons_append, lastLine_append_newline htail,
        lastLine_append_newline (by simp [htail, hb])]
  · rw [if_pos (by simp), ← List.append_assoc, lastLine_append_newline htail, lastLine_append_newline htail]

/-- The last line of a text of several lines is what follows its last line feed. -/
theorem exists_slice?_lastLine {cs : List Char} (h : '\n' ∈ cs) :
    ∃ newline, slice? cs newline (newline + 1) = some ['\n'] ∧
      slice? cs (newline + 1) (byteLength cs) = some (lastLine cs) := by
  rcases newline_cases cs with hno | ⟨front, tail, rfl, htail⟩
  · exact absurd h hno
  · have hsize : '\n'.utf8Size = 1 := rfl
    have hlength : byteLength (front ++ '\n' :: tail) = byteLength front + (1 + byteLength tail) := by
      rw [byteLength_append, byteLength_cons, hsize]
    refine ⟨byteLength front, slice?_eq_some_iff.2 ⟨front, tail, rfl, rfl, rfl⟩, ?_⟩
    rw [lastLine_append_newline htail, slice?_eq_some_iff]
    exact ⟨front ++ ['\n'], [], by simp, byteLength_append_newline front, by omega⟩

/-- Of two line feeds of a text the later one has more line feeds before it. -/
theorem count_newline_lt {a b a' b' : List Char} (h : a ++ '\n' :: b = a' ++ b')
    (hlt : byteLength a < byteLength a') : a.count '\n' < a'.count '\n' := by
  -- what the longer beginning has more begins with the earlier line feed
  obtain ⟨d, rfl, hd⟩ := append_split_of_byteLength_le h (Nat.le_of_lt hlt)
  rcases d with _ | ⟨c, d⟩
  · rw [List.append_nil] at hlt
    omega
  · obtain ⟨rfl, -⟩ := List.cons.inj hd
    rw [List.count_append, List.count_cons_self]
    omega

end Text

/-! ### Positions -/

namespace LineIndex

open Text

private theorem takeWhile_starts (a b : List Char) :
    (ofText (a ++ b)).starts.takeWhile (· ≤ byteLength a) = 0 :: lineStartsFrom 0 a := by
  have hle : ∀ x ∈ 0 :: lineStartsFrom 0 a, decide (x ≤ byteLength a) = true := by
    intro x hx
    rcases List.mem_cons.1 hx with rfl | hx
    · simp
    · have := le_of_mem_lineStartsFrom hx
      simp; omega
  have hgt : (lineStartsFrom (0 + byteLength a) b).takeWhile (· ≤ byteLength a) = [] := by
    rcases hb : lineStartsFrom (0 + byteLength a) b with _ | ⟨x, rest⟩
    · rfl
    · have hx : 0 + byteLength a < x := lt_of_mem_lineStartsFrom (hb ▸ List.mem_cons_self ..)
      rw [List.takeWhile_cons_of_neg]
      simp; omega
  rw [ofText, lineStartsFrom_append, ← List.cons_append, List.takeWhile_append_of_pos hle, hgt, List.append_nil]

/-- The start of the line that a text ends in, and the number of characters since then. -/
private theorem last_start (a : List Char) : ∃ front, a = front ++ lastLine a ∧
    ∀ more, (0 :: lineStartsFrom 0 a ++ more).getD (a.count '\n') 0 = byteLength front := by
  rcases newline_cases a with h | ⟨front, tail, rfl, h⟩
  · refine ⟨[], by rw [lastLine_eq_self h]; rfl, fun more => ?_⟩
    rw [List.count_eq_zero.2 h]
    rfl
  · have hsize : '\n'.utf8Size = 1 := rfl
    refine ⟨front ++ ['\n'], by rw [lastLine_append_newline h]; simp, fun more => ?_⟩
    have hstarts : lineStartsFrom 0 (front ++ '\n' :: tail) = lineStartsFrom 0 front ++ [byteLength front + 1] := by
      simp [lineStartsFrom_append, lineStartsFrom, lineStartsFrom_eq_nil h]
    have hcount : (front ++ '\n' :: tail).count '\n' = (lineStartsFrom 0 front).length + 1 := by
      rw [length_lineStartsFrom, List.count_append, List.count_cons_self, List.count_eq_zero.2 h]
    rw [hstarts, hcount, List.cons_append, List.getD_cons_succ, List.append_assoc,
      List.getD_append_right _ _ _ _ (Nat.le_refl _), Nat.sub_self]
    simp [hsize]

/-- At a boundary the line is one more than the number of line feeds before it, and the column one more than the
number of characters since the last of them. -/
theorem position_byteLength (a b : List Char) :
    (ofText (a ++ b)).position (a ++ b) (byteLength a) = ⟨a.count '\n' + 1, (lastLine a).length + 1⟩ := by
  have hmin : min (byteLength a) (byteLength (a ++ b)) = byteLength a := by
    rw [byteLength_append]; omega
  have hline : ((ofText (a ++ b)).starts.takeWhile (· ≤ byteLength a)).length = a.count '\n' + 1 := by
    rw [takeWhile_starts, List.length_cons, length_lineStartsFrom]
  obtain ⟨front, ha, hstart⟩ := last_start a
  have hget : (ofText (a ++ b)).starts.getD (a.count '\n' + 1 - 1) 0 = byteLength front := by
    rw [ofText, lineStartsFrom_append, Nat.add_sub_cancel]
    exact hstart _
  have hslice : slice? (a ++ b) (byteLength front) (byteLength a) = some (lastLine a) := by
    refine slice?_eq_some_iff.2 ⟨front, b, ?_, rfl, ?_⟩
    · rw [← List.append_assoc, ← ha]
    · conv => rhs; rw [ha, byteLength_append]
  simp only [position, hmin, hline, hget, hslice]

/-- The line that a line feed begins starts in the first column of a line that is not the first. -/
theorem position_lineStart (front behind : List Char) :
    (ofText (front ++ '\n' :: behind)).position (front ++ '\n' :: behind) (byteLength front + 1) =
      ⟨front.count '\n' + 2, 1⟩ := by
  have hlast : lastLine (front ++ ['\n']) = [] := lastLine_append_newline (List.not_mem_nil)
  rw [List.append_cons, ← byteLength_append_newline, position_byteLength, hlast, List.count_append,
    List.count_cons_self]
  rfl

/-- The position of a byte, or nothing where the line has no start in the index or starts behind the byte. -/
def position? (index : LineIndex) (text : List Char) (offset : Nat) : Option Position := do
  let stop := min offset (byteLength text)
  let line := (index.starts.takeWhile (· ≤ stop)).length
  let start ← index.starts[line - 1]?
  guard (start ≤ stop)
  let before := match slice? text start stop with
    | some cs => cs.length
    | none => stop - start
  return ⟨line, before + 1⟩

/-- Of some starts of which the first is 0, the last one that is not behind a byte. -/
private theorem exists_start_le {starts : List Nat} (hzero : starts.head? = some 0) (stop : Nat) :
    ∃ start, starts[(starts.takeWhile (· ≤ stop)).length - 1]? = some start ∧ start ≤ stop := by
  obtain ⟨rest, hrest⟩ := List.takeWhile_prefix (l := starts) (· ≤ stop)
  have hpos : 0 < (starts.takeWhile (· ≤ stop)).length := by
    obtain ⟨later, rfl⟩ := List.head?_eq_some_iff.1 hzero
    rw [List.takeWhile_cons_of_pos (by simp)]
    exact Nat.succ_pos _
  have hlt : (starts.takeWhile (· ≤ stop)).length - 1 < (starts.takeWhile (· ≤ stop)).length := by
    omega
  have hget : (starts.takeWhile (· ≤ stop) ++ rest)[(starts.takeWhile (· ≤ stop)).length - 1]? =
      some ((starts.takeWhile (· ≤ stop))[(starts.takeWhile (· ≤ stop)).length - 1]) := by
    rw [List.getElem?_append_left hlt, List.getElem?_eq_getElem hlt]
  rw [hrest] at hget
  have hle := List.mem_takeWhile_imp (List.getElem_mem hlt)
  exact ⟨_, hget, by simpa using hle⟩

/-- Every byte of a text has a position in the index of any text, also inside a character and behind the text. -/
theorem position?_ofText_eq (indexed text : List Char) (offset : Nat) :
    (ofText indexed).position? text offset = some ((ofText indexed).position text offset) := by
  have hzero : (ofText indexed).starts.head? = some 0 := rfl
  obtain ⟨start, hget, hle⟩ := exists_start_le hzero (min offset (byteLength text))
  have hguard : (guard (start ≤ min offset (byteLength text)) : Option Unit) = some () := if_pos hle
  rw [position?, position, hget, List.getD_eq_getElem?_getD, hget]
  show ((guard (start ≤ min offset (byteLength text)) : Option Unit) >>= _) = _
  rw [hguard]
  rfl

theorem position?_ofText (text : List Char) (offset : Nat) :
    (ofText text).position? text offset = some ((ofText text).position text offset) :=
  position?_ofText_eq text text offset

end LineIndex

end IndentLint
