import IndentLint.Proofs.Text.Lines

/-!
# Looking up lines and columns

Of two boundaries between characters the later one has more line feeds before it or, in the same line, more characters
before it.  So lines and columns order the boundaries of a text as their bytes do (`isBefore_position_iff`).  A lookup
finds a position also where the index is that of another text (`position?_ofText_eq`), and everything that it gives is
counted from 1 (`LineIndex.position_lawful`).
-/

namespace IndentLint

/-- A position comes before another: it is in an earlier line, or further to the left in the same line. -/
def Position.IsBefore (p q : Position) : Prop :=
  p.line < q.line ∨ p.line = q.line ∧ p.column < q.column

namespace LineIndex

open Text

variable {text front front' : List Char}

/-- The starts of lines are in order, so there is one place in them to which any search for a byte leads. -/
private theorem pairwise_starts (text : List Char) : (ofText text).starts.Pairwise (· < ·) := by
  rw [ofText, List.pairwise_cons]
  exact ⟨fun start hstart => lt_of_mem_lineStartsFrom hstart, pairwise_lineStartsFrom 0 text⟩

private theorem one_le_line_position (indexed text : List Char) (offset : Nat) :
    1 ≤ ((ofText indexed).position text offset).line := by
  simp only [position, ofText]
  rw [List.takeWhile_cons_of_pos (by simp), List.length_cons]
  omega

private theorem one_le_column_position (index : LineIndex) (text : List Char) (offset : Nat) :
    1 ≤ (index.position text offset).column :=
  Nat.succ_pos _

private theorem position_of_le (index : LineIndex) {offset : Nat} (h : byteLength text ≤ offset) :
    index.position text offset = index.position text (byteLength text) := by
  have hclamp : min offset (byteLength text) = byteLength text := Nat.min_eq_right h
  simp only [position, hclamp, Nat.min_self]

theorem position_of_isPrefix (h : front <+: text) :
    (ofText text).position text (byteLength front) = ⟨front.count '\n' + 1, (lastLine front).length + 1⟩ := by
  obtain ⟨behind, rfl⟩ := h
  exact position_byteLength front behind

private theorem isBefore_position (h : front <+: text) (h' : front' <+: text)
    (hlt : byteLength front < byteLength front') :
    ((ofText text).position text (byteLength front)).IsBefore
      ((ofText text).position text (byteLength front')) := by
  -- the later boundary is behind some more characters
  obtain ⟨more, rfl⟩ : ∃ more, front' = front ++ more := by
    obtain ⟨behind, hbehind⟩ := h
    obtain ⟨behind', hbehind'⟩ := h'
    obtain ⟨more, hmore, -⟩ := append_split_of_byteLength_le (hbehind.trans hbehind'.symm) (Nat.le_of_lt hlt)
    exact ⟨more, hmore⟩
  rw [position_of_isPrefix h, position_of_isPrefix h', Position.IsBefore, List.count_append]
  by_cases hnewline : '\n' ∈ more
  · have := List.count_pos_iff.2 hnewline
    left
    dsimp only
    omega
  · have hcount : more.count '\n' = 0 := List.count_eq_zero.2 hnewline
    have hlast : lastLine (front ++ more) = lastLine front ++ more := by
      rw [lastLine_append, if_neg fun h => hnewline (List.contains_iff_mem.1 h)]
    have hmore : 0 < more.length := by
      apply List.length_pos_iff.2
      rintro rfl
      simp at hlt
    right
    rw [hcount, hlast, List.length_append]
    dsimp only
    omega

/-- Lines and columns order the boundaries of a text as their bytes do. -/
theorem isBefore_position_iff (h : front <+: text) (h' : front' <+: text) :
    ((ofText text).position text (byteLength front)).IsBefore ((ofText text).position text (byteLength front')) ↔
      byteLength front < byteLength front' := by
  constructor
  · intro hbefore
    by_contra hlt
    rcases Nat.lt_or_eq_of_le (Nat.not_lt.1 hlt) with hgt | heq
    · have hafter := isBefore_position h' h hgt
      unfold Position.IsBefore at hbefore hafter
      omega
    · rw [heq] at hbefore
      unfold Position.IsBefore at hbefore
      omega
  · exact isBefore_position h h'

/-- At a boundary the line counts the line feeds and the column the characters since the last of them; so lines and
columns order the boundaries and tell them apart, and what is behind the end is at the end.  With the index of any text
there is a position for every byte, in a line and a column that are counted from 1. -/
theorem position_lawful (text : List Char) :
    (∀ front, front <+: text → (ofText text).position text (byteLength front) =
      ⟨1 + front.count '\n', 1 + (lastLine front).length⟩) ∧
    (∀ front front', front <+: text → front' <+: text →
      (((ofText text).position text (byteLength front)).IsBefore
          ((ofText text).position text (byteLength front')) ↔ byteLength front < byteLength front') ∧
        ((ofText text).position text (byteLength front) = (ofText text).position text (byteLength front') →
          byteLength front = byteLength front')) ∧
    (∀ offset, byteLength text ≤ offset →
      (ofText text).position text offset = (ofText text).position text (byteLength text)) ∧
    ∀ indexed offset, (ofText indexed).starts.Pairwise (· < ·) ∧
      ∃ p, (ofText indexed).position? text offset = some p ∧ (ofText indexed).position text offset = p ∧
        1 ≤ p.line ∧ 1 ≤ p.column := by
  refine ⟨?_, ?_, fun offset h => position_of_le _ h, ?_⟩
  · intro front h
    rw [position_of_isPrefix h, Nat.add_comm 1, Nat.add_comm 1]
  · intro front front' h h'
    refine ⟨isBefore_position_iff h h', fun heq => ?_⟩
    -- neither comes before the other where the positions are the same
    have hlt := isBefore_position_iff h h'
    have hgt := isBefore_position_iff h' h
    rw [heq] at hlt hgt
    unfold Position.IsBefore at hlt hgt
    omega
  · intro indexed offset
    exact ⟨pairwise_starts indexed, _, position?_ofText_eq indexed text offset, rfl,
      one_le_line_position indexed text offset, one_le_column_position _ text offset⟩

/-- In `é` LF `x` the line feed is at byte 2 and the end at byte 4, and the index of a text without lines finds a position
for the byte inside the first letter. -/
theorem position_lawful_umlaut : ['é'] <+: ['é', '\n', 'x'] ∧ ['é', '\n'] <+: ['é', '\n', 'x'] ∧
    (ofText ['é', '\n', 'x']).position ['é', '\n', 'x'] 2 = ⟨1, 2⟩ ∧
    (ofText ['é', '\n', 'x']).position ['é', '\n', 'x'] 3 = ⟨2, 1⟩ ∧
    (⟨1, 2⟩ : Position).IsBefore ⟨2, 1⟩ ∧
    (ofText ['é', '\n', 'x']).position ['é', '\n', 'x'] 9 = ⟨2, 2⟩ ∧
    ∃ p, (ofText ['a']).position? ['é', '\n', 'x'] 1 = some p ∧ 1 ≤ p.line ∧ 1 ≤ p.column := by
  have hletter : ['é'] <+: ['é', '\n', 'x'] := ⟨_, rfl⟩
  have hline : ['é', '\n'] <+: ['é', '\n', 'x'] := ⟨_, rfl⟩
  have hend : ['é', '\n', 'x'] <+: ['é', '\n', 'x'] := ⟨[], rfl⟩
  obtain ⟨hposition, horder, hclamp, hforeign⟩ := position_lawful ['é', '\n', 'x']
  obtain ⟨-, p, hp, -, hlinePos, hcolumnPos⟩ := hforeign ['a'] 1
  have hbefore := (horder _ _ hletter hline).1.2 (by decide)
  rw [hposition _ hletter, hposition _ hline] at hbefore
  exact ⟨hletter, hline, hposition _ hletter, hposition _ hline, hbefore,
    (hclamp 9 (by decide)).trans (hposition _ hend), p, hp, hlinePos, hcolumnPos⟩

end LineIndex

end IndentLint
