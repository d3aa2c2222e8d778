import IndentLint.Layout.Check
import IndentLint.Proofs.Text.Lines

/-!
# The lines that a text begins

The checker cuts a text into its pieces between line feeds and counts the bytes of the pieces as it goes on.  Read
character by character, every line feed begins one line: it starts at the byte after the line feed, and its
indentation is what follows up to the next line feed, less a carriage return at the end (`mem_ofText`).  The lines
start where the line starts of the text are (`map_offset_ofText`).
-/

namespace IndentLint

namespace Text

/-- The first piece between line feeds ends at the first line feed. -/
private theorem lines_eq_takeWhile_cons (cs : List Char) : ∃ rest, lines cs = cs.takeWhile (· != '\n') :: rest := by
  induction cs with
  | nil => exact ⟨[], rfl⟩
  | cons c cs ih =>
    obtain ⟨rest, hrest⟩ := ih
    rw [lines] at hrest
    by_cases hc : c = '\n'
    · subst hc
      exact ⟨_, rfl⟩
    · refine ⟨rest, ?_⟩
      rw [lines, pieces, if_neg hc, hrest, List.takeWhile_cons_of_pos (by simpa using hc)]

end Text

namespace IndentedLine

open Text

@[simp] theorem ofText_nil (start : Nat) : ofText start [] = [] := rfl

@[simp] theorem ofText_newline (start : Nat) (cs : List Char) :
    ofText start ('\n' :: cs) =
      ⟨start + 1, dropCarriageReturn (cs.takeWhile (· != '\n'))⟩ :: ofText (start + 1) cs := by
  obtain ⟨rest, hrest⟩ := lines_eq_takeWhile_cons cs
  have hlines : lines ('\n' :: cs) = [] :: lines cs := rfl
  simp only [ofText, hlines, hrest, ofPieces, List.drop_succ_cons, List.drop_zero, byteLength_nil, Nat.add_zero]

theorem ofText_cons_of_ne {c : Char} (hc : c ≠ '\n') (start : Nat) (cs : List Char) :
    ofText start (c :: cs) = ofText (start + c.utf8Size) cs := by
  obtain ⟨rest, hrest⟩ := lines_eq_takeWhile_cons cs
  have hlines : lines (c :: cs) = (c :: cs.takeWhile (· != '\n')) :: rest := by
    rw [lines] at hrest
    rw [lines, pieces, if_neg hc, hrest]
  simp only [ofText, hlines, hrest, ofPieces, List.drop_succ_cons, List.drop_zero, byteLength_cons, Nat.add_assoc]

/-- The lines that a text begins start at its line starts. -/
theorem map_offset_ofText (start : Nat) (text : List Char) :
    (ofText start text).map (·.offset) = lineStartsFrom start text := by
  induction text generalizing start with
  | nil => rfl
  | cons c cs ih =>
    by_cases hc : c = '\n'
    · subst hc
      rw [ofText_newline, List.map_cons, ih, lineStartsFrom, if_pos rfl]
    · rw [ofText_cons_of_ne hc, ih, lineStartsFrom, if_neg hc]

/-- The lines that a text begins, one after each of its line feeds. -/
theorem mem_ofText {start : Nat} {text : List Char} {line : IndentedLine} :
    line ∈ ofText start text ↔ ∃ front behind, text = front ++ '\n' :: behind ∧
      line = ⟨start + byteLength front + 1, dropCarriageReturn (behind.takeWhile (· != '\n'))⟩ := by
  induction text generalizing start with
  | nil => simp
  | cons c cs ih =>
    by_cases hc : c = '\n'
    · subst hc
      have hsize : '\n'.utf8Size = 1 := rfl
      rw [ofText_newline, List.mem_cons, ih]
      constructor
      · rintro (rfl | ⟨front, behind, rfl, rfl⟩)
        · exact ⟨[], cs, rfl, rfl⟩
        · refine ⟨'\n' :: front, behind, rfl, ?_⟩
          rw [byteLength_cons, hsize, Nat.add_assoc start 1]
      · rintro ⟨front, behind, heq, rfl⟩
        rcases front with _ | ⟨d, front⟩
        · obtain ⟨-, rfl⟩ := List.cons.inj heq
          exact Or.inl rfl
        · obtain ⟨rfl, rfl⟩ := List.cons.inj heq
          refine Or.inr ⟨front, behind, rfl, ?_⟩
          rw [byteLength_cons, hsize, Nat.add_assoc start 1]
    · rw [ofText_cons_of_ne hc, ih]
      constructor
      · rintro ⟨front, behind, rfl, rfl⟩
        refine ⟨c :: front, behind, rfl, ?_⟩
        rw [byteLength_cons, Nat.add_assoc start c.utf8Size]
      · rintro ⟨front, behind, heq, rfl⟩
        rcases front with _ | ⟨d, front⟩
        · exact absurd (List.cons.inj heq).1 hc
        · obtain ⟨rfl, rfl⟩ := List.cons.inj heq
          refine ⟨front, behind, rfl, ?_⟩
          rw [byteLength_cons, Nat.add_assoc start c.utf8Size]

end IndentedLine

end IndentLint
