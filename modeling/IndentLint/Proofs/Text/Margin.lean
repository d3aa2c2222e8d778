import IndentLint.Proofs.Text.Bytes
import IndentLint.Text.Lines
import Mathlib.Data.List.TakeWhile

/-!
# The margin of a text

The blanks and tabs at the front of a text take one byte each, lie in its first line, and end before a carriage return.
What follows a text does not change its margin, unless it begins with a blank or a tab (`margin_append`).
-/

namespace IndentLint.Text

/-- The blanks and tabs at the front. -/
def margin (cs : List Char) : List Char :=
  cs.takeWhile fun c => c == ' ' || c == '\t'

theorem mem_margin {cs : List Char} {c : Char} (h : c ∈ margin cs) : c = ' ' ∨ c = '\t' := by
  simpa using List.mem_takeWhile_imp h

theorem margin_eq_self_iff {cs : List Char} : margin cs = cs ↔ ∀ c ∈ cs, c = ' ' ∨ c = '\t' := by
  rw [margin, List.takeWhile_eq_self_iff]
  simp only [Bool.or_eq_true, beq_iff_eq]

/-- The margin is the whole text if it is as long. -/
theorem length_margin_eq_iff {cs : List Char} : (margin cs).length = cs.length ↔ margin cs = cs :=
  ⟨(List.takeWhile_prefix _).eq_of_length, congrArg List.length⟩

theorem byteLength_margin (cs : List Char) : byteLength (margin cs) = (margin cs).length := by
  refine byteLength_eq_length fun c hc => ?_
  rcases mem_margin hc with rfl | rfl <;> rfl

/-- The margin does not reach into what follows, unless that begins with a blank or a tab. -/
theorem margin_append {a b : List Char} (hb : ∀ c ∈ b.head?, c ≠ ' ' ∧ c ≠ '\t') : margin (a ++ b) = margin a := by
  induction a with
  | nil =>
    cases b with
    | nil => rfl
    | cons c b =>
      obtain ⟨hblank, htab⟩ := hb c rfl
      exact List.takeWhile_cons_of_neg (by simp [hblank, htab])
  | cons c a ih =>
    simp only [margin, List.cons_append, List.takeWhile_cons] at ih ⊢
    rw [ih]

/-- The margin lies in the first line. -/
theorem margin_takeWhile_newline (cs : List Char) : margin (cs.takeWhile (· != '\n')) = margin cs := by
  have hnext : ∀ c ∈ (cs.dropWhile (· != '\n')).head?, c ≠ ' ' ∧ c ≠ '\t' := by
    intro c hc
    have hstop := List.head?_dropWhile_not (· != '\n') cs
    rw [hc] at hstop
    obtain rfl : c = '\n' := by simpa using hstop
    decide
  conv => rhs; rw [← List.takeWhile_append_dropWhile (p := (· != '\n')) (l := cs)]
  exact (margin_append hnext).symm

/-- A carriage return is not part of the margin. -/
theorem margin_dropCarriageReturn (cs : List Char) : margin (dropCarriageReturn cs) = margin cs := by
  rw [dropCarriageReturn]
  split
  · rename_i hlast
    obtain ⟨front, rfl⟩ := List.getLast?_eq_some_iff.1 hlast
    rw [List.dropLast_concat, margin_append]
    intro c hc
    obtain rfl : '\r' = c := by simpa using hc
    decide
  · rfl

end IndentLint.Text
