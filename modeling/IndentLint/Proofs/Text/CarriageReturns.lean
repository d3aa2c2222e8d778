import IndentLint.Proofs.Layout.Lines
import Mathlib.Data.List.Forall2

/-!
# Carriage returns before line feeds

A text without carriage returns, written with one before each of its line feeds, has the same lines: the last line is
untouched (`lastLine_crlf`), the lines begun have the same indentation (`forall₂_ofText_crlf`), and a place has the same
line and column (`LineIndex.position_crlf`).
-/

namespace IndentLint

namespace Text

/-- The text with a carriage return before each line feed. -/
def crlf (cs : List Char) : List Char :=
  cs.flatMap fun c => if c = '\n' then ['\r', '\n'] else [c]

@[simp] theorem crlf_nil : crlf [] = [] := rfl

@[simp] theorem crlf_append (a b : List Char) : crlf (a ++ b) = crlf a ++ crlf b :=
  List.flatMap_append

@[simp] theorem crlf_newline (cs : List Char) : crlf ('\n' :: cs) = '\r' :: '\n' :: crlf cs := rfl

private theorem crlf_cons_of_ne {c : Char} (hc : c ≠ '\n') (cs : List Char) : crlf (c :: cs) = c :: crlf cs := by
  simp [crlf, hc]

private theorem crlf_eq_self {cs : List Char} (h : '\n' ∉ cs) : crlf cs = cs := by
  induction cs with
  | nil => rfl
  | cons c cs ih =>
    rw [List.mem_cons, not_or] at h
    rw [crlf_cons_of_ne (Ne.symm h.1), ih h.2]

theorem newline_mem_crlf {cs : List Char} : '\n' ∈ crlf cs ↔ '\n' ∈ cs := by
  constructor
  · intro h
    by_contra hcs
    rw [crlf_eq_self hcs] at h
    exact hcs h
  · intro h
    obtain ⟨a, b, rfl⟩ := List.append_of_mem h
    simp

private theorem count_newline_crlf (cs : List Char) : (crlf cs).count '\n' = cs.count '\n' := by
  induction cs with
  | nil => rfl
  | cons c cs ih =>
    by_cases hc : c = '\n'
    · subst hc
      simp [ih]
    · rw [crlf_cons_of_ne hc, List.count_cons_of_ne hc, List.count_cons_of_ne hc, ih]

/-- There is no line feed in the last line. -/
theorem lastLine_crlf (cs : List Char) : lastLine (crlf cs) = lastLine cs := by
  rcases newline_cases cs with h | ⟨front, tail, rfl, h⟩
  · rw [crlf_eq_self h]
  · have hcrlf : crlf (front ++ '\n' :: tail) = (crlf front ++ ['\r']) ++ '\n' :: tail := by
      simp [crlf_eq_self h]
    rw [hcrlf, lastLine_append_newline h, lastLine_append_newline h]

private theorem dropCarriageReturn_eq_self {cs : List Char} (h : '\r' ∉ cs) : dropCarriageReturn cs = cs := by
  rw [dropCarriageReturn, if_neg]
  exact fun hlast => h (List.mem_of_getLast? hlast)

private theorem dropCarriageReturn_concat (cs : List Char) : dropCarriageReturn (cs ++ ['\r']) = cs := by
  rw [dropCarriageReturn, if_pos List.getLast?_concat, List.dropLast_concat]

private theorem takeWhile_append_newline {x : List Char} (hx : '\n' ∉ x) (y : List Char) :
    (x ++ '\n' :: y).takeWhile (· != '\n') = x := by
  rw [List.takeWhile_append_of_pos (bne_newline_of_mem hx), List.takeWhile_cons_of_neg (by simp), List.append_nil]

/-- The first line of a text without carriage returns gets one more, which is not part of its indentation. -/
private theorem dropCarriageReturn_takeWhile_crlf {cs : List Char} (h : '\r' ∉ cs) :
    dropCarriageReturn ((crlf cs).takeWhile (· != '\n')) = dropCarriageReturn (cs.takeWhile (· != '\n')) := by
  by_cases hcs : '\n' ∈ cs
  · obtain ⟨x, y, rfl, hx⟩ := List.eq_append_cons_of_mem hcs
    have hcrlf : crlf (x ++ '\n' :: y) = (x ++ ['\r']) ++ '\n' :: crlf y := by
      simp [crlf_eq_self hx]
    have hreturn : '\r' ∉ x := fun hmem => h (List.mem_append_left _ hmem)
    rw [hcrlf, takeWhile_append_newline (by simp [hx]), takeWhile_append_newline hx, dropCarriageReturn_concat,
      dropCarriageReturn_eq_self hreturn]
  · rw [crlf_eq_self hcs]

end Text

/-- A place has the same line and column, whichever way the lines end. -/
theorem LineIndex.position_crlf (a b : List Char) :
    (LineIndex.ofText (Text.crlf (a ++ b))).position (Text.crlf (a ++ b)) (Text.byteLength (Text.crlf a)) =
      (LineIndex.ofText (a ++ b)).position (a ++ b) (Text.byteLength a) := by
  rw [Text.crlf_append, position_byteLength, position_byteLength, Text.count_newline_crlf, Text.lastLine_crlf]

namespace IndentedLine

open Text

/-- A text without carriage returns begins the same lines when it gets them.  They are at the places that have as much
of the text before them. -/
theorem forall₂_ofText_crlf {text : List Char} (h : '\r' ∉ text) (start start' : Nat) :
    List.Forall₂
      (fun l m => l.indentation = m.indentation ∧ ∃ a b, text = a ++ b ∧ l.offset = start + byteLength a ∧
        m.offset = start' + byteLength (crlf a))
      (ofText start text) (ofText start' (crlf text)) := by
  induction text generalizing start start' with
  | nil => exact List.Forall₂.nil
  | cons c text ih =>
    rw [List.mem_cons, not_or] at h
    by_cases hc : c = '\n'
    · subst hc
      have hsize : '\n'.utf8Size = 1 := rfl
      have hreturn : '\r'.utf8Size = 1 := rfl
      rw [crlf_newline, ofText_cons_of_ne (show '\r' ≠ '\n' by decide), ofText_newline, ofText_newline,
        hreturn]
      refine List.Forall₂.cons ⟨(dropCarriageReturn_takeWhile_crlf h.2).symm, ['\n'], text, rfl, rfl, rfl⟩ ?_
      refine (ih h.2 (start + 1) (start' + 1 + 1)).imp ?_
      rintro l m ⟨hlm, a, b, rfl, hl, hm⟩
      refine ⟨hlm, '\n' :: a, b, rfl, ?_, ?_⟩
      · rw [hl, byteLength_cons, hsize, Nat.add_assoc]
      · rw [hm, crlf_newline, byteLength_cons, byteLength_cons, hsize, hreturn, Nat.add_assoc, Nat.add_assoc]
    · rw [crlf_cons_of_ne hc, ofText_cons_of_ne hc, ofText_cons_of_ne hc]
      refine (ih h.2 (start + c.utf8Size) (start' + c.utf8Size)).imp ?_
      rintro l m ⟨hlm, a, b, rfl, hl, hm⟩
      refine ⟨hlm, c :: a, b, rfl, ?_, ?_⟩
      · rw [hl, byteLength_cons, Nat.add_assoc]
      · rw [hm, crlf_cons_of_ne hc, byteLength_cons, Nat.add_assoc]

end IndentedLine

end IndentLint
