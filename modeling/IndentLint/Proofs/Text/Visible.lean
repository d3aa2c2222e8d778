import IndentLint.Proofs.Text.Blank
import IndentLint.Proofs.Text.Bytes

/-!
# Visible bytes

A byte of a text is visible when it belongs to a character that is not blank.  Trimming a text takes no visible byte
away (`VisibleAt.trim`), and the trimmed text begins and ends with one, so the bytes of a trimmed text are those
between two visible bytes.
-/

namespace IndentLint.Text

/-- Byte `n` of the text belongs to a character that is not blank. -/
def VisibleAt (cs : List Char) (n : Nat) : Prop :=
  ∃ front c back, cs = front ++ c :: back ∧ byteLength front ≤ n ∧ n < byteLength front + c.utf8Size ∧
    isBlank c = false

variable {cs a b : List Char} {n : Nat}

theorem VisibleAt.lt (h : VisibleAt cs n) : n < byteLength cs := by
  obtain ⟨front, c, back, rfl, -, hn, -⟩ := h
  rw [byteLength_append, byteLength_cons]
  omega

private theorem not_visibleAt_of_forall (h : ∀ c ∈ cs, isBlank c = true) : ¬ VisibleAt cs n := by
  rintro ⟨front, c, back, rfl, -, -, hc⟩
  rw [h c (by simp)] at hc
  exact absurd hc (by decide)

private theorem VisibleAt.of_append (h : VisibleAt (a ++ b) n) :
    VisibleAt a n ∨ byteLength a ≤ n ∧ VisibleAt b (n - byteLength a) := by
  obtain ⟨front, c, back, heq, hle, hlt, hc⟩ := h
  rcases List.append_eq_append_iff.1 heq with ⟨d, rfl, rfl⟩ | ⟨d, rfl, hd⟩
  · rw [byteLength_append] at hle hlt
    exact Or.inr ⟨by omega, d, c, back, rfl, by omega, by omega, hc⟩
  · rcases d with _ | ⟨e, d⟩
    · have hb : b = c :: back := by simpa using hd.symm
      rw [List.append_nil]
      exact Or.inr ⟨hle, [], c, back, hb, Nat.zero_le _, by rw [byteLength_nil]; omega, hc⟩
    · obtain ⟨rfl, -⟩ := List.cons.inj hd
      exact Or.inl ⟨front, c, d, rfl, hle, hlt, hc⟩

theorem VisibleAt.append_right (h : VisibleAt a n) (b : List Char) : VisibleAt (a ++ b) n := by
  obtain ⟨front, c, back, rfl, hn⟩ := h
  exact ⟨front, c, back ++ b, by simp, hn⟩

theorem VisibleAt.append_left (h : VisibleAt b n) (a : List Char) : VisibleAt (a ++ b) (byteLength a + n) := by
  obtain ⟨front, c, back, rfl, hle, hlt, hc⟩ := h
  exact ⟨a ++ front, c, back, by simp, by rw [byteLength_append]; omega, by rw [byteLength_append]; omega, hc⟩

/-- A visible byte of a text that lies in a middle part is visible in this part. -/
theorem VisibleAt.middle {m : List Char} (h : VisibleAt (a ++ (m ++ b)) n) (hle : byteLength a ≤ n)
    (hlt : n < byteLength a + byteLength m) : VisibleAt m (n - byteLength a) := by
  rcases h.of_append with h | ⟨-, h⟩
  · have := h.lt
    omega
  · rcases h.of_append with h | ⟨h, -⟩
    · exact h
    · omega

/-- The visible bytes of a text lie in the trimmed text. -/
theorem VisibleAt.trim (h : VisibleAt cs n) :
    byteLength (cs.takeWhile isBlank) ≤ n ∧ n < byteLength (cs.takeWhile isBlank) + byteLength (Text.trim cs) := by
  obtain ⟨tail, htail, hblank⟩ := trimStart_eq_trim_append cs
  have hcs : cs = cs.takeWhile isBlank ++ (Text.trim cs ++ tail) := by
    rw [← htail]
    exact List.takeWhile_append_dropWhile.symm
  rw [hcs] at h
  rcases h.of_append with h | ⟨hle, h⟩
  · exact absurd h (not_visibleAt_of_forall fun c hc => List.mem_takeWhile_imp hc)
  · rcases h.of_append with h | ⟨-, h⟩
    · have := h.lt
      omega
    · exact absurd h (not_visibleAt_of_forall hblank)

theorem Visible.visibleAt_zero (h : Visible cs) : VisibleAt cs 0 := by
  obtain ⟨⟨x, hx, hblank⟩, -⟩ := h
  obtain ⟨rest, rfl⟩ := List.head?_eq_some_iff.1 hx
  have := Char.utf8Size_pos x
  exact ⟨[], x, rest, rfl, Nat.le_refl _, by rw [byteLength_nil]; omega, hblank⟩

theorem Visible.visibleAt_last (h : Visible cs) : VisibleAt cs (byteLength cs - 1) := by
  obtain ⟨-, x, hx, hblank⟩ := h
  obtain ⟨init, rfl⟩ := List.getLast?_eq_some_iff.1 hx
  have hpos := Char.utf8Size_pos x
  have hlength : byteLength (init ++ [x]) = byteLength init + x.utf8Size := by
    rw [byteLength_append, byteLength_cons, byteLength_nil, Nat.add_zero]
  exact ⟨init, x, [], rfl, by omega, by omega, hblank⟩

end IndentLint.Text
