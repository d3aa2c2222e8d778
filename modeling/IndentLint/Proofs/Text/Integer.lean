import IndentLint.Proofs.Text.Blank
import IndentLint.Text.Integer

/-!
# Reading integers

A text is read as an integer of 64 bits just if it is at most one sign and then digits, at least one, and its number
fits (`integer64?_eq_some_iff`).  A number may be spelled with blanks around it, with zeros before its digits and, where
it is not negative, with a plus; without the blanks this is a text that writes the number (`Spells.writes_trim`).
-/

namespace IndentLint.Text

/-- The text is one or more decimal digits. -/
def IsDigits (cs : List Char) : Prop :=
  cs ≠ [] ∧ ∀ c ∈ cs, c.isDigit = true

/-- The text writes the number: at most one sign, and then digits. -/
inductive Writes : Int → List Char → Prop where
  | unsigned {digits} (h : IsDigits digits) : Writes (Nat.ofDigitChars 10 digits 0) digits
  | plus {digits} (h : IsDigits digits) : Writes (Nat.ofDigitChars 10 digits 0) ('+' :: digits)
  | minus {digits} (h : IsDigits digits) : Writes (-(Nat.ofDigitChars 10 digits 0)) ('-' :: digits)

/-- The number fits in 64 bits with a sign. -/
def Fits64 (n : Int) : Prop :=
  -9223372036854775808 ≤ n ∧ n ≤ 9223372036854775807

instance (n : Int) : Decidable (Fits64 n) :=
  inferInstanceAs (Decidable (_ ∧ _))

/-! ### Digits -/

private theorem digitsFrom?_eq_some {cs : List Char} (h : ∀ c ∈ cs, c.isDigit = true) (n : Nat) :
    digitsFrom? n cs = some (Nat.ofDigitChars 10 cs n) := by
  induction cs generalizing n with
  | nil => rfl
  | cons c cs ih =>
    rw [digitsFrom?, if_pos (h c List.mem_cons_self), ih fun d hd => h d (List.mem_cons_of_mem c hd),
      Nat.ofDigitChars_cons]

private theorem isDigit_of_digitsFrom? {cs : List Char} {n m : Nat} (h : digitsFrom? n cs = some m) :
    ∀ c ∈ cs, c.isDigit = true := by
  induction cs generalizing n with
  | nil => exact fun c hc => absurd hc List.not_mem_nil
  | cons c cs ih =>
    rw [digitsFrom?] at h
    split at h
    · rename_i hc
      intro d hd
      rcases List.mem_cons.1 hd with rfl | hd
      · exact hc
      · exact ih h d hd
    · cases h

theorem natural?_eq_some_iff {cs : List Char} {n : Nat} :
    natural? cs = some n ↔ IsDigits cs ∧ Nat.ofDigitChars 10 cs 0 = n := by
  rw [natural?, IsDigits]
  constructor
  · intro h
    split at h
    · cases h
    · rename_i hempty
      have hdigits := isDigit_of_digitsFrom? h
      rw [digitsFrom?_eq_some hdigits] at h
      exact ⟨⟨by simpa using hempty, hdigits⟩, Option.some.inj h⟩
  · rintro ⟨⟨hne, hdigits⟩, rfl⟩
    rw [if_neg (by simpa using hne), digitsFrom?_eq_some hdigits]

private theorem isDigits_toDigits (n : Nat) : IsDigits (Nat.toDigits 10 n) :=
  ⟨Nat.toDigits_ne_nil, fun _ hc => Nat.isDigit_of_mem_toDigits (by decide) (by decide) hc⟩

/-- The decimal digits of a number write the number. -/
theorem natural?_toDigits (n : Nat) : natural? (Nat.toDigits 10 n) = some n :=
  natural?_eq_some_iff.2 ⟨isDigits_toDigits n, Nat.ofDigitChars_ten_toDigits⟩

/-! ### Signs -/

private theorem fit64?_eq_some_iff {k n : Int} : fit64? k = some n ↔ k = n ∧ Fits64 n := by
  have hrange : -((Nat.pow 2 63 : Nat) : Int) ≤ k ∧ k < (Nat.pow 2 63 : Nat) ↔ Fits64 k := by
    have hpow : ((Nat.pow 2 63 : Nat) : Int) = 9223372036854775808 := rfl
    rw [hpow, Fits64]
    omega
  unfold fit64?
  constructor
  · intro h
    split at h
    · rename_i hfits
      obtain rfl := Option.some.inj h
      exact ⟨rfl, hrange.1 hfits⟩
    · cases h
  · rintro ⟨rfl, hfits⟩
    exact if_pos (hrange.2 hfits)

private theorem bind_natural?_eq_some_iff {cs : List Char} {f : Nat → Int} {n : Int} :
    ((natural? cs).bind fun k => fit64? (f k)) = some n ↔
      (IsDigits cs ∧ f (Nat.ofDigitChars 10 cs 0) = n) ∧ Fits64 n := by
  simp only [Option.bind_eq_some_iff, natural?_eq_some_iff, fit64?_eq_some_iff]
  constructor
  · rintro ⟨k, ⟨hdigits, rfl⟩, hn, hfits⟩
    exact ⟨⟨hdigits, hn⟩, hfits⟩
  · rintro ⟨⟨hdigits, hn⟩, hfits⟩
    exact ⟨_, ⟨hdigits, rfl⟩, hn, hfits⟩

private theorem not_isDigits_cons {c : Char} {cs : List Char} (h : c.isDigit = false) : ¬ IsDigits (c :: cs) := by
  rintro ⟨-, hdigits⟩
  rw [hdigits c List.mem_cons_self] at h
  cases h

/-- A text is read as an integer just if it writes one that fits. -/
theorem integer64?_eq_some_iff {cs : List Char} {n : Int} : integer64? cs = some n ↔ Writes n cs ∧ Fits64 n := by
  unfold integer64?
  split
  · rename_i digits
    rw [bind_natural?_eq_some_iff]
    refine and_congr_left fun _ => ⟨?_, fun h => ?_⟩
    · rintro ⟨hdigits, rfl⟩
      exact .minus hdigits
    · cases h with
      | unsigned h => exact absurd h (not_isDigits_cons rfl)
      | minus h => exact ⟨h, rfl⟩
  · rename_i digits
    rw [bind_natural?_eq_some_iff]
    refine and_congr_left fun _ => ⟨?_, fun h => ?_⟩
    · rintro ⟨hdigits, rfl⟩
      exact .plus hdigits
    · cases h with
      | unsigned h => exact absurd h (not_isDigits_cons rfl)
      | plus h => exact ⟨h, rfl⟩
  · rename_i hminus hplus
    rw [bind_natural?_eq_some_iff]
    refine and_congr_left fun _ => ⟨?_, fun h => ?_⟩
    · rintro ⟨hdigits, rfl⟩
      exact .unsigned hdigits
    · cases h with
      | unsigned h => exact ⟨h, rfl⟩
      | plus h => exact absurd rfl (hplus _)
      | minus h => exact absurd rfl (hminus _)

/-! ### Spellings -/

/-- The text spells the number in decimal: a minus before a negative number and at most a plus before another, then any
number of zeros before its digits, and blanks around all. -/
def Spells (n : Int) (cs : List Char) : Prop :=
  ∃ front sign zeros back,
    cs = front ++ ((sign ++ (List.replicate zeros '0' ++ Nat.toDigits 10 n.natAbs)) ++ back) ∧
    (∀ c ∈ front, isBlank c = true) ∧ (∀ c ∈ back, isBlank c = true) ∧
    (n < 0 ∧ sign = ['-'] ∨ 0 ≤ n ∧ (sign = [] ∨ sign = ['+']))

/-- The text that is printed for a number spells it. -/
theorem spells_toString (n : Int) : Spells n (toString n).toList := by
  have hnone : ∀ c ∈ ([] : List Char), isBlank c = true := fun c hc => absurd hc List.not_mem_nil
  rw [Int.toString_eq_repr, Int.repr_eq_if]
  by_cases hn : 0 ≤ n
  · refine ⟨[], [], 0, [], ?_, hnone, hnone, .inr ⟨hn, .inl rfl⟩⟩
    have habs : n.toNat = n.natAbs := by omega
    rw [if_pos hn, habs, Nat.toList_repr]
    simp
  · refine ⟨[], ['-'], 0, [], ?_, hnone, hnone, .inl ⟨by omega, rfl⟩⟩
    have habs : (-n).toNat = n.natAbs := by omega
    rw [if_neg hn, habs, String.toList_append, Nat.toList_repr]
    simp

private theorem isBlank_eq_false_of_isDigit {c : Char} (h : c.isDigit = true) : isBlank c = false := by
  have hrange : 48 ≤ c.toNat ∧ c.toNat ≤ 57 := by
    simpa [Char.isDigit, UInt32.le_iff_toNat_le] using h
  simp only [isBlank, blankRanges, List.any_cons, List.any_nil, Bool.or_eq_false_iff, Bool.and_eq_false_iff,
    decide_eq_false_iff_not, and_true]
  omega

/-- Zeros before its digits do not change a number. -/
private theorem isDigits_replicate_zero_append (zeros n : Nat) :
    IsDigits (List.replicate zeros '0' ++ Nat.toDigits 10 n) ∧
      Nat.ofDigitChars 10 (List.replicate zeros '0' ++ Nat.toDigits 10 n) 0 = n := by
  refine ⟨⟨List.append_ne_nil_of_right_ne_nil _ Nat.toDigits_ne_nil, fun c hc => ?_⟩, ?_⟩
  · rcases List.mem_append.1 hc with hc | hc
    · rw [List.eq_of_mem_replicate hc]
      rfl
    · exact (isDigits_toDigits n).2 c hc
  · rw [Nat.ofDigitChars_append, Nat.ofDigitChars_replicate_zero, Nat.mul_zero, Nat.ofDigitChars_ten_toDigits]

/-- The text that spells a number writes it when it is trimmed. -/
theorem Spells.writes_trim {n : Int} {cs : List Char} (h : Spells n cs) : Writes n (trim cs) := by
  obtain ⟨front, sign, zeros, back, rfl, hfront, hback, hsign⟩ := h
  obtain ⟨hdigits, hvalue⟩ := isDigits_replicate_zero_append zeros n.natAbs
  generalize List.replicate zeros '0' ++ Nat.toDigits 10 n.natAbs = digits at hdigits hvalue ⊢
  have hblank : ∀ c ∈ sign ++ digits, isBlank c = false := by
    intro c hc
    rcases List.mem_append.1 hc with hc | hc
    · obtain ⟨-, rfl⟩ | ⟨-, rfl | rfl⟩ := hsign
      · rw [List.mem_singleton.1 hc]; rfl
      · exact absurd hc List.not_mem_nil
      · rw [List.mem_singleton.1 hc]; rfl
    · exact isBlank_eq_false_of_isDigit (hdigits.2 c hc)
  rw [trim_append hfront hback (visible_of_forall (List.append_ne_nil_of_right_ne_nil _ hdigits.1) hblank)]
  obtain ⟨hn, rfl⟩ | ⟨hn, rfl | rfl⟩ := hsign
  · have hneg : n = -(Nat.ofDigitChars 10 digits 0 : Int) := by omega
    rw [hneg]
    exact .minus hdigits
  · have hnat : n = (Nat.ofDigitChars 10 digits 0 : Int) := by omega
    rw [hnat]
    exact .unsigned hdigits
  · have hnat : n = (Nat.ofDigitChars 10 digits 0 : Int) := by omega
    rw [hnat]
    exact .plus hdigits

end IndentLint.Text
