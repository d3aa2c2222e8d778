import IndentLint.Json.Printer
import IndentLint.Json.Token
import Mathlib.Data.List.TakeDrop
import Mathlib.Tactic.IntervalCases

/-!
# Scanning what was written

A string literal that was written scans to its text, whatever the text, as each escape pushes the character that it
stands for (`scan?_quote`).  A natural number scans to its digits if what follows does not go on with it
(`scan?_toDigits`).  A text scans to some tokens if it does so with any number of steps that exceeds its length
(`Scans`), which can be shown one token at a time.
-/

namespace IndentLint.JsonToken

open Json (escapeChar hexChar quote)

/-! ### Strings -/

private theorem hexDigit?_hexChar {n : Nat} (h : n < 16) : hexDigit? (hexChar n) = some n := by
  interval_cases n <;> rfl

/-- The escape of a control character writes its number. -/
private theorem hex4?_hexChar {n : Nat} (h : n < 0x20) :
    hex4? '0' '0' (hexChar (n / 16)) (hexChar (n % 16)) = some n := by
  have hhigh : n / 16 < 16 := by omega
  have hlow : n % 16 < 16 := by omega
  have hzero : hexDigit? '0' = some 0 := rfl
  simp only [hex4?, hzero, hexDigit?_hexChar hhigh, hexDigit?_hexChar hlow]
  exact congrArg some (by omega)

/-- A number below the surrogates stands for the character itself. -/
private theorem StringSoFar.pushUnit_of_lt (taken : List Char) {n : Nat} (h : n < 0xD800) :
    StringSoFar.pushUnit ⟨some taken, none⟩ n = ⟨some (Char.ofNat n :: taken), none⟩ := by
  have hhigh : isHighSurrogate n = false := by simp [isHighSurrogate, h]
  have hlow : isLowSurrogate n = false := by
    have : ¬ 0xDC00 ≤ n := by omega
    simp [isLowSurrogate, this]
  rw [pushUnit, hhigh, hlow]
  rfl

/-- A character as it is written in a string literal is read as this character. -/
private theorem scanString_escapeChar (taken : List Char) (c : Char) (rest : List Char) :
    scanString ⟨some taken, none⟩ (escapeChar c ++ rest) = scanString ⟨some (c :: taken), none⟩ rest := by
  unfold escapeChar
  split_ifs with hquote hbackslash hb ht hn hf hr hcontrol
  · subst hquote; rfl
  · subst hbackslash; rfl
  · subst hb; rfl
  · subst ht; rfl
  · subst hn; rfl
  · subst hf; rfl
  · subst hr; rfl
  · show scanString _ ('\\' :: 'u' :: '0' :: '0' :: hexChar (c.toNat / 16) :: hexChar (c.toNat % 16) :: rest) = _
    rw [scanString, hex4?_hexChar hcontrol]
    dsimp only
    rw [StringSoFar.pushUnit_of_lt taken (by omega), Char.ofNat_toNat]
  · show scanString _ (c :: rest) = _
    rw [scanString, if_neg hcontrol]
    · rfl
    · exact hquote
    · exact fun _ _ _ _ _ heq _ => hbackslash heq
    · exact fun _ _ heq _ => hbackslash heq

private theorem scanString_escaped (cs taken rest : List Char) :
    scanString ⟨some taken, none⟩ (cs.flatMap escapeChar ++ '"' :: rest) =
      some (⟨some (cs.reverse ++ taken), none⟩, rest) := by
  induction cs generalizing taken with
  | nil => rfl
  | cons c cs ih =>
    rw [List.flatMap_cons, List.append_assoc, scanString_escapeChar, ih, List.reverse_cons, List.append_assoc]
    rfl

/-- A string literal scans to the text that it was written for. -/
theorem scan?_quote (text : String) (rest : List Char) :
    scan? (quote text ++ rest) = some (string (some text), rest) := by
  have hquote : quote text ++ rest = '"' :: (text.toList.flatMap escapeChar ++ '"' :: rest) := by simp [quote]
  rw [hquote, scan?, StringSoFar.empty, scanString_escaped]
  simp [StringSoFar.text?]

/-! ### Numbers -/

/-- The text does not go on with a number. -/
def EndsNumber (rest : List Char) : Prop :=
  ∀ c ∈ rest.head?, c.isDigit = false ∧ c ≠ '.' ∧ c ≠ 'e' ∧ c ≠ 'E'

theorem endsNumber_nil : EndsNumber [] := by
  simp [EndsNumber]

theorem endsNumber_cons {c : Char} {rest : List Char} :
    EndsNumber (c :: rest) ↔ c.isDigit = false ∧ c ≠ '.' ∧ c ≠ 'e' ∧ c ≠ 'E' := by
  simp [EndsNumber]

theorem endsNumber_of_isJsonBlank {c : Char} (hc : isJsonBlank c = true) (rest : List Char) :
    EndsNumber (c :: rest) := by
  simp only [isJsonBlank, Bool.or_eq_true, beq_iff_eq] at hc
  rw [endsNumber_cons]
  rcases hc with ((rfl | rfl) | rfl) | rfl
  all_goals decide

private theorem scanDigits?_append {digits rest : List Char} (hdigits : ∀ c ∈ digits, c.isDigit = true)
    (hne : digits ≠ []) (hrest : EndsNumber rest) : scanDigits? (digits ++ rest) = some (digits, rest) := by
  have hspan : (digits ++ rest).span Char.isDigit = (digits, rest) := by
    rw [List.span_eq_takeWhile_dropWhile, List.takeWhile_append_of_pos hdigits, List.dropWhile_append_of_pos hdigits]
    cases rest with
    | nil => simp
    | cons c rest => simp [(hrest c rfl).1]
  rw [scanDigits?, hspan]
  split
  · rename_i heq
    exact absurd (congrArg Prod.fst heq) hne
  · rename_i heq
    rw [heq]

/-- The digits of a number other than zero do not start with a zero. -/
private theorem head?_toDigits {n : Nat} (hn : 0 < n) : (Nat.toDigits 10 n).head? ≠ some '0' := by
  induction n using Nat.strongRecOn with
  | ind n ih =>
    rw [Nat.toDigits_eq_if (by decide)]
    split
    · interval_cases n <;> decide
    · obtain ⟨c, cs, hc⟩ := List.exists_cons_of_ne_nil (Nat.toDigits_ne_nil (n := n / 10) (b := 10))
      have h := ih (n / 10) (by omega) (by omega)
      rw [hc] at h ⊢
      exact h

private theorem scanWhole?_toDigits (n : Nat) {rest : List Char} (hrest : EndsNumber rest) :
    scanWhole? (Nat.toDigits 10 n ++ rest) = some (Nat.toDigits 10 n, rest) := by
  have hdigits : ∀ c ∈ Nat.toDigits 10 n, c.isDigit = true :=
    fun c hc => Nat.isDigit_of_mem_toDigits (by decide) (by decide) hc
  rw [scanWhole?, scanDigits?_append hdigits Nat.toDigits_ne_nil hrest]
  split
  · rename_i d ds rest' heq
    simp only [Option.some.injEq, Prod.mk.injEq] at heq
    have hn : n = 0 := by
      by_contra hn
      exact head?_toDigits (Nat.pos_of_ne_zero hn) (by rw [heq.1]; rfl)
    rw [hn, Nat.toDigits_zero] at heq
    simp at heq
  · rfl

theorem exists_digit_toDigits (n : Nat) : ∃ c cs, Nat.toDigits 10 n = c :: cs ∧ c.isDigit = true := by
  obtain ⟨c, cs, hc⟩ := List.exists_cons_of_ne_nil (Nat.toDigits_ne_nil (n := n) (b := 10))
  have hmem : c ∈ Nat.toDigits 10 n := hc ▸ List.mem_cons_self
  exact ⟨c, cs, hc, Nat.isDigit_of_mem_toDigits (by decide) (by decide) hmem⟩

/-- A number as it is written scans to its digits. -/
theorem scan?_toDigits (n : Nat) {rest : List Char} (hrest : EndsNumber rest) :
    scan? (Nat.toDigits 10 n ++ rest) = some (number (Nat.toDigits 10 n), rest) := by
  have hfraction : scanFraction? rest = some ([], rest) := by
    cases rest with
    | nil => rfl
    | cons c rest => rw [scanFraction?]; rintro cs heq; exact (hrest c rfl).2.1 (List.cons.inj heq).1
  have hpower : scanPower? rest = some ([], rest) := by
    cases rest with
    | nil => rfl
    | cons c rest =>
      unfold scanPower?
      exact if_neg (by simp [(hrest c rfl).2.2])
  have hunsigned : scanUnsigned? (Nat.toDigits 10 n ++ rest) = some (Nat.toDigits 10 n, rest) := by
    simp [scanUnsigned?, scanWhole?_toDigits n hrest, hfraction, hpower]
  obtain ⟨c, cs, hc, hdigit⟩ := exists_digit_toDigits n
  have hother : ∀ (d : Char) (ds : List Char), d.isDigit = false → c :: (cs ++ rest) = d :: ds → False := by
    intro d ds hd heq
    rw [(List.cons.inj heq).1, hd] at hdigit
    exact Bool.false_ne_true hdigit
  rw [hc, List.cons_append] at hunsigned ⊢
  rw [scan?, scanNumber?, hunsigned]
  · rfl
  -- a digit starts no other token
  all_goals exact fun _ => hother _ _ (by decide)

/-! ### Rows of tokens -/

/-- The text scans to the tokens. -/
def Scans (cs : List Char) (ts : List JsonToken) : Prop :=
  ∀ fuel, cs.length < fuel → scanAllIn fuel cs = some ts

theorem Scans.scanAll {cs : List Char} {ts : List JsonToken} (h : Scans cs ts) : scanAll cs = some ts :=
  h _ (Nat.lt_succ_self _)

theorem scans_nil : Scans [] [] := by
  rintro (_ | fuel) hfuel
  · exact absurd hfuel (Nat.lt_irrefl 0)
  · rfl

theorem Scans.blank {c : Char} {cs : List Char} {ts : List JsonToken} (hc : isJsonBlank c = true) (h : Scans cs ts) :
    Scans (c :: cs) ts := by
  rintro (_ | fuel) hfuel
  · exact absurd hfuel (Nat.not_lt_zero _)
  · rw [scanAllIn, if_pos hc]
    exact h fuel (Nat.lt_of_succ_lt_succ hfuel)

theorem Scans.blanks {blanks cs : List Char} {ts : List JsonToken} (hblanks : ∀ c ∈ blanks, isJsonBlank c = true)
    (h : Scans cs ts) : Scans (blanks ++ cs) ts := by
  induction blanks with
  | nil => exact h
  | cons c blanks ih =>
    exact (ih fun d hd => hblanks d (List.mem_cons_of_mem c hd)).blank (hblanks c List.mem_cons_self)

/-- A text that starts with a token scans to this token and those of the rest. -/
theorem Scans.token {c : Char} {cs rest : List Char} {t : JsonToken} {ts : List JsonToken} (hc : isJsonBlank c = false)
    (ht : scan? (c :: cs ++ rest) = some (t, rest)) (h : Scans rest ts) : Scans (c :: cs ++ rest) (t :: ts) := by
  rintro (_ | fuel) hfuel
  · exact absurd hfuel (Nat.not_lt_zero _)
  · have hrest : rest.length < fuel := by
      rw [List.length_append, List.length_cons] at hfuel
      omega
    rw [List.cons_append] at ht ⊢
    rw [scanAllIn, hc, if_neg Bool.false_ne_true, ht]
    dsimp only
    rw [h fuel hrest, Option.map_some]

end IndentLint.JsonToken
