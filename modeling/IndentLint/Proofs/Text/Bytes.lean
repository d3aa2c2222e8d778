import IndentLint.Text.Bytes
import Mathlib.Data.Option.Basic

/-!
# Cuts at byte positions

A cut at byte `n` succeeds exactly where some beginning of the text is `n` bytes long, and there is at most one such
beginning, since every character takes at least one byte.  So a slice is determined by the text before it and its
own (`slice?_eq_some_iff`), and a slice of the middle of a text is a slice of the text (`slice?_middle`).
-/

namespace IndentLint.Text

@[simp] theorem byteLength_nil : byteLength [] = 0 := rfl

@[simp] theorem byteLength_cons (c : Char) (cs : List Char) :
    byteLength (c :: cs) = c.utf8Size + byteLength cs := rfl

@[simp] theorem byteLength_append (a b : List Char) : byteLength (a ++ b) = byteLength a + byteLength b := by
  induction a with
  | nil => simp
  | cons c a ih => rw [List.cons_append, byteLength_cons, byteLength_cons, ih, Nat.add_assoc]

theorem byteLength_append_newline (cs : List Char) : byteLength (cs ++ ['\n']) = byteLength cs + 1 := by
  rw [byteLength_append]
  rfl

theorem byteLength_pos {cs : List Char} (h : cs ≠ []) : 0 < byteLength cs := by
  cases cs with
  | nil => exact absurd rfl h
  | cons c cs =>
    have := Char.utf8Size_pos c
    rw [byteLength_cons]; omega

theorem byteLength_eq_length {cs : List Char} (h : ∀ c ∈ cs, c.utf8Size = 1) : byteLength cs = cs.length := by
  induction cs with
  | nil => rfl
  | cons c cs ih =>
    rw [byteLength_cons, h c (by simp), ih fun d hd => h d (by simp [hd]), List.length_cons]
    omega

theorem eq_nil_of_byteLength_eq_zero {cs : List Char} (h : byteLength cs = 0) : cs = [] := by
  by_cases hcs : cs = []
  · exact hcs
  · have := byteLength_pos hcs
    omega

/-- Of two beginnings of a text the one with fewer bytes is a beginning of the other. -/
theorem append_split_of_byteLength_le {a b a' b' : List Char} (h : a ++ b = a' ++ b')
    (hle : byteLength a ≤ byteLength a') : ∃ d, a' = a ++ d ∧ b = d ++ b' := by
  rcases List.append_eq_append_iff.1 h with ⟨d, ha, hb⟩ | ⟨d, ha, hb⟩
  · exact ⟨d, ha, hb⟩
  · have hd : byteLength d = 0 := by
      rw [ha, byteLength_append] at hle
      omega
    obtain rfl := eq_nil_of_byteLength_eq_zero hd
    exact ⟨[], by simpa using ha.symm, by simpa using hb.symm⟩

/-! ### Cuts -/

private theorem splitBytesFrom_eq_some_iff {cs taken a b : List Char} {n : Nat} :
    splitBytesFrom taken cs n = some (a, b) ↔ ∃ p, a = taken.reverse ++ p ∧ cs = p ++ b ∧ byteLength p = n := by
  induction cs generalizing taken n with
  | nil =>
    cases n with
    | zero =>
      simp only [splitBytesFrom, Option.some.injEq, Prod.mk.injEq]
      constructor
      · rintro ⟨rfl, rfl⟩
        exact ⟨[], by simp⟩
      · rintro ⟨p, rfl, hp, -⟩
        obtain ⟨rfl, rfl⟩ := List.append_eq_nil_iff.1 hp.symm
        simp
    | succ n =>
      simp only [splitBytesFrom, reduceCtorEq, false_iff]
      rintro ⟨p, -, hp, hn⟩
      obtain ⟨rfl, rfl⟩ := List.append_eq_nil_iff.1 hp.symm
      simp at hn
  | cons c cs ih =>
    have hc := Char.utf8Size_pos c
    cases n with
    | zero =>
      simp only [splitBytesFrom, Option.some.injEq, Prod.mk.injEq]
      constructor
      · rintro ⟨rfl, rfl⟩
        exact ⟨[], by simp⟩
      · rintro ⟨p, rfl, hp, hn⟩
        obtain rfl := eq_nil_of_byteLength_eq_zero hn
        simpa using hp
    | succ n =>
      rw [splitBytesFrom]
      split
      · rename_i hle
        rw [ih]
        constructor
        · rintro ⟨p, rfl, rfl, hn⟩
          exact ⟨c :: p, by simp, by simp, by rw [byteLength_cons, hn]; omega⟩
        · rintro ⟨p, rfl, hp, hn⟩
          cases p with
          | nil => simp at hn
          | cons d p =>
            obtain ⟨rfl, rfl⟩ := List.cons.inj hp
            rw [byteLength_cons] at hn
            exact ⟨p, by simp, rfl, by omega⟩
      · rename_i hgt
        simp only [reduceCtorEq, false_iff]
        rintro ⟨p, -, hp, hn⟩
        cases p with
        | nil => simp at hn
        | cons d p =>
          obtain ⟨rfl, -⟩ := List.cons.inj hp
          rw [byteLength_cons] at hn
          omega

theorem splitBytes?_eq_some_iff {cs a b : List Char} {n : Nat} :
    splitBytes? cs n = some (a, b) ↔ cs = a ++ b ∧ byteLength a = n := by
  rw [splitBytes?, splitBytesFrom_eq_some_iff]
  constructor
  · rintro ⟨p, rfl, rfl, hn⟩
    exact ⟨by simp, by simpa using hn⟩
  · rintro ⟨rfl, hn⟩
    exact ⟨a, by simp, rfl, hn⟩

theorem splitBytes?_byteLength (a b : List Char) : splitBytes? (a ++ b) (byteLength a) = some (a, b) :=
  splitBytes?_eq_some_iff.2 ⟨rfl, rfl⟩

/-! ### Slices -/

theorem slice?_eq_some_iff {cs m : List Char} {start stop : Nat} :
    slice? cs start stop = some m ↔
      ∃ a b, cs = a ++ (m ++ b) ∧ byteLength a = start ∧ start + byteLength m = stop := by
  simp only [slice?, Option.bind_eq_bind, Option.pure_def, Option.bind_eq_some_iff, Option.guard_eq_some',
    Option.some.injEq, exists_const]
  constructor
  · rintro ⟨hle, ⟨a, rest⟩, ha, ⟨m, b⟩, hm, rfl⟩
    obtain ⟨rfl, rfl⟩ := splitBytes?_eq_some_iff.1 ha
    obtain ⟨rfl, hlen⟩ := splitBytes?_eq_some_iff.1 hm
    refine ⟨a, b, rfl, rfl, ?_⟩
    dsimp only
    omega
  · rintro ⟨a, b, rfl, rfl, hlen⟩
    refine ⟨by omega, (a, m ++ b), splitBytes?_byteLength a _, (m, b), ?_, rfl⟩
    exact splitBytes?_eq_some_iff.2 ⟨rfl, by omega⟩

theorem slice?_byteLength (a m b : List Char) :
    slice? (a ++ (m ++ b)) (byteLength a) (byteLength a + byteLength m) = some m :=
  slice?_eq_some_iff.2 ⟨a, b, rfl, rfl, rfl⟩

/-- A slice of the middle of a text, up to its end, is a slice of the text. -/
theorem slice?_middle {a cs b : List Char} {start stop : Nat} (hstop : stop ≤ byteLength cs) :
    slice? (a ++ (cs ++ b)) (byteLength a + start) (byteLength a + stop) = slice? cs start stop := by
  apply Option.ext
  intro m
  rw [slice?_eq_some_iff, slice?_eq_some_iff]
  constructor
  · rintro ⟨a', b', heq, ha', hm⟩
    obtain ⟨d, rfl, hd⟩ := append_split_of_byteLength_le heq (by omega)
    rw [byteLength_append] at ha'
    rw [← List.append_assoc] at hd
    obtain ⟨d', rfl, hb'⟩ := append_split_of_byteLength_le hd.symm (by rw [byteLength_append]; omega)
    exact ⟨d, d', by simp, by omega, by omega⟩
  · rintro ⟨a', b', rfl, rfl, rfl⟩
    exact ⟨a ++ a', b' ++ b, by simp, by simp, by omega⟩

end IndentLint.Text
