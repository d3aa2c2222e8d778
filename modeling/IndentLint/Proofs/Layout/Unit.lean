import IndentLint.Layout.Unit

/-!
# Units are positive

Only positive numbers are read as columns, the default is positive, and the continuation unit falls back to the block
unit.  So both units by which a file is measured are positive, whatever its properties say (`units_pos`).
-/

namespace IndentLint

namespace IndentUnit

/-- A unit that is some columns wide, or disabled. -/
def Positive : IndentUnit → Prop
  | columns n => 0 < n
  | disabled => True

private theorem positive_ofInt (n : Int) : (ofInt n).Positive := by
  unfold ofInt
  split
  · rename_i h
    show 0 < n.toNat
    omega
  · trivial

private theorem positive_of_read? {value : String} {unit : IndentUnit} (h : read? value = some unit) :
    unit.Positive := by
  unfold read? at h
  dsimp only at h
  split at h
  · rename_i n _
    rw [← Option.some.inj h]
    exact positive_ofInt n
  · split at h
    · rw [← Option.some.inj h]
      trivial
    · cases h

/-- A unit that is read, or else the fallback, is positive when the fallback is. -/
private theorem positive_resolve {fallback : IndentUnit} (h : fallback.Positive) (value : Option String) :
    (resolve fallback value).Positive := by
  unfold resolve
  rcases hread : value.bind read? with _ | unit
  · exact h
  · obtain ⟨word, -, hword⟩ := Option.bind_eq_some_iff.1 hread
    exact positive_of_read? hword

private theorem pos_of_columns? {unit : IndentUnit} (h : unit.Positive) {n : Nat} (hn : unit.columns? = some n) :
    0 < n := by
  cases unit with
  | columns m => exact Option.some.inj hn ▸ h
  | disabled => cases hn

end IndentUnit

namespace IndentConfig

open IndentUnit

/-- The units that the properties of a file give are positive. -/
theorem units_pos {properties : Properties} {units : Units} (h : (ofProperties properties).units? = some units) :
    0 < units.block ∧ 0 < units.continuation := by
  have hdefault : (columns defaultIndentSize).Positive := by
    show 0 < defaultIndentSize
    decide
  have hblock : (ofProperties properties).block.Positive := positive_resolve hdefault _
  have hcontinuation : (ofProperties properties).continuation.Positive := positive_resolve hblock _
  simp only [units?, Option.bind_eq_bind, Option.bind_eq_some_iff, Option.pure_def, Option.some.injEq] at h
  obtain ⟨block, hb, continuation, hc, rfl⟩ := h
  exact ⟨pos_of_columns? hblock hb, pos_of_columns? hcontinuation hc⟩

end IndentConfig

end IndentLint
