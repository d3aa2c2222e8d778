import IndentLint.Proofs.Config.Reordering
import IndentLint.Proofs.Text.Integer

/-!
# Units as they are written

A unit is a number that fits in 64 bits or the word `unset`; any other text is no unit (`IndentUnit.read?_eq_none_iff`).
A number that is stored under the key of the block unit, whether as an integer or as a text that spells it, comes through
all layers of a configuration as that many columns if it is positive, and otherwise disables the check
(`IndentConfig.resolved_as_written`).
-/

namespace IndentLint

/-! ### Letters in either case -/

private theorem toNat_toUpper (c : Char) :
    c.toUpper.toNat = if 97 ≤ c.toNat ∧ c.toNat ≤ 122 then c.toNat - 32 else c.toNat := by
  have hfirst : 'a'.val.toNat = 97 := rfl
  have hlast : 'z'.val.toNat = 122 := rfl
  -- the difference is negative, so it is taken modulo 2 ^ 32
  have hgap : ('A'.val - 'a'.val).toNat = 2 ^ 32 - 32 := rfl
  unfold Char.toUpper Char.toNat
  simp only [UInt32.le_iff_toNat_le, hfirst, hlast]
  split
  · rw [UInt32.toNat_add, hgap]
    omega
  · rfl

/-- What has a small letter as its lower case is the letter or its capital. -/
private theorem toLower_eq_iff_of_isLower {c d : Char} (hd : d.isLower = true) :
    c.toLower = d ↔ c = d ∨ c = d.toUpper := by
  have hsmall : 97 ≤ d.toNat ∧ d.toNat ≤ 122 := by
    change (decide ('a'.val ≤ d.val) && decide (d.val ≤ 'z'.val)) = true at hd
    simpa [UInt32.le_iff_toNat_le] using hd
  rw [← Char.toNat_inj, ← Char.toNat_inj, ← Char.toNat_inj, toNat_toLower, toNat_toUpper, if_pos hsmall]
  split <;> omega

private theorem map_toLower_eq_iff {word letters : List Char} (h : ∀ d ∈ letters, d.isLower = true) :
    word.map Char.toLower = letters ↔ List.Forall₂ (fun c d => c = d ∨ c = d.toUpper) word letters := by
  induction letters generalizing word with
  | nil => rw [List.map_eq_nil_iff, List.forall₂_nil_right_iff]
  | cons d letters ih =>
    cases word with
    | nil => simp
    | cons c word =>
      rw [List.map_cons, List.cons.injEq, List.forall₂_cons, toLower_eq_iff_of_isLower (h d List.mem_cons_self),
        ih fun e he => h e (List.mem_cons_of_mem d he)]

/-- The word is `unset`, each of its letters in either case. -/
def IsUnset (word : List Char) : Prop :=
  List.Forall₂ (fun c d => c = d ∨ c = d.toUpper) word "unset".toList

private theorem isUnset_iff {word : List Char} : IsUnset word ↔ word.map Char.toLower = "unset".toList :=
  (map_toLower_eq_iff (List.all_eq_true.1 (by decide +kernel))).symm

/-! ### Reading a unit -/

namespace IndentUnit

open Text (Writes Spells Fits64 trim)

/-- A number that fits is read as it is written. -/
private theorem read?_eq_some_ofInt {value : String} {n : Int} (hwrites : Writes n (trim value.toList))
    (hfits : Fits64 n) : read? value = some (ofInt n) := by
  unfold read?
  dsimp only
  rw [Text.integer64?_eq_some_iff.2 ⟨hwrites, hfits⟩]

/-- A text is no unit just if without the blanks around it, it neither writes a number that fits nor is `unset`. -/
theorem read?_eq_none_iff {value : String} :
    read? value = none ↔
      ¬ (∃ n, Writes n (trim value.toList) ∧ Fits64 n) ∧ ¬ IsUnset (trim value.toList) := by
  rw [isUnset_iff]
  simp only [← Text.integer64?_eq_some_iff]
  unfold read?
  dsimp only
  cases hread : Text.integer64? (trim value.toList) with
  | some n => simp
  | none => simp

private theorem resolve_of_read? {fallback unit : IndentUnit} {text : String} (h : read? text = some unit) :
    resolve fallback (some text) = unit := by
  rw [resolve, Option.bind_some, h, Option.getD_some]

/-- A value that is absent or no unit leaves the fallback. -/
private theorem resolve_eq_fallback {fallback : IndentUnit} {value : Option String}
    (h : ∀ text, value = some text → read? text = none) : resolve fallback value = fallback := by
  have hnone : value.bind read? = none := Option.bind_eq_none_iff.2 h
  rw [resolve, hnone, Option.getD_none]

end IndentUnit

/-! ### A unit in a configuration -/

namespace Toml

open Text (Spells)

/-- The value is the number, or a text that spells it. -/
def Value.Holds (n : Int) (value : Value) : Prop :=
  value = .integer n ∨ ∃ text, value = .string text ∧ Spells n text.toList

/-- Either way the value has a text that spells the number. -/
theorem Value.Holds.scalarText? {n : Int} {value : Value} (h : value.Holds n) :
    ∃ text, value.scalarText? = some text ∧ Spells n text.toList := by
  rcases h with rfl | ⟨text, rfl, hspells⟩
  · exact ⟨toString n, rfl, Text.spells_toString n⟩
  · exact ⟨text, rfl, hspells⟩

end Toml

/-- A file sees under a key what the last layer with the key gives it, where this settles the key. -/
theorem Config.get?_propertiesFor_of_decides {config : Config} {path : Path} {table : Toml.Table} {key text : String}
    (hdecides : Config.Decides (config.layers path) key table) (hsettles : Toml.Settles table key)
    (hgives : Toml.Gives table key text) : (config.propertiesFor path).get? key = some text := by
  obtain ⟨before, after, hsplit, -, hafter⟩ := hdecides
  rw [get?_propertiesFor_layers, findSome?_reverse_eq_some_iff]
  exact ⟨before, table, after, hsplit, (Properties.get?_ofTable_eq_some_iff hsettles).2 hgives,
    fun later hlater => Properties.get?_ofTable_eq_none_iff.2 (hafter later hlater)⟩

namespace IndentConfig

open Text (Writes Fits64 trim)

private theorem block_of_holds {config : Config} {path : Path} {table : Toml.Table} {name : String} {value : Toml.Value}
    {n : Int}
    (hdecides : Config.Decides (config.layers path) indentSizeKey table) (hsettles : Toml.Settles table indentSizeKey)
    (hname : name.toLower = indentSizeKey.toLower) (hentry : (name, value) ∈ table) (hholds : value.Holds n)
    (hfits : Fits64 n) : (ofProperties (config.propertiesFor path)).block = IndentUnit.ofInt n := by
  obtain ⟨text, htext, hspells⟩ := hholds.scalarText?
  have hgives : Toml.Gives table indentSizeKey text := ⟨(name, value), hentry, hname, htext⟩
  rw [ofProperties, Config.get?_propertiesFor_of_decides hdecides hsettles hgives]
  exact IndentUnit.resolve_of_read? (IndentUnit.read?_eq_some_ofInt hspells.writes_trim hfits)

/-- A number under the key of the block unit, in any case, is that many columns if it is positive, and disables the check
otherwise; no text is a unit but one that writes a number that fits, or `unset`; and a continuation unit that is absent
or cannot be read is the block unit. -/
theorem resolved_as_written :
    (∀ (config : Config) (path : Path) (table : Toml.Table) (name : String) (value : Toml.Value) (n : Int),
      Config.Decides (config.layers path) indentSizeKey table → Toml.Settles table indentSizeKey →
      name.toLower = indentSizeKey.toLower → (name, value) ∈ table → value.Holds n → Fits64 n →
        (ofProperties (config.propertiesFor path)).block = if 0 < n then .columns n.toNat else .disabled) ∧
    (∀ value : String, IndentUnit.read? value = none ↔
      ¬ (∃ n, Writes n (trim value.toList) ∧ Fits64 n) ∧ ¬ IsUnset (trim value.toList)) ∧
    (∀ block continuation, (∀ text, continuation = some text → IndentUnit.read? text = none) →
      (resolve block continuation).continuation = (resolve block continuation).block) := by
  refine ⟨?_, fun _ => IndentUnit.read?_eq_none_iff, fun _ _ hunread => IndentUnit.resolve_eq_fallback hunread⟩
  intro config path table name value n hdecides hsettles hname hentry hholds hfits
  exact block_of_holds hdecides hsettles hname hentry hholds hfits

/-- Twelve columns, under another spelling of the key and with blanks of two kinds, a plus and zeros around the digits. -/
def paddedUnit : Toml.Table :=
  [("Indent_Size", .string "\u00a0 +0012\t")]

theorem resolved_as_written_paddedUnit :
    (ofProperties ((Config.withTable paddedUnit).propertiesFor ⟨"a.kt"⟩)).block = .columns 12 ∧
    (resolve (some "2") (some "two")).continuation = (resolve (some "2") (some "two")).block := by
  have hname : "Indent_Size".toLower = indentSizeKey.toLower := toLower_eq_iff.2 (by decide +kernel)
  have hgives : Toml.Gives paddedUnit indentSizeKey "\u00a0 +0012\t" := ⟨_, List.mem_cons_self, hname, rfl⟩
  have hdecides : Config.Decides ((Config.withTable paddedUnit).layers ⟨"a.kt"⟩) indentSizeKey paddedUnit :=
    ⟨[], [], rfl, ⟨_, hgives⟩, fun _ hlater => absurd hlater List.not_mem_nil⟩
  have hdistinct : Toml.HasDistinctKeys paddedUnit := List.pairwise_singleton ..
  have hholds : (Toml.Value.string "\u00a0 +0012\t").Holds 12 :=
    .inr ⟨_, rfl, ['\u00a0', ' '], ['+'], 2, ['\t'], by decide +kernel, List.all_eq_true.1 (by decide +kernel),
      List.all_eq_true.1 (by decide +kernel), .inr ⟨by decide, .inr rfl⟩⟩
  have hunread : ∀ text, some "two" = some text → IndentUnit.read? text = none := by
    rintro _ ⟨⟩
    decide +kernel
  obtain ⟨hblock, -, hcontinuation⟩ := resolved_as_written
  exact ⟨hblock _ _ _ _ _ _ hdecides (hdistinct.settles _) hname List.mem_cons_self hholds (by decide),
    hcontinuation _ _ hunread⟩

end IndentConfig

end IndentLint
