import IndentLint.Proofs.Config.Properties

/-!
# Which layer a value comes from

What a table gives a key is said of its entries alone (`Toml.Gives`).  A file sees a key as the last override that
applies to it and gives the key a text has it; where there is none, as the key was set last; where it was never set, as
the table for every file has it (`Config.sees_iff`).
-/

namespace IndentLint

/-- Two texts are the same up to their case when their characters are. -/
theorem toLower_eq_iff {text other : String} :
    text.toLower = other.toLower ↔ text.toList.map Char.toLower = other.toList.map Char.toLower := by
  rw [← String.toList_inj]
  unfold String.toLower
  rw [String.toList_map, String.toList_map]

/-! ### What a table gives -/

namespace Toml

/-- The table has an entry with the text under the key, in any case. -/
def Gives (table : Table) (key text : String) : Prop :=
  ∃ e ∈ table, e.1.toLower = key.toLower ∧ e.2.scalarText? = some text

/-- All that the table has under the key, in any case, is one text. -/
def Settles (table : Table) (key : String) : Prop :=
  ∀ text other, Gives table key text → Gives table key other → text = other

/-- No two keys of the table differ in their case only. -/
def HasDistinctKeys (table : Table) : Prop :=
  table.Pairwise fun e d => e.1.toLower ≠ d.1.toLower

instance (table : Table) : Decidable (HasDistinctKeys table) :=
  inferInstanceAs (Decidable (table.Pairwise _))

variable {table : Table} {key text : String}

private theorem not_gives_nil : ¬ Gives [] key text := by
  rintro ⟨e, he, -⟩
  cases he

private theorem gives_cons_iff {e : String × Value} :
    Gives (e :: table) key text ↔
      (e.1.toLower = key.toLower ∧ e.2.scalarText? = some text) ∨ Gives table key text := by
  constructor
  · rintro ⟨d, hd, hkey, htext⟩
    rcases List.mem_cons.1 hd with rfl | hd
    · exact Or.inl ⟨hkey, htext⟩
    · exact Or.inr ⟨d, hd, hkey, htext⟩
  · rintro (⟨hkey, htext⟩ | ⟨d, hd, hkey, htext⟩)
    · exact ⟨e, List.mem_cons_self, hkey, htext⟩
    · exact ⟨d, List.mem_cons_of_mem _ hd, hkey, htext⟩

theorem HasDistinctKeys.settles (h : HasDistinctKeys table) (key : String) : Settles table key := by
  induction table with
  | nil => exact fun _ _ htext => absurd htext not_gives_nil
  | cons e table ih =>
    obtain ⟨hfirst, hrest⟩ := List.pairwise_cons.1 h
    have halone : ∀ text, e.1.toLower = key.toLower → ¬ Gives table key text := by
      rintro text hkey ⟨d, hd, hkey', -⟩
      exact hfirst d hd (hkey.trans hkey'.symm)
    intro text other htext hother
    rcases gives_cons_iff.1 htext with ⟨hkey, htext⟩ | htext
    · rcases gives_cons_iff.1 hother with ⟨-, hother⟩ | hother
      · exact Option.some.inj (htext.symm.trans hother)
      · exact absurd hother (halone other hkey)
    · rcases gives_cons_iff.1 hother with ⟨hkey, -⟩ | hother
      · exact absurd htext (halone text hkey)
      · exact ih hrest text other htext hother

end Toml

open Toml (Gives Settles HasDistinctKeys)

namespace Properties

variable {table : Toml.Table} {key text : String}

theorem gives_of_get?_ofTable (h : (ofTable table).get? key = some text) : Gives table key text := by
  induction table with
  | nil => cases h
  | cons e table ih =>
    rw [get?_ofTable_cons, Option.or_eq_some_iff] at h
    rw [Toml.gives_cons_iff]
    rcases h with h | ⟨-, h⟩
    · exact Or.inr (ih h)
    · split at h
      · rename_i hkey
        exact Or.inl ⟨hkey.symm, h⟩
      · cases h

theorem get?_ofTable_eq_none_iff : (ofTable table).get? key = none ↔ ∀ text, ¬ Gives table key text := by
  constructor
  · intro h text htext
    induction table with
    | nil => exact Toml.not_gives_nil htext
    | cons e table ih =>
      rw [get?_ofTable_cons, Option.or_eq_none_iff] at h
      rcases Toml.gives_cons_iff.1 htext with ⟨hkey, htext⟩ | htext
      · rw [if_pos hkey.symm, htext] at h
        cases h.2
      · exact ih h.1 htext
  · intro h
    rw [Option.eq_none_iff_forall_ne_some]
    exact fun text htext => h text (gives_of_get?_ofTable htext)

theorem get?_ofTable_eq_some_iff (h : Settles table key) :
    (ofTable table).get? key = some text ↔ Gives table key text := by
  refine ⟨gives_of_get?_ofTable, fun htext => ?_⟩
  cases hget : (ofTable table).get? key with
  | none => exact absurd htext (get?_ofTable_eq_none_iff.1 hget text)
  | some other => rw [h text other htext (gives_of_get?_ofTable hget)]

end Properties

/-! ### The last that answers -/

/-- Looking from the end of a list, the first answer is that of the last element with one. -/
theorem findSome?_reverse_eq_some_iff {α β : Type} {f : α → Option β} {xs : List α} {b : β} :
    xs.reverse.findSome? f = some b ↔
      ∃ before x after, xs = before ++ x :: after ∧ f x = some b ∧ ∀ y ∈ after, f y = none := by
  rw [List.findSome?_eq_some_iff]
  constructor
  · rintro ⟨after, x, before, hsplit, hx, hafter⟩
    refine ⟨before.reverse, x, after.reverse, ?_, hx, fun y hy => hafter y (List.mem_reverse.1 hy)⟩
    rw [← List.reverse_reverse xs, hsplit]
    simp
  · rintro ⟨before, x, after, rfl, hx, hafter⟩
    refine ⟨after.reverse, x, before.reverse, ?_, hx, fun y hy => hafter y (List.mem_reverse.1 hy)⟩
    simp

private theorem findSome?_reverse_filter {α β : Type} (p : α → Bool) (f : α → Option β) (xs : List α) :
    (xs.filter p).reverse.findSome? f = xs.reverse.findSome? fun x => if p x then f x else none := by
  induction xs with
  | nil => rfl
  | cons x xs ih =>
    rw [List.reverse_cons, List.findSome?_append, ← ih, List.findSome?_singleton]
    cases hx : p x with
    | true => rw [List.filter_cons_of_pos hx, List.reverse_cons, List.findSome?_append, List.findSome?_singleton, if_pos rfl]
    | false => rw [List.filter_cons_of_neg (by simp [hx]), if_neg Bool.false_ne_true, Option.or_none]

namespace Config

/-- No table of settings has two keys that differ in their case only. -/
def HasDistinctKeys (config : Config) : Prop :=
  Toml.HasDistinctKeys config.properties ∧ ∀ o ∈ config.overrides, Toml.HasDistinctKeys o.properties

/-- Sets some values for every file, one after the other. -/
def setProperties (config : Config) (calls : List (String × String)) : Config :=
  calls.foldl (fun config call => config.setProperty call.1 call.2) config

/-- The value that was set last for the key, in any case. -/
def lastSet? (calls : List (String × String)) (key : String) : Option String :=
  calls.reverse.findSome? fun call => if call.1.toLower = key.toLower then some call.2 else none

/-- No override that applies to the file gives the key a text. -/
def NotOverridden (config : Config) (path : Path) (key : String) : Prop :=
  ∀ o ∈ config.overrides, o.appliesTo path = true → ∀ text, ¬ Gives o.properties key text

/-- The value that a file sees under a key after some values were set for every file. -/
inductive Sees (config : Config) (calls : List (String × String)) (path : Path) (key : String) : Option String → Prop where
  /-- The last override that applies and gives the key a text counts. -/
  | fromOverride {before o after text} (hsplit : config.overrides = before ++ o :: after)
      (happlies : o.appliesTo path = true) (hgives : Gives o.properties key text)
      (hlater : ∀ p ∈ after, p.appliesTo path = true → ∀ text, ¬ Gives p.properties key text) :
      Sees config calls path key (some text)
  /-- Of the values that were set for the key, in any case, the last one counts. -/
  | fromCall {before name text after} (hover : config.NotOverridden path key)
      (hsplit : calls = before ++ (name, text) :: after) (hname : name.toLower = key.toLower)
      (hlater : ∀ call ∈ after, call.1.toLower ≠ key.toLower) : Sees config calls path key (some text)
  /-- A key that was not set has what the table for every file gives it. -/
  | fromTable {text} (hover : config.NotOverridden path key) (hcalls : ∀ call ∈ calls, call.1.toLower ≠ key.toLower)
      (hgives : Gives config.properties key text) : Sees config calls path key (some text)
  | fromNowhere (hover : config.NotOverridden path key) (hcalls : ∀ call ∈ calls, call.1.toLower ≠ key.toLower)
      (hnone : ∀ text, ¬ Gives config.properties key text) : Sees config calls path key none

instance (config : Config) : Decidable config.HasDistinctKeys :=
  inferInstanceAs (Decidable (_ ∧ ∀ _ ∈ _, _))

variable {config : Config} {calls : List (String × String)} {path : Path} {key text : String}

/-! ### Layer by layer -/

private theorem overriding?_eq_some_iff (hdistinct : config.HasDistinctKeys) :
    config.overriding? path key = some text ↔
      ∃ before o after, config.overrides = before ++ o :: after ∧ o.appliesTo path = true ∧
        Gives o.properties key text ∧
        ∀ p ∈ after, p.appliesTo path = true → ∀ text, ¬ Gives p.properties key text := by
  unfold overriding?
  rw [findSome?_reverse_filter, findSome?_reverse_eq_some_iff]
  have hsettles : ∀ o ∈ config.overrides, Settles o.properties key := fun o ho => (hdistinct.2 o ho).settles key
  constructor
  · rintro ⟨before, o, after, hsplit, ho, hafter⟩
    split at ho
    · rename_i happlies
      refine ⟨before, o, after, hsplit, happlies, Properties.gives_of_get?_ofTable ho, fun p hp hpapplies => ?_⟩
      have hnone := hafter p hp
      rw [if_pos hpapplies] at hnone
      exact Properties.get?_ofTable_eq_none_iff.1 hnone
    · cases ho
  · rintro ⟨before, o, after, hsplit, happlies, hgives, hafter⟩
    refine ⟨before, o, after, hsplit, ?_, fun p hp => ?_⟩
    · have ho : o ∈ config.overrides := by simp [hsplit]
      rw [if_pos happlies, Properties.get?_ofTable_eq_some_iff (hsettles o ho)]
      exact hgives
    · split
      · rename_i hpapplies
        exact Properties.get?_ofTable_eq_none_iff.2 (hafter p hp hpapplies)
      · rfl

private theorem overriding?_eq_none_iff : config.overriding? path key = none ↔ config.NotOverridden path key := by
  unfold overriding? NotOverridden
  rw [List.findSome?_eq_none_iff]
  constructor
  · intro h o ho happlies
    have hmem : o ∈ (config.overrides.filter (·.appliesTo path)).reverse :=
      List.mem_reverse.2 (List.mem_filter.2 ⟨ho, happlies⟩)
    exact Properties.get?_ofTable_eq_none_iff.1 (h o hmem)
  · intro h o ho
    obtain ⟨ho, happlies⟩ := List.mem_filter.1 (List.mem_reverse.1 ho)
    exact Properties.get?_ofTable_eq_none_iff.2 (h o ho happlies)

private theorem overrides_setProperties (config : Config) (calls : List (String × String)) :
    (config.setProperties calls).overrides = config.overrides := by
  induction calls generalizing config with
  | nil => rfl
  | cons call calls ih => exact ih (config.setProperty call.1 call.2)

/-- The value that was set last for a key counts, and where none was set that of the table. -/
private theorem get?_setProperties (config : Config) (calls : List (String × String)) (key : String) :
    (Properties.ofTable (config.setProperties calls).properties).get? key =
      (lastSet? calls key).or ((Properties.ofTable config.properties).get? key) := by
  induction calls generalizing config with
  | nil => rfl
  | cons call calls ih =>
    have hstep := ih (config.setProperty call.1 call.2)
    rw [get?_setProperty] at hstep
    unfold lastSet? at hstep ⊢
    rw [List.reverse_cons, List.findSome?_append, List.findSome?_singleton, Option.or_assoc]
    refine hstep.trans ?_
    by_cases hname : call.1.toLower = key.toLower
    · rw [if_pos hname, if_pos hname.symm]
      rfl
    · rw [if_neg hname, if_neg (Ne.symm hname)]
      rfl

private theorem get?_propertiesFor_setProperties (config : Config) (calls : List (String × String)) (path : Path)
    (key : String) : ((config.setProperties calls).propertiesFor path).get? key =
      (config.overriding? path key).or
        ((lastSet? calls key).or ((Properties.ofTable config.properties).get? key)) := by
  have hover : (config.setProperties calls).overriding? path key = config.overriding? path key := by
    unfold overriding?
    rw [overrides_setProperties]
  rw [get?_propertiesFor, get?_setProperties, hover]

/-- Setting one key leaves what all files see under other keys. -/
private theorem get?_propertiesFor_setProperty_of_ne {name value : String} (h : name.toLower ≠ key.toLower) :
    ((config.setProperty name value).propertiesFor path).get? key = (config.propertiesFor path).get? key := by
  rw [get?_propertiesFor, get?_propertiesFor, get?_setProperty, if_neg h.symm]
  rfl

private theorem lastSet?_eq_none_iff : lastSet? calls key = none ↔ ∀ call ∈ calls, call.1.toLower ≠ key.toLower := by
  simp [lastSet?, List.findSome?_eq_none_iff]

private theorem lastSet?_eq_some_iff :
    lastSet? calls key = some text ↔
      ∃ before name after, calls = before ++ (name, text) :: after ∧ name.toLower = key.toLower ∧
        ∀ call ∈ after, call.1.toLower ≠ key.toLower := by
  rw [lastSet?, findSome?_reverse_eq_some_iff]
  constructor
  · rintro ⟨before, ⟨name, value⟩, after, hsplit, hcall, hafter⟩
    split at hcall
    · rename_i hname
      obtain rfl : value = text := Option.some.inj hcall
      exact ⟨before, name, after, hsplit, hname, fun call hmem => by simpa using hafter call hmem⟩
    · cases hcall
  · rintro ⟨before, name, after, hsplit, hname, hafter⟩
    exact ⟨before, (name, text), after, hsplit, if_pos hname, fun call hmem => if_neg (hafter call hmem)⟩

private theorem Sees.get?_eq (hdistinct : config.HasDistinctKeys) {value? : Option String}
    (h : config.Sees calls path key value?) : ((config.setProperties calls).propertiesFor path).get? key = value? := by
  rw [get?_propertiesFor_setProperties]
  cases h with
  | fromOverride hsplit happlies hgives hlater =>
    rw [(overriding?_eq_some_iff hdistinct).2 ⟨_, _, _, hsplit, happlies, hgives, hlater⟩]
    rfl
  | fromCall hover hsplit hname hlater =>
    rw [overriding?_eq_none_iff.2 hover, lastSet?_eq_some_iff.2 ⟨_, _, _, hsplit, hname, hlater⟩]
    rfl
  | fromTable hover hcalls hgives =>
    rw [overriding?_eq_none_iff.2 hover, lastSet?_eq_none_iff.2 hcalls,
      (Properties.get?_ofTable_eq_some_iff (hdistinct.1.settles key)).2 hgives]
    rfl
  | fromNowhere hover hcalls hnone =>
    rw [overriding?_eq_none_iff.2 hover, lastSet?_eq_none_iff.2 hcalls,
      Properties.get?_ofTable_eq_none_iff.2 hnone]
    rfl

private theorem sees_get? (hdistinct : config.HasDistinctKeys) (calls : List (String × String)) (path : Path)
    (key : String) : config.Sees calls path key (((config.setProperties calls).propertiesFor path).get? key) := by
  rw [get?_propertiesFor_setProperties]
  cases hover : config.overriding? path key with
  | some text =>
    obtain ⟨before, o, after, hsplit, happlies, hgives, hlater⟩ := (overriding?_eq_some_iff hdistinct).1 hover
    exact .fromOverride hsplit happlies hgives hlater
  | none =>
    rw [overriding?_eq_none_iff] at hover
    rw [Option.none_or]
    cases hcalls : lastSet? calls key with
    | some text =>
      obtain ⟨before, name, after, hsplit, hname, hlater⟩ := lastSet?_eq_some_iff.1 hcalls
      exact .fromCall hover hsplit hname hlater
    | none =>
      rw [lastSet?_eq_none_iff] at hcalls
      rw [Option.none_or]
      cases htable : (Properties.ofTable config.properties).get? key with
      | some text => exact .fromTable hover hcalls (Properties.gives_of_get?_ofTable htable)
      | none => exact .fromNowhere hover hcalls (Properties.get?_ofTable_eq_none_iff.1 htable)

/-- Where no table has two keys that differ in their case only, a file sees under a key in any case what the last layer
with the key has, and setting one key leaves all others as they are. -/
theorem sees_iff (hdistinct : config.HasDistinctKeys) (calls : List (String × String)) (path : Path) (key : String) :
    (∀ value?, ((config.setProperties calls).propertiesFor path).get? key = value? ↔
      config.Sees calls path key value?) ∧
    ∀ name value, name.toLower ≠ key.toLower →
      ((config.setProperties (calls ++ [(name, value)])).propertiesFor path).get? key =
        ((config.setProperties calls).propertiesFor path).get? key := by
  refine ⟨fun value? => ⟨?_, Sees.get?_eq hdistinct⟩, fun name value hname => ?_⟩
  · rintro rfl
    exact sees_get? hdistinct calls path key
  · have hlast : config.setProperties (calls ++ [(name, value)]) = (config.setProperties calls).setProperty name value := by
      unfold setProperties
      rw [List.foldl_append]
      rfl
    rw [hlast, get?_propertiesFor_setProperty_of_ne hname]

/-- Two columns for every file, three for `*.kt`, and for `*.kts` something that is no number. -/
def sampleLayers : Config :=
  { Config.default with
    properties := [("indent_size", .integer 2)]
    overrides := [⟨["*.kt"], [("indent_size", .integer 3)]⟩, ⟨["*.kts"], [("Indent_Size", .array [])]⟩] }

/-- An override that gives a key an array does not hide the value that was set for it. -/
theorem sees_call_below_array : sampleLayers.HasDistinctKeys ∧
    ((sampleLayers.setProperties [("INDENT_SIZE", "8"), ("limit", "2")]).propertiesFor ⟨"b.kts"⟩).get? "indent_size" =
      some "8" := by
  have hdistinct : sampleLayers.HasDistinctKeys := by decide +kernel
  have hover : sampleLayers.NotOverridden ⟨"b.kts"⟩ "indent_size" := by
    rintro o ho happlies text ⟨e, he, -, htext⟩
    rcases List.mem_cons.1 ho with rfl | ho
    · exact absurd happlies (by decide +kernel)
    · obtain rfl := List.mem_singleton.1 ho
      obtain rfl := List.mem_singleton.1 he
      cases htext
  have hlater : ∀ call ∈ [("limit", "2")], call.1.toLower ≠ "indent_size".toLower := by decide +kernel
  have hname : "INDENT_SIZE".toLower = "indent_size".toLower := toLower_eq_iff.2 (by decide +kernel)
  have hsplit : [("INDENT_SIZE", "8"), ("limit", "2")] = [] ++ ("INDENT_SIZE", "8") :: [("limit", "2")] := rfl
  exact ⟨hdistinct, ((sees_iff hdistinct _ _ _).1 _).2 (.fromCall hover hsplit hname hlater)⟩

end Config

end IndentLint
