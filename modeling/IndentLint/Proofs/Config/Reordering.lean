import IndentLint.Config.Reader
import IndentLint.Layout.Unit
import IndentLint.Proofs.Config.Layers
import Mathlib.Data.List.Forall2

/-!
# Tables without an order

The entries of a table of settings come in no order that a configuration could rely on.  What a key is read as does not
depend on the order just where all that the table has under the key, in any case, is one text; and what a file sees
under a key does not depend on it just where this holds of the last layer that gives the key a text
(`Config.reordered_iff_settles`).  Keys that differ in their case only may stand side by side, and then the order
decides (`Config.units_of_either_order`).
-/

namespace IndentLint

open Toml (Gives Settles)

/-! ### One table -/

namespace Toml

variable {table order : Table} {key text : String}

private theorem gives_perm_iff (h : order.Perm table) : Gives order key text ↔ Gives table key text := by
  constructor
  · rintro ⟨e, he, hgives⟩
    exact ⟨e, h.mem_iff.1 he, hgives⟩
  · rintro ⟨e, he, hgives⟩
    exact ⟨e, h.mem_iff.2 he, hgives⟩

theorem Settles.perm (hsettles : Settles table key) (h : order.Perm table) : Settles order key :=
  fun text other htext hother => hsettles text other ((gives_perm_iff h).1 htext) ((gives_perm_iff h).1 hother)

/-- Whether the entry gives the key the text. -/
def isGiver (key text : String) (e : String × Value) : Bool :=
  e.1.toLower = key.toLower ∧ e.2.scalarText? = some text

/-- The table with the entries that give the key the text behind all others. -/
def putLast (key text : String) (table : Table) : Table :=
  table.filter (!isGiver key text ·) ++ table.filter (isGiver key text)

private theorem perm_putLast (key text : String) (table : Table) : (putLast key text table).Perm table :=
  List.perm_append_comm.trans (List.filter_append_perm ..)

private theorem gives_filter_isGiver {other : String} (h : Gives (table.filter (isGiver key text)) key other) :
    other = text := by
  obtain ⟨e, he, -, hother⟩ := h
  have htext : e.2.scalarText? = some text := (of_decide_eq_true (List.mem_filter.1 he).2).2
  exact Option.some.inj (hother.symm.trans htext)

end Toml

namespace Properties

variable {table order : Toml.Table} {key text : String}

private theorem get?_ofTable_append (table order : Toml.Table) (key : String) :
    (ofTable (table ++ order)).get? key = ((ofTable order).get? key).or ((ofTable table).get? key) := by
  induction table with
  | nil => exact (Option.or_none ..).symm
  | cons e table ih => rw [List.cons_append, get?_ofTable_cons, get?_ofTable_cons, ih, Option.or_assoc]

/-- A text that is put last counts. -/
private theorem get?_ofTable_putLast (h : Gives table key text) :
    (ofTable (Toml.putLast key text table)).get? key = some text := by
  have hsettles : Settles (table.filter (Toml.isGiver key text)) key := fun _ _ hfirst hother =>
    (Toml.gives_filter_isGiver hfirst).trans (Toml.gives_filter_isGiver hother).symm
  have hlast : Gives (table.filter (Toml.isGiver key text)) key text := by
    obtain ⟨e, he, hgives⟩ := h
    exact ⟨e, List.mem_filter.2 ⟨he, decide_eq_true hgives⟩, hgives⟩
  rw [Toml.putLast, get?_ofTable_append, (get?_ofTable_eq_some_iff hsettles).2 hlast]
  rfl

private theorem get?_ofTable_eq_none_perm (h : order.Perm table) :
    (ofTable order).get? key = none ↔ (ofTable table).get? key = none := by
  rw [get?_ofTable_eq_none_iff, get?_ofTable_eq_none_iff]
  exact forall_congr' fun text => not_congr (Toml.gives_perm_iff h)

theorem get?_ofTable_perm (hsettles : Settles table key) (h : order.Perm table) :
    (ofTable order).get? key = (ofTable table).get? key := by
  cases hget : (ofTable table).get? key with
  | none => exact (get?_ofTable_eq_none_perm h).2 hget
  | some text =>
    rw [get?_ofTable_eq_some_iff (hsettles.perm h), Toml.gives_perm_iff h]
    exact gives_of_get?_ofTable hget

/-- The order of a table does not matter to a key just where the table settles it. -/
private theorem get?_ofTable_reordered_iff (table : Toml.Table) (key : String) :
    (∀ order : Toml.Table, order.Perm table → (ofTable order).get? key = (ofTable table).get? key) ↔
      Settles table key := by
  constructor
  · intro h text other htext hother
    have hfirst := h _ (Toml.perm_putLast key text table)
    have hsecond := h _ (Toml.perm_putLast key other table)
    rw [get?_ofTable_putLast htext] at hfirst
    rw [get?_ofTable_putLast hother] at hsecond
    exact Option.some.inj (hfirst.trans hsecond.symm)
  · exact fun hsettles order horder => get?_ofTable_perm hsettles horder

end Properties

/-! ### All layers -/

namespace Config

/-- The tables of settings for a file, each over those before it. -/
def layers (config : Config) (path : Path) : List Toml.Table :=
  config.properties :: (config.overrides.filter (·.appliesTo path)).map (·.properties)

/-- The table is the last one of some layers that gives the key a text. -/
def Decides (layers : List Toml.Table) (key : String) (table : Toml.Table) : Prop :=
  ∃ before after, layers = before ++ table :: after ∧ (∃ text, Gives table key text) ∧
    ∀ later ∈ after, ∀ text, ¬ Gives later key text

/-- The same configuration with the entries of its tables of settings in another order. -/
structure Reordered (config other : Config) : Prop where
  analyzer : other.analyzer = config.analyzer
  rules : other.rules = config.rules
  properties : other.properties.Perm config.properties
  overrides : List.Forall₂ (fun o p => o.files = p.files ∧ o.properties.Perm p.properties) other.overrides
    config.overrides

variable {config other : Config} {path : Path} {key text : String}

theorem get?_propertiesFor_layers (config : Config) (path : Path) (key : String) :
    (config.propertiesFor path).get? key =
      (config.layers path).reverse.findSome? fun table => (Properties.ofTable table).get? key := by
  rw [get?_propertiesFor, overriding?, layers, List.reverse_cons, List.findSome?_append, List.findSome?_singleton,
    ← List.map_reverse, List.findSome?_map]
  rfl

private theorem forall₂_layers (h : config.Reordered other) (path : Path) :
    List.Forall₂ List.Perm (other.layers path) (config.layers path) := by
  have hfiltered : List.Forall₂ (fun o p => o.files = p.files ∧ o.properties.Perm p.properties)
      (other.overrides.filter (·.appliesTo path)) (config.overrides.filter (·.appliesTo path)) := by
    refine List.rel_filter (fun o p hsame => ?_) h.overrides
    show o.appliesTo path = true ↔ p.appliesTo path = true
    rw [Override.appliesTo, Override.appliesTo, hsame.1]
  refine .cons h.properties ?_
  rw [List.forall₂_map_left_iff, List.forall₂_map_right_iff]
  exact hfiltered.imp fun _ _ hsame => hsame.2

theorem Decides.cons {layers : List Toml.Table} {table : Toml.Table} (h : Decides layers key table)
    (first : Toml.Table) : Decides (first :: layers) key table := by
  obtain ⟨before, after, rfl, hgives, hafter⟩ := h
  exact ⟨first :: before, after, rfl, hgives, hafter⟩

theorem Decides.settles {table : Toml.Table} (hdistinct : config.HasDistinctKeys)
    (h : Decides (config.layers path) key table) : Settles table key := by
  obtain ⟨before, after, hsplit, -, -⟩ := h
  have hmem : table ∈ config.layers path := by simp [hsplit]
  rcases List.mem_cons.1 hmem with rfl | hmem
  · exact hdistinct.1.settles key
  · obtain ⟨o, ho, rfl⟩ := List.mem_map.1 hmem
    exact (hdistinct.2 o (List.mem_filter.1 ho).1).settles key

/-- What layers say of a key does not depend on the order of their entries, where the last one that gives the key a text
settles it. -/
private theorem findSome?_layers_perm {orders layers : List Toml.Table} (h : List.Forall₂ List.Perm orders layers)
    (hdecides : ∀ table, Decides layers key table → Settles table key) :
    (orders.reverse.findSome? fun table => (Properties.ofTable table).get? key) =
      layers.reverse.findSome? fun table => (Properties.ofTable table).get? key := by
  induction h with
  | nil => rfl
  | @cons order table orders layers hperm _ ih =>
    rw [List.reverse_cons, List.reverse_cons, List.findSome?_append, List.findSome?_append,
      List.findSome?_singleton, List.findSome?_singleton, ih fun later hlater => hdecides later (hlater.cons table)]
    cases hlater : layers.reverse.findSome? fun table => (Properties.ofTable table).get? key with
    | some text => rfl
    | none =>
      -- no later layer has the key, so this table decides if it has the key
      have hafter : ∀ later ∈ layers, ∀ text, ¬ Gives later key text := fun later hmem =>
        Properties.get?_ofTable_eq_none_iff.1 (List.findSome?_eq_none_iff.1 hlater later (List.mem_reverse.2 hmem))
      have hsettles : Settles table key := fun text other htext hother =>
        hdecides table ⟨[], layers, rfl, ⟨text, htext⟩, hafter⟩ text other htext hother
      rw [Properties.get?_ofTable_perm hsettles hperm]

/-- The configuration with the entries that give the key the text behind all others, in every table. -/
def putLast (key text : String) (config : Config) : Config :=
  { config with
    properties := Toml.putLast key text config.properties
    overrides := config.overrides.map fun o => { o with properties := Toml.putLast key text o.properties } }

private theorem reordered_putLast (key text : String) (config : Config) :
    config.Reordered (config.putLast key text) := by
  refine ⟨rfl, rfl, Toml.perm_putLast key text config.properties, ?_⟩
  rw [putLast, List.forall₂_map_left_iff]
  exact List.forall₂_same.2 fun o _ => ⟨rfl, Toml.perm_putLast key text o.properties⟩

private theorem layers_putLast (key text : String) (config : Config) (path : Path) :
    (config.putLast key text).layers path = (config.layers path).map (Toml.putLast key text) := by
  unfold layers putLast
  rw [List.map_cons, List.map_map, List.filter_map, List.map_map]
  rfl

/-- Any text that the deciding table gives the key may be what a file sees. -/
private theorem get?_propertiesFor_putLast {table : Toml.Table} (hdecides : Decides (config.layers path) key table)
    (htext : Gives table key text) : ((config.putLast key text).propertiesFor path).get? key = some text := by
  obtain ⟨before, after, hsplit, -, hafter⟩ := hdecides
  rw [get?_propertiesFor_layers, layers_putLast, findSome?_reverse_eq_some_iff]
  refine ⟨before.map (Toml.putLast key text), Toml.putLast key text table, after.map (Toml.putLast key text), ?_, ?_, ?_⟩
  · rw [hsplit, List.map_append, List.map_cons]
  · exact Properties.get?_ofTable_putLast htext
  · intro order horder
    obtain ⟨later, hlater, rfl⟩ := List.mem_map.1 horder
    rw [Properties.get?_ofTable_eq_none_perm (Toml.perm_putLast key text later)]
    exact Properties.get?_ofTable_eq_none_iff.2 (hafter later hlater)

private theorem get?_propertiesFor_reordered (hother : config.Reordered other) (path : Path) (key : String)
    (hdecides : ∀ table, Decides (config.layers path) key table → Settles table key) :
    (other.propertiesFor path).get? key = (config.propertiesFor path).get? key := by
  rw [get?_propertiesFor_layers, get?_propertiesFor_layers]
  exact findSome?_layers_perm (forall₂_layers hother path) hdecides

/-- The order of the entries does not matter to what a table has under a key just where the table settles the key, and to
what a file sees under it just where the last layer with the key does; where this holds of both units, the units of the
file are the same in every order. -/
theorem reordered_iff_settles (table : Toml.Table) (config : Config) (path : Path) (key : String) :
    ((∀ order : Toml.Table, order.Perm table →
        (Properties.ofTable order).get? key = (Properties.ofTable table).get? key) ↔ Settles table key) ∧
    ((∀ other, config.Reordered other →
        (other.propertiesFor path).get? key = (config.propertiesFor path).get? key) ↔
      ∀ table, Decides (config.layers path) key table → Settles table key) ∧
    ((∀ key ∈ [indentSizeKey, continuationIndentSizeKey],
        ∀ table, Decides (config.layers path) key table → Settles table key) →
      ∀ other, config.Reordered other →
        IndentConfig.ofProperties (other.propertiesFor path) =
          IndentConfig.ofProperties (config.propertiesFor path)) := by
  refine ⟨Properties.get?_ofTable_reordered_iff table key, ⟨?_, ?_⟩, fun hunits other hother => ?_⟩
  · intro h table hdecides text text' htext htext'
    have hfirst := h _ (reordered_putLast key text config)
    have hsecond := h _ (reordered_putLast key text' config)
    rw [get?_propertiesFor_putLast hdecides htext] at hfirst
    rw [get?_propertiesFor_putLast hdecides htext'] at hsecond
    exact Option.some.inj (hfirst.trans hsecond.symm)
  · exact fun hdecides other hother => get?_propertiesFor_reordered hother path key hdecides
  · unfold IndentConfig.ofProperties
    rw [get?_propertiesFor_reordered hother path _ (hunits _ List.mem_cons_self),
      get?_propertiesFor_reordered hother path _ (hunits _ (List.mem_cons_of_mem _ List.mem_cons_self))]

/-- The default configuration with a table for every file. -/
def withTable (table : Toml.Table) : Config :=
  { Config.default with properties := table }

private theorem get?_propertiesFor_withTable (table : Toml.Table) (path : Path) (key : String) :
    ((withTable table).propertiesFor path).get? key = (Properties.ofTable table).get? key := by
  have hover : (withTable table).overriding? path key = none := rfl
  rw [get?_propertiesFor, hover, Option.none_or]
  rfl

/-- Of two entries under one key, in any case, the second one counts. -/
private theorem get?_ofTable_pair (first : String × Toml.Value) {name key text : String} {value : Toml.Value}
    (hname : name.toLower = key.toLower) (htext : value.scalarText? = some text) :
    (Properties.ofTable [first, (name, value)]).get? key = some text := by
  rw [Properties.get?_ofTable_cons, Properties.get?_ofTable_cons, if_pos hname.symm, htext]
  rfl

/-- Two units under keys of their own. -/
def sampleUnits : Toml.Table :=
  [("indent_size", .integer 2), ("continuation_indent_size", .integer 4)]

/-- The units of a file do not depend on which of them comes first. -/
theorem units_of_sampleUnits_reversed : (withTable sampleUnits).HasDistinctKeys ∧
    (withTable sampleUnits).Reordered (withTable sampleUnits.reverse) ∧
    IndentConfig.ofProperties ((withTable sampleUnits.reverse).propertiesFor ⟨"a.kt"⟩) =
      IndentConfig.ofProperties ((withTable sampleUnits).propertiesFor ⟨"a.kt"⟩) := by
  have hdistinct : (withTable sampleUnits).HasDistinctKeys := by decide +kernel
  have hreordered : (withTable sampleUnits).Reordered (withTable sampleUnits.reverse) :=
    ⟨rfl, rfl, List.reverse_perm _, .nil⟩
  obtain ⟨-, -, hunits⟩ := reordered_iff_settles sampleUnits (withTable sampleUnits) ⟨"a.kt"⟩ indentSizeKey
  exact ⟨hdistinct, hreordered, hunits (fun _ _ _ h => h.settles hdistinct) _ hreordered⟩

/-- Two block units under two spellings of one key. -/
def sampleTable : Toml.Table :=
  [("indent_size", .integer 2), ("INDENT_SIZE", .integer 4)]

/-- Two spellings of one key may stand in a configuration, and then the order in which they come decides on the block
unit. -/
theorem units_of_either_order :
    ((parse "[properties]\nindent_size = 2\nINDENT_SIZE = 4").toOption.map fun config =>
      config.properties.map fun e => (e.1, e.2.scalarText?)) =
        some (sampleTable.map fun e => (e.1, e.2.scalarText?)) ∧
    (sampleTable.map (·.1)).Nodup ∧ (withTable sampleTable).Reordered (withTable sampleTable.reverse) ∧
    (IndentConfig.ofProperties ((withTable sampleTable).propertiesFor ⟨"a.kt"⟩)).block = .columns 4 ∧
    (IndentConfig.ofProperties ((withTable sampleTable.reverse).propertiesFor ⟨"a.kt"⟩)).block = .columns 2 := by
  have hkey : "INDENT_SIZE".toLower = indentSizeKey.toLower := toLower_eq_iff.2 (by decide +kernel)
  have hlower : "indent_size".toLower = indentSizeKey.toLower := rfl
  refine ⟨by decide +kernel, by decide +kernel, ⟨rfl, rfl, List.reverse_perm _, .nil⟩, ?_, ?_⟩
  · unfold IndentConfig.ofProperties
    rw [get?_propertiesFor_withTable, sampleTable, get?_ofTable_pair _ hkey rfl]
    decide +kernel
  · unfold IndentConfig.ofProperties
    rw [get?_propertiesFor_withTable, sampleTable, List.reverse_cons, List.reverse_singleton, List.singleton_append,
      get?_ofTable_pair _ hlower rfl]
    decide +kernel

end Config

end IndentLint
