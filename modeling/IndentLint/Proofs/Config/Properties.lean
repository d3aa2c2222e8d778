import IndentLint.Config.Basic

/-!
# Layers of properties

Whatever the case of a key, a value that is set later takes the place of an earlier one.  So a file has the value that
the last override in the configuration gives to a key, of those that apply to the file and give one, and without such
an override the value for every file (`get?_propertiesFor`).
-/

namespace IndentLint

theorem toNat_toLower (c : Char) : c.toLower.toNat = if 65 ≤ c.toNat ∧ c.toNat ≤ 90 then c.toNat + 32 else c.toNat := by
  have hfirst : 'A'.val.toNat = 65 := rfl
  have hlast : 'Z'.val.toNat = 90 := rfl
  have hgap : ('a'.val - 'A'.val).toNat = 32 := rfl
  unfold Char.toLower Char.toNat
  simp only [ge_iff_le, UInt32.le_iff_toNat_le, hfirst, hlast]
  split
  · rw [UInt32.toNat_add, hgap]
    omega
  · rfl

theorem toLower_toLower (key : String) : key.toLower.toLower = key.toLower := by
  apply String.toList_injective
  unfold String.toLower
  rw [String.toList_map, String.toList_map, List.map_map]
  refine List.map_congr_left fun c _ => ?_
  have hlower : ¬(65 ≤ c.toLower.toNat ∧ c.toLower.toNat ≤ 90) := by
    rw [toNat_toLower]
    split <;> omega
  exact Char.toNat_inj.1 ((toNat_toLower c.toLower).trans (if_neg hlower))

private theorem lookup_filter_ne {key k : String} (h : k ≠ key) (entries : List (String × String)) :
    (entries.filter (·.1 != key)).lookup k = entries.lookup k := by
  induction entries with
  | nil => rfl
  | cons e entries ih =>
    by_cases he : e.1 = key
    · have hk : (k == e.1) = false := by
        rw [he]
        exact beq_false_of_ne h
      rw [List.filter_cons_of_neg (by simp [he]), ih, List.lookup_cons, hk]
    · rw [List.filter_cons_of_pos (by simp [he]), List.lookup_cons, List.lookup_cons, ih]

namespace Properties

/-- All keys are in lower case. -/
def Lowered (p : Properties) : Prop :=
  ∀ e ∈ p.entries, e.1.toLower = e.1

private theorem get?_insert (p : Properties) (key value k : String) :
    (p.insert key value).get? k = if k.toLower = key.toLower then some value else p.get? k := by
  unfold insert get?
  dsimp only
  rw [List.lookup_cons]
  by_cases h : k.toLower = key.toLower
  · rw [if_pos h, h, beq_self_eq_true]
  · rw [if_neg h, beq_false_of_ne h]
    exact lookup_filter_ne h p.entries

private theorem lowered_insert {p : Properties} (hp : p.Lowered) (key value : String) :
    (p.insert key value).Lowered := by
  intro e he
  unfold insert at he
  rcases List.mem_cons.1 he with rfl | he
  · exact toLower_toLower key
  · exact hp e (List.mem_filter.1 he).1

/-! ### Lists of pairs -/

/-- The value that is set last counts, and where none is set the one from before. -/
private theorem get?_foldl_insert (pairs : List (String × String)) (p : Properties) (k : String) :
    (pairs.foldl (fun p e => p.insert e.1 e.2) p).get? k = ((ofList pairs).get? k).or (p.get? k) := by
  induction pairs generalizing p with
  | nil => rfl
  | cons e pairs ih =>
    unfold ofList
    rw [List.foldl_cons, List.foldl_cons, ih, ih (empty.insert e.1 e.2), get?_insert, get?_insert, Option.or_assoc]
    split <;> rfl

private theorem lowered_foldl_insert (pairs : List (String × String)) {p : Properties} (hp : p.Lowered) :
    (pairs.foldl (fun p e => p.insert e.1 e.2) p).Lowered := by
  induction pairs generalizing p with
  | nil => exact hp
  | cons e pairs ih => exact ih (lowered_insert hp e.1 e.2)

private theorem lowered_ofTable (table : Toml.Table) : (ofTable table).Lowered :=
  lowered_foldl_insert _ fun _ he => absurd he List.not_mem_nil

/-! ### Tables -/

/-- An entry of a table counts where no later entry has its key. -/
theorem get?_ofTable_cons (e : String × Toml.Value) (table : Toml.Table) (k : String) :
    (ofTable (e :: table)).get? k =
      ((ofTable table).get? k).or (if k.toLower = e.1.toLower then e.2.scalarText? else none) := by
  unfold ofTable
  rw [List.filterMap_cons]
  cases e.2.scalarText? with
  | none => simp
  | some text =>
    rw [Option.map_some]
    dsimp only
    rw [ofList, List.foldl_cons, get?_foldl_insert, get?_insert]
    rfl

private theorem get?_ofTable_eq_none {table : Toml.Table} {k : String} (h : ∀ e ∈ table, e.1.toLower ≠ k.toLower) :
    (ofTable table).get? k = none := by
  induction table with
  | nil => rfl
  | cons e table ih =>
    have he : k.toLower ≠ e.1.toLower := (h e (List.mem_cons_self ..)).symm
    rw [get?_ofTable_cons, ih fun d hd => h d (List.mem_cons_of_mem _ hd), if_neg he]
    rfl

/-- Entries under other keys do not matter. -/
private theorem get?_ofTable_filter {table : Toml.Table} {key k : String} (h : k.toLower ≠ key.toLower) :
    (ofTable (table.filter (·.1.toLower != key.toLower))).get? k = (ofTable table).get? k := by
  induction table with
  | nil => rfl
  | cons e table ih =>
    by_cases he : e.1.toLower = key.toLower
    · have hk : k.toLower ≠ e.1.toLower := by
        rw [he]
        exact h
      rw [List.filter_cons_of_neg (by simp [he]), ih, get?_ofTable_cons, if_neg hk, Option.or_none]
    · rw [List.filter_cons_of_pos (by simp [he]), get?_ofTable_cons, get?_ofTable_cons, ih]

/-! ### Layers -/

private theorem get?_extend (p : Properties) {q : Properties} (hq : q.Lowered) (k : String) :
    (p.extend q).get? k = (q.get? k).or (p.get? k) := by
  obtain ⟨entries⟩ := q
  unfold extend
  induction entries with
  | nil => rfl
  | cons e entries ih =>
    have he : e.1.toLower = e.1 := hq e (List.mem_cons_self ..)
    have hget : (Properties.mk (e :: entries)).get? k =
        if k.toLower = e.1 then some e.2 else (Properties.mk entries).get? k := by
      unfold get?
      dsimp only
      rw [List.lookup_cons]
      by_cases h : k.toLower = e.1
      · rw [if_pos h, h, beq_self_eq_true]
      · rw [if_neg h, beq_false_of_ne h]
    dsimp only
    rw [List.foldr_cons, get?_insert, he, hget]
    by_cases h : k.toLower = e.1
    · rw [if_pos h, if_pos h]
      rfl
    · rw [if_neg h, if_neg h]
      exact ih fun d hd => hq d (List.mem_cons_of_mem _ hd)

/-- Of several layers, each over those before it, the last one that has the key counts. -/
private theorem get?_foldl_extend (layers : List Properties) (hlayers : ∀ q ∈ layers, q.Lowered) (p : Properties)
    (k : String) : (layers.foldl extend p).get? k = (layers.reverse.findSome? (·.get? k)).or (p.get? k) := by
  induction layers generalizing p with
  | nil => rfl
  | cons q layers ih =>
    rw [List.foldl_cons, ih fun r hr => hlayers r (List.mem_cons_of_mem _ hr),
      get?_extend p (hlayers q (List.mem_cons_self ..)), List.reverse_cons, List.findSome?_append, Option.or_assoc,
      List.findSome?_singleton]

end Properties

namespace Config

/-- The value that the overrides give to a key for a file. -/
def overriding? (config : Config) (path : Path) (key : String) : Option String :=
  (config.overrides.filter (·.appliesTo path)).reverse.findSome? fun o => (Properties.ofTable o.properties).get? key

variable (config : Config) (path : Path) (key value k : String)

theorem get?_propertiesFor : (config.propertiesFor path).get? k =
    (config.overriding? path k).or ((Properties.ofTable config.properties).get? k) := by
  have hlayers : ∀ q ∈ (config.overrides.filter (·.appliesTo path)).map fun o => Properties.ofTable o.properties,
      q.Lowered := by
    intro q hq
    obtain ⟨o, -, rfl⟩ := List.mem_map.1 hq
    exact Properties.lowered_ofTable o.properties
  have hget := Properties.get?_foldl_extend _ hlayers (.ofTable config.properties) k
  rw [List.foldl_map, ← List.map_reverse, List.findSome?_map] at hget
  exact hget

/-- A value that is set for every file counts for its key, in any case, and for no other. -/
theorem get?_setProperty : (Properties.ofTable (config.setProperty key value).properties).get? k =
    if k.toLower = key.toLower then some value else (Properties.ofTable config.properties).get? k := by
  unfold setProperty
  dsimp only
  rw [Properties.get?_ofTable_cons, toLower_toLower]
  by_cases h : k.toLower = key.toLower
  · have hnone : ∀ e ∈ config.properties.filter (·.1.toLower != key.toLower), e.1.toLower ≠ k.toLower := by
      intro e he
      rw [h]
      simpa using (List.mem_filter.1 he).2
    rw [Properties.get?_ofTable_eq_none hnone, if_pos h, if_pos h]
    rfl
  · rw [Properties.get?_ofTable_filter h, if_neg h, if_neg h, Option.or_none]

end Config

end IndentLint
