import IndentLint.Command.Run
import IndentLint.Proofs.Config.Properties

/-!
# Sizes from the command line

A size that is given on the command line takes the place of the configured value for every file.  The overrides of the
configuration come on top of that, so the indentation rule sees the given size just for the files to which no override
gives another one (`size_seen_iff`).
-/

namespace IndentLint

/-- Only the overrides are checked when a configuration is validated. -/
private theorem Config.validate_congr {c d : Config} (h : c.overrides = d.overrides) : c.validate = d.validate := by
  unfold validate
  rw [h]

private theorem Config.validate_of_parse {text : String} {config : Config} (h : Config.parse text = .ok config) :
    config.validate = .ok () := by
  unfold parse at h
  split at h
  · cases h
  · rename_i found _
    cases hvalid : found.validate with
    | error e =>
      rw [hvalid] at h
      cases h
    | ok u =>
      rw [hvalid] at h
      obtain rfl : found = config := Except.ok.inj h
      exact hvalid

/-- Whatever configuration is loaded, its globs are well formed. -/
private theorem ConfigSource.validate_of_load {files : FileNode} {workingDirectory : Path} {source : ConfigSource}
    {config : Config} (h : source.load files workingDirectory = .ok config) : config.validate = .ok () := by
  unfold load at h
  split at h
  · obtain rfl : Config.default = config := Except.ok.inj h
    rfl
  · rename_i path _
    cases hload : Config.load files (workingDirectory.join path) with
    | error e =>
      rw [hload] at h
      cases h
    | ok found =>
      rw [hload] at h
      obtain rfl : found = config := Except.ok.inj h
      unfold Config.load at hload
      split at hload
      · cases hload
      · exact Config.validate_of_parse hload

/-- What a rule is told about a key: the value of an override, or else the value for every file. -/
private theorem Analyzer.property?_contextFor (a : Analyzer) (path : Path) (key : String) :
    (a.contextFor path).property? key =
      (a.config.overriding? (path.relativeTo a.root) key).or ((Properties.ofTable a.config.properties).get? key) :=
  Config.get?_propertiesFor a.config (path.relativeTo a.root) key

namespace Command

variable {s : Surroundings} {given : Option Path} {o : CheckOptions} {config : Config}

namespace CheckOptions

/-- The sizes that may be given, each with the key that it is set under. -/
def sizes (o : CheckOptions) : List (String × Option String) :=
  [(indentSizeKey, o.indentSize), (continuationIndentSizeKey, o.continuationIndentSize)]

private theorem overrides_adjust (o : CheckOptions) (config : Config) :
    (o.adjust config).overrides = config.overrides := by
  unfold adjust
  cases o.indentSize <;> cases o.continuationIndentSize <;> rfl

private theorem analyzer_adjust (o : CheckOptions) (config : Config) :
    (o.adjust config).analyzer = config.analyzer := by
  unfold adjust
  cases o.indentSize <;> cases o.continuationIndentSize <;> rfl

/-- A size that is given is the value for every file. -/
private theorem get?_adjust {key size : String} (h : (key, some size) ∈ o.sizes) :
    (Properties.ofTable (o.adjust config).properties).get? key = some size := by
  have hne : indentSizeKey.toLower ≠ continuationIndentSizeKey.toLower := by decide +kernel
  unfold sizes at h
  rcases List.mem_cons.1 h with h | h
  · obtain ⟨rfl, hsize⟩ := Prod.mk.inj h
    unfold adjust
    rw [← hsize]
    dsimp only
    cases o.continuationIndentSize with
    | none => rw [Config.get?_setProperty, if_pos rfl]
    | some other => rw [Config.get?_setProperty, if_neg hne, Config.get?_setProperty, if_pos rfl]
  · obtain ⟨rfl, hsize⟩ := Prod.mk.inj (List.mem_singleton.1 h)
    unfold adjust
    rw [← hsize]
    dsimp only
    rw [Config.get?_setProperty, if_pos rfl]

end CheckOptions

/-- The configuration that is found for the target of a check. -/
def Loads (s : Surroundings) (given : Option Path) (o : CheckOptions) (config : Config) : Prop :=
  (ConfigSource.find s.files s.workingDirectory o.path given s.personalDirectory).load s.files s.workingDirectory =
    .ok config

/-- An analysis is set up under every configuration that can be loaded. -/
theorem setUp_eq_ok (hload : Loads s given o config) :
    setUp s given o = .ok
      { root := s.workingDirectory.join o.path
        rules := Rule.all
        frontends := [.kotlin s.grammar]
        exclude := o.exclude ++ config.analyzer.exclude
        config := o.adjust config
        failOnParseError := config.analyzer.failOnParseError } := by
  have hvalid : (o.adjust config).validate = .ok () := by
    rw [Config.validate_congr (o.overrides_adjust config)]
    exact ConfigSource.validate_of_load hload
  unfold Loads at hload
  unfold setUp
  dsimp only
  rw [hload]
  unfold CheckOptions.settings AnalyzerSettings.build
  dsimp only
  rw [hvalid, o.analyzer_adjust]
  rfl

/-- A check under a given size is set up, and its rules see that size in a file just where no override gives another
value to the key; an override that does so counts. -/
theorem size_seen_iff (hload : Loads s given o config) : ∃ a, setUp s given o = .ok a ∧
    ∀ path key size, (key, some size) ∈ o.sizes →
      (a.contextFor path).property? key =
          some ((config.overriding? (path.relativeTo a.root) key).getD size) ∧
        ((a.contextFor path).property? key = some size ↔
          ∀ value, config.overriding? (path.relativeTo a.root) key = some value → value = size) := by
  refine ⟨_, setUp_eq_ok hload, fun path key size hsize => ?_⟩
  rw [Analyzer.property?_contextFor]
  dsimp only
  have hover : (o.adjust config).overriding? (path.relativeTo (s.workingDirectory.join o.path)) key =
      config.overriding? (path.relativeTo (s.workingDirectory.join o.path)) key := by
    unfold Config.overriding?
    rw [o.overrides_adjust]
  rw [hover, CheckOptions.get?_adjust hsize]
  cases config.overriding? (path.relativeTo (s.workingDirectory.join o.path)) key with
  | none => simp
  | some value => simp

/-- A machine with one file, a configuration that gives two columns to the files `*.kt`. -/
def sampleSurroundings : Surroundings :=
  { files := .directory [("c", .file "[[overrides]]\nfiles=['*.kt']\nproperties={indent_size=2}".toUTF8)]
    workingDirectory := ⟨"/"⟩, home := none, settings := none, config := none, configDirectory := none
    input := .empty, grammar := fun _ => none }

/-- A check with a block unit of eight columns. -/
def sampleOptions : CheckOptions :=
  { path := ⟨"."⟩, format := .text, readsInput := false, inputName := ⟨"stdin.kt"⟩, indentSize := some "8"
    continuationIndentSize := none, exclude := [] }

/-- What an outcome shows of its value, it shows of a value that is there. -/
theorem exists_of_shown {ε β : Type} {α : Type u} {x : Except ε α} {f : α → β} {y : β}
    (h : x.toOption.map f = some y) : ∃ z, x = .ok z ∧ f z = y := by
  cases x with
  | error e => cases h
  | ok z => exact ⟨z, rfl, Option.some.inj h⟩

/-- The size that is given is seen in a script, which no override is about. -/
theorem size_seen_in_script : ∃ config a, Loads sampleSurroundings (some ⟨"c"⟩) sampleOptions config ∧
    setUp sampleSurroundings (some ⟨"c"⟩) sampleOptions = .ok a ∧
    (a.contextFor ⟨"/s.kts"⟩).property? indentSizeKey = some "8" := by
  obtain ⟨config, hload, hover⟩ : ∃ config, Loads sampleSurroundings (some ⟨"c"⟩) sampleOptions config ∧
      config.overriding? ((⟨"/s.kts"⟩ : Path).relativeTo ⟨"/."⟩) indentSizeKey = none :=
    exists_of_shown (by decide +kernel)
  obtain ⟨a, ha, hseen⟩ := size_seen_iff hload
  have hroot : a.root = ⟨"/."⟩ := by
    rw [setUp_eq_ok hload] at ha
    rw [← Except.ok.inj ha]
    show (⟨"/"⟩ : Path).join ⟨"."⟩ = ⟨"/."⟩
    decide
  refine ⟨config, a, hload, ha, (hseen ⟨"/s.kts"⟩ indentSizeKey "8" List.mem_cons_self).2.2 ?_⟩
  intro value hvalue
  rw [hroot, hover] at hvalue
  cases hvalue

/-- An override keeps a file from seeing the size that is given. -/
theorem size_hidden_by_override : ∃ a, setUp sampleSurroundings (some ⟨"c"⟩) sampleOptions = .ok a ∧
    sampleOptions.indentSize = some "8" ∧ (a.contextFor ⟨"/a.kt"⟩).property? indentSizeKey = some "2" := by
  obtain ⟨a, ha, hseen⟩ := exists_of_shown
    (f := fun a : Analyzer => (a.contextFor ⟨"/a.kt"⟩).property? indentSizeKey) (y := some "2")
    (x := setUp sampleSurroundings (some ⟨"c"⟩) sampleOptions) (by decide +kernel)
  exact ⟨a, ha, rfl, hseen⟩

end Command

end IndentLint
