import IndentLint.Proofs.Command.Sizes
import IndentLint.Proofs.File.Order
import IndentLint.Proofs.File.Steps

/-!
# The root of a check

A check looks into the path on its command line, and where there is none into the working directory.  The root that a
configuration names is never looked at: an analysis finds and reports the same whatever it is, so it has its way only
where it is the working directory in other words (`root_of_check`).
-/

namespace IndentLint

/-! ### The same directory in other words -/

namespace Path

variable {p : Path}

private theorem components_eq_of_isAbsolute (h : p.isAbsolute = true) :
    p.components = .root :: p.steps.filterMap Component.ofSegment? := by
  rw [components, filterMap_segments, of_decide_eq_true h]
  rfl

theorem components_join_here (h : p.isAbsolute = true) : (p.join ⟨"."⟩).components = p.components := by
  have hsteps : (p.join ⟨"."⟩).steps = p.steps := by
    rw [steps_join h (by decide)]
    exact List.append_nil _
  rw [components_eq_of_isAbsolute (isAbsolute_join h _), components_eq_of_isAbsolute h, hsteps]

end Path

/-! ### Another root in the configuration -/

/-- The configuration with another root. -/
def Config.withRoot (config : Config) (root : Path) : Config :=
  { config with analyzer := { config.analyzer with root } }

namespace Analyzer

/-- The same analysis under a configuration with another root. -/
def withConfiguredRoot (a : Analyzer) (root : Path) : Analyzer :=
  { a with config := a.config.withRoot root }

private theorem discover_withConfiguredRoot (a : Analyzer) (root : Path) (s : Standpoint) :
    (a.withConfiguredRoot root).discover s = a.discover s :=
  rfl

private theorem analyze_withConfiguredRoot (a : Analyzer) (root : Path) (s : Standpoint) :
    (a.withConfiguredRoot root).analyze s = a.analyze s :=
  rfl

end Analyzer

namespace Command

variable {s : Surroundings} {arguments : List String} {i : Invocation} {r : Reading} {config : Config}

/-- What stands behind the word of a check on a command line is read as `r`. -/
def ReadsCheck (arguments : List String) (r : Reading) : Prop :=
  ∃ top rest, Reading.empty.readUpToPlain .top arguments = .ok (top, Section.check.word :: rest) ∧
    Reading.readAll .check Section.check.pathLimit .empty rest = .ok r

private theorem job_of_readsCheck {environment : Option String} (hreads : ReadsCheck arguments r)
    (hparse : Invocation.parse environment arguments = .ok i) : i.job = .check (.ofReading r) := by
  obtain ⟨top, rest, htop, hpart⟩ := hreads
  have hcommand : Section.ofCommand? Section.check.word = some .check := rfl
  have hhelp : Section.check.word ≠ "help" := by decide
  unfold Invocation.parse at hparse
  simp only [htop, hpart, hcommand, if_neg hhelp, bind, Except.bind, Job.ofReading?] at hparse
  split at hparse
  · cases hparse
  · split at hparse
    · cases hparse
    · obtain rfl := Except.ok.inj hparse
      rfl

private theorem CheckOptions.adjust_withRoot (o : CheckOptions) (config : Config) (root : Path) :
    o.adjust (config.withRoot root) = (o.adjust config).withRoot root := by
  unfold adjust
  cases o.indentSize <;> cases o.continuationIndentSize <;> rfl

private theorem build_of_setUp {given : Option Path} {o : CheckOptions} {a : Analyzer} (hload : Loads s given o config)
    (h : setUp s given o = .ok a) : (o.settings config s.grammar).build s.workingDirectory = .ok a := by
  unfold Loads at hload
  unfold setUp at h
  dsimp only at h
  rw [hload] at h
  dsimp only at h
  cases hbuild : (o.settings config s.grammar).build s.workingDirectory with
  | error cause =>
    rw [hbuild] at h
    cases h
  | ok b =>
    rw [hbuild] at h
    obtain rfl : b = a := Except.ok.inj h
    rfl

/-- Under a configuration with another root the same analysis is set up, but for that configuration. -/
private theorem build_withRoot {o : CheckOptions} {a : Analyzer}
    (h : (o.settings config s.grammar).build s.workingDirectory = .ok a) (root : Path) :
    (o.settings (config.withRoot root) s.grammar).build s.workingDirectory = .ok (a.withConfiguredRoot root) := by
  have hvalidate : ((o.adjust config).withRoot root).validate = (o.adjust config).validate := rfl
  unfold CheckOptions.settings AnalyzerSettings.build at h ⊢
  dsimp only at h ⊢
  rw [o.adjust_withRoot, hvalidate]
  cases hvalid : (o.adjust config).validate with
  | error cause =>
    rw [hvalid] at h
    cases h
  | ok u =>
    rw [hvalid] at h
    obtain rfl := Except.ok.inj h
    rfl

/-- A check looks into the first path that is given, and into the working directory if none is.  Whatever root is
configured, an analysis that is set up finds and reports the same. -/
theorem root_of_check (habsolute : s.workingDirectory.isAbsolute = true) (hreads : ReadsCheck arguments r)
    (hparse : Invocation.parse s.config arguments = .ok i) (hload : Loads s i.config (.ofReading r) config) :
    i.job = .check (.ofReading r) ∧ ∃ a, setUp s i.config (.ofReading r) = .ok a ∧
      (∀ path rest, r.paths = path :: rest → a.root = s.workingDirectory.join ⟨path⟩) ∧
      (r.paths = [] → a.root = s.workingDirectory.join ⟨"."⟩ ∧
        (a.root.compare (s.workingDirectory.join config.analyzer.root) = .eq ↔
          s.workingDirectory.compare (s.workingDirectory.join config.analyzer.root) = .eq)) ∧
      ∀ root, ∃ b, ((CheckOptions.ofReading r).settings (config.withRoot root) s.grammar).build s.workingDirectory = .ok b ∧
        b.root = a.root ∧ b.discover s.toStandpoint = a.discover s.toStandpoint ∧
        b.analyze s.toStandpoint = a.analyze s.toStandpoint := by
  refine ⟨job_of_readsCheck hreads hparse, _, setUp_eq_ok hload, ?_, ?_, ?_⟩
  · intro path rest hpaths
    show s.workingDirectory.join ⟨r.paths.headD "."⟩ = _
    rw [hpaths]
    rfl
  · intro hpaths
    have hroot : s.workingDirectory.join ⟨r.paths.headD "."⟩ = s.workingDirectory.join ⟨"."⟩ := by
      rw [hpaths]
      rfl
    refine ⟨hroot, ?_⟩
    rw [Path.compare_eq_eq_iff, Path.compare_eq_eq_iff]
    dsimp only [CheckOptions.ofReading]
    rw [hroot, Path.components_join_here habsolute]
  · intro root
    have hbuild := build_of_setUp hload (setUp_eq_ok hload)
    exact ⟨_, build_withRoot hbuild root, rfl, Analyzer.discover_withConfiguredRoot _ root _,
      Analyzer.analyze_withConfiguredRoot _ root _⟩

/-- A project whose configuration names `src`, with a file beside that directory. -/
def sampleProject : Surroundings :=
  { files := .directory [("w", .directory [("ktindent.toml", .file "[analyzer]\nroot='src'".toUTF8),
      ("A.kt", .file "a\n".toUTF8), ("src", .directory [])])]
    workingDirectory := ⟨"/w"⟩, home := none, settings := none, config := none, configDirectory := none
    input := .empty, grammar := fun _ => none }

/-- What is read behind the word of a check with a path. -/
def sampleReading (path : String) : Reading :=
  ⟨[], [path], none⟩

/-- A path that is given is the root, whatever root is configured. -/
theorem root_of_check_at_lib : ∃ i config a, Invocation.parse sampleProject.config ["check", "lib"] = .ok i ∧
    Loads sampleProject i.config (.ofReading (sampleReading "lib")) config ∧ config.analyzer.root = ⟨"src"⟩ ∧
    setUp sampleProject i.config (.ofReading (sampleReading "lib")) = .ok a ∧ a.root = ⟨"/w/lib"⟩ := by
  have hreads : ReadsCheck ["check", "lib"] (sampleReading "lib") :=
    ⟨.empty, ["lib"], by decide +kernel, by decide +kernel⟩
  have hparse : Invocation.parse sampleProject.config ["check", "lib"] = .ok
      ⟨none, .check (.ofReading (sampleReading "lib"))⟩ := by decide +kernel
  obtain ⟨config, hload, hroot⟩ : ∃ config, Loads sampleProject none (.ofReading (sampleReading "lib")) config ∧
      config.analyzer.root = ⟨"src"⟩ := exists_of_shown (by decide +kernel)
  obtain ⟨-, a, ha, hgiven, -⟩ := @root_of_check sampleProject _ _ _ config (by decide +kernel) hreads hparse hload
  exact ⟨_, config, a, hparse, hload, hroot, ha, hgiven "lib" [] rfl⟩

/-- Without a path the working directory is the root, and a file beside the configured root is found. -/
theorem root_of_check_beside_src : ∃ i o config a, Invocation.parse sampleProject.config ["check"] = .ok i ∧
    i.job = .check o ∧ o.readsInput = false ∧ Loads sampleProject i.config o config ∧
    config.analyzer.root = ⟨"src"⟩ ∧ setUp sampleProject i.config o = .ok a ∧
    a.root.compare ((⟨"/w"⟩ : Path).join ⟨"src"⟩) ≠ .eq ∧
    (a.discover sampleProject.toStandpoint).toOption.map (fun found => found.map (·.path.text)) =
      some ["/w/./A.kt"] := by
  have hparse : Invocation.parse sampleProject.config ["check"] = .ok ⟨none, .check (.ofReading .empty)⟩ := by
    decide +kernel
  obtain ⟨config, hload, hroot⟩ : ∃ config, Loads sampleProject none (.ofReading .empty) config ∧
      config.analyzer.root = ⟨"src"⟩ := exists_of_shown (by decide +kernel)
  obtain ⟨a, ha, hshown⟩ := exists_of_shown (x := setUp sampleProject none (.ofReading .empty))
    (f := fun a : Analyzer => (a.root, (a.discover sampleProject.toStandpoint).toOption.map fun found =>
      found.map (·.path.text))) (y := (⟨"/w/."⟩, some ["/w/./A.kt"])) (by decide +kernel)
  obtain ⟨hwhere, hfound⟩ := Prod.mk.inj hshown
  have hcompare : (⟨"/w/."⟩ : Path).compare ((⟨"/w"⟩ : Path).join ⟨"src"⟩) ≠ .eq := by decide +kernel
  exact ⟨⟨none, .check (.ofReading .empty)⟩, .ofReading .empty, config, a, hparse, rfl, rfl, hload, hroot, ha,
    hwhere ▸ hcompare, hfound⟩

end Command

end IndentLint
