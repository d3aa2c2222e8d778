import IndentLint.Command.Run
import IndentLint.Proofs.Analysis.PathOrder
import IndentLint.Proofs.File.Relative
import IndentLint.Proofs.Report.Sorting

/-!
# Checking a file again by its reported name

From an absolute root the name that a report has for a file is seen as it is, and has the extension of the path, so the
same frontend and the same settings apply under that name.  Of all that rules are told about a file only the path at
which it was found is another one (`contextFor_relativeTo`).  Rules that do not look at it make the same complaints, and
what standard input leads to under the reported name is what the report of the project has about the file
(`check_by_reported_name`).  A rule that looks at it may tell the two apart (`differs_under_reported_name`).
-/

namespace IndentLint

/-! ### Rules that are told another path -/

/-- The rule, told that every file was found at `path`. -/
def Rule.toldPath (r : Rule) (path : Path) : Rule :=
  { r with visit := fun ctx => r.visit { ctx with path } }

theorem Rule.IgnoresPath.toldPath {r : Rule} (h : r.IgnoresPath) (path : Path) : r.toldPath path = r := by
  have hvisit : (fun ctx : FileContext => r.visit { ctx with path }) = r.visit := funext fun ctx => h ctx path
  unfold Rule.toldPath
  rw [hvisit]

/-- The rule on its way, told another path from here on. -/
def RunningRule.toldPath (r : RunningRule) (path : Path) : RunningRule :=
  ⟨r.rule.toldPath path, r.state, r.found⟩

variable {ctx : FileContext} {path : Path}

private theorem RunningRule.step_toldPath (r : RunningRule) (c : Cursor) :
    (r.toldPath path).step ctx c = (r.step { ctx with path } c).map (·.toldPath path) := by
  unfold step toldPath Rule.toldPath
  dsimp only
  cases r.rule.visit { ctx with path } c r.state with
  | error e => rfl
  | ok next => rfl

private theorem mapM_step_toldPath (running : List RunningRule) (c : Cursor) :
    (running.map (·.toldPath path)).mapM (RunningRule.step ctx c) =
      (running.mapM (RunningRule.step { ctx with path } c)).map (List.map (·.toldPath path)) := by
  induction running with
  | nil => rfl
  | cons r running ih =>
    rw [List.map_cons, List.mapM_cons, List.mapM_cons, ih, RunningRule.step_toldPath]
    cases r.step { ctx with path } c with
    | error e => rfl
    | ok d =>
      cases running.mapM (RunningRule.step { ctx with path } c) with
      | error e => rfl
      | ok rest => rfl

/-- Told another path, rules walk as they do in a context with that path. -/
theorem walkRules_toldPath (running : List RunningRule) (cs : List Cursor) :
    walkRules ctx (running.map (·.toldPath path)) cs =
      (walkRules { ctx with path } running cs).map (List.map (·.toldPath path)) := by
  induction cs generalizing running with
  | nil => rfl
  | cons c cs ih =>
    rw [walkRules, walkRules, mapM_step_toldPath]
    cases running.mapM (RunningRule.step { ctx with path } c) with
    | error e => rfl
    | ok next => exact ih next

namespace Analyzer

/-- The same analysis, with rules that are told that every file was found at `path`. -/
def toldPath (a : Analyzer) (path : Path) : Analyzer :=
  { a with rules := a.rules.map (·.toldPath path) }

variable {a : Analyzer}

private theorem toldPath_of_ignoresPath (h : ∀ r ∈ a.rules, r.IgnoresPath) (path : Path) : a.toldPath path = a := by
  have hrules : a.rules.map (·.toldPath path) = a.rules := by
    conv_rhs => rw [← List.map_id a.rules]
    exact List.map_congr_left fun r hr => (h r hr).toldPath path
  unfold toldPath
  rw [hrules]

private theorem runRules_toldPath (tree : Element) (text : List Char) :
    (a.toldPath path).runRules ctx tree text = a.runRules { ctx with path } tree text := by
  have henabled : (a.toldPath path).enabledRules = a.enabledRules.map (·.toldPath path) :=
    List.filter_map
  have hstart : (a.enabledRules.map (·.toldPath path)).map RunningRule.start =
      (a.enabledRules.map RunningRule.start).map (·.toldPath path) := by
    rw [List.map_map, List.map_map]
    rfl
  unfold runRules
  rw [henabled, hstart, walkRules_toldPath]
  cases walkRules { ctx with path } (a.enabledRules.map RunningRule.start) tree.positions with
  | error e => rfl
  | ok done => exact congrArg Except.ok (List.flatMap_map ..)

/-! ### One source -/

theorem contextFor_relativeTo (hroot : a.root.isAbsolute = true) (path : Path) :
    a.contextFor (path.relativeTo a.root) = { a.contextFor path with path := path.relativeTo a.root } := by
  unfold contextFor FileContext.of
  rw [Path.relativeTo_relativeTo hroot, Path.extension?_relativeTo hroot]

private theorem frontendFor?_relativeTo (hroot : a.root.isAbsolute = true) (path : Path) :
    a.frontendFor? (path.relativeTo a.root) = a.frontendFor? path := by
  unfold frontendFor? Frontend.handles
  rw [Path.extension?_relativeTo hroot]

/-- Under the name that it is reported by, a source has the result that it has at its path if the rules are told that
name. -/
private theorem analyzeSource_relativeTo (hroot : a.root.isAbsolute = true) (path : Path) (source : List Char) :
    a.analyzeSource (path.relativeTo a.root) source =
      ((a.toldPath (path.relativeTo a.root)).analyzeSource path source).mapError (AnalysisError.seenFrom a.root) := by
  have hsame : ∀ r : Except AnalysisError (List Violation), r.mapError (AnalysisError.mapPath id) = r := by
    intro r
    cases r with
    | ok vs => rfl
    | error e => cases e <;> rfl
  rw [AnalysisError.seenFrom_eq_mapPath, ← hsame (a.analyzeSource (path.relativeTo a.root) source)]
  refine analyzeSource_congr rfl (frontendFor?_relativeTo hroot path) rfl fun tree => ?_
  rw [contextFor_relativeTo hroot path]
  exact (runRules_toldPath tree source).symm

/-! ### One file of a project -/

variable {s : Standpoint} {found : List FoundFile} {f : FoundFile}

theorem file_of_mem_analyzeFile {vs : List Violation} {v : Violation} (h : a.analyzeFile f = .ok vs) (hv : v ∈ vs) :
    v.location.file = f.path.relativeTo a.root := by
  obtain ⟨text, -, htext⟩ := analyzeFile_eq_ok_iff.1 h
  exact file_of_mem_analyzeSource htext hv

theorem exists_walk_of_discover (h : a.discover s = .ok found) :
    ∃ all, s.walk? a.config.analyzer.respectGitignore a.root = some all ∧ found = a.selected all := by
  unfold discover at h
  split at h
  · cases h
  · rename_i all hwalk
    exact ⟨all, hwalk, (Except.ok.inj h).symm⟩

/-- No two files of a project are reported by the same name. -/
private theorem pairwise_relativeTo_of_discover (hnamed : ∀ tree ∈ s.files.get? a.root, tree.IsWellNamed)
    (h : a.discover s = .ok found) :
    found.Pairwise fun f g => f.path.relativeTo a.root ≠ g.path.relativeTo a.root := by
  obtain ⟨all, hwalk, rfl⟩ := exists_walk_of_discover h
  have hapart := isApart_of_walk? hnamed hwalk
  refine (a.pairwise_selected hapart).imp_of_mem fun {f g} hf hg hlt heq => ?_
  have hseen := hapart.seenInOrder f (a.mem_of_mem_selected hf) g (a.mem_of_mem_selected hg)
  rw [heq, Path.compare_self, hlt] at hseen
  cases hseen

/-- The violations that bear the name of a file are those of that file. -/
private theorem filter_flatten_of_forall₂ {parts : List (List Violation)} {vs : List Violation}
    (hparts : List.Forall₂ (fun f vs => a.analyzeFile f = .ok vs) found parts)
    (hnames : found.Pairwise fun f g => f.path.relativeTo a.root ≠ g.path.relativeTo a.root) (hf : f ∈ found)
    (hvs : a.analyzeFile f = .ok vs) :
    parts.flatten.filter (fun v => v.location.file = f.path.relativeTo a.root) = vs := by
  induction hparts with
  | nil => exact absurd hf List.not_mem_nil
  | @cons g ws found parts hg hparts ih =>
    obtain ⟨hother, hnames⟩ := List.pairwise_cons.1 hnames
    rw [List.flatten_cons, List.filter_append]
    rcases List.mem_cons.1 hf with rfl | hf
    · obtain rfl := Except.ok.inj (hg.symm.trans hvs)
      have hown : ws.filter (fun v => v.location.file = f.path.relativeTo a.root) = ws :=
        List.filter_eq_self.2 fun v hv => decide_eq_true (file_of_mem_analyzeFile hg hv)
      have hothers : parts.flatten.filter (fun v => v.location.file = f.path.relativeTo a.root) = [] := by
        refine List.filter_eq_nil_iff.2 fun v hv => ?_
        obtain ⟨us, hus, hv⟩ := List.mem_flatten.1 hv
        obtain ⟨h, hh, hfile⟩ := exists_of_mem_right hparts hus
        rw [file_of_mem_analyzeFile hfile hv, decide_eq_true_eq]
        exact (hother h hh).symm
      rw [hown, hothers, List.append_nil]
    · have hother' : ws.filter (fun v => v.location.file = f.path.relativeTo a.root) = [] := by
        refine List.filter_eq_nil_iff.2 fun v hv => ?_
        rw [file_of_mem_analyzeFile hg hv, decide_eq_true_eq]
        exact hother f hf
      rw [hother', ih hnames hf, List.nil_append]

theorem analyze_of_checkProject {result : LintResult} {source? : Path → Option String}
    (h : Command.checkProject a s = .ok (result, source?)) :
    a.analyze s = .ok result ∧ source? = fun file => s.files.read? (a.root.join file) := by
  unfold Command.checkProject at h
  split at h
  · cases h
  · rename_i hanalyze
    obtain ⟨rfl, rfl⟩ := Prod.mk.inj (Except.ok.inj h)
    exact ⟨hanalyze, rfl⟩

/-- Where sources have the same result under the names that they are reported by, the text of a file of a project on
standard input has the violations that the report of the project has about the file. -/
private theorem checkInput_relativeTo {result : LintResult} {source? : Path → Option String}
    (hsource : ∀ path source, a.analyzeSource (path.relativeTo a.root) source =
      (a.analyzeSource path source).mapError (AnalysisError.seenFrom a.root))
    (hnamed : ∀ tree ∈ s.files.get? a.root, tree.IsWellNamed) (hfound : a.discover s = .ok found)
    (hcheck : Command.checkProject a s = .ok (result, source?)) (hf : f ∈ found) :
    ∃ text, String.fromUTF8? f.content = some text ∧
      Command.checkInput a (f.path.relativeTo a.root) f.content =
        .ok (⟨result.violations.filter fun v => v.location.file = f.path.relativeTo a.root, 1⟩, fun _ => some text) := by
  obtain ⟨found', parts, hfound', hparts, rfl⟩ := exists_parts_of_analyze (analyze_of_checkProject hcheck).1
  obtain rfl := Except.ok.inj (hfound.symm.trans hfound')
  obtain ⟨vs, -, hvs⟩ := exists_of_mem_right hparts.flip hf
  obtain ⟨text, htext, hanalyze⟩ := analyzeFile_eq_ok_iff.1 hvs
  have hparted := filter_flatten_of_forall₂ hparts (pairwise_relativeTo_of_discover hnamed hfound) hf hvs
  refine ⟨text, htext, ?_⟩
  unfold Command.checkInput
  rw [htext]
  dsimp only
  rw [hsource, hanalyze, LintResult.filter_sort _ _ _ 1, hparted]
  rfl

/-- From an absolute root a source has, under the name that it is reported by, the violations that it has at its path, or an
error that differs in the path only: for any rules if they are told that name at the path too, and as it is for rules that
do not look at the path, as no rule of `Rule.all` does.  So standard input has, under the name that a project reports, the
violations of that file. -/
theorem check_by_reported_name (hroot : a.root.isAbsolute = true) :
    (∀ path source, a.analyzeSource (path.relativeTo a.root) source =
      ((a.toldPath (path.relativeTo a.root)).analyzeSource path source).mapError (AnalysisError.seenFrom a.root)) ∧
    ((∀ r ∈ a.rules, r.IgnoresPath) →
      (∀ path source, a.analyzeSource (path.relativeTo a.root) source =
        (a.analyzeSource path source).mapError (AnalysisError.seenFrom a.root)) ∧
      ∀ (s : Standpoint) (found : List FoundFile) (result : LintResult) (source? : Path → Option String),
        (∀ tree ∈ s.files.get? a.root, tree.IsWellNamed) → a.discover s = .ok found →
        Command.checkProject a s = .ok (result, source?) → ∀ f ∈ found, ∃ text, String.fromUTF8? f.content = some text ∧
          Command.checkInput a (f.path.relativeTo a.root) f.content =
            .ok (⟨result.violations.filter fun v => v.location.file = f.path.relativeTo a.root, 1⟩,
              fun _ => some text)) ∧
    ∀ r ∈ Rule.all, r.IgnoresPath := by
  refine ⟨analyzeSource_relativeTo hroot, fun hrules => ?_, fun _ => Rule.ignoresPath_of_mem_all⟩
  have hsource : ∀ path source, a.analyzeSource (path.relativeTo a.root) source =
      (a.analyzeSource path source).mapError (AnalysisError.seenFrom a.root) := by
    intro path source
    rw [analyzeSource_relativeTo hroot, toldPath_of_ignoresPath hrules]
  exact ⟨hsource, fun s found result source? hnamed hfound hcheck f hf =>
    checkInput_relativeTo hsource hnamed hfound hcheck hf⟩

end Analyzer

/-- From an absolute working directory every analysis that is set up has an absolute root. -/
theorem AnalyzerSettings.isAbsolute_root_of_build {settings : AnalyzerSettings} {workingDirectory : Path} {a : Analyzer}
    (habsolute : workingDirectory.isAbsolute = true) (h : settings.build workingDirectory = .ok a) :
    a.root.isAbsolute = true := by
  unfold build at h
  cases hvalid : settings.config.validate with
  | error e =>
    rw [hvalid] at h
    cases h
  | ok u =>
    rw [hvalid] at h
    obtain rfl := Except.ok.inj h
    exact Path.isAbsolute_join habsolute _

namespace Analyzer

private theorem sampleProject_isWellNamed : sampleProject.IsWellNamed where
  isFileName := sampleProject_isProject.isFileName
  nodup := by
    intro names entries h
    rcases sampleProject_reaches h with ⟨-, hnode⟩ | ⟨-, hnode⟩
    · rw [FileNode.directory.inj hnode]
      decide
    · cases hnode

/-- A root in other words, and a size for the file below it. -/
def dottedSettings : AnalyzerSettings :=
  { root := some ⟨"..//p/."⟩, rules := Rule.all, frontends := [.plain "text" [".kt"]], exclude := []
    config := { Config.default with overrides := [⟨["a.*"], [("indent_size", .integer 3)]⟩] }
    failOnParseError := none }

def dottedAnalyzer : Analyzer :=
  { root := ⟨"/q/..//p/."⟩, rules := Rule.all, frontends := dottedSettings.frontends
    exclude := AnalyzerConfig.default.exclude, config := dottedSettings.config, failOnParseError := false }

private theorem build_dottedSettings : dottedSettings.build ⟨"/q"⟩ = .ok dottedAnalyzer := rfl

theorem isWellNamed_dotted : ∀ tree ∈ sampleMachine.files.get? dottedAnalyzer.root, tree.IsWellNamed := by
  intro tree htree
  obtain rfl : sampleProject = tree := Option.some.inj htree
  exact sampleProject_isWellNamed

theorem exists_ok_of_toOption {ε α : Type} {x : Except ε α} {p : α → Bool} (h : x.toOption.any p = true) :
    ∃ y, x = .ok y ∧ p y = true := by
  cases x with
  | error e => cases h
  | ok y => exact ⟨y, rfl, h⟩

/-- In a project that is looked into through dots, the file is checked again by its name. -/
theorem checked_again_through_dots :
    dottedAnalyzer.root.isAbsolute = true ∧ (∀ r ∈ dottedAnalyzer.rules, r.IgnoresPath) ∧
    (∀ source, dottedAnalyzer.analyzeSource ⟨"a.kt"⟩ source =
      (dottedAnalyzer.analyzeSource ⟨"/q/..//p/./a.kt"⟩ source).mapError
        (AnalysisError.seenFrom dottedAnalyzer.root)) ∧
    ∃ found result source?, dottedAnalyzer.discover sampleMachine = .ok found ∧ found.length = 1 ∧
      Command.checkProject dottedAnalyzer sampleMachine = .ok (result, source?) ∧ result.violations.length = 1 ∧
      ∀ f ∈ found, ∃ text, String.fromUTF8? f.content = some text ∧
        Command.checkInput dottedAnalyzer (f.path.relativeTo dottedAnalyzer.root) f.content =
          .ok (⟨result.violations.filter fun v => v.location.file = f.path.relativeTo dottedAnalyzer.root, 1⟩,
            fun _ => some text) := by
  have hroot := AnalyzerSettings.isAbsolute_root_of_build (by decide +kernel) build_dottedSettings
  have hrules : ∀ r ∈ dottedAnalyzer.rules, r.IgnoresPath := fun _ => Rule.ignoresPath_of_mem_all
  obtain ⟨hsource, hproject⟩ := (check_by_reported_name hroot).2.1 hrules
  have hseen : (⟨"/q/..//p/./a.kt"⟩ : Path).relativeTo dottedAnalyzer.root = ⟨"a.kt"⟩ := by decide +kernel
  obtain ⟨found, hfound, hcount⟩ := exists_ok_of_toOption (x := dottedAnalyzer.discover sampleMachine)
    (p := fun found => found.length == 1) (by decide +kernel)
  obtain ⟨⟨result, source?⟩, hcheck, hviolations⟩ := exists_ok_of_toOption
    (x := Command.checkProject dottedAnalyzer sampleMachine) (p := fun r => r.1.violations.length == 1)
    (by decide +kernel)
  exact ⟨hroot, hrules, fun source => hseen ▸ hsource ⟨"/q/..//p/./a.kt"⟩ source, found, result, source?, hfound,
    by simpa using hcount, hcheck, by simpa using hviolations,
    hproject _ found result source? isWellNamed_dotted hfound hcheck⟩

/-- A rule that complains about every file that was found at an absolute path. -/
def absolutePathRule : Rule :=
  { name := "absolute-path", code := "T001", description := "", severity := .error, State := Unit, initial := ()
    visit := fun ctx c _ =>
      .ok ((), if ctx.path.isAbsolute && c.frames.isEmpty then [⟨c.start, "The path is absolute", false⟩] else []) }

/-- The one violation of the file, if its columns come in threes. -/
def sampleResult : LintResult :=
  ⟨[⟨"KI001", "indent", .error, ⟨⟨"a.kt"⟩, 2, 1, 2, 2⟩, unitMessage 2 3, false⟩], 1⟩

/-- The report of this violation without its source. -/
def sampleReport : String :=
  "a.kt:2:1: error [KI001] Unexpected indentation (2) (it should be 3)\n"

/-- A rule may look at the path at which a file was found, and then it tells this path from the name that it is reported
by.  And a file that is the root itself has the same violations under its name, but in the pretty form another report. -/
theorem differs_under_reported_name :
    (∃ a, { dottedSettings with root := some ⟨"/p"⟩, rules := [absolutePathRule] }.build ⟨"/q"⟩ = .ok a ∧
      a.root.isAbsolute = true ∧ (⟨"/p/a.kt"⟩ : Path).relativeTo a.root = ⟨"a.kt"⟩ ∧
      (∃ v, a.analyzeSource ⟨"/p/a.kt"⟩ ['a'] = .ok [v]) ∧ a.analyzeSource ⟨"a.kt"⟩ ['a'] = .ok []) ∧
    ∃ a found again, { dottedSettings with root := some ⟨"/p/a.kt"⟩ }.build ⟨"/q"⟩ = .ok a ∧
      Command.checkProject a sampleMachine = .ok found ∧ Command.checkInput a ⟨"a.kt"⟩ "a\n  b".toUTF8 = .ok again ∧
      again.1 = found.1 ∧ again.1.report again.2 .pretty ≠ found.1.report found.2 .pretty := by
  constructor
  · exact ⟨_, rfl, by decide +kernel, by decide +kernel, ⟨_, rfl⟩, rfl⟩
  · obtain ⟨found, hfound, hfacts⟩ := exists_ok_of_toOption
      (x := Command.checkProject { dottedAnalyzer with root := ⟨"/p/a.kt"⟩ } sampleMachine)
      (p := fun found => found.1 == sampleResult && found.1.report found.2 .pretty == sampleReport) (by decide +kernel)
    obtain ⟨again, hagain, hfacts'⟩ := exists_ok_of_toOption
      (x := Command.checkInput { dottedAnalyzer with root := ⟨"/p/a.kt"⟩ } ⟨"a.kt"⟩ "a\n  b".toUTF8)
      (p := fun again => again.1 == sampleResult && again.1.report again.2 .pretty != sampleReport) (by decide +kernel)
    simp only [Bool.and_eq_true, beq_iff_eq, bne_iff_ne] at hfacts hfacts'
    refine ⟨_, found, again, rfl, hfound, hagain, hfacts'.1.trans hfacts.1.symm, ?_⟩
    rw [hfacts.2]
    exact hfacts'.2

end Analyzer

end IndentLint
