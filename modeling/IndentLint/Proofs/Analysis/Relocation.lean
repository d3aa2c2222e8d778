import IndentLint.Proofs.Analysis.Checkout
import IndentLint.Proofs.Analysis.Rules
import IndentLint.Rule.Indentation

/-!
# Reports of a project at different places

What is reported about a file depends on its names from the root down, not on where the root is, as long as the rules
do not look at the path at which the file was found.  The globs of files that are left out do look at that path.  Where
they treat the files of a project alike at two places, the project has the same report at both
(`analyze_relocated`).  A directory above the project is enough for them to leave out all of it (`lost_below_build`).
-/

namespace IndentLint

private theorem mapM_congr {α β ε : Type*} {f g : α → Except ε β} {xs : List α} (h : ∀ x ∈ xs, f x = g x) :
    xs.mapM f = xs.mapM g := by
  induction xs with
  | nil => rfl
  | cons x xs ih =>
    rw [List.mapM_cons, List.mapM_cons, h x List.mem_cons_self, ih fun y hy => h y (List.mem_cons_of_mem _ hy)]

private theorem mapError_mapM {α β ε δ : Type*} (g : ε → δ) (f : α → Except ε β) (xs : List α) :
    (xs.mapM f).mapError g = xs.mapM fun x => (f x).mapError g := by
  induction xs with
  | nil => rfl
  | cons x xs ih =>
    rw [List.mapM_cons, List.mapM_cons, ← ih]
    cases f x with
    | error e => rfl
    | ok y =>
      cases xs.mapM f with
      | error e => rfl
      | ok ys => rfl

private theorem mapError_map {α β ε δ : Type*} (g : ε → δ) (f : α → β) (x : Except ε α) :
    (x.map f).mapError g = (x.mapError g).map f := by
  cases x with
  | error e => rfl
  | ok y => rfl

/-! ### Rules that do not look at the path -/

/-- A rule does not look at the path at which a file was found. -/
def Rule.IgnoresPath (r : Rule) : Prop :=
  ∀ (ctx : FileContext) (path : Path), r.visit { ctx with path } = r.visit ctx

theorem Rule.ignoresPath_of_mem_all {r : Rule} (h : r ∈ Rule.all) : r.IgnoresPath := by
  obtain rfl := List.mem_singleton.1 h
  intro ctx path
  rfl

variable {ctx : FileContext} {path : Path} {c : Cursor} {running next : List RunningRule}

private theorem RunningRule.step_withPath {r : RunningRule} (h : r.rule.IgnoresPath) :
    r.step { ctx with path } c = r.step ctx c := by
  unfold step
  rw [h ctx path]

private theorem RunningRule.rule_of_step {r d : RunningRule} (h : r.step ctx c = .ok d) : d.rule = r.rule := by
  unfold step at h
  split at h
  · cases h
  · rw [← Except.ok.inj h]

/-- Taking an element, the rules stay what they are. -/
private theorem map_rule_of_mapM_step (h : running.mapM (RunningRule.step ctx c) = .ok next) :
    next.map (·.rule) = running.map (·.rule) := by
  induction running generalizing next with
  | nil =>
    obtain rfl : [] = next := Except.ok.inj h
    rfl
  | cons r running ih =>
    rw [List.mapM_cons] at h
    cases hr : r.step ctx c with
    | error e =>
      rw [hr] at h
      cases h
    | ok d =>
      cases hrest : running.mapM (RunningRule.step ctx c) with
      | error e =>
        rw [hr, hrest] at h
        cases h
      | ok rest =>
        rw [hr, hrest] at h
        obtain rfl : d :: rest = next := Except.ok.inj h
        rw [List.map_cons, List.map_cons, RunningRule.rule_of_step hr, ih hrest]

theorem walkRules_withPath (h : ∀ r ∈ running.map (·.rule), r.IgnoresPath) (cs : List Cursor) :
    walkRules { ctx with path } running cs = walkRules ctx running cs := by
  induction cs generalizing running with
  | nil => rfl
  | cons c cs ih =>
    have hstep : running.mapM (RunningRule.step { ctx with path } c) = running.mapM (RunningRule.step ctx c) :=
      mapM_congr fun r hr => RunningRule.step_withPath (h _ (List.mem_map_of_mem hr))
    rw [walkRules, walkRules, hstep]
    cases hnext : running.mapM (RunningRule.step ctx c) with
    | error e => rfl
    | ok next => exact ih (map_rule_of_mapM_step hnext ▸ h)

/-! ### One file -/

/-- The error with paths as they are seen from a root. -/
def AnalysisError.seenFrom (root : Path) : AnalysisError → AnalysisError
  | .syntaxErrors path language => .syntaxErrors (path.relativeTo root) language
  | .frontend path cause => .frontend (path.relativeTo root) cause
  | .rule path cause => .rule (path.relativeTo root) cause
  | .unsupportedFile path => .unsupportedFile (path.relativeTo root)
  | e => e

/-- The error with `f` applied to the path in it. -/
def AnalysisError.mapPath (f : Path → Path) : AnalysisError → AnalysisError
  | .syntaxErrors path language => .syntaxErrors (f path) language
  | .frontend path cause => .frontend (f path) cause
  | .rule path cause => .rule (f path) cause
  | .unsupportedFile path => .unsupportedFile (f path)
  | e => e

theorem AnalysisError.seenFrom_eq_mapPath (root : Path) : seenFrom root = mapPath (·.relativeTo root) := by
  funext e
  cases e <;> rfl

namespace Analyzer

/-- Two analyses that choose the same frontend, and whose rules make the same complaints, have the same result but for the
paths in their errors. -/
theorem analyzeSource_congr {a b : Analyzer} {p q : Path} {f g : Path → Path} {source : List Char} (hpath : f p = g q)
    (hfrontend : a.frontendFor? p = b.frontendFor? q) (hfail : a.failOnParseError = b.failOnParseError)
    (hrun : ∀ tree, a.runRules (a.contextFor p) tree source = b.runRules (b.contextFor q) tree source) :
    (a.analyzeSource p source).mapError (AnalysisError.mapPath f) =
      (b.analyzeSource q source).mapError (AnalysisError.mapPath g) := by
  unfold analyzeSource
  rw [hfrontend]
  cases b.frontendFor? q with
  | none => exact congrArg (fun p => Except.error (AnalysisError.unsupportedFile p)) hpath
  | some frontend =>
    dsimp only
    cases frontend.parse source with
    | error e => exact congrArg (fun p => Except.error (AnalysisError.frontend p e)) hpath
    | ok parsed =>
      dsimp only
      rw [hfail, hrun]
      split
      · exact congrArg (fun p => Except.error (AnalysisError.syntaxErrors p frontend.language)) hpath
      · cases b.runRules (b.contextFor q) parsed.tree source with
        | ok violations => rfl
        | error e => exact congrArg (fun p => Except.error (AnalysisError.rule p e)) hpath

/-- The same analysis of a project at another root. -/
def rootedAt (a : Analyzer) (root : Path) : Analyzer :=
  { a with root }

variable {a : Analyzer} {root root' : Path} {names : List String}

private theorem runRules_withPath (h : ∀ r ∈ a.rules, r.IgnoresPath) (tree : Element) (text : List Char) :
    a.runRules { ctx with path } tree text = a.runRules ctx tree text := by
  have hrules : ∀ r ∈ (a.enabledRules.map RunningRule.start).map (·.rule), r.IgnoresPath := by
    intro r hr
    rw [List.map_map] at hr
    obtain ⟨q, hq, rfl⟩ := List.mem_map.1 hr
    exact h q (List.mem_filter.1 hq).1
  rw [runRules_eq, runRules_eq, walkRules_withPath hrules]
  rfl

private theorem contextFor_below (hroot : root.isAbsolute = true) (hroot' : root'.isAbsolute = true) (hne : names ≠ [])
    (h : ∀ n ∈ names, Path.IsFileName n) :
    (a.rootedAt root).contextFor (root.below names) =
      { (a.rootedAt root').contextFor (root'.below names) with path := root.below names } := by
  unfold contextFor rootedAt FileContext.of
  dsimp only
  rw [Path.relativeTo_below hroot hne h, Path.relativeTo_below hroot' hne h, Path.extension?_below hroot hne h,
    Path.extension?_below hroot' hne h]

private theorem handles_below (hroot : root.isAbsolute = true) (hroot' : root'.isAbsolute = true) (hne : names ≠ [])
    (h : ∀ n ∈ names, Path.IsFileName n) (f : Frontend) :
    f.handles (root.below names) = f.handles (root'.below names) := by
  unfold Frontend.handles
  rw [Path.extension?_below hroot hne h, Path.extension?_below hroot' hne h]

/-- The complaints about a file are the same at every root. -/
private theorem analyzeSource_below (hrules : ∀ r ∈ a.rules, r.IgnoresPath) (hroot : root.isAbsolute = true)
    (hroot' : root'.isAbsolute = true) (hne : names ≠ []) (h : ∀ n ∈ names, Path.IsFileName n)
    (source : List Char) :
    ((a.rootedAt root).analyzeSource (root.below names) source).mapError (AnalysisError.seenFrom root) =
      ((a.rootedAt root').analyzeSource (root'.below names) source).mapError (AnalysisError.seenFrom root') := by
  have hseen : (root.below names).relativeTo root = (root'.below names).relativeTo root' := by
    rw [Path.relativeTo_below hroot hne h, Path.relativeTo_below hroot' hne h]
  have hfrontend : (a.rootedAt root).frontendFor? (root.below names) =
      (a.rootedAt root').frontendFor? (root'.below names) := by
    unfold frontendFor?
    exact congrArg (List.find? · a.frontends) (funext (handles_below hroot hroot' hne h))
  rw [AnalysisError.seenFrom_eq_mapPath, AnalysisError.seenFrom_eq_mapPath]
  refine analyzeSource_congr hseen hfrontend rfl fun tree => ?_
  rw [contextFor_below hroot hroot' hne h]
  exact runRules_withPath hrules tree source

private theorem analyzeFile_foundFrom (hrules : ∀ r ∈ a.rules, r.IgnoresPath) (hroot : root.isAbsolute = true)
    (hroot' : root'.isAbsolute = true) {f : ProjectFile} (hne : f.names ≠ [])
    (h : ∀ n ∈ f.names, Path.IsFileName n) :
    ((a.rootedAt root).analyzeFile (f.foundFrom root)).mapError (AnalysisError.seenFrom root) =
      ((a.rootedAt root').analyzeFile (f.foundFrom root')).mapError (AnalysisError.seenFrom root') := by
  unfold analyzeFile ProjectFile.foundFrom
  dsimp only
  cases String.fromUTF8? f.content with
  | none => rfl
  | some text => exact analyzeSource_below hrules hroot hroot' hne h text.toList

/-! ### A whole project -/

variable {tree : FileNode} {found found' : List FoundFile}

private theorem analyzeFiles_sameFiles (htree : tree.IsProject) (hrules : ∀ r ∈ a.rules, r.IgnoresPath)
    (hroot : root.isAbsolute = true) (hroot' : root'.isAbsolute = true)
    (h : Checkout.SameFiles tree root root' found found') :
    ((a.rootedAt root).analyzeFiles found).mapError (AnalysisError.seenFrom root) =
      ((a.rootedAt root').analyzeFiles found').mapError (AnalysisError.seenFrom root') := by
  obtain ⟨files, hfiles, rfl, rfl⟩ := h
  unfold analyzeFiles
  rw [mapError_map, mapError_map, mapError_mapM, mapError_mapM, List.mapM_map, List.mapM_map, List.length_map,
    List.length_map]
  refine congrArg _ (mapM_congr fun f hf => ?_)
  exact analyzeFile_foundFrom hrules hroot hroot' (htree.ne_nil (hfiles f hf)) (htree.isFileName _ _ (hfiles f hf))

/-- The files among those that were found that are analysed, in the order of their paths. -/
def selected (a : Analyzer) (found : List FoundFile) : List FoundFile :=
  (found.filter fun f => a.frontends.any (·.handles f.path) && !a.isExcluded f.path).mergeSort
    fun f g => (f.path.compare g.path).isLE

theorem discover_rootedAt {s : Standpoint} (h : s.walk? a.config.analyzer.respectGitignore root = some found) :
    (a.rootedAt root).discover s = .ok (a.selected found) := by
  unfold discover rootedAt
  dsimp only
  rw [h]
  rfl

variable {c d : Checkout a.config.analyzer.respectGitignore tree}

/-- At two places that are alike the same files are analysed, if the globs leave out the same files. -/
private theorem exists_discover (htree : tree.IsProject) (h : c.Alike d)
    (hexcluded : ∀ names content, tree.Reaches names (.file content) →
      a.isExcluded (c.root.below names) = a.isExcluded (d.root.below names)) :
    ∃ found found', (a.rootedAt c.root).discover c.standpoint = .ok found ∧
      (a.rootedAt d.root).discover d.standpoint = .ok found' ∧
      Checkout.SameFiles tree c.root d.root found found' := by
  obtain ⟨found, found', hwalk, hwalk', hsame⟩ := Checkout.exists_walk h
  refine ⟨_, _, discover_rootedAt hwalk, discover_rootedAt hwalk', (hsame.filter ?_).mergeSort ?_⟩
  · intro f hf
    have hnames := htree.isFileName _ _ hf
    unfold ProjectFile.foundFrom
    dsimp only
    rw [hexcluded _ _ hf, funext (handles_below c.isAbsolute d.isAbsolute (htree.ne_nil hf) hnames)]
  · intro f g hf hg
    unfold ProjectFile.foundFrom
    dsimp only
    rw [Path.compare_below c.isAbsolute (htree.isFileName _ _ hf) (htree.isFileName _ _ hg),
      Path.compare_below d.isAbsolute (htree.isFileName _ _ hf) (htree.isFileName _ _ hg)]

/-- A project has the same report at two places that nothing outside of it tells from each other, if the globs of files
that are left out treat its files alike at both. -/
theorem analyze_relocated (htree : tree.IsProject) (hrules : ∀ r ∈ a.rules, r.IgnoresPath) (h : c.Alike d)
    (hexcluded : ∀ names content, tree.Reaches names (.file content) →
      a.isExcluded (c.root.below names) = a.isExcluded (d.root.below names)) :
    ((a.rootedAt c.root).analyze c.standpoint).mapError (AnalysisError.seenFrom c.root) =
      ((a.rootedAt d.root).analyze d.standpoint).mapError (AnalysisError.seenFrom d.root) := by
  obtain ⟨found, found', hfound, hfound', hsame⟩ := exists_discover htree h hexcluded
  have hfiles := analyzeFiles_sameFiles htree hrules c.isAbsolute d.isAbsolute hsame
  unfold analyze
  rw [hfound, hfound', mapError_map, mapError_map]
  exact congrArg (Except.map LintResult.sort) hfiles

/-! ### Three places -/

/-- A project of one file, whose second line stands at two columns. -/
def sampleProject : FileNode :=
  .directory [("a.kt", .file "a\n  b".toUTF8)]

/-- A machine on which the project lies at three places. -/
def sampleMachine : Standpoint :=
  { files := .directory [("p", sampleProject), ("q", sampleProject), ("build", sampleProject)]
    workingDirectory := ⟨"/"⟩, home := none, settings := none }

/-- An analysis under the configuration where none is given. -/
def sampleAnalyzer : Analyzer :=
  { root := ⟨"/"⟩, rules := Rule.all, frontends := [.plain "text" [".kt"]]
    exclude := AnalyzerConfig.default.exclude, config := .default, failOnParseError := false }

/-- The project lies in the directory `name` of this machine. -/
def SampleAt (name : String) : Prop :=
  sampleMachine.files.resolve? ⟨"/" ++ name⟩ = some [(name, sampleProject), ("", sampleMachine.files)]

private theorem sampleAt_p : SampleAt "p" := rfl

private theorem sampleAt_q : SampleAt "q" := rfl

private theorem sampleAt_build : SampleAt "build" := rfl

/-- The project at one of its places. -/
def sampleCheckout (name : String) (h : SampleAt name) : Checkout true sampleProject where
  standpoint := sampleMachine
  root := ⟨"/" ++ name⟩
  name := name
  above := [("", sampleMachine.files)]
  resolves := h
  silent := by
    intro l hl
    obtain rfl := List.mem_singleton.1 hl
    exact ⟨rfl, rfl, rfl⟩

theorem sampleProject_reaches {names : List String} {node : FileNode} (h : sampleProject.Reaches names node) :
    names = [] ∧ node = sampleProject ∨ names = ["a.kt"] ∧ node = .file "a\n  b".toUTF8 := by
  induction h with
  | root => exact Or.inl ⟨rfl, rfl⟩
  | entry _ hmem ih =>
    rcases ih with ⟨rfl, hnode⟩ | ⟨-, hnode⟩
    · obtain rfl := FileNode.directory.inj hnode
      obtain ⟨rfl, rfl⟩ := Prod.mk.inj (List.mem_singleton.1 hmem)
      exact Or.inr ⟨rfl, rfl⟩
    · cases hnode

theorem sampleProject_isProject : sampleProject.IsProject where
  isDirectory := rfl
  isFileName := by
    intro names node h
    rcases sampleProject_reaches h with ⟨rfl, -⟩ | ⟨rfl, -⟩ <;> decide

private theorem sampleCheckout_alike {name name' : String} (h : SampleAt name) (h' : SampleAt name') :
    (sampleCheckout name h).Alike (sampleCheckout name' h') where
  isTop := rfl
  personal := by
    intro names node _ _
    -- this user has no home, hence no rules
    have hpath : PersonalIgnore.path? sampleMachine = none := rfl
    have hrules : PersonalIgnore.rules sampleMachine = [] := by
      rw [PersonalIgnore.rules, hpath]
      rfl
    show IgnoreRule.verdict? (PersonalIgnore.rules sampleMachine) _ _ =
      IgnoreRule.verdict? (PersonalIgnore.rules sampleMachine) _ _
    rw [hrules, IgnoreRule.verdict?_nil, IgnoreRule.verdict?_nil]
  excludeFile := fun _ _ _ => rfl

/-- The project has the same report at `/p` and at `/q`. -/
theorem analyze_at_p_and_q :
    ((sampleAnalyzer.rootedAt ⟨"/p"⟩).analyze sampleMachine).mapError (AnalysisError.seenFrom ⟨"/p"⟩) =
      ((sampleAnalyzer.rootedAt ⟨"/q"⟩).analyze sampleMachine).mapError (AnalysisError.seenFrom ⟨"/q"⟩) := by
  refine analyze_relocated (a := sampleAnalyzer) (c := sampleCheckout "p" sampleAt_p)
    (d := sampleCheckout "q" sampleAt_q) sampleProject_isProject (fun _ => Rule.ignoresPath_of_mem_all)
    (sampleCheckout_alike sampleAt_p sampleAt_q) ?_
  intro names content h
  rcases sampleProject_reaches h with ⟨-, hnode⟩ | ⟨rfl, -⟩
  · cases hnode
  · decide +kernel

/-- At `/build` nothing of the project is looked at. -/
theorem lost_below_build : ∃ c d : Checkout true sampleProject, c.Alike d ∧
    ((sampleAnalyzer.rootedAt c.root).analyze c.standpoint).toOption.map
        (fun r => (r.violations.length, r.filesChecked)) = some (1, 1) ∧
    ((sampleAnalyzer.rootedAt d.root).analyze d.standpoint).toOption.map
        (fun r => (r.violations.length, r.filesChecked)) = some (0, 0) :=
  ⟨sampleCheckout "p" sampleAt_p, sampleCheckout "build" sampleAt_build, sampleCheckout_alike _ _, by decide +kernel,
    by decide +kernel⟩

end Analyzer

end IndentLint
