import IndentLint.Proofs.Analysis.Discovery
import IndentLint.Proofs.Analysis.Kotlin

/-!
# Reports in the order of paths

The files of a project are analysed in the order of their paths, and the violations of each come line by line.  Below
the root the order of paths is also that of the paths as seen from the root, which the violations bear, so the
violations of all files in a row are in the order of a report already, and no two of them are in the same line of one
file (`analyze_kotlin_in_path_order`).
-/

namespace IndentLint

namespace Violation

/-- The violation is in an earlier file, or in an earlier line of the same file. -/
def IsBefore (v w : Violation) : Prop :=
  (v.location.file.compare w.location.file).then (compare v.location.line w.location.line) = .lt

variable {v w : Violation}

private theorem isBefore_of_file (h : v.location.file.compare w.location.file = .lt) : v.IsBefore w := by
  rw [IsBefore, h]
  rfl

private theorem isBefore_of_line (hfile : v.location.file = w.location.file)
    (hline : v.location.line < w.location.line) : v.IsBefore w := by
  rw [IsBefore, hfile, Path.compare_self, Nat.compare_eq_lt.2 hline]
  rfl

theorem IsBefore.le (h : v.IsBefore w) : v.le w = true := by
  unfold IsBefore at h
  unfold Violation.le
  cases hfile : v.location.file.compare w.location.file with
  | lt => rfl
  | eq =>
    rw [hfile, Ordering.eq_then] at h
    rw [Ordering.eq_then, h]
    rfl
  | gt =>
    rw [hfile] at h
    cases h

private theorem IsBefore.not_same (h : v.IsBefore w) :
    ¬ (v.location.file.components = w.location.file.components ∧ v.location.line = w.location.line) := by
  rintro ⟨hfile, hline⟩
  rw [IsBefore, Path.compare_eq_eq_iff.2 hfile, hline, Nat.compare_eq_eq.2 rfl] at h
  cases h

end Violation

/-- Sorting moves nothing where each violation comes before the later ones. -/
private theorem LintResult.sort_of_isBefore {r : LintResult} (h : r.violations.Pairwise Violation.IsBefore) :
    r.sort = r := by
  rw [sort, List.mergeSort_of_pairwise (h.imp Violation.IsBefore.le)]

private theorem pairwise_of_forall₂ {α β : Type*} {R : α → β → Prop} {S : α → α → Prop} {T : β → β → Prop}
    {xs : List α} {ys : List β} (h : List.Forall₂ R xs ys) (hxs : xs.Pairwise S)
    (hT : ∀ x y x' y', R x y → R x' y' → S x x' → T y y') : ys.Pairwise T := by
  obtain ⟨hlength, hR⟩ := List.forall₂_iff_zip.1 h
  have hfst : ((xs.zip ys).map Prod.fst).Pairwise S := by rwa [List.map_fst_zip (Nat.le_of_eq hlength)]
  have hsnd : ((xs.zip ys).map Prod.snd).Pairwise T := by
    rw [List.pairwise_map] at hfst ⊢
    exact hfst.imp_of_mem fun hp hq hS => hT _ _ _ _ (hR hp) (hR hq) hS
  rwa [List.map_snd_zip (Nat.le_of_eq hlength.symm)] at hsnd

theorem exists_of_mem_right {α β : Type*} {R : α → β → Prop} {xs : List α} {ys : List β}
    (h : List.Forall₂ R xs ys) {y : β} (hy : y ∈ ys) : ∃ x ∈ xs, R x y := by
  induction h with
  | nil => exact absurd hy List.not_mem_nil
  | @cons x y' xs ys hxy _ ih =>
    rcases List.mem_cons.1 hy with rfl | hy
    · exact ⟨x, List.mem_cons_self, hxy⟩
    · obtain ⟨x', hx', hR⟩ := ih hy
      exact ⟨x', List.mem_cons_of_mem x hx', hR⟩

namespace Analyzer

variable {a : Analyzer} {grammar : Kotlin.Grammar} {severity : Severity}

theorem analyzeFile_eq_ok_iff {f : FoundFile} {vs : List Violation} :
    a.analyzeFile f = .ok vs ↔
      ∃ text, String.fromUTF8? f.content = some text ∧ a.analyzeSource f.path text.toList = .ok vs := by
  unfold analyzeFile
  cases String.fromUTF8? f.content with
  | none => simp
  | some text => simp

/-- Violations bear the path as seen from the root. -/
theorem file_of_mem_analyzeSource {path : Path} {source : List Char} {vs : List Violation} {v : Violation}
    (h : a.analyzeSource path source = .ok vs) (hv : v ∈ vs) : v.location.file = path.relativeTo a.root := by
  unfold analyzeSource at h
  split at h
  · cases h
  · split at h
    · cases h
    · rename_i parsed _
      split at h
      · cases h
      · unfold runRules at h
        cases hwalk : walkRules (a.contextFor path) (a.enabledRules.map RunningRule.start) parsed.tree.positions with
        | error e =>
          rw [hwalk] at h
          cases h
        | ok done =>
          rw [hwalk] at h
          obtain rfl := Except.ok.inj h
          obtain ⟨r, -, hr⟩ := List.mem_flatMap.1 hv
          obtain ⟨f, -, rfl⟩ := List.mem_map.1 hr
          rfl

/-- A project has a result only if all files that are analysed have one. -/
theorem exists_parts_of_analyze {s : Standpoint} {r : LintResult} (h : a.analyze s = .ok r) :
    ∃ found parts, a.discover s = .ok found ∧ List.Forall₂ (fun f vs => a.analyzeFile f = .ok vs) found parts ∧
      r = LintResult.sort ⟨parts.flatten, found.length⟩ := by
  unfold analyze at h
  cases hfound : a.discover s with
  | error e =>
    rw [hfound] at h
    cases h
  | ok found =>
    rcases mapM_cases a.analyzeFile found with ⟨parts, hparts, hall⟩ | ⟨k, f, e, he, -⟩
    · refine ⟨found, parts, rfl, hall, ?_⟩
      simp only [hfound, Except.bind, analyzeFiles, hparts, Except.map, Except.ok.injEq] at h
      exact h.symm
    · simp [hfound, Except.bind, analyzeFiles, he, Except.map] at h

/-- The violations of a Kotlin source bear the path as seen from the root, and come line by line. -/
private theorem pairwise_isBefore_of_analyzeSource {path : Path} {source : List Char} {vs : List Violation}
    (h : (a.kotlin grammar severity).analyzeSource path source = .ok vs) :
    (∀ v ∈ vs, v.location.file = path.relativeTo a.root) ∧ vs.Pairwise Violation.IsBefore := by
  have hfile : ∀ v ∈ vs, v.location.file = path.relativeTo (a.kotlin grammar severity).root :=
    fun v hv => file_of_mem_analyzeSource h hv
  obtain ⟨-, p, -, -, rfl⟩ := (analyzeSource_kotlin_eq_ok_iff ..).1 h
  refine ⟨hfile, ?_⟩
  have hlines := List.pairwise_map.1 (pairwise_line_kotlinViolation a severity path source p.root)
  exact hlines.imp_of_mem fun {v w} hv hw hlt =>
    Violation.isBefore_of_line ((hfile v hv).trans (hfile w hw).symm) hlt

private theorem discover_of_walk? {s : Standpoint} {found : List FoundFile}
    (h : s.walk? a.config.analyzer.respectGitignore a.root = some found) : a.discover s = .ok (a.selected found) :=
  discover_rootedAt h

private theorem perm_selected_kotlin (found : List FoundFile) : ((a.kotlin grammar severity).selected found).Perm
    (found.filter fun f => (Frontend.kotlin grammar).handles f.path && !a.isExcluded f.path) := by
  have hone : ∀ f : FoundFile, (a.kotlin grammar severity).frontends.any (·.handles f.path) =
      (Frontend.kotlin grammar).handles f.path := fun f => Bool.or_false _
  have hselected : ((a.kotlin grammar severity).selected found).Perm _ := perm_selected (a.kotlin grammar severity)
  simp only [hone] at hselected
  exact hselected

private theorem of_mem_selected_kotlin {found : List FoundFile} {f : FoundFile}
    (hf : f ∈ (a.kotlin grammar severity).selected found) : f ∈ found ∧
      (Frontend.kotlin grammar).handles f.path = true ∧ a.isExcluded f.path = false := by
  simpa using (perm_selected_kotlin found).mem_iff.1 hf

private theorem analyzeFile_ne_unsupportedFile {f : FoundFile}
    (hhandles : (Frontend.kotlin grammar).handles f.path = true)
    (path : Path) : (a.kotlin grammar severity).analyzeFile f ≠ .error (.unsupportedFile path) := by
  unfold analyzeFile
  cases String.fromUTF8? f.content with
  | none => simp
  | some text =>
    dsimp only
    rw [analyzeSource_kotlin, if_pos hhandles]
    cases grammar text.toList with
    | none => simp
    | some p =>
      dsimp only
      split <;> simp

/-- All files that are analysed are Kotlin files, and these are supported. -/
private theorem analyze_kotlin_ne_unsupportedFile (s : Standpoint) (path : Path) :
    (a.kotlin grammar severity).analyze s ≠ .error (.unsupportedFile path) := by
  intro h
  unfold analyze at h
  cases hwalk : s.walk? (a.kotlin grammar severity).config.analyzer.respectGitignore
      (a.kotlin grammar severity).root with
  | none =>
    rw [discover, hwalk] at h
    cases h
  | some found =>
    rw [discover_of_walk? hwalk] at h
    rcases mapM_cases (a.kotlin grammar severity).analyzeFile ((a.kotlin grammar severity).selected found) with
      ⟨parts, hparts, -⟩ | ⟨k, f, e, he, hk, hf, -⟩
    · simp [Except.bind, Except.map, analyzeFiles, hparts] at h
    · simp only [Except.bind, Except.map, analyzeFiles, he, Except.error.injEq] at h
      exact analyzeFile_ne_unsupportedFile (of_mem_selected_kotlin (List.mem_of_getElem? hk)).2.1 path (h ▸ hf)

/-- Where all files have a result, so have they together: their violations in a row. -/
private theorem exists_parts_of_forall_ok {found : List FoundFile} (h : ∀ f ∈ found, ∃ vs, a.analyzeFile f = .ok vs) :
    ∃ parts, a.analyzeFiles found = .ok ⟨parts.flatten, found.length⟩ ∧
      List.Forall₂ (fun f vs => a.analyzeFile f = .ok vs) found parts := by
  rcases mapM_cases a.analyzeFile found with ⟨parts, hparts, hall⟩ | ⟨k, f, e, -, hk, hf, -⟩
  · exact ⟨parts, by rw [analyzeFiles, hparts]; rfl, hall⟩
  · obtain ⟨vs, hvs⟩ := h f (List.mem_of_getElem? hk)
    rw [hf] at hvs
    cases hvs

/-- The violations of files that come in the order of their paths are in the order of a report. -/
private theorem pairwise_isBefore_of_files {files : List FoundFile} {parts : List (List Violation)}
    (hparts : List.Forall₂ (fun f vs => (a.kotlin grammar severity).analyzeFile f = .ok vs) files parts)
    (hfiles : files.Pairwise fun f g => (f.path.relativeTo a.root).compare (g.path.relativeTo a.root) = .lt) :
    parts.flatten.Pairwise Violation.IsBefore := by
  have heach : ∀ f vs, (a.kotlin grammar severity).analyzeFile f = .ok vs →
      (∀ v ∈ vs, v.location.file = f.path.relativeTo a.root) ∧ vs.Pairwise Violation.IsBefore := by
    intro f vs h
    obtain ⟨text, -, htext⟩ := analyzeFile_eq_ok_iff.1 h
    exact pairwise_isBefore_of_analyzeSource htext
  -- in one file the lines decide, between two files their paths as seen from the root
  rw [List.pairwise_flatten]
  constructor
  · intro vs hvs
    obtain ⟨f, -, hf⟩ := exists_of_mem_right hparts hvs
    exact (heach f vs hf).2
  · refine pairwise_of_forall₂ hparts hfiles fun f vs g ws hf hg hlt v hv w hw => ?_
    refine Violation.isBefore_of_file ?_
    rw [(heach f vs hf).1 v hv, (heach g ws hg).1 w hw, hlt]

/-- Whatever the order in which a walk finds the files, they are analysed in the order of their paths, and the report
consists of what the analysis of each file says, one after the other: sorting moves nothing.  The violations come in the
strict order of files and lines, so no two of them share both, and every file is counted.  No file is unsupported. -/
theorem analyze_kotlin_in_path_order (a : Analyzer) (grammar : Kotlin.Grammar) (severity : Severity) :
    (∀ s path, (a.kotlin grammar severity).analyze s ≠ .error (.unsupportedFile path)) ∧
    ∀ (s : Standpoint) (found : List FoundFile), s.walk? a.config.analyzer.respectGitignore a.root = some found →
      (∀ tree ∈ s.files.get? a.root, tree.IsWellNamed) →
      (∀ f ∈ found, (Frontend.kotlin grammar).handles f.path = true → a.isExcluded f.path = false →
        ∃ vs, (a.kotlin grammar severity).analyzeFile f = .ok vs) →
      ∃ (files : List FoundFile) (parts : List (List Violation)),
        files.Perm (found.filter fun f => (Frontend.kotlin grammar).handles f.path && !a.isExcluded f.path) ∧
        files.Pairwise (fun f g => f.path.compare g.path = .lt) ∧
        List.Forall₂ (fun f vs => ∃ text, String.fromUTF8? f.content = some text ∧
          (a.kotlin grammar severity).analyzeSource f.path text.toList = .ok vs) files parts ∧
        parts.flatten.Pairwise Violation.IsBefore ∧
        parts.flatten.Pairwise (fun v w => ¬ (v.location.file.components = w.location.file.components ∧
          v.location.line = w.location.line)) ∧
        LintResult.sort ⟨parts.flatten, files.length⟩ = ⟨parts.flatten, files.length⟩ ∧
        ∀ found' : List FoundFile, found'.Perm found →
          ((a.kotlin grammar severity).analyzeFiles ((a.kotlin grammar severity).selected found')).map LintResult.sort =
            .ok ⟨parts.flatten, files.length⟩ ∧
          ∀ s' : Standpoint, s'.walk? a.config.analyzer.respectGitignore a.root = some found' →
            (a.kotlin grammar severity).analyze s' = .ok ⟨parts.flatten, files.length⟩ := by
  refine ⟨analyze_kotlin_ne_unsupportedFile, fun s found hwalk hnamed hok => ?_⟩
  have hapart : IsApart a.root found := isApart_of_walk? hnamed hwalk
  have hpaths := (a.kotlin grammar severity).pairwise_selected hapart
  have hseen : ((a.kotlin grammar severity).selected found).Pairwise fun f g =>
      (f.path.relativeTo a.root).compare (g.path.relativeTo a.root) = .lt := by
    refine hpaths.imp_of_mem fun {f g} hf hg hlt => ?_
    rw [hapart.seenInOrder f (of_mem_selected_kotlin hf).1 g (of_mem_selected_kotlin hg).1, hlt]
  obtain ⟨parts, hanalyze, hparts⟩ := exists_parts_of_forall_ok fun f hf =>
    hok f (of_mem_selected_kotlin hf).1 (of_mem_selected_kotlin hf).2.1 (of_mem_selected_kotlin hf).2.2
  have hbefore := pairwise_isBefore_of_files hparts hseen
  refine ⟨_, parts, perm_selected_kotlin found, hpaths, hparts.imp fun f vs h => analyzeFile_eq_ok_iff.1 h, hbefore,
    hbefore.imp Violation.IsBefore.not_same, LintResult.sort_of_isBefore hbefore, fun found' hperm => ?_⟩
  -- in any other order the same files are analysed, and in the same order
  have hselected := (a.kotlin grammar severity).selected_eq_of_perm hapart hperm
  have hreport : ((a.kotlin grammar severity).analyzeFiles ((a.kotlin grammar severity).selected found')).map
      LintResult.sort = .ok ⟨parts.flatten, ((a.kotlin grammar severity).selected found).length⟩ := by
    rw [hselected, hanalyze, Except.map, LintResult.sort_of_isBefore hbefore]
  refine ⟨hreport, fun s' hwalk' => ?_⟩
  have hdiscover : (a.kotlin grammar severity).discover s' = .ok ((a.kotlin grammar severity).selected found') :=
    discover_of_walk? hwalk'
  rw [analyze, hdiscover, Except.bind, hreport]

/-! ### Two orders -/

/-- A text whose second line stands at two columns. -/
def slantedContent : ByteArray :=
  "x\n  y".toUTF8

/-- A file and a directory; as a text the path of the file would come before those below the directory. -/
def slantedProject : List (String × FileNode) :=
  [("a-b.kt", .file slantedContent), ("a", .directory [("z.kt", .file slantedContent)])]

private theorem slantedProject_reaches {names : List String} {node : FileNode}
    (h : (FileNode.directory slantedProject).Reaches names node) :
    names = [] ∧ node = .directory slantedProject ∨ names = ["a-b.kt"] ∧ node = .file slantedContent ∨
      names = ["a"] ∧ node = .directory [("z.kt", .file slantedContent)] ∨
      names = ["a", "z.kt"] ∧ node = .file slantedContent := by
  induction h with
  | root => exact Or.inl ⟨rfl, rfl⟩
  | entry _ hmem ih =>
    rcases ih with ⟨rfl, hnode⟩ | ⟨-, hnode⟩ | ⟨rfl, hnode⟩ | ⟨-, hnode⟩
    · obtain rfl := FileNode.directory.inj hnode
      simp only [slantedProject, List.mem_cons, List.not_mem_nil, or_false, Prod.mk.injEq] at hmem
      rcases hmem with ⟨rfl, rfl⟩ | ⟨rfl, rfl⟩
      · exact Or.inr (Or.inl ⟨rfl, rfl⟩)
      · exact Or.inr (Or.inr (Or.inl ⟨rfl, rfl⟩))
    · cases hnode
    · obtain rfl := FileNode.directory.inj hnode
      obtain ⟨rfl, rfl⟩ := Prod.mk.inj (List.mem_singleton.1 hmem)
      exact Or.inr (Or.inr (Or.inr ⟨rfl, rfl⟩))
    · cases hnode

private theorem slantedProject_isWellNamed : (FileNode.directory slantedProject).IsWellNamed where
  isFileName := by
    intro names node h
    rcases slantedProject_reaches h with ⟨rfl, -⟩ | ⟨rfl, -⟩ | ⟨rfl, -⟩ | ⟨rfl, -⟩ <;> decide
  nodup := by
    intro names entries h
    rcases slantedProject_reaches h with ⟨-, hnode⟩ | ⟨-, hnode⟩ | ⟨-, hnode⟩ | ⟨-, hnode⟩
    · rw [FileNode.directory.inj hnode]
      decide
    · cases hnode
    · rw [FileNode.directory.inj hnode]
      decide
    · cases hnode

def machineWith (entries : List (String × FileNode)) : Standpoint :=
  { files := .directory [("p", .directory entries)], workingDirectory := ⟨"/"⟩, home := none, settings := none }

def slantedAnalyzer : Analyzer :=
  { root := ⟨"/p"⟩, rules := [], frontends := [], exclude := [], config := .default, failOnParseError := false }

/-- A grammar under which each source is one node. -/
def flatGrammar : Kotlin.Grammar :=
  fun _ => some ⟨.node "source_file" 0 5 [], false⟩

/-- What is found in the file of the project that is at `path`, seen from the root as `file`. -/
def slantedViolation (file : Path) : Violation :=
  { code := "KI001", rule := "indent", severity := .error, location := ⟨file, 2, 1, 2, 2⟩, message := unitMessage 2 4,
    correctable := false }

/-- The files of the project in the order of their paths. -/
def slantedFiles : List FoundFile :=
  [⟨⟨"/p/a/z.kt"⟩, slantedContent⟩, ⟨⟨"/p/a-b.kt"⟩, slantedContent⟩]

def slantedParts : List (List Violation) :=
  [[slantedViolation ⟨"a/z.kt"⟩], [slantedViolation ⟨"a-b.kt"⟩]]

private theorem forall₂_slanted :
    List.Forall₂ (fun f vs => (slantedAnalyzer.kotlin flatGrammar .error).analyzeFile f = .ok vs) slantedFiles
      slantedParts :=
  .cons (by decide +kernel) (.cons (by decide +kernel) .nil)

/-- The file below the directory comes first, in whichever order the two are found. -/
theorem analyze_slanted_in_two_orders :
    (slantedAnalyzer.kotlin flatGrammar .error).analyze (machineWith slantedProject) = .ok ⟨slantedParts.flatten, 2⟩ ∧
      (slantedAnalyzer.kotlin flatGrammar .error).analyze (machineWith slantedProject.reverse) =
        .ok ⟨slantedParts.flatten, 2⟩ := by
  have hwalk : (machineWith slantedProject).walk? true ⟨"/p"⟩ = some slantedFiles.reverse := rfl
  have hwalk' : (machineWith slantedProject.reverse).walk? true ⟨"/p"⟩ = some slantedFiles := rfl
  have hnamed : ∀ tree ∈ (machineWith slantedProject).files.get? slantedAnalyzer.root, tree.IsWellNamed := by
    rintro tree ⟨⟩
    exact slantedProject_isWellNamed
  have hok : ∀ f ∈ slantedFiles.reverse, ∃ vs, (slantedAnalyzer.kotlin flatGrammar .error).analyzeFile f = .ok vs := by
    intro f hf
    obtain ⟨vs, -, hvs⟩ := exists_of_mem_right forall₂_slanted.flip (List.mem_reverse.1 hf)
    exact ⟨vs, hvs⟩
  obtain ⟨files, parts, hperm, hpaths, hparts, -, -, -, hreport⟩ :=
    (analyze_kotlin_in_path_order slantedAnalyzer flatGrammar .error).2 (machineWith slantedProject)
      slantedFiles.reverse hwalk hnamed fun f hf _ _ => hok f hf
  have hfiles : files = slantedFiles := by
    have hall : slantedFiles.reverse.filter (fun f => (Frontend.kotlin flatGrammar).handles f.path &&
        !slantedAnalyzer.isExcluded f.path) = slantedFiles.reverse := rfl
    rw [hall] at hperm
    refine List.Perm.eq_of_pairwise (fun f g _ _ hfg hgf => ?_) hpaths (by decide)
      (hperm.trans (List.reverse_perm slantedFiles))
    rw [Path.compare_swap, hgf] at hfg
    cases hfg
  have hsame : parts = slantedParts := by
    have hunique : Relator.RightUnique fun f vs =>
        (slantedAnalyzer.kotlin flatGrammar .error).analyzeFile f = .ok vs := by
      intro f vs ws hvs hws
      exact Except.ok.inj (hvs.symm.trans hws)
    exact List.right_unique_forall₂' hunique (hfiles ▸ hparts.imp fun f vs h => analyzeFile_eq_ok_iff.2 h)
      forall₂_slanted
  rw [hfiles, hsame] at hreport
  exact ⟨(hreport _ (List.Perm.refl _)).2 _ hwalk, (hreport _ (List.reverse_perm slantedFiles).symm).2 _ hwalk'⟩

end Analyzer

end IndentLint
