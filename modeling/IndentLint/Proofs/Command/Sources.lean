import IndentLint.Proofs.Analysis.ReportedName

/-!
# Sources of a report

The report of a check takes the text of a file from what is at its reported name, seen from the root.  Below a directory
this is the file that was analysed (`FileNode.get?_below`), so every violation is shown in its source.  A root that is
itself a file is reported by its name, and below a file there is nothing (`FileNode.get?_join_of_file`), so none of its
violations is shown in its source (`source_of_reported_name`).
-/

namespace IndentLint

private theorem lookup_of_mem {β : Type} {entries : List (String × β)} {name : String} {node : β}
    (hnodup : (entries.map Prod.fst).Nodup) (hmem : (name, node) ∈ entries) : entries.lookup name = some node := by
  obtain ⟨front, back, rfl⟩ := List.append_of_mem hmem
  refine List.lookup_eq_some_iff.2 ⟨front, back, rfl, fun e he => ?_⟩
  rw [List.map_append, List.map_cons, List.nodup_append] at hnodup
  have hne : e.1 ≠ name := hnodup.2.2 e.1 (List.mem_map_of_mem he) name List.mem_cons_self
  simpa using hne.symm

/-! ### What is at a path -/

namespace FileNode

open IndentLint.Path

variable {files tree node : FileNode} {root : Path} {trail next above : Trail} {segment : List Char} {name : String}
  {names : List String} {content : ByteArray}

/-- Only a directory can be followed. -/
private theorem exists_directory_of_follow (h : follow trail segment = some next) :
    ∃ name entries above, trail = (name, directory entries) :: above := by
  unfold follow at h
  split at h
  · cases h
  · cases h
  · exact ⟨_, _, _, rfl⟩

private theorem isDirectory_of_follow (h : follow trail segment = some next)
    (habove : ∀ entry ∈ trail.tail, entry.2.isDirectory = true) : ∀ entry ∈ next.tail, entry.2.isDirectory = true := by
  obtain ⟨name, entries, above, rfl⟩ := exists_directory_of_follow h
  rcases follow_cases h with ⟨last, rfl⟩ | rfl | ⟨-, last, hlast⟩
  · intro entry hentry
    rcases List.mem_cons.1 hentry with rfl | hentry
    · rfl
    · exact habove entry hentry
  · exact habove
  · obtain ⟨-, rfl⟩ := List.cons.inj hlast
    exact fun entry hentry => habove entry (List.mem_of_mem_tail hentry)

/-- Steps lead through directories. -/
private theorem isDirectory_of_walk? {steps : List (List Char)} (h : files.walk? steps = some trail) :
    ∀ entry ∈ trail.tail, entry.2.isDirectory = true := by
  induction steps using List.reverseRecOn generalizing trail with
  | nil =>
    obtain rfl : [("", files)] = trail := Option.some.inj h
    exact fun entry hentry => absurd hentry List.not_mem_nil
  | append_singleton steps last ih =>
    rw [walk?_concat] at h
    obtain ⟨before, hbefore, hfollow⟩ := Option.bind_eq_some_iff.1 h
    exact isDirectory_of_follow hfollow (ih hbefore)

private theorem isDirectory_of_resolve? (h : files.resolve? root = some trail) : files.isDirectory = true := by
  unfold resolve? at h
  split at h
  · obtain ⟨piece, rest, hcons⟩ := List.exists_cons_of_ne_nil (Text.pieces_ne_nil '/' root.text.toList)
    rw [hcons, List.foldlM_cons] at h
    obtain ⟨next, hnext, -⟩ := Option.bind_eq_some_iff.1 h
    obtain ⟨name, entries, above, htop⟩ := exists_directory_of_follow hnext
    obtain ⟨-, rfl⟩ := Prod.mk.inj (List.cons.inj htop).1
    rfl
  · cases h

/-- A path at which there is a file ends in a name. -/
private theorem exists_fileName?_of_file (h : files.resolve? root = some ((name, file content) :: above)) :
    ∃ cs, root.fileName? = some cs := by
  have hwalk := walk?_of_resolve? h
  rcases List.eq_nil_or_concat root.steps with hnil | ⟨front, last, hconcat⟩
  · -- without a step it leads to the top, which is a directory
    have htop := isDirectory_of_resolve? h
    rw [hnil] at hwalk
    obtain ⟨-, rfl⟩ := Prod.mk.inj (List.cons.inj (Option.some.inj hwalk)).1
    cases htop
  · rw [hconcat, List.concat_eq_append, walk?_concat] at hwalk
    obtain ⟨before, hbefore, hfollow⟩ := Option.bind_eq_some_iff.1 hwalk
    obtain ⟨directoryName, entries, up, rfl⟩ := exists_directory_of_follow hfollow
    have hstep : IsStep last := isStep_of_mem_steps (p := root) (by rw [hconcat]; simp)
    by_cases hlast : last = ['.', '.']
    · -- one up there is a directory, too
      have habove := isDirectory_of_walk? hbefore
      rw [hlast] at hfollow
      unfold follow at hfollow
      simp only [Component.ofSegment?, Option.some.injEq] at hfollow
      split at hfollow
      · cases hfollow
      · rw [hfollow] at habove
        cases habove _ List.mem_cons_self
    · refine ⟨last, ?_⟩
      rw [fileName?_eq_getLast?_steps, hconcat, List.concat_eq_append, List.getLast?_concat, Option.bind_some,
        hstep.ofSegment? hlast]

/-- Below a file there is nothing. -/
theorem get?_join_of_file (h : files.resolve? root = some ((name, file content) :: above)) :
    files.get? (root.join (root.relativeTo root)) = none := by
  have hroot := isAbsolute_of_resolve? h
  obtain ⟨cs, hcs⟩ := exists_fileName?_of_file h
  rw [relativeTo_self hroot hcs, get?, resolve?_join hroot (isFileName_of_fileName? hcs), walk?_of_resolve? h]
  rfl

private theorem follow_of_mem {entries : List (String × FileNode)} {last : String} (hlast : IsFileName last)
    (hnodup : (entries.map Prod.fst).Nodup) (hmem : (last, node) ∈ entries) :
    follow ((name, directory entries) :: above) last.toList =
      some ((last, node) :: (name, directory entries) :: above) := by
  rw [follow_name hlast, lookup_of_mem hnodup hmem]
  rfl

/-- What is reached in the tree at the root is at the end of the steps of its path. -/
private theorem exists_walk?_below (hresolve : files.resolve? root = some ((name, tree) :: above))
    (htree : tree.IsWellNamed)
    (h : tree.Reaches names node) : ∃ name above, files.walk? (root.below names).steps = some ((name, node) :: above) := by
  have hroot := isAbsolute_of_resolve? hresolve
  induction h with
  | root => exact ⟨name, above, walk?_of_resolve? hresolve⟩
  | @entry names entries last node hreach hmem ih =>
    obtain ⟨directoryName, up, hwalk⟩ := ih
    have hnames := htree.isFileName _ _ (hreach.entry hmem)
    have hlast : IsFileName last := hnames last (by simp)
    rw [(steps_below hroot hnames).2, List.map_append, List.map_singleton, ← List.append_assoc,
      ← (steps_below hroot (htree.isFileName _ _ hreach)).2, walk?_concat, hwalk]
    exact ⟨_, _, follow_of_mem hlast (htree.nodup _ _ hreach) hmem⟩

/-- What is reached in the tree at the root is at its path. -/
theorem get?_below (hresolve : files.resolve? root = some ((name, tree) :: above)) (htree : tree.IsWellNamed)
    (h : tree.Reaches names node) : files.get? (root.below names) = some node := by
  have hroot := isAbsolute_of_resolve? hresolve
  cases h with
  | root =>
    rw [below_nil, get?, hresolve]
    rfl
  | @entry names entries last _ hreach hmem =>
    obtain ⟨directoryName, up, hwalk⟩ := exists_walk?_below hresolve htree hreach
    have hlast : IsFileName last := htree.isFileName _ _ (hreach.entry hmem) last (by simp)
    have habsolute := (steps_below hroot (htree.isFileName _ _ hreach)).1
    rw [below_concat, get?, resolve?_join habsolute hlast, hwalk, Option.bind_some,
      follow_of_mem hlast (htree.nodup _ _ hreach) hmem]
    rfl

/-- A directory leads to each file below it by what is seen of the path of the file. -/
theorem read?_join_of_directory (hresolve : files.resolve? root = some ((name, tree) :: above)) (htree : tree.IsWellNamed)
    (h : tree.Reaches names (.file content)) (hdirectory : tree.isDirectory = true) :
    root.join ((root.below names).relativeTo root) = root.below names ∧
      files.read? (root.join ((root.below names).relativeTo root)) = String.fromUTF8? content := by
  have hne : names ≠ [] := by
    rintro rfl
    obtain rfl := eq_of_reaches_nil h
    cases hdirectory
  have hjoin := join_relativeTo_below (isAbsolute_of_resolve? hresolve) hne (htree.isFileName _ _ h)
  refine ⟨hjoin, ?_⟩
  rw [hjoin, read?, get?_below hresolve htree h]
  rfl

/-- A root that is a file leads to nothing. -/
theorem read?_join_of_file (hresolve : files.resolve? root = some ((name, tree) :: above))
    (h : tree.Reaches names (.file content)) (hfile : tree.isDirectory = false) :
    root.below names = root ∧ files.read? (root.join ((root.below names).relativeTo root)) = none := by
  cases tree with
  | directory entries => cases hfile
  | file bytes =>
    obtain ⟨rfl, -⟩ := eq_nil_of_reaches_file h
    refine ⟨rfl, ?_⟩
    rw [below_nil, read?, get?_join_of_file hresolve]
    rfl

end FileNode

/-! ### The text of a file in a report -/

namespace Analyzer

variable {a : Analyzer} {s : Standpoint} {found : List FoundFile} {f : FoundFile}

/-- A file that was found is read again at its path. -/
private theorem exists_reaches_of_discover (hnamed : ∀ tree ∈ s.files.get? a.root, tree.IsWellNamed)
    (h : a.discover s = .ok found) :
    ∃ tree name above, s.files.resolve? a.root = some ((name, tree) :: above) ∧ tree.IsWellNamed ∧
      ∀ f ∈ found, ∃ names, f.path = a.root.below names ∧ tree.Reaches names (.file f.content) := by
  obtain ⟨all, hwalk, rfl⟩ := exists_walk_of_discover h
  obtain ⟨tree, files, ⟨name, above, hresolve⟩, htree, hlists, rfl⟩ := exists_files_of_walk? hnamed hwalk
  refine ⟨tree, name, above, hresolve, htree, fun f hf => ?_⟩
  obtain ⟨g, hg, rfl⟩ := List.mem_map.1 (a.mem_of_mem_selected hf)
  exact ⟨g.names, rfl, hlists.reaches g hg⟩

/-- The violations of a project are those of its files. -/
theorem mem_violations_iff {result : LintResult} {v : Violation} (hfound : a.discover s = .ok found)
    (hanalyze : a.analyze s = .ok result) :
    v ∈ result.violations ↔ ∃ f ∈ found, ∃ vs, a.analyzeFile f = .ok vs ∧ v ∈ vs := by
  obtain ⟨found', parts, hfound', hparts, rfl⟩ := exists_parts_of_analyze hanalyze
  obtain rfl := Except.ok.inj (hfound.symm.trans hfound')
  have hmem : v ∈ (LintResult.sort ⟨parts.flatten, found.length⟩).violations ↔ v ∈ parts.flatten := List.mem_mergeSort
  rw [hmem, List.mem_flatten]
  constructor
  · rintro ⟨vs, hvs, hv⟩
    obtain ⟨f, hf, hok⟩ := exists_of_mem_right hparts hvs
    exact ⟨f, hf, vs, hok, hv⟩
  · rintro ⟨f, hf, vs, hvs, hv⟩
    obtain ⟨ws, hws, hok⟩ := exists_of_mem_right hparts.flip hf
    obtain rfl := Except.ok.inj (hvs.symm.trans hok)
    exact ⟨vs, hws, hv⟩

private theorem exists_analyzeFile_of_mem {result : LintResult} (hfound : a.discover s = .ok found)
    (hanalyze : a.analyze s = .ok result) (hf : f ∈ found) : ∃ vs, a.analyzeFile f = .ok vs := by
  obtain ⟨found', parts, hfound', hparts, -⟩ := exists_parts_of_analyze hanalyze
  obtain rfl := Except.ok.inj (hfound.symm.trans hfound')
  obtain ⟨vs, -, hok⟩ := exists_of_mem_right hparts.flip hf
  exact ⟨vs, hok⟩

/-- What a check of a project reports about a file is shown in the text of the file that was analysed, unless the file is the
root itself: a directory leads to the files below it by their reported names, a file to nothing. -/
theorem source_of_reported_name {result : LintResult} {source? : Path → Option String}
    (hnamed : ∀ tree ∈ s.files.get? a.root, tree.IsWellNamed)
    (hcheck : Command.checkProject a s = .ok (result, source?)) :
    ∃ (tree : FileNode) (found : List FoundFile), s.files.get? a.root = some tree ∧ a.discover s = .ok found ∧
      (∀ v ∈ result.violations, ∃ f ∈ found, v.location.file = f.path.relativeTo a.root) ∧
      (∀ f ∈ found, ∃ text vs, String.fromUTF8? f.content = some text ∧ s.files.read? f.path = some text ∧
        a.analyzeSource f.path text.toList = .ok vs ∧ (∀ v ∈ vs, v ∈ result.violations) ∧
        (tree.isDirectory = true → a.root.join (f.path.relativeTo a.root) = f.path ∧
          source? (f.path.relativeTo a.root) = some text) ∧
        (tree.isDirectory = false → f.path = a.root ∧ source? (f.path.relativeTo a.root) = none)) ∧
      result.report source? .pretty = String.join (result.violations.map fun v =>
        if tree.isDirectory then v.snippet ((source? v.location.file).getD "").toList else v.compactText ++ "\n") := by
  obtain ⟨hanalyze, rfl⟩ := analyze_of_checkProject hcheck
  obtain ⟨found, -, hfound, -⟩ := exists_parts_of_analyze hanalyze
  obtain ⟨tree, name, above, hresolve, htree, hreach⟩ := exists_reaches_of_discover hnamed hfound
  have hget : s.files.get? a.root = some tree := by
    rw [FileNode.get?, hresolve]
    rfl
  have hreported : ∀ v ∈ result.violations, ∃ f ∈ found, v.location.file = f.path.relativeTo a.root := by
    intro v hv
    obtain ⟨f, hf, vs, hvs, hv⟩ := (mem_violations_iff hfound hanalyze).1 hv
    exact ⟨f, hf, file_of_mem_analyzeFile hvs hv⟩
  have hsources : ∀ f ∈ found, ∃ text vs, String.fromUTF8? f.content = some text ∧ s.files.read? f.path = some text ∧
      a.analyzeSource f.path text.toList = .ok vs ∧ (∀ v ∈ vs, v ∈ result.violations) ∧
      (tree.isDirectory = true → a.root.join (f.path.relativeTo a.root) = f.path ∧
        s.files.read? (a.root.join (f.path.relativeTo a.root)) = some text) ∧
      (tree.isDirectory = false → f.path = a.root ∧
        s.files.read? (a.root.join (f.path.relativeTo a.root)) = none) := by
    intro f hf
    obtain ⟨names, hpath, hfile⟩ := hreach f hf
    obtain ⟨vs, hvs⟩ := exists_analyzeFile_of_mem hfound hanalyze hf
    obtain ⟨text, htext, hsource⟩ := analyzeFile_eq_ok_iff.1 hvs
    have hread : s.files.read? f.path = some text := by
      rw [hpath, FileNode.read?, FileNode.get?_below hresolve htree hfile]
      exact htext
    have hown : ∀ v ∈ vs, v ∈ result.violations :=
      fun v hv => (mem_violations_iff hfound hanalyze).2 ⟨f, hf, vs, hvs, hv⟩
    refine ⟨text, vs, htext, hread, hsource, hown, ?_, ?_⟩
    · rw [hpath, ← htext]
      exact FileNode.read?_join_of_directory hresolve htree hfile
    · rw [hpath]
      exact FileNode.read?_join_of_file hresolve hfile
  refine ⟨tree, found, hget, hfound, hreported, hsources, ?_⟩
  -- each violation is that of a file, and the kind of the root decides whether the file has a source
  refine congrArg String.join (List.map_congr_left fun v hv => ?_)
  obtain ⟨f, hf, hfile⟩ := hreported v hv
  obtain ⟨text, -, -, -, -, -, hdirectory, hsingle⟩ := hsources f hf
  dsimp only
  rw [hfile]
  cases htop : tree.isDirectory with
  | true =>
    rw [(hdirectory htop).2]
    rfl
  | false =>
    rw [(hsingle htop).2]
    rfl

/-- Through dots, too, a project is shown in its source. -/
theorem source_read_through_dots :
    (∀ tree ∈ sampleMachine.files.get? dottedAnalyzer.root, tree.IsWellNamed) ∧
    ∃ result source?, Command.checkProject dottedAnalyzer sampleMachine = .ok (result, source?) ∧
      result.violations.length = 1 ∧ ∀ v ∈ result.violations, (source? v.location.file).isSome = true := by
  obtain ⟨⟨result, source?⟩, hcheck, hcount⟩ := exists_ok_of_toOption
    (x := Command.checkProject dottedAnalyzer sampleMachine) (p := fun r => r.1.violations.length == 1)
    (by decide +kernel)
  refine ⟨isWellNamed_dotted, result, source?, hcheck, by simpa using hcount, fun v hv => ?_⟩
  obtain ⟨tree, found, hget, -, hreported, hsources, -⟩ := source_of_reported_name isWellNamed_dotted hcheck
  obtain rfl : sampleProject = tree := Option.some.inj hget
  obtain ⟨f, hf, hfile⟩ := hreported v hv
  obtain ⟨text, vs, -, -, -, -, hdirectory, -⟩ := hsources f hf
  rw [hfile, (hdirectory rfl).2]
  rfl

/-- A file that is checked by itself can be read, but its violation is not shown in it. -/
theorem source_missing_at_file : sampleMachine.files.read? ⟨"/p/a.kt"⟩ = some "a\n  b" ∧
    ∃ result source?, Command.checkProject (sampleAnalyzer.rootedAt ⟨"/p/a.kt"⟩) sampleMachine = .ok (result, source?) ∧
      result.violations.map (·.location.file) = [⟨"a.kt"⟩] ∧ source? ⟨"a.kt"⟩ = none ∧
      result.report source? .pretty = "a.kt:2:1: error [KI001] Unexpected indentation (2) (it should be 4)\n" := by
  refine ⟨by decide +kernel, ?_⟩
  obtain ⟨⟨result, source?⟩, hcheck, hfacts⟩ := exists_ok_of_toOption
    (x := Command.checkProject (sampleAnalyzer.rootedAt ⟨"/p/a.kt"⟩) sampleMachine)
    (p := fun r => r.1.violations.map (·.location.file) == [⟨"a.kt"⟩] && (r.2 ⟨"a.kt"⟩ == none &&
      r.1.report r.2 .pretty == "a.kt:2:1: error [KI001] Unexpected indentation (2) (it should be 4)\n"))
    (by decide +kernel)
  simp only [Bool.and_eq_true, beq_iff_eq] at hfacts
  exact ⟨result, source?, hcheck, hfacts.1, hfacts.2.1, hfacts.2.2⟩

end Analyzer

end IndentLint
