import IndentLint.Proofs.Analysis.Relocation
import IndentLint.Proofs.File.Order
import Mathlib.Data.List.Infix

/-!
# What a walk finds

Where no directory has two entries of one name, a walk finds no file twice: the files that it finds have different names
from the root down (`exists_files_of_walk?`).  So their paths are apart, as they are and as seen from the root
(`isApart_of_walk?`), and the files that are analysed come in one order only, whatever the order in which the walk finds
them (`selected_eq_of_perm`).
-/

namespace IndentLint

namespace FileNode

/-- Everything in the tree has the name of a file, and no directory has two entries of one name. -/
structure IsWellNamed (tree : FileNode) : Prop where
  isFileName : ∀ names node, tree.Reaches names node → ∀ name ∈ names, Path.IsFileName name
  nodup : ∀ names entries, tree.Reaches names (.directory entries) → (entries.map Prod.fst).Nodup

/-- Without a name nothing but the tree itself is reached. -/
theorem eq_of_reaches_nil {tree node : FileNode} (h : tree.Reaches [] node) : tree = node := by
  generalize hnames : ([] : List String) = names at h
  cases h with
  | root => rfl
  | entry _ _ => exact absurd hnames.symm (List.append_ne_nil_of_right_ne_nil _ (List.cons_ne_nil _ _))

/-- Nothing is below a file. -/
theorem eq_nil_of_reaches_file {content : ByteArray} {names : List String} {node : FileNode}
    (h : (file content).Reaches names node) : names = [] ∧ node = file content := by
  induction h with
  | root => exact ⟨rfl, rfl⟩
  | entry _ _ ih => cases ih.2

/-- Some files of the tree at or below a node, none of them twice. -/
structure ListsFiles (tree : FileNode) (names : List String) (files : List ProjectFile) : Prop where
  reaches : ∀ f ∈ files, tree.Reaches f.names (.file f.content)
  below : ∀ f ∈ files, names <+: f.names
  nodup : (files.map (·.names)).Nodup

variable {tree : FileNode} {names : List String}

private theorem listsFiles_nil : tree.ListsFiles names [] :=
  ⟨fun _ hf => absurd hf List.not_mem_nil, fun _ hf => absurd hf List.not_mem_nil, List.nodup_nil⟩

/-- Files below an entry and files below other entries of the directory are no files twice. -/
theorem ListsFiles.append {name : String} {others : List String} {files more : List ProjectFile}
    (h : tree.ListsFiles (names ++ [name]) files) (hmore : tree.ListsFiles names more) (hname : name ∉ others)
    (hothers : ∀ f ∈ more, ∃ other ∈ others, names ++ [other] <+: f.names) :
    tree.ListsFiles names (files ++ more) := by
  refine ⟨fun f hf => ?_, fun f hf => ?_, ?_⟩
  · exact (List.mem_append.1 hf).elim (h.reaches f) (hmore.reaches f)
  · exact (List.mem_append.1 hf).elim (fun hf => (List.prefix_append _ _).trans (h.below f hf)) (hmore.below f)
  · rw [List.map_append, List.nodup_append]
    refine ⟨h.nodup, hmore.nodup, fun p hp q hq heq => ?_⟩
    obtain ⟨f, hf, rfl⟩ := List.mem_map.1 hp
    obtain ⟨g, hg, rfl⟩ := List.mem_map.1 hq
    obtain ⟨other, hother, hbelow⟩ := hothers g hg
    -- the names of one file go on with one entry of the directory
    have hsame : names ++ [name] = names ++ [other] := by
      refine List.IsPrefix.eq_of_length (List.prefix_of_prefix_length_le (h.below f hf) (heq ▸ hbelow) ?_) ?_
      · simp
      · simp
    have hnames : name = other := List.singleton_inj.1 (List.append_cancel_left hsame)
    exact hname (hnames ▸ hother)

end FileNode

open FileNode

variable {tree : FileNode} (root : Path) (policy : IgnorePolicy)

mutual

private theorem exists_filesBelow (htree : tree.IsWellNamed) (levels : List IgnoreLevel) {names : List String}
    (node : FileNode) (hreach : tree.Reaches names node) :
    ∃ files : List ProjectFile, filesBelow policy levels (root.below names) node = files.map (·.foundFrom root) ∧
      tree.ListsFiles names files := by
  cases node with
  | file content =>
    refine ⟨[⟨names, content⟩], by rw [filesBelow]; rfl, ?_, ?_, List.nodup_cons.2 ⟨List.not_mem_nil, List.nodup_nil⟩⟩
    · intro f hf
      obtain rfl := List.mem_singleton.1 hf
      exact hreach
    · intro f hf
      obtain rfl := List.mem_singleton.1 hf
      exact List.prefix_refl _
  | directory entries =>
    obtain ⟨files, hfound, hlists, -⟩ := exists_filesOfEntries htree
      (IgnoreLevel.ofDirectory policy (Repository.isTop (.directory entries)) (.directory entries) :: levels) entries
      (fun e he => hreach.entry he) (htree.nodup names entries hreach)
    exact ⟨files, by rw [filesBelow]; exact hfound, hlists⟩

private theorem exists_filesOfEntries (htree : tree.IsWellNamed) (levels : List IgnoreLevel) {names : List String}
    (entries : List (String × FileNode)) (hreach : ∀ e ∈ entries, tree.Reaches (names ++ [e.1]) e.2)
    (hnodup : (entries.map Prod.fst).Nodup) :
    ∃ files : List ProjectFile, filesOfEntries policy levels (root.below names) entries =
        files.map (·.foundFrom root) ∧
      tree.ListsFiles names files ∧ ∀ f ∈ files, ∃ name ∈ entries.map Prod.fst, names ++ [name] <+: f.names := by
  cases entries with
  | nil => exact ⟨[], by rw [filesOfEntries]; rfl, listsFiles_nil, fun f hf => absurd hf List.not_mem_nil⟩
  | cons entry rest =>
    obtain ⟨name, node⟩ := entry
    rw [List.map_cons, List.nodup_cons] at hnodup
    obtain ⟨more, hmore, hlistsMore, hothers⟩ := exists_filesOfEntries htree levels rest
      (fun e he => hreach e (List.mem_cons_of_mem _ he)) hnodup.2
    obtain ⟨files, hfiles, hlists⟩ := exists_filesBelow htree (levels.map (IgnoreLevel.down name)) node
      (hreach (name, node) List.mem_cons_self)
    rw [filesOfEntries, hmore, ← Path.below_concat, hfiles]
    split
    · refine ⟨more, rfl, hlistsMore, fun f hf => ?_⟩
      obtain ⟨other, hother, hbelow⟩ := hothers f hf
      exact ⟨other, List.mem_cons_of_mem _ hother, hbelow⟩
    · refine ⟨files ++ more, List.map_append.symm, hlists.append hlistsMore hnodup.1 hothers, fun f hf => ?_⟩
      rcases List.mem_append.1 hf with hf | hf
      · exact ⟨name, List.mem_cons_self, hlists.below f hf⟩
      · obtain ⟨other, hother, hbelow⟩ := hothers f hf
        exact ⟨other, List.mem_cons_of_mem _ hother, hbelow⟩

end

variable {root}

private theorem isAbsolute_of_walk? {s : Standpoint} {respectGitignore : Bool} {found : List FoundFile}
    (h : s.walk? respectGitignore root = some found) : root.isAbsolute = true := by
  unfold Standpoint.walk? at h
  dsimp only at h
  split at h
  · rename_i hresolve
    exact FileNode.isAbsolute_of_resolve? hresolve
  · cases h

/-- A walk finds files of the tree at its root, none of them twice. -/
theorem exists_files_of_walk? {s : Standpoint} {respectGitignore : Bool} {found : List FoundFile}
    (hnamed : ∀ tree ∈ s.files.get? root, tree.IsWellNamed) (h : s.walk? respectGitignore root = some found) :
    ∃ (tree : FileNode) (files : List ProjectFile),
      (∃ name above, s.files.resolve? root = some ((name, tree) :: above)) ∧ tree.IsWellNamed ∧
      tree.ListsFiles [] files ∧ found = files.map (·.foundFrom root) := by
  unfold Standpoint.walk? at h
  dsimp only at h
  split at h
  · rename_i name tree above hresolve
    have htree : tree.IsWellNamed := hnamed tree (by rw [FileNode.get?, hresolve]; rfl)
    obtain ⟨files, hfound, hlists⟩ := exists_filesBelow root (.ofStandpoint s respectGitignore) htree
      (IgnoreLevel.aboveRoot (.ofStandpoint s respectGitignore) name above) tree .root
    exact ⟨tree, files, ⟨name, above, hresolve⟩, htree, hlists, (Option.some.inj h).symm.trans hfound⟩
  · cases h

/-- Each file has a path of its own, and from the root the files are seen in the order of their paths. -/
structure IsApart (root : Path) (found : List FoundFile) : Prop where
  compare_ne_eq : found.Pairwise fun f g => f.path.compare g.path ≠ .eq
  seenInOrder : ∀ f ∈ found, ∀ g ∈ found,
    (f.path.relativeTo root).compare (g.path.relativeTo root) = f.path.compare g.path

theorem IsApart.perm {found found' : List FoundFile} (h : IsApart root found) (hperm : found'.Perm found) :
    IsApart root found' where
  compare_ne_eq := hperm.symm.pairwise h.compare_ne_eq fun hfg hgf => hfg (Std.OrientedCmp.eq_comm.1 hgf)
  seenInOrder := fun f hf g hg => h.seenInOrder f (hperm.mem_iff.1 hf) g (hperm.mem_iff.1 hg)

/-- The files that a walk finds have paths of their own, and from the root they are seen in the order of these. -/
theorem isApart_of_walk? {s : Standpoint} {respectGitignore : Bool} {found : List FoundFile}
    (hnamed : ∀ tree ∈ s.files.get? root, tree.IsWellNamed) (h : s.walk? respectGitignore root = some found) :
    IsApart root found := by
  have hroot := isAbsolute_of_walk? h
  obtain ⟨tree, files, -, htree, hlists, rfl⟩ := exists_files_of_walk? hnamed h
  have hnames : ∀ f ∈ files, ∀ n ∈ f.names, Path.IsFileName n :=
    fun f hf => htree.isFileName _ _ (hlists.reaches f hf)
  constructor
  · rw [List.pairwise_map]
    refine (List.pairwise_map.1 hlists.nodup).imp_of_mem fun {f g} hf hg hne heq => hne ?_
    exact Path.eq_of_compare_below hroot (hnames f hf) (hnames g hg) heq
  · intro f' hf' g' hg'
    obtain ⟨f, hf, rfl⟩ := List.mem_map.1 hf'
    obtain ⟨g, hg, rfl⟩ := List.mem_map.1 hg'
    by_cases hsame : f.names = g.names
    · have hpath : (f.foundFrom root).path = (g.foundFrom root).path := congrArg root.below hsame
      rw [hpath, Path.compare_self, Path.compare_self]
    · -- where the root itself is a file, there is only one
      have hne : ∀ x ∈ files, ∀ y ∈ files, x.names ≠ y.names → x.names ≠ [] := by
        intro x hx y hy hxy hnil
        have hfile := eq_of_reaches_nil (hnil ▸ hlists.reaches x hx)
        have hy := (eq_nil_of_reaches_file (hfile ▸ hlists.reaches y hy)).1
        exact hxy (hnil.trans hy.symm)
      exact Path.compare_relativeTo_below hroot (hne f hf g hg hsame) (hne g hg f hf (Ne.symm hsame)) (hnames f hf)
        (hnames g hg)

/-! ### The order of the files that are analysed -/

namespace Analyzer

variable (a : Analyzer) {found found' : List FoundFile}

theorem perm_selected :
    (a.selected found).Perm (found.filter fun f => a.frontends.any (·.handles f.path) && !a.isExcluded f.path) :=
  List.mergeSort_perm _ _

theorem mem_of_mem_selected {f : FoundFile} (hf : f ∈ a.selected found) : f ∈ found :=
  (List.mem_filter.1 (a.perm_selected.mem_iff.1 hf)).1

/-- The files that are analysed come in the order of their paths. -/
theorem pairwise_selected (h : IsApart root found) :
    (a.selected found).Pairwise fun f g => f.path.compare g.path = .lt := by
  -- sorting gives the order up to equal paths, and no two paths are equal
  have hle : (a.selected found).Pairwise fun f g => (f.path.compare g.path).isLE = true := by
    refine List.pairwise_mergeSort (fun f g k => Std.TransCmp.isLE_trans) (fun f g => ?_) _
    rw [Path.compare_swap g.path]
    cases f.path.compare g.path <;> rfl
  have hne : (a.selected found).Pairwise fun f g => f.path.compare g.path ≠ .eq := by
    exact (perm_selected a).symm.pairwise (h.compare_ne_eq.filter _) fun hfg hgf =>
      hfg (Std.OrientedCmp.eq_comm.1 hgf)
  refine (hle.and hne).imp fun {f g} hfg => ?_
  obtain ⟨hle, hne⟩ := hfg
  cases hcompare : f.path.compare g.path with
  | lt => rfl
  | eq => exact absurd hcompare hne
  | gt => simp [hcompare] at hle

/-- The files that are analysed do not depend on the order in which they are found. -/
theorem selected_eq_of_perm (h : IsApart root found) (hperm : found'.Perm found) :
    a.selected found' = a.selected found := by
  have hselected : (a.selected found').Perm (a.selected found) :=
    (perm_selected a).trans ((hperm.filter _).trans (perm_selected a).symm)
  refine List.Perm.eq_of_pairwise (fun f g _ _ hfg hgf => ?_) (a.pairwise_selected (h.perm hperm))
    (a.pairwise_selected h) hselected
  rw [Path.compare_swap, hgf] at hfg
  cases hfg

end Analyzer

end IndentLint
