import IndentLint.Analysis.Discovery
import IndentLint.Proofs.File.Descent
import IndentLint.Proofs.Ignore.Level

/-!
# The places of a project

A project is a tree of files that may lie in any directory of a machine.  A walk from its root finds files by their
names from the root down.  Which ones it finds is the same at two places, where nothing outside of the project tells
the one from the other (`exists_walk`).
-/

namespace IndentLint

namespace FileNode

/-- Only absolute paths lead to anything. -/
theorem isAbsolute_of_resolve? {files : FileNode} {p : Path} {trail : Trail} (h : files.resolve? p = some trail) :
    p.isAbsolute = true := by
  unfold resolve? at h
  split at h
  · assumption
  · cases h

/-- A node of a tree, by the names from the root down to it. -/
inductive Reaches (tree : FileNode) : List String → FileNode → Prop
  | root : Reaches tree [] tree
  | entry {names : List String} {entries : List (String × FileNode)} {name : String} {node : FileNode} :
    Reaches tree names (.directory entries) → (name, node) ∈ entries → Reaches tree (names ++ [name]) node

/-- A directory in which everything has the name of a file. -/
structure IsProject (tree : FileNode) : Prop where
  isDirectory : tree.isDirectory = true
  isFileName : ∀ names node, tree.Reaches names node → ∀ name ∈ names, Path.IsFileName name

/-- The files of a project have names. -/
theorem IsProject.ne_nil {tree : FileNode} (h : tree.IsProject) {names : List String} {content : ByteArray}
    (hreach : tree.Reaches names (.file content)) : names ≠ [] := by
  rintro rfl
  have hdirectory := h.isDirectory
  generalize hnames : ([] : List String) = names at hreach
  cases hreach with
  | root => cases hdirectory
  | entry _ _ => exact absurd hnames.symm (List.append_ne_nil_of_right_ne_nil _ (List.cons_ne_nil _ _))

end FileNode

/-- A file of a project. -/
structure ProjectFile where
  /-- The names from the root down. -/
  names : List String
  content : ByteArray

/-- The file as a walk from the root finds it. -/
def ProjectFile.foundFrom (root : Path) (f : ProjectFile) : FoundFile :=
  ⟨root.below f.names, f.content⟩

/-- A place at which a project lies; the directories above it say nothing about ignored files. -/
structure Checkout (respectGitignore : Bool) (tree : FileNode) where
  standpoint : Standpoint
  /-- The absolute path of the project. -/
  root : Path
  /-- The name of its directory. -/
  name : String
  /-- The directories above it. -/
  above : Trail
  resolves : standpoint.files.resolve? root = some ((name, tree) :: above)
  silent : ∀ l ∈ IgnoreLevel.aboveRoot (.ofStandpoint standpoint respectGitignore) name above, l.IsSilent

namespace Checkout

variable {respectGitignore : Bool} {tree : FileNode}

/-- How files are ignored by the user at this place. -/
def policy (c : Checkout respectGitignore tree) : IgnorePolicy :=
  .ofStandpoint c.standpoint respectGitignore

@[simp] theorem policy_standpoint (c : Checkout respectGitignore tree) : c.policy.standpoint = c.standpoint := rfl

@[simp] theorem policy_respectGitignore (c : Checkout respectGitignore tree) :
    c.policy.respectGitignore = respectGitignore :=
  rfl

/-- What the directories above the project say. -/
def levels (c : Checkout respectGitignore tree) : List IgnoreLevel :=
  IgnoreLevel.aboveRoot c.policy c.name c.above

/-- Nothing outside of the project tells two places from each other: both are under version control or neither is, and
the user's own rules and those of linked repositories say the same about the entries of the project. -/
structure Alike (c d : Checkout respectGitignore tree) : Prop where
  isTop : c.levels.any (·.isTop) = d.levels.any (·.isTop)
  personal : ∀ names node, tree.Reaches names node → names ≠ [] →
    c.policy.opinion? (c.root.below names) node.isDirectory = d.policy.opinion? (d.root.below names) node.isDirectory
  excludeFile : ∀ names node, tree.Reaches names node →
    Repository.excludeFile? c.standpoint node = Repository.excludeFile? d.standpoint node

theorem isAbsolute (c : Checkout respectGitignore tree) : c.root.isAbsolute = true :=
  FileNode.isAbsolute_of_resolve? c.resolves

private theorem walk?_eq (c : Checkout respectGitignore tree) :
    c.standpoint.walk? respectGitignore c.root = some (filesBelow c.policy c.levels c.root tree) := by
  unfold Standpoint.walk?
  rw [c.resolves]
  rfl

/-- The same files of the project, found from two roots. -/
def SameFiles (tree : FileNode) (root root' : Path) (found found' : List FoundFile) : Prop :=
  ∃ files : List ProjectFile, (∀ f ∈ files, tree.Reaches f.names (.file f.content)) ∧
    found = files.map (·.foundFrom root) ∧ found' = files.map (·.foundFrom root')

namespace SameFiles

variable {root root' : Path} {found found' more more' : List FoundFile}

theorem nil : SameFiles tree root root' [] [] :=
  ⟨[], fun _ hf => absurd hf List.not_mem_nil, rfl, rfl⟩

theorem singleton {names : List String} {content : ByteArray} (h : tree.Reaches names (.file content)) :
    SameFiles tree root root' [⟨root.below names, content⟩] [⟨root'.below names, content⟩] := by
  refine ⟨[⟨names, content⟩], fun f hf => ?_, rfl, rfl⟩
  obtain rfl := List.mem_singleton.1 hf
  exact h

theorem append (h : SameFiles tree root root' found found') (hmore : SameFiles tree root root' more more') :
    SameFiles tree root root' (found ++ more) (found' ++ more') := by
  obtain ⟨files, hfiles, rfl, rfl⟩ := h
  obtain ⟨rest, hrest, rfl, rfl⟩ := hmore
  refine ⟨files ++ rest, fun f hf => ?_, List.map_append.symm, List.map_append.symm⟩
  rcases List.mem_append.1 hf with hf | hf
  · exact hfiles f hf
  · exact hrest f hf

theorem filter {p p' : FoundFile → Bool} (h : SameFiles tree root root' found found')
    (hp : ∀ f : ProjectFile, tree.Reaches f.names (.file f.content) →
      p (f.foundFrom root) = p' (f.foundFrom root')) :
    SameFiles tree root root' (found.filter p) (found'.filter p') := by
  obtain ⟨files, hfiles, rfl, rfl⟩ := h
  refine ⟨files.filter fun f => p (f.foundFrom root), fun f hf => hfiles f (List.mem_filter.1 hf).1, ?_, ?_⟩
  · rw [List.filter_map]
    rfl
  · have hsame : files.filter (fun f => p (f.foundFrom root)) = files.filter fun f => p' (f.foundFrom root') :=
      List.filter_congr fun f hf => hp f (hfiles f hf)
    rw [hsame, List.filter_map]
    rfl

theorem mergeSort {le : FoundFile → FoundFile → Bool} (h : SameFiles tree root root' found found')
    (hle : ∀ f g : ProjectFile, tree.Reaches f.names (.file f.content) → tree.Reaches g.names (.file g.content) →
      le (f.foundFrom root) (g.foundFrom root) = le (f.foundFrom root') (g.foundFrom root')) :
    SameFiles tree root root' (found.mergeSort le) (found'.mergeSort le) := by
  obtain ⟨files, hfiles, rfl, rfl⟩ := h
  have hsort : ∀ r : Path, (∀ f ∈ files, ∀ g ∈ files,
      le (f.foundFrom root) (g.foundFrom root) = le (f.foundFrom r) (g.foundFrom r)) →
      (files.map (·.foundFrom r)).mergeSort le =
        (files.mergeSort fun f g => le (f.foundFrom root) (g.foundFrom root)).map (·.foundFrom r) :=
    fun r hr => (List.map_mergeSort hr).symm
  refine ⟨files.mergeSort fun f g => le (f.foundFrom root) (g.foundFrom root),
    fun f hf => hfiles f (List.mem_mergeSort.1 hf), ?_, ?_⟩
  · exact hsort root fun _ _ _ _ => rfl
  · exact hsort root' fun f hf g hg => hle f g (hfiles f hf) (hfiles g hg)

end SameFiles

variable {c d : Checkout respectGitignore tree}

mutual

private theorem sameFiles_filesBelow (h : c.Alike d) {names : List String} {levels levels' : List IgnoreLevel}
    (hlevels : IgnoreLevel.Alike levels levels') (node : FileNode) (hreach : tree.Reaches names node) :
    SameFiles tree c.root d.root (filesBelow c.policy levels (c.root.below names) node)
      (filesBelow d.policy levels' (d.root.below names) node) := by
  cases node with
  | file content =>
    rw [filesBelow, filesBelow]
    exact .singleton hreach
  | directory entries =>
    rw [filesBelow, filesBelow]
    have hlevel : IgnoreLevel.ofDirectory c.policy (Repository.isTop (.directory entries)) (.directory entries) =
        IgnoreLevel.ofDirectory d.policy (Repository.isTop (.directory entries)) (.directory entries) := by
      refine IgnoreLevel.ofDirectory_congr _ ?_ ?_
      · rw [policy_respectGitignore, policy_respectGitignore]
      · rw [policy_standpoint, policy_standpoint]
        exact h.excludeFile names _ hreach
    rw [hlevel]
    exact sameFiles_filesOfEntries h (.cons _ hlevels) entries fun name node hmem => hreach.entry hmem

private theorem sameFiles_filesOfEntries (h : c.Alike d) {names : List String} {levels levels' : List IgnoreLevel}
    (hlevels : IgnoreLevel.Alike levels levels') (entries : List (String × FileNode))
    (hreach : ∀ name node, (name, node) ∈ entries → tree.Reaches (names ++ [name]) node) :
    SameFiles tree c.root d.root (filesOfEntries c.policy levels (c.root.below names) entries)
      (filesOfEntries d.policy levels' (d.root.below names) entries) := by
  cases entries with
  | nil =>
    rw [filesOfEntries, filesOfEntries]
    exact .nil
  | cons entry rest =>
    obtain ⟨name, node⟩ := entry
    have hnode := hreach name node List.mem_cons_self
    have hignored : IgnoreLevel.isIgnored c.policy levels (c.root.below names) name node.isDirectory =
        IgnoreLevel.isIgnored d.policy levels' (d.root.below names) name node.isDirectory := by
      refine IgnoreLevel.isIgnored_congr hlevels ?_
      rw [← Path.below_concat, ← Path.below_concat]
      exact h.personal _ node hnode (List.append_ne_nil_of_right_ne_nil _ (List.cons_ne_nil _ _))
    -- the entry is ignored at both places or at neither, and so are those after it
    have hrest := sameFiles_filesOfEntries h hlevels rest fun n k hk => hreach n k (List.mem_cons_of_mem _ hk)
    rw [filesOfEntries, filesOfEntries, hignored]
    refine .append ?_ hrest
    split
    · exact .nil
    · rw [← Path.below_concat, ← Path.below_concat]
      exact sameFiles_filesBelow h (hlevels.down name) node hnode

end

/-- At two places that are alike the walk finds the same files of the project. -/
theorem exists_walk (h : c.Alike d) : ∃ found found',
    c.standpoint.walk? respectGitignore c.root = some found ∧
      d.standpoint.walk? respectGitignore d.root = some found' ∧ SameFiles tree c.root d.root found found' := by
  have hlevels : IgnoreLevel.Alike c.levels d.levels := .silent c.silent d.silent h.isTop
  exact ⟨_, _, c.walk?_eq, d.walk?_eq, sameFiles_filesBelow h hlevels tree .root⟩

end Checkout

end IndentLint
