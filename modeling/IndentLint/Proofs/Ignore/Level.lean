import IndentLint.Ignore.Level

/-!
# Directories that say nothing

Above the root of a project there may be directories without a word about ignored files.  All that they can do is to be
under version control; whatever else they are makes no difference to what is ignored below them (`isIgnored_congr`).
-/

namespace IndentLint

@[simp] theorem IgnoreRule.verdict?_nil (path : List Char) (isDirectory : Bool) :
    verdict? [] path isDirectory = none :=
  rfl

/-- What the user's own rules say about an entry at a path. -/
def IgnorePolicy.opinion? (policy : IgnorePolicy) (path : Path) (isDirectory : Bool) : Option Bool :=
  IgnoreRule.verdict? policy.personal (policy.standpoint.shorten path).text.toList isDirectory

namespace IgnoreLevel

/-- A directory says nothing about ignored files. -/
structure IsSilent (l : IgnoreLevel) : Prop where
  own : l.own = []
  versionControl : l.versionControl = []
  excluded : l.excluded = []

/-- The same levels below silent ones, these being under version control in both rows or in none. -/
inductive Alike : List IgnoreLevel → List IgnoreLevel → Prop
  | silent {outer outer' : List IgnoreLevel} : (∀ l ∈ outer, l.IsSilent) → (∀ l ∈ outer', l.IsSilent) →
    outer.any (·.isTop) = outer'.any (·.isTop) → Alike outer outer'
  | cons {levels levels' : List IgnoreLevel} (l : IgnoreLevel) : Alike levels levels' →
    Alike (l :: levels) (l :: levels')

private theorem underVersionControl_cons (l : IgnoreLevel) (levels : List IgnoreLevel) :
    underVersionControl (l :: levels) =
      if l.isTop then [l] else if levels.any (·.isTop) then l :: underVersionControl levels else [] := by
  unfold underVersionControl
  rw [List.any_cons, List.takeWhile_cons, List.dropWhile_cons]
  cases l.isTop with
  | true => rfl
  | false =>
    cases levels.any (·.isTop) with
    | true => rfl
    | false => rfl

private theorem mem_of_mem_underVersionControl {l : IgnoreLevel} {levels : List IgnoreLevel}
    (h : l ∈ underVersionControl levels) : l ∈ levels := by
  unfold underVersionControl at h
  split at h
  · rcases List.mem_append.1 h with h | h
    · exact (List.takeWhile_prefix _).mem h
    · exact (List.dropWhile_suffix _).mem (List.mem_of_mem_take h)
  · cases h

namespace Alike

variable {levels levels' : List IgnoreLevel}

private theorem any_isTop (h : Alike levels levels') : levels.any (·.isTop) = levels'.any (·.isTop) := by
  induction h with
  | silent _ _ htop => exact htop
  | cons l _ ih => rw [List.any_cons, List.any_cons, ih]

theorem down (h : Alike levels levels') (name : String) :
    Alike (levels.map (IgnoreLevel.down name)) (levels'.map (IgnoreLevel.down name)) := by
  induction h with
  | @silent outer outer' hs hs' htop =>
    have hdown : ∀ row : List IgnoreLevel, (∀ l ∈ row, l.IsSilent) →
        ∀ l ∈ row.map (IgnoreLevel.down name), l.IsSilent := by
      intro row hrow l hl
      obtain ⟨k, hk, rfl⟩ := List.mem_map.1 hl
      exact ⟨(hrow k hk).own, (hrow k hk).versionControl, (hrow k hk).excluded⟩
    refine .silent (hdown outer hs) (hdown outer' hs') ?_
    rw [List.any_map, List.any_map]
    exact htop
  | cons l _ ih => exact .cons _ ih

variable {β : Type} {f : IgnoreLevel → Option β}

private theorem findSome?_eq_none (hf : ∀ l, l.IsSilent → f l = none) {row : List IgnoreLevel}
    (h : ∀ l ∈ row, l.IsSilent) : row.findSome? f = none :=
  List.findSome?_eq_none_iff.2 fun l hl => hf l (h l hl)

/-- A search that finds nothing in silent levels finds the same in both rows. -/
private theorem findSome?_eq (h : Alike levels levels') (hf : ∀ l, l.IsSilent → f l = none) :
    levels.findSome? f = levels'.findSome? f := by
  induction h with
  | silent hs hs' _ => rw [findSome?_eq_none hf hs, findSome?_eq_none hf hs']
  | cons l _ ih => rw [List.findSome?_cons, List.findSome?_cons, ih]

private theorem findSome?_underVersionControl (h : Alike levels levels') (hf : ∀ l, l.IsSilent → f l = none) :
    (underVersionControl levels).findSome? f = (underVersionControl levels').findSome? f := by
  induction h with
  | silent hs hs' _ =>
    rw [findSome?_eq_none hf fun l hl => hs l (mem_of_mem_underVersionControl hl),
      findSome?_eq_none hf fun l hl => hs' l (mem_of_mem_underVersionControl hl)]
  | cons l hrest ih =>
    -- a top ends the search; otherwise it goes on just where there is a top further up, which both rows agree on
    rw [underVersionControl_cons, underVersionControl_cons, hrest.any_isTop]
    by_cases htop : l.isTop = true
    · rw [if_pos htop, if_pos htop]
    · rw [if_neg htop, if_neg htop]
      split
      · rw [List.findSome?_cons, List.findSome?_cons, ih]
      · rfl

end Alike

/-- What is ignored depends on the levels that say something, on whether there is version control, and on the user's
own rules. -/
theorem isIgnored_congr {policy policy' : IgnorePolicy} {levels levels' : List IgnoreLevel} {path path' : Path}
    {name : String} {isDirectory : Bool} (h : Alike levels levels')
    (hpersonal : policy.opinion? (path.join ⟨name⟩) isDirectory =
      policy'.opinion? (path'.join ⟨name⟩) isDirectory) :
    isIgnored policy levels path name isDirectory = isIgnored policy' levels' path' name isDirectory := by
  have hown := h.findSome?_eq (f := fun l => l.verdict? l.own name isDirectory)
    fun l hl => by simp [verdict?, hl.own]
  have hversion := h.findSome?_underVersionControl (f := fun l => l.verdict? l.versionControl name isDirectory)
    fun l hl => by simp [verdict?, hl.versionControl]
  have hexcluded := h.findSome?_underVersionControl (f := fun l => l.verdict? l.excluded name isDirectory)
    fun l hl => by simp [verdict?, hl.excluded]
  unfold IgnorePolicy.opinion? at hpersonal
  unfold isIgnored personalVerdict?
  dsimp only
  rw [hown, hversion, hexcluded, h.any_isTop, hpersonal]

/-- What a directory says is the same for two users who read the same rules in its repository. -/
theorem ofDirectory_congr {policy policy' : IgnorePolicy} {directory : FileNode} (isTop : Bool)
    (hrespect : policy.respectGitignore = policy'.respectGitignore)
    (hexclude : Repository.excludeFile? policy.standpoint directory =
      Repository.excludeFile? policy'.standpoint directory) :
    ofDirectory policy isTop directory = ofDirectory policy' isTop directory := by
  unfold ofDirectory
  rw [hrespect, hexclude]

end IgnoreLevel

end IndentLint
