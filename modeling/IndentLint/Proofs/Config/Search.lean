import IndentLint.Config.Search
import IndentLint.Proofs.File.Steps

/-!
# Which configuration belongs to a target

The configuration of a project is looked for at all places that the absolute path of the target comes by, the last one
first.  Each directory above the target is such a place, but after a step `..` there are others.  So what is found is
the nearest configuration at or above the target, as long as the last place with a configuration is at or above it
(`ConfigSource.find_isNearest_iff`).

The induction is on the steps of the path: the configuration that is found last is the nearest one, or it is not in a
directory at or above the place that has been reached (`Trail.Agrees`).
-/

namespace IndentLint

namespace Trail

/-- The way to the file of some name in the directory that a trail leads to. -/
def file? (name : String) : Trail → Option Trail
  | [] => none
  | (n, node) :: above =>
    match node.entries.lookup name with
    | some (.file content) => some ((name, .file content) :: (n, node) :: above)
    | _ => none

/-- The way to the configuration file of the directory that a trail leads to. -/
def configuration? (trail : Trail) : Option Trail :=
  ConfigSource.projectNames.findSome? fun name => trail.file? name.text

/-- The way to the configuration file of the directory that a trail leads to, or else of the nearest one above it that
has one.  A file has no entries, so for a file the search begins in its directory. -/
def nearest? (trail : Trail) : Option Trail :=
  trail.tails.findSome? configuration?

private theorem file?_tail {name : String} {trail c : Trail} (h : trail.file? name = some c) : c.tail = trail := by
  unfold file? at h
  split at h
  · cases h
  · split at h
    · rw [← Option.some.inj h]
      rfl
    · cases h

private theorem configuration?_tail {trail c : Trail} (h : trail.configuration? = some c) : c.tail = trail := by
  obtain ⟨name, -, hname⟩ := List.exists_of_findSome?_eq_some h
  exact file?_tail hname

private theorem nearest?_eq (trail : Trail) : trail.nearest? = trail.configuration?.or (nearest? trail.tail) := by
  cases trail with
  | nil => rfl
  | cons entry trail =>
    rw [nearest?, List.tails, List.findSome?_cons]
    cases configuration? (entry :: trail) <;> rfl

private theorem suffix_of_nearest? {trail c : Trail} (h : trail.nearest? = some c) : c.tail <:+ trail := by
  obtain ⟨t, ht, hc⟩ := List.exists_of_findSome?_eq_some h
  rw [configuration?_tail hc]
  exact (List.mem_tails _ _).1 ht

/-- A configuration that was found is the nearest one at or above a place, or it is not at or above the place. -/
def Agrees (trail : Trail) (found : Option Trail) : Prop :=
  trail.nearest? = found ∨ ∃ c, found = some c ∧ ¬c.tail <:+ trail

/-- A step to a place without a configuration keeps this, if what was found before it was the configuration of the place
before where that had one. -/
theorem Agrees.follow {before trail : Trail} {found : Option Trail} {name : List Char} (h : before.Agrees found)
    (hfollow : FileNode.follow before name = some trail)
    (hbefore : ∀ c, before.configuration? = some c → found = some c)
    (hfound : ∀ c, found = some c → configuration? c.tail = some c) :
    trail.Agrees (trail.configuration?.or found) := by
  unfold Agrees at h ⊢
  cases hhere : trail.configuration? with
  | some c =>
    left
    rw [nearest?_eq, hhere]
    rfl
  | none =>
    rw [Option.none_or]
    rcases FileNode.follow_cases hfollow with ⟨entry, rfl⟩ | rfl | ⟨-, entry, rfl⟩
    · -- one directory down, where only the place itself is new
      rw [nearest?_eq, hhere, Option.none_or]
      rcases h with heq | ⟨c, hc, hnot⟩
      · exact Or.inl heq
      · refine Or.inr ⟨c, hc, fun hsuffix => ?_⟩
        rcases List.suffix_cons_iff.1 hsuffix with htail | hsuffix
        · have hown := hfound c hc
          rw [htail, hhere] at hown
          cases hown
        · exact hnot hsuffix
    · exact h
    · -- one directory up, from where the place before is not seen
      cases hbelow : configuration? (entry :: trail) with
      | some c =>
        refine Or.inr ⟨c, hbefore c hbelow, fun hsuffix => ?_⟩
        have hlength := hsuffix.length_le
        rw [configuration?_tail hbelow, List.length_cons] at hlength
        omega
      | none =>
        rcases h with heq | ⟨c, hc, hnot⟩
        · rw [nearest?_eq, hbelow, Option.none_or] at heq
          exact Or.inl heq
        · exact Or.inr ⟨c, hc, fun hsuffix => hnot (hsuffix.trans (List.suffix_cons _ _))⟩

end Trail

namespace FileNode

variable {root : FileNode} {steps : List (List Char)} {trail : Trail}

/-- The places that a walk along some steps comes by, the last one first. -/
def stations (root : FileNode) (steps : List (List Char)) : List Trail :=
  steps.inits.reverse.filterMap root.walk?

/-- The way to the configuration file of the last of these places that has one. -/
def last? (root : FileNode) (steps : List (List Char)) : Option Trail :=
  (root.stations steps).findSome? Trail.configuration?

private theorem stations_nil (root : FileNode) : root.stations [] = [[("", root)]] := rfl

private theorem stations_concat {name : List Char} (h : root.walk? (steps ++ [name]) = some trail) :
    root.stations (steps ++ [name]) = trail :: root.stations steps := by
  unfold stations
  simp [h]

private theorem last?_concat {name : List Char} (h : root.walk? (steps ++ [name]) = some trail) :
    root.last? (steps ++ [name]) = trail.configuration?.or (root.last? steps) := by
  rw [last?, stations_concat h, List.findSome?_cons]
  cases trail.configuration? <;> rfl

/-- A walk ends at the last place that it comes by. -/
private theorem last?_of_configuration? {c : Trail} (h : root.walk? steps = some trail)
    (hc : trail.configuration? = some c) : root.last? steps = some c := by
  rcases List.eq_nil_or_concat steps with rfl | ⟨front, name, rfl⟩
  · obtain rfl : [("", root)] = trail := Option.some.inj h
    rw [last?, stations_nil, List.findSome?_cons, hc]
  · rw [List.concat_eq_append] at h ⊢
    rw [last?_concat h, hc, Option.some_or]

private theorem configuration?_of_last? {c : Trail} (h : root.last? steps = some c) :
    Trail.configuration? c.tail = some c := by
  obtain ⟨t, -, hc⟩ := List.exists_of_findSome?_eq_some h
  rwa [Trail.configuration?_tail hc]

/-- The last configuration on the way to a place is the nearest one, or it is not at or above the place. -/
theorem agrees_last? (h : root.walk? steps = some trail) : trail.Agrees (root.last? steps) := by
  induction steps using List.reverseRecOn generalizing trail with
  | nil =>
    obtain rfl : [("", root)] = trail := Option.some.inj h
    exact Or.inl rfl
  | append_singleton steps name ih =>
    rw [last?_concat h]
    rw [walk?_concat] at h
    obtain ⟨before, hbefore, hfollow⟩ := Option.bind_eq_some_iff.1 h
    exact (ih hbefore).follow hfollow (fun _ => last?_of_configuration? hbefore) fun _ => configuration?_of_last?

/-- Without `..` a walk comes by no other places than those at or above its end. -/
private theorem suffix_of_mem_stations {t : Trail} (h : root.walk? steps = some trail) (hup : ['.', '.'] ∉ steps)
    (ht : t ∈ root.stations steps) : t <:+ trail := by
  induction steps using List.reverseRecOn generalizing trail with
  | nil =>
    obtain rfl : [("", root)] = trail := Option.some.inj h
    obtain rfl := List.mem_singleton.1 ht
    exact List.suffix_refl _
  | append_singleton steps name ih =>
    rw [stations_concat h] at ht
    rw [List.mem_append, not_or, List.mem_singleton] at hup
    rw [walk?_concat] at h
    obtain ⟨before, hbefore, hfollow⟩ := Option.bind_eq_some_iff.1 h
    rcases List.mem_cons.1 ht with rfl | ht
    · exact List.suffix_refl _
    · have hsuffix := ih hbefore hup.1 ht
      rcases follow_cases hfollow with ⟨entry, rfl⟩ | rfl | ⟨hname, -⟩
      · exact hsuffix.trans (List.suffix_cons _ _)
      · exact hsuffix
      · exact absurd hname.symm hup.2

end FileNode

namespace ConfigSource

open IndentLint.Path

variable {files : FileNode} {p : Path}

private theorem map_findSome?_congr {α β γ δ : Type} {f : α → Option β} {g : γ → Option δ} {r : β → Option δ}
    {h : α → γ} {l : List α} (heq : ∀ x ∈ l, (f x).map r = (g (h x)).map some) :
    (l.findSome? f).map r = ((l.map h).findSome? g).map some := by
  rw [List.findSome?_map, List.map_findSome?, List.map_findSome?]
  induction l with
  | nil => rfl
  | cons x l ih =>
    have hx : (Option.map r ∘ f) x = (Option.map some ∘ g ∘ h) x := heq x List.mem_cons_self
    rw [List.findSome?_cons, List.findSome?_cons, hx, ih fun y hy => heq y (List.mem_cons_of_mem _ hy)]

private theorem resolve?_file (files : FileNode) {name : String} (hp : p.isAbsolute = true) (hname : IsFileName name) :
    (if files.isFileAt (p.join ⟨name⟩) then files.resolve? (p.join ⟨name⟩) else none) =
      (files.walk? p.steps).bind (Trail.file? name) := by
  rw [FileNode.isFileAt, FileNode.get?, FileNode.resolve?_join hp hname]
  rcases files.walk? p.steps with _ | _ | ⟨⟨n, content | entries⟩, above⟩
  · rfl
  · rfl
  · rfl
  · rw [Option.bind_some, Option.bind_some, FileNode.follow_name hname, Trail.file?]
    dsimp only [FileNode.entries]
    rcases entries.lookup name with _ | (content | _) <;> rfl

private theorem exists_resolve?_of_isFileAt (h : files.isFileAt p = true) :
    ∃ c, files.resolve? p = some c ∧ c.head?.any (fun entry => !entry.2.isDirectory) = true := by
  unfold FileNode.isFileAt FileNode.get? at h
  cases hc : files.resolve? p with
  | none =>
    rw [hc] at h
    cases h
  | some c =>
    rw [hc, Option.bind_some, Option.any_map] at h
    exact ⟨c, rfl, h⟩

private theorem map_find?_file {names : List Path} (hp : p.isAbsolute = true)
    (h : ∀ name ∈ names, IsFileName name.text) :
    ((names.map p.join).find? files.isFileAt).map files.resolve? =
      ((files.walk? p.steps).bind fun t => names.findSome? fun name => t.file? name.text).map some := by
  induction names with
  | nil => cases files.walk? p.steps <;> rfl
  | cons name names ih =>
    have hfile := resolve?_file files hp (h name List.mem_cons_self)
    have hrest := ih fun n hn => h n (List.mem_cons_of_mem _ hn)
    rw [List.map_cons, List.find?_cons]
    cases hat : files.isFileAt (p.join name) with
    | true =>
      rw [hat, if_pos rfl] at hfile
      obtain ⟨c, hc, -⟩ := exists_resolve?_of_isFileAt hat
      rw [hc] at hfile
      obtain ⟨t, ht, hc'⟩ := Option.bind_eq_some_iff.1 hfile.symm
      rw [ht, Option.bind_some, List.findSome?_cons, hc']
      exact congrArg some hc
    | false =>
      rw [hat, if_neg Bool.false_ne_true] at hfile
      dsimp only
      rw [hrest]
      cases hwalk : files.walk? p.steps with
      | none => rfl
      | some t =>
        rw [hwalk, Option.bind_some] at hfile
        rw [Option.bind_some, Option.bind_some, List.findSome?_cons, ← hfile]

/-- What is found in a directory is found along the steps of its path. -/
private theorem map_inDirectory? (files : FileNode) (hp : p.isAbsolute = true) :
    (inDirectory? files p).map files.resolve? = ((files.walk? p.steps).bind Trail.configuration?).map some :=
  map_find?_file hp (by decide)

private theorem inDirectory?_of_isFileAt (hp : p.isAbsolute = true) (h : files.isFileAt p = true) :
    inDirectory? files p = none := by
  obtain ⟨c, hc, hfile⟩ := exists_resolve?_of_isFileAt h
  have hnone : c.configuration? = none := by
    rcases c with _ | ⟨⟨n, content | entries⟩, above⟩
    · rfl
    · rfl
    · cases hfile
  have hmap := map_inDirectory? files hp
  rw [FileNode.walk?_of_resolve? hc, Option.bind_some, hnone] at hmap
  exact Option.map_eq_none_iff.1 hmap

/-- The search may as well begin at a file as above it. -/
private theorem ofProject?_eq (hp : p.isAbsolute = true) :
    ofProject? files p = p.ancestors.findSome? (inDirectory? files) := by
  unfold ofProject?
  cases hfile : files.isFileAt p with
  | false => rfl
  | true =>
    rw [ancestors_eq hp, List.findSome?_cons, inDirectory?_of_isFileAt hp hfile]
    cases p.parent? <;> rfl

/-- What is found for a target is the last configuration on the way along its path. -/
theorem map_ofProject? (files : FileNode) (hp : p.isAbsolute = true) :
    (ofProject? files p).map files.resolve? = (files.last? p.steps).map some := by
  obtain ⟨habsolute, hsteps⟩ := steps_ancestors hp
  have hlast : files.last? p.steps =
      (p.ancestors.map Path.steps).findSome? fun s => (files.walk? s).bind Trail.configuration? := by
    rw [hsteps, FileNode.last?, FileNode.stations, ← List.head?_filterMap, List.filterMap_filterMap,
      List.head?_filterMap]
  rw [ofProject?_eq hp, hlast]
  exact map_findSome?_congr fun q hq => map_inDirectory? files (habsolute q hq)

/-! ### The source for a target -/

/-- A source is the nearest configuration of a project at or above a place, or where there is none that of the user or
the standard one. -/
def IsNearest (files : FileNode) (trail : Trail) (source : ConfigSource) : Prop :=
  match trail.nearest? with
  | some c => ∃ path, source = .project path ∧ files.resolve? path = some c
  | none => source = .standard ∨ ∃ path, source = .personal path

variable {workingDirectory target : Path} {directory : Option Path} {trail : Trail}

/-- The source is the last configuration on the way along the path of the target, if there is one. -/
private theorem find_cases (files : FileNode) (target : Path) (directory : Option Path)
    (hwd : workingDirectory.isAbsolute = true) :
    (∃ c path, files.last? (workingDirectory.join target).steps = some c ∧
      find files workingDirectory target none directory = .project path ∧ files.resolve? path = some c) ∨
    (files.last? (workingDirectory.join target).steps = none ∧
      (find files workingDirectory target none directory = .standard ∨
        ∃ path, find files workingDirectory target none directory = .personal path)) := by
  obtain ⟨habsolute, hsteps⟩ := steps_absolute hwd target
  have hmap := map_ofProject? files habsolute
  rw [hsteps] at hmap
  unfold find
  dsimp only
  cases hproject : ofProject? files (target.absolute workingDirectory) with
  | some path =>
    rw [hproject] at hmap
    obtain ⟨c, hc, hpath⟩ := Option.map_eq_some_iff.1 hmap.symm
    exact Or.inl ⟨c, path, hc, rfl, hpath.symm⟩
  | none =>
    rw [hproject] at hmap
    refine Or.inr ⟨Option.map_eq_none_iff.1 hmap.symm, ?_⟩
    cases ofUser? files workingDirectory directory with
    | some path => exact Or.inr ⟨path, rfl⟩
    | none => exact Or.inl rfl

private theorem suffix_of_isNearest {c : Trail} (hwd : workingDirectory.isAbsolute = true)
    (h : IsNearest files trail (find files workingDirectory target none directory))
    (hc : files.last? (workingDirectory.join target).steps = some c) : c.tail <:+ trail := by
  rcases find_cases files target directory hwd with ⟨d, path, hd, hfind, hpath⟩ | ⟨hnone, -⟩
  · obtain rfl := Option.some.inj (hd.symm.trans hc)
    rw [hfind, IsNearest] at h
    cases hnearest : trail.nearest? with
    | none =>
      rw [hnearest] at h
      rcases h with hstandard | ⟨q, hpersonal⟩
      · cases hstandard
      · cases hpersonal
    | some e =>
      rw [hnearest] at h
      obtain ⟨q, hq, he⟩ := h
      obtain rfl := ConfigSource.project.inj hq
      obtain rfl := Option.some.inj (hpath.symm.trans he)
      exact Trail.suffix_of_nearest? hnearest
  · rw [hnone] at hc
    cases hc

private theorem isNearest_of_suffix (hwd : workingDirectory.isAbsolute = true)
    (hexists : files.resolve? (workingDirectory.join target) = some trail)
    (h : ∀ c, files.last? (workingDirectory.join target).steps = some c → c.tail <:+ trail) :
    IsNearest files trail (find files workingDirectory target none directory) := by
  have hlast : trail.nearest? = files.last? (workingDirectory.join target).steps := by
    rcases FileNode.agrees_last? (FileNode.walk?_of_resolve? hexists) with heq | ⟨c, hc, hnot⟩
    · exact heq
    · exact absurd (h c hc) hnot
  unfold IsNearest
  rcases find_cases files target directory hwd with ⟨c, path, hc, hfind, hpath⟩ | ⟨hnone, hfind⟩
  · rw [hlast, hc]
    exact ⟨path, hfind, hpath⟩
  · rw [hlast, hnone]
    exact hfind

/-- Where no configuration is named, the nearest one at or above an existing target is found exactly if the last place
with a configuration on the way along the path of the target is at or above the target, so always without `..`. -/
theorem find_isNearest_iff (hwd : workingDirectory.isAbsolute = true)
    (hexists : files.resolve? (workingDirectory.join target) = some trail) :
    (IsNearest files trail (find files workingDirectory target none directory) ↔
      ∀ c, files.last? (workingDirectory.join target).steps = some c → c.tail <:+ trail) ∧
    (['.', '.'] ∉ (workingDirectory.join target).steps →
      IsNearest files trail (find files workingDirectory target none directory)) := by
  refine ⟨⟨fun h c hc => suffix_of_isNearest hwd h hc, isNearest_of_suffix hwd hexists⟩, fun hup => ?_⟩
  refine isNearest_of_suffix hwd hexists fun c hc => ?_
  obtain ⟨t, ht, hconfiguration⟩ := List.exists_of_findSome?_eq_some hc
  rw [Trail.configuration?_tail hconfiguration]
  exact FileNode.suffix_of_mem_stations (FileNode.walk?_of_resolve? hexists) hup ht

/-- A directory with a configuration and one with a source. -/
def sampleDirectory : FileNode :=
  .directory [("ktindent.toml", .file .empty), ("src", .directory [("a.kt", .file .empty)])]

/-- A machine on which this directory is `/w/app`. -/
def sampleFiles : FileNode :=
  .directory [("w", .directory [("app", sampleDirectory)])]

/-- The way to `/w/app`. -/
def sampleTrail : Trail :=
  [("app", sampleDirectory), ("w", .directory [("app", sampleDirectory)]), ("", sampleFiles)]

/-- For `app/src/..` the configuration in `app` is found. -/
theorem find_from_src_up :
    sampleFiles.resolve? (Path.join ⟨"/w"⟩ ⟨"app/src/.."⟩) = some sampleTrail ∧
      find sampleFiles ⟨"/w"⟩ ⟨"app/src/.."⟩ none none = .project ⟨"/w/app/src/../ktindent.toml"⟩ ∧
      IsNearest sampleFiles sampleTrail (find sampleFiles ⟨"/w"⟩ ⟨"app/src/.."⟩ none none) := by
  have hexists : sampleFiles.resolve? (Path.join ⟨"/w"⟩ ⟨"app/src/.."⟩) = some sampleTrail := rfl
  have hlast : sampleFiles.last? (Path.join ⟨"/w"⟩ ⟨"app/src/.."⟩).steps =
      some (("ktindent.toml", .file .empty) :: sampleTrail) := rfl
  refine ⟨hexists, by decide +kernel, (find_isNearest_iff rfl hexists).1.2 fun c hc => ?_⟩
  rw [hlast] at hc
  rw [← Option.some.inj hc]
  exact List.suffix_refl _

/-- For `app/..`, where there is no configuration and none above, that in `app` is found. -/
theorem find_from_app_up :
    sampleFiles.resolve? (Path.join ⟨"/w"⟩ ⟨"app/.."⟩) = some sampleTrail.tail ∧
      Trail.nearest? sampleTrail.tail = none ∧
      find sampleFiles ⟨"/w"⟩ ⟨"app/.."⟩ none none = .project ⟨"/w/app/ktindent.toml"⟩ ∧
      ¬IsNearest sampleFiles sampleTrail.tail (find sampleFiles ⟨"/w"⟩ ⟨"app/.."⟩ none none) := by
  have hfind : find sampleFiles ⟨"/w"⟩ ⟨"app/.."⟩ none none = .project ⟨"/w/app/ktindent.toml"⟩ := by decide +kernel
  have hnone : Trail.nearest? sampleTrail.tail = none := rfl
  refine ⟨rfl, hnone, hfind, fun hnearest => ?_⟩
  rw [hfind, IsNearest, hnone] at hnearest
  rcases hnearest with hstandard | ⟨q, hpersonal⟩
  · cases hstandard
  · cases hpersonal

end ConfigSource

end IndentLint
