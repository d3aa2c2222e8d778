import IndentLint.File.Ancestors
import IndentLint.File.Tree
import IndentLint.Proofs.File.Descent
import Mathlib.Data.List.DropRight
import Mathlib.Data.List.Infix

/-!
# The steps of a path

The steps of an absolute path are its segments without those that mean nothing; `..` is one of them.  Joining paths puts
their steps in a row, and making a path absolute keeps the steps it has in its base (`steps_absolute`).  The paths above
a path have the beginnings of its steps (`steps_ancestors`), and what is at a path is found along its steps
(`FileNode.walk?`).
-/

namespace IndentLint

namespace Text

variable {α : Type} [DecidableEq α] {sep : α}

theorem notMem_of_mem_pieces {cs piece : List α} (h : piece ∈ pieces sep cs) : sep ∉ piece := by
  induction cs generalizing piece with
  | nil =>
    rw [List.mem_singleton.1 h]
    exact List.not_mem_nil
  | cons c cs ih =>
    unfold pieces at h
    split at h
    · rcases List.mem_cons.1 h with rfl | h
      · exact List.not_mem_nil
      · exact ih h
    · rename_i hc
      obtain ⟨first, rest, hcons⟩ := List.exists_cons_of_ne_nil (pieces_ne_nil sep cs)
      rw [hcons] at h ih
      rcases List.mem_cons.1 h with rfl | h
      · exact fun h => (List.mem_cons.1 h).elim (Ne.symm hc) (ih List.mem_cons_self)
      · exact ih (List.mem_cons_of_mem _ h)

end Text

namespace Path

/-- The segments of a path that mean something, `..` among them. -/
def steps (p : Path) : List (List Char) :=
  (Text.pieces '/' p.text.toList).filter (!isSilent ·)

variable {p q base : Path}

theorem steps_eq (p : Path) : p.steps = p.segments.body.filter (!isSilent ·) := by
  unfold steps segments
  split
  · rename_i h
    rw [h]
    rfl
  · rename_i h
    rw [h]
    rfl
  · rfl

/-- The steps of a path are the segments that have components. -/
theorem filterMap_segments (p : Path) :
    p.segments.body.filterMap Component.ofSegment? = p.steps.filterMap Component.ofSegment? := by
  rw [steps_eq, List.filterMap_filter]
  refine List.filterMap_congr fun s _ => ?_
  unfold isSilent
  cases Component.ofSegment? s <;> rfl

theorem isAbsolute_iff : p.isAbsolute = true ↔ ∃ cs, p.text.toList = '/' :: cs := by
  constructor
  · intro h
    obtain ⟨body, hbody, hpieces⟩ := exists_pieces_of_isAbsolute h
    cases hcs : p.text.toList with
    | nil =>
      rw [hcs] at hpieces
      exact absurd (List.cons.inj hpieces).2.symm hbody
    | cons c cs =>
      rw [hcs] at hpieces
      by_cases hc : c = '/'
      · exact ⟨cs, by rw [hc]⟩
      · rw [Text.pieces, if_neg hc] at hpieces
        obtain ⟨piece, rest, hcons⟩ := List.exists_cons_of_ne_nil (Text.pieces_ne_nil '/' cs)
        rw [hcons] at hpieces
        cases (List.cons.inj hpieces).1
  · rintro ⟨cs, hcs⟩
    have hpieces : Text.pieces '/' p.text.toList = [] :: Text.pieces '/' cs := by
      rw [hcs, Text.pieces, if_pos rfl]
    unfold isAbsolute
    rw [segments_of_pieces (Text.pieces_ne_nil '/' cs) hpieces]
    rfl

private theorem steps_of_toList {front back : List Char} (h : p.text.toList = front ++ '/' :: back) :
    p.steps = (Text.pieces '/' front).filter (!isSilent ·) ++ (Text.pieces '/' back).filter (!isSilent ·) := by
  rw [steps, h, Text.pieces_append_sep, List.filter_append]

theorem isAbsolute_join (h : p.isAbsolute = true) (q : Path) : (p.join q).isAbsolute = true := by
  cases hq : q.isAbsolute with
  | true => rwa [join, if_pos hq]
  | false =>
    obtain ⟨cs, hcs⟩ := isAbsolute_iff.1 h
    have hlead : ∃ more, p.lead = '/' :: more := by
      unfold lead
      split
      · exact ⟨cs, hcs⟩
      · exact ⟨cs ++ ['/'], by rw [hcs]; rfl⟩
    obtain ⟨more, hmore⟩ := hlead
    rw [isAbsolute_iff, toList_join_of_relative hq, hmore]
    exact ⟨_, rfl⟩

/-- The text of an absolute path and that in front of a name in it hold the same steps. -/
private theorem exists_lead_steps (h : p.isAbsolute = true) :
    ∃ front, p.lead = front ++ ['/'] ∧ p.steps = (Text.pieces '/' front).filter (!isSilent ·) := by
  obtain ⟨front, hlead, hfront | hfront⟩ := exists_lead (toList_ne_nil_of_isAbsolute h)
  · exact ⟨front, hlead, (steps_of_toList hfront).trans (List.append_nil _)⟩
  · exact ⟨front, hlead, by rw [steps, hfront]⟩

theorem steps_join (hp : p.isAbsolute = true) (hq : q.isAbsolute = false) : (p.join q).steps = p.steps ++ q.steps := by
  obtain ⟨front, hlead, hsteps⟩ := exists_lead_steps hp
  have htext : (p.join q).text.toList = front ++ '/' :: q.text.toList := by
    rw [toList_join_of_relative hq, hlead, List.append_assoc]
    rfl
  rw [steps_of_toList htext, ← hsteps]
  rfl

/-- A step of a path. -/
def IsStep (name : List Char) : Prop :=
  '/' ∉ name ∧ isSilent name = false

theorem isStep_of_mem_steps {name : List Char} (h : name ∈ p.steps) : IsStep name := by
  obtain ⟨hmem, hsilent⟩ := List.mem_filter.1 h
  exact ⟨Text.notMem_of_mem_pieces hmem, by simpa using hsilent⟩

theorem IsStep.isAbsolute {name : List Char} (h : IsStep name) : (⟨String.ofList name⟩ : Path).isAbsolute = false := by
  rw [Bool.eq_false_iff, Ne, isAbsolute_iff]
  rintro ⟨cs, hcs⟩
  rw [String.toList_ofList] at hcs
  exact h.1 (hcs ▸ List.mem_cons_self)

theorem IsStep.steps {name : List Char} (h : IsStep name) : (⟨String.ofList name⟩ : Path).steps = [name] := by
  rw [Path.steps, String.toList_ofList, Text.pieces_of_notMem h.1, List.filter_singleton, h.2]
  rfl

/-! ### Making a path absolute -/

private theorem steps_foldl_join {names : List (List Char)} (hp : p.isAbsolute = true)
    (h : ∀ name ∈ names, IsStep name) :
    (names.foldl (fun q name => q.join ⟨String.ofList name⟩) p).isAbsolute = true ∧
      (names.foldl (fun q name => q.join ⟨String.ofList name⟩) p).steps = p.steps ++ names := by
  induction names generalizing p with
  | nil => exact ⟨hp, (List.append_nil _).symm⟩
  | cons name names ih =>
    have hname := h name List.mem_cons_self
    have hrest : ∀ n ∈ names, IsStep n := fun n hn => h n (List.mem_cons_of_mem _ hn)
    obtain ⟨habsolute, hsteps⟩ := ih (isAbsolute_join hp ⟨String.ofList name⟩) hrest
    refine ⟨habsolute, hsteps.trans ?_⟩
    rw [steps_join hp hname.isAbsolute, hname.steps, List.append_assoc]
    rfl

/-- Below an absolute path the names are the steps behind its own. -/
theorem steps_below {names : List String} (hp : p.isAbsolute = true) (h : ∀ n ∈ names, IsFileName n) :
    (p.below names).isAbsolute = true ∧ (p.below names).steps = p.steps ++ names.map String.toList := by
  have hfold : p.below names = (names.map String.toList).foldl (fun q name => q.join ⟨String.ofList name⟩) p := by
    simp only [below, List.foldl_map, String.ofList_toList]
  rw [hfold]
  refine steps_foldl_join hp fun name hname => ?_
  obtain ⟨n, hn, rfl⟩ := List.mem_map.1 hname
  exact ⟨(h n hn).1, (h n hn).isSilent⟩

theorem steps_rootOf (p : Path) : p.rootOf.isAbsolute = true ∧ p.rootOf.steps = [] := by
  unfold rootOf
  split
  · exact ⟨by decide, by decide⟩
  · exact ⟨by decide, by decide⟩

/-- The absolute form of a path has the steps that the path has as seen from its base. -/
theorem steps_absolute (hbase : base.isAbsolute = true) (p : Path) :
    (p.absolute base).isAbsolute = true ∧ (p.absolute base).steps = (base.join p).steps := by
  have hnames : ∀ name ∈ p.steps, IsStep name := fun _ => isStep_of_mem_steps
  -- a separator at the end adds no step
  have hend : ∀ {full : Path}, full.isAbsolute = true →
      (if p.text.toList.getLast? = some '/' then full.join ⟨""⟩ else full).isAbsolute = true ∧
        (if p.text.toList.getLast? = some '/' then full.join ⟨""⟩ else full).steps = full.steps := by
    intro full hfull
    split
    · refine ⟨isAbsolute_join hfull _, ?_⟩
      rw [steps_join hfull (by decide)]
      exact List.append_nil _
    · exact ⟨hfull, rfl⟩
  unfold absolute
  rw [← steps_eq]
  cases habsolute : p.isAbsolute with
  | true =>
    obtain ⟨hfull, hsteps⟩ := steps_foldl_join (steps_rootOf p).1 hnames
    rw [if_pos rfl, join, if_pos habsolute]
    refine ⟨(hend hfull).1, (hend hfull).2.trans ?_⟩
    rw [hsteps, (steps_rootOf p).2, List.nil_append]
  | false =>
    obtain ⟨hfull, hsteps⟩ := steps_foldl_join hbase hnames
    rw [if_neg Bool.false_ne_true, steps_join hbase habsolute]
    exact ⟨(hend hfull).1, (hend hfull).2.trans hsteps⟩

/-! ### The paths above a path -/

/-- Taking silent segments off the end of some segments leaves their steps. -/
theorem trimEndSegments_cases (body : List (List Char)) :
    (trimEndSegments body = [] ∧ body.filter (!isSilent ·) = []) ∨
      ∃ front name, trimEndSegments body = front ++ [name] ∧ front ++ [name] <+: body ∧
        body.filter (!isSilent ·) = front.filter (!isSilent ·) ++ [name] := by
  have htrim : ∀ body, trimEndSegments body = body.rdropWhile isSilent := fun _ => rfl
  induction body using List.reverseRecOn with
  | nil => exact Or.inl ⟨rfl, rfl⟩
  | append_singleton front name ih =>
    rw [htrim] at ih ⊢
    cases hname : isSilent name with
    | true =>
      have hsame : (front ++ [name]).filter (!isSilent ·) = front.filter (!isSilent ·) := by
        rw [List.filter_append, List.filter_singleton, hname]
        exact List.append_nil _
      rw [List.rdropWhile_concat_pos _ _ _ hname, hsame]
      rcases ih with hnone | ⟨more, last, htrim, hbegins, hfilter⟩
      · exact Or.inl hnone
      · exact Or.inr ⟨more, last, htrim, hbegins.trans (List.prefix_append _ _), hfilter⟩
    | false =>
      rw [List.rdropWhile_concat_neg _ _ _ (by rw [hname]; exact Bool.false_ne_true)]
      refine Or.inr ⟨front, name, rfl, List.prefix_refl _, ?_⟩
      rw [List.filter_append, List.filter_singleton, hname]
      rfl

private theorem steps_ofSegments {body : List (List Char)} (hne : body ≠ []) (h : ∀ s ∈ body, '/' ∉ s) :
    (ofSegments ([] :: body)).isAbsolute = true ∧ (ofSegments ([] :: body)).steps = body.filter (!isSilent ·) := by
  have hpieces : Text.pieces '/' (ofSegments ([] :: body)).text.toList = [] :: body := by
    rw [ofSegments, String.toList_ofList]
    refine Text.pieces_joinPieces (List.cons_ne_nil _ _) fun s hs => ?_
    rcases List.mem_cons.1 hs with rfl | hs
    · exact List.not_mem_nil
    · exact h s hs
  constructor
  · rw [isAbsolute, segments_of_pieces hne hpieces]
    rfl
  · rw [steps, hpieces]
    rfl

private theorem steps_ofTrimmed {body : List (List Char)} (h : ∀ s ∈ body, '/' ∉ s) :
    (ofTrimmed ⟨some .root, body⟩).isAbsolute = true ∧
      (ofTrimmed ⟨some .root, body⟩).steps = body.filter (!isSilent ·) := by
  unfold ofTrimmed
  dsimp only
  rcases trimEndSegments_cases body with ⟨htrim, hfilter⟩ | ⟨front, name, htrim, hbegins, hfilter⟩
  · rw [htrim, hfilter]
    exact ⟨by decide, by decide⟩
  · have hne : front ++ [name] ≠ [] := List.append_ne_nil_of_right_ne_nil _ (List.cons_ne_nil _ _)
    have hsteps := steps_ofSegments hne fun s hs => h s (hbegins.subset hs)
    have hname : isSilent name = false := by
      have hmem : name ∈ body.filter (!isSilent ·) := hfilter ▸ List.mem_append_right _ List.mem_cons_self
      simpa using (List.mem_filter.1 hmem).2
    rw [htrim, hfilter]
    rw [List.filter_append, List.filter_singleton, hname] at hsteps
    obtain ⟨first, rest, hcons⟩ := List.exists_cons_of_ne_nil hne
    rw [hcons] at hsteps ⊢
    exact hsteps

/-- The path above an absolute path has all steps but the last one; the root has no path above it. -/
private theorem parent?_cases (h : p.isAbsolute = true) :
    (p.steps = [] ∧ p.parent? = none) ∨
      ∃ q name, p.parent? = some q ∧ q.isAbsolute = true ∧ p.steps = q.steps ++ [name] := by
  obtain ⟨body, hbody, hpieces⟩ := exists_pieces_of_isAbsolute h
  have hsegments := segments_of_pieces hbody hpieces
  have hsep : ∀ s ∈ body, '/' ∉ s := by
    intro s hs
    have hmem : s ∈ Text.pieces '/' p.text.toList := hpieces ▸ List.mem_cons_of_mem _ hs
    exact Text.notMem_of_mem_pieces hmem
  rw [steps_eq, parent?, hsegments]
  dsimp only
  rcases trimEndSegments_cases body with ⟨htrim, hfilter⟩ | ⟨front, name, htrim, hbegins, hfilter⟩
  · rw [htrim, hfilter]
    exact Or.inl ⟨rfl, rfl⟩
  · obtain ⟨habsolute, hsteps⟩ := steps_ofTrimmed fun s hs => hsep s (hbegins.subset (List.mem_append_left _ hs))
    refine Or.inr ⟨ofTrimmed ⟨some .root, front⟩, name, ?_, habsolute, by rw [hfilter, hsteps]⟩
    rw [htrim]
    split
    · rename_i hhead _
      cases hhead
    · rename_i hnil _
      exact absurd hnil (List.append_ne_nil_of_right_ne_nil _ (List.cons_ne_nil _ _))
    · rw [List.dropLast_concat]

private theorem steps_ancestorsUpTo {n : Nat} (h : p.isAbsolute = true) (hn : p.steps.length ≤ n) :
    (∀ q ∈ p.ancestorsUpTo n, q.isAbsolute = true) ∧ (p.ancestorsUpTo n).map steps = p.steps.inits.reverse := by
  induction n generalizing p with
  | zero =>
    have hsteps : p.steps = [] := List.eq_nil_of_length_eq_zero (Nat.le_zero.1 hn)
    rw [ancestorsUpTo, hsteps]
    exact ⟨fun q hq => List.mem_singleton.1 hq ▸ h, by rw [List.map_singleton, hsteps]; rfl⟩
  | succ n ih =>
    rw [ancestorsUpTo]
    rcases parent?_cases h with ⟨hsteps, hparent⟩ | ⟨q, name, hparent, hq, hsteps⟩
    · rw [hparent, hsteps]
      exact ⟨fun q hq => List.mem_singleton.1 hq ▸ h, by rw [List.map_singleton, hsteps]; rfl⟩
    · rw [hparent, hsteps]
      rw [hsteps, List.length_append, List.length_singleton] at hn
      obtain ⟨habsolute, hmap⟩ := ih hq (by omega)
      constructor
      · intro r hr
        rcases List.mem_cons.1 hr with rfl | hr
        · exact h
        · exact habsolute r hr
      · rw [List.map_cons, hmap, hsteps]
        simp

theorem length_components (h : p.isAbsolute = true) : p.components.length = p.steps.length + 1 := by
  have hlength : (p.segments.body.filterMap Component.ofSegment?).length = p.steps.length := by
    rw [List.length_filterMap_eq_countP, List.countP_eq_length_filter, steps_eq]
    refine congrArg (fun f => (p.segments.body.filter f).length) (funext fun s => ?_)
    rw [isSilent]
    cases Component.ofSegment? s <;> rfl
  rw [components, List.length_append, hlength, of_decide_eq_true h]
  exact Nat.add_comm _ _

/-- A path and those above it have the beginnings of its steps, from all of them to none. -/
theorem steps_ancestors (h : p.isAbsolute = true) :
    (∀ q ∈ p.ancestors, q.isAbsolute = true) ∧ p.ancestors.map steps = p.steps.inits.reverse := by
  refine steps_ancestorsUpTo h ?_
  rw [length_components h]
  exact Nat.le_succ _

theorem ancestors_eq (h : p.isAbsolute = true) :
    p.ancestors = p :: match p.parent? with
      | none => []
      | some q => q.ancestors := by
  rw [ancestors, length_components h, ancestorsUpTo]
  rcases parent?_cases h with ⟨-, hparent⟩ | ⟨q, name, hparent, hq, hsteps⟩
  · rw [hparent]
  · rw [hparent, hsteps, List.length_append, List.length_singleton]
    dsimp only
    rw [ancestors, length_components hq]

end Path

namespace FileNode

open IndentLint.Path

variable {root : FileNode} {p : Path} {trail next : Trail} {segment : List Char}

/-- Following a segment leads to an entry, stays, or leads one directory up, which only `..` does. -/
theorem follow_cases (h : follow trail segment = some next) :
    (∃ entry, next = entry :: trail) ∨ next = trail ∨ (segment = ['.', '.'] ∧ ∃ entry, trail = entry :: next) := by
  unfold follow at h
  split at h
  · cases h
  · cases h
  · rename_i name entries above
    split at h
    · exact Or.inr (Or.inl (Option.some.inj h).symm)
    · rename_i hsegment
      obtain rfl := Option.some.inj h
      split
      · exact Or.inr (Or.inl rfl)
      · refine Or.inr (Or.inr ⟨?_, _, rfl⟩)
        unfold Component.ofSegment? at hsegment
        split at hsegment <;> first | rfl | cases hsegment
    · obtain ⟨node, -, rfl⟩ := Option.map_eq_some_iff.1 h
      exact Or.inl ⟨_, rfl⟩

/-- The name of a file leads to the entry of that name. -/
theorem follow_name {name above : String} {entries : List (String × FileNode)} (h : IsFileName name) (up : Trail) :
    follow ((above, directory entries) :: up) name.toList =
      (entries.lookup name).map fun node => (name, node) :: (above, directory entries) :: up := by
  unfold follow
  dsimp only
  rw [h.ofSegment?]
  dsimp only
  rw [String.ofList_toList]

/-- A silent segment leads nowhere, but it can follow a directory only. -/
private theorem follow_of_isSilent (hsilent : isSilent segment = true) (trail : Trail) :
    follow trail segment = some trail ∨ ∀ s, follow trail s = none := by
  unfold follow
  split
  · exact Or.inr fun _ => rfl
  · exact Or.inr fun _ => rfl
  · rw [Option.isNone_iff_eq_none.1 hsilent]
    exact Or.inl rfl

private theorem foldlM_follow_steps {body : List (List Char)} (h : body.foldlM follow trail = some next) :
    (body.filter (!isSilent ·)).foldlM follow trail = some next := by
  induction body generalizing trail with
  | nil => exact h
  | cons s body ih =>
    rw [List.foldlM_cons] at h
    obtain ⟨t, ht, hnext⟩ := Option.bind_eq_some_iff.1 h
    cases hs : isSilent s with
    | true =>
      rw [List.filter_cons_of_neg (by simp [hs])]
      rcases follow_of_isSilent hs trail with hstay | hstuck
      · obtain rfl := Option.some.inj (hstay.symm.trans ht)
        exact ih hnext
      · rw [hstuck] at ht
        cases ht
    | false =>
      rw [List.filter_cons_of_pos (by simp [hs]), List.foldlM_cons, ht]
      exact ih hnext

/-- With a step behind them silent segments have no effect at all: they can follow a file no more than the step can. -/
private theorem foldlM_follow_steps_bind (body : List (List Char)) (trail : Trail) (name : List Char) :
    (body.foldlM follow trail).bind (follow · name) =
      ((body.filter (!isSilent ·)).foldlM follow trail).bind (follow · name) := by
  induction body generalizing trail with
  | nil => rfl
  | cons s body ih =>
    cases hs : isSilent s with
    | true =>
      rw [List.filter_cons_of_neg (by simp [hs]), List.foldlM_cons]
      rcases follow_of_isSilent hs trail with hstay | hstuck
      · rw [hstay]
        exact ih trail
      · rw [hstuck]
        cases body.filter (!isSilent ·) with
        | nil => exact (hstuck name).symm
        | cons s more =>
          rw [List.foldlM_cons, hstuck]
          rfl
    | false =>
      rw [List.filter_cons_of_pos (by simp [hs]), List.foldlM_cons, List.foldlM_cons]
      cases follow trail s with
      | none => rfl
      | some t => exact ih t

/-- Where some steps lead from the root. -/
def walk? (root : FileNode) (steps : List (List Char)) : Option Trail :=
  steps.foldlM follow [("", root)]

theorem walk?_concat (root : FileNode) (steps : List (List Char)) (name : List Char) :
    root.walk? (steps ++ [name]) = (root.walk? steps).bind (follow · name) := by
  rw [walk?, List.foldlM_append]
  exact Option.bind_congr fun t _ => by simp

theorem walk?_of_resolve? (h : root.resolve? p = some trail) : root.walk? p.steps = some trail := by
  unfold resolve? at h
  split at h
  · exact foldlM_follow_steps h
  · cases h

/-- What has a name in a directory is found along the steps of the directory. -/
theorem resolve?_join (hp : p.isAbsolute = true) {name : String} (hname : IsFileName name) :
    root.resolve? (p.join ⟨name⟩) = (root.walk? p.steps).bind (follow · name.toList) := by
  obtain ⟨front, hlead, hsteps⟩ := exists_lead_steps hp
  have hpieces : Text.pieces '/' (p.join ⟨name⟩).text.toList = Text.pieces '/' front ++ [name.toList] := by
    rw [toList_join hname, hlead, List.append_assoc, List.singleton_append, Text.pieces_append_sep,
      Text.pieces_of_notMem hname.1]
  rw [resolve?, if_pos (isAbsolute_join hp _), hpieces, List.foldlM_append, hsteps, walk?,
    ← foldlM_follow_steps_bind]
  exact Option.bind_congr fun t _ => by simp

end FileNode

end IndentLint
