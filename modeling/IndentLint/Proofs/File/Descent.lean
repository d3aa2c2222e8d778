import IndentLint.File.Path
import IndentLint.Proofs.Report.Violation

/-!
# Paths below a directory

A walk goes down from a root by file names.  Whatever the text of the root is, its components are followed by the names
(`components_below`), so what is seen of such a path from the root is the names alone (`relativeTo_below`), two of them
are ordered as their names are (`compare_below`), and the extension is that of the last name (`extension?_below`).
-/

namespace IndentLint

namespace Text

variable {α : Type} [DecidableEq α] {sep : α}

theorem pieces_ne_nil (sep : α) (cs : List α) : pieces sep cs ≠ [] := by
  cases cs with
  | nil => exact List.cons_ne_nil _ _
  | cons c cs =>
    unfold pieces
    split
    · exact List.cons_ne_nil _ _
    · split <;> exact List.cons_ne_nil _ _

theorem pieces_of_notMem {cs : List α} (h : sep ∉ cs) : pieces sep cs = [cs] := by
  induction cs with
  | nil => rfl
  | cons c cs ih =>
    obtain ⟨hc, hcs⟩ := not_or.1 (mt List.mem_cons.2 h)
    rw [pieces, if_neg (Ne.symm hc), ih hcs]

/-- A text is cut at each of its separators. -/
theorem pieces_append_sep (cs ds : List α) : pieces sep (cs ++ sep :: ds) = pieces sep cs ++ pieces sep ds := by
  induction cs with
  | nil =>
    show pieces sep (sep :: ds) = [[]] ++ pieces sep ds
    rw [pieces, if_pos rfl]
    rfl
  | cons c cs ih =>
    rw [List.cons_append, pieces, pieces, ih]
    by_cases hc : c = sep
    · rw [if_pos hc, if_pos hc, List.cons_append]
    · rw [if_neg hc, if_neg hc]
      obtain ⟨piece, rest, hcons⟩ := List.exists_cons_of_ne_nil (pieces_ne_nil sep cs)
      rw [hcons]
      rfl

/-- Joining undoes cutting: pieces without a separator are found again. -/
theorem pieces_joinPieces {sep : Char} {ps : List (List Char)} (hne : ps ≠ []) (h : ∀ p ∈ ps, sep ∉ p) :
    pieces sep (joinPieces sep ps) = ps := by
  induction ps with
  | nil => exact absurd rfl hne
  | cons p ps ih =>
    have hp : sep ∉ p := h p List.mem_cons_self
    cases ps with
    | nil =>
      show pieces sep ([sep].intercalate [p]) = [p]
      rw [List.intercalate_singleton, pieces_of_notMem hp]
    | cons q ps =>
      have hrest := ih (List.cons_ne_nil _ _) fun r hr => h r (List.mem_cons_of_mem _ hr)
      unfold joinPieces at hrest ⊢
      rw [List.intercalate_cons_cons, List.append_assoc, List.singleton_append, pieces_append_sep,
        pieces_of_notMem hp, hrest]
      rfl

end Text

namespace Path

/-- A text that a file can be called by. -/
def IsFileName (name : String) : Prop :=
  '/' ∉ name.toList ∧ name.toList ∉ [[], ['.'], ['.', '.']]

instance (name : String) : Decidable (IsFileName name) :=
  inferInstanceAs (Decidable (_ ∧ _))

/-- The path that is reached from `root` by some names, one after the other. -/
def below (root : Path) (names : List String) : Path :=
  names.foldl (fun path name => path.join ⟨name⟩) root

@[simp] theorem below_nil (root : Path) : root.below [] = root := rfl

private theorem below_cons (root : Path) (name : String) (names : List String) :
    root.below (name :: names) = (root.join ⟨name⟩).below names :=
  rfl

theorem below_concat (root : Path) (names : List String) (name : String) :
    root.below (names ++ [name]) = (root.below names).join ⟨name⟩ := by
  unfold below
  rw [List.foldl_append]
  rfl

/-! ### The text of a path below a root -/

namespace IsFileName

variable {name : String}

theorem ne_nil (h : IsFileName name) : name.toList ≠ [] :=
  fun he => h.2 (by rw [he]; exact List.mem_cons_self)

/-- A file name is a component. -/
theorem ofSegment? (h : IsFileName name) : Component.ofSegment? name.toList = some (.name name.toList) := by
  have hnot := h.2
  unfold Component.ofSegment?
  split <;> simp_all

theorem isSilent (h : IsFileName name) : Path.isSilent name.toList = false := by
  rw [Path.isSilent, h.ofSegment?]
  rfl

theorem isAbsolute (h : IsFileName name) : (⟨name⟩ : Path).isAbsolute = false := by
  have hpieces : Text.pieces '/' name.toList = [name.toList] := Text.pieces_of_notMem h.1
  unfold Path.isAbsolute segments
  rw [hpieces]
  generalize name.toList = cs
  split
  · rename_i heq
    cases heq
  · rfl
  · rfl

end IsFileName

/-- The text that stands in front of a name below a path. -/
def lead (p : Path) : List Char :=
  if p.text.isEmpty || p.text.toList.getLast? = some '/' then p.text.toList else p.text.toList ++ ['/']

theorem toList_join_of_relative {q : Path} (h : q.isAbsolute = false) (p : Path) :
    (p.join q).text.toList = p.lead ++ q.text.toList := by
  unfold join lead
  rw [if_neg (by rw [h]; exact Bool.false_ne_true)]
  split
  · exact String.toList_append
  · rw [String.toList_append, String.toList_append]
    rfl

theorem toList_join {name : String} (h : IsFileName name) (p : Path) :
    (p.join ⟨name⟩).text.toList = p.lead ++ name.toList :=
  toList_join_of_relative h.isAbsolute p

private theorem lead_join {name : String} (h : IsFileName name) (p : Path) :
    (p.join ⟨name⟩).lead = p.lead ++ name.toList ++ ['/'] := by
  have hlast : (p.lead ++ name.toList).getLast? ≠ some '/' := by
    rw [List.getLast?_append, List.getLast?_eq_some_getLast h.ne_nil, Option.some_or]
    intro he
    exact h.1 (Option.some.inj he ▸ List.getLast_mem h.ne_nil)
  have hempty : (p.join ⟨name⟩).text.isEmpty = false := by
    rw [Bool.eq_false_iff, Ne, String.isEmpty_iff, ← String.toList_eq_nil_iff, toList_join h]
    exact List.append_ne_nil_of_right_ne_nil _ h.ne_nil
  rw [lead, hempty, toList_join h, Bool.false_or, if_neg (by simpa using hlast)]

/-- Below a root the names stand in a row behind the text of the root. -/
theorem toList_below (root : Path) {names : List String} (hne : names ≠ []) (h : ∀ n ∈ names, IsFileName n) :
    (root.below names).text.toList = root.lead ++ Text.joinPieces '/' (names.map String.toList) := by
  induction names generalizing root with
  | nil => exact absurd rfl hne
  | cons n names ih =>
    have hn : IsFileName n := h n List.mem_cons_self
    cases names with
    | nil =>
      rw [below_cons, below_nil, toList_join hn]
      exact congrArg _ List.intercalate_singleton.symm
    | cons m names =>
      rw [below_cons, ih _ (List.cons_ne_nil _ _) fun k hk => h k (List.mem_cons_of_mem _ hk), lead_join hn]
      unfold Text.joinPieces
      rw [List.map_cons, List.map_cons, List.map_cons, List.intercalate_cons_cons, List.append_assoc,
        List.append_assoc, List.append_assoc]

/-! ### The components of a path below a root -/

theorem segments_of_pieces {p : Path} {body : List (List Char)} (hne : body ≠ [])
    (h : Text.pieces '/' p.text.toList = [] :: body) : p.segments = ⟨some .root, body⟩ := by
  obtain ⟨s, rest, rfl⟩ := List.exists_cons_of_ne_nil hne
  unfold segments
  rw [h]

theorem exists_pieces_of_isAbsolute {p : Path} (h : p.isAbsolute = true) :
    ∃ body, body ≠ [] ∧ Text.pieces '/' p.text.toList = [] :: body := by
  unfold isAbsolute segments at h
  split at h
  · rename_i s rest heq
    exact ⟨_, List.cons_ne_nil s rest, heq⟩
  · cases of_decide_eq_true h
  · cases of_decide_eq_true h

theorem toList_ne_nil_of_isAbsolute {p : Path} (h : p.isAbsolute = true) : p.text.toList ≠ [] := by
  obtain ⟨body, hbody, hpieces⟩ := exists_pieces_of_isAbsolute h
  intro he
  rw [he] at hpieces
  exact hbody (List.cons.inj hpieces).2.symm

/-- The text in front of a name ends in a separator, which the text of the path may end in already. -/
theorem exists_lead {p : Path} (h : p.text.toList ≠ []) :
    ∃ front, p.lead = front ++ ['/'] ∧ (p.text.toList = front ++ ['/'] ∨ p.text.toList = front) := by
  have hempty : p.text.isEmpty = false := by
    rw [Bool.eq_false_iff, Ne, String.isEmpty_iff, ← String.toList_eq_nil_iff]
    exact h
  unfold lead
  rw [hempty, Bool.false_or]
  by_cases hlast : p.text.toList.getLast? = some '/'
  · rw [if_pos (by simpa using hlast)]
    obtain ⟨front, hfront⟩ := List.getLast?_eq_some_iff.1 hlast
    exact ⟨front, hfront, Or.inl hfront⟩
  · rw [if_neg (by simpa using hlast)]
    exact ⟨p.text.toList, rfl, Or.inr rfl⟩

/-- The names stand behind some segments that hold the components of the root. -/
private theorem exists_segments_below {root : Path} (hroot : root.isAbsolute = true) :
    ∃ stem, root.components = .root :: stem.filterMap Component.ofSegment? ∧
      ∀ names, names ≠ [] → (∀ n ∈ names, IsFileName n) →
        (root.below names).segments = ⟨some .root, stem ++ names.map String.toList⟩ := by
  obtain ⟨body, hbody, hpieces⟩ := exists_pieces_of_isAbsolute hroot
  obtain ⟨front, hlead, hfront⟩ := exists_lead (toList_ne_nil_of_isAbsolute hroot)
  -- an empty segment at the end of the root gives way to the first name
  obtain ⟨stem, hstem, hsame⟩ : ∃ stem, Text.pieces '/' front = [] :: stem ∧
      (body = stem ++ [[]] ∨ body = stem) := by
    rcases hfront with hfront | hfront
    · rw [hfront, Text.pieces_append_sep] at hpieces
      obtain ⟨q, stem, hcons⟩ := List.exists_cons_of_ne_nil (Text.pieces_ne_nil '/' front)
      rw [hcons] at hpieces
      obtain ⟨rfl, hrest⟩ := List.cons.inj hpieces
      exact ⟨stem, hcons, Or.inl hrest.symm⟩
    · exact ⟨body, hfront ▸ hpieces, Or.inr rfl⟩
  refine ⟨stem, ?_, fun names hne h => segments_of_pieces ?_ ?_⟩
  · rw [components, segments_of_pieces hbody hpieces]
    rcases hsame with rfl | rfl
    · dsimp only
      rw [List.filterMap_append]
      exact congrArg _ (List.append_nil _)
    · rfl
  · exact List.append_ne_nil_of_right_ne_nil _ fun he => hne (List.map_eq_nil_iff.1 he)
  · rw [toList_below root hne h, hlead, List.append_assoc, List.singleton_append, Text.pieces_append_sep, hstem,
      Text.pieces_joinPieces (fun he => hne (List.map_eq_nil_iff.1 he))]
    · rfl
    · intro p hp
      obtain ⟨n, hn, rfl⟩ := List.mem_map.1 hp
      exact (h n hn).1

variable {root : Path} {names : List String}

theorem filterMap_ofSegment? (h : ∀ n ∈ names, IsFileName n) :
    (names.map String.toList).filterMap Component.ofSegment? = names.map fun n => .name n.toList := by
  induction names with
  | nil => rfl
  | cons n names ih =>
    rw [List.map_cons, List.filterMap_cons_some (h n List.mem_cons_self).ofSegment?,
      ih fun k hk => h k (List.mem_cons_of_mem _ hk), List.map_cons]

/-- The names are the last components of a path below a root. -/
theorem components_below (hroot : root.isAbsolute = true) (h : ∀ n ∈ names, IsFileName n) :
    (root.below names).components = root.components ++ names.map fun n => .name n.toList := by
  by_cases hne : names = []
  · subst hne
    rw [below_nil, List.map_nil, List.append_nil]
  · obtain ⟨stem, hstem, hsegments⟩ := exists_segments_below hroot
    rw [components, hsegments names hne h, hstem]
    dsimp only
    rw [List.filterMap_append, filterMap_ofSegment? h]
    rfl

/-! ### What is seen from the root -/

/-- Dropping the components of the front part of some segments leaves what is behind, up to silent segments. -/
private theorem dropWhile_dropComponents (stem rest : List (List Char)) :
    (dropComponents (stem.filterMap Component.ofSegment?).length (stem ++ rest)).dropWhile isSilent =
      rest.dropWhile isSilent := by
  induction stem with
  | nil => rw [List.filterMap_nil, List.length_nil, dropComponents, List.nil_append]
  | cons s stem ih =>
    cases hs : Component.ofSegment? s with
    | none =>
      have hsilent : isSilent s = true := by rw [isSilent, hs]; rfl
      rw [List.filterMap_cons_none hs, List.cons_append]
      cases hn : (stem.filterMap Component.ofSegment?).length with
      | zero =>
        rw [hn, dropComponents] at ih
        rw [dropComponents, List.dropWhile_cons_of_pos hsilent]
        exact ih
      | succ n =>
        rw [dropComponents, if_pos hsilent, ← hn]
        exact ih
    | some c =>
      have hsilent : isSilent s = false := by rw [isSilent, hs]; rfl
      rw [List.filterMap_cons_some hs, List.cons_append, List.length_cons, dropComponents,
        if_neg (by simp [hsilent])]
      exact ih

/-- No name is silent. -/
private theorem dropWhile_isSilent_of_names {segments : List (List Char)} (h : ∀ s ∈ segments, isSilent s = false) :
    segments.dropWhile isSilent = segments := by
  cases segments with
  | nil => rfl
  | cons s rest => exact List.dropWhile_cons_of_neg (by rw [h s List.mem_cons_self]; exact Bool.false_ne_true)

private theorem trimEndSegments_of_names {segments : List (List Char)} (h : ∀ s ∈ segments, isSilent s = false) :
    trimEndSegments segments = segments := by
  rw [trimEndSegments, dropWhile_isSilent_of_names fun s hs => h s (List.mem_reverse.1 hs), List.reverse_reverse]

/-- What is left of a path below a root is the names. -/
private theorem strip?_below (hroot : root.isAbsolute = true) (hne : names ≠ []) (h : ∀ n ∈ names, IsFileName n) :
    (root.below names).strip? root = some (ofSegments (names.map String.toList)) := by
  have hnames : ∀ s ∈ names.map String.toList, isSilent s = false := by
    intro s hs
    obtain ⟨n, hn, rfl⟩ := List.mem_map.1 hs
    exact (h n hn).isSilent
  have hprefix : root.components.isPrefixOf (root.below names).components = true := by
    rw [components_below hroot h]
    exact List.isPrefixOf_iff_prefix.2 (List.prefix_append _ _)
  obtain ⟨stem, hstem, hsegments⟩ := exists_segments_below hroot
  rw [strip?, if_pos hprefix, hstem, hsegments names hne h]
  show some (ofSegments (trimEndSegments
    ((dropComponents (stem.filterMap Component.ofSegment?).length (stem ++ names.map String.toList)).dropWhile
      isSilent))) = _
  rw [dropWhile_dropComponents, dropWhile_isSilent_of_names hnames, trimEndSegments_of_names hnames]

/-- From the root only the names are seen, whatever the root is. -/
theorem relativeTo_below (hroot : root.isAbsolute = true) (hne : names ≠ []) (h : ∀ n ∈ names, IsFileName n) :
    (root.below names).relativeTo root = ofSegments (names.map String.toList) := by
  have htext : (ofSegments (names.map String.toList)).text.isEmpty = false := by
    rw [Bool.eq_false_iff, Ne, String.isEmpty_iff, ← String.toList_eq_nil_iff, ofSegments, String.toList_ofList]
    obtain ⟨n, rest, rfl⟩ := List.exists_cons_of_ne_nil hne
    have hn := (h n List.mem_cons_self).ne_nil
    cases rest with
    | nil =>
      show ['/'].intercalate [n.toList] ≠ []
      rw [List.intercalate_singleton]
      exact hn
    | cons m rest =>
      unfold Text.joinPieces
      rw [List.map_cons, List.map_cons, List.intercalate_cons_cons, List.append_assoc]
      exact List.append_ne_nil_of_left_ne_nil hn _
  rw [relativeTo, strip?_below hroot hne h]
  dsimp only
  rw [htext]
  exact if_neg Bool.false_ne_true

/-- The extension of a path below a root is that of the last name. -/
theorem extension?_below (hroot : root.isAbsolute = true) (hne : names ≠ []) (h : ∀ n ∈ names, IsFileName n) :
    (root.below names).extension? = extensionOfName? (names.getLast hne).toList := by
  have hlast : (root.below names).fileName? = some (names.getLast hne).toList := by
    rw [fileName?, components_below hroot h, List.getLast?_append, List.getLast?_map,
      List.getLast?_eq_some_getLast hne]
    rfl
  rw [extension?, hlast]
  rfl

private theorem compareLex_append_left (front : List Component) (xs ys : List Component) :
    List.compareLex Component.compare (front ++ xs) (front ++ ys) = List.compareLex Component.compare xs ys := by
  induction front with
  | nil => rfl
  | cons a front ih =>
    rw [List.cons_append, List.cons_append, List.compareLex_cons_cons, Component.compare_self, ih]
    rfl

/-- Two paths below one root are ordered as their names are. -/
theorem compare_below {names' : List String} (hroot : root.isAbsolute = true) (h : ∀ n ∈ names, IsFileName n)
    (h' : ∀ n ∈ names', IsFileName n) :
    (root.below names).compare (root.below names') =
      List.compareLex Component.compare (names.map fun n => .name n.toList) (names'.map fun n => .name n.toList) := by
  rw [compare, components_below hroot h, components_below hroot h', compareLex_append_left]

end Path

end IndentLint
