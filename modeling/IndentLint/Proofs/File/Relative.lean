import IndentLint.Proofs.File.Steps

/-!
# Paths as seen from a root

From an absolute root a path is seen as its steps behind those of the root, as the name at its end, or as it is.  In all
three cases what is seen ends in the step that the path ends in, so it has the same extension (`extension?_relativeTo`),
and it is relative or the path itself, so it is seen from the root as it is (`relativeTo_relativeTo`).  Joined to the root,
what is seen of a path below it is that path again (`join_relativeTo_below`).
-/

namespace IndentLint.Path

variable {p q root : Path} {name : List Char}

/-! ### The step at the end -/

private theorem ofSegment?_ne_root (segment : List Char) : Component.ofSegment? segment ≠ some .root := by
  unfold Component.ofSegment?
  split <;> simp

private theorem isAbsolute_iff_head?_components : p.isAbsolute = true ↔ p.components.head? = some .root := by
  have hbody : (p.segments.body.filterMap Component.ofSegment?).head? ≠ some .root := by
    intro hhead
    obtain ⟨segment, -, hsegment⟩ := List.mem_filterMap.1 (List.mem_of_head? hhead)
    exact ofSegment?_ne_root segment hsegment
  unfold isAbsolute components
  cases hhead : p.segments.head with
  | none => simpa using hbody
  | some c => simp

/-- A path in which an absolute path comes first is absolute. -/
private theorem isAbsolute_of_isPrefixOf (hroot : root.isAbsolute = true)
    (hbegins : root.components.isPrefixOf p.components = true) : p.isAbsolute = true := by
  obtain ⟨behind, hbehind⟩ := List.isPrefixOf_iff_prefix.1 hbegins
  rw [isAbsolute_iff_head?_components] at hroot ⊢
  rw [← hbehind, List.head?_append, hroot]
  rfl

/-- The name of a file is its last step, unless that one leads up. -/
theorem fileName?_eq_getLast?_steps (p : Path) :
    p.fileName? = p.steps.getLast?.bind fun segment =>
      match Component.ofSegment? segment with
      | some (.name cs) => some cs
      | _ => none := by
  unfold fileName? components
  rw [filterMap_segments]
  rcases List.eq_nil_or_concat p.steps with hnil | ⟨front, segment, hconcat⟩
  · -- without a step there is the head at most, which is no name
    rw [hnil]
    have hhead : ∀ cs, p.segments.head ≠ some (.name cs) := by
      intro cs
      unfold segments
      split <;> simp
    cases hcase : p.segments.head with
    | none => rfl
    | some c =>
      cases c with
      | name cs => exact absurd hcase (hhead cs)
      | _ => rfl
  · have hstep : IsStep segment := isStep_of_mem_steps (p := p) (by rw [hconcat]; simp)
    obtain ⟨c, hc⟩ : ∃ c, Component.ofSegment? segment = some c := by
      have := hstep.2
      rw [isSilent, Option.isNone_eq_false_iff] at this
      exact Option.isSome_iff_exists.1 this
    have hend : (p.segments.head.toList ++ (front ++ [segment]).filterMap Component.ofSegment?).getLast? = some c := by
      rw [List.filterMap_append, List.filterMap_cons_some hc, List.filterMap_nil, ← List.append_assoc,
        List.getLast?_concat]
    rw [hconcat, List.concat_eq_append, hend, List.getLast?_concat]
    cases c <;> simp [hc]

/-- Paths that end in the same step have the same extension. -/
theorem extension?_congr (h : p.steps.getLast? = q.steps.getLast?) : p.extension? = q.extension? := by
  unfold extension?
  rw [fileName?_eq_getLast?_steps, fileName?_eq_getLast?_steps, h]

private theorem eq_of_ofSegment?_eq_name {segment name : List Char}
    (h : Component.ofSegment? segment = some (.name name)) : segment = name := by
  unfold Component.ofSegment? at h
  split at h <;> simp_all

/-- A step that does not lead up is a name. -/
theorem IsStep.ofSegment? (h : IsStep name) (hup : name ≠ ['.', '.']) :
    Component.ofSegment? name = some (.name name) := by
  have hsilent := h.2
  unfold isSilent at hsilent
  unfold Component.ofSegment? at hsilent ⊢
  split <;> simp_all

private theorem getLast?_steps_of_fileName? {name : List Char} (h : p.fileName? = some name) :
    p.steps.getLast? = some name := by
  rw [fileName?_eq_getLast?_steps] at h
  obtain ⟨segment, hlast, hsegment⟩ := Option.bind_eq_some_iff.1 h
  split at hsegment
  · rename_i cs hname
    rw [hlast, eq_of_ofSegment?_eq_name hname, Option.some.inj hsegment]
  · cases hsegment

/-! ### What is left behind a root -/

private theorem filter_dropWhile_isSilent (body : List (List Char)) :
    (body.dropWhile isSilent).filter (!isSilent ·) = body.filter (!isSilent ·) := by
  induction body with
  | nil => rfl
  | cons s body ih =>
    by_cases hs : isSilent s = true
    · simp [hs, ih]
    · simp [hs]

private theorem filter_trimEndSegments (body : List (List Char)) :
    (trimEndSegments body).filter (!isSilent ·) = body.filter (!isSilent ·) := by
  rw [trimEndSegments, List.filter_reverse, filter_dropWhile_isSilent, ← List.filter_reverse, List.reverse_reverse]

private theorem filter_dropComponents (n : Nat) (body : List (List Char)) :
    (dropComponents n body).filter (!isSilent ·) = (body.filter (!isSilent ·)).drop n := by
  induction body generalizing n with
  | nil => cases n <;> simp [dropComponents]
  | cons s body ih =>
    cases n with
    | zero => simp [dropComponents]
    | succ n =>
      by_cases hs : isSilent s = true
      · simp [dropComponents, hs, ih]
      · simp [dropComponents, hs, ih]

private theorem dropComponents_subset (n : Nat) (body : List (List Char)) : dropComponents n body ⊆ body := by
  induction body generalizing n with
  | nil => cases n <;> simp [dropComponents]
  | cons s body ih =>
    cases n with
    | zero => simp [dropComponents]
    | succ n =>
      unfold dropComponents
      split
      · exact fun x hx => List.mem_cons_of_mem _ (ih _ hx)
      · exact fun x hx => List.mem_cons_of_mem _ (ih _ hx)

private theorem isSilent_head?_trimmed (body : List (List Char)) :
    ∀ s ∈ (trimEndSegments (body.dropWhile isSilent)).head?, isSilent s = false := by
  intro s hs
  have hstop := List.head?_dropWhile_not isSilent body
  rcases trimEndSegments_cases (body.dropWhile isSilent) with ⟨hnil, -⟩ | ⟨front, name, htrim, ⟨behind, hbehind⟩, -⟩
  · rw [hnil] at hs
    cases hs
  · -- what is left at the front is still the segment at which dropping stopped
    have hhead : (body.dropWhile isSilent).head? = some s := by
      rw [← hbehind, ← htrim, List.head?_append, Option.mem_def.1 hs, Option.some_or]
    rw [hhead] at hstop
    exact hstop

private theorem trimmed_subset (body : List (List Char)) : trimEndSegments (body.dropWhile isSilent) ⊆ body := by
  intro s hs
  rw [trimEndSegments, List.mem_reverse] at hs
  have hmem := List.mem_reverse.1 ((List.dropWhile_suffix _).subset hs)
  exact (List.dropWhile_suffix _).subset hmem

/-- Segments of which the first is a step make a relative path, which has no text only if it has no steps. -/
private theorem ofSegments_of_isSilent_head? {segments : List (List Char)} (hsep : ∀ s ∈ segments, '/' ∉ s)
    (hfirst : ∀ s ∈ segments.head?, isSilent s = false) :
    (ofSegments segments).isAbsolute = false ∧
      (ofSegments segments).steps = segments.filter (!isSilent ·) ∧
      ((ofSegments segments).text.isEmpty = true ↔ (ofSegments segments).steps = []) := by
  cases segments with
  | nil => exact ⟨by decide, by decide, by decide⟩
  | cons s rest =>
    have hs : isSilent s = false := hfirst s rfl
    have hne : s ≠ [] := by
      rintro rfl
      cases hs
    have hpieces : Text.pieces '/' (ofSegments (s :: rest)).text.toList = s :: rest := by
      rw [ofSegments, String.toList_ofList]
      exact Text.pieces_joinPieces (List.cons_ne_nil _ _) hsep
    refine ⟨?_, by rw [steps, hpieces], ?_⟩
    · rw [Bool.eq_false_iff, Ne, isAbsolute_iff]
      rintro ⟨cs, hcs⟩
      rw [hcs, Text.pieces, if_pos rfl] at hpieces
      exact hne (List.cons.inj hpieces).1.symm
    · rw [String.isEmpty_iff, ← String.toList_eq_nil_iff, steps, hpieces]
      constructor
      · intro hnil
        rw [hnil] at hpieces
        exact absurd (List.cons.inj hpieces).1.symm hne
      · intro hnil
        simp [hs] at hnil

/-- What is left of a path behind an absolute root is relative and has the steps behind those of the root. -/
theorem steps_of_strip? {rest : Path} (hroot : root.isAbsolute = true) (h : p.strip? root = some rest) :
    rest.isAbsolute = false ∧ rest.steps = p.steps.drop root.steps.length ∧
      (rest.text.isEmpty = true ↔ rest.steps = []) := by
  unfold strip? at h
  split at h
  · rename_i hbegins
    obtain ⟨body, hbody, hpieces⟩ := exists_pieces_of_isAbsolute (isAbsolute_of_isPrefixOf hroot hbegins)
    have hsegments := segments_of_pieces hbody hpieces
    have hsep : ∀ s ∈ body, '/' ∉ s := by
      intro s hs
      have hmem : s ∈ Text.pieces '/' p.text.toList := hpieces ▸ List.mem_cons_of_mem _ hs
      exact Text.notMem_of_mem_pieces hmem
    rw [length_components hroot, hsegments] at h
    obtain rfl := Option.some.inj h
    obtain ⟨hrelative, hsteps, hempty⟩ := ofSegments_of_isSilent_head?
      (fun s hs => hsep s (dropComponents_subset root.steps.length body (trimmed_subset _ hs)))
      (isSilent_head?_trimmed (dropComponents root.steps.length body))
    refine ⟨hrelative, ?_, hempty⟩
    have hbodySteps : p.steps = body.filter (!isSilent ·) := by
      rw [steps_eq, hsegments]
    rw [hbodySteps, ← filter_dropComponents, ← filter_dropWhile_isSilent, ← filter_trimEndSegments]
    exact hsteps
  · cases h

/-! ### What is seen from a root -/

/-- A path that is not absolute is seen from an absolute root as it is. -/
private theorem relativeTo_of_relative (hroot : root.isAbsolute = true) (hp : p.isAbsolute = false) :
    p.relativeTo root = p := by
  have hbegins : root.components.isPrefixOf p.components = false := by
    rw [Bool.eq_false_iff]
    intro hbegins
    have habsolute := isAbsolute_of_isPrefixOf hroot hbegins
    rw [hp] at habsolute
    cases habsolute
  rw [relativeTo, strip?, hbegins]
  rfl

/-- What is seen of a path from an absolute root is the path itself, or a relative path that ends in the same step. -/
private theorem relativeTo_cases (hroot : root.isAbsolute = true) (p : Path) :
    p.relativeTo root = p ∨
      (p.relativeTo root).isAbsolute = false ∧ (p.relativeTo root).steps.getLast? = p.steps.getLast? := by
  unfold relativeTo
  split
  · exact Or.inl rfl
  · rename_i rest hrest
    obtain ⟨hrelative, hsteps, hempty⟩ := steps_of_strip? hroot hrest
    by_cases htext : rest.text.isEmpty = true
    · rw [if_pos htext]
      split
      · rename_i name hname
        have hlast := getLast?_steps_of_fileName? hname
        have hstep : IsStep name := isStep_of_mem_steps (List.mem_of_getLast? hlast)
        exact Or.inr ⟨hstep.isAbsolute, by rw [hstep.steps, hlast]; rfl⟩
      · exact Or.inl rfl
    · rw [if_neg htext]
      have hne : p.steps.drop root.steps.length ≠ [] := by
        rw [← hsteps]
        exact fun hnil => htext (hempty.2 hnil)
      refine Or.inr ⟨hrelative, ?_⟩
      rw [hsteps, List.getLast?_drop, if_neg (by simpa using hne)]

/-- What is seen of a path from an absolute root is seen from the root as it is. -/
theorem relativeTo_relativeTo (hroot : root.isAbsolute = true) (p : Path) :
    (p.relativeTo root).relativeTo root = p.relativeTo root := by
  rcases relativeTo_cases hroot p with hself | ⟨hrelative, -⟩
  · rw [hself]
    exact hself
  · exact relativeTo_of_relative hroot hrelative

theorem extension?_relativeTo (hroot : root.isAbsolute = true) (p : Path) :
    (p.relativeTo root).extension? = p.extension? := by
  rcases relativeTo_cases hroot p with hself | ⟨-, hlast⟩
  · rw [hself]
  · exact extension?_congr hlast

/-- The name at the end of a path is the name of a file. -/
theorem isFileName_of_fileName? (h : p.fileName? = some name) : IsFileName (String.ofList name) := by
  have hlast := getLast?_steps_of_fileName? h
  have hstep : IsStep name := isStep_of_mem_steps (List.mem_of_getLast? hlast)
  rw [fileName?_eq_getLast?_steps, hlast, Option.bind_some] at h
  unfold IsFileName
  rw [String.toList_ofList]
  refine ⟨hstep.1, fun hmem => ?_⟩
  simp only [List.mem_cons, List.not_mem_nil, or_false] at hmem
  rcases hmem with rfl | rfl | rfl <;> cases h

/-- A path that ends in a name is seen from itself by that name. -/
theorem relativeTo_self (hp : p.isAbsolute = true) (h : p.fileName? = some name) :
    p.relativeTo p = ⟨String.ofList name⟩ := by
  obtain ⟨rest, hrest⟩ : ∃ rest, p.strip? p = some rest := by
    have hbegins : p.components.isPrefixOf p.components = true := List.isPrefixOf_iff_prefix.2 (List.prefix_refl _)
    unfold strip?
    rw [if_pos hbegins]
    split <;> exact ⟨_, rfl⟩
  obtain ⟨-, hsteps, hempty⟩ := steps_of_strip? hp hrest
  rw [List.drop_length] at hsteps
  rw [relativeTo, hrest]
  dsimp only
  rw [if_pos (hempty.2 hsteps), h]

/-- What is seen of a path below a root leads from the root to that path. -/
theorem join_relativeTo_below {names : List String} (hroot : root.isAbsolute = true) (hne : names ≠ [])
    (h : ∀ n ∈ names, IsFileName n) : root.join ((root.below names).relativeTo root) = root.below names := by
  have hsep : ∀ s ∈ names.map String.toList, '/' ∉ s := by
    intro s hs
    obtain ⟨n, hn, rfl⟩ := List.mem_map.1 hs
    exact (h n hn).1
  have hfirst : ∀ s ∈ (names.map String.toList).head?, isSilent s = false := by
    intro s hs
    obtain ⟨n, hn, rfl⟩ := List.mem_map.1 (List.mem_of_head? hs)
    exact (h n hn).isSilent
  obtain ⟨hrelative, -⟩ := ofSegments_of_isSilent_head? hsep hfirst
  rw [relativeTo_below hroot hne h]
  -- both are the text of the root, a separator where it ends in none, and the names
  have htext : (root.join (ofSegments (names.map String.toList))).text.toList = (root.below names).text.toList := by
    rw [toList_join_of_relative hrelative, toList_below root hne h, ofSegments, String.toList_ofList]
  exact congrArg Path.mk (String.toList_inj.1 htext)

end IndentLint.Path
