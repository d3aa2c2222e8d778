import IndentLint.Proofs.File.Descent

/-!
# The order of paths

Comparing paths component by component is a total order up to the text between the components: two paths compare as
equal just if they have the same components (`Path.compare_eq_eq_iff`).  Below an absolute root, paths as seen from the
root are ordered as the paths themselves (`Path.compare_relativeTo_below`).
-/

namespace IndentLint

namespace Component

private theorem transCmp_listChar : Std.TransCmp fun cs ds : List Char => compareOfLessAndEq cs ds := by
  refine Std.TransOrd.compareOfLessAndEq_of_lt_trans_of_lt_iff List.lt_trans fun cs ds => ⟨fun h => ?_, fun h => ?_⟩
  · exact ⟨List.lt_asymm h, fun heq => List.lt_irrefl ds (heq ▸ h)⟩
  · exact (List.le_iff_lt_or_eq.1 (List.not_lt.1 h.1)).resolve_right h.2

instance : Std.TransCmp Component.compare := by
  have hranks : Std.TransCmp fun a b : Component => Ord.compare a.rank b.rank :=
    inferInstanceAs (Std.TransCmp (compareOn Component.rank))
  have hchars : Std.TransCmp fun a b : Component => compareOfLessAndEq a.chars b.chars :=
    { eq_swap := transCmp_listChar.eq_swap
      isLE_trans := transCmp_listChar.isLE_trans }
  exact inferInstanceAs (Std.TransCmp
    (compareLex (fun a b : Component => Ord.compare a.rank b.rank) fun a b => compareOfLessAndEq a.chars b.chars))

private theorem eq_of_compareOfLessAndEq {cs ds : List Char} (h : compareOfLessAndEq cs ds = .eq) : cs = ds := by
  rw [compareOfLessAndEq] at h
  split at h
  · cases h
  · split at h
    · assumption
    · cases h

/-- A component is determined by its rank and its characters. -/
private theorem eq_of_rank_of_chars {a b : Component} (hrank : a.rank = b.rank) (hchars : a.chars = b.chars) :
    a = b := by
  cases a <;> cases b <;> simp_all [rank, chars]

instance : Std.LawfulEqCmp Component.compare where
  compare_self := compare_self _
  eq_of_compare := by
    intro a b h
    obtain ⟨hrank, hchars⟩ := Ordering.then_eq_eq.1 h
    exact eq_of_rank_of_chars (Nat.compare_eq_eq.1 hrank) (eq_of_compareOfLessAndEq hchars)

end Component

namespace Path

instance : Std.TransCmp Path.compare :=
  have hlex : Std.TransCmp (List.compareLex Component.compare) := inferInstance
  { eq_swap := hlex.eq_swap
    isLE_trans := hlex.isLE_trans }

theorem compare_swap (p q : Path) : p.compare q = (q.compare p).swap :=
  Std.OrientedCmp.eq_swap

/-- Paths that compare as equal have the same components. -/
theorem compare_eq_eq_iff {p q : Path} : p.compare q = .eq ↔ p.components = q.components := by
  have hlex : Std.LawfulEqCmp (List.compareLex Component.compare) := inferInstance
  exact hlex.compare_eq_iff_eq

/-! ### Paths as seen from a root -/

variable {root : Path} {names names' : List String}

/-- Names in a row are the components of the path that they make up. -/
private theorem components_ofSegments (hne : names ≠ []) (h : ∀ n ∈ names, IsFileName n) :
    (ofSegments (names.map String.toList)).components = names.map fun n => .name n.toList := by
  have hpieces : Text.pieces '/' (Text.joinPieces '/' (names.map String.toList)) = names.map String.toList := by
    refine Text.pieces_joinPieces (mt List.map_eq_nil_iff.1 hne) fun cs hcs => ?_
    obtain ⟨n, hn, rfl⟩ := List.mem_map.1 hcs
    exact (h n hn).1
  have hsegments : (ofSegments (names.map String.toList)).segments = ⟨none, names.map String.toList⟩ := by
    obtain ⟨n, rest, rfl⟩ := List.exists_cons_of_ne_nil hne
    have hn := (h n List.mem_cons_self).2
    rw [segments, ofSegments, String.toList_ofList, hpieces, List.map_cons]
    split
    · simp_all
    · simp_all
    · rfl
  rw [components, hsegments, ← filterMap_ofSegment? h]
  rfl

/-- Seen from the root, paths are ordered as they are. -/
theorem compare_relativeTo_below (hroot : root.isAbsolute = true) (hne : names ≠ []) (hne' : names' ≠ [])
    (h : ∀ n ∈ names, IsFileName n) (h' : ∀ n ∈ names', IsFileName n) :
    ((root.below names).relativeTo root).compare ((root.below names').relativeTo root) =
      (root.below names).compare (root.below names') := by
  rw [compare_below hroot h h', relativeTo_below hroot hne h, relativeTo_below hroot hne' h', compare,
    components_ofSegments hne h, components_ofSegments hne' h']

/-- Paths below a root that compare as equal are reached by the same names. -/
theorem eq_of_compare_below (hroot : root.isAbsolute = true) (h : ∀ n ∈ names, IsFileName n)
    (h' : ∀ n ∈ names', IsFileName n) (heq : (root.below names).compare (root.below names') = .eq) :
    names = names' := by
  rw [compare_eq_eq_iff, components_below hroot h, components_below hroot h', List.append_cancel_left_eq] at heq
  exact (List.map_inj_right fun n m hnm => String.toList_inj.1 (Component.name.inj hnm)).1 heq

end Path

end IndentLint
