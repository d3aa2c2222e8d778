import IndentLint.Syntax.Cursor

/-!
# Everything below an element

The elements below an element, itself among them, without their places.  What holds of all of them holds at every
position (`element_mem_subelements`), and so does what holds of all their leaves.
-/

namespace IndentLint.Element

mutual

/-- An element and everything below it, in document order. -/
def subelements : Element → List Element
  | token kind text => [token kind text]
  | node kind es => node kind es :: subelementsOfList es

/-- Several elements and everything below them, in document order. -/
def subelementsOfList : List Element → List Element
  | [] => []
  | e :: es => subelements e ++ subelementsOfList es

end

theorem subelementsOfList_append (es fs : List Element) :
    subelementsOfList (es ++ fs) = subelementsOfList es ++ subelementsOfList fs := by
  induction es with
  | nil => rfl
  | cons e es ih => simp [subelementsOfList, ih]

mutual

private theorem token_mem_subelements (e : Element) {l : Leaf} (hl : l ∈ e.leaves) :
    token l.kind l.text ∈ e.subelements := by
  match e with
  | token kind text =>
    rw [leaves, List.mem_singleton] at hl
    subst hl
    exact List.mem_singleton_self _
  | node kind es =>
    rw [leaves] at hl
    exact List.mem_cons_of_mem _ (token_mem_subelementsOfList es hl)

theorem token_mem_subelementsOfList (es : List Element) {l : Leaf} (hl : l ∈ leavesOfList es) :
    token l.kind l.text ∈ subelementsOfList es := by
  match es with
  | [] => simp [leavesOfList] at hl
  | e :: es =>
    rw [leavesOfList, List.mem_append] at hl
    rw [subelementsOfList, List.mem_append]
    rcases hl with hl | hl
    · exact Or.inl (token_mem_subelements e hl)
    · exact Or.inr (token_mem_subelementsOfList es hl)

end

mutual

private theorem mem_leaves_of_mem_subelements (e : Element) {d : Element} (hd : d ∈ e.subelements) {l : Leaf}
    (hl : l ∈ d.leaves) : l ∈ e.leaves := by
  match e with
  | token kind text =>
    obtain rfl := List.mem_singleton.1 hd
    exact hl
  | node kind es =>
    rw [subelements, List.mem_cons] at hd
    rcases hd with rfl | hd
    · exact hl
    · exact mem_leavesOfList_of_mem_subelements es hd hl

theorem mem_leavesOfList_of_mem_subelements (es : List Element) {d : Element} (hd : d ∈ subelementsOfList es)
    {l : Leaf} (hl : l ∈ d.leaves) : l ∈ leavesOfList es := by
  match es with
  | [] => simp [subelementsOfList] at hd
  | e :: es =>
    rw [subelementsOfList, List.mem_append] at hd
    rw [leavesOfList, List.mem_append]
    rcases hd with hd | hd
    · exact Or.inl (mem_leaves_of_mem_subelements e hd hl)
    · exact Or.inr (mem_leavesOfList_of_mem_subelements es hd hl)

end

mutual

theorem element_mem_subelements (e : Element) {start : Nat} {frames : List Frame} {c : Cursor}
    (hc : c ∈ positionsAt start frames e) : c.element ∈ e.subelements := by
  match e with
  | token kind text =>
    obtain rfl := List.mem_singleton.1 hc
    exact List.mem_singleton_self _
  | node kind es =>
    rw [positionsAt, List.mem_cons] at hc
    rcases hc with rfl | hc
    · exact List.mem_cons_self ..
    · exact List.mem_cons_of_mem _ (element_mem_subelementsOfList es hc)

theorem element_mem_subelementsOfList (es : List Element) {kind : Kind} {frames : List Frame} {start : Nat}
    {before : List Element} {c : Cursor} (hc : c ∈ positionsOfList kind frames start before es) :
    c.element ∈ subelementsOfList es := by
  match es with
  | [] => simp [positionsOfList] at hc
  | e :: es =>
    rw [positionsOfList, List.mem_append] at hc
    rw [subelementsOfList, List.mem_append]
    rcases hc with hc | hc
    · exact Or.inl (element_mem_subelements e hc)
    · exact Or.inr (element_mem_subelementsOfList es hc)

end

/-- What stands at a position below the root is below the root. -/
theorem element_mem_of_frames_ne_nil {kind : Kind} {es : List Element} {c : Cursor}
    (hc : c ∈ (node kind es).positions) (hframes : c.frames ≠ []) : c.element ∈ subelementsOfList es := by
  rw [positions, positionsAt, List.mem_cons] at hc
  rcases hc with rfl | hc
  · exact absurd rfl hframes
  · exact element_mem_subelementsOfList es hc

end IndentLint.Element
