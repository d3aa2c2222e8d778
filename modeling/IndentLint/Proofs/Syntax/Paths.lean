import IndentLint.Proofs.Syntax.Positions

/-!
# Paths

The path of a position says for each node above it, from the root on, which child lies on the way down.  A position in
an element can be taken along when the element moves to another place (`exists_inner_of_mem_positionsAt`), and the
path determines the position (`eq_of_path_eq`).
-/

namespace IndentLint

namespace Cursor

/-- The numbers of the children on the way down to the place that some frames leave open. -/
def pathOfFrames (frames : List Frame) : List Nat :=
  (frames.map (·.before.length)).reverse

/-- The numbers of the children on the way down from the root. -/
def path (c : Cursor) : List Nat :=
  pathOfFrames c.frames

@[simp] theorem pathOfFrames_nil : pathOfFrames [] = [] := rfl

@[simp] theorem pathOfFrames_cons (f : Frame) (frames : List Frame) :
    pathOfFrames (f :: frames) = pathOfFrames frames ++ [f.before.length] := by
  simp [pathOfFrames]

@[simp] theorem pathOfFrames_append (inner outer : List Frame) :
    pathOfFrames (inner ++ outer) = pathOfFrames outer ++ pathOfFrames inner := by
  simp [pathOfFrames]

theorem pathOfFrames_eq_nil_iff {frames : List Frame} : pathOfFrames frames = [] ↔ frames = [] := by
  simp [pathOfFrames]

end Cursor

namespace Element

open Cursor

/-- A position in the children of a node is a position in one of them, which has its own frame. -/
theorem mem_positionsOfList {kind : Kind} {frames : List Frame} {start : Nat} {before es : List Element} {c : Cursor} :
    c ∈ positionsOfList kind frames start before es ↔ ∃ front e back, es = front ++ e :: back ∧
      c ∈ positionsAt (start + Text.byteLength (textOfList front)) (⟨kind, front.reverse ++ before, back⟩ :: frames) e := by
  induction es generalizing start before with
  | nil => simp [positionsOfList]
  | cons e es ih =>
    rw [positionsOfList, List.mem_append, ih]
    constructor
    · rintro (hc | ⟨front, d, back, rfl, hc⟩)
      · exact ⟨[], e, es, rfl, by simpa using hc⟩
      · refine ⟨e :: front, d, back, rfl, ?_⟩
        simpa [byteLength, Nat.add_assoc] using hc
    · rintro ⟨front, d, back, heq, hc⟩
      rcases front with _ | ⟨a, front⟩
      · obtain ⟨rfl, rfl⟩ := List.cons.inj heq
        exact Or.inl (by simpa using hc)
      · obtain ⟨rfl, rfl⟩ := List.cons.inj heq
        refine Or.inr ⟨front, d, back, rfl, ?_⟩
        simpa [byteLength, Nat.add_assoc] using hc

/-! ### Moving an element -/

mutual

/-- A position in an element lies below the frames of the element, and at the same place below any others. -/
theorem exists_inner_of_mem_positionsAt (e : Element) {start : Nat} {frames : List Frame} {c : Cursor}
    (hc : c ∈ positionsAt start frames e) :
    ∃ inner n, c.frames = inner ++ frames ∧ c.start = start + n ∧
      ∀ start' frames', ⟨c.element, start' + n, inner ++ frames'⟩ ∈ positionsAt start' frames' e := by
  match e with
  | token kind text =>
    obtain rfl := List.mem_singleton.1 hc
    exact ⟨[], 0, rfl, rfl, fun _ _ => List.mem_singleton_self _⟩
  | node kind es =>
    rw [positionsAt, List.mem_cons] at hc
    rcases hc with rfl | hc
    · exact ⟨[], 0, rfl, rfl, fun _ _ => List.mem_cons_self ..⟩
    · obtain ⟨inner, n, hframes, hstart, hmove⟩ := exists_inner_of_mem_positionsOfList es hc
      exact ⟨inner, n, hframes, hstart, fun start' frames' => List.mem_cons_of_mem _ (hmove start' frames')⟩

private theorem exists_inner_of_mem_positionsOfList (es : List Element) {kind : Kind} {frames : List Frame}
    {start : Nat} {before : List Element} {c : Cursor} (hc : c ∈ positionsOfList kind frames start before es) :
    ∃ inner n, c.frames = inner ++ frames ∧ c.start = start + n ∧
      ∀ start' frames', ⟨c.element, start' + n, inner ++ frames'⟩ ∈ positionsOfList kind frames' start' before es := by
  match es with
  | [] => simp [positionsOfList] at hc
  | e :: after =>
    rw [positionsOfList, List.mem_append] at hc
    rcases hc with hc | hc
    · obtain ⟨inner, n, hframes, hstart, hmove⟩ := exists_inner_of_mem_positionsAt e hc
      refine ⟨inner ++ [⟨kind, before, after⟩], n, by simp [hframes], hstart, fun start' frames' => ?_⟩
      rw [positionsOfList, List.mem_append, List.append_assoc]
      exact Or.inl (hmove start' _)
    · obtain ⟨inner, n, hframes, hstart, hmove⟩ := exists_inner_of_mem_positionsOfList after hc
      refine ⟨inner, e.byteLength + n, hframes, by omega, fun start' frames' => ?_⟩
      rw [positionsOfList, List.mem_append, ← Nat.add_assoc]
      exact Or.inr (hmove _ _)

end

/-! ### The path determines the position -/

theorem exists_path_of_mem_positionsOfList {kind : Kind} {frames : List Frame} {start : Nat}
    {before es : List Element} {c : Cursor} (hc : c ∈ positionsOfList kind frames start before es) :
    ∃ i p, before.length ≤ i ∧ c.path = pathOfFrames frames ++ i :: p := by
  obtain ⟨front, e, back, -, hc⟩ := mem_positionsOfList.1 hc
  obtain ⟨inner, n, hframes, -⟩ := exists_inner_of_mem_positionsAt e hc
  exact ⟨front.length + before.length, pathOfFrames inner, by omega, by simp [path, hframes]⟩

mutual

private theorem eq_of_path_eq_positionsAt (e : Element) {start : Nat} {frames : List Frame} {c d : Cursor}
    (hc : c ∈ positionsAt start frames e) (hd : d ∈ positionsAt start frames e) (h : c.path = d.path) : c = d := by
  match e with
  | token kind text =>
    rw [List.mem_singleton.1 hc, List.mem_singleton.1 hd]
  | node kind es =>
    -- the path of a child is longer than that of the node itself
    have hlonger : ∀ x ∈ positionsOfList kind frames start [] es, x.path ≠ pathOfFrames frames := by
      intro x hx heq
      obtain ⟨i, p, -, hpath⟩ := exists_path_of_mem_positionsOfList hx
      rw [heq] at hpath
      simp at hpath
    rw [positionsAt, List.mem_cons] at hc hd
    rcases hc with rfl | hc <;> rcases hd with rfl | hd
    · rfl
    · exact absurd h.symm (hlonger d hd)
    · exact absurd h (hlonger c hc)
    · exact eq_of_path_eq_positionsOfList es hc hd h

private theorem eq_of_path_eq_positionsOfList (es : List Element) {kind : Kind} {frames : List Frame} {start : Nat}
    {before : List Element} {c d : Cursor} (hc : c ∈ positionsOfList kind frames start before es)
    (hd : d ∈ positionsOfList kind frames start before es) (h : c.path = d.path) : c = d := by
  match es with
  | [] => simp [positionsOfList] at hc
  | e :: after =>
    -- the paths into the first child and into the later ones part at this node
    have hparts : ∀ x ∈ positionsAt start (⟨kind, before, after⟩ :: frames) e,
        ∀ y ∈ positionsOfList kind frames (start + e.byteLength) (e :: before) after, x.path ≠ y.path := by
      intro x hx y hy heq
      obtain ⟨inner, n, hframes, -⟩ := exists_inner_of_mem_positionsAt e hx
      obtain ⟨i, p, hi, hpath⟩ := exists_path_of_mem_positionsOfList hy
      rw [← heq, path, hframes, pathOfFrames_append, pathOfFrames_cons, List.append_assoc] at hpath
      have hhead : before.length = i := (List.cons.inj (List.append_cancel_left hpath)).1
      rw [← hhead, List.length_cons] at hi
      omega
    rw [positionsOfList, List.mem_append] at hc hd
    rcases hc with hc | hc <;> rcases hd with hd | hd
    · exact eq_of_path_eq_positionsAt e hc hd h
    · exact absurd h (hparts c hc d hd)
    · exact absurd h.symm (hparts d hd c hc)
    · exact eq_of_path_eq_positionsOfList after hc hd h

end

/-- Two positions of a tree with the same path are the same. -/
theorem eq_of_path_eq {root : Element} {c d : Cursor} (hc : c ∈ root.positions) (hd : d ∈ root.positions)
    (h : c.path = d.path) : c = d :=
  eq_of_path_eq_positionsAt root hc hd h

end Element

end IndentLint
