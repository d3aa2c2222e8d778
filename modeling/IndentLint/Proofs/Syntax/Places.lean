import IndentLint.Proofs.Syntax.Paths
import Mathlib.Data.List.Induction

/-!
# Places in a tree

An element and its frames hold the whole tree around it, so a cursor is a position of a tree just if this tree is the
one that it holds and it starts at as many bytes as come before it (`mem_positions_iff`).  In document order the paths
of the positions increase, which is to say that a node comes before what is below it and a child before its later
siblings (`pairwise_path_positions`).  The nodes above an element are at the beginnings of its path
(`mem_map_path_ancestors`).
-/

namespace IndentLint

namespace Cursor

/-- An element with frames put back around it. -/
def refill (e : Element) (frames : List Frame) : Element :=
  frames.foldl (fun e f => f.fill e) e

/-- The tree in which the element stands. -/
def tree (c : Cursor) : Element :=
  refill c.element c.frames

private theorem refill_nil (e : Element) : refill e [] = e := rfl

theorem refill_cons (e : Element) (f : Frame) (frames : List Frame) :
    refill e (f :: frames) = refill (f.fill e) frames :=
  rfl

theorem refill_append (e : Element) (inner outer : List Frame) :
    refill e (inner ++ outer) = refill (refill e inner) outer :=
  List.foldl_append

private theorem textBeforeFrames_append (inner outer : List Frame) :
    textBeforeFrames (inner ++ outer) = textBeforeFrames outer ++ textBeforeFrames inner := by
  induction inner with
  | nil => simp [textBeforeFrames]
  | cons f inner ih => rw [List.cons_append, textBeforeFrames, textBeforeFrames, ih, List.append_assoc]

end Cursor

namespace Element

open Cursor

/-! ### Positions and the trees they hold -/

mutual

private theorem refill_of_mem_positionsAt (e : Element) {start : Nat} {frames : List Frame} {c : Cursor}
    (hc : c ∈ positionsAt start frames e) : ∃ inner, c.frames = inner ++ frames ∧ refill c.element inner = e := by
  match e with
  | token kind text =>
    obtain rfl := List.mem_singleton.1 hc
    exact ⟨[], rfl, rfl⟩
  | node kind es =>
    rw [positionsAt, List.mem_cons] at hc
    rcases hc with rfl | hc
    · exact ⟨[], rfl, rfl⟩
    · exact refill_of_mem_positionsOfList es hc

private theorem refill_of_mem_positionsOfList (es : List Element) {kind : Kind} {frames : List Frame} {start : Nat}
    {before : List Element} {c : Cursor} (hc : c ∈ positionsOfList kind frames start before es) :
    ∃ inner, c.frames = inner ++ frames ∧ refill c.element inner = node kind (before.reverse ++ es) := by
  match es with
  | [] => simp [positionsOfList] at hc
  | e :: after =>
    rw [positionsOfList, List.mem_append] at hc
    rcases hc with hc | hc
    · obtain ⟨inner, hframes, hrefill⟩ := refill_of_mem_positionsAt e hc
      refine ⟨inner ++ [⟨kind, before, after⟩], by simp [hframes], ?_⟩
      rw [refill_append, hrefill]
      rfl
    · obtain ⟨inner, hframes, hrefill⟩ := refill_of_mem_positionsOfList after hc
      exact ⟨inner, hframes, by simpa using hrefill⟩

end

/-- An element has a position in what its inner frames make of it. -/
private theorem mem_positionsAt_refill (e : Element) (inner frames : List Frame) (start : Nat) :
    ⟨e, start + Text.byteLength (textBeforeFrames inner), inner ++ frames⟩ ∈
      positionsAt start frames (refill e inner) := by
  induction inner using List.reverseRecOn generalizing start frames with
  | nil =>
    cases e with
    | token kind text => exact List.mem_singleton_self _
    | node kind es => exact List.mem_cons_self ..
  | append_singleton inner f ih =>
    have h := ih (f :: frames) (start + Text.byteLength (textOfList f.before.reverse))
    rw [refill_append, refill_cons, refill_nil, Frame.fill, positionsAt, List.mem_cons, mem_positionsOfList]
    refine Or.inr ⟨f.before.reverse, refill e inner, f.after, rfl, ?_⟩
    rw [textBeforeFrames_append, List.append_assoc, Text.byteLength_append, ← Nat.add_assoc]
    simpa [textBeforeFrames] using h

/-- A cursor is a position of the tree that it holds, and of no other. -/
theorem mem_positions_iff {root : Element} {c : Cursor} :
    c ∈ root.positions ↔ c.tree = root ∧ c.start = Text.byteLength c.textBefore := by
  constructor
  · intro hc
    obtain ⟨inner, hframes, hrefill⟩ := refill_of_mem_positionsAt root hc
    refine ⟨?_, (text_eq_of_mem_positions hc).2.symm⟩
    rw [tree, hframes, List.append_nil, hrefill]
  · rintro ⟨htree, hstart⟩
    have h := mem_positionsAt_refill c.element c.frames [] 0
    rw [Nat.zero_add, List.append_nil] at h
    rw [positions, ← htree, tree]
    unfold textBefore at hstart
    rw [← hstart] at h
    exact h

/-! ### Document order -/

mutual

private theorem pairwise_path_positionsAt (e : Element) (start : Nat) (frames : List Frame) :
    (positionsAt start frames e).Pairwise fun c d => c.path < d.path := by
  match e with
  | token kind text => exact List.pairwise_singleton _ _
  | node kind es =>
    rw [positionsAt, List.pairwise_cons]
    refine ⟨fun d hd => ?_, pairwise_path_positionsOfList es kind frames start []⟩
    obtain ⟨i, p, -, hpath⟩ := exists_path_of_mem_positionsOfList hd
    have hlt : pathOfFrames frames ++ [] < pathOfFrames frames ++ i :: p := List.append_left_lt (List.nil_lt_cons i p)
    rw [List.append_nil] at hlt
    rw [hpath]
    exact hlt

private theorem pairwise_path_positionsOfList (es : List Element) (kind : Kind) (frames : List Frame) (start : Nat)
    (before : List Element) : (positionsOfList kind frames start before es).Pairwise fun c d => c.path < d.path := by
  match es with
  | [] => exact List.Pairwise.nil
  | e :: after =>
    rw [positionsOfList, List.pairwise_append]
    refine ⟨pairwise_path_positionsAt e _ _, pairwise_path_positionsOfList after _ _ _ _, fun c hc d hd => ?_⟩
    obtain ⟨inner, n, hframes, -⟩ := exists_inner_of_mem_positionsAt e hc
    obtain ⟨i, p, hi, hpath⟩ := exists_path_of_mem_positionsOfList hd
    have hhead : before.length < i := hi
    rw [hpath, path, hframes, pathOfFrames_append, pathOfFrames_cons, List.append_assoc]
    exact List.append_left_lt (List.cons_lt_cons_iff.2 (Or.inl hhead))

end

theorem pairwise_path_positions (root : Element) : root.positions.Pairwise fun c d => c.path < d.path :=
  pairwise_path_positionsAt root 0 []

/-- Of two tokens the one that comes later in document order has the greater path. -/
theorem path_lt_of_tokens_eq {root : Element} {front back : List Cursor} {a : Cursor}
    (h : root.tokens = front ++ a :: back) : (∀ b ∈ front, b.path < a.path) ∧ ∀ b ∈ back, a.path < b.path := by
  have hpairwise : (front ++ a :: back).Pairwise fun c d => c.path < d.path :=
    h ▸ (pairwise_path_positions root).filter _
  rw [List.pairwise_append, List.pairwise_cons] at hpairwise
  obtain ⟨-, ⟨hback, -⟩, hfront⟩ := hpairwise
  exact ⟨fun b hb => hfront b hb a List.mem_cons_self, hback⟩

end Element

/-! ### The nodes above an element -/

namespace Cursor

/-- The element `a` comes before `n` among the children of one node. -/
def IsEarlierSibling (a n : Cursor) : Prop :=
  ∃ around i j, a.path = around ++ [i] ∧ n.path = around ++ [j] ∧ i < j

/-- The element `a` lies below `b`. -/
def IsBelow (a b : Cursor) : Prop :=
  ∃ i below, a.path = b.path ++ i :: below

theorem concat_eq_append_cons_iff {xs ys zs : List Nat} {i j : Nat} :
    xs ++ [i] = ys ++ j :: zs ↔ (xs = ys ∧ i = j ∧ zs = []) ∨ ∃ mid, zs = mid ++ [i] ∧ xs = ys ++ j :: mid := by
  rcases List.eq_nil_or_concat zs with rfl | ⟨mid, k, rfl⟩
  · simp
  · have hassoc : ys ++ j :: (mid ++ [k]) = (ys ++ j :: mid) ++ [k] := by simp
    rw [List.concat_eq_append, hassoc, List.append_singleton_inj]
    constructor
    · rintro ⟨rfl, rfl⟩
      exact Or.inr ⟨mid, rfl, rfl⟩
    · rintro (⟨-, -, hnil⟩ | ⟨mid', hmid, rfl⟩)
      · simp at hnil
      · obtain ⟨rfl, rfl⟩ := List.append_singleton_inj.1 hmid
        exact ⟨rfl, rfl⟩

private theorem mem_map_path_ancestorsFrom {e : Element} {start : Nat} {frames : List Frame} {p : List Nat} :
    p ∈ (ancestorsFrom e start frames).map path ↔ ∃ i below, pathOfFrames frames = p ++ i :: below := by
  induction frames generalizing e start with
  | nil => simp [ancestorsFrom]
  | cons f frames ih =>
    rw [ancestorsFrom, List.map_cons, List.mem_cons, ih, pathOfFrames_cons]
    constructor
    · rintro (rfl | ⟨i, below, h⟩)
      · exact ⟨f.before.length, [], rfl⟩
      · exact ⟨i, below ++ [f.before.length], by simp [h]⟩
    · rintro ⟨i, below, h⟩
      rcases concat_eq_append_cons_iff.1 h with ⟨h, -, -⟩ | ⟨mid, -, h⟩
      · exact Or.inl h.symm
      · exact Or.inr ⟨i, mid, h⟩

/-- The nodes above an element are at the beginnings of its path. -/
theorem mem_map_path_ancestors {c : Cursor} {p : List Nat} :
    p ∈ c.ancestors.map path ↔ ∃ i below, c.path = p ++ i :: below :=
  mem_map_path_ancestorsFrom

variable {root : Element}

private theorem mem_positions_of_mem_ancestorsFrom {e : Element} {start : Nat} {frames : List Frame}
    (hc : ⟨e, start, frames⟩ ∈ root.positions) {n : Cursor} (hn : n ∈ ancestorsFrom e start frames) :
    n ∈ root.positions ∧ n.element.isNode = true := by
  induction frames generalizing e start with
  | nil => exact absurd hn List.not_mem_nil
  | cons f frames ih =>
    have hparent : ⟨f.fill e, start - f.bytesBefore, frames⟩ ∈ root.positions := by
      obtain ⟨htree, hstart⟩ := Element.mem_positions_iff.1 hc
      refine Element.mem_positions_iff.2 ⟨htree, ?_⟩
      have hsum : start = Text.byteLength (textBeforeFrames frames ++ Element.textOfList f.before.reverse) := hstart
      show start - f.bytesBefore = Text.byteLength (textBeforeFrames frames)
      rw [hsum, Frame.bytesBefore, Text.byteLength_append, Element.byteLength_textOfList_reverse, Nat.add_sub_cancel]
    rw [ancestorsFrom, List.mem_cons] at hn
    rcases hn with rfl | hn
    · exact ⟨hparent, rfl⟩
    · exact ih hparent hn

theorem mem_positions_of_mem_ancestors {c n : Cursor} (hc : c ∈ root.positions) (hn : n ∈ c.ancestors) :
    n ∈ root.positions ∧ n.element.isNode = true :=
  mem_positions_of_mem_ancestorsFrom hc hn

theorem not_isBelow_token {a c : Cursor} (ha : a ∈ root.tokens) (hc : c ∈ root.positions) : ¬ c.IsBelow a := by
  intro hbelow
  obtain ⟨n, hn, hpath⟩ := List.mem_map.1 (mem_map_path_ancestors.2 hbelow)
  obtain ⟨hnpos, hnode⟩ := mem_positions_of_mem_ancestors hc hn
  obtain ⟨hapos, htoken⟩ := List.mem_filter.1 ha
  rw [Element.eq_of_path_eq hnpos hapos hpath] at hnode
  simp [hnode] at htoken

/-- The last number of a path is the number of the earlier siblings. -/
theorem exists_frame_of_path_eq {c : Cursor} {around : List Nat} {i : Nat} (h : c.path = around ++ [i]) :
    ∃ f outer, c.frames = f :: outer ∧ pathOfFrames outer = around ∧ f.before.length = i := by
  rw [path] at h
  cases hframes : c.frames with
  | nil =>
    rw [hframes] at h
    simp at h
  | cons f outer =>
    rw [hframes, pathOfFrames_cons] at h
    obtain ⟨hpath, hlength⟩ := List.append_singleton_inj.1 h
    exact ⟨f, outer, rfl, hpath, hlength⟩

/-- An element that comes before another child of the same node has a sibling just after it. -/
theorem exists_nextSibling? {a n : Cursor} (ha : a ∈ root.positions) (hn : n ∈ root.positions)
    (h : a.IsEarlierSibling n) : ∃ e, a.nextSibling? = some e := by
  obtain ⟨around, i, j, hai, hnj, hlt⟩ := h
  obtain ⟨f, outer, hf, hpath, rfl⟩ := exists_frame_of_path_eq hai
  obtain ⟨g, outer', hg, hpath', rfl⟩ := exists_frame_of_path_eq hnj
  have hparent : ⟨f.fill a.element, a.start - f.bytesBefore, outer⟩ ∈ a.ancestors := by
    rw [ancestors, hf]
    exact List.mem_cons_self
  have hparent' : ⟨g.fill n.element, n.start - g.bytesBefore, outer'⟩ ∈ n.ancestors := by
    rw [ancestors, hg]
    exact List.mem_cons_self
  -- both have the same parent, and so it has a child after the first of them
  have hsame := Element.eq_of_path_eq (mem_positions_of_mem_ancestors ha hparent).1
    (mem_positions_of_mem_ancestors hn hparent').1 (hpath.trans hpath'.symm)
  have hchildren := (Element.node.inj (congrArg element hsame)).2
  rw [nextSibling?, hf]
  cases hafter : f.after with
  | nil =>
    have hlength := congrArg List.length hchildren
    simp [hafter] at hlength
    omega
  | cons e after => exact ⟨e, by simp [hafter]⟩

end Cursor

end IndentLint
