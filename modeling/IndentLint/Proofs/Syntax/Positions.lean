import IndentLint.Proofs.Text.Lines
import IndentLint.Syntax.Cursor

/-!
# Where the tokens of a tree lie

Every position of a tree divides the text of the tree into what comes before the element, the text of the element and
what comes after it, and the position starts at as many bytes as come before it (`text_eq_of_mem_positions`).  The
tokens in document order are the leaves, each starting where the one before it ends (`map_placedLeaf_tokens`).  So the
line starts inside the tokens are, in document order, the line starts of the whole text
(`flatMap_lineStarts_tokens`).
-/

namespace IndentLint

namespace Element

/-! ### Texts -/

@[simp] theorem text_token (kind : Kind) (text : List Char) : (token kind text).text = text := by
  simp [Element.text, leaves]

@[simp] theorem text_node (kind : Kind) (es : List Element) : (node kind es).text = textOfList es := by
  simp [Element.text, textOfList, leaves]

@[simp] theorem textOfList_nil : textOfList [] = [] := rfl

@[simp] theorem textOfList_cons (e : Element) (es : List Element) :
    textOfList (e :: es) = e.text ++ textOfList es := by
  simp [Element.text, textOfList, leavesOfList]

@[simp] theorem leavesOfList_append (es fs : List Element) :
    leavesOfList (es ++ fs) = leavesOfList es ++ leavesOfList fs := by
  induction es with
  | nil => rfl
  | cons e es ih => simp [leavesOfList, ih]

@[simp] theorem textOfList_append (es fs : List Element) :
    textOfList (es ++ fs) = textOfList es ++ textOfList fs := by
  simp [textOfList]

theorem byteLength_textOfList_reverse (es : List Element) :
    Text.byteLength (textOfList es.reverse) = Text.byteLength (textOfList es) := by
  induction es with
  | nil => rfl
  | cons e es ih =>
    rw [List.reverse_cons, textOfList_append, textOfList_cons, Text.byteLength_append, Text.byteLength_append, ih]
    simp [Nat.add_comm]

end Element

/-! ### The text around a position -/

namespace Cursor

/-- The text before the place that some frames leave open. -/
def textBeforeFrames : List Frame → List Char
  | [] => []
  | f :: frames => textBeforeFrames frames ++ Element.textOfList f.before.reverse

/-- The text after the place that some frames leave open. -/
def textAfterFrames : List Frame → List Char
  | [] => []
  | f :: frames => Element.textOfList f.after ++ textAfterFrames frames

/-- The text of the tree before the element. -/
def textBefore (c : Cursor) : List Char :=
  textBeforeFrames c.frames

/-- The text of the tree after the element. -/
def textAfter (c : Cursor) : List Char :=
  textAfterFrames c.frames

end Cursor

namespace Element

open Cursor

mutual

private theorem placed_of_mem_positionsAt (e : Element) {start : Nat} (frames : List Frame) {c : Cursor}
    (hstart : Text.byteLength (textBeforeFrames frames) = start) (hc : c ∈ positionsAt start frames e) :
    textBeforeFrames frames ++ (e.text ++ textAfterFrames frames) =
        c.textBefore ++ (c.element.text ++ c.textAfter) ∧
      Text.byteLength c.textBefore = c.start := by
  match e with
  | token kind text =>
    rw [positionsAt, List.mem_singleton] at hc
    subst hc
    exact ⟨rfl, hstart⟩
  | node kind es =>
    rw [positionsAt, List.mem_cons] at hc
    rcases hc with rfl | hc
    · exact ⟨rfl, hstart⟩
    · have h := placed_of_mem_positionsOfList es frames [] (by simpa using hstart) hc
      simpa using h

private theorem placed_of_mem_positionsOfList (es : List Element) {kind : Kind} {start : Nat} (frames : List Frame)
    (before : List Element) {c : Cursor}
    (hstart : Text.byteLength (textBeforeFrames frames ++ textOfList before.reverse) = start)
    (hc : c ∈ positionsOfList kind frames start before es) :
    textBeforeFrames frames ++ (textOfList before.reverse ++ (textOfList es ++ textAfterFrames frames)) =
        c.textBefore ++ (c.element.text ++ c.textAfter) ∧
      Text.byteLength c.textBefore = c.start := by
  match es with
  | [] => simp [positionsOfList] at hc
  | e :: after =>
    rw [positionsOfList, List.mem_append] at hc
    rcases hc with hc | hc
    -- the frame of `e` opens the place between the elements before it and after it
    · have h := placed_of_mem_positionsAt e (⟨kind, before, after⟩ :: frames) hstart hc
      simpa [textBeforeFrames, textAfterFrames] using h
    · have hnext : Text.byteLength (textBeforeFrames frames ++ textOfList (e :: before).reverse) =
          start + e.byteLength := by
        rw [← hstart, List.reverse_cons, textOfList_append, ← List.append_assoc, Text.byteLength_append]
        simp [byteLength]
      have h := placed_of_mem_positionsOfList after frames (e :: before) hnext hc
      simpa using h

end

/-- A position divides the text of the tree, and starts at as many bytes as come before it. -/
theorem text_eq_of_mem_positions {root : Element} {c : Cursor} (hc : c ∈ root.positions) :
    root.text = c.textBefore ++ (c.element.text ++ c.textAfter) ∧ Text.byteLength c.textBefore = c.start := by
  have h := placed_of_mem_positionsAt root [] rfl hc
  simpa [textBeforeFrames, textAfterFrames] using h

end Element

/-! ### Tokens and leaves -/

namespace Leaf

/-- The bytes at which leaves in a row start, the first of them at byte `start`. -/
def placeFrom (start : Nat) : List Leaf → List (Nat × Leaf)
  | [] => []
  | l :: ls => (start, l) :: placeFrom (start + Text.byteLength l.text) ls

private theorem placeFrom_append (start : Nat) (ls ms : List Leaf) :
    placeFrom start (ls ++ ms) =
      placeFrom start ls ++ placeFrom (start + Text.byteLength (ls.flatMap (·.text))) ms := by
  induction ls generalizing start with
  | nil => rfl
  | cons l ls ih => simp [placeFrom, ih, Nat.add_assoc]

private theorem map_snd_placeFrom (start : Nat) (ls : List Leaf) : (placeFrom start ls).map (·.2) = ls := by
  induction ls generalizing start with
  | nil => rfl
  | cons l ls ih => simp [placeFrom, ih]

private theorem length_placeFrom (start : Nat) (ls : List Leaf) : (placeFrom start ls).length = ls.length := by
  conv => rhs; rw [← map_snd_placeFrom start ls, List.length_map]

private theorem flatMap_lineStarts_placeFrom (start : Nat) (ls : List Leaf) :
    (placeFrom start ls).flatMap (fun p => Text.lineStartsFrom p.1 p.2.text) =
      Text.lineStartsFrom start (ls.flatMap (·.text)) := by
  induction ls generalizing start with
  | nil => rfl
  | cons l ls ih => rw [placeFrom, List.flatMap_cons, List.flatMap_cons, ih, Text.lineStartsFrom_append]

end Leaf

/-- The byte at which the element starts, and its kind and text as those of a leaf. -/
def Cursor.placedLeaf (c : Cursor) : Nat × Leaf :=
  (c.start, ⟨c.kind, c.element.text⟩)

namespace Element

mutual

private theorem map_placedLeaf_positionsAt (e : Element) (start : Nat) (frames : List Frame) :
    ((positionsAt start frames e).filter fun c => !c.element.isNode).map Cursor.placedLeaf =
      Leaf.placeFrom start e.leaves := by
  match e with
  | token kind text =>
    simp only [positionsAt, isNode, Bool.not_false, List.filter_cons_of_pos, List.filter_nil, List.map_cons,
      List.map_nil, leaves, Leaf.placeFrom, Cursor.placedLeaf, text_token]
    rfl
  | node kind es =>
    rw [positionsAt, List.filter_cons_of_neg (by simp [isNode])]
    exact map_placedLeaf_positionsOfList es kind frames start []

private theorem map_placedLeaf_positionsOfList (es : List Element) (kind : Kind) (frames : List Frame) (start : Nat)
    (before : List Element) :
    ((positionsOfList kind frames start before es).filter fun c => !c.element.isNode).map Cursor.placedLeaf =
      Leaf.placeFrom start (leavesOfList es) := by
  match es with
  | [] => rfl
  | e :: after =>
    rw [positionsOfList, List.filter_append, List.map_append, leavesOfList, Leaf.placeFrom_append,
      map_placedLeaf_positionsAt e, map_placedLeaf_positionsOfList after]
    rfl

end

/-- The tokens in document order are the leaves, each starting where the one before it ends. -/
theorem map_placedLeaf_tokens (root : Element) :
    root.tokens.map Cursor.placedLeaf = Leaf.placeFrom 0 root.leaves :=
  map_placedLeaf_positionsAt root 0 []

theorem leaves_eq_of_tokens_eq {root : Element} {front back : List Cursor} {c : Cursor}
    (h : root.tokens = front ++ c :: back) :
    root.leaves = front.map (·.placedLeaf.2) ++ c.placedLeaf.2 :: back.map (·.placedLeaf.2) := by
  rw [← Leaf.map_snd_placeFrom 0 root.leaves, ← map_placedLeaf_tokens, h, List.map_map, List.map_append]
  rfl

/-- What the tokens before a token hold is what comes before it. -/
theorem start_eq_of_tokens_eq {root : Element} {front back : List Cursor} {c : Cursor}
    (h : root.tokens = front ++ c :: back) :
    root.text = front.flatMap (·.element.text) ++ (c.element.text ++ back.flatMap (·.element.text)) ∧
      c.start = Text.byteLength (front.flatMap (·.element.text)) := by
  have hplace := map_placedLeaf_tokens root
  have hleaves := leaves_eq_of_tokens_eq h
  constructor
  · simp [Element.text, hleaves, Cursor.placedLeaf, List.flatMap_map]
  · rw [h, hleaves, List.map_append, Leaf.placeFrom_append] at hplace
    have hlen : (front.map Cursor.placedLeaf).length =
        (Leaf.placeFrom 0 (front.map (·.placedLeaf.2))).length := by
      rw [Leaf.length_placeFrom, List.length_map, List.length_map]
    have hc := List.head_eq_of_cons_eq (List.append_inj hplace hlen).2
    simpa [Cursor.placedLeaf, List.flatMap_map] using congrArg Prod.fst hc

/-- The line starts inside the tokens are the line starts of the text, in the same order. -/
theorem flatMap_lineStarts_tokens (root : Element) :
    root.tokens.flatMap (fun c => Text.lineStartsFrom c.start c.element.text) = Text.lineStartsFrom 0 root.text := by
  rw [Element.text, ← Leaf.flatMap_lineStarts_placeFrom, ← map_placedLeaf_tokens, List.flatMap_map]
  rfl

end Element

end IndentLint
