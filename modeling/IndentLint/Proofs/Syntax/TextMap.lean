import IndentLint.Proofs.Syntax.Positions
import IndentLint.Syntax.Column

/-!
# Changing the texts of all tokens

A function on texts changes a tree token by token and leaves its shape alone.  So the positions of the new tree are
those of the old one, with the texts around them changed too (`positions_mapText`), and every step from a position to
its neighbours is the same in both trees.  A function that changes a text only before its last line changes no column
(`startColumn_mapText`).
-/

namespace IndentLint

namespace Element

mutual

/-- Changes the text of every token. -/
def mapText (f : List Char → List Char) : Element → Element
  | token kind text => token kind (f text)
  | node kind es => node kind (mapTextOfList f es)

/-- Changes the text of every token of several elements. -/
def mapTextOfList (f : List Char → List Char) : List Element → List Element
  | [] => []
  | e :: es => mapText f e :: mapTextOfList f es

end

variable (f : List Char → List Char)

private theorem mapTextOfList_eq_map (es : List Element) : mapTextOfList f es = es.map (mapText f) := by
  induction es with
  | nil => rfl
  | cons e es ih => rw [mapTextOfList, ih, List.map_cons]

@[simp] theorem mapText_token (kind : Kind) (text : List Char) : (token kind text).mapText f = token kind (f text) := rfl

@[simp] theorem mapText_node (kind : Kind) (es : List Element) :
    (node kind es).mapText f = node kind (es.map (mapText f)) := by
  rw [mapText, mapTextOfList_eq_map]

@[simp] theorem kind_mapText (e : Element) : (e.mapText f).kind = e.kind := by
  cases e <;> rfl

@[simp] theorem isNode_mapText (e : Element) : (e.mapText f).isNode = e.isNode := by
  cases e <;> rfl

end Element

/-- Changes the text of every token of the siblings. -/
def Frame.mapText (f : List Char → List Char) (frame : Frame) : Frame :=
  ⟨frame.kind, frame.before.map (Element.mapText f), frame.after.map (Element.mapText f)⟩

/-- The same position when the text of every token of the tree is changed. -/
def Cursor.mapText (f : List Char → List Char) (c : Cursor) : Cursor :=
  ⟨c.element.mapText f, Text.byteLength (Cursor.textBeforeFrames (c.frames.map (Frame.mapText f))),
    c.frames.map (Frame.mapText f)⟩

variable (f : List Char → List Char)

namespace Element

open Cursor

mutual

private theorem positionsAt_mapText (e : Element) (frames : List Frame) (start start' : Nat)
    (hstart : Text.byteLength (textBeforeFrames (frames.map (Frame.mapText f))) = start') :
    positionsAt start' (frames.map (Frame.mapText f)) (e.mapText f) =
      (positionsAt start frames e).map (Cursor.mapText f) := by
  match e with
  | token kind text =>
    rw [mapText_token, positionsAt, positionsAt, ← hstart]
    rfl
  | node kind es =>
    have h := positionsOfList_mapText es kind frames start start' [] (by simpa using hstart)
    rw [mapText_node, positionsAt, positionsAt, List.map_cons, ← h, ← hstart, Cursor.mapText, mapText_node]
    rfl

private theorem positionsOfList_mapText (es : List Element) (kind : Kind) (frames : List Frame)
    (start start' : Nat) (before : List Element)
    (hstart : Text.byteLength (textBeforeFrames (frames.map (Frame.mapText f)) ++
      textOfList (before.map (mapText f)).reverse) = start') :
    positionsOfList kind (frames.map (Frame.mapText f)) start' (before.map (mapText f)) (es.map (mapText f)) =
      (positionsOfList kind frames start before es).map (Cursor.mapText f) := by
  match es with
  | [] => rfl
  | e :: after =>
    have hfirst := positionsAt_mapText e (⟨kind, before, after⟩ :: frames) start start' hstart
    have hnext : Text.byteLength (textBeforeFrames (frames.map (Frame.mapText f)) ++
        textOfList ((e :: before).map (mapText f)).reverse) = start' + (e.mapText f).byteLength := by
      rw [← hstart, List.map_cons, List.reverse_cons, textOfList_append, ← List.append_assoc, Text.byteLength_append]
      simp [byteLength]
    have hafter := positionsOfList_mapText after kind frames (start + e.byteLength) _ (e :: before) hnext
    rw [positionsOfList, List.map_append, ← hfirst, ← hafter]
    rfl

end

/-- The positions of a tree whose texts are changed. -/
theorem positions_mapText (root : Element) : (root.mapText f).positions = root.positions.map (Cursor.mapText f) :=
  positionsAt_mapText f root [] 0 _ rfl

end Element

/-! ### Neighbours -/

namespace Cursor

@[simp] theorem element_mapText (c : Cursor) : (c.mapText f).element = c.element.mapText f := rfl

@[simp] theorem frames_mapText (c : Cursor) : (c.mapText f).frames = c.frames.map (Frame.mapText f) := rfl

@[simp] theorem kind_mapText (c : Cursor) : (c.mapText f).kind = c.kind :=
  Element.kind_mapText f c.element

private theorem mapText_fill (frame : Frame) (e : Element) :
    (frame.mapText f).fill (e.mapText f) = (frame.fill e).mapText f := by
  simp [Frame.fill, Frame.mapText]

private theorem ancestorsFrom_mapText (e : Element) (start : Nat) (frames : List Frame) :
    ancestorsFrom (e.mapText f) (Text.byteLength (textBeforeFrames (frames.map (Frame.mapText f))))
        (frames.map (Frame.mapText f)) =
      (ancestorsFrom e start frames).map (Cursor.mapText f) := by
  induction frames generalizing e start with
  | nil => rfl
  | cons frame frames ih =>
    have hstart : Text.byteLength (textBeforeFrames ((frame :: frames).map (Frame.mapText f))) -
        (frame.mapText f).bytesBefore = Text.byteLength (textBeforeFrames (frames.map (Frame.mapText f))) := by
      rw [List.map_cons, textBeforeFrames, Text.byteLength_append, Element.byteLength_textOfList_reverse, Frame.bytesBefore]
      omega
    rw [List.map_cons, ancestorsFrom, ancestorsFrom, List.map_cons, ← List.map_cons, hstart, mapText_fill, ih]
    rfl

theorem ancestors_mapText (c : Cursor) : (c.mapText f).ancestors = c.ancestors.map (Cursor.mapText f) :=
  ancestorsFrom_mapText f c.element c.start c.frames

private theorem childrenFrom_mapText (kind : Kind) (frames : List Frame) (start : Nat) {start' : Nat}
    (before es : List Element)
    (hstart : Text.byteLength (textBeforeFrames (frames.map (Frame.mapText f)) ++
      Element.textOfList (before.map (Element.mapText f)).reverse) = start') :
    childrenFrom kind (frames.map (Frame.mapText f)) start' (before.map (Element.mapText f)) (es.map (Element.mapText f)) =
      (childrenFrom kind frames start before es).map (Cursor.mapText f) := by
  induction es generalizing start start' before with
  | nil => rfl
  | cons e after ih =>
    have hnext : Text.byteLength (textBeforeFrames (frames.map (Frame.mapText f)) ++
        Element.textOfList ((e :: before).map (Element.mapText f)).reverse) = start' + (e.mapText f).byteLength := by
      rw [← hstart, List.map_cons, List.reverse_cons, Element.textOfList_append, ← List.append_assoc,
        Text.byteLength_append]
      simp [Element.byteLength]
    have hafter := ih (start + e.byteLength) (e :: before) hnext
    rw [List.map_cons, childrenFrom, childrenFrom, List.map_cons, ← hafter, ← hstart]
    rfl

theorem children_mapText (c : Cursor) : (c.mapText f).children = c.children.map (Cursor.mapText f) := by
  obtain ⟨e, start, frames⟩ := c
  cases e with
  | token kind text => rfl
  | node kind es =>
    rw [children, Cursor.mapText, Element.mapText_node]
    exact childrenFrom_mapText f kind frames start [] es (by simp)

private theorem firstTokenFrom_mapText (e : Element) (start : Nat) (frames : List Frame) :
    firstTokenFrom (Text.byteLength (textBeforeFrames (frames.map (Frame.mapText f)))) (frames.map (Frame.mapText f))
        (e.mapText f) =
      (firstTokenFrom start frames e).map (Cursor.mapText f) := by
  match e with
  | .token kind text => rfl
  | .node kind [] => rfl
  | .node kind (e :: after) =>
    have h := firstTokenFrom_mapText e start (⟨kind, [], after⟩ :: frames)
    have hstart : textBeforeFrames ((⟨kind, [], after⟩ :: frames).map (Frame.mapText f)) =
        textBeforeFrames (frames.map (Frame.mapText f)) := by
      simp [textBeforeFrames, Frame.mapText]
    rw [hstart] at h
    rw [firstTokenFrom, ← h, Element.mapText_node, List.map_cons, firstTokenFrom]
    rfl

theorem firstToken?_mapText (c : Cursor) : (c.mapText f).firstToken? = c.firstToken?.map (Cursor.mapText f) :=
  firstTokenFrom_mapText f c.element c.start c.frames

end Cursor

/-! ### The text of the tree -/

/-- The function may be applied to the parts of a text instead of the text. -/
structure Text.Piecewise (f : List Char → List Char) : Prop where
  nil : f [] = []
  append : ∀ a b, f (a ++ b) = f a ++ f b

namespace Element

variable {f}

mutual

theorem text_mapText (hf : Text.Piecewise f) (e : Element) : (e.mapText f).text = f e.text := by
  match e with
  | token kind text => rw [mapText_token, text_token, text_token]
  | node kind es => rw [mapText_node, text_node, text_node, textOfList_map_mapText hf es]

private theorem textOfList_map_mapText (hf : Text.Piecewise f) (es : List Element) :
    textOfList (es.map (mapText f)) = f (textOfList es) := by
  match es with
  | [] => exact hf.nil.symm
  | e :: es =>
    rw [List.map_cons, textOfList_cons, textOfList_cons, hf.append, text_mapText hf e, textOfList_map_mapText hf es]

end

end Element

namespace Cursor

variable {f}

private theorem textBeforeFrames_mapText (hf : Text.Piecewise f) (frames : List Frame) :
    textBeforeFrames (frames.map (Frame.mapText f)) = f (textBeforeFrames frames) := by
  induction frames with
  | nil => exact hf.nil.symm
  | cons frame frames ih =>
    rw [List.map_cons, textBeforeFrames, textBeforeFrames, ih, hf.append, Frame.mapText, ← List.map_reverse,
      Element.textOfList_map_mapText hf]

theorem start_mapText (hf : Text.Piecewise f) (c : Cursor) :
    (c.mapText f).start = Text.byteLength (f c.textBefore) := by
  rw [Cursor.mapText, textBefore, textBeforeFrames_mapText hf]

end Cursor

/-! ### Columns -/

/-- The function changes a text only before its last line, and makes or removes no first line feed. -/
structure Text.KeepsLastLine (f : List Char → List Char) : Prop where
  newline_mem : ∀ cs, '\n' ∈ f cs ↔ '\n' ∈ cs
  lastLine : ∀ cs, Text.lastLine (f cs) = Text.lastLine cs

namespace Text.KeepsLastLine

variable {f}

private theorem contains_newline (hf : KeepsLastLine f) (cs : List Char) : (f cs).contains '\n' = cs.contains '\n' := by
  rw [Bool.eq_iff_iff, List.contains_iff_mem, List.contains_iff_mem]
  exact hf.newline_mem cs

/-- A text of one line is not changed. -/
private theorem eq_self (hf : KeepsLastLine f) {cs : List Char} (h : '\n' ∉ cs) : f cs = cs := by
  have hlast := hf.lastLine cs
  rwa [Text.lastLine_eq_self h, Text.lastLine_eq_self fun hmem => h ((hf.newline_mem cs).1 hmem)] at hlast

theorem lastLineLength (hf : KeepsLastLine f) (cs : List Char) : Text.lastLineLength (f cs) = Text.lastLineLength cs := by
  have h : ∀ cs, Text.lastLineLength cs = ((Text.lastLine cs).reverse.dropWhile (· == '\r')).length := by
    intro cs
    rw [Text.lastLine, List.reverse_reverse]
    rfl
  rw [h, h, hf.lastLine]

end Text.KeepsLastLine

namespace Element

variable {f} (hf : Text.KeepsLastLine f)

include hf in
theorem isMultilineWhitespace_mapText (e : Element) :
    (e.mapText f).isMultilineWhitespace = e.isMultilineWhitespace := by
  cases e with
  | token kind text => cases kind <;> first | exact hf.contains_newline text | rfl
  | node kind es => rfl

mutual

private theorem walkBack_mapText (hf : Text.KeepsLastLine f) (e : Element) (column : Nat) :
    walkBack column (e.mapText f) = walkBack column e := by
  match e with
  | token kind text =>
    rw [mapText_token, walkBack, walkBack, hf.contains_newline, hf.lastLine]
    split
    · rfl
    · rename_i h
      rw [hf.eq_self fun hmem => h (List.contains_iff_mem.2 hmem)]
  | node kind [] => rfl
  | node kind (e :: es) =>
    rw [mapText_node, List.map_cons, walkBack, walkBack]
    exact walkBackOverList_mapText hf (e :: es) column

private theorem walkBackOverList_mapText (hf : Text.KeepsLastLine f) (es : List Element) (column : Nat) :
    walkBackOverList column (es.map (mapText f)) = walkBackOverList column es := by
  match es with
  | [] => rfl
  | e :: es =>
    rw [List.map_cons, walkBackOverList, walkBackOverList, walkBackOverList_mapText hf es]
    congr 1
    funext n
    exact walkBack_mapText hf e n

end

end Element

namespace Cursor

variable {f} (hf : Text.KeepsLastLine f)

include hf in
private theorem walkBackOverSiblings_mapText (w : WalkBack) (before : List Element) :
    walkBackOverSiblings w (before.map (Element.mapText f)) = walkBackOverSiblings w before := by
  rw [walkBackOverSiblings, walkBackOverSiblings, List.foldl_map]
  congr 1
  funext w e
  congr 1
  funext n
  exact Element.walkBack_mapText hf e n

include hf in
/-- The column of an element stays when texts change only before their last lines. -/
theorem startColumn_mapText (c : Cursor) : (c.mapText f).startColumn = c.startColumn := by
  rw [startColumn, startColumn, Cursor.mapText, List.foldl_map]
  congr 2
  funext w frame
  exact walkBackOverSiblings_mapText hf w frame.before

end Cursor

end IndentLint
