import IndentLint.Proofs.Syntax.Places

/-!
# Putting in siblings

Elements that are put in just before another one, as siblings of it, move it by their number among its siblings and by
their bytes in the text.  Of its frames they change the innermost one only, which gets them as the nearest earlier
siblings (`mem_positions_insertBefore`).
-/

namespace IndentLint

/-- The tree with elements put in just before the one at a path; nothing can stand before the root. -/
def Element.insertBefore (es : List Element) : List Nat → Element → Element
  | [i], .node kind children => .node kind (children.take i ++ (es ++ children.drop i))
  | i :: j :: path, .node kind children => .node kind (children.modify i (insertBefore es (j :: path)))
  | _, e => e

/-- The frame with elements put in just before the way down. -/
def Frame.insert (f : Frame) (es : List Element) : Frame :=
  { f with before := es.reverse ++ f.before }

/-- The element behind some siblings that were put in just before it. -/
def Cursor.behind (c : Cursor) (es : List Element) : Cursor :=
  match c.frames with
  | [] => c
  | f :: outer => ⟨c.element, c.start + Text.byteLength (Element.textOfList es), f.insert es :: outer⟩

private theorem Cursor.behind_of_frames {c : Cursor} {f : Frame} {outer : List Frame} (h : c.frames = f :: outer)
    (es : List Element) :
    c.behind es = ⟨c.element, c.start + Text.byteLength (Element.textOfList es), f.insert es :: outer⟩ := by
  rw [behind, h]

namespace Element

open Cursor

private theorem modify_middle (front back : List Element) (e : Element) (f : Element → Element) :
    (front ++ e :: back).modify front.length f = front ++ f e :: back :=
  List.modifyTailIdx_add _ 0 front (e :: back)

/-- Putting elements in before the element of a cursor changes its innermost frame. -/
private theorem insertBefore_refill (es : List Element) (e : Element) (f : Frame) (outer : List Frame) :
    insertBefore es (pathOfFrames (f :: outer)) (refill e (f :: outer)) = refill e (f.insert es :: outer) := by
  -- the path begins with the outermost frame, so the induction takes the frames from there
  induction outer using List.reverseRecOn with
  | nil =>
    show node f.kind (_ ++ (es ++ _)) = node f.kind _
    have htake : (f.before.reverse ++ e :: f.after).take f.before.length = f.before.reverse := by
      rw [← List.length_reverse, List.take_left]
    have hdrop : (f.before.reverse ++ e :: f.after).drop f.before.length = e :: f.after := by
      rw [← List.length_reverse, List.drop_left]
    rw [htake, hdrop]
    simp [Frame.insert]
  | append_singleton inner g ih =>
    obtain ⟨j, path, hbelow⟩ : ∃ j path, pathOfFrames (f :: inner) = j :: path := by
      refine List.exists_cons_of_ne_nil fun h => ?_
      rw [pathOfFrames_eq_nil_iff] at h
      cases h
    have hpath : pathOfFrames (f :: (inner ++ [g])) = g.before.length :: j :: path := by
      rw [← List.cons_append, pathOfFrames_append, hbelow]
      rfl
    have hrefill : ∀ h : Frame, refill e (h :: (inner ++ [g])) =
        node g.kind (g.before.reverse ++ refill e (h :: inner) :: g.after) := by
      intro h
      rw [← List.cons_append, refill_append]
      rfl
    rw [hpath, hrefill, hrefill, insertBefore, ← List.length_reverse, modify_middle, ← hbelow, ih]

/-- An element is found behind the siblings that were put in before it. -/
theorem mem_positions_insertBefore {root : Element} {c : Cursor} (hc : c ∈ root.positions) (es : List Element) :
    c.behind es ∈ (root.insertBefore es c.path).positions := by
  obtain ⟨htree, hstart⟩ := mem_positions_iff.1 hc
  rw [tree] at htree
  rw [textBefore] at hstart
  rw [path]
  cases hframes : c.frames with
  | nil =>
    have hbehind : c.behind es = c := by
      rw [behind, hframes]
    rw [hframes] at htree
    subst htree
    rw [hbehind]
    exact hc
  | cons f outer =>
    rw [hframes] at htree hstart
    rw [behind_of_frames hframes, ← htree, insertBefore_refill, mem_positions_iff]
    refine ⟨rfl, ?_⟩
    show c.start + _ = Text.byteLength (textBeforeFrames (f.insert es :: outer))
    rw [hstart, textBeforeFrames, textBeforeFrames, Frame.insert, List.reverse_append, List.reverse_reverse,
      textOfList_append, ← List.append_assoc, Text.byteLength_append _ (textOfList es)]

end Element

theorem Cursor.path_behind {c : Cursor} {around : List Nat} {i : Nat} (h : c.path = around ++ [i]) (es : List Element) :
    (c.behind es).path = around ++ [i + es.length] := by
  obtain ⟨f, outer, hframes, rfl, rfl⟩ := exists_frame_of_path_eq h
  rw [behind_of_frames hframes, path, pathOfFrames_cons, Frame.insert, List.length_append, List.length_reverse,
    Nat.add_comm]

end IndentLint
