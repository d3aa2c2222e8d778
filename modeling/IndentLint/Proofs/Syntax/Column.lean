import IndentLint.Proofs.Syntax.Places
import IndentLint.Proofs.Syntax.Subelements
import IndentLint.Syntax.Column

/-!
# Columns

A walk back never counts down, so the column at which an element starts is at least the first
(`one_le_startColumn`).  Where every node has a child, nothing but a line feed or the start of the tree ends the walk.
So it counts the characters since the last line feed before the element (`startColumn_eq_length_lastLine`), and for a
token the tokens before it are all that it looks at (`startColumn_eq_columnBack`).
-/

namespace IndentLint

private theorem WalkBack.le_column_andThen {w : WalkBack} {f : Nat → WalkBack} {column : Nat} (hw : column ≤ w.column)
    (hf : ∀ n, n ≤ (f n).column) : column ≤ (w.andThen f).column := by
  cases w with
  | running n => exact Nat.le_trans hw (hf n)
  | ended n => exact hw

namespace Element

mutual

private theorem le_column_walkBack (e : Element) (column : Nat) : column ≤ (e.walkBack column).column := by
  match e with
  | token kind text =>
    rw [walkBack]
    split
    · exact Nat.le_add_right ..
    · exact Nat.le_add_right ..
  | node kind es =>
    have hes := le_column_walkBackOverList es column
    cases es with
    | nil =>
      rw [walkBack]
      exact Nat.le_refl column
    | cons d es =>
      rw [walkBack]
      exact hes

private theorem le_column_walkBackOverList (es : List Element) (column : Nat) :
    column ≤ (walkBackOverList column es).column := by
  match es with
  | [] => exact Nat.le_refl column
  | e :: es =>
    rw [walkBackOverList]
    exact WalkBack.le_column_andThen (le_column_walkBackOverList es column) (le_column_walkBack e)

end

end Element

namespace Cursor

private theorem le_column_walkBackOverSiblings {w : WalkBack} {column : Nat} (hw : column ≤ w.column)
    (before : List Element) : column ≤ (walkBackOverSiblings w before).column := by
  induction before generalizing w with
  | nil => exact hw
  | cons e before ih => exact ih (WalkBack.le_column_andThen hw e.le_column_walkBack)

theorem one_le_startColumn (c : Cursor) : 1 ≤ c.startColumn := by
  have hframes : ∀ (frames : List Frame) (w : WalkBack), 1 ≤ w.column →
      1 ≤ (frames.foldl (fun w f => walkBackOverSiblings w f.before) w).column := by
    intro frames
    induction frames with
    | nil => exact fun w hw => hw
    | cons f frames ih => exact fun w hw => ih _ (le_column_walkBackOverSiblings hw f.before)
  exact hframes c.frames (.running 1) (Nat.le_refl 1)

end Cursor

/-! ### Walking back over a text -/

namespace WalkBack

/-- A walk back over a text, having counted `column` already. -/
def overText (column : Nat) (text : List Char) : WalkBack :=
  if text.contains '\n' then .ended (column + (Text.lastLine text).length) else .running (column + text.length)

private theorem overText_append (column : Nat) (a b : List Char) :
    overText column (a ++ b) = (overText column b).andThen fun n => overText n a := by
  by_cases hb : b.contains '\n' = true
  · have hab : (a ++ b).contains '\n' = true := by
      rw [List.contains_iff_mem] at hb ⊢
      exact List.mem_append_right a hb
    rw [overText, overText, if_pos hab, if_pos hb, Text.lastLine_append, if_pos hb, andThen]
  · have hcontains : (a ++ b).contains '\n' = a.contains '\n' := by
      rw [List.contains_iff_mem] at hb
      rw [Bool.eq_iff_iff, List.contains_iff_mem, List.contains_iff_mem, List.mem_append, or_iff_left hb]
    have hlength : ∀ n, column + (n + b.length) = column + b.length + n := by omega
    rw [overText, overText, if_neg hb, hcontains, Text.lastLine_append, if_neg hb, andThen, overText,
      List.length_append, List.length_append, hlength, hlength]

/-- The column counted over a text is one more than the length of its last line. -/
private theorem column_overText (text : List Char) : (overText 1 text).column = (Text.lastLine text).length + 1 := by
  unfold overText
  split
  · exact Nat.add_comm ..
  · rename_i h
    rw [Text.lastLine_eq_self fun hmem => h (List.contains_iff_mem.2 hmem)]
    exact Nat.add_comm ..

private theorem andThen_andThen (w : WalkBack) (f g : Nat → WalkBack) :
    (w.andThen f).andThen g = w.andThen fun n => (f n).andThen g := by
  cases w with
  | running n => rfl
  | ended n => rfl

end WalkBack

/-! ### Trees in which every node has a child -/

namespace Element

/-- No node of the tree is without children. -/
def HasNoEmptyNode (e : Element) : Prop :=
  ∀ kind, node kind [] ∉ e.subelements

private theorem subelements_subset_of_mem {e : Element} {es : List Element} (he : e ∈ es) :
    e.subelements ⊆ subelementsOfList es := by
  obtain ⟨front, back, rfl⟩ := List.append_of_mem he
  rw [subelementsOfList_append, subelementsOfList]
  exact List.Subset.trans (List.subset_append_left _ _) (List.subset_append_right _ _)

private theorem HasNoEmptyNode.of_subset {d e : Element} (h : e.HasNoEmptyNode) (hde : d.subelements ⊆ e.subelements) :
    d.HasNoEmptyNode :=
  fun kind hmem => h kind (hde hmem)

theorem HasNoEmptyNode.child {kind : Kind} {es : List Element} (h : (node kind es).HasNoEmptyNode) {e : Element}
    (he : e ∈ es) : e.HasNoEmptyNode :=
  h.of_subset fun _ hd => List.mem_cons_of_mem _ (subelements_subset_of_mem he hd)

theorem HasNoEmptyNode.ne_nil {kind : Kind} {es : List Element} (h : (node kind es).HasNoEmptyNode) : es ≠ [] := by
  rintro rfl
  exact h kind (List.mem_cons_self ..)

mutual

private theorem walkBack_eq_overText (e : Element) (h : e.HasNoEmptyNode) (column : Nat) :
    e.walkBack column = .overText column e.text := by
  match e with
  | token kind text =>
    rw [text_token]
    rfl
  | node kind [] => exact absurd rfl h.ne_nil
  | node kind (e :: es) =>
    rw [walkBack, text_node]
    exact walkBackOverList_eq_overText (e :: es) (fun d hd => h.child hd) column

private theorem walkBackOverList_eq_overText (es : List Element) (h : ∀ e ∈ es, e.HasNoEmptyNode) (column : Nat) :
    walkBackOverList column es = .overText column (textOfList es) := by
  match es with
  | [] => rfl
  | e :: es =>
    rw [walkBackOverList, textOfList_cons, WalkBack.overText_append,
      walkBackOverList_eq_overText es fun d hd => h d (List.mem_cons_of_mem _ hd)]
    exact congrArg _ (funext (walkBack_eq_overText e (h e List.mem_cons_self)))

end

end Element

namespace Cursor

private theorem subelements_subset_fill {f : Frame} {d e : Element} (hd : d ∈ f.before.reverse ++ e :: f.after) :
    d.subelements ⊆ (f.fill e).subelements :=
  fun _ hx => List.mem_cons_of_mem _ (Element.subelements_subset_of_mem hd hx)

private theorem subelements_subset_refill (e : Element) (frames : List Frame) :
    e.subelements ⊆ (refill e frames).subelements := by
  induction frames generalizing e with
  | nil => exact List.Subset.refl _
  | cons f frames ih =>
    have hfill : e.subelements ⊆ (f.fill e).subelements := subelements_subset_fill (by simp)
    exact List.Subset.trans hfill (ih (f.fill e))

/-- What stands before the way down is below the root. -/
private theorem subelements_subset_refill_of_mem_before {d e : Element} {f : Frame} {frames : List Frame}
    (hf : f ∈ frames) (hd : d ∈ f.before) : d.subelements ⊆ (refill e frames).subelements := by
  obtain ⟨inner, outer, rfl⟩ := List.append_of_mem hf
  have hfill : d.subelements ⊆ (f.fill (refill e inner)).subelements := subelements_subset_fill (by simp [hd])
  rw [refill_append, refill_cons]
  exact List.Subset.trans hfill (subelements_subset_refill _ outer)

private theorem walkBackOverSiblings_eq (w : WalkBack) {before : List Element} (h : ∀ e ∈ before, e.HasNoEmptyNode) :
    walkBackOverSiblings w before = w.andThen fun n => .overText n (Element.textOfList before.reverse) := by
  induction before generalizing w with
  | nil => cases w <;> rfl
  | cons e before ih =>
    have he : e.walkBack = fun n => WalkBack.overText n e.text :=
      funext (e.walkBack_eq_overText (h e List.mem_cons_self))
    rw [walkBackOverSiblings, List.foldl_cons, ← walkBackOverSiblings, ih _ fun d hd => h d (List.mem_cons_of_mem _ hd),
      he, WalkBack.andThen_andThen, List.reverse_cons, Element.textOfList_append, Element.textOfList_cons,
      Element.textOfList_nil, List.append_nil]
    exact congrArg _ (funext fun n => (WalkBack.overText_append n _ _).symm)

/-- A walk back from the place that some frames leave open goes over the text before it. -/
private theorem foldl_walkBackOverSiblings (w : WalkBack) {frames : List Frame}
    (h : ∀ f ∈ frames, ∀ e ∈ f.before, e.HasNoEmptyNode) :
    frames.foldl (fun w f => walkBackOverSiblings w f.before) w =
      w.andThen fun n => .overText n (textBeforeFrames frames) := by
  induction frames generalizing w with
  | nil => cases w <;> rfl
  | cons f frames ih =>
    rw [List.foldl_cons, ih _ fun g hg => h g (List.mem_cons_of_mem _ hg),
      walkBackOverSiblings_eq w (h f List.mem_cons_self), WalkBack.andThen_andThen, textBeforeFrames]
    exact congrArg _ (funext fun n => (WalkBack.overText_append n _ _).symm)

/-- Where every node has a child, the column counts the characters since the last line feed. -/
theorem startColumn_eq_length_lastLine {root : Element} (h : root.HasNoEmptyNode) {c : Cursor}
    (hc : c ∈ root.positions) : c.startColumn = (Text.lastLine c.textBefore).length + 1 := by
  have hbefore : ∀ f ∈ c.frames, ∀ e ∈ f.before, e.HasNoEmptyNode := by
    intro f hf e he
    obtain ⟨htree, -⟩ := Element.mem_positions_iff.1 hc
    exact h.of_subset (htree ▸ subelements_subset_refill_of_mem_before hf he)
  rw [startColumn, foldl_walkBackOverSiblings _ hbefore]
  exact WalkBack.column_overText _

end Cursor

/-! ### Walking back token by token -/

/-- The column counted back over some texts, nearest first, up to the first one with a line feed. -/
def Text.columnBack (column : Nat) : List (List Char) → Nat
  | [] => column
  | text :: earlier =>
    if text.contains '\n' then column + (lastLine text).length else columnBack (column + text.length) earlier

private theorem Text.columnBack_eq (column : Nat) (texts : List (List Char)) :
    columnBack column texts = (WalkBack.overText column texts.reverse.flatten).column := by
  induction texts generalizing column with
  | nil => rfl
  | cons text earlier ih =>
    rw [columnBack, List.reverse_cons, List.flatten_append, List.flatten_singleton, WalkBack.overText_append,
      WalkBack.overText]
    split
    · rfl
    · rw [ih]
      rfl

namespace Cursor

/-- Where every node has a child, the column of a token is counted back over the tokens before it. -/
theorem startColumn_eq_columnBack {root : Element} (h : root.HasNoEmptyNode) {front back : List Cursor} {t : Cursor}
    (ht : root.tokens = front ++ t :: back) :
    t.startColumn = Text.columnBack 1 (front.reverse.map (·.element.text)) := by
  have hmem : t ∈ root.tokens := ht ▸ List.mem_append_right front List.mem_cons_self
  have hpos : t ∈ root.positions := (List.mem_filter.1 hmem).1
  obtain ⟨hbefore, hstart⟩ := Element.text_eq_of_mem_positions hpos
  obtain ⟨hfront, hstart'⟩ := Element.start_eq_of_tokens_eq ht
  have hlength : Text.byteLength t.textBefore = Text.byteLength (front.flatMap (·.element.text)) := by
    rw [hstart, hstart']
  obtain ⟨d, hd, -⟩ := Text.append_split_of_byteLength_le (hbefore.symm.trans hfront) (Nat.le_of_eq hlength)
  -- both texts are as long as the token is away from the start
  obtain rfl : d = [] := by
    rw [hd, Text.byteLength_append] at hlength
    exact Text.eq_nil_of_byteLength_eq_zero (by omega)
  rw [List.append_nil] at hd
  rw [startColumn_eq_length_lastLine h hpos, Text.columnBack_eq, ← WalkBack.column_overText, ← List.map_reverse,
    List.reverse_reverse, ← hd]
  rfl

end Cursor

end IndentLint
