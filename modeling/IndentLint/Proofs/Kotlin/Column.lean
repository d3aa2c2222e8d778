import IndentLint.Proofs.Kotlin.Elements
import IndentLint.Proofs.Syntax.Column

/-!
# Two ways to a column

The column of a token can be counted back over the tokens before it, or looked up in the line index of the whole text.
Both ways lead to the same column in every tree in which no node is without children, and the tree of a source that is
not empty is such a tree (`startColumn_eq_column_position`).
-/

namespace IndentLint

namespace Kotlin.ParseTree

/-- A node of a lowered tree has a visible text, so it has children. -/
private theorem ofLowering_ne_emptyNode : OfLowering fun e => ∀ kind, e ≠ .node kind [] where
  gap := by
    intro cs e he kind
    obtain ⟨run, -, rfl⟩ := List.mem_map.1 he
    exact Element.noConfusion
  token := fun _ _ _ _ _ _ => Element.noConfusion
  node := by
    rintro kind es - - hvisible other heq
    obtain ⟨rfl, rfl⟩ := Element.node.inj heq
    exact hvisible.ne_nil rfl

private theorem hasNoEmptyNode_toElement {source : List Char} (hsource : source ≠ []) (t : ParseTree) :
    (t.toElement source).HasNoEmptyNode := by
  intro kind hmem
  rw [toElement, Element.subelements, List.mem_cons] at hmem
  rcases hmem with hroot | hbelow
  · have htext := textOfList_lowerChildren t.children source 0
    rw [← (Element.node.inj hroot).2] at htext
    exact hsource htext.symm
  · exact forall_mem_lowerChildren ofLowering_ne_emptyNode t.children source 0 _ hbelow kind rfl

end Kotlin.ParseTree

namespace Element

/-- Where every node has a child, as in the tree of any source that is not empty, the column of a token that is counted
back over the tokens before it is the column of the byte at which it starts. -/
theorem startColumn_eq_column_position :
    (∀ root : Element, root.HasNoEmptyNode → ∀ front t back, root.tokens = front ++ t :: back →
      t.startColumn = Text.columnBack 1 (front.reverse.map (·.element.text)) ∧
        t.startColumn = ((LineIndex.ofText root.text).position root.text t.start).column) ∧
    ∀ (source : List Char) (p : Kotlin.ParseTree), source ≠ [] → (p.toElement source).HasNoEmptyNode := by
  refine ⟨fun root h front t back ht => ⟨Cursor.startColumn_eq_columnBack h ht, ?_⟩,
    fun source p hsource => Kotlin.ParseTree.hasNoEmptyNode_toElement hsource p⟩
  have hmem : t ∈ root.tokens := ht ▸ List.mem_append_right front List.mem_cons_self
  have hpos : t ∈ root.positions := (List.mem_filter.1 hmem).1
  obtain ⟨htext, hstart⟩ := text_eq_of_mem_positions hpos
  rw [Cursor.startColumn_eq_length_lastLine h hpos, htext, ← hstart, LineIndex.position_byteLength]

/-- The last token starts at byte 6, in the third column: behind a line feed, an empty token, a blank and a letter of
two bytes. -/
theorem startColumn_behind_umlaut :
    ∃ (root : Element) (front : List Cursor) (t : Cursor),
      root = node .file [node .node [token .token ['é', '\n'], token .token []], token .whitespace [' '],
        token .token ['ö'], token .token ['x']] ∧
      root.tokens = front ++ [t] ∧ t.start = 6 ∧
      Text.columnBack 1 (front.reverse.map (·.element.text)) = 3 ∧ t.startColumn = 3 ∧
      ((LineIndex.ofText root.text).position root.text 6).column = 3 := by
  obtain ⟨root, hroot⟩ : ∃ root, root = node .file [node .node [token .token ['é', '\n'], token .token []],
    token .whitespace [' '], token .token ['ö'], token .token ['x']] := ⟨_, rfl⟩
  have h : root.HasNoEmptyNode := by
    intro kind hmem
    simp [hroot, subelements, subelementsOfList] at hmem
  obtain ⟨front, t, htokens, hstart, hcolumn⟩ : ∃ (front : List Cursor) (t : Cursor), root.tokens = front ++ [t] ∧
      t.start = 6 ∧ t.startColumn = 3 := by
    subst hroot
    exact ⟨_ :: _ :: _ :: _ :: [], _, rfl, rfl, rfl⟩
  obtain ⟨hback, hposition⟩ := startColumn_eq_column_position.1 root h front t [] htokens
  rw [hcolumn] at hback hposition
  rw [hstart] at hposition
  exact ⟨root, front, t, hroot, htokens, hstart, hback.symm, hcolumn, hposition.symm⟩

end Element

end IndentLint
