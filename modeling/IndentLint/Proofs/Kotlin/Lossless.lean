import IndentLint.Analysis.Frontend
import IndentLint.Proofs.Kotlin.Walk
import IndentLint.Proofs.Syntax.Positions

/-!
# Lowering loses nothing

Whatever the ranges of a parse tree are, the tokens of its syntax tree are the source in pieces: none is lost, none is
doubled, and each of them starts at the byte at which it stands in the source.
-/

namespace IndentLint

namespace Element

@[simp] theorem text_ofRun (run : List Char) : (ofRun run).text = run := by
  rw [ofRun, text_token]

theorem textOfList_gap (cs : List Char) : textOfList (gap cs) = cs := by
  have h : ∀ rs : List (List Char), textOfList (rs.map ofRun) = rs.flatten := by
    intro rs
    induction rs with
    | nil => rfl
    | cons r rs ih => simp [ih]
  rw [gap, h, Text.flatten_runs]

end Element

namespace Kotlin.ParseTree

open Element (textOfList)

mutual

theorem textOfList_lower (t : ParseTree) (cs : List Char) (start : Nat) : textOfList (t.lower cs start) = cs := by
  match t with
  | node kind s e children =>
    have hchildren := textOfList_lowerChildren children cs start
    rw [lower]
    split
    · simp
    · split
      · exact hchildren
      · split <;> simp [hchildren]

theorem textOfList_lowerChildren (ts : List ParseTree) (cs : List Char) (start : Nat) :
    textOfList (lowerChildren cs start ts) = cs := by
  match ts with
  | [] => exact Element.textOfList_gap cs
  | child :: rest =>
    rw [lowerChildren]
    rcases hcut : cut? cs (child.start - start) (child.stop - start) with _ | c
    · exact textOfList_lowerChildren rest cs start
    · dsimp only
      rw [Element.textOfList_append, Element.textOfList_append, Element.textOfList_gap, textOfList_lower child,
        textOfList_lowerChildren rest, List.append_assoc]
      exact (append_of_cut? hcut).1.symm

end

/-- The text of the syntax tree of a source is the source. -/
theorem text_toElement (source : List Char) (t : ParseTree) : (t.toElement source).text = source := by
  rw [toElement, Element.text_node, textOfList_lowerChildren]

end Kotlin.ParseTree

namespace Frontend

theorem parse_kotlin {grammar : Kotlin.Grammar} {source : List Char} {p : Kotlin.Parse}
    (h : grammar source = some p) :
    (kotlin grammar).parse source = .ok ⟨p.root.toElement source, p.hasErrors⟩ := by
  simp only [kotlin, h, Kotlin.ParseTree.build_eq]

/-- Every source with any parse tree is lowered, its tokens in document order are the source, and each of them starts
at the byte at which it stands there. -/
theorem parse_kotlin_lossless (source : List Char) (p : Kotlin.Parse) :
    ∃ tree, (kotlin fun _ => some p).parse source = .ok ⟨tree, p.hasErrors⟩ ∧
      tree.leaves.flatMap (·.text) = source ∧
      ∀ front c back, tree.tokens = front ++ c :: back →
        c.start = Text.byteLength (front.flatMap (·.element.text)) ∧
        Text.slice? source c.start c.stop = some c.element.text := by
  refine ⟨_, parse_kotlin rfl, Kotlin.ParseTree.text_toElement source p.root, ?_⟩
  intro front c back h
  obtain ⟨htext, hstart⟩ := Element.start_eq_of_tokens_eq h
  rw [Kotlin.ParseTree.text_toElement] at htext
  refine ⟨hstart, ?_⟩
  rw [Cursor.stop, Element.byteLength, hstart, htext]
  exact Text.slice?_byteLength _ _ _

end Frontend

end IndentLint
