import IndentLint.Proofs.Kotlin.Lossless
import IndentLint.Proofs.Syntax.Subelements
import IndentLint.Proofs.Text.Blank

/-!
# What lowering makes

Below the root of a lowered tree there are the tokens of gaps, and tokens and nodes of parse nodes.  The text of the
latter is visible, since a child is kept only for what remains of its range without blanks, and their kind is neither
whitespace nor a whole file.  What holds of all of these holds of everything below the root
(`forall_mem_lowerChildren`).
-/

namespace IndentLint

namespace Element

private theorem subelementsOfList_gap (cs : List Char) : subelementsOfList (gap cs) = gap cs := by
  have hmap : ∀ rs : List (List Char), subelementsOfList (rs.map ofRun) = rs.map ofRun := by
    intro rs
    induction rs with
    | nil => rfl
    | cons r rs ih =>
      rw [List.map_cons, subelementsOfList, ih]
      rfl
  exact hmap _

end Element

namespace Kotlin.ParseTree

open Element

private theorem ite_ne_of_ne {p : Prop} [Decidable p] {a b k : Kind} (ha : a ≠ k) (hb : b ≠ k) :
    (if p then a else b) ≠ k := by
  split
  · exact ha
  · exact hb

theorem elementKind_ne_whitespace (t : ParseTree) : t.elementKind ≠ .whitespace := by
  unfold elementKind compositeKind
  repeat' first
    | apply ite_ne_of_ne
    | decide

/-- A property of all that lowering makes: of the tokens of gaps, and of visible tokens and nodes of kinds that parse
nodes have. -/
structure OfLowering (P : Element → Prop) : Prop where
  gap : ∀ cs, ∀ e ∈ Element.gap cs, P e
  token : ∀ kind cs, kind ≠ .whitespace → kind ≠ .file → Text.Visible cs → P (.token kind cs)
  node : ∀ kind es, kind ≠ .whitespace → kind ≠ .file → Text.Visible (textOfList es) → P (.node kind es)

variable {P : Element → Prop}

mutual

theorem forall_mem_lower (h : OfLowering P) (t : ParseTree) {cs : List Char} (start : Nat) (hcs : Text.Visible cs) :
    ∀ e ∈ subelementsOfList (t.lower cs start), P e := by
  match t with
  | node kind s e children =>
    have hsingle : ∀ k : Kind, k ≠ .whitespace → k ≠ .file →
        ∀ e ∈ subelementsOfList [Element.token k cs], P e := by
      intro k hblank hfile e he
      obtain rfl : e = Element.token k cs := by simpa [subelementsOfList, subelements] using he
      exact h.token k cs hblank hfile hcs
    rw [lower]
    split
    · exact hsingle _ (by decide) (by decide)
    · split
      · exact forall_mem_lowerChildren h children cs start
      · rename_i hfile
        split
        · exact hsingle _ (elementKind_ne_whitespace _) hfile
        · intro e he
          simp only [subelementsOfList, subelements, List.append_nil, List.mem_cons] at he
          rcases he with rfl | he
          · refine h.node _ _ (elementKind_ne_whitespace _) hfile ?_
            rw [textOfList_lowerChildren]
            exact hcs
          · exact forall_mem_lowerChildren h children cs start e he

/-- Such a property holds of everything below the root of a lowered tree. -/
theorem forall_mem_lowerChildren (h : OfLowering P) (ts : List ParseTree) (cs : List Char) (start : Nat) :
    ∀ e ∈ subelementsOfList (lowerChildren cs start ts), P e := by
  match ts with
  | [] =>
    rw [lowerChildren, subelementsOfList_gap]
    exact h.gap cs
  | child :: rest =>
    rw [lowerChildren]
    rcases hcut : cut? cs (child.start - start) (child.stop - start) with _ | c
    · exact forall_mem_lowerChildren h rest cs start
    · intro e he
      simp only [subelementsOfList_append, subelementsOfList_gap, List.mem_append] at he
      rcases he with (he | he) | he
      · exact h.gap c.before e he
      · exact forall_mem_lower h child _ (append_of_cut? hcut).2 e he
      · exact forall_mem_lowerChildren h rest c.after _ e he

end

/-- Nothing below the root of a lowered tree is a whole file. -/
theorem kind_ne_file (ts : List ParseTree) (cs : List Char) (start : Nat) :
    ∀ e ∈ subelementsOfList (lowerChildren cs start ts), e.kind ≠ .file := by
  refine forall_mem_lowerChildren ⟨?_, fun _ _ _ hfile _ => hfile, fun _ _ _ hfile _ => hfile⟩ ts cs start
  intro gapText e he
  obtain ⟨run, -, rfl⟩ := List.mem_map.1 he
  show (if run.all Text.isBlank then Kind.whitespace else .token) ≠ .file
  exact ite_ne_of_ne (by decide) (by decide)

end Kotlin.ParseTree

end IndentLint
