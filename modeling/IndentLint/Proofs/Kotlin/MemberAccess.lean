import IndentLint.Proofs.Kotlin.Lossless
import Mathlib.Data.List.Chain

/-!
# Chains of member accesses

A member access is safe when its operator is `?.`, which stands behind its receiver or in a suffix of its own.  What a
node of a chain becomes goes by its operator and by what stands among the children of its receiver, so a safe access
makes the next access in the chain safe as well, and none further out.  The nodes of a chain become what their own
operators say just where every access to a receiver with `?.` among its children is safe itself
(`ParseTree.becomes_own_iff`).
-/

namespace IndentLint

namespace Kotlin.ParseTree

/-- `?.` stands among the children. -/
def HasSafeOperator (t : ParseTree) : Prop :=
  ∃ c ∈ t.children, c.kind = "?."

/-- The operator of a member access is `?.`, which stands among its children or in its suffix. -/
def OwnsSafeOperator (t : ParseTree) : Prop :=
  t.HasSafeOperator ∨ ∃ c ∈ t.children, c.kind = "navigation_suffix" ∧ c.HasSafeOperator

/-- The node is an access to a member of `receiver`, its first child.  Of the other children none but a suffix holds
`?.` among its own. -/
structure IsAccessTo (t receiver : ParseTree) : Prop where
  kind : t.kind = "navigation_expression"
  children : ∃ rest, t.children = receiver :: rest ∧ ∀ c ∈ rest, c.HasSafeOperator → c.kind = "navigation_suffix"

/-- Whatever part of a source the node takes, the walk writes it down as one node of the kind. -/
def Becomes (t : ParseTree) (k : Kind) : Prop :=
  ∀ a cs b : List Char, ∃ es, t.walk (a ++ (cs ++ b)) (Text.byteLength a) (Text.byteLength a + Text.byteLength cs) =
    .ok (Element.node k es).events

instance (t : ParseTree) : Decidable t.HasSafeOperator :=
  inferInstanceAs (Decidable (∃ c ∈ t.children, _))

instance (t : ParseTree) : Decidable t.OwnsSafeOperator :=
  inferInstanceAs (Decidable (_ ∨ ∃ c ∈ t.children, _))

/-- A node with children that is neither a literal nor a file becomes one node, of the kind of its element. -/
private theorem becomes_iff {t : ParseTree} {k : Kind} (hliteral : t.isOpaque = false) (hfile : t.elementKind ≠ .file)
    (hchildren : t.children ≠ []) : t.Becomes k ↔ k = t.elementKind := by
  have hlower : ∀ cs start, t.lower cs start = [.node t.elementKind (lowerChildren cs start t.children)] := by
    obtain ⟨kind, start, stop, children⟩ := t
    intro cs first
    have hempty : children.isEmpty = false := List.isEmpty_eq_false_iff.2 hchildren
    rw [lower, hliteral, if_neg Bool.false_ne_true, if_neg hfile, hempty, if_neg Bool.false_ne_true]
    rfl
  have hwalk : ∀ a cs b : List Char,
      t.walk (a ++ (cs ++ b)) (Text.byteLength a) (Text.byteLength a + Text.byteLength cs) =
        .ok (Element.node t.elementKind (lowerChildren cs (Text.byteLength a) t.children)).events := by
    intro a cs b
    rw [walk_eq, hlower, Element.eventsOfList, Element.eventsOfList, List.append_nil]
  constructor
  · intro h
    obtain ⟨es, hes⟩ := h [] [] []
    rw [hwalk] at hes
    have hevents := Except.ok.inj hes
    rw [Element.events, Element.events] at hevents
    have hstart := (List.cons.inj hevents).1
    exact (Event.start.inj hstart).symm
  · rintro rfl a cs b
    exact ⟨_, hwalk a cs b⟩

namespace IsAccessTo

variable {t receiver : ParseTree}

/-- Looking for `?.` among children and grandchildren finds the operator of the access, and that of its receiver. -/
theorem isSafeAccess_iff (h : t.IsAccessTo receiver) :
    t.isSafeAccess = true ↔ t.OwnsSafeOperator ∨ receiver.HasSafeOperator := by
  have hfound : t.isSafeAccess = true ↔ t.HasSafeOperator ∨ ∃ c ∈ t.children, c.HasSafeOperator := by
    simp only [isSafeAccess, HasSafeOperator, List.any_eq_true, Bool.or_eq_true, beq_iff_eq]
    constructor
    · rintro ⟨c, hc, hkind | hbelow⟩
      · exact Or.inl ⟨c, hc, hkind⟩
      · exact Or.inr ⟨c, hc, hbelow⟩
    · rintro (⟨c, hc, hkind⟩ | ⟨c, hc, hbelow⟩)
      · exact ⟨c, hc, Or.inl hkind⟩
      · exact ⟨c, hc, Or.inr hbelow⟩
  obtain ⟨rest, hrest, hsuffix⟩ := h.children
  rw [hfound, OwnsSafeOperator, or_assoc]
  refine or_congr_right ?_
  rw [hrest]
  constructor
  · rintro ⟨c, hc, hsafe⟩
    rcases List.mem_cons.1 hc with rfl | hmem
    · exact Or.inr hsafe
    · exact Or.inl ⟨c, hc, hsuffix c hmem hsafe, hsafe⟩
  · rintro (⟨c, hc, -, hsafe⟩ | hsafe)
    · exact ⟨c, hc, hsafe⟩
    · exact ⟨receiver, List.mem_cons_self, hsafe⟩

private theorem elementKind_eq (h : t.IsAccessTo receiver) :
    t.elementKind = if t.isSafeAccess then .safeQualifiedExpression else .dotQualifiedExpression := by
  obtain ⟨rest, hrest, -⟩ := h.children
  simp [elementKind, compositeKind, h.kind, hrest, commentKinds, assignmentOperators, binaryKinds]

private theorem becomes_iff (h : t.IsAccessTo receiver) {k : Kind} :
    t.Becomes k ↔ k = if t.isSafeAccess then .safeQualifiedExpression else .dotQualifiedExpression := by
  obtain ⟨rest, hrest, -⟩ := h.children
  have hliteral : t.isOpaque = false := by
    simp [isOpaque, opaqueKinds, h.kind]
  have hfile : t.elementKind ≠ .file := by
    rw [h.elementKind_eq]
    split <;> decide
  rw [ParseTree.becomes_iff hliteral hfile (by simp [hrest]), h.elementKind_eq]

/-- An access becomes a safe one if it is safe or its receiver has `?.` among its children, and else one with a dot. -/
private theorem becomes_safe_iff (h : t.IsAccessTo receiver) :
    (t.Becomes .safeQualifiedExpression ↔ t.OwnsSafeOperator ∨ receiver.HasSafeOperator) ∧
      (t.Becomes .dotQualifiedExpression ↔ ¬ (t.OwnsSafeOperator ∨ receiver.HasSafeOperator)) := by
  rw [h.becomes_iff, h.becomes_iff, ← h.isSafeAccess_iff]
  cases t.isSafeAccess <;> simp

end IsAccessTo

/-- In a chain of any length, each node with its receiver behind it, an access becomes a safe one if it is safe or its
receiver has `?.` among its children, and else one with a dot.  So the accesses become what their own operators say just
where each access to a receiver with `?.` among its children is safe. -/
theorem becomes_own_iff {chain : List ParseTree} (hchain : chain.IsChain IsAccessTo) :
    (∀ outer t receiver inner, chain = outer ++ t :: receiver :: inner →
      (t.Becomes .safeQualifiedExpression ↔ t.OwnsSafeOperator ∨ receiver.HasSafeOperator) ∧
        (t.Becomes .dotQualifiedExpression ↔ ¬ (t.OwnsSafeOperator ∨ receiver.HasSafeOperator))) ∧
    ((∀ outer t receiver inner, chain = outer ++ t :: receiver :: inner →
        (t.Becomes .safeQualifiedExpression ↔ t.OwnsSafeOperator) ∧
          (t.Becomes .dotQualifiedExpression ↔ ¬ t.OwnsSafeOperator)) ↔
      chain.IsChain fun t receiver => receiver.HasSafeOperator → t.OwnsSafeOperator) := by
  have haccess : ∀ outer t receiver inner, chain = outer ++ t :: receiver :: inner → t.IsAccessTo receiver :=
    fun outer t receiver inner hsplit => List.isChain_iff_forall_rel_of_append_cons_cons.1 hchain hsplit
  refine ⟨fun outer t receiver inner hsplit => (haccess _ _ _ _ hsplit).becomes_safe_iff, ?_⟩
  rw [List.isChain_iff_forall_rel_of_append_cons_cons]
  constructor
  · intro hown t receiver outer inner hsplit hsafe
    rw [← (hown outer t receiver inner hsplit).1, (haccess _ _ _ _ hsplit).becomes_safe_iff.1]
    exact Or.inr hsafe
  · intro hnext outer t receiver inner hsplit
    have habsorbed : t.OwnsSafeOperator ∨ receiver.HasSafeOperator ↔ t.OwnsSafeOperator :=
      or_iff_left_of_imp (hnext hsplit)
    rw [← habsorbed]
    exact (haccess _ _ _ _ hsplit).becomes_safe_iff

/-- The accesses of `a.b?.c.d`, outermost first, and `a`; the safe one has its operator in a suffix. -/
def sampleChain : List ParseTree :=
  let a := node "identifier" 0 1 []
  let b := node "navigation_expression" 0 3 [a, node "." 1 2 [], node "identifier" 2 3 []]
  let c := node "navigation_expression" 0 6
    [b, node "navigation_suffix" 3 6 [node "?." 3 5 [], node "identifier" 5 6 []]]
  [node "navigation_expression" 0 8 [c, node "." 6 7 [], node "identifier" 7 8 []], c, b, a]

/-- In `a.b?.c.d` each access becomes what its own operator says. -/
theorem becomes_own_in_sampleChain : sampleChain.IsChain IsAccessTo ∧ ∃ d c b a, sampleChain = [d, c, b, a] ∧
    d.Becomes .dotQualifiedExpression ∧ c.Becomes .safeQualifiedExpression ∧ b.Becomes .dotQualifiedExpression := by
  have hchain : sampleChain.IsChain IsAccessTo :=
    .cons_cons ⟨rfl, _, rfl, by decide⟩ (.cons_cons ⟨rfl, _, rfl, by decide⟩ (.cons_cons ⟨rfl, _, rfl, by decide⟩
      (.singleton _)))
  have hown := (becomes_own_iff hchain).2.2 (by decide)
  exact ⟨hchain, _, _, _, _, rfl, (hown [] _ _ _ rfl).2.2 (by decide), (hown [_] _ _ _ rfl).1.2 (by decide),
    (hown [_, _] _ _ _ rfl).2.2 (by decide)⟩

/-- The accesses of `a?.b.c`: the outer one is not safe, and becomes a safe one. -/
theorem dot_access_to_safe_access : ∃ t receiver : ParseTree, t.IsAccessTo receiver ∧ ¬ t.OwnsSafeOperator ∧
    (Frontend.kotlin fun _ => some ⟨node "source_file" 0 6 [t], false⟩).parse ['a', '?', '.', 'b', '.', 'c'] =
      .ok ⟨.node .file [.node .safeQualifiedExpression [
        .node .safeQualifiedExpression [.token .token ['a'], .token .token ['?', '.'], .token .token ['b']],
        .token .token ['.'], .token .token ['c']]], false⟩ := by
  refine ⟨node "navigation_expression" 0 6 [node "navigation_expression" 0 4 [node "identifier" 0 1 [],
    node "?." 1 3 [], node "identifier" 3 4 []], node "." 4 5 [], node "identifier" 5 6 []], _,
    ⟨rfl, _, rfl, by decide⟩, by decide, rfl⟩

end Kotlin.ParseTree

end IndentLint
