import IndentLint.Proofs.File.Order
import Mathlib.Tactic.TypeStar

/-!
# Sorting a report

Sorting keeps the order of violations that are equal in it, so the violations that a report has about one file are those
of the file, sorted by themselves (`LintResult.filter_sort`).
-/

namespace IndentLint

private theorem append_inj_of_forall {α : Type*} {q : α → Bool} {xs ys xs' ys' : List α}
    (h : xs ++ ys = xs' ++ ys') (hxs : ∀ x ∈ xs, q x = true) (hys : ∀ y ∈ ys, q y = false)
    (hxs' : ∀ x ∈ xs', q x = true) (hys' : ∀ y ∈ ys', q y = false) : xs = xs' ∧ ys = ys' := by
  have hnil : ys.filter q = [] := List.filter_eq_nil_iff.2 fun y hy => by simp [hys y hy]
  have hnil' : ys'.filter q = [] := List.filter_eq_nil_iff.2 fun y hy => by simp [hys' y hy]
  have hfront : xs = xs' := by
    have hfilter := congrArg (List.filter q) h
    rwa [List.filter_append, List.filter_append, List.filter_eq_self.2 hxs, List.filter_eq_self.2 hxs', hnil, hnil',
      List.append_nil, List.append_nil] at hfilter
  subst hfront
  exact ⟨rfl, List.append_cancel_left h⟩

private theorem exists_mergeSort_cons {α : Type*} {le : α → α → Bool}
    (trans : ∀ a b c, le a b = true → le b c = true → le a c = true) (total : ∀ a b, (le a b || le b a) = true)
    (x : α) (xs : List α) :
    ∃ front back, (x :: xs).mergeSort le = front ++ x :: back ∧ xs.mergeSort le = front ++ back ∧
      (∀ b ∈ front, le x b = false) ∧ ∀ b ∈ back, le x b = true := by
  obtain ⟨front, back, hcons, hrest, hfront⟩ := List.mergeSort_cons trans total x xs
  have hsorted := List.pairwise_mergeSort trans total (x :: xs)
  rw [hcons, List.pairwise_append, List.pairwise_cons] at hsorted
  exact ⟨front, back, hcons, hrest, fun b hb => by simpa using hfront b hb, hsorted.2.1.1⟩

/-- Sorting keeps the order of equal entries, so it does not matter whether entries are left out before or after. -/
theorem filter_mergeSort {α : Type*} {le : α → α → Bool}
    (trans : ∀ a b c, le a b = true → le b c = true → le a c = true) (total : ∀ a b, (le a b || le b a) = true)
    (p : α → Bool) (xs : List α) : (xs.mergeSort le).filter p = (xs.filter p).mergeSort le := by
  induction xs with
  | nil => simp
  | cons x xs ih =>
    obtain ⟨front, back, hcons, hrest, hfront, hback⟩ := exists_mergeSort_cons trans total x xs
    by_cases hx : p x = true
    · obtain ⟨front', back', hcons', hrest', hfront', hback'⟩ := exists_mergeSort_cons trans total x (xs.filter p)
      have hsame : front.filter p ++ back.filter p = front' ++ back' := by
        rw [← List.filter_append, ← hrest, ih, hrest']
      -- on both sides `x` is put behind what it must not come before
      obtain ⟨hfronts, hbacks⟩ := append_inj_of_forall (q := fun b => !le x b) hsame
        (fun b hb => by simp [hfront b (List.mem_filter.1 hb).1])
        (fun b hb => by simp [hback b (List.mem_filter.1 hb).1])
        (fun b hb => by simp [hfront' b hb]) (fun b hb => by simp [hback' b hb])
      rw [hcons, List.filter_append, List.filter_cons_of_pos hx, hfronts, hbacks, List.filter_cons_of_pos hx, hcons']
    · rw [hcons, List.filter_append, List.filter_cons_of_neg hx, ← List.filter_append, ← hrest, ih,
        List.filter_cons_of_neg hx]

namespace Violation

private theorem transCmp : Std.TransCmp fun v w : Violation => (v.location.file.compare w.location.file).then
    ((compare v.location.line w.location.line).then (compare v.location.column w.location.column)) := by
  have hfile : Std.TransCmp fun v w : Violation => v.location.file.compare w.location.file :=
    { eq_swap := Std.OrientedCmp.eq_swap
      isLE_trans := Std.TransCmp.isLE_trans }
  have hline : Std.TransCmp fun v w : Violation => compare v.location.line w.location.line :=
    inferInstanceAs (Std.TransCmp (compareOn fun v : Violation => v.location.line))
  have hcolumn : Std.TransCmp fun v w : Violation => compare v.location.column w.location.column :=
    inferInstanceAs (Std.TransCmp (compareOn fun v : Violation => v.location.column))
  exact inferInstanceAs (Std.TransCmp (compareLex _ (compareLex _ _)))

theorem le_trans (u v w : Violation) (huv : u.le v = true) (hvw : v.le w = true) : u.le w = true :=
  transCmp.isLE_trans huv hvw

private theorem le_total (v w : Violation) : (v.le w || w.le v) = true := by
  have hswap := transCmp.eq_swap (a := w) (b := v)
  unfold le
  rw [hswap]
  cases (v.location.file.compare w.location.file).then
    ((compare v.location.line w.location.line).then (compare v.location.column w.location.column)) <;> rfl

end Violation

/-- Some of the violations of a report are in the order that they have by themselves. -/
theorem LintResult.filter_sort (p : Violation → Bool) (violations : List Violation) (m n : Nat) :
    (LintResult.sort ⟨violations, m⟩).violations.filter p = (LintResult.sort ⟨violations.filter p, n⟩).violations :=
  filter_mergeSort Violation.le_trans Violation.le_total p violations

end IndentLint
