import IndentLint.Analysis.Analyzer
import Mathlib.Data.List.Forall2

/-!
# Rules do not interfere

All rules take each element before the walk goes on to the next one, and the first rule that cannot go on ends the walk
for all of them.  Since no rule sees the state of another, the walk of several rules is put together from the walks of
each of them: without a failure it leaves what they leave on their own, and otherwise it ends with the failure at the
earliest element, of several rules that fail there the one that stands first (`walkRules_cases`).  So the violations of
an analysis are those of each rule alone, one after the other (`runRules_alone`).
-/

namespace IndentLint

/-- A traversal comes to its end, or stops at the first entry that fails. -/
theorem mapM_cases {α β ε : Type*} (f : α → Except ε β) (xs : List α) :
    (∃ ys, xs.mapM f = .ok ys ∧ List.Forall₂ (fun x y => f x = .ok y) xs ys) ∨
      ∃ (k : Nat) (x : α) (e : ε), xs.mapM f = .error e ∧ xs[k]? = some x ∧ f x = .error e ∧
        ∀ (j : Nat) (y : α), j < k → xs[j]? = some y → ∃ z, f y = .ok z := by
  induction xs with
  | nil => exact Or.inl ⟨[], rfl, .nil⟩
  | cons x xs ih =>
    cases hx : f x with
    | error e =>
      refine Or.inr ⟨0, x, e, ?_, rfl, hx, ?_⟩
      · rw [List.mapM_cons, hx]
        rfl
      · intro j y hj
        omega
    | ok z =>
      rcases ih with ⟨ys, hys, hall⟩ | ⟨k, y, e, he, hk, hy, hfront⟩
      · refine Or.inl ⟨z :: ys, ?_, .cons hx hall⟩
        rw [List.mapM_cons, hx, hys]
        rfl
      · refine Or.inr ⟨k + 1, y, e, ?_, hk, hy, ?_⟩
        · rw [List.mapM_cons, hx, he]
          rfl
        · intro j w hj hw
          cases j with
          | zero =>
            obtain rfl : x = w := Option.some.inj hw
            exact ⟨z, hx⟩
          | succ j => exact hfront j w (by omega) hw

private theorem exists_of_getElem?_left {R : α → β → Prop} {xs : List α} {ys : List β} (h : List.Forall₂ R xs ys)
    {k : Nat} {x : α} (hk : xs[k]? = some x) : ∃ y, ys[k]? = some y ∧ R x y := by
  induction h generalizing k with
  | nil => cases hk
  | cons hxy _ ih =>
    cases k with
    | zero =>
      obtain rfl := Option.some.inj hk
      exact ⟨_, rfl, hxy⟩
    | succ k => exact ih hk

/-! ### One rule -/

namespace RunningRule

/-- The rule takes the elements before the `n`th, and this one it cannot take. -/
inductive FailsAt (ctx : FileContext) : RunningRule → List Cursor → Nat → RuleError → Prop
  | here {r : RunningRule} {c : Cursor} {cs : List Cursor} {e : RuleError} :
    r.step ctx c = .error e → FailsAt ctx r (c :: cs) 0 e
  | later {r next : RunningRule} {c : Cursor} {cs : List Cursor} {n : Nat} {e : RuleError} :
    r.step ctx c = .ok next → FailsAt ctx next cs n e → FailsAt ctx r (c :: cs) (n + 1) e

end RunningRule

private theorem walkRules_singleton_cons (ctx : FileContext) (r : RunningRule) (c : Cursor) (cs : List Cursor) :
    walkRules ctx [r] (c :: cs) = (r.step ctx c).bind fun next => walkRules ctx [next] cs := by
  rw [walkRules, List.mapM_cons]
  cases r.step ctx c with
  | error e => rfl
  | ok next => rfl

/-- A rule that fails ends its own walk with its error. -/
private theorem walkRules_of_failsAt {ctx : FileContext} {r : RunningRule} {cs : List Cursor} {n : Nat} {e : RuleError}
    (h : r.FailsAt ctx cs n e) : walkRules ctx [r] cs = .error e := by
  induction h with
  | here hstep =>
    rw [walkRules_singleton_cons, hstep]
    rfl
  | later hstep _ ih =>
    rw [walkRules_singleton_cons, hstep]
    exact ih

/-! ### Several rules -/

/-- Without a rule the walk does nothing, however long it is. -/
theorem walkRules_nil (ctx : FileContext) (cs : List Cursor) : walkRules ctx [] cs = .ok [] := by
  induction cs with
  | nil => rfl
  | cons c cs ih => exact ih

/-- The `k`th rule fails at the `n`th element; no rule fails earlier, nor does a rule before it fail there. -/
structure FirstFailure (ctx : FileContext) (cs : List Cursor) (running : List RunningRule) (n k : Nat)
    (e : RuleError) : Prop where
  fails : ∃ r, running[k]? = some r ∧ r.FailsAt ctx cs n e
  first : ∀ n' k' r' e', running[k']? = some r' → r'.FailsAt ctx cs n' e' → n < n' ∨ n = n' ∧ k ≤ k'

variable {ctx : FileContext} {c : Cursor} {cs : List Cursor} {running next : List RunningRule}

/-- A failure at the very next element is the first one where the rules before it take that element. -/
theorem FirstFailure.here {k : Nat} {r : RunningRule} {e : RuleError} (hk : running[k]? = some r)
    (hr : r.step ctx c = .error e) (hfront : ∀ j q, j < k → running[j]? = some q → ∃ z, q.step ctx c = .ok z) :
    FirstFailure ctx (c :: cs) running 0 k e where
  fails := ⟨r, hk, .here hr⟩
  first := by
    intro n' k' r' e' hk' hfails
    cases hfails with
    | here hstep =>
      refine Or.inr ⟨rfl, ?_⟩
      by_contra hlt
      obtain ⟨z, hz⟩ := hfront k' r' (by omega) hk'
      rw [hz] at hstep
      cases hstep
    | later _ _ => exact Or.inl (Nat.succ_pos _)

/-- Where all rules take an element, the first failure is that of the rest of their walk. -/
theorem FirstFailure.later {n k : Nat} {e : RuleError}
    (hstep : List.Forall₂ (fun r d => r.step ctx c = .ok d) running next) (h : FirstFailure ctx cs next n k e) :
    FirstFailure ctx (c :: cs) running (n + 1) k e where
  fails := by
    obtain ⟨d, hd, hfails⟩ := h.fails
    have hback : List.Forall₂ (fun d r => r.step ctx c = .ok d) next running := hstep.flip
    obtain ⟨r, hr, hrd⟩ := exists_of_getElem?_left hback hd
    exact ⟨r, hr, .later hrd hfails⟩
  first := by
    intro n' k' r' e' hk' hfails
    obtain ⟨d, hd, hrd⟩ := exists_of_getElem?_left hstep hk'
    cases hfails with
    | here herror =>
      rw [hrd] at herror
      cases herror
    | later hnext hrest =>
      rw [hrd] at hnext
      obtain rfl := Except.ok.inj hnext
      rcases h.first _ _ _ _ hd hrest with hlt | ⟨rfl, hle⟩
      · exact Or.inl (by omega)
      · exact Or.inr ⟨rfl, hle⟩

private theorem forall₂_walk_cons {done : List RunningRule}
    (hstep : List.Forall₂ (fun r d => r.step ctx c = .ok d) running next)
    (hwalk : List.Forall₂ (fun r d => walkRules ctx [r] cs = .ok [d]) next done) :
    List.Forall₂ (fun r d => walkRules ctx [r] (c :: cs) = .ok [d]) running done := by
  induction hstep generalizing done with
  | nil =>
    cases hwalk
    exact .nil
  | cons hr _ ih =>
    cases hwalk with
    | cons hd hrest =>
      refine .cons ?_ (ih hrest)
      rw [walkRules_singleton_cons, hr]
      exact hd

/-- The walk of several rules leaves what each of them leaves on its own, or ends with the first failure. -/
theorem walkRules_cases (ctx : FileContext) (cs : List Cursor) (running : List RunningRule) :
    (∃ done, walkRules ctx running cs = .ok done ∧
        List.Forall₂ (fun r d => walkRules ctx [r] cs = .ok [d]) running done) ∨
      ∃ n k e, walkRules ctx running cs = .error e ∧ FirstFailure ctx cs running n k e := by
  induction cs generalizing running with
  | nil => exact Or.inl ⟨running, rfl, List.forall₂_same.2 fun _ _ => rfl⟩
  | cons c cs ih =>
    rcases mapM_cases (RunningRule.step ctx c) running with ⟨next, hmap, hstep⟩ | ⟨k, r, e, hmap, hk, hr, hfront⟩
    · have hwalk : walkRules ctx running (c :: cs) = walkRules ctx next cs := by
        rw [walkRules, hmap]
      rw [hwalk]
      rcases ih next with ⟨done, hdone, hall⟩ | ⟨n, k, e, he, hfirst⟩
      · exact Or.inl ⟨done, hdone, forall₂_walk_cons hstep hall⟩
      · exact Or.inr ⟨n + 1, k, e, he, hfirst.later hstep⟩
    · refine Or.inr ⟨0, k, e, ?_, .here hk hr hfront⟩
      rw [walkRules, hmap]

/-! ### The violations of an analysis -/

namespace Analyzer

/-- The same analysis with one rule alone. -/
def only (a : Analyzer) (r : Rule) : Analyzer :=
  { a with rules := [r] }

/-- The violations that a rule has found. -/
def report (a : Analyzer) (ctx : FileContext) (text : List Char) (r : RunningRule) : List Violation :=
  r.findings.map (a.violation ctx.relativePath text (LineIndex.ofText text) r.rule)

variable (a : Analyzer) (ctx : FileContext) (tree : Element) (text : List Char)

theorem runRules_eq : a.runRules ctx tree text =
    (walkRules ctx (a.enabledRules.map RunningRule.start) tree.positions).map fun done =>
      done.flatMap (a.report ctx text) :=
  rfl

/-- A rule that is switched off has no violations. -/
private theorem runRules_only_of_disabled {r : Rule} (h : a.config.isRuleEnabled r.name = false) :
    (a.only r).runRules ctx tree text = .ok [] := by
  have hrules : (a.only r).enabledRules = [] := List.filter_cons_of_neg (by rw [only, h]; exact Bool.false_ne_true)
  rw [runRules_eq, hrules, List.map_nil, walkRules_nil]
  rfl

private theorem runRules_only_of_enabled {r : Rule} {d : RunningRule} (h : a.config.isRuleEnabled r.name = true)
    (hwalk : walkRules ctx [.start r] tree.positions = .ok [d]) :
    (a.only r).runRules ctx tree text = .ok (a.report ctx text d) := by
  have hrules : (a.only r).enabledRules = [r] := List.filter_cons_of_pos h
  rw [runRules_eq, hrules, List.map_singleton, hwalk]
  show Except.ok ([d].flatMap (a.report ctx text)) = _
  rw [List.flatMap_cons, List.flatMap_nil, List.append_nil]

/-- What the rules that are switched on have found makes up what all rules find on their own. -/
private theorem exists_parts (rules : List Rule) {done : List RunningRule}
    (hdone : List.Forall₂ (fun r d => walkRules ctx [r] tree.positions = .ok [d])
      ((rules.filter fun r => a.config.isRuleEnabled r.name).map RunningRule.start) done) :
    ∃ parts, (rules.mapM fun r => (a.only r).runRules ctx tree text) = .ok parts ∧
      parts.flatten = done.flatMap (a.report ctx text) := by
  induction rules generalizing done with
  | nil =>
    cases hdone
    exact ⟨[], rfl, rfl⟩
  | cons r rules ih =>
    by_cases henabled : a.config.isRuleEnabled r.name = true
    · rw [List.filter_cons, if_pos henabled, List.map_cons] at hdone
      cases hdone with
      | @cons _ d _ rest hr hrest =>
        obtain ⟨parts, hparts, hflat⟩ := ih hrest
        refine ⟨a.report ctx text d :: parts, ?_, ?_⟩
        · rw [List.mapM_cons, runRules_only_of_enabled a ctx tree text henabled hr, hparts]
          rfl
        · rw [List.flatten_cons, List.flatMap_cons, hflat]
    · rw [List.filter_cons, if_neg henabled] at hdone
      obtain ⟨parts, hparts, hflat⟩ := ih hdone
      refine ⟨[] :: parts, ?_, ?_⟩
      · rw [List.mapM_cons, runRules_only_of_disabled a ctx tree text (Bool.eq_false_iff.2 henabled), hparts]
        rfl
      · rw [List.flatten_cons, List.nil_append, hflat]

/-- Where no rule that is switched on fails on its own, an analysis has the violations that each rule has alone, rule
by rule; otherwise it ends with the first failure. -/
theorem runRules_alone :
    ((∀ r ∈ a.enabledRules, ∀ n e, ¬(RunningRule.start r).FailsAt ctx tree.positions n e) →
      ∃ parts, (a.rules.mapM fun r => (a.only r).runRules ctx tree text) = .ok parts ∧
        a.runRules ctx tree text = .ok parts.flatten) ∧
    ((∃ r ∈ a.enabledRules, ∃ n e, (RunningRule.start r).FailsAt ctx tree.positions n e) →
      ∃ n k e, FirstFailure ctx tree.positions (a.enabledRules.map RunningRule.start) n k e ∧
        a.runRules ctx tree text = .error e) := by
  rcases walkRules_cases ctx tree.positions (a.enabledRules.map RunningRule.start) with
    ⟨done, hwalk, hdone⟩ | ⟨n, k, e, hwalk, hfirst⟩
  · refine ⟨fun _ => ?_, ?_⟩
    · obtain ⟨parts, hparts, hflat⟩ := a.exists_parts ctx tree text a.rules hdone
      refine ⟨parts, hparts, ?_⟩
      rw [runRules_eq, hwalk, hflat]
      rfl
    · rintro ⟨r, hr, n, e, hfails⟩
      -- the walk of a rule that fails does not come to its end
      obtain ⟨k, hk⟩ := List.mem_iff_getElem?.1 (List.mem_map_of_mem hr)
      obtain ⟨d, -, hd⟩ := exists_of_getElem?_left hdone hk
      rw [walkRules_of_failsAt hfails] at hd
      cases hd
  · refine ⟨fun hnone => ?_, fun _ => ⟨n, k, e, hfirst, ?_⟩⟩
    · obtain ⟨r, hk, hfails⟩ := hfirst.fails
      obtain ⟨rule, hrule, rfl⟩ := List.mem_map.1 (List.mem_of_getElem? hk)
      exact absurd hfails (hnone rule hrule n e)
    · rw [runRules_eq, hwalk]
      rfl

end Analyzer

end IndentLint
