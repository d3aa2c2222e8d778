import IndentLint.Analysis.Analyzer
import IndentLint.Proofs.Layout.Findings
import IndentLint.Proofs.Layout.Unit
import IndentLint.Proofs.Syntax.Subelements
import IndentLint.Rule.Indentation

/-!
# The indentation rule on its walk

The walk meets the root of a file first, where the rule reads the units, and below the root there is no other file, so
the units stay.  Both are positive, so every whitespace token can be measured, and the walk never fails.  At its end
the rule has found what the checker finds under these units (`walkRules_start`).
-/

namespace IndentLint.Indentation

/-- The complaints about a tree under the units that the properties give. -/
def findings (properties : Properties) (root : Element) : List Finding :=
  match (IndentConfig.ofProperties properties).units? with
  | none => []
  | some units => root.whitespace.flatMap (Cursor.findings units)

/-- The complaints about one element under the units that the properties give. -/
def findingsAt (properties : Properties) (c : Cursor) : List Finding :=
  match (IndentConfig.ofProperties properties).units? with
  | none => []
  | some units => if !c.element.isNode && c.kind == .whitespace then c.findings units else []

variable {properties : Properties} {c : Cursor}

theorem checkUnder_ofProperties (hc : c.kind = .whitespace) :
    checkUnder (IndentConfig.ofProperties properties) c = .ok (findingsAt properties c) := by
  rw [checkUnder, findingsAt, hc]
  rcases hunits : (IndentConfig.ofProperties properties).units? with _ | units
  · rfl
  · obtain ⟨hblock, hcontinuation⟩ := IndentConfig.units_pos hunits
    cases he : c.element with
    | token kind text =>
      dsimp only
      rw [Cursor.check_of_pos hblock hcontinuation]
      rfl
    | node kind es => rfl

/-- Below the root the units stay, and the complaints are those of the checker. -/
private theorem visit_of_ne_file (hc : c.kind ≠ .file) :
    visit properties c (some (IndentConfig.ofProperties properties)) =
      .ok (some (IndentConfig.ofProperties properties), findingsAt properties c) := by
  by_cases hblank : c.kind = .whitespace
  · unfold visit
    rw [hblank]
    dsimp only
    rw [checkUnder_ofProperties hblank]
    rfl
  · have hfindings : findingsAt properties c = [] := by
      rw [findingsAt]
      split
      · rfl
      · simp [hblank]
    unfold visit
    rw [hfindings]
    split
    · rename_i hkind
      exact absurd hkind hc
    · rename_i hkind
      exact absurd hkind hblank
    · rfl

private theorem flatMap_findingsAt (properties : Properties) (root : Element) :
    root.positions.flatMap (findingsAt properties) = findings properties root := by
  unfold findings findingsAt
  rcases (IndentConfig.ofProperties properties).units? with _ | units
  · exact List.flatMap_eq_nil_iff.2 fun _ _ => rfl
  · rw [Element.whitespace, Element.tokens, List.filter_filter]
    dsimp only
    induction root.positions with
    | nil => rfl
    | cons d ds ih =>
      rw [List.flatMap_cons, ih, List.filter_cons, Bool.and_comm (d.kind == .whitespace)]
      split <;> rfl

/-! ### The walk -/

/-- The rule somewhere below the root of a file, with what it has found so far. -/
def belowRoot (ctx : FileContext) (severity : Severity) (found : List (List Finding)) : RunningRule :=
  ⟨rule severity, some (IndentConfig.ofProperties ctx.properties), found⟩

variable (ctx : FileContext) (severity : Severity)

private theorem step_belowRoot (hc : c.kind ≠ .file) (found : List (List Finding)) :
    (belowRoot ctx severity found).step ctx c =
      .ok (belowRoot ctx severity (findingsAt ctx.properties c :: found)) := by
  have hvisit : (rule severity).visit ctx c (some (IndentConfig.ofProperties ctx.properties)) =
      .ok (some (IndentConfig.ofProperties ctx.properties), findingsAt ctx.properties c) :=
    visit_of_ne_file hc
  rw [belowRoot, RunningRule.step]
  dsimp only
  rw [hvisit]
  rfl

private theorem walkRules_belowRoot {cs : List Cursor} (hcs : ∀ c ∈ cs, c.kind ≠ .file) (found : List (List Finding)) :
    walkRules ctx [belowRoot ctx severity found] cs =
      .ok [belowRoot ctx severity ((cs.map (findingsAt ctx.properties)).reverse ++ found)] := by
  induction cs generalizing found with
  | nil => rfl
  | cons c cs ih =>
    have hstep := step_belowRoot ctx severity (hcs c (by simp)) found
    have hmap : [belowRoot ctx severity found].mapM (·.step ctx c) =
        .ok [belowRoot ctx severity (findingsAt ctx.properties c :: found)] := by
      rw [List.mapM_cons, hstep]
      rfl
    rw [walkRules, hmap]
    dsimp only
    rw [ih fun d hd => hcs d (by simp [hd])]
    simp

/-- On its walk through a file the rule finds what the checker finds under the units of the file. -/
theorem walkRules_start {es : List Element} (hes : ∀ e ∈ Element.subelementsOfList es, e.kind ≠ .file) :
    ∃ r : RunningRule, walkRules ctx [.start (rule severity)] (Element.node .file es).positions = .ok [r] ∧
      r.rule = rule severity ∧ r.findings = findings ctx.properties (.node .file es) := by
  -- the root sets the units, and nothing below it sets them again
  have hbelow : ∀ c ∈ Element.positionsOfList .file [] 0 [] es, c.kind ≠ .file :=
    fun c hc => hes _ (Element.element_mem_subelementsOfList es hc)
  have hroot : [RunningRule.start (rule severity)].mapM (·.step ctx ⟨.node .file es, 0, []⟩) =
      .ok [belowRoot ctx severity [[]]] := by
    rw [List.mapM_cons]
    rfl
  have hwalk : walkRules ctx [.start (rule severity)] (Element.node .file es).positions =
      walkRules ctx [belowRoot ctx severity [[]]] (Element.positionsOfList .file [] 0 [] es) := by
    rw [Element.positions, Element.positionsAt, walkRules, hroot]
  refine ⟨_, hwalk.trans (walkRules_belowRoot ctx severity hbelow [[]]), rfl, ?_⟩
  have hfirst : findingsAt ctx.properties ⟨.node .file es, 0, []⟩ = [] := by
    rw [findingsAt]
    split <;> rfl
  rw [← flatMap_findingsAt, Element.positions, Element.positionsAt, List.flatMap_cons, hfirst]
  simp [belowRoot, RunningRule.findings, List.flatMap_def]

end IndentLint.Indentation
