import IndentLint.Proofs.Rule.Indentation

/-!
# Any visits of the indentation rule

The walk of an analysis visits every element of one tree once, under one set of properties.  Here the rule is visited
in any order, at elements of any trees and under properties that may change from visit to visit.  What it remembers
is what the last visit of a `file` told it (`stateAfter_of_last`), so whitespace is judged under these units alone, and
it fails only before the first `file` (`visit_lawful`).
-/

namespace IndentLint

/-- One visit of a rule: what the rule is told about the file, and the element. -/
structure Visit where
  context : FileContext
  place : Cursor

namespace Rule

/-- What a rule remembers after a visit; one that fails leaves everything as it was. -/
def next (r : Rule) (v : Visit) (state : r.State) : r.State :=
  match r.visit v.context v.place state with
  | .ok (new, _) => new
  | .error _ => state

/-- What a rule remembers after some visits. -/
def stateAfter (r : Rule) (visits : List Visit) : r.State :=
  visits.foldl (fun state v => r.next v state) r.initial

/-- What a rule says at the visit `v` after some earlier ones. -/
def answer (r : Rule) (earlier : List Visit) (v : Visit) : Except RuleError (List Finding) :=
  (r.visit v.context v.place (r.stateAfter earlier)).map (·.2)

variable (r : Rule) (earlier : List Visit) (v : Visit)

private theorem stateAfter_concat : r.stateAfter (earlier ++ [v]) = r.next v (r.stateAfter earlier) := by
  unfold stateAfter
  rw [List.foldl_append]
  rfl

/-- A visit that fails leaves the state as it was. -/
private theorem stateAfter_of_error {e : RuleError} (h : r.answer earlier v = .error e) :
    r.stateAfter (earlier ++ [v]) = r.stateAfter earlier := by
  rw [stateAfter_concat]
  unfold answer at h
  unfold next
  split
  · rename_i hvisit
    rw [hvisit] at h
    cases h
  · rfl

end Rule

namespace Indentation

variable {severity : Severity} {earlier : List Visit} {v : Visit}

/-! ### One visit -/

private theorem next_file (hv : v.place.kind = .file) (state : State) :
    (rule severity).next v state = some (IndentConfig.ofProperties v.context.properties) := by
  have hvisit : (rule severity).visit v.context v.place state =
      .ok (some (IndentConfig.ofProperties v.context.properties), []) := by
    show visit v.context.properties v.place state = _
    unfold visit
    rw [hv]
    rfl
  unfold Rule.next
  rw [hvisit]

/-- Only a `file` changes what the rule remembers. -/
private theorem next_of_ne_file (hv : v.place.kind ≠ .file) (state : State) : (rule severity).next v state = state := by
  unfold Rule.next
  split
  · rename_i new findings hvisit
    replace hvisit : visit v.context.properties v.place state = .ok (new, findings) := hvisit
    unfold visit at hvisit
    split at hvisit
    · rename_i hkind
      exact absurd hkind hv
    · split at hvisit
      · cases hvisit
      · rename_i config
        cases hcheck : checkUnder config v.place with
        | error e =>
          rw [hcheck] at hvisit
          cases hvisit
        | ok found =>
          rw [hcheck] at hvisit
          cases hvisit
          rfl
    · cases hvisit
      rfl
  · rfl

/-! ### After any visits -/

private theorem stateAfter_append_of_ne_file {between : List Visit} (hbetween : ∀ w ∈ between, w.place.kind ≠ .file) :
    (rule severity).stateAfter (earlier ++ between) = (rule severity).stateAfter earlier := by
  induction between generalizing earlier with
  | nil => rw [List.append_nil]
  | cons w between ih =>
    have hw : w.place.kind ≠ .file := hbetween w (List.mem_cons_self ..)
    rw [List.append_cons, ih fun u hu => hbetween u (List.mem_cons_of_mem _ hu), Rule.stateAfter_concat]
    exact next_of_ne_file hw _

/-- Before the first `file` the rule remembers nothing. -/
private theorem stateAfter_of_forall_ne_file (h : ∀ w ∈ earlier, w.place.kind ≠ .file) :
    (rule severity).stateAfter earlier = (none : State) := by
  have hstart : (rule severity).stateAfter ([] ++ earlier) = (rule severity).stateAfter [] :=
    stateAfter_append_of_ne_file h
  rw [List.nil_append] at hstart
  exact hstart

/-- After a `file` the rule remembers the units that were read there, until the next one. -/
theorem stateAfter_of_last {before between : List Visit} {file : Visit} (hfile : file.place.kind = .file)
    (hbetween : ∀ w ∈ between, w.place.kind ≠ .file) :
    (rule severity).stateAfter (before ++ file :: between) =
      some (IndentConfig.ofProperties file.context.properties) := by
  rw [List.append_cons, stateAfter_append_of_ne_file hbetween, Rule.stateAfter_concat]
  exact next_file hfile _

/-- Among some visits there is no `file`, or a last one. -/
private theorem no_file_or_last (visits : List Visit) :
    (∀ w ∈ visits, w.place.kind ≠ .file) ∨
      ∃ before file between, visits = before ++ file :: between ∧ file.place.kind = .file ∧
        ∀ w ∈ between, w.place.kind ≠ .file := by
  induction visits with
  | nil => exact Or.inl fun w hw => absurd hw List.not_mem_nil
  | cons w visits ih =>
    rcases ih with hnone | ⟨before, file, between, rfl, hfile, hbetween⟩
    · by_cases hw : w.place.kind = .file
      · exact Or.inr ⟨[], w, visits, rfl, hw, hnone⟩
      · refine Or.inl fun u hu => ?_
        rcases List.mem_cons.1 hu with rfl | hu
        · exact hw
        · exact hnone u hu
    · exact Or.inr ⟨w :: before, file, between, rfl, hfile, hbetween⟩

private theorem answer_eq : (rule severity).answer earlier v =
    (visit v.context.properties v.place ((rule severity).stateAfter earlier)).map (·.2) :=
  rfl

private theorem answer_of_ne_whitespace (hv : v.place.kind ≠ .whitespace) :
    (rule severity).answer earlier v = .ok [] := by
  rw [answer_eq]
  unfold visit
  split
  · rfl
  · rename_i hkind
    exact absurd hkind hv
  · rfl

private theorem answer_before_file (hv : v.place.kind = .whitespace) (h : ∀ w ∈ earlier, w.place.kind ≠ .file) :
    (rule severity).answer earlier v = .error (.configurationMissing name) := by
  rw [answer_eq, stateAfter_of_forall_ne_file h]
  unfold visit
  rw [hv]
  rfl

private theorem answer_after_file {before between : List Visit} {file : Visit} (hv : v.place.kind = .whitespace)
    (hfile : file.place.kind = .file) (hbetween : ∀ w ∈ between, w.place.kind ≠ .file) :
    (rule severity).answer (before ++ file :: between) v = .ok (findingsAt file.context.properties v.place) := by
  have hcheck : checkUnder (IndentConfig.ofProperties file.context.properties) v.place =
      .ok (findingsAt file.context.properties v.place) :=
    checkUnder_ofProperties hv
  rw [answer_eq, stateAfter_of_last hfile hbetween]
  unfold visit
  rw [hv]
  dsimp only
  rw [hcheck]
  rfl

/-! ### The law -/

/-- What holds of the visit `v` after any visits. -/
structure Lawful (severity : Severity) (earlier : List Visit) (v : Visit) : Prop where
  /-- The settings are missing just for whitespace before the first `file`. -/
  missing_iff : (rule severity).answer earlier v = .error (.configurationMissing name) ↔
    v.place.kind = .whitespace ∧ ∀ w ∈ earlier, w.place.kind ≠ .file
  /-- Nothing else makes a visit fail, and one that fails has no complaints and leaves the state as it was. -/
  failed : ∀ e, (rule severity).answer earlier v = .error e →
    e = .configurationMissing name ∧ (rule severity).stateAfter (earlier ++ [v]) = (rule severity).stateAfter earlier
  /-- A whitespace token is checked under the units of the last `file`. -/
  token : ∀ before file between text, earlier = before ++ file :: between → file.place.kind = .file →
    (∀ w ∈ between, w.place.kind ≠ .file) → v.place.element = .token .whitespace text →
      match (IndentConfig.ofProperties file.context.properties).units? with
      | some units => ∃ findings, v.place.check units = .ok findings ∧ (rule severity).answer earlier v = .ok findings
      | none => (rule severity).answer earlier v = .ok []
  /-- A whitespace node is passed over after a `file`. -/
  node : ∀ es, v.place.element = .node .whitespace es → (∃ w ∈ earlier, w.place.kind = .file) →
    (rule severity).answer earlier v = .ok []
  /-- No other element has complaints. -/
  other : v.place.kind ≠ .whitespace → (rule severity).answer earlier v = .ok []
  /-- Only a `file` changes the state. -/
  unchanged : v.place.kind ≠ .file → (rule severity).stateAfter (earlier ++ [v]) = (rule severity).stateAfter earlier

private theorem answer_eq_missing_iff (earlier : List Visit) (v : Visit) :
    (rule severity).answer earlier v = .error (.configurationMissing name) ↔
      v.place.kind = .whitespace ∧ ∀ w ∈ earlier, w.place.kind ≠ .file := by
  constructor
  · intro h
    by_cases hv : v.place.kind = .whitespace
    · refine ⟨hv, ?_⟩
      rcases no_file_or_last earlier with hnone | ⟨before, file, between, rfl, hfile, hbetween⟩
      · exact hnone
      · rw [answer_after_file hv hfile hbetween] at h
        cases h
    · rw [answer_of_ne_whitespace hv] at h
      cases h
  · rintro ⟨hv, h⟩
    exact answer_before_file hv h

private theorem eq_missing_of_answer_eq_error {e : RuleError} (h : (rule severity).answer earlier v = .error e) :
    e = .configurationMissing name := by
  by_cases hv : v.place.kind = .whitespace
  · rcases no_file_or_last earlier with hnone | ⟨before, file, between, rfl, hfile, hbetween⟩
    · rw [answer_before_file hv hnone] at h
      exact (Except.error.inj h).symm
    · rw [answer_after_file hv hfile hbetween] at h
      cases h
  · rw [answer_of_ne_whitespace hv] at h
    cases h

/-- Every visit is lawful, whatever visits there were before. -/
theorem visit_lawful (severity : Severity) (earlier : List Visit) (v : Visit) : Lawful severity earlier v where
  missing_iff := answer_eq_missing_iff earlier v
  failed := fun e h => ⟨eq_missing_of_answer_eq_error h, Rule.stateAfter_of_error _ _ _ h⟩
  token := by
    rintro before file between text rfl hfile hbetween hv
    have hkind : v.place.kind = .whitespace := congrArg Element.kind hv
    rw [answer_after_file hkind hfile hbetween]
    unfold findingsAt
    rcases hunits : (IndentConfig.ofProperties file.context.properties).units? with _ | units
    · rfl
    · -- both units are positive, so every line can be measured
      obtain ⟨hblock, hcontinuation⟩ := IndentConfig.units_pos hunits
      refine ⟨_, Cursor.check_of_pos hblock hcontinuation v.place, ?_⟩
      rw [hv, hkind]
      rfl
  node := by
    rintro es hv ⟨w, hw, hfile⟩
    have hkind : v.place.kind = .whitespace := congrArg Element.kind hv
    rcases no_file_or_last earlier with hnone | ⟨before, file, between, rfl, hlast, hbetween⟩
    · exact absurd hfile (hnone w hw)
    · rw [answer_after_file hkind hlast hbetween]
      unfold findingsAt
      rw [hv]
      split <;> rfl
  other := answer_of_ne_whitespace
  unchanged := by
    intro hv
    rw [Rule.stateAfter_concat]
    exact next_of_ne_file hv _

end Indentation

end IndentLint
