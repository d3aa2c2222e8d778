import IndentLint.Proofs.Layout.Findings
import Mathlib.Data.List.Basic

/-!
# Finer units

Where two units divide two others, the one of them that applies to whitespace divides the other one that applies, also
where equal units keep one side from looking at the context (`required_dvd`).  A line that is a multiple of the coarser
unit away from its baseline is then a multiple of the finer unit away from it.  So the finer units complain about some of
the lines that the coarser ones complain about, namely about those that miss the finer unit too
(`Element.check_finer_units`).
-/

namespace IndentLint

/-- Each of two units divides the one of two others that has the same use. -/
structure Units.Divide (finer coarser : Units) : Prop where
  block : finer.block ∣ coarser.block
  continuation : finer.continuation ∣ coarser.continuation

variable {finer coarser : Units}

namespace Cursor

-- equal units skip the context, but then it does not matter which of the two is taken
private theorem required_eq (units : Units) (c : Cursor) :
    units.required c = if c.context.isContinuation then units.continuation else units.block := by
  unfold Units.required
  by_cases hsame : units.continuation = units.block
  · simp [hsame]
  · simp [hsame]

theorem required_dvd (h : finer.Divide coarser) (c : Cursor) : finer.required c ∣ coarser.required c := by
  rw [required_eq, required_eq]
  split
  · exact h.continuation
  · exact h.block

private theorem fits_finer (h : finer.Divide coarser) {c : Cursor} {n : Nat}
    (hfits : c.fits (coarser.required c) n = true) : c.fits (finer.required c) n = true := by
  have hdvd : (finer.required c : Int) ∣ coarser.required c := Int.natCast_dvd_natCast.2 (required_dvd h c)
  rw [fits_iff] at hfits ⊢
  exact Int.dvd_trans hdvd hfits

/-- The finer units complain about some of the lines of a token that the coarser ones complain about, in the same
order. -/
private theorem sublist_offset_findings (h : finer.Divide coarser) (c : Cursor) :
    ((c.findings finer).map (·.offset)).Sublist ((c.findings coarser).map (·.offset)) := by
  have hlines : (c.measuredLines.filter fun line =>
        !c.fits (finer.required c) line.length && !c.alignsWithParameter line.length).Sublist
      (c.measuredLines.filter fun line =>
        !c.fits (coarser.required c) line.length && !c.alignsWithParameter line.length) := by
    apply List.monotone_filter_right
    intro line hline
    simp only [Bool.and_eq_true, Bool.not_eq_true'] at hline ⊢
    obtain ⟨hmissed, haligns⟩ := hline
    refine ⟨?_, haligns⟩
    apply Bool.eq_false_iff.2
    intro hfits
    have := fits_finer h hfits
    rw [hmissed] at this
    cases this
  simp only [findings, List.map_map]
  exact hlines.map _

end Cursor

/-- The lines to complain about under the finer units are those under the coarser ones that miss the finer unit too. -/
theorem misindented_finer_iff (h : finer.Divide coarser) {root : Element} {c : Cursor} {offset n : Nat} :
    Misindented finer root c offset n ↔
      Misindented coarser root c offset n ∧ ¬ (finer.required c : Int) ∣ (n : Int) - c.baseline := by
  have hdvd : (finer.required c : Int) ∣ coarser.required c := Int.natCast_dvd_natCast.2 (Cursor.required_dvd h c)
  constructor
  · intro hline
    have hmissed := Units.exists_applies_iff.1 hline.offUnit
    refine ⟨⟨hline.line, hline.outsideComments, ?_, hline.unaligned⟩, hmissed⟩
    rw [Units.exists_applies_iff]
    intro hmet
    exact hmissed (Int.dvd_trans hdvd hmet)
  · rintro ⟨hline, hmissed⟩
    exact ⟨hline.line, hline.outsideComments, Units.exists_applies_iff.2 hmissed, hline.unaligned⟩

namespace Element

open Cursor

private theorem mem_offset_findings {units : Units} {root : Element} {offset : Nat} :
    offset ∈ (root.whitespace.flatMap (Cursor.findings units)).map (·.offset) ↔
      ∃ c n, Misindented units root c offset n := by
  rw [List.mem_map]
  constructor
  · rintro ⟨f, hf, rfl⟩
    obtain ⟨c, n, hline, -⟩ := mem_flatMap_findings.1 hf
    exact ⟨c, n, hline⟩
  · rintro ⟨c, n, hline⟩
    have hcomplaint : c.Complaint units n (c.message units n) := complaint_iff.2 rfl
    exact ⟨⟨offset, c.message units n, false⟩, mem_flatMap_findings.2 ⟨c, n, hline, hcomplaint, rfl⟩, rfl⟩

/-- Of the lines that the coarser units complain about, the finer units complain about those that miss the finer unit
too, and about no others. -/
theorem check_finer_units (root : Element) (hblock : 0 < coarser.block) (hcontinuation : 0 < coarser.continuation)
    (h : finer.Divide coarser) :
    ∃ findings findings', root.check finer = .ok findings ∧ root.check coarser = .ok findings' ∧
      (findings.map (·.offset)).Sublist (findings'.map (·.offset)) ∧
      ∀ offset, offset ∈ findings.map (·.offset) ↔ ∃ c n, Misindented coarser root c offset n ∧
        ¬ (finer.required c : Int) ∣ (n : Int) - c.baseline := by
  have hblock' : 0 < finer.block := Nat.pos_of_dvd_of_pos h.block hblock
  have hcontinuation' : 0 < finer.continuation := Nat.pos_of_dvd_of_pos h.continuation hcontinuation
  refine ⟨_, _, check_of_pos hblock' hcontinuation' root, check_of_pos hblock hcontinuation root, ?_, ?_⟩
  · rw [List.map_flatMap, List.map_flatMap]
    exact List.Sublist.flatMap_right _ fun c _ => sublist_offset_findings h c
  · intro offset
    rw [mem_offset_findings]
    constructor
    · rintro ⟨c, n, hline⟩
      exact ⟨c, n, (misindented_finer_iff h).1 hline⟩
    · rintro ⟨c, n, hline⟩
      exact ⟨c, n, (misindented_finer_iff h).2 hline⟩

/-- Behind `a =`, a line of four columns and one of three. -/
def twoLinesBehindAssignment : Element :=
  .node .file [.token .token ['a'], .token .assignmentOperator ['='],
    .token .whitespace ['\n', ' ', ' ', ' ', ' ', '\n', ' ', ' ', ' '], .token .token ['b']]

/-- A continuation of four columns misses a unit of eight but not one of two, which is the block unit as well. -/
theorem check_finer_units_behind_assignment : (⟨2, 2⟩ : Units).Divide ⟨4, 8⟩ ∧
    ∃ findings findings', twoLinesBehindAssignment.check ⟨2, 2⟩ = .ok findings ∧
      twoLinesBehindAssignment.check ⟨4, 8⟩ = .ok findings' ∧ findings'.map (·.offset) = [3, 8] ∧
      findings.map (·.offset) = [8] ∧ (findings.map (·.offset)).Sublist (findings'.map (·.offset)) := by
  have hdivide : (⟨2, 2⟩ : Units).Divide ⟨4, 8⟩ := ⟨by decide, by decide⟩
  obtain ⟨findings, findings', hfindings, hfindings', hsublist, -⟩ :=
    check_finer_units twoLinesBehindAssignment (by decide) (by decide) hdivide
  obtain rfl : [⟨8, unitMessage 3 2, false⟩] = findings := Except.ok.inj hfindings
  obtain rfl : [⟨3, unitMessage 4 8, false⟩, ⟨8, unitMessage 3 8, false⟩] = findings' := Except.ok.inj hfindings'
  exact ⟨hdivide, _, _, hfindings, hfindings', rfl, rfl, hsublist⟩

end Element

end IndentLint
