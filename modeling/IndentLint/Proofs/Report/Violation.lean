import IndentLint.Report.Violation

/-!
# The order of a report

In one file the order of a report is that of the lines and columns, so violations that come line by line are in the
order of a report already, and sorting leaves them alone (`sort_eq_self`).
-/

namespace IndentLint

namespace Component

theorem compare_self (a : Component) : a.compare a = .eq := by
  have hchars : compareOfLessAndEq a.chars a.chars = .eq := by
    rw [compareOfLessAndEq, if_neg (List.lt_irrefl _), if_pos rfl]
  rw [Component.compare, hchars]
  simp

end Component

theorem Path.compare_self (p : Path) : p.compare p = .eq := by
  have hrefl : Std.ReflCmp Component.compare := ⟨Component.compare_self _⟩
  show List.compareLex Component.compare p.components p.components = .eq
  exact Std.ReflCmp.compare_self

namespace Violation

private theorem le_of_line_lt {v w : Violation} (hfile : v.location.file = w.location.file)
    (hline : v.location.line < w.location.line) : v.le w = true := by
  have hlt : compare v.location.line w.location.line = .lt := Nat.compare_eq_lt.2 hline
  rw [le, hfile, Path.compare_self, hlt]
  rfl

end Violation

namespace LintResult

/-- Violations of one file that come line by line are in the order of a report. -/
theorem sort_eq_self {r : LintResult}
    (hfile : ∀ v ∈ r.violations, ∀ w ∈ r.violations, v.location.file = w.location.file)
    (hline : (r.violations.map (·.location.line)).Pairwise (· < ·)) : r.sort = r := by
  have hle : r.violations.Pairwise fun v w => v.le w = true := by
    rw [List.pairwise_map] at hline
    exact hline.imp_of_mem fun hv hw h => Violation.le_of_line_lt (hfile _ hv _ hw) h
  rw [sort, List.mergeSort_of_pairwise hle]

end LintResult

end IndentLint
