import IndentLint.Proofs.Layout.Lines

/-!
# The last line, measured twice

The last line that a text begins is what follows its last line feed, and there it is measured without a carriage return at
the end (`IndentedLine.getLast?_ofText`).  Where the same text anchors the lines nested under it, all carriage returns at
the end are left out.  So the two lengths differ by the carriage returns at the end but one, and are the same just where
the text does not end in two of them (`IndentedLine.last_measured_alike_iff`).
-/

namespace IndentLint

namespace Text

/-- The number of carriage returns at the end. -/
def trailingReturns (cs : List Char) : Nat :=
  (cs.reverse.takeWhile (· == '\r')).length

/-- The carriage returns at the end of a text belong to its last line. -/
private theorem trailingReturns_eq (cs : List Char) :
    trailingReturns cs = ((cs.reverse.takeWhile (· != '\n')).takeWhile (· == '\r')).length := by
  have hboth : (fun c : Char => decide ((c == '\r') = true ∧ (c != '\n') = true)) = fun c => c == '\r' := by
    funext c
    by_cases hc : c = '\r'
    · subst hc; rfl
    · simp [hc]
  rw [trailingReturns, List.takeWhile_takeWhile, hboth]

private theorem length_lastLine (cs : List Char) : (lastLine cs).length = trailingReturns cs + lastLineLength cs := by
  rw [trailingReturns_eq, lastLineLength, lastLine, List.length_reverse, ← List.length_append,
    List.takeWhile_append_dropWhile]

private theorem getLast?_lastLine_eq_return_iff {cs : List Char} :
    (lastLine cs).getLast? = some '\r' ↔ 0 < trailingReturns cs := by
  rw [trailingReturns_eq, lastLine, List.getLast?_reverse]
  cases cs.reverse.takeWhile (· != '\n') with
  | nil => simp
  | cons c line =>
    by_cases hc : c = '\r'
    · simp [hc]
    · simp [hc]

/-- Without one carriage return at the end, the last line is longer than without any by all of them but one. -/
theorem length_dropCarriageReturn_lastLine (cs : List Char) :
    (dropCarriageReturn (lastLine cs)).length = lastLineLength cs + (trailingReturns cs - 1) := by
  have hlength := length_lastLine cs
  unfold dropCarriageReturn
  split
  · rename_i hreturn
    have hpos := getLast?_lastLine_eq_return_iff.1 hreturn
    rw [List.length_dropLast]
    omega
  · rename_i hreturn
    have hzero : trailingReturns cs = 0 := by
      rw [getLast?_lastLine_eq_return_iff] at hreturn
      omega
    omega

private theorem two_le_trailingReturns_iff {cs : List Char} : 2 ≤ trailingReturns cs ↔ ['\r', '\r'] <:+ cs := by
  rw [trailingReturns, ← List.reverse_prefix]
  rcases cs.reverse with _ | ⟨c, _ | ⟨d, rest⟩⟩
  · simp
  · by_cases hc : c = '\r' <;> simp [hc]
  · by_cases hc : c = '\r' <;> by_cases hd : d = '\r' <;> simp [@eq_comm _ '\r', hc, hd]

end Text

namespace IndentedLine

open Text

private theorem ofText_eq_nil {text : List Char} (h : '\n' ∉ text) (start : Nat) : ofText start text = [] := by
  rw [List.eq_nil_iff_forall_not_mem]
  intro line hline
  obtain ⟨front, behind, rfl, -⟩ := mem_ofText.1 hline
  exact h (by simp)

/-- The last line that a text begins is what follows its last line feed. -/
theorem getLast?_ofText (start : Nat) (front : List Char) {tail : List Char} (h : '\n' ∉ tail) :
    (ofText start (front ++ '\n' :: tail)).getLast? = some ⟨start + byteLength front + 1, dropCarriageReturn tail⟩ := by
  induction front generalizing start with
  | nil =>
    have hline : tail.takeWhile (· != '\n') = tail := List.takeWhile_eq_self_iff.2 (bne_newline_of_mem h)
    rw [List.nil_append, ofText_newline, hline, ofText_eq_nil h]
    rfl
  | cons c front ih =>
    have hoffset : start + c.utf8Size + byteLength front + 1 = start + byteLength (c :: front) + 1 := by
      rw [byteLength_cons, Nat.add_assoc start]
    rw [← hoffset]
    by_cases hc : c = '\n'
    · subst hc
      rw [List.cons_append, ofText_newline, List.getLast?_cons, ih]
      rfl
    · rw [List.cons_append, ofText_cons_of_ne hc, ih]

/-- The last line that a text begins is longer than the line that anchors others by the carriage returns at its end but
one; so it is as long just if the text does not end in two of them. -/
theorem last_measured_alike_iff {text : List Char} (h : '\n' ∈ text) (start : Nat) :
    ∃ line, (ofText start text).getLast? = some line ∧
      line.length = lastLineLength text + (trailingReturns text - 1) ∧
      (line.length = lastLineLength text ↔ ¬ ['\r', '\r'] <:+ text) := by
  rcases newline_cases text with hno | ⟨front, tail, htext, htail⟩
  · exact absurd h hno
  · have hline : lastLine text = tail := by
      rw [htext, lastLine_append_newline htail]
    have hlength : (dropCarriageReturn tail).length = lastLineLength text + (trailingReturns text - 1) := by
      rw [← hline]
      exact length_dropCarriageReturn_lastLine text
    refine ⟨⟨start + byteLength front + 1, dropCarriageReturn tail⟩, ?_, hlength, ?_⟩
    · rw [htext, getLast?_ofText start front htail]
    · rw [← two_le_trailingReturns_iff, length, hlength]
      omega

/-- The line that a text with one carriage return at the end begins is as long as the line that anchors others. -/
theorem last_measured_alike_before_return :
    ∃ line, (ofText 0 "\n  \r".toList).getLast? = some line ∧ line.length = lastLineLength "\n  \r".toList := by
  have hnewline : '\n' ∈ "\n  \r".toList := by decide
  obtain ⟨line, hline, -, halike⟩ := last_measured_alike_iff hnewline 0
  exact ⟨line, hline, halike.2 (by decide)⟩

/-- A line of two blanks and two carriage returns, and a line of three blanks nested under it. -/
def sampleReturns : Element :=
  .node .file [.token .whitespace "\n  \r\r".toList,
    .node .node [.token .token "a".toList, .token .whitespace "\n   ".toList, .token .token "b".toList]]

/-- The line before two carriage returns has three characters where it is checked itself, and two where it anchors the
line nested under it. -/
theorem last_measured_apart_before_returns :
    (sampleReturns.whitespace.map fun c => (c.baseline, c.measuredLines.map length)) = [(0, [3]), (2, [3])] ∧
    lastLineLength "\n  \r\r".toList = 2 := by
  decide +kernel

end IndentedLine

end IndentLint
