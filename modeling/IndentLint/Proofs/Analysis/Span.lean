import IndentLint.Proofs.Analysis.Kotlin
import IndentLint.Proofs.Kotlin.Whitespace
import IndentLint.Proofs.Layout.CitedUnit

/-!
# What a violation spans

The checker measures the whole indentation of a line, which is whitespace of any kind, while the length of a violation
is counted anew in the source and there only as far as the line goes on with blanks and tabs.  Both see the same
characters: a whitespace token is as long as it can be, and neither a line feed nor a carriage return is counted.  So a
violation spans the blanks and tabs at the front of the indentation that its message gives the length of, and that is
all of the indentation if it has no other characters, and only then (`analyzeSource_kotlin_spans`).
-/

namespace IndentLint

open Text

/-! ### The margin of an indentation -/

/-- The character behind a whitespace token is visible. -/
private theorem WhitespaceHoisted.isBlank_behind {source before after : List Char} {root : Element} {c : Cursor}
    (hhoisted : WhitespaceHoisted source root) (hc : c ∈ root.whitespace)
    (hsource : source = before ++ (c.element.text ++ after)) (hstart : c.start = byteLength before) :
    ∀ x ∈ after.head?, isBlank x = false := by
  obtain ⟨hmem, hkind⟩ := List.mem_filter.1 hc
  obtain ⟨-, before', after', hmaximal, hstart', -, hnext⟩ := hhoisted.whitespace_maximal c hmem (by simpa using hkind)
  -- as many bytes come before the token, so the text is cut at one place
  have hcut := splitBytes?_byteLength before' (c.element.text ++ after')
  rw [← hmaximal, ← hstart', hstart, hsource, splitBytes?_byteLength] at hcut
  obtain rfl : after = after' := List.append_cancel_left (Prod.mk.inj (Option.some.inj hcut)).2
  exact hnext

/-- At a line that a whitespace token begins, the source goes on with the blanks and tabs at the front of the
indentation, and these are what is counted there. -/
theorem WhitespaceHoisted.slice?_indentationAt {source : List Char} {root : Element} {c : Cursor} {offset : Nat}
    {indentation : List Char} (hhoisted : WhitespaceHoisted source root) (htext : root.text = source)
    (h : c.BeginsLine root offset indentation) :
    slice? source offset (offset + indentationAt source offset) = some (margin indentation) := by
  obtain ⟨hpos, before, front, behind, after, htoken, hroot, hstart, rfl, hindentation⟩ := h
  obtain rfl := isIndentation_iff.1 hindentation
  rw [htext] at hroot
  have hnext : ∀ x ∈ after.head?, isBlank x = false := by
    refine hhoisted.isBlank_behind (Element.mem_whitespace.2 ⟨hpos, _, htoken⟩) ?_ hstart
    rw [hroot, htoken, Element.text_token]
  have hline : source = (before ++ front ++ ['\n']) ++ (behind ++ after) := by
    rw [hroot]
    simp
  have hmargin : margin (behind ++ after) = margin (dropCarriageReturn (behind.takeWhile (· != '\n'))) := by
    rw [margin_dropCarriageReturn, margin_takeWhile_newline]
    refine margin_append fun x hx => ?_
    have hvisible := hnext x hx
    constructor
    · rintro rfl
      exact absurd hvisible (by decide)
    · rintro rfl
      exact absurd hvisible (by decide)
  have hcount : indentationAt source (byteLength (before ++ front) + 1) = byteLength (margin (behind ++ after)) := by
    rw [← indentationAt_newline, hline, ← List.append_cons]
  obtain ⟨rest, hrest⟩ : ∃ rest, behind ++ after = margin (behind ++ after) ++ rest :=
    ⟨_, List.takeWhile_append_dropWhile.symm⟩
  have hslice := slice?_byteLength (before ++ front ++ ['\n']) (margin (behind ++ after)) rest
  rw [← hrest, ← hline, byteLength_append_newline] at hslice
  rw [hcount, ← hmargin]
  exact hslice

/-! ### The span of a violation -/

namespace Violation

/-- The text that the violation spans in its source. -/
def span? (v : Violation) (source : List Char) : Option (List Char) :=
  slice? source v.location.offset (v.location.offset + v.location.length)

/-- The violation is at the line that a whitespace token begins with `indentation`, and its message gives the number
of characters of the indentation. -/
structure Measures (v : Violation) (root : Element) (c : Cursor) (indentation : List Char) : Prop where
  begins : c.BeginsLine root v.location.offset indentation
  ne_nil : indentation ≠ []
  cites : ∃ unit, Cites indentation.length unit v.message

end Violation

namespace Analyzer

variable (a : Analyzer) (grammar : Kotlin.Grammar) (severity : Severity) (path : Path) {source : List Char}

private theorem exists_measures_kotlinViolation {root : Kotlin.ParseTree} {f : Finding}
    (hf : f ∈ a.kotlinFindings path source root) :
    ∃ c indentation, (a.kotlinViolation severity path source f).Measures (root.toElement source) c indentation := by
  unfold kotlinFindings Indentation.findings at hf
  split at hf
  · split at hf
    · cases hf
    · rename_i units _
      obtain ⟨c, hc, hfound⟩ := List.mem_flatMap.1 hf
      obtain ⟨hpos, text, htoken⟩ := Element.mem_whitespace.1 hc
      obtain ⟨line, hline, -, -, rfl⟩ := Cursor.mem_findings.1 hfound
      obtain ⟨hbegins, hne, -⟩ := (Cursor.mem_measuredLines htoken).1 hline
      exact ⟨c, line.indentation, (Cursor.beginsLine_iff hpos htoken line).1 hbegins, hne, _, c.cites_message units _⟩
  · cases hf

/-- Each violation of a Kotlin source is about the indentation of a line and gives its number of characters.  The
violation spans the blanks and tabs at the front of this indentation.  So it spans all of it, and as many characters as
its message says, just if the indentation has no other characters. -/
theorem analyzeSource_kotlin_spans {vs : List Violation}
    (h : (a.kotlin grammar severity).analyzeSource path source = .ok vs) :
    ∃ p, grammar source = some p ∧ ∀ v ∈ vs,
      (∃ c indentation, v.Measures (p.root.toElement source) c indentation) ∧
      ∀ c indentation, v.Measures (p.root.toElement source) c indentation →
        v.span? source = some (margin indentation) ∧
        (v.span? source = some indentation ↔ ∀ x ∈ indentation, x = ' ' ∨ x = '\t') ∧
        ∀ span n unit, v.span? source = some span → Cites n unit v.message →
          (span.length = n ↔ ∀ x ∈ indentation, x = ' ' ∨ x = '\t') := by
  obtain ⟨-, p, hgrammar, -, rfl⟩ := (analyzeSource_kotlin_eq_ok_iff ..).1 h
  refine ⟨p, hgrammar, fun v hv => ?_⟩
  obtain ⟨f, hf, rfl⟩ := List.mem_map.1 hv
  refine ⟨exists_measures_kotlinViolation a severity path hf, fun c indentation hmeasures => ?_⟩
  have hspan : (a.kotlinViolation severity path source f).span? source = some (margin indentation) :=
    (whitespaceHoisted_toElement source p.root).slice?_indentationAt (Kotlin.ParseTree.text_toElement source p.root)
      hmeasures.begins
  refine ⟨hspan, ?_, fun span n unit hspan' hcites => ?_⟩
  · rw [hspan, Option.some.injEq, margin_eq_self_iff]
  · obtain ⟨_, hcited⟩ := hmeasures.cites
    obtain ⟨rfl, -⟩ := hcites.unique hcited
    obtain rfl : margin indentation = span := Option.some.inj (hspan.symm.trans hspan')
    rw [length_margin_eq_iff, margin_eq_self_iff]

/-- Two blanks and a tab are measured, and all three characters are spanned. -/
theorem spans_tab_after_blanks :
    ∃ v c, (kotlin ⟨⟨"/p"⟩, [], [], [], .default, false⟩ (fun _ => some ⟨.node "source_file" 0 7 [], false⟩)
        .error).analyzeSource ⟨"a.kt"⟩ ['a', '\n', ' ', ' ', '\t', 'b'] = .ok [v] ∧
      v.Measures (Kotlin.ParseTree.toElement ['a', '\n', ' ', ' ', '\t', 'b'] (.node "source_file" 0 7 [])) c
        [' ', ' ', '\t'] ∧
      v.span? ['a', '\n', ' ', ' ', '\t', 'b'] = some [' ', ' ', '\t'] := by
  have h : (kotlin ⟨⟨"/p"⟩, [], [], [], .default, false⟩ (fun _ => some ⟨.node "source_file" 0 7 [], false⟩)
      .error).analyzeSource ⟨"a.kt"⟩ ['a', '\n', ' ', ' ', '\t', 'b'] =
      .ok [⟨"KI001", "indent", .error, ⟨⟨"a.kt"⟩, 2, 1, 2, 3⟩, unitMessage 3 4, false⟩] := rfl
  obtain ⟨p, hp, hspans⟩ := analyzeSource_kotlin_spans _ _ _ _ h
  obtain rfl : Kotlin.Parse.mk (.node "source_file" 0 7 []) false = p := Option.some.inj hp
  have hmeasures : (Violation.mk "KI001" "indent" .error ⟨⟨"a.kt"⟩, 2, 1, 2, 3⟩ (unitMessage 3 4) false).Measures
      (Kotlin.ParseTree.toElement ['a', '\n', ' ', ' ', '\t', 'b'] (.node "source_file" 0 7 []))
      ⟨.token .whitespace ['\n', ' ', ' ', '\t'], 1, [⟨.file, [.token .token ['a']], [.token .token ['b']]⟩]⟩
      [' ', ' ', '\t'] :=
    ⟨⟨List.mem_of_getElem? (i := 2) rfl, ['a'], [], [' ', ' ', '\t'], ['b'], rfl, rfl, rfl, rfl,
      isIndentation_iff.2 rfl⟩, List.cons_ne_nil _ _, 4, Or.inl rfl⟩
  obtain ⟨-, hwhole, -⟩ := (hspans _ (List.mem_singleton_self _)).2 _ _ hmeasures
  exact ⟨_, _, h, hmeasures, hwhole.2 (by simp)⟩

/-- A function whose body is a call after three no-break spaces. -/
def callAfterNoBreakSpaces : List Char :=
  ['f', 'u', 'n', ' ', 'f', '(', ')', ' ', '{', '\n', '\u00a0', '\u00a0', '\u00a0', 'g', '(', ')', '\n', '}']

/-- What the grammar reads of the function, to which no-break spaces are an error. -/
def unreadCall : Kotlin.ParseTree :=
  .node "source_file" 0 21 [.node "ERROR" 0 21 [.node "fun" 0 3 [], .node "identifier" 4 5 [],
    .node "function_value_parameters" 5 7 [.node "(" 5 6 [], .node ")" 6 7 []], .node "\x7b" 8 9 []]]

/-- The message gives a length of three no-break spaces, and none of them is spanned. -/
theorem no_break_spaces_not_spanned :
    ∃ v c, (kotlin ⟨⟨"/project"⟩, [], [], [], .default, false⟩ (fun _ => some ⟨unreadCall, true⟩)
        .error).analyzeSource ⟨"Main.kt"⟩ callAfterNoBreakSpaces = .ok [v] ∧
      v.Measures (unreadCall.toElement callAfterNoBreakSpaces) c ['\u00a0', '\u00a0', '\u00a0'] ∧
      Cites 3 4 v.message ∧ v.span? callAfterNoBreakSpaces = some [] := by
  refine ⟨⟨"KI001", "indent", .error, ⟨⟨"Main.kt"⟩, 2, 1, 10, 0⟩, unitMessage 3 4, false⟩,
    ⟨.token .whitespace ['\n', '\u00a0', '\u00a0', '\u00a0'], 9, [⟨.error, [.token .token ['{'],
      .token .whitespace [' '], .node .parameterList [.token .token ['('], .token .token [')']],
      .token .token ['f'], .token .whitespace [' '], .token .token ['f', 'u', 'n']],
      [.token .token ['g', '(', ')'], .token .whitespace ['\n'], .token .token ['}']]⟩, ⟨.file, [], []⟩]⟩, rfl, ?_,
    Or.inl rfl, rfl⟩
  refine ⟨⟨List.mem_of_getElem? (i := 10) rfl, ?_⟩, List.cons_ne_nil _ _, 4, Or.inl rfl⟩
  exact ⟨['f', 'u', 'n', ' ', 'f', '(', ')', ' ', '{'], [], ['\u00a0', '\u00a0', '\u00a0'], ['g', '(', ')', '\n', '}'],
    rfl, rfl, rfl, rfl, isIndentation_iff.2 rfl⟩

end Analyzer

end IndentLint
