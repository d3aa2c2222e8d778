import IndentLint.Proofs.Analysis.Rules
import IndentLint.Proofs.Kotlin.Elements
import IndentLint.Proofs.Report.Violation
import IndentLint.Proofs.Rule.Indentation
import IndentLint.Proofs.Text.Margin

/-!
# Analysing Kotlin sources

A Kotlin source with any parse tree is lowered, the indentation rule walks through the tree without failing, and the
violations are the complaints of the checker under the units of the file (`analyzeSource_kotlin`).  The text of the
tree is the source, so the complaints are at line starts of the source, and the line index finds for each of them the
first column of the line that it starts (`analyzeSource_kotlin_located`).
-/

namespace IndentLint

namespace Analyzer

/-- The analysis of Kotlin sources by the indentation rule alone, set up as `a` in all else. -/
def kotlin (a : Analyzer) (grammar : Kotlin.Grammar) (severity : Severity) : Analyzer :=
  { a with rules := [Indentation.rule severity], frontends := [.kotlin grammar] }

/-- What the checker complains about in a Kotlin source with a given parse tree. -/
def kotlinFindings (a : Analyzer) (path : Path) (source : List Char) (root : Kotlin.ParseTree) : List Finding :=
  if a.config.isRuleEnabled Indentation.name then
    Indentation.findings (a.contextFor path).properties (root.toElement source)
  else
    []

/-- The violation that a complaint of the indentation rule is. -/
def kotlinViolation (a : Analyzer) (severity : Severity) (path : Path) (source : List Char) (f : Finding) : Violation :=
  a.violation (a.contextFor path).relativePath source (.ofText source) (Indentation.rule severity) f

variable (a : Analyzer) (grammar : Kotlin.Grammar) (severity : Severity) (path : Path) (source : List Char)

private theorem runRules_kotlin (root : Kotlin.ParseTree) :
    (a.kotlin grammar severity).runRules (a.contextFor path) (root.toElement source) source =
      .ok ((a.kotlinFindings path source root).map (a.kotlinViolation severity path source)) := by
  have hfile := Kotlin.ParseTree.kind_ne_file root.children source 0
  rw [runRules, kotlinFindings]
  by_cases henabled : a.config.isRuleEnabled Indentation.name = true
  · have hrules : (a.kotlin grammar severity).enabledRules = [Indentation.rule severity] :=
      List.filter_cons_of_pos henabled
    obtain ⟨r, hwalk, hrule, hfindings⟩ := Indentation.walkRules_start (a.contextFor path) severity hfile
    rw [hrules, List.map_singleton, Kotlin.ParseTree.toElement, hwalk, if_pos henabled]
    simp only [Except.map, List.flatMap_cons, List.flatMap_nil, List.append_nil, hfindings, hrule]
    rfl
  · have hrules : (a.kotlin grammar severity).enabledRules = [] := List.filter_cons_of_neg henabled
    rw [hrules, List.map_nil, walkRules_nil, if_neg henabled]
    rfl

/-- The analysis of a Kotlin source ends with the complaints of the checker, unless the file is of another language,
has no parse tree, or has syntax errors that are not put up with. -/
theorem analyzeSource_kotlin :
    (a.kotlin grammar severity).analyzeSource path source =
      if (Frontend.kotlin grammar).handles path then
        match grammar source with
        | none => .error (.frontend path (.noTree "kotlin"))
        | some p =>
          if p.hasErrors && a.failOnParseError then
            .error (.syntaxErrors path "kotlin")
          else
            .ok ((a.kotlinFindings path source p.root).map (a.kotlinViolation severity path source))
      else
        .error (.unsupportedFile path) := by
  by_cases hhandles : (Frontend.kotlin grammar).handles path = true
  · have hfrontend : (a.kotlin grammar severity).frontendFor? path = some (.kotlin grammar) :=
      List.find?_cons_of_pos hhandles
    have hcontext : (a.kotlin grammar severity).contextFor path = a.contextFor path := rfl
    rw [analyzeSource, hfrontend, if_pos hhandles]
    rcases hgrammar : grammar source with _ | p
    · simp only [Frontend.kotlin, hgrammar]
    · dsimp only
      rw [Frontend.parse_kotlin hgrammar, hcontext]
      dsimp only
      rw [runRules_kotlin]
      rfl
  · have hfrontend : (a.kotlin grammar severity).frontendFor? path = none := List.find?_cons_of_neg hhandles
    rw [analyzeSource, hfrontend, if_neg hhandles]

/-- The analysis of a Kotlin source has a result just if there is a parse tree whose errors are put up with. -/
theorem analyzeSource_kotlin_eq_ok_iff {vs : List Violation} :
    (a.kotlin grammar severity).analyzeSource path source = .ok vs ↔
      (Frontend.kotlin grammar).handles path = true ∧ ∃ p, grammar source = some p ∧
        (p.hasErrors && a.failOnParseError) = false ∧
        vs = (a.kotlinFindings path source p.root).map (a.kotlinViolation severity path source) := by
  rw [analyzeSource_kotlin]
  constructor
  · intro h
    split at h
    · rename_i hhandles
      split at h
      · cases h
      · rename_i p hgrammar
        split at h
        · cases h
        · rename_i herrors
          exact ⟨hhandles, p, hgrammar, Bool.eq_false_iff.2 herrors, (Except.ok.inj h).symm⟩
    · cases h
  · rintro ⟨hhandles, p, hgrammar, herrors, rfl⟩
    rw [if_pos hhandles, hgrammar]
    dsimp only
    rw [herrors]
    rfl

end Analyzer

/-! ### Where the violations are -/

/-- The place is the blanks and tabs at the start of a line that is not the first one. -/
structure Location.AtLineStart (source : List Char) (l : Location) : Prop where
  two_le_line : 2 ≤ l.line
  column_eq_one : l.column = 1
  stop_le : l.offset + l.length ≤ Text.byteLength source
  span : ∃ before span after, source = before ++ '\n' :: (span ++ after) ∧
    l.offset = Text.byteLength before + 1 ∧ l.line = 1 + (before ++ ['\n']).count '\n' ∧
    Text.slice? source l.offset (l.offset + l.length) = some span ∧ '\n' ∉ span ∧ '\r' ∉ span

/-- What is counted at a line start is the margin of the rest of the text. -/
theorem indentationAt_newline (before behind : List Char) :
    indentationAt (before ++ '\n' :: behind) (Text.byteLength before + 1) = Text.byteLength (Text.margin behind) := by
  rw [List.append_cons, ← Text.byteLength_append_newline, indentationAt, Text.splitBytes?_byteLength,
    Text.byteLength_margin]
  rfl

/-- The indentation at a line start consists of the blanks and tabs there. -/
private theorem indentationAt_lineStart (before behind : List Char) :
    ∃ span after, behind = span ++ after ∧
      indentationAt (before ++ '\n' :: behind) (Text.byteLength before + 1) = Text.byteLength span ∧
      ∀ c ∈ span, c = ' ' ∨ c = '\t' :=
  ⟨_, _, List.takeWhile_append_dropWhile.symm, indentationAt_newline before behind, fun _ => Text.mem_margin⟩

namespace Analyzer

variable (a : Analyzer) (grammar : Kotlin.Grammar) (severity : Severity) (path : Path) {source : List Char}

private theorem line_kotlinViolation {before behind : List Char} {f : Finding}
    (hf : f.offset = Text.byteLength before + 1) :
    (a.kotlinViolation severity path (before ++ '\n' :: behind) f).location.line = before.count '\n' + 2 := by
  show ((LineIndex.ofText (before ++ '\n' :: behind)).position (before ++ '\n' :: behind) f.offset).line = _
  rw [hf, LineIndex.position_lineStart]

/-- A complaint at a line start becomes a violation at a line start. -/
private theorem atLineStart_kotlinViolation {f : Finding} (hf : f.offset ∈ Text.lineStartsFrom 0 source) :
    (a.kotlinViolation severity path source f).location.AtLineStart source := by
  obtain ⟨before, behind, rfl, hoffset⟩ := Text.mem_lineStartsFrom.1 hf
  rw [Nat.zero_add] at hoffset
  obtain ⟨span, after, rfl, hlength, hspan⟩ := indentationAt_lineStart before behind
  have hline : (a.kotlinViolation severity path (before ++ '\n' :: (span ++ after)) f).location.line =
      before.count '\n' + 2 := line_kotlinViolation a severity path hoffset
  have hcolumn : (a.kotlinViolation severity path (before ++ '\n' :: (span ++ after)) f).location.column = 1 := by
    show ((LineIndex.ofText _).position _ f.offset).column = 1
    rw [hoffset, LineIndex.position_lineStart]
  -- the text before the place is all up to the line feed
  have hsource : before ++ '\n' :: (span ++ after) = (before ++ ['\n']) ++ (span ++ after) :=
    List.append_cons ..
  have hstop : f.offset + indentationAt (before ++ '\n' :: (span ++ after)) f.offset =
      Text.byteLength (before ++ ['\n']) + Text.byteLength span := by
    rw [hoffset, hlength, Text.byteLength_append_newline]
  refine ⟨?_, hcolumn, ?_, before, span, after, rfl, hoffset, ?_, ?_, ?_, ?_⟩
  · omega
  · show f.offset + indentationAt (before ++ '\n' :: (span ++ after)) f.offset ≤ _
    rw [hstop, hsource, Text.byteLength_append (before ++ ['\n']), Text.byteLength_append span]
    omega
  · rw [hline, List.count_append, List.count_singleton_self]
    omega
  · show Text.slice? _ f.offset (f.offset + indentationAt (before ++ '\n' :: (span ++ after)) f.offset) = _
    rw [hstop, hoffset, ← Text.byteLength_append_newline, hsource, Text.slice?_byteLength]
  · intro hmem
    rcases hspan _ hmem with h | h <;> cases h
  · intro hmem
    rcases hspan _ hmem with h | h <;> cases h

/-- Of two complaints at line starts the later one is in the later line. -/
private theorem line_kotlinViolation_lt {f g : Finding} (hf : f.offset ∈ Text.lineStartsFrom 0 source)
    (hg : g.offset ∈ Text.lineStartsFrom 0 source) (hlt : f.offset < g.offset) :
    (a.kotlinViolation severity path source f).location.line <
      (a.kotlinViolation severity path source g).location.line := by
  obtain ⟨before, behind, rfl, hfront⟩ := Text.mem_lineStartsFrom.1 hf
  obtain ⟨before', behind', heq, hback⟩ := Text.mem_lineStartsFrom.1 hg
  rw [Nat.zero_add] at hfront hback
  have hcount : before.count '\n' < before'.count '\n' := Text.count_newline_lt heq (by omega)
  rw [line_kotlinViolation a severity path hfront, heq, line_kotlinViolation a severity path hback]
  omega

/-- The complaints about a source are at its line starts, in their order. -/
private theorem sublist_lineStarts_kotlinFindings (source : List Char) (root : Kotlin.ParseTree) :
    ((a.kotlinFindings path source root).map (·.offset)).Sublist (Text.lineStartsFrom 0 source) := by
  unfold kotlinFindings Indentation.findings
  split
  · split
    · exact List.nil_sublist _
    · have h := Element.sublist_lineStarts ‹Units› (root.toElement source)
      rwa [Kotlin.ParseTree.text_toElement] at h
  · exact List.nil_sublist _

private theorem mem_lineStarts_of_mem_kotlinFindings {root : Kotlin.ParseTree} {f : Finding}
    (hf : f ∈ a.kotlinFindings path source root) : f.offset ∈ Text.lineStartsFrom 0 source :=
  (sublist_lineStarts_kotlinFindings a path source root).subset (List.mem_map_of_mem hf)

/-- The violations of a source come line by line. -/
theorem pairwise_line_kotlinViolation (source : List Char) (root : Kotlin.ParseTree) :
    (((a.kotlinFindings path source root).map (a.kotlinViolation severity path source)).map
      (·.location.line)).Pairwise (· < ·) := by
  have hoffsets : (a.kotlinFindings path source root).Pairwise fun f g => f.offset < g.offset :=
    List.pairwise_map.1 ((Text.pairwise_lineStartsFrom 0 source).sublist
      (sublist_lineStarts_kotlinFindings a path source root))
  rw [List.pairwise_map, List.pairwise_map]
  refine hoffsets.imp_of_mem fun hf hg hlt => line_kotlinViolation_lt a severity path ?_ ?_ hlt
  · exact mem_lineStarts_of_mem_kotlinFindings a path hf
  · exact mem_lineStarts_of_mem_kotlinFindings a path hg

/-- The analysis of a Kotlin source has a result if there is a parse tree whose errors are put up with.  Its
violations come line by line, which is the order of a report, and each of them is at the start of a line that is not
the first one. -/
theorem analyzeSource_kotlin_located :
    ((∃ vs, (a.kotlin grammar severity).analyzeSource path source = .ok vs) ↔
      (Frontend.kotlin grammar).handles path = true ∧
        ∃ p, grammar source = some p ∧ (p.hasErrors && a.failOnParseError) = false) ∧
    ∀ vs, (a.kotlin grammar severity).analyzeSource path source = .ok vs →
      (vs.map (·.location.line)).Pairwise (· < ·) ∧ (∀ n, (LintResult.mk vs n).sort = ⟨vs, n⟩) ∧
        ∀ v ∈ vs, v.location.AtLineStart source := by
  constructor
  · constructor
    · rintro ⟨vs, h⟩
      obtain ⟨hhandles, p, hgrammar, herrors, -⟩ := (analyzeSource_kotlin_eq_ok_iff ..).1 h
      exact ⟨hhandles, p, hgrammar, herrors⟩
    · rintro ⟨hhandles, p, hgrammar, herrors⟩
      exact ⟨_, (analyzeSource_kotlin_eq_ok_iff ..).2 ⟨hhandles, p, hgrammar, herrors, rfl⟩⟩
  · intro vs h
    obtain ⟨-, p, -, -, rfl⟩ := (analyzeSource_kotlin_eq_ok_iff ..).1 h
    have hlines := pairwise_line_kotlinViolation a severity path source p.root
    refine ⟨hlines, fun n => LintResult.sort_eq_self ?_ hlines, ?_⟩
    · intro v hv w hw
      obtain ⟨f, -, rfl⟩ := List.mem_map.1 hv
      obtain ⟨g, -, rfl⟩ := List.mem_map.1 hw
      rfl
    · intro v hv
      obtain ⟨f, hf, rfl⟩ := List.mem_map.1 hv
      exact atLineStart_kotlinViolation a severity path (mem_lineStarts_of_mem_kotlinFindings a path hf)

/-- A line of three blanks after a carriage return and a line feed, reported at byte 4 of line 2. -/
theorem located_three_blanks :
    ∃ v, (kotlin ⟨⟨"/p"⟩, [], [], [], .default, false⟩ (fun _ => some ⟨.node "source_file" 0 8 [], false⟩)
        .error).analyzeSource ⟨"a.kt"⟩ ['é', '\r', '\n', ' ', ' ', ' ', 'b'] = .ok [v] ∧
      v.location = ⟨⟨"a.kt"⟩, 2, 1, 4, 3⟩ ∧ v.location.AtLineStart ['é', '\r', '\n', ' ', ' ', ' ', 'b'] := by
  have h : (kotlin ⟨⟨"/p"⟩, [], [], [], .default, false⟩ (fun _ => some ⟨.node "source_file" 0 8 [], false⟩)
      .error).analyzeSource ⟨"a.kt"⟩ ['é', '\r', '\n', ' ', ' ', ' ', 'b'] =
      .ok [⟨"KI001", "indent", .error, ⟨⟨"a.kt"⟩, 2, 1, 4, 3⟩, unitMessage 3 4, false⟩] := rfl
  exact ⟨_, h, rfl, ((analyzeSource_kotlin_located ..).2 _ h).2.2 _ (List.mem_singleton_self _)⟩

end Analyzer

end IndentLint
