import IndentLint.Proofs.Analysis.Kotlin
import IndentLint.Proofs.Syntax.Column

/-!
# The analysis of Kotlin sources is safe

Nothing goes wrong on the way from a source to its violations, whatever the ranges of the parse tree and the settings
are.  The walk asks for slices of the source only and its calls are balanced (`LowersSafely`), every whitespace token
has a positive unit and a first parameter in a column from 1 on (`MeasuresSafely`), and every byte has a line in the
index.  The indentation rule reads its units at the root and meets no other file, so it never stops the analysis
(`analyzeSource_kotlin_safe`).
-/

namespace IndentLint

open Text

/-! ### Lowering -/

namespace Kotlin.ParseTree

/-- The parse tree is lowered to `tree` without a fault. -/
structure LowersSafely (t : ParseTree) (source : List Char) (tree : Element) : Prop where
  /-- The walk ends, and so each of its slices exists. -/
  build : t.build source = .ok tree
  /-- The calls are balanced and have one root. -/
  balanced : ∃ events, t.buildEvents source = .ok events ∧ Event.Balanced events ∧ Element.ofEvents events = .ok tree
  /-- The root is a file and comes first, and nothing below it is a file. -/
  rootFirst : ∃ below, tree.positions = ⟨tree, 0, []⟩ :: below ∧ tree.kind = .file ∧ ∀ c ∈ below, c.kind ≠ .file
  /-- Every element is a slice of the source. -/
  sliced : ∀ c ∈ tree.positions, c.stop ≤ byteLength source ∧ slice? source c.start c.stop = some c.element.text

private theorem lowersSafely_toElement (source : List Char) (t : ParseTree) :
    t.LowersSafely source (t.toElement source) where
  build := build_eq source t
  balanced := ⟨_, buildEvents_eq source t, Element.balanced_events_node _ _, Element.ofEvents_events_node _ _⟩
  rootFirst := by
    refine ⟨_, by rw [Element.positions, toElement, Element.positionsAt], rfl, fun c hc => ?_⟩
    exact kind_ne_file t.children source 0 _ (Element.element_mem_subelementsOfList _ hc)
  sliced := by
    intro c hc
    obtain ⟨htext, hstart⟩ := Element.text_eq_of_mem_positions hc
    rw [text_toElement] at htext
    rw [Cursor.stop, Element.byteLength, ← hstart, htext]
    refine ⟨?_, slice?_byteLength _ _ _⟩
    simp only [byteLength_append]
    omega

end Kotlin.ParseTree

/-! ### Measuring -/

namespace Cursor

/-- The lines that the element begins can be measured under some units. -/
structure MeasuresSafely (units : Units) (c : Cursor) : Prop where
  /-- What lengths are divided by is positive, and so no line is left unmeasured. -/
  divisor : 0 < units.required c ∧ c.check units = .ok (c.findings units)
  /-- One less than the column of the first parameter is a number. -/
  column : ∀ column, c.firstParameterColumn? = some column → 1 ≤ column
  /-- A walk back that ends in the element counts a slice of its text. -/
  lastLine : '\n' ∈ c.element.text → ∃ newline, slice? c.element.text newline (newline + 1) = some ['\n'] ∧
    slice? c.element.text (newline + 1) c.element.byteLength = some (Text.lastLine c.element.text)

/-- Every element can be measured under the units that properties give. -/
private theorem measuresSafely {properties : Properties} {units : Units}
    (hunits : (IndentConfig.ofProperties properties).units? = some units) (c : Cursor) : c.MeasuresSafely units where
  divisor := by
    obtain ⟨hblock, hcontinuation⟩ := IndentConfig.units_pos hunits
    exact ⟨required_pos hblock hcontinuation c, check_of_pos hblock hcontinuation c⟩
  column := by
    intro column hcolumn
    obtain ⟨t, -, rfl⟩ := firstParameterColumn?_eq_some_iff.1 hcolumn
    exact one_le_startColumn t
  lastLine := exists_slice?_lastLine

end Cursor

/-! ### The whole analysis -/

namespace Analyzer

variable (a : Analyzer) (grammar : Kotlin.Grammar) (severity : Severity) (path : Path) {source : List Char}

/-- A Kotlin source with any parse tree is lowered, measured and reported without a fault, and its analysis ends with
violations unless there are syntax errors that are not put up with.  So no rule stops it. -/
theorem analyzeSource_kotlin_safe {p : Kotlin.Parse} (hhandles : (Frontend.kotlin grammar).handles path = true)
    (hgrammar : grammar source = some p) :
    (∃ tree, (Frontend.kotlin grammar).parse source = .ok ⟨tree, p.hasErrors⟩ ∧ p.root.LowersSafely source tree ∧
      ∀ units, (IndentConfig.ofProperties (a.contextFor path).properties).units? = some units →
        ∀ c ∈ tree.positions, c.MeasuresSafely units) ∧
    (∀ offset, (LineIndex.ofText source).position? source offset =
      some ((LineIndex.ofText source).position source offset)) ∧
    (((p.hasErrors && a.failOnParseError) = true ∧
        (a.kotlin grammar severity).analyzeSource path source = .error (.syntaxErrors path "kotlin")) ∨
      ((p.hasErrors && a.failOnParseError) = false ∧
        ∃ vs, (a.kotlin grammar severity).analyzeSource path source = .ok vs)) := by
  refine ⟨⟨p.root.toElement source, Frontend.parse_kotlin hgrammar, p.root.lowersSafely_toElement source, ?_⟩,
    LineIndex.position?_ofText source, ?_⟩
  · intro units hunits c _
    exact Cursor.measuresSafely hunits c
  · rw [analyzeSource_kotlin, if_pos hhandles, hgrammar]
    dsimp only
    by_cases herrors : (p.hasErrors && a.failOnParseError) = true
    · exact Or.inl ⟨herrors, if_pos herrors⟩
    · exact Or.inr ⟨Bool.eq_false_iff.2 herrors, _, if_neg herrors⟩

/-- Ranges that overlap, run backwards and cut a character, in a file inside the file. -/
theorem safe_wild_ranges :
    ∃ root tree vs, root = Kotlin.ParseTree.node "source_file" 9 2 [.node "string_literal" 3 1 [],
        .node "source_file" 1 9 [.node "comment" 0 4 []], .node "ERROR" 2 5 []] ∧
      (Frontend.kotlin fun _ => some ⟨root, false⟩).parse ['é', '\n', ' ', 'b'] = .ok ⟨tree, false⟩ ∧
      root.LowersSafely ['é', '\n', ' ', 'b'] tree ∧ (∀ c ∈ tree.positions, c.MeasuresSafely ⟨4, 4⟩) ∧
      (kotlin ⟨⟨"/p"⟩, [], [], [], .default, true⟩ (fun _ => some ⟨root, false⟩) .error).analyzeSource ⟨"a.kt"⟩
        ['é', '\n', ' ', 'b'] = .ok vs := by
  obtain ⟨root, hroot⟩ : ∃ root, root = Kotlin.ParseTree.node "source_file" 9 2 [.node "string_literal" 3 1 [],
    .node "source_file" 1 9 [.node "comment" 0 4 []], .node "ERROR" 2 5 []] := ⟨_, rfl⟩
  have hgrammar : (fun _ => some ⟨root, false⟩ : Kotlin.Grammar) ['é', '\n', ' ', 'b'] = some ⟨root, false⟩ := rfl
  obtain ⟨⟨tree, hparse, hlowers, hmeasures⟩, -, houtcome⟩ := analyzeSource_kotlin_safe
    ⟨⟨"/p"⟩, [], [], [], .default, true⟩ (fun _ => some ⟨root, false⟩) .error ⟨"a.kt"⟩ rfl hgrammar
  rcases houtcome with ⟨herrors, -⟩ | ⟨-, vs, hvs⟩
  · cases herrors
  · exact ⟨root, tree, vs, hroot, hparse, hlowers, hmeasures ⟨4, 4⟩ rfl, hvs⟩

end Analyzer

end IndentLint
