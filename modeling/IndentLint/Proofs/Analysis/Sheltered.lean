import IndentLint.Proofs.Analysis.Kotlin
import IndentLint.Proofs.Kotlin.Sheltered

/-!
# No violation inside literals and comments

A complaint is about the line that a line feed of a whitespace token begins, and the token is in no comment.  So the
line feed lies in open whitespace, and in a well nested parse tree no literal and no comment is around it
(`analyzeSource_kotlin_sheltered`).
-/

namespace IndentLint

open Text

/-- The line feed before a complaint lies in open whitespace. -/
private theorem Element.exists_openWhitespaceAt_of_mem_findings {units : Units} {root : Element} {f : Finding}
    (hf : f ∈ root.whitespace.flatMap (Cursor.findings units)) :
    ∃ newline, f.offset = newline + 1 ∧ slice? root.text newline (newline + 1) = some ['\n'] ∧
      root.OpenWhitespaceAt 0 newline := by
  obtain ⟨c, hc, hf⟩ := List.mem_flatMap.1 hf
  obtain ⟨hpos, text, htext⟩ := mem_whitespace.1 hc
  obtain ⟨line, hline, -, -, rfl⟩ := Cursor.mem_findings.1 hf
  obtain ⟨hline, -, hcomment⟩ := (Cursor.mem_measuredLines htext).1 hline
  obtain ⟨front, behind, rfl, rfl⟩ := IndentedLine.mem_ofText.1 hline
  obtain ⟨hroot, hstart⟩ := text_eq_of_mem_positions hpos
  refine ⟨c.start + Text.byteLength front, rfl, ?_, ?_⟩
  · rw [slice?_eq_some_iff]
    refine ⟨c.textBefore ++ front, behind ++ c.textAfter, ?_, ?_, rfl⟩
    · rw [hroot, htext, text_token]
      simp
    · rw [byteLength_append, hstart]
  · refine openWhitespaceAt_of_mem_positionsAt root hpos htext hcomment (Nat.le_add_right ..) ?_
    have hsize : '\n'.utf8Size = 1 := rfl
    rw [byteLength_append, byteLength_cons, hsize]
    omega

namespace Analyzer

variable (a : Analyzer) (grammar : Kotlin.Grammar) (severity : Severity) (path : Path) {source : List Char}

/-- The line feed before a violation of the indentation rule is a byte of the source, and where the parse tree is well
nested it lies inside no literal and no comment below the root. -/
theorem analyzeSource_kotlin_sheltered {p : Kotlin.Parse} (hgrammar : grammar source = some p)
    (hnested : p.root.WellNested source) {vs : List Violation}
    (hvs : (a.kotlin grammar severity).analyzeSource path source = .ok vs) :
    ∀ v ∈ vs, ∃ newline, v.location.offset = newline + 1 ∧ slice? source newline (newline + 1) = some ['\n'] ∧
      ∀ d ∈ p.root.descendants, d.kind ∈ Kotlin.opaqueKinds ++ Kotlin.commentKinds →
        ∃ first last, d.trimmedRange? source = some (first, last) ∧ ¬(first ≤ newline ∧ newline < last) := by
  intro v hv
  obtain ⟨-, p', hp', -, rfl⟩ := (analyzeSource_kotlin_eq_ok_iff ..).1 hvs
  obtain rfl : p = p' := Option.some.inj (hgrammar.symm.trans hp')
  obtain ⟨f, hf, rfl⟩ := List.mem_map.1 hv
  have hwhitespace : ∃ units, f ∈ (p.root.toElement source).whitespace.flatMap (Cursor.findings units) := by
    unfold kotlinFindings Indentation.findings at hf
    split at hf
    · split at hf
      · cases hf
      · exact ⟨_, hf⟩
    · cases hf
  obtain ⟨units, hunits⟩ := hwhitespace
  obtain ⟨newline, hoffset, hslice, hopen⟩ := Element.exists_openWhitespaceAt_of_mem_findings hunits
  rw [Kotlin.ParseTree.text_toElement] at hslice
  refine ⟨newline, hoffset, hslice, fun d hd hkind => ?_⟩
  obtain ⟨-, -, hd'⟩ := Kotlin.ParseTree.inside_of_mem_descendants p.root hnested hd
  obtain ⟨first, last, hrange, -⟩ := Kotlin.ParseTree.exists_trimmedRange? hd'
  refine ⟨first, last, hrange, fun ⟨hfirst, hlast⟩ => ?_⟩
  have hencloses := Kotlin.ParseTree.encloses_of_trimmedRange? hd' hrange hfirst hlast
  exact Kotlin.ParseTree.not_encloses_toElement hnested hopen hd hkind hencloses

/-- A literal of two lines and a line of three blanks behind it: the report is of the line feed at byte 4, which is
just behind the literal. -/
theorem sheltered_literal_of_two_lines :
    ∃ literal v, literal = Kotlin.ParseTree.node "string_literal" 0 4 [.node "string_content" 1 3 []] ∧
      (kotlin ⟨⟨"/p"⟩, [], [], [], .default, false⟩ (fun _ => some ⟨.node "source_file" 0 9 [literal], false⟩)
        .error).analyzeSource ⟨"a.kt"⟩ ['"', '\n', ' ', '"', '\n', ' ', ' ', ' ', 'b'] = .ok [v] ∧
      v.location.offset = 5 ∧
      ∃ first last, literal.trimmedRange? ['"', '\n', ' ', '"', '\n', ' ', ' ', ' ', 'b'] = some (first, last) ∧
        ¬(first ≤ 4 ∧ 4 < last) := by
  have hanalysis : (kotlin ⟨⟨"/p"⟩, [], [], [], .default, false⟩ (fun _ => some ⟨.node "source_file" 0 9
      [.node "string_literal" 0 4 [.node "string_content" 1 3 []]], false⟩) .error).analyzeSource ⟨"a.kt"⟩
        ['"', '\n', ' ', '"', '\n', ' ', ' ', ' ', 'b'] =
      .ok [⟨"KI001", "indent", .error, ⟨⟨"a.kt"⟩, 3, 1, 5, 3⟩, unitMessage 3 4, false⟩] := rfl
  obtain ⟨literal, hliteral⟩ : ∃ literal, literal = Kotlin.ParseTree.node "string_literal" 0 4
    [.node "string_content" 1 3 []] := ⟨_, rfl⟩
  rw [← hliteral] at hanalysis
  have hnested : (Kotlin.ParseTree.node "source_file" 0 9 [literal]).WellNested
      ['"', '\n', ' ', '"', '\n', ' ', ' ', ' ', 'b'] := by
    subst hliteral
    exact ⟨⟨_, rfl⟩, by decide, by decide, ⟨⟨_, rfl⟩, by decide, by decide, ⟨⟨_, rfl⟩, trivial⟩, trivial⟩, trivial⟩
  obtain ⟨newline, hoffset, -, hsheltered⟩ :=
    analyzeSource_kotlin_sheltered _ _ _ _ rfl hnested hanalysis _ (List.mem_singleton_self _)
  obtain rfl : 4 = newline := Nat.succ.inj hoffset
  refine ⟨literal, _, hliteral, hanalysis, rfl, hsheltered literal (List.mem_cons_self ..) ?_⟩
  rw [hliteral]
  decide

end Analyzer

end IndentLint
