import IndentLint.Proofs.Layout.Surroundings
import IndentLint.Proofs.Syntax.TextMap
import IndentLint.Proofs.Text.CarriageReturns

/-!
# The checker and the ends of lines

Carriage returns before the line feeds of a tree do not change what the checker reads off the place of whitespace: they
stand in no last line, so neither anchors nor columns change.  The lines begun keep their indentation too, since one
carriage return at the end does not count.  So the complaints about a tree without carriage returns are, when it gets
them, the same complaints at the same lines and columns (`Element.check_crlf`).
-/

namespace IndentLint

open Text (KeepsLastLine Piecewise)

private theorem Text.keepsLastLine_crlf : KeepsLastLine Text.crlf :=
  ⟨fun _ => Text.newline_mem_crlf, Text.lastLine_crlf⟩

private theorem Text.piecewise_crlf : Piecewise Text.crlf :=
  ⟨Text.crlf_nil, Text.crlf_append⟩

/-! ### Places -/

variable {f : List Char → List Char}

private theorem Element.anchor?_mapText (hf : KeepsLastLine f) (e : Element) : (e.mapText f).anchor? = e.anchor? := by
  rw [anchor?, anchor?, isMultilineWhitespace_mapText hf]
  cases e with
  | token kind text => rw [mapText_token, text_token, text_token, hf.lastLineLength]
  | node kind es => rfl

private theorem Frame.kinds_mapText (frame : Frame) : (frame.mapText f).kinds = frame.kinds := by
  simp [kinds, mapText, Function.comp_def]

private theorem Frame.anchors_mapText (hf : KeepsLastLine f) (frame : Frame) :
    (frame.mapText f).anchors = frame.anchors := by
  simp [anchors, mapText, Function.comp_def, Element.anchor?_mapText hf]

namespace Cursor

private theorem firstParameterColumn?_mapText (hf : KeepsLastLine f) (c : Cursor) :
    (c.mapText f).firstParameterColumn? = c.firstParameterColumn? := by
  have hlist : (c.mapText f).ancestors.find? (·.kind == .parameterList) =
      (c.ancestors.find? (·.kind == .parameterList)).map (Cursor.mapText f) := by
    rw [ancestors_mapText, List.find?_map]
    simp only [Function.comp_def, kind_mapText]
  have hparameter : ∀ list : Cursor, ((list.mapText f).children.find? fun d => d.element.isNode && d.kind == .parameter) =
      (list.children.find? fun d => d.element.isNode && d.kind == .parameter).map (Cursor.mapText f) := by
    intro list
    rw [children_mapText, List.find?_map]
    simp only [Function.comp_def, kind_mapText, element_mapText, Element.isNode_mapText]
  rw [firstParameterColumn?, firstParameterColumn?, hlist]
  cases c.ancestors.find? (·.kind == .parameterList) with
  | none => rfl
  | some list =>
    show ((list.mapText f).children.find? _).bind _ = (list.children.find? _).bind _
    rw [hparameter]
    cases list.children.find? fun d => d.element.isNode && d.kind == .parameter with
    | none => rfl
    | some parameter =>
      show (parameter.mapText f).firstToken?.bind _ = parameter.firstToken?.bind _
      rw [firstToken?_mapText]
      cases parameter.firstToken? with
      | none => rfl
      | some first => exact congrArg some (startColumn_mapText hf first)

/-- A change of texts before their last lines changes nothing that the checker reads off a place. -/
private theorem sameSurroundings_mapText (hf : KeepsLastLine f) (c : Cursor) : c.SameSurroundings (c.mapText f) := by
  have hkinds : c.frames.map Frame.kinds = (c.mapText f).frames.map Frame.kinds := by
    simp [Function.comp_def, Frame.kinds_mapText]
  refine ⟨context_congr hkinds, inComment_congr hkinds, baseline_congr ?_ ?_, (firstParameterColumn?_mapText hf c).symm⟩
  · rw [parentKind?_eq, parentKind?_eq, hkinds]
  · simp [← List.map_tail, Function.comp_def, Frame.anchors_mapText hf]

end Cursor

/-! ### Trees -/

namespace Element

/-- The tree with a carriage return before each line feed. -/
def crlf (e : Element) : Element :=
  e.mapText Text.crlf

private theorem whitespace_mapText (root : Element) :
    (root.mapText f).whitespace = root.whitespace.map (Cursor.mapText f) := by
  rw [whitespace, tokens, positions_mapText, List.filter_map, List.filter_map]
  simp only [Function.comp_def, Cursor.kind_mapText, Cursor.element_mapText, isNode_mapText]
  rfl

private theorem leaf_mem_of_mem_tokens {root : Element} {c : Cursor} (hc : c ∈ root.tokens) :
    ⟨c.kind, c.element.text⟩ ∈ root.leaves := by
  obtain ⟨front, back, hsplit⟩ := List.append_of_mem hc
  rw [leaves_eq_of_tokens_eq hsplit]
  exact List.mem_append_right _ (List.mem_cons_self ..)

/-- The complaints are the same, at places with the same line and column in the texts of their trees. -/
def SameReport (root root' : Element) : Finding → Finding → Prop :=
  Finding.Related fun offset offset' =>
    (LineIndex.ofText root.text).position root.text offset =
      (LineIndex.ofText root'.text).position root'.text offset'

/-- The complaints about one token, with and without carriage returns. -/
private theorem forall₂_findings_crlf {root : Element} {c : Cursor} (units : Units) (hc : c ∈ root.whitespace)
    (h : '\r' ∉ c.element.text) :
    List.Forall₂ (SameReport root root.crlf) (c.findings units) ((c.mapText Text.crlf).findings units) := by
  obtain ⟨hpos, -⟩ := mem_whitespace.1 hc
  obtain ⟨hroot, hstart⟩ := text_eq_of_mem_positions hpos
  have htext : (c.mapText Text.crlf).element.text = Text.crlf c.element.text := text_mapText Text.piecewise_crlf c.element
  have hroot' : root.crlf.text = Text.crlf root.text := text_mapText Text.piecewise_crlf root
  refine (c.sameSurroundings_mapText Text.keepsLastLine_crlf).forall₂_findings ?_ ?_ units
  · exact (isMultilineWhitespace_mapText Text.keepsLastLine_crlf c.element).symm
  · rw [htext, Cursor.start_mapText Text.piecewise_crlf, ← hstart]
    refine (IndentedLine.forall₂_ofText_crlf h _ _).imp ?_
    rintro l m ⟨hlm, a, b, hab, hl, hm⟩
    -- the line starts where the text before the token and a part of the token end
    have hsplit : root.text = (c.textBefore ++ a) ++ (b ++ c.textAfter) := by
      rw [hroot, hab]
      simp
    refine ⟨hlm, ?_⟩
    rw [hroot', hl, hm, ← Text.byteLength_append, ← Text.byteLength_append, ← Text.crlf_append, hsplit]
    exact (LineIndex.position_crlf _ _).symm

/-- A tree without carriage returns is complained about in the same way when it gets one before each line feed: the
same complaints come in the same order, at the same lines and columns. -/
theorem check_crlf (units : Units) (root : Element) (hblock : 0 < units.block)
    (hcontinuation : 0 < units.continuation) (h : ∀ l ∈ root.leaves, '\r' ∉ l.text) :
    ∃ findings findings', root.check units = .ok findings ∧ root.crlf.check units = .ok findings' ∧
      List.Forall₂ (SameReport root root.crlf) findings findings' := by
  refine ⟨_, _, check_of_pos hblock hcontinuation root, check_of_pos hblock hcontinuation root.crlf, ?_⟩
  have hwhitespace : root.crlf.whitespace = root.whitespace.map (Cursor.mapText Text.crlf) := whitespace_mapText root
  rw [hwhitespace, List.flatMap_map]
  have hpairs : List.Forall₂ (fun c d => c = d ∧ c ∈ root.whitespace) root.whitespace root.whitespace :=
    List.forall₂_same.2 fun c hc => ⟨rfl, hc⟩
  refine List.rel_flatMap hpairs ?_
  rintro c _ ⟨rfl, hc⟩
  exact forall₂_findings_crlf units hc (h _ (leaf_mem_of_mem_tokens (List.mem_filter.1 hc).1))

/-- One complaint about a line of three blanks, at byte 2 of line 2 or, behind a carriage return, at byte 3 of it. -/
theorem check_crlf_three_blanks :
    (∀ l ∈ (node .file [token .token ['a'], token .whitespace ['\n', ' ', ' ', ' '], token .token ['b']]).leaves,
      '\r' ∉ l.text) ∧
    SameReport (node .file [token .token ['a'], token .whitespace ['\n', ' ', ' ', ' '], token .token ['b']])
      (node .file [token .token ['a'], token .whitespace ['\r', '\n', ' ', ' ', ' '], token .token ['b']])
      ⟨2, unitMessage 3 4, false⟩ ⟨3, unitMessage 3 4, false⟩ := by
  have hreturn : ∀ l ∈ (node .file [token .token ['a'], token .whitespace ['\n', ' ', ' ', ' '],
      token .token ['b']]).leaves, '\r' ∉ l.text := by decide
  refine ⟨hreturn, ?_⟩
  obtain ⟨findings, findings', hfindings, hfindings', h⟩ := check_crlf ⟨4, 4⟩ _ (by decide) (by decide) hreturn
  obtain rfl : [⟨2, unitMessage 3 4, false⟩] = findings := Except.ok.inj hfindings
  obtain rfl : [⟨3, unitMessage 3 4, false⟩] = findings' := Except.ok.inj hfindings'
  exact (List.forall₂_cons.1 h).1

end Element

end IndentLint
