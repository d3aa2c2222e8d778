import IndentLint.Proofs.Layout.Lines
import IndentLint.Proofs.Syntax.Positions
import Mathlib.Data.List.Flatten

/-!
# What the checker complains about

`Misindented` says of a line of the source, without going through the tokens one after the other, that it has to be
complained about.  The checker complains about exactly these lines, about each of them once and from the first to
the last (`Element.check_eq_ok`).  The order holds since the complaints of a token are at line starts inside it,
and the line starts inside the tokens are those of the whole text.
-/

namespace IndentLint

/-! ### The lines to complain about -/

/-- The indentation is the whole line, less one carriage return if there is one at the end. -/
def Text.IsIndentation (line indentation : List Char) : Prop :=
  line = indentation ++ ['\r'] ∨ line = indentation ∧ indentation.getLast? ≠ some '\r'

/-- The unit that the lines which `c` begins have to keep to: the continuation unit, if both units are the same or `c` is
a continuation, and otherwise the block unit. -/
def Units.Applies (units : Units) (c : Cursor) (unit : Nat) : Prop :=
  (units.block = units.continuation ∨ ∃ reason, c.context = .continuation reason) ∧ unit = units.continuation ∨
    (units.block ≠ units.continuation ∧ c.context = .block) ∧ unit = units.block

namespace Cursor

/-- The element `c` is the first one of its kind in a list. -/
def FirstOfKind (kind : Kind) (cs : List Cursor) (c : Cursor) : Prop :=
  ∃ front back, cs = front ++ c :: back ∧ (∀ e ∈ front, e.kind ≠ kind) ∧ c.kind = kind

/-- The token `t` is the first one of the first parameter of the nearest parameter list around `c`. -/
def FirstParameterToken (c t : Cursor) : Prop :=
  ∃ list parameter, FirstOfKind .parameterList c.ancestors list ∧
    FirstOfKind .parameter (list.children.filter (·.element.isNode)) parameter ∧ parameter.firstToken? = some t

/-- The whitespace token `c` of a tree holds the line feed before byte `offset` of its text, and what follows in the
token up to the next line feed, less a carriage return at the end, is `indentation`. -/
def BeginsLine (root : Element) (c : Cursor) (offset : Nat) (indentation : List Char) : Prop :=
  c ∈ root.positions ∧ ∃ before front behind after,
    c.element = .token .whitespace (front ++ '\n' :: behind) ∧
    root.text = before ++ ((front ++ '\n' :: behind) ++ after) ∧
    c.start = Text.byteLength before ∧
    offset = Text.byteLength (before ++ front) + 1 ∧
    Text.IsIndentation (behind.takeWhile (· != '\n')) indentation

end Cursor

/-- The line that the whitespace token `c` begins at byte `offset` has `n` characters of indentation, and these are
neither a multiple of the unit away from the baseline nor do they put the line under the first parameter. -/
structure Misindented (units : Units) (root : Element) (c : Cursor) (offset n : Nat) : Prop where
  line : ∃ indentation, c.BeginsLine root offset indentation ∧ indentation ≠ [] ∧ indentation.length = n
  outsideComments : ∀ a ∈ c.ancestors, a.kind ≠ .comment
  offUnit : ∃ unit, units.Applies c unit ∧ ¬ (unit : Int) ∣ (n : Int) - c.baseline
  unaligned : ¬ ∃ t, c.FirstParameterToken t ∧ t.startColumn = n + 1

/-! ### Indentation and units -/

theorem Text.isIndentation_iff {line indentation : List Char} :
    IsIndentation line indentation ↔ indentation = dropCarriageReturn line := by
  unfold IsIndentation dropCarriageReturn
  constructor
  · rintro (rfl | ⟨rfl, hlast⟩)
    · rw [if_pos List.getLast?_concat, List.dropLast_concat]
    · rw [if_neg hlast]
  · rintro rfl
    by_cases hlast : line.getLast? = some '\r'
    · obtain ⟨front, rfl⟩ := List.getLast?_eq_some_iff.1 hlast
      rw [if_pos hlast, List.dropLast_concat]
      exact Or.inl rfl
    · rw [if_neg hlast]
      exact Or.inr ⟨rfl, hlast⟩

theorem Units.applies_iff {units : Units} {c : Cursor} {unit : Nat} :
    units.Applies c unit ↔ unit = units.required c := by
  unfold Applies required
  by_cases hsame : units.block = units.continuation
  · simp [hsame]
  · cases c.context with
    | block => simp [hsame, Ne.symm hsame, Context.isContinuation]
    | continuation reason => simp [Context.isContinuation]

theorem Units.exists_applies_iff {units : Units} {c : Cursor} {p : Nat → Prop} :
    (∃ unit, units.Applies c unit ∧ p unit) ↔ p (units.required c) := by
  simp only [applies_iff, exists_eq_left]

/-! ### Parameters and comments -/

namespace Cursor

private theorem find?_kind_eq_some_iff {kind : Kind} {cs : List Cursor} {c : Cursor} :
    cs.find? (·.kind == kind) = some c ↔ FirstOfKind kind cs c := by
  rw [List.find?_eq_some_iff_append, FirstOfKind]
  constructor
  · rintro ⟨hc, front, back, rfl, hfront⟩
    exact ⟨front, back, rfl, fun e he => by simpa using hfront e he, by simpa using hc⟩
  · rintro ⟨front, back, rfl, hfront, hc⟩
    exact ⟨by simpa using hc, front, back, rfl, fun e he => by simpa using hfront e he⟩

/-- The column found for the first parameter is the column of its first token. -/
theorem firstParameterColumn?_eq_some_iff {c : Cursor} {column : Nat} :
    c.firstParameterColumn? = some column ↔ ∃ t, c.FirstParameterToken t ∧ t.startColumn = column := by
  have hchild : ∀ list : Cursor, (list.children.find? fun d => d.element.isNode && d.kind == .parameter) =
      (list.children.filter (·.element.isNode)).find? (·.kind == .parameter) := by
    intro list
    rw [List.find?_filter]
    congr 1
    funext d
    rw [Bool.decide_and, Bool.decide_eq_true, Bool.decide_eq_true]
  constructor
  · intro h
    simp only [firstParameterColumn?, hchild, Option.bind_eq_bind, Option.bind_eq_some_iff, Option.pure_def,
      Option.some.injEq] at h
    obtain ⟨list, hlist, parameter, hparameter, t, ht, hcolumn⟩ := h
    exact ⟨t, ⟨list, parameter, find?_kind_eq_some_iff.1 hlist, find?_kind_eq_some_iff.1 hparameter, ht⟩, hcolumn⟩
  · rintro ⟨t, ⟨list, parameter, hlist, hparameter, ht⟩, rfl⟩
    simp only [firstParameterColumn?, hchild, Option.bind_eq_bind, Option.bind_eq_some_iff, Option.pure_def,
      Option.some.injEq]
    exact ⟨list, find?_kind_eq_some_iff.2 hlist, parameter, find?_kind_eq_some_iff.2 hparameter, t, ht, rfl⟩

theorem isSome_firstParameterColumn? {c : Cursor} :
    c.firstParameterColumn?.isSome = true ↔ ∃ t, c.FirstParameterToken t := by
  rw [Option.isSome_iff_exists]
  constructor
  · rintro ⟨column, h⟩
    obtain ⟨t, ht, -⟩ := firstParameterColumn?_eq_some_iff.1 h
    exact ⟨t, ht⟩
  · rintro ⟨t, ht⟩
    exact ⟨t.startColumn, firstParameterColumn?_eq_some_iff.2 ⟨t, ht, rfl⟩⟩

/-- A line that is indented stands under the first parameter if that one begins in the column after it. -/
private theorem alignsWithParameter_iff {c : Cursor} {n : Nat} (hn : 0 < n) :
    c.alignsWithParameter n = true ↔ ∃ t, c.FirstParameterToken t ∧ t.startColumn = n + 1 := by
  rw [alignsWithParameter, Option.any_eq_true]
  constructor
  · rintro ⟨column, h, hcolumn⟩
    have hn' : column = n + 1 := by
      have : column - 1 = n := by simpa using hcolumn
      omega
    exact firstParameterColumn?_eq_some_iff.1 (hn' ▸ h)
  · rintro ⟨t, ht, hcolumn⟩
    refine ⟨n + 1, firstParameterColumn?_eq_some_iff.2 ⟨t, ht, hcolumn⟩, ?_⟩
    simp

theorem map_kind_ancestorsFrom (e : Element) (start : Nat) (frames : List Frame) :
    (ancestorsFrom e start frames).map kind = frames.map (·.kind) := by
  induction frames generalizing e start with
  | nil => rfl
  | cons f frames ih =>
    rw [ancestorsFrom, List.map_cons, ih]
    rfl

/-- No node above an element outside comments is a comment. -/
private theorem inComment_eq_false_iff {c : Cursor} : c.inComment = false ↔ ∀ a ∈ c.ancestors, a.kind ≠ .comment := by
  have hkinds : c.frames.map (·.kind) = c.ancestors.map kind := (map_kind_ancestorsFrom _ _ _).symm
  have hmem : c.inComment = true ↔ Kind.comment ∈ c.frames.map (·.kind) := by
    simp [inComment]
  constructor
  · intro h a ha hkind
    have hcomment : Kind.comment ∈ c.frames.map (·.kind) := by
      rw [hkinds, ← hkind]
      exact List.mem_map_of_mem ha
    rw [hmem.2 hcomment] at h
    cases h
  · intro h
    refine Bool.eq_false_iff.2 fun hin => ?_
    have hcomment := hmem.1 hin
    rw [hkinds] at hcomment
    obtain ⟨a, ha, hkind⟩ := List.mem_map.1 hcomment
    exact h a ha hkind

/-- The distance of two numbers is measured by the larger less the smaller. -/
theorem fits_iff {c : Cursor} {unit n : Nat} : c.fits unit n = true ↔ (unit : Int) ∣ (n : Int) - c.baseline := by
  have habs : ((n : Int) - c.baseline).natAbs = (n - c.baseline) + (c.baseline - n) := by
    omega
  rw [Int.ofNat_dvd_left, habs, fits, beq_iff_eq, Nat.dvd_iff_mod_eq_zero]

/-! ### The complaints of one token -/

/-- What is said of a line of `n` characters of indentation: where there is a first parameter, how parameters should
stand, and otherwise what the unit is. -/
def Complaint (units : Units) (c : Cursor) (n : Nat) (message : String) : Prop :=
  (∃ t, c.FirstParameterToken t) ∧ message = parameterMessage n units.block ∨
    (¬ ∃ t, c.FirstParameterToken t) ∧ ∃ unit, units.Applies c unit ∧ message = unitMessage n unit

theorem complaint_iff {units : Units} {c : Cursor} {n : Nat} {message : String} :
    c.Complaint units n message ↔ message = c.message units n := by
  rw [Complaint, Units.exists_applies_iff, ← isSome_firstParameterColumn?, Cursor.message]
  split
  · rename_i h
    simp [h]
  · rename_i h
    simp [h]

/-- The lines that a token of a tree begins, told by the text of the tree. -/
theorem beginsLine_iff {root : Element} {c : Cursor} (hc : c ∈ root.positions) {text : List Char}
    (htext : c.element = .token .whitespace text) (line : IndentedLine) :
    line ∈ IndentedLine.ofText c.start text ↔ c.BeginsLine root line.offset line.indentation := by
  obtain ⟨hroot, hstart⟩ := Element.text_eq_of_mem_positions hc
  rw [IndentedLine.mem_ofText]
  constructor
  · rintro ⟨front, behind, rfl, rfl⟩
    refine ⟨hc, c.textBefore, front, behind, c.textAfter, htext, ?_, hstart.symm, ?_, Text.isIndentation_iff.2 rfl⟩
    · rw [hroot, htext, Element.text_token]
    · rw [Text.byteLength_append, hstart]
  · rintro ⟨-, before, front, behind, after, hc', -, hbefore, hoffset, hindentation⟩
    rw [htext, Element.token.injEq] at hc'
    refine ⟨front, behind, hc'.2, ?_⟩
    rw [hbefore, ← Text.byteLength_append, ← hoffset, ← Text.isIndentation_iff.1 hindentation]

theorem mem_findings {units : Units} {c : Cursor} {f : Finding} :
    f ∈ c.findings units ↔ ∃ line ∈ c.measuredLines, c.fits (units.required c) line.length = false ∧
      c.alignsWithParameter line.length = false ∧ f = ⟨line.offset, c.message units line.length, false⟩ := by
  simp only [findings, List.mem_map, List.mem_filter, Bool.and_eq_true, Bool.not_eq_true']
  constructor
  · rintro ⟨line, ⟨hline, hfits, haligns⟩, rfl⟩
    exact ⟨line, hline, hfits, haligns, rfl⟩
  · rintro ⟨line, hline, hfits, haligns, rfl⟩
    exact ⟨line, ⟨hline, hfits, haligns⟩, rfl⟩

theorem mem_measuredLines {c : Cursor} {text : List Char} (htext : c.element = .token .whitespace text)
    {line : IndentedLine} :
    line ∈ c.measuredLines ↔
      line ∈ IndentedLine.ofText c.start text ∧ line.indentation ≠ [] ∧ c.inComment = false := by
  have hmulti : line ∈ IndentedLine.ofText c.start text → c.element.isMultilineWhitespace = true := by
    intro hline
    obtain ⟨front, behind, rfl, -⟩ := IndentedLine.mem_ofText.1 hline
    simp [htext, Element.isMultilineWhitespace]
  rw [measuredLines]
  split
  · rename_i h
    rw [Bool.and_eq_true, Bool.not_eq_true'] at h
    rw [htext, Element.text_token, List.mem_filter]
    simp [h.2]
  · rename_i h
    constructor
    · intro hline
      cases hline
    · rintro ⟨hline, -, hcomment⟩
      exact absurd (by rw [hmulti hline, hcomment]; rfl) h

/-- The complaints of a token are at line starts inside it, in their order. -/
theorem sublist_lineStarts (units : Units) (c : Cursor) :
    ((c.findings units).map (·.offset)).Sublist (Text.lineStartsFrom c.start c.element.text) := by
  have hmeasured : c.measuredLines.Sublist (IndentedLine.ofText c.start c.element.text) := by
    rw [measuredLines]
    split
    · exact List.filter_sublist
    · exact List.nil_sublist _
  rw [← IndentedLine.map_offset_ofText, findings, List.map_map]
  exact (List.filter_sublist.trans hmeasured).map _

theorem required_pos {units : Units} (hblock : 0 < units.block) (hcontinuation : 0 < units.continuation)
    (c : Cursor) : 0 < units.required c := by
  rw [Units.required]
  split
  · exact hcontinuation
  · exact hblock

theorem check_of_pos {units : Units} (hblock : 0 < units.block) (hcontinuation : 0 < units.continuation)
    (c : Cursor) : c.check units = .ok (c.findings units) := by
  have hpos := required_pos hblock hcontinuation c
  rw [check, if_neg]
  simp only [Bool.and_eq_true, decide_eq_true_eq, not_and]
  omega

end Cursor

/-! ### The complaints of a tree -/

namespace Element

open Cursor

theorem mem_whitespace {root : Element} {c : Cursor} :
    c ∈ root.whitespace ↔ c ∈ root.positions ∧ ∃ text, c.element = .token .whitespace text := by
  rw [whitespace, tokens, List.mem_filter, List.mem_filter]
  obtain ⟨e, start, frames⟩ := c
  cases e with
  | token kind text => simp [Cursor.kind, Element.kind, isNode]
  | node kind es => simp [isNode]

theorem check_of_pos {units : Units} (hblock : 0 < units.block) (hcontinuation : 0 < units.continuation)
    (root : Element) : root.check units = .ok (root.whitespace.flatMap (Cursor.findings units)) := by
  have hcheck : Cursor.check units = fun c => Except.ok (c.findings units) :=
    funext (Cursor.check_of_pos hblock hcontinuation)
  have hmap : root.whitespace.mapM (Cursor.check units) = .ok (root.whitespace.map (Cursor.findings units)) := by
    rw [hcheck]
    exact List.mapM_pure
  rw [check, hmap, List.flatMap_def]
  rfl

/-- The complaints of a tree are at line starts of its text, in their order. -/
theorem sublist_lineStarts (units : Units) (root : Element) :
    ((root.whitespace.flatMap (Cursor.findings units)).map (·.offset)).Sublist
      (Text.lineStartsFrom 0 root.text) := by
  rw [List.map_flatMap, ← flatMap_lineStarts_tokens]
  exact (List.filter_sublist.flatMap _).trans
    (List.Sublist.flatMap_right _ fun c _ => Cursor.sublist_lineStarts units c)

/-- The complaints of the whitespace of a tree are those about its misindented lines. -/
theorem mem_flatMap_findings {units : Units} {root : Element} {f : Finding} :
    f ∈ root.whitespace.flatMap (Cursor.findings units) ↔
      ∃ c n, Misindented units root c f.offset n ∧ c.Complaint units n f.message ∧ f.correctable = false := by
  rw [List.mem_flatMap]
  constructor
  · rintro ⟨c, hc, hf⟩
    obtain ⟨hpos, text, htext⟩ := mem_whitespace.1 hc
    obtain ⟨line, hline, hfits, haligns, rfl⟩ := mem_findings.1 hf
    obtain ⟨hbegins, hne, hcomment⟩ := (mem_measuredLines htext).1 hline
    have hn : 0 < line.length := List.length_pos_iff.2 hne
    refine ⟨c, line.length, ⟨?_, ?_, ?_, ?_⟩, complaint_iff.2 rfl, rfl⟩
    · exact ⟨line.indentation, (beginsLine_iff hpos htext line).1 hbegins, hne, rfl⟩
    · exact inComment_eq_false_iff.1 hcomment
    · rw [Units.exists_applies_iff, ← fits_iff, hfits]
      exact Bool.false_ne_true
    · rw [← alignsWithParameter_iff hn, haligns]
      exact Bool.false_ne_true
  · rintro ⟨c, n, ⟨⟨indentation, hbegins, hne, rfl⟩, hcomment, hunit, haligns⟩, hmessage, hcorrectable⟩
    have hn : 0 < indentation.length := List.length_pos_iff.2 hne
    have ⟨hpos, _, _, _, _, htext, _⟩ := hbegins
    -- the token holds a line feed, so it is whitespace of several lines and is measured
    have hline := (beginsLine_iff hpos htext ⟨f.offset, indentation⟩).2 hbegins
    refine ⟨c, mem_whitespace.2 ⟨hpos, _, htext⟩, mem_findings.2 ⟨⟨f.offset, indentation⟩, ?_, ?_, ?_, ?_⟩⟩
    · exact (mem_measuredLines htext).2 ⟨hline, hne, inComment_eq_false_iff.2 hcomment⟩
    · exact Bool.eq_false_iff.2 fun h => Units.exists_applies_iff.1 hunit (fits_iff.1 h)
    · exact Bool.eq_false_iff.2 fun h => haligns ((alignsWithParameter_iff hn).1 h)
    · show f = ⟨f.offset, c.message units indentation.length, false⟩
      rw [← complaint_iff.1 hmessage, ← hcorrectable]

end Element

end IndentLint
