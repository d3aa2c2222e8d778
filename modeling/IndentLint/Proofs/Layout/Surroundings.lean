import IndentLint.Proofs.Layout.Findings
import Mathlib.Data.List.Forall2

/-!
# What the checker reads

Besides the lines that whitespace begins, the checker reads four things off the place of the whitespace: its context,
whether it lies in a comment, its baseline and the column of the first parameter around it.  Where these agree, and
the lines have the same indentation, the complaints are the same but for their offsets
(`SameSurroundings.forall₂_findings`).

The context and the comment depend on the kinds in the frames alone (`context_congr`), and the baseline on what the
earlier siblings of the nodes above could anchor (`baseline_congr`).
-/

namespace IndentLint

/-! ### The frames -/

namespace Element

/-- The column that an element gives to the lines nested under what follows it. -/
def anchor? (e : Element) : Option Nat :=
  if e.isMultilineWhitespace then some (Text.lastLineLength e.text) else none

end Element

namespace Frame

/-- The kinds of a node and of its children before and after the way down. -/
def kinds (f : Frame) : Kind × List Kind × List Kind :=
  (f.kind, f.before.map (·.kind), f.after.map (·.kind))

/-- The kind of a node, and the kinds and anchors of its children before the way down. -/
def anchors (f : Frame) : Kind × List (Kind × Option Nat) :=
  (f.kind, f.before.map fun e => (e.kind, e.anchor?))

private theorem kind_eq_of_anchors_eq {f g : Frame} (h : f.anchors = g.anchors) : f.kind = g.kind :=
  congrArg Prod.fst h

end Frame

namespace Cursor

theorem map_kind_nearestNonTrivia? (stop : Nat) (before : List Element) :
    (nearestNonTrivia? stop before).map (·.1.kind) = (before.map (·.kind)).find? (!·.isTrivia) := by
  induction before generalizing stop with
  | nil => rfl
  | cons e before ih =>
    rw [nearestNonTrivia?, List.map_cons, List.find?_cons]
    cases he : e.kind.isTrivia with
    | true => simp [ih]
    | false => simp

theorem parentKind?_eq (c : Cursor) : c.parentKind? = (c.frames.map Frame.kinds).head?.map (·.1) := by
  rw [parentKind?, List.head?_map, Option.map_map]
  rfl

private theorem map_kind_previousNonTrivia? (c : Cursor) :
    c.previousNonTrivia?.map (·.1.kind) = (c.frames.map Frame.kinds).head?.bind fun k => k.2.1.find? (!·.isTrivia) := by
  rw [previousNonTrivia?, map_kind_nearestNonTrivia?, earlierSiblings]
  cases c.frames with
  | nil => rfl
  | cons f frames => rfl

private theorem map_kind_nextSibling? (c : Cursor) :
    c.nextSibling?.map (·.kind) = (c.frames.map Frame.kinds).head?.bind fun k => k.2.2.head? := by
  rw [nextSibling?]
  cases c.frames with
  | nil => rfl
  | cons f frames => simp [Frame.kinds, List.head?_map]

/-- The context of an element depends on the kinds around it only. -/
theorem context_congr {c d : Cursor} (h : c.frames.map Frame.kinds = d.frames.map Frame.kinds) :
    c.context = d.context := by
  rw [context, context, continuationReason?, continuationReason?, parentKind?_eq, map_kind_previousNonTrivia?,
    map_kind_nextSibling?, parentKind?_eq, map_kind_previousNonTrivia?, map_kind_nextSibling?, h]

theorem inComment_congr {c d : Cursor} (h : c.frames.map Frame.kinds = d.frames.map Frame.kinds) :
    c.inComment = d.inComment := by
  have hany : ∀ c : Cursor, c.inComment = (c.frames.map Frame.kinds).any (·.1 == .comment) := by
    intro c
    rw [inComment, List.any_map]
    rfl
  rw [hany, hany, h]

/-! ### The baseline -/

private theorem anchorAmong?_congr {skip : List Kind} {before before' : List Element} (next : Kind)
    (h : before.map (fun e => (e.kind, e.anchor?)) = before'.map fun e => (e.kind, e.anchor?)) :
    anchorAmong? skip next before = anchorAmong? skip next before' := by
  induction before generalizing before' next with
  | nil =>
    cases before' with
    | nil => rfl
    | cons e' before' => cases h
  | cons e before ih =>
    cases before' with
    | nil => cases h
    | cons e' before' =>
      rw [List.map_cons, List.map_cons, List.cons.injEq, Prod.mk.injEq, Element.anchor?, Element.anchor?] at h
      obtain ⟨⟨hkind, hanchor⟩, htail⟩ := h
      rw [anchorAmong?, anchorAmong?, hkind, ih e'.kind htail]
      -- both elements are multi-line whitespace with the same last line, or neither is
      cases he : e.isMultilineWhitespace <;> cases he' : e'.isMultilineWhitespace <;> simp_all

private theorem anchorAbove?_congr {skip : List Kind} {frames frames' : List Frame} (inner : Kind)
    (h : frames.map Frame.anchors = frames'.map Frame.anchors) :
    anchorAbove? skip inner frames = anchorAbove? skip inner frames' := by
  induction frames generalizing frames' inner with
  | nil =>
    cases frames' with
    | nil => rfl
    | cons f' frames' => cases h
  | cons f frames ih =>
    cases frames' with
    | nil => cases h
    | cons f' frames' =>
      obtain ⟨hhead, htail⟩ := List.cons.inj h
      rw [anchorAbove?, anchorAbove?, anchorAmong?_congr inner (congrArg Prod.snd hhead),
        Frame.kind_eq_of_anchors_eq hhead, ih f'.kind htail]

/-- The baseline of an element depends on the node around it and on what anchors the nodes above that. -/
theorem baseline_congr {c d : Cursor} (hparent : c.parentKind? = d.parentKind?)
    (h : c.frames.tail.map Frame.anchors = d.frames.tail.map Frame.anchors) : c.baseline = d.baseline := by
  rw [parentKind?, parentKind?] at hparent
  rw [baseline, baseline, anchorColumn?, anchorColumn?]
  cases hc : c.frames with
  | nil =>
    rw [hc] at hparent
    cases hd : d.frames with
    | nil => rfl
    | cons g outer => rw [hd] at hparent; cases hparent
  | cons f frames =>
    rw [hc] at hparent h
    cases hd : d.frames with
    | nil => rw [hd] at hparent; cases hparent
    | cons g outer =>
      rw [hd] at hparent h
      have hkind : f.kind = g.kind := Option.some.inj hparent
      have habove : anchorAbove? anchorSkip g.kind frames = anchorAbove? anchorSkip g.kind outer :=
        anchorAbove?_congr g.kind h
      dsimp only
      rw [hkind, habove]

end Cursor

/-! ### The complaints -/

/-- The lines have the same indentation, and their offsets are related. -/
def IndentedLine.Related (R : Nat → Nat → Prop) (l m : IndentedLine) : Prop :=
  l.indentation = m.indentation ∧ R l.offset m.offset

/-- The complaints say the same, and their offsets are related. -/
def Finding.Related (R : Nat → Nat → Prop) (f g : Finding) : Prop :=
  f.message = g.message ∧ f.correctable = g.correctable ∧ R f.offset g.offset

namespace Cursor

/-- The checker reads the same off the places of two elements. -/
structure SameSurroundings (c d : Cursor) : Prop where
  context : c.context = d.context
  inComment : c.inComment = d.inComment
  baseline : c.baseline = d.baseline
  firstParameterColumn? : c.firstParameterColumn? = d.firstParameterColumn?

namespace SameSurroundings

variable {c d : Cursor} {R : Nat → Nat → Prop}

theorem required (h : c.SameSurroundings d) (units : Units) : units.required c = units.required d := by
  rw [Units.required, Units.required, h.context]

private theorem forall₂_measuredLines (h : c.SameSurroundings d)
    (helement : c.element.isMultilineWhitespace = d.element.isMultilineWhitespace)
    (hlines : List.Forall₂ (IndentedLine.Related R) (IndentedLine.ofText c.start c.element.text)
      (IndentedLine.ofText d.start d.element.text)) :
    List.Forall₂ (IndentedLine.Related R) c.measuredLines d.measuredLines := by
  rw [measuredLines, measuredLines, helement, h.inComment]
  split
  · refine List.rel_filter ?_ hlines
    rintro l m ⟨hlm, -⟩
    beta_reduce
    rw [hlm]
  · exact List.Forall₂.nil

/-- In the same surroundings the same lines give the same complaints. -/
theorem forall₂_findings (h : c.SameSurroundings d)
    (helement : c.element.isMultilineWhitespace = d.element.isMultilineWhitespace)
    (hlines : List.Forall₂ (IndentedLine.Related R) (IndentedLine.ofText c.start c.element.text)
      (IndentedLine.ofText d.start d.element.text)) (units : Units) :
    List.Forall₂ (Finding.Related R) (c.findings units) (d.findings units) := by
  have hfits : ∀ unit n, c.fits unit n = d.fits unit n := by
    intro unit n
    rw [fits, fits, h.baseline]
  have haligns : ∀ n, c.alignsWithParameter n = d.alignsWithParameter n := by
    intro n
    rw [alignsWithParameter, alignsWithParameter, h.firstParameterColumn?]
  have hmessage : ∀ n, c.message units n = d.message units n := by
    intro n
    rw [message, message, h.firstParameterColumn?, h.required]
  have hlength : ∀ l m, IndentedLine.Related R l m → l.length = m.length :=
    fun l m hlm => congrArg List.length hlm.1
  rw [findings, findings, List.forall₂_map_left_iff, List.forall₂_map_right_iff]
  refine List.Forall₂.imp ?_ (List.rel_filter ?_ (h.forall₂_measuredLines helement hlines))
  · rintro l m hlm
    exact ⟨by rw [hlength l m hlm, hmessage], rfl, hlm.2⟩
  · intro l m hlm
    beta_reduce
    rw [h.required, hlength l m hlm, hfits, haligns]

end SameSurroundings

end Cursor

end IndentLint
