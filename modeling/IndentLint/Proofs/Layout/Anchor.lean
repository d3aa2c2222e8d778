import IndentLint.Layout.Anchor
import IndentLint.Proofs.Syntax.Places

/-!
# What anchors an element

The anchor of an element is found by a walk back from the node just above it: to the sibling just before, or else to
the node above, until multi-line whitespace is met whose next sibling is not of a skipped kind
(`anchorColumn?_eq_find?`).
The walk visits the nodes above the element and their earlier siblings, and nothing below these siblings
(`mem_wayBack_iff`), each of them later in document order than the next (`pairwise_wayBack`).  So of all the whitespace
that could anchor the element, the walk meets the last one in document order (`anchorColumn?_last`).
-/

namespace IndentLint

namespace Cursor

/-! ### Walking back -/

/-- The sibling just before the element, or else the node just above it. -/
def stepBack? (c : Cursor) : Option Cursor :=
  match c.frames with
  | [] => none
  | ⟨kind, [], after⟩ :: outer => some ⟨.node kind (c.element :: after), c.start, outer⟩
  | ⟨kind, e :: before, after⟩ :: outer => some ⟨e, c.start - e.byteLength, ⟨kind, before, c.element :: after⟩ :: outer⟩

/-- A bound on the steps of a walk back from the element. -/
def stepsBack (c : Cursor) : Nat :=
  c.frames.foldr (fun f steps => f.before.length + 1 + steps) 0

private theorem stepBack?_cases {c p : Cursor} (h : c.stepBack? = some p) :
    (∃ kind e before after outer, c.frames = ⟨kind, e :: before, after⟩ :: outer ∧
      p = ⟨e, c.start - e.byteLength, ⟨kind, before, c.element :: after⟩ :: outer⟩) ∨
    ∃ kind after outer, c.frames = ⟨kind, [], after⟩ :: outer ∧
      p = ⟨.node kind (c.element :: after), c.start, outer⟩ := by
  unfold stepBack? at h
  split at h
  · cases h
  · exact Or.inr ⟨_, _, _, by assumption, (Option.some.inj h).symm⟩
  · exact Or.inl ⟨_, _, _, _, _, by assumption, (Option.some.inj h).symm⟩

private theorem stepsBack_lt {c p : Cursor} (h : c.stepBack? = some p) : p.stepsBack < c.stepsBack := by
  rcases stepBack?_cases h with ⟨kind, e, before, after, outer, hframes, rfl⟩ | ⟨kind, after, outer, hframes, rfl⟩
  · simp [stepsBack, hframes]
  · simp [stepsBack, hframes]

/-- The elements that a walk back visits, the element itself first. -/
def wayBack (c : Cursor) : List Cursor :=
  c :: match _h : c.stepBack? with
    | none => []
    | some p => p.wayBack
termination_by c.stepsBack
decreasing_by exact stepsBack_lt _h

private theorem wayBack_of_none {c : Cursor} (h : c.stepBack? = none) : c.wayBack = [c] := by
  rw [wayBack]
  split
  · rfl
  · simp_all

private theorem wayBack_of_some {c p : Cursor} (h : c.stepBack? = some p) : c.wayBack = c :: p.wayBack := by
  rw [wayBack]
  split
  · simp_all
  · simp_all

theorem wayBack_induction {motive : Cursor → Prop} (last : ∀ c, c.stepBack? = none → motive c)
    (step : ∀ c p, c.stepBack? = some p → motive p → motive c) (c : Cursor) : motive c := by
  induction hn : c.stepsBack using Nat.strongRecOn generalizing c with
  | ind n ih =>
    subst hn
    cases h : c.stepBack? with
    | none => exact last c h
    | some p => exact step c p h (ih p.stepsBack (stepsBack_lt h) p rfl)

variable {root : Element}

private theorem mem_positions_of_stepBack? {c p : Cursor} (hc : c ∈ root.positions) (h : c.stepBack? = some p) :
    p ∈ root.positions := by
  -- a step moves elements between a cursor and its innermost frame, so the cursor holds the same tree
  obtain ⟨htree, hstart⟩ := Element.mem_positions_iff.1 hc
  refine Element.mem_positions_iff.2 ?_
  rcases stepBack?_cases h with ⟨kind, e, before, after, outer, hframes, rfl⟩ | ⟨kind, after, outer, hframes, rfl⟩
  · rw [tree, hframes, refill_cons] at htree
    rw [textBefore, hframes, textBeforeFrames] at hstart
    refine ⟨?_, ?_⟩
    · rw [tree, refill_cons, ← htree]
      simp [Frame.fill]
    · simp only [textBefore, textBeforeFrames, List.reverse_cons, Element.textOfList_append, Element.textOfList_cons,
        Element.textOfList_nil, List.append_nil, Text.byteLength_append, Element.byteLength] at hstart ⊢
      omega
  · rw [tree, hframes, refill_cons] at htree
    rw [textBefore, hframes, textBeforeFrames] at hstart
    exact ⟨htree, by simpa [textBefore] using hstart⟩

private theorem mem_positions_of_mem_wayBack {c a : Cursor} (hc : c ∈ root.positions) (ha : a ∈ c.wayBack) :
    a ∈ root.positions := by
  induction c using wayBack_induction with
  | last c h =>
    rw [wayBack_of_none h, List.mem_singleton] at ha
    exact ha ▸ hc
  | step c p h ih =>
    rw [wayBack_of_some h, List.mem_cons] at ha
    rcases ha with rfl | ha
    · exact hc
    · exact ih (mem_positions_of_stepBack? hc h) ha

/-! ### What a walk back visits -/

/-- A walk back from the path `p` visits the path `q`: a beginning of it, or an earlier sibling of one. -/
def Visits (p q : List Nat) : Prop :=
  ∃ n, n <+: p ∧ (q = n ∨ ∃ around i j, q = around ++ [i] ∧ n = around ++ [j] ∧ i < j)

private theorem visits_concat_iff {around q : List Nat} {k : Nat} :
    Visits (around ++ [k]) q ↔ (∃ i, i ≤ k ∧ q = around ++ [i]) ∨ Visits around q := by
  constructor
  · rintro ⟨n, hn, hq⟩
    rcases List.prefix_concat_iff.1 hn with rfl | hn
    · rcases hq with rfl | ⟨around', i, j, rfl, heq, hlt⟩
      · exact Or.inl ⟨k, Nat.le_refl k, rfl⟩
      · obtain ⟨rfl, rfl⟩ := List.append_singleton_inj.1 heq
        exact Or.inl ⟨i, Nat.le_of_lt hlt, rfl⟩
    · exact Or.inr ⟨n, hn, hq⟩
  · rintro (⟨i, hle, rfl⟩ | ⟨n, hn, hq⟩)
    · refine ⟨around ++ [k], List.prefix_refl _, ?_⟩
      rcases Nat.lt_or_eq_of_le hle with hlt | rfl
      · exact Or.inr ⟨around, i, k, rfl, rfl, hlt⟩
      · exact Or.inl rfl
    · exact ⟨n, hn.trans (List.prefix_append _ _), hq⟩

private theorem path_stepBack? {c p : Cursor} (h : c.stepBack? = some p) :
    (∃ around k, c.path = around ++ [k + 1] ∧ p.path = around ++ [k]) ∨ c.path = p.path ++ [0] := by
  rcases stepBack?_cases h with ⟨kind, e, before, after, outer, hframes, rfl⟩ | ⟨kind, after, outer, hframes, rfl⟩
  · exact Or.inl ⟨pathOfFrames outer, before.length, by simp [path, hframes], by simp [path]⟩
  · exact Or.inr (by simp [path, hframes])

/-- A walk back visits what it starts at, and what the walk from the next element visits. -/
private theorem visits_of_stepBack? {c p : Cursor} (h : c.stepBack? = some p) (q : List Nat) :
    Visits c.path q ↔ q = c.path ∨ Visits p.path q := by
  rcases path_stepBack? h with ⟨around, k, hc, hp⟩ | hc
  · rw [hc, hp, visits_concat_iff, visits_concat_iff, ← or_assoc]
    refine or_congr_left ⟨?_, ?_⟩
    · rintro ⟨i, hle, rfl⟩
      rcases Nat.lt_or_eq_of_le hle with hlt | rfl
      · exact Or.inr ⟨i, Nat.lt_succ_iff.1 hlt, rfl⟩
      · exact Or.inl rfl
    · rintro (rfl | ⟨i, hle, rfl⟩)
      · exact ⟨k + 1, Nat.le_refl _, rfl⟩
      · exact ⟨i, Nat.le_succ_of_le hle, rfl⟩
  · rw [hc, visits_concat_iff]
    refine or_congr_left ⟨?_, fun hq => ⟨0, Nat.le_refl 0, hq⟩⟩
    rintro ⟨i, hle, rfl⟩
    rw [Nat.le_zero.1 hle]

private theorem path_eq_nil_of_stepBack? {c : Cursor} (h : c.stepBack? = none) : c.path = [] := by
  unfold stepBack? at h
  split at h
  · rename_i hframes
    simp [path, hframes]
  · cases h
  · cases h

/-- A walk back visits the element, the nodes above it and their earlier siblings. -/
theorem mem_wayBack_iff {c a : Cursor} (hc : c ∈ root.positions) (ha : a ∈ root.positions) :
    a ∈ c.wayBack ↔ Visits c.path a.path := by
  -- positions are told apart by their paths, and along the walk each step takes one path off those still to visit
  have hsame : ∀ d ∈ root.positions, (a = d ↔ a.path = d.path) :=
    fun d hd => ⟨fun heq => heq ▸ rfl, Element.eq_of_path_eq ha hd⟩
  induction c using wayBack_induction with
  | last c h =>
    have hpath := path_eq_nil_of_stepBack? h
    rw [wayBack_of_none h, List.mem_singleton, hsame c hc, hpath]
    simp [Visits]
  | step c p h ih =>
    have hrest : a ∈ p.wayBack ↔ Visits p.path a.path := ih (mem_positions_of_stepBack? hc h)
    rw [wayBack_of_some h, List.mem_cons, hsame c hc, visits_of_stepBack? h, hrest]

theorem pairwise_wayBack (c : Cursor) : c.wayBack.Pairwise fun a b => b.path < a.path := by
  have hstep : ∀ c p : Cursor, c.stepBack? = some p → p.path < c.path := by
    intro c p h
    rcases path_stepBack? h with ⟨around, k, hc, hp⟩ | hc
    · rw [hc, hp]
      exact List.append_left_lt (List.cons_lt_cons_iff.2 (Or.inl (Nat.lt_succ_self k)))
    · rw [hc]
      have hlt : p.path ++ [] < p.path ++ [0] := List.append_left_lt (List.nil_lt_cons 0 [])
      rwa [List.append_nil] at hlt
  induction c using wayBack_induction with
  | last c h =>
    rw [wayBack_of_none h]
    exact List.pairwise_singleton _ c
  | step c p h ih =>
    -- what follows in the walk from `p` lies before `p`, and so before `c`
    obtain ⟨rest, hrest⟩ : ∃ rest, p.wayBack = p :: rest := ⟨_, by rw [wayBack]⟩
    have hlater := (List.pairwise_cons.1 (hrest ▸ ih)).1
    rw [wayBack_of_some h, List.pairwise_cons]
    refine ⟨fun b hb => ?_, ih⟩
    rw [hrest, List.mem_cons] at hb
    rcases hb with rfl | hb
    · exact hstep c b h
    · exact List.lt_trans (hlater b hb) (hstep c p h)

/-! ### Where a walk back ends -/

variable (skip : List Kind)

/-- The element is multi-line whitespace, and no element of a skipped kind comes just after it. -/
def isAnchor (a : Cursor) : Bool :=
  a.element.isMultilineWhitespace && !a.nextSibling?.any fun e => skip.contains e.kind

def lastLineLength (a : Cursor) : Nat :=
  Text.lastLineLength a.element.text

private theorem isAnchor_of_isNode {a : Cursor} (h : a.element.isNode = true) : a.isAnchor skip = false := by
  have hmultiline : a.element.isMultilineWhitespace = false := by
    cases he : a.element with
    | token kind text => simp [he, Element.isNode] at h
    | node kind es => rfl
  rw [isAnchor, hmultiline, Bool.false_and]

/-- The search among the siblings before goes on to the next of them, whatever comes after. -/
private theorem anchorAbove?_cons_before (inner kind : Kind) (e : Element) (before after after' : List Element)
    (outer : List Frame) : anchorAbove? skip inner (⟨kind, e :: before, after⟩ :: outer) =
      if e.isMultilineWhitespace && !skip.contains inner then some (Text.lastLineLength e.text)
      else anchorAbove? skip e.kind (⟨kind, before, after'⟩ :: outer) := by
  rw [anchorAbove?, anchorAbove?]
  dsimp only
  rw [anchorAmong?]
  split <;> rfl

/-- A walk back ends at the first anchor that it meets. -/
private theorem map_find?_wayBack (c : Cursor) :
    (c.wayBack.find? (isAnchor skip)).map lastLineLength =
      if c.isAnchor skip then some c.lastLineLength else anchorAbove? skip c.kind c.frames := by
  induction c using wayBack_induction with
  | last c h =>
    have hframes : c.frames = [] := pathOfFrames_eq_nil_iff.1 (path_eq_nil_of_stepBack? h)
    rw [wayBack_of_none h, hframes, anchorAbove?, List.find?_singleton]
    split <;> rfl
  | step c p h ih =>
    rw [wayBack_of_some h, List.find?_cons]
    cases hanchor : c.isAnchor skip with
    | true => rfl
    | false =>
      dsimp only
      rw [ih, if_neg Bool.false_ne_true]
      rcases stepBack?_cases h with ⟨kind, e, before, after, outer, hframes, rfl⟩ | ⟨kind, after, outer, hframes, rfl⟩
      · -- the sibling before is asked whether it anchors what comes just after it
        rw [hframes, anchorAbove?_cons_before]
        rfl
      · rw [isAnchor_of_isNode skip rfl, hframes, if_neg Bool.false_ne_true]
        rfl

/-- The anchor of an element is met by a walk back from the node just above it. -/
theorem anchorColumn?_eq_find? (c : Cursor) :
    c.anchorColumn? skip =
      (c.ancestors.head?.bind fun p => p.wayBack.find? (isAnchor skip)).map lastLineLength := by
  cases hframes : c.frames with
  | nil =>
    rw [anchorColumn?, ancestors, hframes]
    rfl
  | cons f outer =>
    rw [anchorColumn?, ancestors, hframes, ancestorsFrom, List.head?_cons, Option.bind_some, map_find?_wayBack,
      isAnchor_of_isNode skip rfl]
    rfl

/-! ### The last of the anchors -/

/-- The element `a` could anchor `c`: it is multi-line whitespace before a node above `c`, and the sibling just after it
is not of a skipped kind. -/
structure Anchors (a c : Cursor) : Prop where
  isMultilineWhitespace : a.element.isMultilineWhitespace = true
  isEarlierSibling : ∃ n ∈ c.ancestors, a.IsEarlierSibling n
  nextSibling : ∃ e, a.nextSibling? = some e ∧ e.kind ∉ skip

variable {skip} {a c : Cursor}

private theorem Anchors.isAnchor (h : a.Anchors skip c) : a.isAnchor skip = true := by
  obtain ⟨e, he, hkind⟩ := h.nextSibling
  rw [Cursor.isAnchor, h.isMultilineWhitespace, he]
  simpa using hkind

private theorem path_of_head?_ancestors {p : Cursor} (h : c.ancestors.head? = some p) :
    ∃ k, c.path = p.path ++ [k] := by
  rw [ancestors] at h
  cases hframes : c.frames with
  | nil =>
    rw [hframes] at h
    cases h
  | cons f outer =>
    rw [hframes, ancestorsFrom, List.head?_cons, Option.some.injEq] at h
    exact ⟨f.before.length, by simp [path, hframes, ← h]⟩

/-- The nodes that start a walk back from the node just above an element are the nodes above the element. -/
private theorem isPrefix_path_iff {p : Cursor} (hp : c.ancestors.head? = some p) {q : List Nat} :
    q <+: p.path ↔ ∃ n ∈ c.ancestors, n.path = q := by
  obtain ⟨k, hk⟩ := path_of_head?_ancestors hp
  rw [← List.mem_map, mem_map_path_ancestors, hk]
  constructor
  · rintro ⟨rest, hrest⟩
    rw [← hrest]
    cases rest with
    | nil => exact ⟨k, [], by simp⟩
    | cons i rest => exact ⟨i, rest ++ [k], by simp⟩
  · rintro ⟨i, below, heq⟩
    rcases concat_eq_append_cons_iff.1 heq with ⟨h, -, -⟩ | ⟨mid, -, h⟩
    · exact h ▸ List.prefix_refl _
    · exact ⟨i :: mid, h.symm⟩

/-- What could anchor an element is what a walk back from the node just above it can end at. -/
private theorem anchors_iff {p : Cursor} (hc : c ∈ root.positions) (hp : c.ancestors.head? = some p)
    (ha : a ∈ root.tokens) : a.Anchors skip c ↔ a ∈ p.wayBack ∧ a.isAnchor skip = true := by
  have hapos : a ∈ root.positions := (List.mem_filter.1 ha).1
  have hppos : p ∈ root.positions := (mem_positions_of_mem_ancestors hc (List.mem_of_head? hp)).1
  rw [mem_wayBack_iff hppos hapos]
  constructor
  · intro h
    obtain ⟨n, hn, around, i, j, hai, hnj, hlt⟩ := h.isEarlierSibling
    exact ⟨⟨n.path, (isPrefix_path_iff hp).2 ⟨n, hn, rfl⟩, Or.inr ⟨around, i, j, hai, hnj, hlt⟩⟩, h.isAnchor⟩
  · rintro ⟨⟨q, hq, hvisit⟩, hanchor⟩
    obtain ⟨n, hn, rfl⟩ := (isPrefix_path_iff hp).1 hq
    have hearlier : a.IsEarlierSibling n := by
      refine hvisit.resolve_left fun heq => not_isBelow_token ha hc ?_
      rw [IsBelow, heq, ← mem_map_path_ancestors]
      exact List.mem_map_of_mem hn
    obtain ⟨e, he⟩ := exists_nextSibling? hapos (mem_positions_of_mem_ancestors hc hn).1 hearlier
    rw [Cursor.isAnchor, he, Bool.and_eq_true] at hanchor
    exact ⟨hanchor.1, ⟨n, hn, hearlier⟩, e, he, by simpa using hanchor.2⟩

/-- Two lists part at one place only. -/
private theorem eq_of_parting {around around' xs xs' ys ys' : List Nat} {i i' j j' : Nat}
    (hx : around ++ i :: xs = around' ++ i' :: xs') (hy : around ++ j :: ys = around' ++ j' :: ys') (hne : i ≠ j)
    (hne' : i' ≠ j') : around = around' := by
  induction around generalizing around' with
  | nil =>
    cases around' with
    | nil => rfl
    | cons k rest => exact absurd ((List.cons.inj hx).1.trans (List.cons.inj hy).1.symm) hne
  | cons k around ih =>
    cases around' with
    | nil => exact absurd ((List.cons.inj hx).1.symm.trans (List.cons.inj hy).1) hne'
    | cons l rest =>
      obtain ⟨rfl, hrest⟩ := List.cons.inj hx
      rw [ih hrest (List.cons.inj hy).2]

/-- What anchors an element stands before a node above it: their paths part at the last step to the anchor, and before
the last step to the element. -/
private theorem Anchors.exists_parting (h : a.Anchors skip c) : ∃ around i j k below,
    a.path = around ++ [i] ∧ c.path = around ++ j :: k :: below ∧ i < j := by
  obtain ⟨n, hn, around, i, j, hai, hnj, hlt⟩ := h.isEarlierSibling
  obtain ⟨k, below, hcn⟩ := mem_map_path_ancestors.1 (List.mem_map_of_mem hn)
  exact ⟨around, i, j, k, below, hai, by rw [hcn, hnj, List.append_assoc]; rfl, hlt⟩

/-- Nothing below the node just above an element anchors it, be it a sibling or below one. -/
private theorem Anchors.not_isBelow_parent (h : a.Anchors skip c) {p : Cursor} (hp : c.ancestors.head? = some p) :
    ¬ a.IsBelow p := by
  rintro ⟨x, xs, hax⟩
  obtain ⟨around, i, j, k, below, hai, hcj, hlt⟩ := h.exists_parting
  obtain ⟨l, hcl⟩ := path_of_head?_ancestors hp
  have hsplit : p.path ++ [l] = (around ++ [j]) ++ k :: below := by rw [← hcl, hcj, List.append_assoc]; rfl
  have hpath : ∃ mid, p.path = around ++ j :: mid := by
    rcases concat_eq_append_cons_iff.1 hsplit with ⟨h, -, -⟩ | ⟨mid, -, h⟩
    · exact ⟨[], h⟩
    · exact ⟨k :: mid, by rw [h, List.append_assoc]; rfl⟩
  obtain ⟨mid, hpath⟩ := hpath
  have heq : around ++ [i] = around ++ j :: (mid ++ x :: xs) := by
    rw [← hai, hax, hpath, List.append_assoc, List.cons_append]
  exact Nat.ne_of_lt hlt (List.cons.inj (List.append_cancel_left heq)).1

/-- Nothing below an earlier sibling of an element, or of a node above it, anchors the element. -/
private theorem Anchors.not_isBelow_earlierSibling (h : a.Anchors skip c) {n b : Cursor} (hn : n = c ∨ n ∈ c.ancestors)
    (hb : b.IsEarlierSibling n) : ¬ a.IsBelow b := by
  rintro ⟨x, xs, hax⟩
  obtain ⟨around, i, j, k, below, hai, hcj, hlt⟩ := h.exists_parting
  obtain ⟨around', i', j', hbi, hnj, hlt'⟩ := hb
  have hcn : ∃ rest, c.path = around' ++ j' :: rest := by
    rcases hn with rfl | hn
    · exact ⟨[], hnj⟩
    · obtain ⟨l, rest, hcl⟩ := mem_map_path_ancestors.1 (List.mem_map_of_mem hn)
      exact ⟨l :: rest, by rw [hcl, hnj, List.append_assoc]; rfl⟩
  obtain ⟨rest, hcn⟩ := hcn
  have ha : around ++ [i] = around' ++ i' :: x :: xs := by rw [← hai, hax, hbi, List.append_assoc]; rfl
  obtain rfl := eq_of_parting ha (hcj.symm.trans hcn) (Nat.ne_of_lt hlt) (Nat.ne_of_lt hlt')
  simp at ha

/-- The elements that a walk back from the node above an element can end at are tokens that could anchor it. -/
private theorem anchors_of_mem_wayBack {p : Cursor} (hc : c ∈ root.positions) (hp : c.ancestors.head? = some p)
    (ha : a ∈ p.wayBack) (hanchor : a.isAnchor skip = true) : a ∈ root.tokens ∧ a.Anchors skip c := by
  have hppos : p ∈ root.positions := (mem_positions_of_mem_ancestors hc (List.mem_of_head? hp)).1
  have htoken : a ∈ root.tokens := by
    refine List.mem_filter.2 ⟨mem_positions_of_mem_wayBack hppos ha, ?_⟩
    by_contra hnode
    rw [isAnchor_of_isNode skip (by simpa using hnode)] at hanchor
    exact Bool.false_ne_true hanchor
  exact ⟨htoken, (anchors_iff hc hp htoken).2 ⟨ha, hanchor⟩⟩

/-- A walk back from the node above an element ends at the last token that could anchor the element. -/
private theorem find?_wayBack_eq_some {p : Cursor} (hc : c ∈ root.positions) (hp : c.ancestors.head? = some p)
    {front back : List Cursor} (htokens : root.tokens = front ++ a :: back) (ha : a.Anchors skip c)
    (hlast : ∀ b ∈ back, ¬ b.Anchors skip c) : p.wayBack.find? (isAnchor skip) = some a := by
  have hmem : a ∈ root.tokens := by simp [htokens]
  obtain ⟨met, rest, hway⟩ := List.append_of_mem ((anchors_iff hc hp hmem).1 ha).1
  refine List.find?_eq_some_iff_append.2 ⟨ha.isAnchor, met, rest, hway, fun b hb => ?_⟩
  by_contra hanchor
  obtain ⟨hbtoken, hbanchors⟩ := anchors_of_mem_wayBack hc hp (a := b) (by simp [hway, hb]) (by simpa using hanchor)
  -- what the walk meets before `a` comes after `a` in document order
  have hlater : a.path < b.path := by
    have hpairwise := pairwise_wayBack p
    rw [hway, List.pairwise_append] at hpairwise
    exact hpairwise.2.2 b hb a List.mem_cons_self
  rw [htokens, List.mem_append, List.mem_cons] at hbtoken
  rcases hbtoken with hfront | rfl | hback
  · exact List.lt_asymm hlater ((Element.path_lt_of_tokens_eq htokens).1 b hfront)
  · exact List.lt_irrefl _ hlater
  · exact hlast b hback hbanchors

/-- The column of the anchor of a token is found by a walk back from the node just above the token.  Of all the
multi-line whitespace that stands before a node above the token, and whose next sibling is not of a skipped kind, it is
the last line of the last in document order; without any there is no anchor.  Nothing below the parent of the token, and
nothing below an earlier sibling of the token or of a node above it, is such whitespace. -/
theorem anchorColumn?_last {t : Cursor} (ht : t ∈ root.tokens) (skip : List Kind) :
    t.anchorColumn? skip = (t.ancestors.head?.bind fun p => p.wayBack.find? (isAnchor skip)).map lastLineLength ∧
    (∀ front a back, root.tokens = front ++ a :: back → a.Anchors skip t → (∀ b ∈ back, ¬ b.Anchors skip t) →
      t.anchorColumn? skip = some (Text.lastLineLength a.element.text)) ∧
    (t.anchorColumn? skip = none ↔ ∀ a ∈ root.tokens, ¬ a.Anchors skip t) ∧
    ∀ a : Cursor, a.Anchors skip t → (∀ p ∈ t.ancestors.head?, ¬ a.IsBelow p) ∧
      ∀ n, n = t ∨ n ∈ t.ancestors → ∀ b : Cursor, b.IsEarlierSibling n → ¬ a.IsBelow b := by
  have htpos : t ∈ root.positions := (List.mem_filter.1 ht).1
  have hwalk := anchorColumn?_eq_find? skip t
  refine ⟨hwalk, fun front a back htokens ha hlast => ?_, ?_, fun a ha => ⟨fun p hp => ha.not_isBelow_parent hp,
    fun n hn b hb => ha.not_isBelow_earlierSibling hn hb⟩⟩
  · obtain ⟨n, hn, -⟩ := ha.isEarlierSibling
    obtain ⟨p, hp⟩ : ∃ p, t.ancestors.head? = some p :=
      Option.isSome_iff_exists.1 (List.isSome_head?.2 (List.ne_nil_of_mem hn))
    rw [hwalk, hp, Option.bind_some, find?_wayBack_eq_some htpos hp htokens ha hlast]
    rfl
  · rw [hwalk, Option.map_eq_none_iff]
    cases hp : t.ancestors.head? with
    | none =>
      have hnil : t.ancestors = [] := List.head?_eq_none_iff.1 hp
      refine ⟨fun _ a _ ha => ?_, fun _ => rfl⟩
      obtain ⟨n, hn, -⟩ := ha.isEarlierSibling
      simp [hnil] at hn
    | some p =>
      rw [Option.bind_some, List.find?_eq_none]
      constructor
      · exact fun h a ha hanchors => h a ((anchors_iff htpos hp ha).1 hanchors).1 hanchors.isAnchor
      · intro h a ha hanchor
        obtain ⟨htoken, hanchors⟩ := anchors_of_mem_wayBack htpos hp ha hanchor
        exact h a htoken hanchors

/-- Whitespace before a type reference is passed over by what stands below the reference, which the whitespace before
the node around both anchors. -/
theorem anchorColumn?_below_typeReference :
    ∃ (root : Element) (a blank : Cursor) (front : List Cursor) (t : Cursor) (back : List Cursor),
      root = .node .file [.token .whitespace ['\n', ' ', ' '], .node .node [.token .whitespace ['\n', ' '],
        .node .typeReference [.token .token ['f'], .token .whitespace ['\n'], .token .token ['x']]]] ∧
      root.tokens = a :: blank :: front ++ t :: back ∧ t.element = .token .whitespace ['\n'] ∧
      a.Anchors anchorSkip t ∧ ¬ blank.Anchors anchorSkip t ∧ t.anchorColumn? anchorSkip = some 2 := by
  obtain ⟨root, hroot⟩ : ∃ root, root = Element.node .file [.token .whitespace ['\n', ' ', ' '],
    .node .node [.token .whitespace ['\n', ' '],
      .node .typeReference [.token .token ['f'], .token .whitespace ['\n'], .token .token ['x']]]] := ⟨_, rfl⟩
  obtain ⟨a, blank, f, t, x, htokens, hblank, hf, ht, hx, ha, hcolumn, hparent⟩ :
      ∃ a blank f t x, root.tokens = [a, blank, f, t, x] ∧ blank.isAnchor anchorSkip = false ∧
        f.isAnchor anchorSkip = false ∧ t.element = .token .whitespace ['\n'] ∧ x.isAnchor anchorSkip = false ∧
        a.Anchors anchorSkip t ∧ Text.lastLineLength a.element.text = 2 ∧
        ∃ p, t.ancestors.head? = some p ∧ t.IsBelow p := by
    subst hroot
    refine ⟨_, _, _, _, _, rfl, rfl, rfl, rfl, rfl, ⟨rfl, ?_, _, rfl, by decide⟩, rfl, _, rfl, 1, [], rfl⟩
    exact ⟨_, List.mem_cons_of_mem _ List.mem_cons_self, [], 0, 1, rfl, rfl, Nat.zero_lt_one⟩
  have htmem : t ∈ root.tokens := by simp [htokens]
  obtain ⟨-, hlast, -, hbelow⟩ := anchorColumn?_last htmem anchorSkip
  have hothers : ∀ b ∈ [blank, f, t, x], ¬ b.Anchors anchorSkip t := by
    intro b hb hanchors
    have hanchor := hanchors.isAnchor
    simp only [List.mem_cons, List.not_mem_nil, or_false] at hb
    rcases hb with rfl | rfl | rfl | rfl
    · simp [hblank] at hanchor
    · simp [hf] at hanchor
    · obtain ⟨p, hp, hbelowp⟩ := hparent
      exact (hbelow b hanchors).1 p hp hbelowp
    · simp [hx] at hanchor
  refine ⟨root, a, blank, [f], t, [x], hroot, htokens, ht, ha, hothers blank List.mem_cons_self, ?_⟩
  rw [hlast [] a _ htokens ha hothers, hcolumn]

end Cursor

end IndentLint
