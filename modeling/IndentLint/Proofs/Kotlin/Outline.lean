import IndentLint.Proofs.Kotlin.Lossless
import IndentLint.Proofs.Kotlin.Nesting

/-!
# Lowering keeps the structure

An outline is what is left of a tree without its texts: kinds, byte ranges and nesting.  The outline of a lowered tree
is taken without the tokens of gaps, which have no byte in common with a node of the parser that became a token.  In a
well nested parse tree it is the outline of the parse tree (`parse_kotlin_outlined`): every visible node is there, with
all of its bytes but the blanks at both ends, in its place below the node that it is below in the parse tree.

The induction is on the nodes among which a text is divided.  Its invariant is that the given ranges are, between the
ends of that text, those of the tokens of these nodes (`Outline.TokensBetween`).
-/

namespace IndentLint

/-- A tree of kinds and byte ranges. -/
inductive Outline where
  | token (kind : Kind) (start stop : Nat)
  | node (kind : Kind) (start stop : Nat) (children : List Outline)
deriving Repr

/-- No byte from `start` to `stop` lies in one of the ranges. -/
def Clear (ranges : List (Nat × Nat)) (start stop : Nat) : Prop :=
  ∀ r ∈ ranges, r.2 ≤ start ∨ stop ≤ r.1

instance (ranges : List (Nat × Nat)) (start stop : Nat) : Decidable (Clear ranges start stop) :=
  inferInstanceAs (Decidable (∀ r ∈ ranges, r.2 ≤ start ∨ stop ≤ r.1))

private theorem Clear.mono {ranges : List (Nat × Nat)} {start stop start' stop' : Nat} (h : Clear ranges start stop)
    (hstart : start ≤ start') (hstop : stop' ≤ stop) : Clear ranges start' stop' := by
  intro r hr
  rcases h r hr with h | h
  · exact Or.inl (by omega)
  · exact Or.inr (by omega)

namespace Outline

mutual

/-- The ranges of the tokens of an outline, in their order. -/
def tokenRanges : Outline → List (Nat × Nat)
  | token _ start stop => [(start, stop)]
  | node _ _ _ children => tokenRangesOfList children

/-- The ranges of the tokens of some outlines, in their order. -/
def tokenRangesOfList : List Outline → List (Nat × Nat)
  | [] => []
  | o :: os => tokenRanges o ++ tokenRangesOfList os

end

private theorem tokenRangesOfList_append (os ps : List Outline) :
    tokenRangesOfList (os ++ ps) = tokenRangesOfList os ++ tokenRangesOfList ps := by
  induction os with
  | nil => rfl
  | cons o os ih => rw [List.cons_append, tokenRangesOfList, tokenRangesOfList, ih, List.append_assoc]

private theorem tokenRangesOfList_singleton (o : Outline) : tokenRangesOfList [o] = o.tokenRanges := by
  rw [tokenRangesOfList, tokenRangesOfList, List.append_nil]

/-- The ranges are those of the tokens of some outlines, as far as bytes from `start` to `stop` are concerned. -/
structure TokensBetween (ranges : List (Nat × Nat)) (start stop : Nat) (os : List Outline) : Prop where
  mem : ∀ r ∈ tokenRangesOfList os, r ∈ ranges
  only : ∀ r ∈ ranges, r ∈ tokenRangesOfList os ∨ (r.2 ≤ start ∨ stop ≤ r.1)

namespace TokensBetween

variable {ranges : List (Nat × Nat)} {start stop : Nat} {os ps : List Outline}

private theorem clear (h : TokensBetween ranges start stop []) : Clear ranges start stop := by
  intro r hr
  rcases h.only r hr with hr | hr
  · cases hr
  · exact hr

/-- Where the tokens of some outlines end before those of others begin, each part has its own. -/
private theorem divide (first last : Nat) (h : TokensBetween ranges start stop (os ++ ps)) (hstart : start ≤ first)
    (hstop : last ≤ stop) (hle : first ≤ last) (hos : ∀ r ∈ tokenRangesOfList os, first ≤ r.1 ∧ r.2 ≤ last)
    (hps : ∀ r ∈ tokenRangesOfList ps, last ≤ r.1) :
    Clear ranges start first ∧ TokensBetween ranges first last os ∧ TokensBetween ranges last stop ps := by
  have hcases : ∀ r ∈ ranges,
      r ∈ tokenRangesOfList os ∨ r ∈ tokenRangesOfList ps ∨ (r.2 ≤ start ∨ stop ≤ r.1) := by
    intro r hr
    rcases h.only r hr with hr | hr
    · rw [tokenRangesOfList_append, List.mem_append] at hr
      rcases hr with hr | hr
      · exact Or.inl hr
      · exact Or.inr (Or.inl hr)
    · exact Or.inr (Or.inr hr)
  have hmem := h.mem
  rw [tokenRangesOfList_append] at hmem
  refine ⟨fun r hr => ?_, ⟨fun r hr => hmem r (List.mem_append_left _ hr), fun r hr => ?_⟩,
    ⟨fun r hr => hmem r (List.mem_append_right _ hr), fun r hr => ?_⟩⟩
  · rcases hcases r hr with hr | hr | hr
    · have := hos r hr
      omega
    · have := hps r hr
      omega
    · omega
  · rcases hcases r hr with hr | hr | hr
    · exact Or.inl hr
    · have := hps r hr
      omega
    · omega
  · rcases hcases r hr with hr | hr | hr
    · have := hos r hr
      omega
    · exact Or.inl hr
    · omega

end TokensBetween

end Outline

/-! ### The outline of an element -/

namespace Element

mutual

/-- The outline of an element that starts at byte `start`, without the tokens that have no byte in `ranges`. -/
def outline (ranges : List (Nat × Nat)) (start : Nat) : Element → List Outline
  | token kind text =>
    let stop := start + Text.byteLength text
    if Clear ranges start stop then [] else [.token kind start stop]
  | node kind es => [.node kind start (start + Text.byteLength (textOfList es)) (outlineOfList ranges start es)]

/-- The outline of some elements in a row, without the tokens that have no byte in `ranges`. -/
def outlineOfList (ranges : List (Nat × Nat)) (start : Nat) : List Element → List Outline
  | [] => []
  | e :: es => outline ranges start e ++ outlineOfList ranges (start + e.byteLength) es

end

private theorem outlineOfList_append (ranges : List (Nat × Nat)) (start : Nat) (es fs : List Element) :
    outlineOfList ranges start (es ++ fs) =
      outlineOfList ranges start es ++ outlineOfList ranges (start + Text.byteLength (textOfList es)) fs := by
  induction es generalizing start with
  | nil => rfl
  | cons e es ih =>
    rw [List.cons_append, outlineOfList, outlineOfList, ih, List.append_assoc, textOfList_cons,
      Text.byteLength_append, byteLength, Nat.add_assoc]

private theorem outlineOfList_singleton (ranges : List (Nat × Nat)) (start : Nat) (e : Element) :
    outlineOfList ranges start [e] = e.outline ranges start := by
  rw [outlineOfList, outlineOfList, List.append_nil]

/-- A token of which a range is given is in the outline. -/
private theorem outline_token {ranges : List (Nat × Nat)} {start : Nat} {kind : Kind} {text : List Char}
    (hne : text ≠ []) (hmem : (start, start + Text.byteLength text) ∈ ranges) :
    (token kind text).outline ranges start = [.token kind start (start + Text.byteLength text)] := by
  have hpos := Text.byteLength_pos hne
  rw [outline, if_neg]
  intro hclear
  have := hclear _ hmem
  dsimp only at this
  omega

/-- Text without structure leaves no trace where it lies outside of the ranges. -/
private theorem outlineOfList_gap {ranges : List (Nat × Nat)} {start : Nat} {cs : List Char}
    (h : Clear ranges start (start + Text.byteLength cs)) : outlineOfList ranges start (gap cs) = [] := by
  have hruns : ∀ (rs : List (List Char)) (start : Nat), Clear ranges start (start + Text.byteLength rs.flatten) →
      outlineOfList ranges start (rs.map ofRun) = [] := by
    intro rs
    induction rs with
    | nil => exact fun _ _ => rfl
    | cons r rs ih =>
      intro start hclear
      rw [List.flatten_cons, Text.byteLength_append] at hclear
      have hfirst : Clear ranges start (start + Text.byteLength r) := hclear.mono (Nat.le_refl _) (by omega)
      have hrest := ih (start + Text.byteLength r) (hclear.mono (by omega) (by omega))
      rw [List.map_cons, outlineOfList, byteLength, text_ofRun, hrest, ofRun, outline, if_pos hfirst]
      rfl
  refine hruns _ start ?_
  rwa [Text.flatten_runs]

end Element

namespace Kotlin.ParseTree

open Element Text

variable {source : List Char}

/-! ### The outline of a parse tree -/

/-- The bytes of a node without the blanks at both ends, unless all of them are blank. -/
def shownRange? (source : List Char) (t : ParseTree) : Option (Nat × Nat) :=
  (t.trimmedRange? source).filter fun r => r.1 < r.2

mutual

/-- The visible nodes at or below a node, each with the kind of its element and its own bytes less the blanks at both
ends.  A literal hides what is below it, and a whole file gives way to its children. -/
def outline (source : List Char) : ParseTree → List Outline
  | node kind start stop children =>
    let t := node kind start stop children
    if t.isOpaque then (t.shownRange? source).toList.map fun r => .token .token r.1 r.2
    else if t.elementKind = .file then outlineOfList source children
    else
      match t.shownRange? source with
      | none => outlineOfList source children
      | some r =>
        if children.isEmpty then [.token t.elementKind r.1 r.2]
        else [.node t.elementKind r.1 r.2 (outlineOfList source children)]

/-- The visible nodes at or below some nodes. -/
def outlineOfList (source : List Char) : List ParseTree → List Outline
  | [] => []
  | t :: ts => outline source t ++ outlineOfList source ts

end

/-- The bytes of the visible nodes below the root that become tokens. -/
def tokenRanges (source : List Char) (t : ParseTree) : List (Nat × Nat) :=
  Outline.tokenRangesOfList (outlineOfList source t.children)

/-! ### Where the nodes of an outline lie -/

private theorem shownRange?_eq_some_iff {t : ParseTree} {r : Nat × Nat} :
    t.shownRange? source = some r ↔ t.trimmedRange? source = some r ∧ r.1 < r.2 := by
  rw [shownRange?, Option.filter_eq_some_iff, decide_eq_true_eq]

/-- A visible node encloses the first and the last of its visible bytes. -/
private theorem encloses_of_shownRange? {t : ParseTree} (ht : t.WellNested source) {r : Nat × Nat}
    (h : t.shownRange? source = some r) : r.1 < r.2 ∧ t.Encloses source r.1 ∧ t.Encloses source (r.2 - 1) := by
  obtain ⟨htrimmed, hlt⟩ := shownRange?_eq_some_iff.1 h
  refine ⟨hlt, ?_, ?_⟩
  · exact encloses_of_trimmedRange? ht htrimmed (Nat.le_refl _) hlt
  · exact encloses_of_trimmedRange? ht htrimmed (by omega) (by omega)

private theorem wellNested_of_mem_cons {t d : ParseTree} (ht : t.WellNested source) (hd : d ∈ t :: t.descendants) :
    d.WellNested source := by
  rcases List.mem_cons.1 hd with rfl | hd
  · exact ht
  · exact (inside_of_mem_descendants t ht hd).2.2

mutual

/-- The tokens of an outline are visible nodes. -/
private theorem exists_shownRange?_of_mem (t : ParseTree) {r : Nat × Nat}
    (hr : r ∈ Outline.tokenRangesOfList (t.outline source)) :
    ∃ d ∈ t :: t.descendants, d.shownRange? source = some r := by
  match t with
  | node kind start stop children =>
    have hbelow : r ∈ Outline.tokenRangesOfList (outlineOfList source children) →
        ∃ d ∈ node kind start stop children :: (node kind start stop children).descendants,
          d.shownRange? source = some r := by
      intro hr
      obtain ⟨d, hd, hshown⟩ := exists_shownRange?_of_mem_list children hr
      exact ⟨d, List.mem_cons_of_mem _ hd, hshown⟩
    rw [outline] at hr
    split at hr
    · rcases hshown : (node kind start stop children).shownRange? source with _ | r'
      · rw [hshown] at hr
        cases hr
      · rw [hshown] at hr
        obtain rfl : r = r' := List.mem_singleton.1 hr
        exact ⟨_, List.mem_cons_self, hshown⟩
    · split at hr
      · exact hbelow hr
      · split at hr
        · exact hbelow hr
        · rename_i r' hshown
          split at hr
          · obtain rfl : r = r' := List.mem_singleton.1 hr
            exact ⟨_, List.mem_cons_self, hshown⟩
          · rw [Outline.tokenRangesOfList_singleton, Outline.tokenRanges] at hr
            exact hbelow hr

private theorem exists_shownRange?_of_mem_list (ts : List ParseTree) {r : Nat × Nat}
    (hr : r ∈ Outline.tokenRangesOfList (outlineOfList source ts)) :
    ∃ d ∈ descendantsOfList ts, d.shownRange? source = some r := by
  match ts with
  | [] => cases hr
  | t :: ts =>
    rw [outlineOfList, Outline.tokenRangesOfList_append, List.mem_append] at hr
    rw [descendantsOfList, ← List.cons_append]
    rcases hr with hr | hr
    · obtain ⟨d, hd, hshown⟩ := exists_shownRange?_of_mem t hr
      exact ⟨d, List.mem_append_left _ hd, hshown⟩
    · obtain ⟨d, hd, hshown⟩ := exists_shownRange?_of_mem_list ts hr
      exact ⟨d, List.mem_append_right _ hd, hshown⟩

end

private theorem bounds_of_shownRange? {t : ParseTree} (ht : t.WellNested source) {floor ceiling first last : Nat}
    (hwithin : VisibleWithin source floor ceiling first last) (hfloor : floor ≤ t.start) (hceiling : t.stop ≤ ceiling)
    {r : Nat × Nat} (hr : t.shownRange? source = some r) : first ≤ r.1 ∧ r.2 ≤ last := by
  obtain ⟨hlt, hfirst, hlast⟩ := encloses_of_shownRange? ht hr
  have := hfirst.bounds hwithin hfloor hceiling
  have := hlast.bounds hwithin hfloor hceiling
  omega

private theorem bounds_of_mem_tokenRanges {t : ParseTree} (ht : t.WellNested source) {first last : Nat}
    (hwithin : VisibleWithin source t.start t.stop first last) {r : Nat × Nat}
    (hr : r ∈ Outline.tokenRangesOfList (t.outline source)) : first ≤ r.1 ∧ r.2 ≤ last := by
  obtain ⟨d, hd, hshown⟩ := exists_shownRange?_of_mem t hr
  obtain ⟨hstart, hstop⟩ := inside_of_mem_cons ht hd
  exact bounds_of_shownRange? (wellNested_of_mem_cons ht hd) hwithin hstart hstop hshown

private theorem bounds_of_mem_tokenRanges_list {ts : List ParseTree} {floor ceiling : Nat}
    (hts : NestedIn source floor ceiling ts) {first last : Nat}
    (hwithin : VisibleWithin source floor ceiling first last) {r : Nat × Nat}
    (hr : r ∈ Outline.tokenRangesOfList (outlineOfList source ts)) : first ≤ r.1 ∧ r.2 ≤ last := by
  obtain ⟨d, hd, hshown⟩ := exists_shownRange?_of_mem_list ts hr
  obtain ⟨hstart, hstop, hnested⟩ := inside_of_mem_descendantsOfList ts hts hd
  exact bounds_of_shownRange? hnested hwithin hstart hstop hshown

/-! ### Clamping cuts no visible node -/

mutual

private theorem outline_eq_nil (t : ParseTree) (h : ∀ d ∈ t :: t.descendants, d.shownRange? source = none) :
    t.outline source = [] := by
  match t with
  | node kind start stop children =>
    have hself := h _ List.mem_cons_self
    have hbelow := outlineOfList_eq_nil children fun d hd => h d (List.mem_cons_of_mem _ hd)
    rw [outline, hself, hbelow]
    split
    · rfl
    · split <;> rfl

private theorem outlineOfList_eq_nil (ts : List ParseTree)
    (h : ∀ d ∈ descendantsOfList ts, d.shownRange? source = none) : outlineOfList source ts = [] := by
  match ts with
  | [] => rfl
  | t :: ts =>
    rw [descendantsOfList, ← List.cons_append] at h
    rw [outlineOfList, outline_eq_nil t fun d hd => h d (List.mem_append_left _ hd),
      outlineOfList_eq_nil ts fun d hd => h d (List.mem_append_right _ hd)]
    rfl

end

/-- Where there is no cut around a node, there is nothing to be seen of it. -/
private theorem outline_eq_nil_of_cut?_eq_none {a cs b : List Char} {t : ParseTree}
    (hcut : cut? cs (t.start - byteLength a) (t.stop - byteLength a) = none) (ht : t.WellNested (a ++ (cs ++ b)))
    (h : VisibleWithin (a ++ (cs ++ b)) t.start t.stop (byteLength a) (byteLength a + byteLength cs)) :
    t.outline (a ++ (cs ++ b)) = [] := by
  refine outline_eq_nil t fun d hd => ?_
  rcases hshown : d.shownRange? (a ++ (cs ++ b)) with _ | r
  · rfl
  · obtain ⟨-, hfirst, -⟩ := encloses_of_shownRange? (wellNested_of_mem_cons ht hd) hshown
    exact absurd hfirst (not_encloses_of_cut?_eq_none hcut ht h hd)

private theorem bounds_of_trimmedRange? {t : ParseTree} {first last n : Nat}
    (h : t.trimmedRange? source = some (first, last)) (hn : VisibleAt source n) (hstart : t.start ≤ n)
    (hstop : n < t.stop) : first ≤ n ∧ n < last := by
  simp only [trimmedRange?, Option.bind_eq_bind, Option.pure_def, Option.bind_eq_some_iff, Option.some.injEq,
    Prod.mk.injEq] at h
  obtain ⟨text, htext, rfl, rfl⟩ := h
  obtain ⟨p, q, rfl, hp, hlength⟩ := slice?_eq_some_iff.1 htext
  have hin := (hn.middle (by omega) (by omega)).trim
  omega

/-- The cut around a node holds all that is visible of it: neither the text before the cut nor that behind it takes a
byte away. -/
theorem shownRange?_eq_of_cut? {a cs b : List Char} {t : ParseTree} {c : Cut} (ht : t.WellNested (a ++ (cs ++ b)))
    (hcut : cut? cs (t.start - byteLength a) (t.stop - byteLength a) = some c)
    (h : VisibleWithin (a ++ (cs ++ b)) t.start t.stop (byteLength a) (byteLength a + byteLength cs)) :
    t.shownRange? (a ++ (cs ++ b)) =
      some (byteLength (a ++ c.before), byteLength (a ++ c.before) + byteLength c.inner) := by
  obtain ⟨hcs, hvisible⟩ := append_of_cut? hcut
  obtain ⟨hend, hcovered⟩ := le_and_lt_of_cut? (b := b) hcut
  have hbegin : t.start ≤ byteLength a + byteLength c.before := by
    obtain ⟨a', m, b', -, ha', -, -, rfl⟩ := cut?_eq_some_iff.1 hcut
    rw [byteLength_append]
    omega
  have hpos := byteLength_pos hvisible.ne_nil
  -- the first and the last byte of the cut are visible bytes of the source, so the node has a visible range
  have hat : ∀ n, VisibleAt c.inner n → VisibleAt (a ++ (cs ++ b)) (byteLength a + byteLength c.before + n) := by
    intro n hn
    have := (hn.append_right (c.after ++ b)).append_left (a ++ c.before)
    rw [byteLength_append] at this
    rw [hcs]
    simpa using this
  have hfirst := hat 0 hvisible.visibleAt_zero
  have hlast := hat _ hvisible.visibleAt_last
  obtain ⟨first, last, htrimmed, hinside⟩ := exists_trimmedRange? ht
  have hfirst_in := bounds_of_trimmedRange? htrimmed hfirst (by omega) (by omega)
  have hlast_in := bounds_of_trimmedRange? htrimmed hlast (by omega) (by omega)
  -- the visible range begins and ends with visible bytes, and the cut holds both of them
  obtain ⟨hvfirst, hvlast, hstart, hstop⟩ := hinside (by omega)
  have hwfirst := h first hvfirst hstart (by omega)
  have hwlast := h (last - 1) hvlast (by omega) (by omega)
  have hcfirst := hcovered first hvfirst hstart (by omega) hwfirst.1 hwfirst.2
  have hclast := hcovered (last - 1) hvlast (by omega) (by omega) hwlast.1 hwlast.2
  rw [shownRange?_eq_some_iff, htrimmed, byteLength_append]
  refine ⟨?_, by dsimp only; omega⟩
  simp only [Option.some.injEq, Prod.mk.injEq]
  omega

/-! ### The outline of the lowered tree -/

/-- Around a cut the tokens of the node lie in the cut and those of the later nodes behind it. -/
private theorem tokensBetween_of_cut {a cs : List Char} {t : ParseTree} {rest : List ParseTree} {c : Cut}
    {ceiling : Nat} {ranges : List (Nat × Nat)} (hcs : cs = c.before ++ (c.inner ++ c.after)) (ht : t.WellNested source)
    (hrest : NestedIn source t.stop ceiling rest)
    (hinner : VisibleWithin source t.start t.stop (byteLength (a ++ c.before))
      (byteLength (a ++ c.before) + byteLength c.inner))
    (hafter : VisibleWithin source t.stop ceiling (byteLength (a ++ c.before ++ c.inner))
      (byteLength (a ++ c.before ++ c.inner) + byteLength c.after))
    (hranges : Outline.TokensBetween ranges (byteLength a) (byteLength a + byteLength cs)
      (t.outline source ++ outlineOfList source rest)) :
    Clear ranges (byteLength a) (byteLength a + byteLength c.before) ∧
      Outline.TokensBetween ranges (byteLength (a ++ c.before)) (byteLength (a ++ c.before) + byteLength c.inner)
        (t.outline source) ∧
      Outline.TokensBetween ranges (byteLength (a ++ c.before ++ c.inner))
        (byteLength (a ++ c.before ++ c.inner) + byteLength c.after) (outlineOfList source rest) := by
  have hbefore : byteLength (a ++ c.before) = byteLength a + byteLength c.before := byteLength_append ..
  have hmiddle : byteLength (a ++ c.before ++ c.inner) = byteLength (a ++ c.before) + byteLength c.inner :=
    byteLength_append ..
  have hlength : byteLength a + byteLength cs = byteLength (a ++ c.before ++ c.inner) + byteLength c.after := by
    rw [hcs]
    simp only [byteLength_append, Nat.add_assoc]
  have htokens := fun r (hr : r ∈ Outline.tokenRangesOfList (t.outline source)) =>
    bounds_of_mem_tokenRanges ht hinner hr
  have hlater := fun r (hr : r ∈ Outline.tokenRangesOfList (outlineOfList source rest)) =>
    (bounds_of_mem_tokenRanges_list hrest hafter hr).1
  rw [hlength] at hranges
  rw [hmiddle] at hranges hlater ⊢
  rw [hbefore] at hranges htokens hlater ⊢
  exact hranges.divide _ _ (by omega) (by omega) (by omega) htokens hlater

mutual

theorem outlineOfList_lower (t : ParseTree) {a cs b : List Char} (hsource : source = a ++ (cs ++ b))
    (ht : t.WellNested source) (hshown : t.shownRange? source = some (byteLength a, byteLength a + byteLength cs))
    (hwithin : VisibleWithin source t.start t.stop (byteLength a) (byteLength a + byteLength cs))
    {ranges : List (Nat × Nat)}
    (hranges : Outline.TokensBetween ranges (byteLength a) (byteLength a + byteLength cs) (t.outline source)) :
    Element.outlineOfList ranges (byteLength a) (t.lower cs (byteLength a)) = t.outline source := by
  match t with
  | node kind start stop children =>
    have hne : cs ≠ [] := by
      rintro rfl
      have := (shownRange?_eq_some_iff.1 hshown).2
      rw [byteLength_nil] at this
      omega
    rw [outline, hshown] at hranges ⊢
    rw [lower]
    by_cases hopaque : (node kind start stop children).isOpaque = true
    · rw [if_pos hopaque] at hranges ⊢
      rw [if_pos hopaque, outlineOfList_singleton]
      exact outline_token hne (hranges.mem _ (List.mem_singleton_self _))
    · rw [if_neg hopaque] at hranges ⊢
      rw [if_neg hopaque]
      by_cases hfile : (node kind start stop children).elementKind = .file
      · rw [if_pos hfile] at hranges ⊢
        rw [if_pos hfile]
        exact outlineOfList_lowerChildren children hsource ht.2 hwithin hranges
      · rw [if_neg hfile] at hranges ⊢
        rw [if_neg hfile]
        dsimp only at hranges ⊢
        by_cases hempty : children.isEmpty = true
        · rw [if_pos hempty] at hranges ⊢
          rw [if_pos hempty, outlineOfList_singleton]
          exact outline_token hne (hranges.mem _ (List.mem_singleton_self _))
        · rw [if_neg hempty] at hranges ⊢
          have hchildren : Outline.TokensBetween ranges (byteLength a) (byteLength a + byteLength cs)
              (outlineOfList source children) := by
            obtain ⟨hmem, honly⟩ := hranges
            rw [Outline.tokenRangesOfList_singleton, Outline.tokenRanges] at hmem honly
            exact ⟨hmem, honly⟩
          rw [if_neg hempty, outlineOfList_singleton, Element.outline, textOfList_lowerChildren,
            outlineOfList_lowerChildren children hsource ht.2 hwithin hchildren]

/-- The outline of what the nodes of a divided text become is that of the nodes. -/
theorem outlineOfList_lowerChildren (ts : List ParseTree) {a cs b : List Char} {floor ceiling : Nat}
    (hsource : source = a ++ (cs ++ b)) (hts : NestedIn source floor ceiling ts)
    (hwithin : VisibleWithin source floor ceiling (byteLength a) (byteLength a + byteLength cs))
    {ranges : List (Nat × Nat)}
    (hranges : Outline.TokensBetween ranges (byteLength a) (byteLength a + byteLength cs) (outlineOfList source ts)) :
    Element.outlineOfList ranges (byteLength a) (lowerChildren cs (byteLength a) ts) = outlineOfList source ts := by
  match ts with
  | [] => exact outlineOfList_gap hranges.clear
  | t :: rest =>
    obtain ⟨hfloor, hceiling, ht, hrest⟩ := hts
    have hle := ht.start_le_stop
    have htwithin : VisibleWithin source t.start t.stop (byteLength a) (byteLength a + byteLength cs) :=
      fun n hn hstart hstop => hwithin n hn (by omega) (by omega)
    rw [outlineOfList] at hranges ⊢
    rw [lowerChildren]
    rcases hcut : cut? cs (t.start - byteLength a) (t.stop - byteLength a) with _ | c
    · have hnone : t.outline source = [] := by
        subst hsource
        exact outline_eq_nil_of_cut?_eq_none hcut ht htwithin
      rw [hnone] at hranges ⊢
      exact outlineOfList_lowerChildren rest hsource hrest (fun n hn hstart hstop => hwithin n hn (by omega) hstop)
        hranges
    · obtain ⟨hcs, -⟩ := append_of_cut? hcut
      obtain ⟨hinner, hafter⟩ := VisibleWithin.of_cut? hcut hle (hsource ▸ hwithin) hfloor hceiling
      rw [← hsource] at hinner hafter
      have hshown : t.shownRange? source =
          some (byteLength (a ++ c.before), byteLength (a ++ c.before) + byteLength c.inner) := by
        subst hsource
        exact shownRange?_eq_of_cut? ht hcut htwithin
      -- the text of the child and the text behind it are middles of the source as well
      have hsource₁ : source = (a ++ c.before) ++ (c.inner ++ (c.after ++ b)) := by
        rw [hsource, hcs]
        simp
      have hsource₂ : source = (a ++ c.before ++ c.inner) ++ (c.after ++ b) := by
        rw [hsource₁, List.append_assoc (a ++ c.before)]
      obtain ⟨hgap, hchild, hlater⟩ := tokensBetween_of_cut hcs ht hrest hinner hafter hranges
      have hlower := outlineOfList_lower t hsource₁ ht hshown hinner hchild
      have hlowerRest := outlineOfList_lowerChildren rest hsource₂ hrest hafter hlater
      simp only [byteLength_append] at hlower hlowerRest
      dsimp only
      rw [Element.outlineOfList_append, Element.outlineOfList_append, outlineOfList_gap hgap, textOfList_append,
        textOfList_gap, textOfList_lower, byteLength_append, ← Nat.add_assoc, hlower, hlowerRest]
      rfl

end

/-- The outline of a lowered tree is that of the parse tree below a whole file. -/
private theorem outline_toElement {t : ParseTree} (ht : t.WellNested source) :
    (t.toElement source).outline (t.tokenRanges source) 0 =
      [.node .file 0 (byteLength source) (outlineOfList source t.children)] := by
  match t with
  | node kind start stop children =>
    have hsource : source = [] ++ (source ++ []) := by simp
    have hwithin : VisibleWithin source start stop (byteLength []) (byteLength [] + byteLength source) := by
      intro n hn _ _
      have := hn.lt
      rw [byteLength_nil]
      omega
    have hchildren := outlineOfList_lowerChildren children hsource ht.2 hwithin ⟨fun r hr => hr, fun r hr => Or.inl hr⟩
    rw [toElement, Element.outline, textOfList_lowerChildren, Nat.zero_add]
    exact congrArg (fun os => [Outline.node .file 0 (byteLength source) os]) hchildren

end Kotlin.ParseTree

namespace Frontend

/-- The tree of a source with a well nested parse tree has the structure of the parse tree: without the tokens of gaps
its outline is a file over the outline of the nodes below the root. -/
theorem parse_kotlin_outlined (source : List Char) (p : Kotlin.Parse) (hnested : p.root.WellNested source) :
    ∃ tree, (kotlin fun _ => some p).parse source = .ok ⟨tree, p.hasErrors⟩ ∧
      tree.outline (p.root.tokenRanges source) 0 =
        [.node .file 0 (Text.byteLength source) (Kotlin.ParseTree.outlineOfList source p.root.children)] :=
  ⟨_, parse_kotlin rfl, Kotlin.ParseTree.outline_toElement hnested⟩

/-- An assignment that reaches into the blanks behind it, its literal into the blanks before it, and an empty file
around a blank node: the literal hides its content, and `c` is in a gap. -/
theorem outlined_assignment : ∃ tree,
    (kotlin fun _ => some ⟨.node "source_file" 0 10 [
        .node "assignment" 0 8 [.node "identifier" 0 1 [], .node "=" 2 3 [],
          .node "string_literal" 3 7 [.node "string_content" 5 6 []]],
        .node "source_file" 8 10 [.node "identifier" 9 10 []]], false⟩).parse
      ['a', ' ', '=', ' ', '\'', 'b', '\'', ' ', 'c', '\n'] = .ok ⟨tree, false⟩ ∧
    tree.outline [(0, 1), (2, 3), (4, 7)] 0 = [.node .file 0 10 [
      .node .node 0 7 [.token .token 0 1, .token .assignmentOperator 2 3, .token .token 4 7]]] := by
  have hnested : (Kotlin.ParseTree.node "source_file" 0 10 [
      .node "assignment" 0 8 [.node "identifier" 0 1 [], .node "=" 2 3 [],
        .node "string_literal" 3 7 [.node "string_content" 5 6 []]],
      .node "source_file" 8 10 [.node "identifier" 9 10 []]]).WellNested
      ['a', ' ', '=', ' ', '\'', 'b', '\'', ' ', 'c', '\n'] := by
    exact ⟨⟨_, rfl⟩, by decide, by decide,
      ⟨⟨_, rfl⟩, by decide, by decide, ⟨⟨_, rfl⟩, trivial⟩, by decide, by decide, ⟨⟨_, rfl⟩, trivial⟩,
        by decide, by decide, ⟨⟨_, rfl⟩, by decide, by decide, ⟨⟨_, rfl⟩, trivial⟩, trivial⟩, trivial⟩,
      by decide, by decide, ⟨⟨_, rfl⟩, by decide, by decide, ⟨⟨_, rfl⟩, trivial⟩, trivial⟩, trivial⟩
  exact parse_kotlin_outlined _ ⟨_, false⟩ hnested

end Frontend

end IndentLint
