import IndentLint.Proofs.Layout.Surroundings
import IndentLint.Proofs.Syntax.Insertion

/-!
# Whitespace behind trivia

Comments and blanks that are put in just before whitespace change neither its context nor its baseline
(`Element.indented_alike_behind_trivia`).  The context goes by the nearest earlier sibling that is neither, and by the
sibling just after and the node around, which stay; the baseline goes by what stands before the nodes above, and so not
by the line breaks of any sibling.
-/

namespace IndentLint

/-- Only an assignment operator before it makes whitespace the rest of an assignment. -/
private theorem Reason.ofSurroundings?_eq_afterAssignment_iff {previous parent next : Option Kind} :
    ofSurroundings? previous parent next = some .afterAssignment ↔ previous = some .assignmentOperator := by
  have hnext : ∀ k, ofNext? k ≠ some .afterAssignment := by
    intro k
    cases k <;> decide
  have hparent : ∀ k, ofParent? k ≠ some .afterAssignment := by
    intro k
    cases k <;> decide
  constructor
  · intro h
    rw [ofSurroundings?] at h
    split at h
    · assumption
    · split at h
      · cases h
      · rcases Option.or_eq_some_iff.1 h with h | ⟨-, h⟩
        · obtain ⟨k, -, hk⟩ := Option.bind_eq_some_iff.1 h
          exact absurd hk (hnext k)
        · obtain ⟨k, -, hk⟩ := Option.bind_eq_some_iff.1 h
          exact absurd hk (hparent k)
  · rintro rfl
    rfl

namespace Cursor

private theorem context_eq_afterAssignment_iff {c : Cursor} :
    c.context = .continuation .afterAssignment ↔
      ∃ front e trivia, c.earlierSiblings.reverse = front ++ e :: trivia ∧ e.kind = .assignmentOperator ∧
        ∀ t ∈ trivia, t.kind.isTrivia = true := by
  have hreason : c.context = .continuation .afterAssignment ↔ c.continuationReason? = some .afterAssignment := by
    rw [context]
    cases c.continuationReason? <;> simp
  have hfind : ∀ before : List Element, (before.map (·.kind)).find? (!·.isTrivia) = some .assignmentOperator ↔
      ∃ trivia e far, before = trivia ++ e :: far ∧ e.kind = .assignmentOperator ∧
        ∀ t ∈ trivia, t.kind.isTrivia = true := by
    intro before
    rw [List.find?_map, Option.map_eq_some_iff]
    constructor
    · rintro ⟨e, he, hkind⟩
      obtain ⟨-, trivia, far, rfl, htrivia⟩ := List.find?_eq_some_iff_append.1 he
      exact ⟨trivia, e, far, rfl, hkind, fun t ht => by simpa using htrivia t ht⟩
    · rintro ⟨trivia, e, far, rfl, hkind, htrivia⟩
      refine ⟨e, List.find?_eq_some_iff_append.2 ⟨?_, trivia, far, rfl, fun t ht => ?_⟩, hkind⟩
      · simp [hkind, Kind.isTrivia]
      · simp [htrivia t ht]
  rw [hreason, continuationReason?, Reason.ofSurroundings?_eq_afterAssignment_iff, previousNonTrivia?,
    map_kind_nearestNonTrivia?, hfind]
  -- the earlier siblings are listed nearest first
  constructor
  · rintro ⟨trivia, e, far, hbefore, hkind, htrivia⟩
    refine ⟨far.reverse, e, trivia.reverse, ?_, hkind, fun t ht => htrivia t (List.mem_reverse.1 ht)⟩
    simp [hbefore]
  · rintro ⟨front, e, trivia, hbefore, hkind, htrivia⟩
    refine ⟨trivia.reverse, e, front.reverse, ?_, hkind, fun t ht => htrivia t (List.mem_reverse.1 ht)⟩
    rw [← List.reverse_reverse c.earlierSiblings, hbefore]
    simp

/-- What stands just before an element does not matter to its baseline. -/
private theorem baseline_behind (c : Cursor) (es : List Element) : (c.behind es).baseline = c.baseline := by
  rw [behind]
  split
  · rfl
  · rename_i f outer hframes
    refine baseline_congr ?_ ?_
    · rw [parentKind?, parentKind?, hframes]
      rfl
    · rw [hframes]
      rfl

/-- Comments and blanks just before an element do not matter to its context. -/
private theorem context_behind (c : Cursor) {es : List Element} (hes : ∀ e ∈ es, e.kind.isTrivia = true) :
    (c.behind es).context = c.context := by
  have hskip : ∀ before : List Element, ((es.reverse ++ before).map (·.kind)).find? (!·.isTrivia) =
      (before.map (·.kind)).find? (!·.isTrivia) := by
    intro before
    rw [List.map_append, List.find?_append, List.find?_eq_none.2, Option.none_or]
    intro k hk
    obtain ⟨e, he, rfl⟩ := List.mem_map.1 hk
    simp [hes e (List.mem_reverse.1 he)]
  rw [behind]
  split
  · rfl
  · rename_i f outer hframes
    have hprevious : ∀ (e : Element) (start : Nat) (g : Frame),
        (Cursor.mk e start (g :: outer)).previousNonTrivia?.map (·.1.kind) =
          (g.before.map (·.kind)).find? (!·.isTrivia) :=
      fun e start g => map_kind_nearestNonTrivia? start g.before
    obtain ⟨e, start, frames⟩ := c
    obtain rfl : frames = f :: outer := hframes
    rw [context, context, continuationReason?, continuationReason?, hprevious, hprevious, Frame.insert, hskip]
    rfl

end Cursor

namespace Element

/-- Comments and blanks may be put in just before whitespace: it is found behind them, in the same context and with the
same baseline.  And whitespace is the rest of an assignment just if the last of its earlier siblings that is neither
whitespace nor a comment is an assignment operator. -/
theorem indented_alike_behind_trivia {root : Element} {w : Cursor} (hw : w ∈ root.whitespace) :
    (∀ around i trivia, w.path = around ++ [i] → (∀ e ∈ trivia, e.kind.isTrivia = true) →
      ∃ w' ∈ (root.insertBefore trivia w.path).whitespace, w'.element = w.element ∧
        w'.path = around ++ [i + trivia.length] ∧
        (∀ u ∈ (root.insertBefore trivia w.path).positions, u.path = w'.path → u = w') ∧
        w'.context = w.context ∧ w'.baseline = w.baseline) ∧
    (w.context = .continuation .afterAssignment ↔
      ∃ front e trivia, w.earlierSiblings.reverse = front ++ e :: trivia ∧ e.kind = .assignmentOperator ∧
        ∀ t ∈ trivia, t.kind.isTrivia = true) := by
  refine ⟨fun around i trivia hpath htrivia => ?_, Cursor.context_eq_afterAssignment_iff⟩
  obtain ⟨hpos, text, htext⟩ := mem_whitespace.1 hw
  have hmem := mem_positions_insertBefore hpos trivia
  have helement : (w.behind trivia).element = w.element := by
    rw [Cursor.behind]
    split <;> rfl
  refine ⟨w.behind trivia, mem_whitespace.2 ⟨hmem, text, helement.trans htext⟩, helement,
    Cursor.path_behind hpath trivia, fun u hu hupath => eq_of_path_eq hu hmem hupath, ?_, ?_⟩
  · exact w.context_behind htrivia
  · exact w.baseline_behind trivia

/-- A comment, blanks with a line break and a comment over two lines between `=` and the whitespace after it. -/
theorem indented_alike_behind_two_comments :
    ∃ w' ∈ (insertBefore [token .comment ['/', '/'], token .whitespace ['\n', ' '],
        node .comment [token .token ['/', '*'], token .whitespace ['\n', ' ', ' ', ' '], token .token ['*', '/']]] [1, 2]
        (node .file [token .whitespace ['\n', ' ', ' '], node .node [token .token ['x'], token .assignmentOperator ['='],
          token .whitespace ['\n'], token .token ['1']]])).whitespace,
      w'.element = token .whitespace ['\n'] ∧ w'.path = [1, 5] ∧ w'.context = .continuation .afterAssignment ∧
        w'.baseline = 2 := by
  obtain ⟨root, hroot⟩ : ∃ root, root = node .file [token .whitespace ['\n', ' ', ' '],
    node .node [token .token ['x'], token .assignmentOperator ['='], token .whitespace ['\n'], token .token ['1']]] :=
    ⟨_, rfl⟩
  obtain ⟨front, w, hw, helement, hpath, hcontext, hbaseline⟩ : ∃ front w, root.whitespace = [front, w] ∧
      w.element = token .whitespace ['\n'] ∧ w.path = [1, 2] ∧ w.context = .continuation .afterAssignment ∧
      w.baseline = 2 := by
    subst hroot
    exact ⟨_, _, rfl, rfl, rfl, rfl, rfl⟩
  have hmem : w ∈ root.whitespace := by simp [hw]
  obtain ⟨w', hw', helement', hpath', -, hcontext', hbaseline'⟩ :=
    (indented_alike_behind_trivia hmem).1 [1] 2 [token .comment ['/', '/'], token .whitespace ['\n', ' '],
      node .comment [token .token ['/', '*'], token .whitespace ['\n', ' ', ' ', ' '], token .token ['*', '/']]]
      hpath (by decide)
  rw [hpath, hroot] at hw'
  exact ⟨w', hw', helement'.trans helement, hpath', hcontext'.trans hcontext, hbaseline'.trans hbaseline⟩

end Element

end IndentLint
