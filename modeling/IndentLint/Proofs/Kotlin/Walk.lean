import IndentLint.Kotlin.Lowering
import IndentLint.Kotlin.Walk
import IndentLint.Proofs.Syntax.Building
import IndentLint.Proofs.Text.Blank
import IndentLint.Proofs.Text.Bytes

/-!
# The walk by bytes divides the text

The walk that keeps byte positions and the lowering that divides texts do the same (`build_eq`).  The invariant is
that the bytes a node takes are a middle of the source: the source is `a ++ (cs ++ b)`, the cursor stands behind `a`,
and the node ends behind `cs`.  The visible range of a child is then the cut of `cs` around it, its bytes are again a
middle of the source, and so is what is left behind them.  So every slice that the walk asks for exists, and its
events build one node.
-/

namespace IndentLint.Kotlin

open Text

/-! ### Cuts -/

theorem cut?_eq_some_iff {cs : List Char} {start stop : Nat} {c : Cut} :
    cut? cs start stop = some c ↔
      ∃ a m b, cs = a ++ (m ++ b) ∧ byteLength a = start ∧ start + byteLength m = min stop (byteLength cs) ∧
        trim m ≠ [] ∧ c = ⟨a ++ m.takeWhile isBlank, trim m, (trimStart m).drop (trim m).length ++ b⟩ := by
  simp only [cut?, Option.bind_eq_bind, Option.pure_def, Option.bind_eq_some_iff, Option.guard_eq_some',
    exists_const, Option.some.injEq, Bool.not_eq_true', List.isEmpty_eq_false_iff]
  constructor
  · rintro ⟨hle, ⟨a, rest⟩, ha, ⟨m, b⟩, hm, htrim, rfl⟩
    obtain ⟨rfl, rfl⟩ := splitBytes?_eq_some_iff.1 ha
    obtain ⟨rfl, hlen⟩ := splitBytes?_eq_some_iff.1 hm
    exact ⟨a, m, b, rfl, rfl, by omega, htrim, rfl⟩
  · rintro ⟨a, m, b, rfl, rfl, hstop, htrim, rfl⟩
    refine ⟨by omega, (a, m ++ b), splitBytes?_byteLength a _, (m, b), ?_, htrim, rfl⟩
    exact splitBytes?_eq_some_iff.2 ⟨rfl, by omega⟩

/-- The parts of a cut in a row are the text, and the inner one is visible. -/
theorem append_of_cut? {cs : List Char} {start stop : Nat} {c : Cut} (h : cut? cs start stop = some c) :
    cs = c.before ++ (c.inner ++ c.after) ∧ Visible c.inner := by
  obtain ⟨a, m, b, rfl, -, -, htrim, rfl⟩ := cut?_eq_some_iff.1 h
  refine ⟨?_, visible_trim htrim⟩
  conv => lhs; rw [eq_append_trim_append m]
  simp

namespace ParseTree

private theorem visibleRange?_eq_some_iff {source : List Char} {floor ceiling first last : Nat} {t : ParseTree} :
    t.visibleRange? source floor ceiling = some (first, last) ↔
      ∃ m, slice? source (max t.start floor) (min t.stop ceiling) = some m ∧ trim m ≠ [] ∧
        first = max t.start floor + byteLength (m.takeWhile isBlank) ∧ last = first + byteLength (trim m) := by
  have hblank : ∀ m, byteLength m - byteLength (trimStart m) = byteLength (m.takeWhile isBlank) := by
    intro m
    have h : byteLength m = byteLength (m.takeWhile isBlank) + byteLength (trimStart m) := by
      rw [← byteLength_append]
      exact congrArg byteLength List.takeWhile_append_dropWhile.symm
    omega
  simp only [visibleRange?, Option.bind_eq_bind, Option.pure_def, Option.bind_eq_some_iff, Option.guard_eq_some',
    exists_const, Option.some.injEq, Prod.mk.injEq, hblank]
  constructor
  · rintro ⟨m, hm, hlt, rfl, rfl⟩
    refine ⟨m, hm, fun htrim => ?_, rfl, rfl⟩
    rw [show trimEnd (trimStart m) = [] from htrim] at hlt
    simp at hlt
  · rintro ⟨m, hm, htrim, rfl, rfl⟩
    have := byteLength_pos htrim
    exact ⟨m, hm, by rw [trim] at this; omega, rfl, rfl⟩

/-- In a middle of the source the visible range of a node is the cut around it. -/
private theorem visibleRange?_eq (a cs b : List Char) (t : ParseTree) :
    t.visibleRange? (a ++ (cs ++ b)) (byteLength a) (byteLength a + byteLength cs) =
      (cut? cs (t.start - byteLength a) (t.stop - byteLength a)).map fun c =>
        (byteLength a + byteLength c.before, byteLength a + byteLength c.before + byteLength c.inner) := by
  apply Option.ext
  rintro ⟨first, last⟩
  rw [visibleRange?_eq_some_iff, Option.map_eq_some_iff]
  have hstart : max t.start (byteLength a) = byteLength a + (t.start - byteLength a) := by omega
  constructor
  · rintro ⟨m, hm, htrim, rfl, rfl⟩
    have hpos : 0 < byteLength m := byteLength_pos fun hm => htrim (by rw [hm]; rfl)
    have hle : byteLength a ≤ t.stop := by
      obtain ⟨_, _, -, -, hlen⟩ := slice?_eq_some_iff.1 hm
      omega
    have hstop : min t.stop (byteLength a + byteLength cs) =
        byteLength a + min (t.stop - byteLength a) (byteLength cs) := by omega
    rw [hstart, hstop, slice?_middle (by omega)] at hm
    obtain ⟨a', b', hcs, ha', hlen⟩ := slice?_eq_some_iff.1 hm
    refine ⟨_, cut?_eq_some_iff.2 ⟨a', m, b', hcs, ha', hlen, htrim, rfl⟩, ?_⟩
    simp only [byteLength_append, Prod.mk.injEq]
    omega
  · rintro ⟨c, hc, hr⟩
    obtain ⟨a', m, b', hcs, ha', hlen, htrim, rfl⟩ := cut?_eq_some_iff.1 hc
    have hpos : 0 < byteLength m := byteLength_pos fun hm => htrim (by rw [hm]; rfl)
    have hstop : min t.stop (byteLength a + byteLength cs) =
        byteLength a + min (t.stop - byteLength a) (byteLength cs) := by omega
    simp only [byteLength_append, Prod.mk.injEq] at hr
    refine ⟨m, ?_, htrim, by omega, by omega⟩
    rw [hstart, hstop, slice?_middle (by omega)]
    exact slice?_eq_some_iff.2 ⟨a', b', hcs, ha', hlen⟩

/-! ### Events -/

private theorem gapEvents_middle (a cs b : List Char) :
    gapEvents (a ++ (cs ++ b)) (byteLength a) (byteLength a + byteLength cs) =
      Element.eventsOfList (Element.gap cs) := by
  rw [gapEvents, slice?_byteLength]

mutual

theorem walk_eq (t : ParseTree) (a cs b : List Char) :
    t.walk (a ++ (cs ++ b)) (byteLength a) (byteLength a + byteLength cs) =
      .ok (Element.eventsOfList (t.lower cs (byteLength a))) := by
  match t with
  | node kind s e children =>
    rw [walk, lower, slice?_byteLength]
    dsimp only
    by_cases hop : (node kind s e children).isOpaque = true
    · simp [hop, Element.eventsOfList, Element.events]
    · by_cases hfile : (node kind s e children).elementKind = .file
      · simp only [hop, hfile, ↓reduceIte, Bool.false_eq_true]
        exact walkChildren_eq children a cs b
      · by_cases hempty : children.isEmpty = true
        · simp [hop, hfile, hempty, Element.eventsOfList, Element.events]
        · simp only [hop, hfile, hempty, ↓reduceIte, Bool.false_eq_true, walkChildren_eq children a cs b]
          simp [Except.map, Element.eventsOfList, Element.events]

private theorem walkChildren_eq (ts : List ParseTree) (a cs b : List Char) :
    walkChildren (a ++ (cs ++ b)) (byteLength a) (byteLength a + byteLength cs) ts =
      .ok (Element.eventsOfList (lowerChildren cs (byteLength a) ts)) := by
  match ts with
  | [] => rw [walkChildren, lowerChildren, gapEvents_middle]
  | child :: rest =>
    rw [walkChildren, lowerChildren, visibleRange?_eq]
    rcases hcut : cut? cs (child.start - byteLength a) (child.stop - byteLength a) with _ | c
    · exact walkChildren_eq rest a cs b
    · obtain ⟨hcs, -⟩ := append_of_cut? hcut
      subst hcs
      -- each of the three parts is a middle of the source, with the parts before it added to `a`
      have hgap := gapEvents_middle a c.before (c.inner ++ (c.after ++ b))
      have hinner := walk_eq child (a ++ c.before) c.inner (c.after ++ b)
      have hafter := walkChildren_eq rest (a ++ (c.before ++ c.inner)) c.after b
      simp only [byteLength_append, List.append_assoc, Nat.add_assoc] at hgap hinner hafter ⊢
      simp only [Option.map_some, hgap, hinner, hafter, Element.eventsOfList_append]
      rfl

end

/-! ### The whole walk -/

/-- The calls by which the walk through a parse tree builds the tree of a source. -/
def buildEvents (source : List Char) (t : ParseTree) : Except LoweringFault (List Event) :=
  (walkChildren source 0 (byteLength source) t.children).map fun inner => .start .file :: (inner ++ [.finish])

/-- The calls of the walk are those that build the lowered tree. -/
theorem buildEvents_eq (source : List Char) (t : ParseTree) :
    t.buildEvents source = .ok (t.toElement source).events := by
  have hwalk := walkChildren_eq t.children [] source []
  simp only [List.nil_append, List.append_nil, byteLength_nil, Nat.zero_add] at hwalk
  rw [buildEvents, hwalk]
  rfl

/-- What the calls of the walk build is the tree of the source. -/
private theorem build_eq_ok {source : List Char} {t : ParseTree} {events : List Event} {tree : Element}
    (hevents : t.buildEvents source = .ok events) (htree : Element.ofEvents events = .ok tree) :
    t.build source = .ok tree := by
  rw [buildEvents] at hevents
  rw [build]
  cases hwalk : walkChildren source 0 (byteLength source) t.children with
  | error fault =>
    rw [hwalk] at hevents
    cases hevents
  | ok inner =>
    rw [hwalk] at hevents
    have hinner : .start .file :: (inner ++ [.finish]) = events := Except.ok.inj hevents
    show (Element.ofEvents (.start .file :: (inner ++ [.finish]))).mapError _ = _
    rw [hinner, htree]
    rfl

/-- The walk builds the tree that dividing the text gives; it never fails. -/
theorem build_eq (source : List Char) (t : ParseTree) : t.build source = .ok (t.toElement source) :=
  build_eq_ok (buildEvents_eq source t) (Element.ofEvents_events_node _ _)

end ParseTree

end IndentLint.Kotlin
