import IndentLint.Proofs.Kotlin.Walk
import IndentLint.Proofs.Text.Visible

/-!
# Nested parse trees

A parse tree is well nested when its nodes lie on boundaries of the source, each inside its parent and behind its
earlier siblings.  The cut around such a node takes all the visible bytes of the node that are left in the text, and
leaves those behind the node to the later siblings (`VisibleWithin.of_cut?`).  Where there is no cut the node has no
visible byte left (`not_encloses_of_cut?_eq_none`).
-/

namespace IndentLint.Kotlin

open Text

namespace ParseTree

/-! ### Nodes below a node -/

mutual

/-- The nodes below a node, in document order. -/
def descendants : ParseTree → List ParseTree
  | node _ _ _ children => descendantsOfList children

/-- Some nodes and the nodes below them, in document order. -/
def descendantsOfList : List ParseTree → List ParseTree
  | [] => []
  | t :: ts => t :: (descendants t ++ descendantsOfList ts)

end

mutual

/-- The bytes of the node and of all nodes below it are slices of the source; the children lie inside their parent, in
order and disjoint. -/
def WellNested (source : List Char) : ParseTree → Prop
  | node _ start stop children => (∃ text, slice? source start stop = some text) ∧ NestedIn source start stop children

/-- The nodes are well nested and lie between two bytes, in order and disjoint. -/
def NestedIn (source : List Char) (floor ceiling : Nat) : List ParseTree → Prop
  | [] => True
  | t :: ts => floor ≤ t.start ∧ t.stop ≤ ceiling ∧ WellNested source t ∧ NestedIn source t.stop ceiling ts

end

variable {source : List Char}

private theorem WellNested.exists_slice? {t : ParseTree} (h : t.WellNested source) :
    ∃ text, slice? source t.start t.stop = some text := by
  cases t with
  | node kind start stop children => exact h.1

theorem WellNested.start_le_stop {t : ParseTree} (h : t.WellNested source) : t.start ≤ t.stop := by
  obtain ⟨text, htext⟩ := h.exists_slice?
  obtain ⟨_, _, -, -, hlength⟩ := slice?_eq_some_iff.1 htext
  omega

mutual

/-- A node below a well nested node is well nested and lies inside it. -/
theorem inside_of_mem_descendants (t : ParseTree) (h : t.WellNested source) {d : ParseTree} (hd : d ∈ t.descendants) :
    t.start ≤ d.start ∧ d.stop ≤ t.stop ∧ d.WellNested source := by
  match t with
  | node kind start stop children => exact inside_of_mem_descendantsOfList children h.2 hd

theorem inside_of_mem_descendantsOfList (ts : List ParseTree) {floor ceiling : Nat}
    (h : NestedIn source floor ceiling ts) {d : ParseTree} (hd : d ∈ descendantsOfList ts) :
    floor ≤ d.start ∧ d.stop ≤ ceiling ∧ d.WellNested source := by
  match ts with
  | [] => cases hd
  | t :: ts =>
    obtain ⟨hfloor, hceiling, ht, hts⟩ := h
    have hle := ht.start_le_stop
    rw [descendantsOfList, List.mem_cons, List.mem_append] at hd
    rcases hd with rfl | hd | hd
    · exact ⟨hfloor, hceiling, ht⟩
    · obtain ⟨hstart, hstop, hnested⟩ := inside_of_mem_descendants t ht hd
      exact ⟨by omega, by omega, hnested⟩
    · obtain ⟨hstart, hstop, hnested⟩ := inside_of_mem_descendantsOfList ts hts hd
      exact ⟨by omega, hstop, hnested⟩

end

theorem inside_of_mem_cons {t d : ParseTree} (h : t.WellNested source) (hd : d ∈ t :: t.descendants) :
    t.start ≤ d.start ∧ d.stop ≤ t.stop := by
  rcases List.mem_cons.1 hd with rfl | hd
  · exact ⟨Nat.le_refl _, Nat.le_refl _⟩
  · obtain ⟨hstart, hstop, -⟩ := inside_of_mem_descendants t h hd
    exact ⟨hstart, hstop⟩

/-! ### Enclosed bytes -/

/-- The bytes of a node less the blanks at both ends. -/
def trimmedRange? (source : List Char) (t : ParseTree) : Option (Nat × Nat) := do
  let text ← slice? source t.start t.stop
  let first := t.start + byteLength (text.takeWhile isBlank)
  return (first, first + byteLength (trim text))

/-- The trimmed range of a well nested node begins and ends with visible bytes of the node, unless it is empty. -/
theorem exists_trimmedRange? {t : ParseTree} (h : t.WellNested source) :
    ∃ first last, t.trimmedRange? source = some (first, last) ∧
      (first < last → VisibleAt source first ∧ VisibleAt source (last - 1) ∧ t.start ≤ first ∧ last ≤ t.stop) := by
  obtain ⟨text, htext⟩ := h.exists_slice?
  obtain ⟨a, b, hsource, hstart, hstop⟩ := slice?_eq_some_iff.1 htext
  refine ⟨_, _, by simp only [trimmedRange?, htext]; rfl, fun hlt => ?_⟩
  have hne : trim text ≠ [] := by
    intro hnil
    rw [hnil, byteLength_nil] at hlt
    omega
  have hvisible := visible_trim hne
  have hlength := congrArg byteLength (eq_append_trim_append text)
  rw [byteLength_append, byteLength_append] at hlength
  -- the trimmed text is a middle of the source
  have hmiddle : source = (a ++ text.takeWhile isBlank) ++
      (trim text ++ ((trimStart text).drop (trim text).length ++ b)) := by
    rw [hsource]
    conv => lhs; rw [eq_append_trim_append text]
    simp
  have hat : ∀ n, VisibleAt (trim text) n → VisibleAt source (t.start + byteLength (text.takeWhile isBlank) + n) := by
    intro n hn
    have := (hn.append_right ((trimStart text).drop (trim text).length ++ b)).append_left (a ++ text.takeWhile isBlank)
    rwa [← hmiddle, byteLength_append, hstart] at this
  have hpos := byteLength_pos hne
  refine ⟨hat 0 hvisible.visibleAt_zero, ?_, by omega, by omega⟩
  have hlast := hat _ hvisible.visibleAt_last
  rwa [← Nat.add_sub_assoc (by omega)] at hlast

/-- Byte `n` lies between two visible bytes of the node, or is one of them. -/
def Encloses (source : List Char) (t : ParseTree) (n : Nat) : Prop :=
  ∃ u v, u ≤ n ∧ n ≤ v ∧ VisibleAt source u ∧ VisibleAt source v ∧ t.start ≤ u ∧ v < t.stop

/-- A well nested node encloses its bytes less the blanks at both ends. -/
theorem encloses_of_trimmedRange? {t : ParseTree} (ht : t.WellNested source) {first last n : Nat}
    (h : t.trimmedRange? source = some (first, last)) (hfirst : first ≤ n) (hlast : n < last) :
    t.Encloses source n := by
  obtain ⟨first', last', h', hvisible⟩ := exists_trimmedRange? ht
  obtain ⟨rfl, rfl⟩ := Prod.mk.inj (Option.some.inj (h'.symm.trans h))
  obtain ⟨hu, hv, hstart, hstop⟩ := hvisible (by omega)
  exact ⟨first', last' - 1, hfirst, by omega, hu, hv, hstart, by omega⟩

/-- The visible bytes of the source between `floor` and `ceiling` lie between `first` and `last`. -/
def VisibleWithin (source : List Char) (floor ceiling first last : Nat) : Prop :=
  ∀ n, VisibleAt source n → floor ≤ n → n < ceiling → first ≤ n ∧ n < last

/-- What a node encloses lies where the visible bytes around the node lie. -/
theorem Encloses.bounds {t : ParseTree} {floor ceiling first last n : Nat} (h : t.Encloses source n)
    (hwithin : VisibleWithin source floor ceiling first last) (hfloor : floor ≤ t.start) (hceiling : t.stop ≤ ceiling) :
    first ≤ n ∧ n < last := by
  obtain ⟨u, v, hun, hnv, hu, hv, hstart, hstop⟩ := h
  have := hwithin u hu (by omega) (by omega)
  have := hwithin v hv (by omega) (by omega)
  omega

/-! ### Cuts around nested nodes -/

/-- A cut takes all the visible bytes of the node that are in the text, and none behind the node. -/
theorem le_and_lt_of_cut? {a cs b : List Char} {t : ParseTree} {c : Cut}
    (hcut : cut? cs (t.start - byteLength a) (t.stop - byteLength a) = some c) :
    byteLength a + byteLength c.before + byteLength c.inner ≤ t.stop ∧
      ∀ n, VisibleAt (a ++ (cs ++ b)) n → t.start ≤ n → n < t.stop → byteLength a ≤ n →
        n < byteLength a + byteLength cs →
        byteLength a + byteLength c.before ≤ n ∧ n < byteLength a + byteLength c.before + byteLength c.inner := by
  obtain ⟨a', m, b', rfl, ha', hlength, htrim, rfl⟩ := cut?_eq_some_iff.1 hcut
  have hpos : 0 < byteLength m := byteLength_pos fun hm => htrim (by rw [hm]; rfl)
  have hm := congrArg byteLength (eq_append_trim_append m)
  rw [byteLength_append, byteLength_append] at hm
  simp only [byteLength_append] at hlength ⊢
  refine ⟨by omega, fun n hn hstart hstop hle hlt => ?_⟩
  have hn' : VisibleAt ((a ++ a') ++ (m ++ (b' ++ b))) n := by simpa using hn
  have hin := (hn'.middle (by rw [byteLength_append]; omega) (by rw [byteLength_append]; omega)).trim
  rw [byteLength_append] at hin
  omega

/-- The cut around a node holds the visible bytes of the node, and the text behind the cut those behind the node. -/
theorem VisibleWithin.of_cut? {a cs b : List Char} {t : ParseTree} {c : Cut} {floor ceiling : Nat}
    (hcut : cut? cs (t.start - byteLength a) (t.stop - byteLength a) = some c) (hle : t.start ≤ t.stop)
    (h : VisibleWithin (a ++ (cs ++ b)) floor ceiling (byteLength a) (byteLength a + byteLength cs))
    (hfloor : floor ≤ t.start) (hceiling : t.stop ≤ ceiling) :
    VisibleWithin (a ++ (cs ++ b)) t.start t.stop (byteLength (a ++ c.before))
        (byteLength (a ++ c.before) + byteLength c.inner) ∧
      VisibleWithin (a ++ (cs ++ b)) t.stop ceiling (byteLength (a ++ c.before ++ c.inner))
        (byteLength (a ++ c.before ++ c.inner) + byteLength c.after) := by
  obtain ⟨hcs, -⟩ := append_of_cut? hcut
  obtain ⟨hend, hcovered⟩ := le_and_lt_of_cut? (b := b) hcut
  have hlength := congrArg byteLength hcs
  simp only [byteLength_append] at hlength ⊢
  constructor
  · intro n hn hstart hstop
    have hin := h n hn (by omega) (by omega)
    exact hcovered n hn hstart hstop hin.1 hin.2
  · intro n hn hstart hstop
    have hin := h n hn (by omega) hstop
    omega

/-- A boundary of the source that is not behind a middle part is a boundary of this part, or before it. -/
private theorem boundary_middle {a cs b p q : List Char} (h : a ++ (cs ++ b) = p ++ q)
    (hle : byteLength p ≤ byteLength a + byteLength cs) :
    ∃ d d', cs = d ++ d' ∧ byteLength d = byteLength p - byteLength a := by
  by_cases hp : byteLength a ≤ byteLength p
  · obtain ⟨d, rfl, hd⟩ := append_split_of_byteLength_le h hp
    rw [byteLength_append] at hle ⊢
    obtain ⟨d', rfl, -⟩ := append_split_of_byteLength_le hd.symm (by omega)
    exact ⟨d, d', rfl, by omega⟩
  · exact ⟨[], cs, rfl, by rw [byteLength_nil]; omega⟩

private theorem exists_cut? {a cs b : List Char} {t : ParseTree} (ht : t.WellNested (a ++ (cs ++ b))) {n : Nat}
    (hn : VisibleAt (a ++ (cs ++ b)) n) (hstart : t.start ≤ n) (hstop : n < t.stop) (hle : byteLength a ≤ n)
    (hlt : n < byteLength a + byteLength cs) :
    ∃ c, cut? cs (t.start - byteLength a) (t.stop - byteLength a) = some c := by
  obtain ⟨text, htext⟩ := ht.exists_slice?
  obtain ⟨p, q, hsource, hp, hpq⟩ := slice?_eq_some_iff.1 htext
  obtain ⟨a', r, hcs, ha'⟩ := boundary_middle hsource (by omega)
  -- the node ends inside the text, or the text ends inside the node
  obtain ⟨m, b', hr, hm⟩ : ∃ m b', r = m ++ b' ∧
      byteLength a' + byteLength m = min (t.stop - byteLength a) (byteLength cs) := by
    have hlength := congrArg byteLength hcs
    rw [byteLength_append] at hlength
    by_cases hend : t.stop ≤ byteLength a + byteLength cs
    · have hend' : a ++ (cs ++ b) = (p ++ text) ++ q := by rw [hsource, List.append_assoc]
      obtain ⟨e, e', he, helength⟩ := boundary_middle hend' (by rw [byteLength_append]; omega)
      rw [byteLength_append] at helength
      obtain ⟨m, rfl, hm⟩ := append_split_of_byteLength_le (hcs.symm.trans he) (by omega)
      rw [byteLength_append] at helength
      exact ⟨m, e', hm, by omega⟩
    · exact ⟨r, [], by simp, by omega⟩
  subst hr hcs
  have hn' : VisibleAt ((a ++ a') ++ (m ++ (b' ++ b))) n := by simpa using hn
  have hin := (hn'.middle (by rw [byteLength_append]; omega) (by rw [byteLength_append]; omega)).trim
  have htrim : trim m ≠ [] := by
    intro hnil
    rw [hnil, byteLength_nil] at hin
    omega
  exact ⟨_, cut?_eq_some_iff.2 ⟨a', m, b', rfl, by omega, by omega, htrim, rfl⟩⟩

/-- Where there is no cut around a node, nothing in it encloses a byte. -/
theorem not_encloses_of_cut?_eq_none {a cs b : List Char} {t d : ParseTree} {n : Nat}
    (hcut : cut? cs (t.start - byteLength a) (t.stop - byteLength a) = none) (ht : t.WellNested (a ++ (cs ++ b)))
    (h : VisibleWithin (a ++ (cs ++ b)) t.start t.stop (byteLength a) (byteLength a + byteLength cs))
    (hd : d ∈ t :: t.descendants) : ¬ d.Encloses (a ++ (cs ++ b)) n := by
  rintro ⟨u, v, hun, hnv, hu, -, hstart, hstop⟩
  obtain ⟨hfloor, hceiling⟩ := inside_of_mem_cons ht hd
  have hin := h u hu (by omega) (by omega)
  obtain ⟨c, hc⟩ := exists_cut? ht hu (by omega) (by omega) hin.1 hin.2
  rw [hcut] at hc
  cases hc

end ParseTree

end IndentLint.Kotlin
