import IndentLint.Proofs.Kotlin.Elements
import IndentLint.Proofs.Kotlin.Nesting
import IndentLint.Proofs.Syntax.Paths

/-!
# Literals and comments shelter their blanks

Only whitespace tokens outside comment nodes are ever measured.  In the lowered tree of a well nested parse tree none
of them has a byte inside a literal or a comment (`not_encloses_lowerChildren`).  The invariant of the induction is
that the visible bytes of the part under way lie in the text that is being divided: a literal takes all of its visible
bytes into one token, a comment takes them into a token or a node, and both do so wherever they are nested.
-/

namespace IndentLint

open Text

namespace Element

mutual

/-- Byte `n` lies in a whitespace token outside the comments of an element that starts at byte `start`. -/
def OpenWhitespaceAt (start n : Nat) : Element → Prop
  | token kind text => kind = .whitespace ∧ start ≤ n ∧ n < start + Text.byteLength text
  | node kind es => kind ≠ .comment ∧ OpenWhitespaceAtList start n es

/-- Byte `n` lies in a whitespace token outside the comments of some elements in a row. -/
def OpenWhitespaceAtList (start n : Nat) : List Element → Prop
  | [] => False
  | e :: es => OpenWhitespaceAt start n e ∨ OpenWhitespaceAtList (start + e.byteLength) n es

end

private theorem openWhitespaceAtList_append (start n : Nat) (es fs : List Element) :
    OpenWhitespaceAtList start n (es ++ fs) ↔
      OpenWhitespaceAtList start n es ∨ OpenWhitespaceAtList (start + Text.byteLength (textOfList es)) n fs := by
  induction es generalizing start with
  | nil => simp [OpenWhitespaceAtList]
  | cons e es ih =>
    simp only [List.cons_append, OpenWhitespaceAtList, ih, or_assoc, textOfList_cons, byteLength_append, byteLength,
      Nat.add_assoc]

mutual

theorem OpenWhitespaceAt.bounds {e : Element} {start n : Nat} (h : e.OpenWhitespaceAt start n) :
    start ≤ n ∧ n < start + e.byteLength := by
  match e with
  | token kind text =>
    rw [byteLength, text_token]
    exact h.2
  | node kind es =>
    rw [byteLength, text_node]
    exact OpenWhitespaceAtList.bounds h.2

theorem OpenWhitespaceAtList.bounds {es : List Element} {start n : Nat} (h : OpenWhitespaceAtList start n es) :
    start ≤ n ∧ n < start + Text.byteLength (textOfList es) := by
  match es with
  | [] => cases h
  | e :: es =>
    have hlength : Text.byteLength (textOfList (e :: es)) = e.byteLength + Text.byteLength (textOfList es) := by
      rw [textOfList_cons, byteLength_append, byteLength]
    rcases h with h | h
    · have := h.bounds
      omega
    · have := h.bounds
      omega

end

mutual

/-- A whitespace token that is in no comment is open. -/
theorem openWhitespaceAt_of_mem_positionsAt (e : Element) {start n : Nat} {frames : List Frame} {c : Cursor}
    {text : List Char} (hc : c ∈ positionsAt start frames e) (htext : c.element = token .whitespace text)
    (hcomment : c.inComment = false) (hle : c.start ≤ n) (hlt : n < c.start + Text.byteLength text) :
    e.OpenWhitespaceAt start n := by
  match e with
  | token kind text' =>
    obtain rfl := List.mem_singleton.1 hc
    obtain ⟨rfl, rfl⟩ := token.inj htext
    exact ⟨rfl, hle, hlt⟩
  | node kind es =>
    rw [positionsAt, List.mem_cons] at hc
    rcases hc with rfl | hc
    · cases htext
    · exact openWhitespaceAtList_of_mem_positionsOfList es hc htext hcomment hle hlt

private theorem openWhitespaceAtList_of_mem_positionsOfList (es : List Element) {kind : Kind} {start n : Nat}
    {frames : List Frame} {before : List Element} {c : Cursor} {text : List Char}
    (hc : c ∈ positionsOfList kind frames start before es) (htext : c.element = token .whitespace text)
    (hcomment : c.inComment = false) (hle : c.start ≤ n) (hlt : n < c.start + Text.byteLength text) :
    kind ≠ .comment ∧ OpenWhitespaceAtList start n es := by
  match es with
  | [] => cases hc
  | e :: es =>
    rw [positionsOfList, List.mem_append] at hc
    rcases hc with hc | hc
    · refine ⟨?_, Or.inl (openWhitespaceAt_of_mem_positionsAt e hc htext hcomment hle hlt)⟩
      -- the frame of the child is among those of the token
      obtain ⟨inner, -, hframes, -⟩ := exists_inner_of_mem_positionsAt e hc
      rw [Cursor.inComment, hframes, List.any_append, List.any_cons, Bool.or_eq_false_iff,
        Bool.or_eq_false_iff] at hcomment
      simpa using hcomment.2.1
    · obtain ⟨hkind, hes⟩ := openWhitespaceAtList_of_mem_positionsOfList es hc htext hcomment hle hlt
      exact ⟨hkind, Or.inr hes⟩

end

end Element

namespace Kotlin.ParseTree

open Element

private theorem bounds_of_openWhitespaceAtList_gap {cs : List Char} {start n : Nat}
    (h : OpenWhitespaceAtList start n (gap cs)) : start ≤ n ∧ n < start + Text.byteLength cs := by
  have := h.bounds
  rwa [textOfList_gap] at this

private theorem bounds_of_openWhitespaceAtList_lower {t : ParseTree} {cs : List Char} {start n : Nat}
    (h : OpenWhitespaceAtList start n (t.lower cs start)) : start ≤ n ∧ n < start + Text.byteLength cs := by
  have := h.bounds
  rwa [textOfList_lower] at this

private theorem elementKind_eq_comment {t : ParseTree} (h : t.kind ∈ commentKinds) : t.elementKind = .comment := by
  have hne : (t.kind == "source_file") = false := by
    rw [beq_eq_false_iff_ne]
    intro heq
    rw [heq] at h
    exact absurd h (by decide)
  rw [elementKind, hne, if_neg Bool.false_ne_true, if_pos (List.contains_iff_mem.2 h)]

/-- The open whitespace of a text divided around a node is that of the gap, that of the node and that of the text
behind it. -/
private theorem openWhitespaceAtList_of_cut? {a cs : List Char} {t : ParseTree} (rest : List ParseTree) {c : Cut}
    {n : Nat} (hcut : cut? cs (t.start - byteLength a) (t.stop - byteLength a) = some c) :
    OpenWhitespaceAtList (byteLength a) n (lowerChildren cs (byteLength a) (t :: rest)) ↔
      (OpenWhitespaceAtList (byteLength a) n (gap c.before) ∨
        OpenWhitespaceAtList (byteLength (a ++ c.before)) n (t.lower c.inner (byteLength (a ++ c.before)))) ∨
      OpenWhitespaceAtList (byteLength (a ++ c.before ++ c.inner)) n
        (lowerChildren c.after (byteLength (a ++ c.before ++ c.inner)) rest) := by
  rw [lowerChildren, hcut]
  dsimp only
  rw [openWhitespaceAtList_append, openWhitespaceAtList_append, textOfList_append, textOfList_gap, textOfList_lower]
  simp only [byteLength_append, Nat.add_assoc]

mutual

private theorem not_encloses_lower (t : ParseTree) {source a cs b : List Char} (hsource : source = a ++ (cs ++ b))
    (ht : t.WellNested source)
    (hwithin : VisibleWithin source t.start t.stop (byteLength a) (byteLength a + byteLength cs)) {n : Nat}
    (hn : OpenWhitespaceAtList (byteLength a) n (t.lower cs (byteLength a))) {d : ParseTree}
    (hd : d ∈ t :: t.descendants) (hkind : d.kind ∈ opaqueKinds ++ commentKinds) : ¬ d.Encloses source n := by
  match t with
  | node kind start stop children =>
    have hsingle : ∀ k : Kind, k ≠ .whitespace → ¬ OpenWhitespaceAtList (byteLength a) n [token k cs] := by
      rintro k hk (h | h)
      · exact hk h.1
      · exact h
    rw [lower] at hn
    by_cases hopaque : (node kind start stop children).isOpaque = true
    · rw [if_pos hopaque] at hn
      exact absurd hn (hsingle _ (by decide))
    · have hbelow : OpenWhitespaceAtList (byteLength a) n (lowerChildren cs (byteLength a) children) →
          d ∈ (node kind start stop children).descendants → ¬ d.Encloses source n := by
        intro hn hd
        exact not_encloses_lowerChildren children hsource ht.2 hwithin hn hd hkind
      rw [if_neg hopaque] at hn
      rcases List.mem_cons.1 hd with rfl | hd
      · -- the node itself is a comment, so nothing in it is open
        have hcomment : (node kind start stop children).elementKind = .comment := by
          rcases List.mem_append.1 hkind with h | h
          · exact absurd (List.contains_iff_mem.2 h) hopaque
          · exact elementKind_eq_comment h
        rw [hcomment, if_neg (by decide)] at hn
        split at hn
        · exact absurd hn (hsingle _ (by decide))
        · rcases hn with h | h
          · exact absurd rfl h.1
          · cases h
      · split at hn
        · exact hbelow hn hd
        · split at hn
          · exact absurd hn (hsingle _ (elementKind_ne_whitespace _))
          · rcases hn with h | h
            · exact hbelow h.2 hd
            · cases h

/-- In what the nodes of a divided text become, no open whitespace has a byte inside a literal or a comment. -/
theorem not_encloses_lowerChildren (ts : List ParseTree) {source a cs b : List Char} {floor ceiling : Nat}
    (hsource : source = a ++ (cs ++ b)) (hts : NestedIn source floor ceiling ts)
    (hwithin : VisibleWithin source floor ceiling (byteLength a) (byteLength a + byteLength cs)) {n : Nat}
    (hn : OpenWhitespaceAtList (byteLength a) n (lowerChildren cs (byteLength a) ts)) {d : ParseTree}
    (hd : d ∈ descendantsOfList ts) (hkind : d.kind ∈ opaqueKinds ++ commentKinds) : ¬ d.Encloses source n := by
  match ts with
  | [] => cases hd
  | t :: rest =>
    obtain ⟨hfloor, hceiling, ht, hrest⟩ := hts
    have hle := ht.start_le_stop
    rw [descendantsOfList, ← List.cons_append, List.mem_append] at hd
    rcases hcut : cut? cs (t.start - byteLength a) (t.stop - byteLength a) with _ | c
    · rw [lowerChildren, hcut] at hn
      rcases hd with hd | hd
      · subst hsource
        refine not_encloses_of_cut?_eq_none hcut ht ?_ hd
        exact fun m hm hstart hstop => hwithin m hm (by omega) (by omega)
      · refine not_encloses_lowerChildren rest hsource hrest ?_ hn hd hkind
        exact fun m hm hstart hstop => hwithin m hm (by omega) hstop
    · obtain ⟨hcs, -⟩ := append_of_cut? hcut
      obtain ⟨hinner, hafter⟩ := VisibleWithin.of_cut? hcut hle (hsource ▸ hwithin) hfloor hceiling
      rw [← hsource] at hinner hafter
      -- the text of the child and the text behind it are middles of the source as well
      have hsource₁ : source = (a ++ c.before) ++ (c.inner ++ (c.after ++ b)) := by
        rw [hsource, hcs]
        simp
      have hsource₂ : source = (a ++ c.before ++ c.inner) ++ (c.after ++ b) := by
        rw [hsource₁, List.append_assoc (a ++ c.before)]
      -- what a node encloses lies in its own part of the text
      have hchild : d ∈ t :: t.descendants → d.Encloses source n →
          byteLength (a ++ c.before) ≤ n ∧ n < byteLength (a ++ c.before) + byteLength c.inner := by
        intro hd hencloses
        obtain ⟨hstart, hstop⟩ := inside_of_mem_cons ht hd
        exact hencloses.bounds hinner hstart hstop
      have hlater : d ∈ descendantsOfList rest → d.Encloses source n →
          byteLength (a ++ c.before ++ c.inner) ≤ n := by
        intro hd hencloses
        obtain ⟨hstart, hstop, -⟩ := inside_of_mem_descendantsOfList rest hrest hd
        exact (hencloses.bounds hafter hstart hstop).1
      have hlength : byteLength (a ++ c.before ++ c.inner) = byteLength (a ++ c.before) + byteLength c.inner :=
        byteLength_append ..
      rw [openWhitespaceAtList_of_cut? rest hcut] at hn
      rcases hn with (hn | hn) | hn
      · have hgap := bounds_of_openWhitespaceAtList_gap hn
        rw [← byteLength_append] at hgap
        intro hencloses
        rcases hd with hd | hd
        · have := hchild hd hencloses
          omega
        · have := hlater hd hencloses
          omega
      · rcases hd with hd | hd
        · exact not_encloses_lower t hsource₁ ht hinner hn hd hkind
        · have hinside := bounds_of_openWhitespaceAtList_lower hn
          intro hencloses
          have := hlater hd hencloses
          omega
      · rcases hd with hd | hd
        · have hbehind := hn.bounds
          intro hencloses
          have := hchild hd hencloses
          omega
        · exact not_encloses_lowerChildren rest hsource₂ hrest hafter hn hd hkind

end

/-- In the tree of a source, no open whitespace has a byte inside a literal or a comment below the root. -/
theorem not_encloses_toElement {t : ParseTree} {source : List Char} (ht : t.WellNested source) {n : Nat}
    (hn : (t.toElement source).OpenWhitespaceAt 0 n) {d : ParseTree} (hd : d ∈ t.descendants)
    (hkind : d.kind ∈ opaqueKinds ++ commentKinds) : ¬ d.Encloses source n := by
  match t with
  | node kind start stop children =>
    have hsource : source = [] ++ (source ++ []) := by simp
    refine not_encloses_lowerChildren children hsource ht.2 (fun m hm _ _ => ?_) hn.2 hd hkind
    have := hm.lt
    rw [byteLength_nil]
    omega

end Kotlin.ParseTree

end IndentLint
