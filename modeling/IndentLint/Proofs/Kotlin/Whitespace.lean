import IndentLint.Proofs.Kotlin.Elements

/-!
# Whitespace in lowered trees

A leaf is tidy when it is whitespace and all blank, or of another kind and visible; a node is tidy when its text is
visible.  Everything below the root of a lowered tree is tidy, and no two whitespace leaves follow each other.  The
induction carries this from a text to the parts that its children divide it into: a child that is kept has a visible
text, so its leaves neither begin nor end with whitespace, and a gap is cut into runs that alternate.

From both facts the whitespace of a tree is as it should be: every whitespace token is all the blanks between two
visible characters of the source, and no node but the root begins or ends with whitespace.
-/

namespace IndentLint

open Text

namespace Leaf

/-- Whitespace is blank, all else is visible, and nothing is empty. -/
def Tidy (l : Leaf) : Prop :=
  if l.kind = .whitespace then l.text ≠ [] ∧ ∀ x ∈ l.text, isBlank x = true else Visible l.text

/-- Not both of two leaves are whitespace. -/
def Apart (l m : Leaf) : Prop :=
  ¬(l.kind = .whitespace ∧ m.kind = .whitespace)

variable {l : Leaf}

theorem Tidy.ne_nil (h : l.Tidy) : l.text ≠ [] := by
  unfold Tidy at h
  split at h
  · exact h.1
  · exact h.ne_nil

theorem Tidy.isBlank (h : l.Tidy) (hk : l.kind = .whitespace) : ∀ x ∈ l.text, Text.isBlank x = true := by
  rw [Tidy, if_pos hk] at h
  exact h.2

theorem Tidy.visible (h : l.Tidy) (hk : l.kind ≠ .whitespace) : Visible l.text := by
  rwa [Tidy, if_neg hk] at h

/-- The first leaf of a visible text is not whitespace. -/
private theorem kind_head_ne_whitespace {ls : List Leaf} (htidy : ∀ l ∈ ls, l.Tidy)
    (hv : Visible (ls.flatMap (·.text))) : ∀ l ∈ ls.head?, l.kind ≠ .whitespace := by
  intro l hl hk
  obtain ⟨rest, rfl⟩ := List.head?_eq_some_iff.1 hl
  have ht := htidy l (List.mem_cons_self ..)
  obtain ⟨c, cs, hc⟩ := List.exists_cons_of_ne_nil ht.ne_nil
  obtain ⟨⟨x, hx, hxb⟩, -⟩ := hv
  obtain rfl : c = x := by simpa [hc] using hx
  have := ht.isBlank hk c (by simp [hc])
  rw [this] at hxb
  exact absurd hxb (by decide)

private theorem Tidy.getLast?_flatMap_concat (h : l.Tidy) (init : List Leaf) :
    ((init ++ [l]).flatMap (·.text)).getLast? = l.text.getLast? := by
  rw [List.flatMap_append, List.flatMap_singleton, List.getLast?_append_of_ne_nil _ h.ne_nil]

/-- The last leaf of a visible text is not whitespace. -/
private theorem kind_getLast_ne_whitespace {ls : List Leaf} (htidy : ∀ l ∈ ls, l.Tidy)
    (hv : Visible (ls.flatMap (·.text))) : ∀ l ∈ ls.getLast?, l.kind ≠ .whitespace := by
  intro l hl hk
  obtain ⟨init, rfl⟩ := List.getLast?_eq_some_iff.1 hl
  have ht := htidy l (by simp)
  obtain ⟨-, ⟨x, hx, hxb⟩⟩ := hv
  have hlast : l.text.getLast? = some x := by
    rw [← ht.getLast?_flatMap_concat init]
    exact hx
  have := ht.isBlank hk x (List.mem_of_getLast? hlast)
  rw [this] at hxb
  exact absurd hxb (by decide)

/-- Around a whitespace leaf the text is visible. -/
private theorem isBlank_around_whitespace {ls ms : List Leaf} (hk : l.kind = .whitespace)
    (htidy : ∀ m ∈ ls ++ l :: ms, m.Tidy) (hchain : (ls ++ l :: ms).IsChain Apart) :
    (∀ x ∈ (ls.flatMap (·.text)).getLast?, isBlank x = false) ∧
      ∀ x ∈ (ms.flatMap (·.text)).head?, isBlank x = false := by
  rw [List.isChain_append, List.isChain_cons] at hchain
  obtain ⟨-, ⟨hnext, -⟩, hprev⟩ := hchain
  constructor
  · intro x hx
    rcases List.eq_nil_or_concat ls with rfl | ⟨init, m, rfl⟩
    · simp at hx
    · have hm : m.kind ≠ .whitespace := fun hmk => hprev m (by simp) l (by simp) ⟨hmk, hk⟩
      have ht := htidy m (by simp)
      rw [List.concat_eq_append, ht.getLast?_flatMap_concat] at hx
      obtain ⟨-, ⟨y, hy, hyb⟩⟩ := ht.visible hm
      rw [hx] at hy
      obtain rfl := Option.some.inj hy
      exact hyb
  · intro x hx
    cases ms with
    | nil => simp at hx
    | cons m rest =>
      have hm : m.kind ≠ .whitespace := fun hmk => hnext m (by simp) ⟨hk, hmk⟩
      have ht := htidy m (by simp)
      rw [List.flatMap_cons, List.head?_append_of_ne_nil _ ht.ne_nil] at hx
      obtain ⟨⟨y, hy, hyb⟩, -⟩ := ht.visible hm
      rw [hx] at hy
      obtain rfl := Option.some.inj hy
      exact hyb

end Leaf

namespace Element

/-- A token that is tidy as a leaf, or a node whose text is visible. -/
def Tidy : Element → Prop
  | token kind text => Leaf.Tidy ⟨kind, text⟩
  | node _ es => Visible (textOfList es)

private theorem tidy_of_mem_leavesOfList {es : List Element} (h : ∀ e ∈ subelementsOfList es, e.Tidy) :
    ∀ l ∈ leavesOfList es, l.Tidy :=
  fun _ hl => h _ (token_mem_subelementsOfList es hl)

/-! ### Gaps -/

private theorem kind_ofRun (run : List Char) : (ofRun run).kind = .whitespace ↔ ∀ x ∈ run, isBlank x = true := by
  rw [ofRun, kind, ← List.all_eq_true]
  split <;> simp_all

private theorem tidy_gap (cs : List Char) : ∀ e ∈ gap cs, e.Tidy := by
  intro e he
  obtain ⟨run, hrun, rfl⟩ := List.mem_map.1 he
  have hne := ne_nil_of_mem_runs hrun
  obtain ⟨b, hb⟩ := forall_isBlank_eq_of_mem_runs hrun
  rw [ofRun, Tidy, Leaf.Tidy]
  cases b with
  | true =>
    have hall : run.all isBlank = true := List.all_eq_true.2 hb
    simpa [hall] using ⟨hne, hb⟩
  | false =>
    have hall : run.all isBlank = false := by
      obtain ⟨c, rest, rfl⟩ := List.exists_cons_of_ne_nil hne
      simp [hb c (by simp)]
    simpa [hall] using visible_of_forall hne hb

/-- Visible text under a kind other than whitespace is tidy. -/
private theorem tidy_token {kind : Kind} {cs : List Char} (hkind : kind ≠ .whitespace) (hcs : Visible cs) :
    (token kind cs).Tidy := by
  rw [Tidy, Leaf.Tidy, if_neg hkind]
  exact hcs

private theorem isChain_gap (cs : List Char) : (leavesOfList (gap cs)).IsChain Leaf.Apart := by
  have hmap : ∀ rs : List (List Char),
      leavesOfList (rs.map ofRun) = rs.map fun r => (⟨(ofRun r).kind, r⟩ : Leaf) := by
    intro rs
    induction rs with
    | nil => rfl
    | cons r rs ih => simp [leavesOfList, leaves, ofRun, kind] at ih ⊢; exact ih
  rw [gap, hmap, List.isChain_map]
  refine (isChain_runs cs).imp ?_
  rintro r s h ⟨hr, hs⟩
  exact h ⟨(kind_ofRun r).1 hr, (kind_ofRun s).1 hs⟩

end Element

namespace Kotlin.ParseTree

open Element

/-! ### Lowering -/

private theorem ofLowering_tidy : OfLowering Element.Tidy where
  gap := tidy_gap
  token _ _ hkind _ hv := tidy_token hkind hv
  node _ _ _ _ hv := hv

mutual

private theorem isChain_lower (t : ParseTree) (cs : List Char) (start : Nat) :
    (leavesOfList (t.lower cs start)).IsChain Leaf.Apart := by
  match t with
  | node kind s e children =>
    rw [lower]
    split
    · exact List.isChain_singleton _
    · split
      · exact isChain_lowerChildren children cs start
      · split
        · exact List.isChain_singleton _
        · simp only [leavesOfList, leaves, List.append_nil]
          exact isChain_lowerChildren children cs start

private theorem isChain_lowerChildren (ts : List ParseTree) (cs : List Char) (start : Nat) :
    (leavesOfList (lowerChildren cs start ts)).IsChain Leaf.Apart := by
  match ts with
  | [] => exact isChain_gap cs
  | child :: rest =>
    rw [lowerChildren]
    rcases hcut : cut? cs (child.start - start) (child.stop - start) with _ | c
    · exact isChain_lowerChildren rest cs start
    · obtain ⟨-, hv⟩ := append_of_cut? hcut
      dsimp only
      have htidy := tidy_of_mem_leavesOfList (forall_mem_lower ofLowering_tidy child (start + byteLength c.before) hv)
      have htext := textOfList_lower child c.inner (start + byteLength c.before)
      -- the leaves of the child keep the whitespace before it and after it apart
      have hfirst := Leaf.kind_head_ne_whitespace htidy (by rw [← textOfList, htext]; exact hv)
      have hlast := Leaf.kind_getLast_ne_whitespace htidy (by rw [← textOfList, htext]; exact hv)
      have hinner := isChain_lower child c.inner (start + byteLength c.before)
      have hafter := isChain_lowerChildren rest c.after (start + byteLength c.before + byteLength c.inner)
      have hne : leavesOfList (child.lower c.inner (start + byteLength c.before)) ≠ [] := by
        intro h
        rw [textOfList, h] at htext
        exact hv.ne_nil htext.symm
      simp only [leavesOfList_append, List.append_assoc]
      refine List.isChain_append.2 ⟨isChain_gap _, List.isChain_append.2 ⟨hinner, hafter, ?_⟩, ?_⟩
      · exact fun l hl m _ h => hlast l hl h.1
      · rw [List.head?_append_of_ne_nil _ hne]
        exact fun l _ m hm h => hfirst m hm h.2

end

end Kotlin.ParseTree

/-! ### The whitespace of a tree -/

/-- The whitespace of a tree lies as high in the tree and is as long as it can be. -/
structure WhitespaceHoisted (source : List Char) (tree : Element) : Prop where
  leaf_ne_nil : ∀ l ∈ tree.leaves, l.text ≠ []
  inner_ne_nil : ∀ c ∈ tree.positions, c.frames ≠ [] → c.element.text ≠ []
  /-- A whitespace token is all the blanks between two visible characters of the source. -/
  whitespace_maximal : ∀ c ∈ tree.tokens, c.kind = .whitespace →
    (∀ x ∈ c.element.text, isBlank x = true) ∧
      ∃ before after, source = before ++ (c.element.text ++ after) ∧ c.start = byteLength before ∧
        (∀ x ∈ before.getLast?, isBlank x = false) ∧ ∀ x ∈ after.head?, isBlank x = false
  leaves_apart : tree.leaves.IsChain fun l m => ¬(l.kind = .whitespace ∧ m.kind = .whitespace)
  leaf_visible : ∀ l ∈ tree.leaves, l.kind ≠ .whitespace →
    (∃ x ∈ l.text.head?, isBlank x = false) ∧ ∃ x ∈ l.text.getLast?, isBlank x = false
  /-- No node but the root begins or ends with whitespace. -/
  node_edges : ∀ c ∈ tree.positions, c.frames ≠ [] → c.element.isNode = true →
    (∃ l ∈ c.element.leaves.head?, l.kind ≠ .whitespace) ∧ ∃ l ∈ c.element.leaves.getLast?, l.kind ≠ .whitespace

theorem whitespaceHoisted_toElement (source : List Char) (t : Kotlin.ParseTree) :
    WhitespaceHoisted source (t.toElement source) := by
  have htidy := Kotlin.ParseTree.forall_mem_lowerChildren Kotlin.ParseTree.ofLowering_tidy t.children source 0
  have hleaf : ∀ l ∈ (t.toElement source).leaves, l.Tidy := Element.tidy_of_mem_leavesOfList htidy
  have hchain : (t.toElement source).leaves.IsChain Leaf.Apart :=
    Kotlin.ParseTree.isChain_lowerChildren t.children source 0
  have hinner : ∀ c ∈ (t.toElement source).positions, c.frames ≠ [] → c.element.Tidy :=
    fun c hc hframes => htidy _ (Element.element_mem_of_frames_ne_nil hc hframes)
  refine ⟨fun l hl => (hleaf l hl).ne_nil, ?_, ?_, hchain, fun l hl hk => (hleaf l hl).visible hk, ?_⟩
  · intro c hc hframes
    have h := hinner c hc hframes
    cases he : c.element with
    | token kind text =>
      rw [he] at h
      rw [Element.text_token]
      exact Leaf.Tidy.ne_nil h
    | node kind es =>
      rw [he] at h
      rw [Element.text_node]
      exact Visible.ne_nil h
  · intro c hc hk
    obtain ⟨front, back, hsplit⟩ := List.append_of_mem hc
    obtain ⟨htext, hstart⟩ := Element.start_eq_of_tokens_eq hsplit
    have hleaves := Element.leaves_eq_of_tokens_eq hsplit
    rw [hleaves] at hleaf hchain
    rw [Kotlin.ParseTree.text_toElement] at htext
    have haround := Leaf.isBlank_around_whitespace hk hleaf hchain
    rw [List.flatMap_map, List.flatMap_map] at haround
    exact ⟨(hleaf c.placedLeaf.2 (by simp)).isBlank hk, _, _, htext, hstart, haround⟩
  · intro c hc hframes hnode
    have h := hinner c hc hframes
    have hleaves : ∀ l ∈ c.element.leaves, l.Tidy := fun l hl =>
      hleaf l (Element.mem_leavesOfList_of_mem_subelements _ (Element.element_mem_of_frames_ne_nil hc hframes) hl)
    cases he : c.element with
    | token kind text => simp [he, Element.isNode] at hnode
    | node kind es =>
      rw [he] at h hleaves
      have hv : Visible ((Element.node kind es).leaves.flatMap (·.text)) := h
      have hne : (Element.node kind es).leaves ≠ [] := fun hnil => hv.ne_nil (by rw [hnil]; rfl)
      exact ⟨⟨_, List.head?_eq_some_head hne, Leaf.kind_head_ne_whitespace hleaves hv _ (List.head?_eq_some_head hne)⟩,
        ⟨_, List.getLast?_eq_some_getLast hne,
          Leaf.kind_getLast_ne_whitespace hleaves hv _ (List.getLast?_eq_some_getLast hne)⟩⟩

/-- Every source with any parse tree is lowered to a tree in which whitespace is hoisted. -/
theorem parse_kotlin_whitespaceHoisted (source : List Char) (p : Kotlin.Parse) :
    ∃ tree, (Frontend.kotlin fun _ => some p).parse source = .ok ⟨tree, p.hasErrors⟩ ∧
      WhitespaceHoisted source tree :=
  ⟨_, Frontend.parse_kotlin rfl, whitespaceHoisted_toElement source p.root⟩

end IndentLint
