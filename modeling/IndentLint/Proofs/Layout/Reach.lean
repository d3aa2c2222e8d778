import IndentLint.Proofs.Layout.Surroundings
import IndentLint.Proofs.Syntax.TextChange

/-!
# How far the text of whitespace reaches

The text of whitespace can change the complaints about other whitespace only as its anchor, and it anchors nothing
but what lies below its later siblings, or as a part of the line in which a first parameter stands.  So when the text
of one whitespace token changes, the complaints about another one stay, unless that one lies below a later sibling of
the changed token or in a parameter list (`Element.check_unaffected`).

The two positions of the other token differ in one frame.  The kinds in this frame are the same, and so are the
anchors when the changed token lies deeper in a sibling, or after the way down.
-/

namespace IndentLint

/-- The complaint moved by some bytes. -/
def Finding.shift (n : Nat) (f : Finding) : Finding :=
  { f with offset := n + f.offset }

namespace Cursor

/-- The position lies below a later sibling of `w`. -/
def InsideLaterSibling (c w : Cursor) : Prop :=
  ∃ around i j below, w.path = around ++ [i] ∧ c.path = around ++ j :: below ∧ i < j ∧ below ≠ []

private theorem firstParameterColumn?_eq_none {c : Cursor} (h : Kind.parameterList ∉ c.frames.map (·.kind)) :
    c.firstParameterColumn? = none := by
  have hfind : c.ancestors.find? (·.kind == .parameterList) = none := by
    rw [List.find?_eq_none]
    intro a ha hkind
    refine h ?_
    rw [← map_kind_ancestorsFrom c.element c.start c.frames, ← eq_of_beq hkind]
    exact List.mem_map_of_mem ha
  rw [firstParameterColumn?, hfind]
  rfl

end Cursor

/-! ### The lines of a text that is moved -/

namespace IndentedLine

private theorem forall₂_ofText_move (text : List Char) {start start' at₁ at₂ : Nat} (hle : start ≤ at₁)
    (hmove : at₁ + start' = at₂ + start) :
    List.Forall₂ (Related fun o o' => ∃ n, o = start + n ∧ o' = start' + n) (ofText at₁ text) (ofText at₂ text) := by
  induction text generalizing at₁ at₂ with
  | nil => exact List.Forall₂.nil
  | cons c text ih =>
    by_cases hc : c = '\n'
    · subst hc
      rw [ofText_newline, ofText_newline]
      refine List.Forall₂.cons ⟨rfl, at₁ + 1 - start, ?_, ?_⟩ (ih ?_ ?_)
      · show at₁ + 1 = start + (at₁ + 1 - start)
        omega
      · show at₂ + 1 = start' + (at₁ + 1 - start)
        omega
      · omega
      · omega
    · rw [ofText_cons_of_ne hc, ofText_cons_of_ne hc]
      exact ih (by omega) (by omega)

/-- A text that is moved begins the same lines at the same distance from its start. -/
private theorem forall₂_ofText (text : List Char) (start start' : Nat) :
    List.Forall₂ (Related fun o o' => ∃ n, o = start + n ∧ o' = start' + n) (ofText start text) (ofText start' text) :=
  forall₂_ofText_move text (Nat.le_refl start) (Nat.add_comm start start')

end IndentedLine

/-- Complaints at the same distances from two places are the same complaints, moved to these places. -/
private theorem Finding.exists_map_shift {start start' : Nat} {fs gs : List Finding}
    (h : List.Forall₂ (Finding.Related fun o o' => ∃ n, o = start + n ∧ o' = start' + n) fs gs) :
    ∃ found : List Finding, fs = found.map (shift start) ∧ gs = found.map (shift start') := by
  induction h with
  | nil => exact ⟨[], rfl, rfl⟩
  | @cons f g fs gs hfg hrest ih =>
    obtain ⟨hmessage, hcorrectable, n, hf, hg⟩ := hfg
    obtain ⟨found, rfl, rfl⟩ := ih
    refine ⟨⟨n, f.message, f.correctable⟩ :: found, ?_, ?_⟩
    · rw [List.map_cons, shift, ← hf]
    · rw [List.map_cons, shift, ← hg, hmessage, hcorrectable]

/-! ### The frame that differs -/

private theorem Element.DiffersInText.anchor?_eq {path : List Nat} {e e' : Element} (h : e.DiffersInText path e')
    (hpath : path ≠ []) : e'.anchor? = e.anchor? := by
  cases h with
  | token => exact absurd rfl hpath
  | node => rfl

namespace Frame.DiffersInText

variable {path : List Nat} {f f' : Frame}

private theorem kinds_eq (h : f.DiffersInText path f') : f'.kinds = f.kinds := by
  cases h with
  | before kind near far after h => simp [kinds, h.kind_eq]
  | after kind before near far h => simp [kinds, h.kind_eq]

/-- A token of changed text that is no earlier sibling itself changes no anchor. -/
private theorem anchors_eq (h : f.DiffersInText path f') (hsibling : ∀ i, path = [i] → ¬ i < f.before.length) :
    f'.anchors = f.anchors := by
  cases h with
  | after => rfl
  | @before kind near far after p e e' h =>
    have hp : p ≠ [] := by
      rintro rfl
      refine hsibling far.length rfl ?_
      show far.length < (near ++ e :: far).length
      rw [List.length_append, List.length_cons]
      omega
    simp [anchors, h.kind_eq, h.anchor?_eq hp]

end Frame.DiffersInText

namespace Cursor

/-- The checker reads the same off two places that differ in one frame, if no text is changed there that anchors. -/
private theorem sameSurroundings_of_differsInText {c d : Cursor} {inner outer : List Frame} {f f' : Frame}
    {sibling : List Nat}
    (hc : c.frames = inner ++ f :: outer) (hd : d.frames = inner ++ f' :: outer) (hf : f.DiffersInText sibling f')
    (hsibling : ∀ i, sibling = [i] → i < f.before.length → inner = [])
    (hlist : Kind.parameterList ∉ c.frames.map (·.kind)) : c.SameSurroundings d := by
  have hkinds : c.frames.map Frame.kinds = d.frames.map Frame.kinds := by
    rw [hc, hd, List.map_append, List.map_append, List.map_cons, List.map_cons, hf.kinds_eq]
  have hframeKinds : c.frames.map (·.kind) = d.frames.map (·.kind) := by
    rw [hc, hd, List.map_append, List.map_append, List.map_cons, List.map_cons, hf.kind_eq]
  have hanchors : c.frames.tail.map Frame.anchors = d.frames.tail.map Frame.anchors := by
    rw [hc, hd]
    cases inner with
    | nil => rfl
    | cons g inner =>
      -- the frame is not the innermost one, so it counts with its anchors
      have hsame : f'.anchors = f.anchors :=
        hf.anchors_eq fun i hi hlt => List.cons_ne_nil g inner (hsibling i hi hlt)
      simp [hsame]
  refine ⟨context_congr hkinds, inComment_congr hkinds, baseline_congr ?_ hanchors, ?_⟩
  · rw [parentKind?_eq, parentKind?_eq, hkinds]
  · rw [firstParameterColumn?_eq_none hlist, firstParameterColumn?_eq_none (hframeKinds ▸ hlist)]

end Cursor

/-! ### Two trees -/

namespace Element

open Cursor

/-- Whitespace `w` of changed text does not affect the complaints about whitespace `v`, unless `v` lies below a later
sibling of `w` or in a parameter list.  The token `v` has one place in the changed tree, and the complaints about it
there are the same, with the same offsets from its start. -/
theorem check_unaffected {root root' : Element} {v w : Cursor} (units : Units) (hblock : 0 < units.block)
    (hcontinuation : 0 < units.continuation) (hw : w ∈ root.whitespace) (hroot : root.DiffersInText w.path root')
    (hv : v ∈ root.whitespace) (hvw : v ≠ w) (hbelow : ¬ v.InsideLaterSibling w)
    (hlist : ∀ a ∈ v.ancestors, a.kind ≠ .parameterList) :
    ∃ v' ∈ root'.whitespace, v'.path = v.path ∧ (∀ u ∈ root'.positions, u.path = v.path → u = v') ∧
      ∃ found : List Finding, v.check units = .ok (found.map (Finding.shift v.start)) ∧
        v'.check units = .ok (found.map (Finding.shift v'.start)) := by
  obtain ⟨hwpos, -⟩ := mem_whitespace.1 hw
  obtain ⟨hvpos, text, htext⟩ := mem_whitespace.1 hv
  have hpath : v.path ≠ pathOfFrames [] ++ w.path := fun h => hvw (eq_of_path_eq hvpos hwpos h)
  obtain ⟨inner, f, f', outer, at', sibling, hframes, hf, hsplit, hmem⟩ :=
    hroot.exists_mem_positionsAt hvpos (by rw [htext]; rfl) hpath 0
  have hvpath : v.path = pathOfFrames outer ++ f.before.length :: pathOfFrames inner := by
    rw [Cursor.path, hframes, pathOfFrames_append, pathOfFrames_cons, List.append_assoc]
    rfl
  have hsibling : ∀ i, sibling = [i] → i < f.before.length → inner = [] := by
    intro i hi hlt
    by_contra hinner
    refine hbelow ⟨_, i, _, _, ?_, hvpath, hlt, fun h => hinner (pathOfFrames_eq_nil_iff.1 h)⟩
    rw [← hi]
    exact hsplit
  have hkinds : Kind.parameterList ∉ v.frames.map (·.kind) := by
    rw [← map_kind_ancestorsFrom v.element v.start v.frames]
    intro hmem
    obtain ⟨a, ha, hkind⟩ := List.mem_map.1 hmem
    exact hlist a ha hkind
  have hpath' : Cursor.path ⟨v.element, at', inner ++ f' :: outer⟩ = v.path := by
    rw [hvpath, Cursor.path, pathOfFrames_append, pathOfFrames_cons, hf.length_before, List.append_assoc]
    rfl
  have hsame := sameSurroundings_of_differsInText (d := ⟨v.element, at', inner ++ f' :: outer⟩) hframes rfl hf
    hsibling hkinds
  refine ⟨_, mem_whitespace.2 ⟨hmem, text, htext⟩, hpath', fun u hu hupath => ?_, ?_⟩
  · exact eq_of_path_eq hu hmem (hupath.trans hpath'.symm)
  · rw [Cursor.check_of_pos hblock hcontinuation, Cursor.check_of_pos hblock hcontinuation]
    obtain ⟨found, hfound, hfound'⟩ :=
      Finding.exists_map_shift (hsame.forall₂_findings rfl (IndentedLine.forall₂_ofText _ _ _) units)
    exact ⟨found, by rw [hfound], by rw [hfound']⟩

/-- The whitespace before `c` is complained about whatever stands between `a` and `b`. -/
theorem check_unaffected_by_sibling :
    ∃ v' ∈ (node .file [token .token ['a'], token .whitespace ['\n', '\n', ' '], token .token ['b'],
        token .whitespace ['\n', ' ', ' ', ' '], token .token ['c']]).whitespace, v'.path = [3] ∧
      ∃ found : List Finding, found ≠ [] ∧ v'.check ⟨4, 8⟩ = .ok (found.map (Finding.shift v'.start)) := by
  let a := token .token ['a']
  let b := token .token ['b']
  let c := token .token ['c']
  let wide := token .whitespace ['\n', ' ', ' ', ' ']
  let w : Cursor := ⟨token .whitespace ['\n', ' ', ' '], 1, [⟨.file, [a], [b, wide, c]⟩]⟩
  let v : Cursor := ⟨wide, 5, [⟨.file, [b, token .whitespace ['\n', ' ', ' '], a], [c]⟩]⟩
  have hwhitespace : (node .file [a, token .whitespace ['\n', ' ', ' '], b, wide, c]).whitespace = [w, v] := rfl
  have hvw : v ≠ w := fun h => absurd (congrArg Cursor.start h) (by decide)
  -- both stand at the same depth, so neither is inside a sibling of the other
  have hbelow : ¬ v.InsideLaterSibling w := by
    rintro ⟨around, i, j, below, hw, hv, -, hne⟩
    have hwlength := congrArg List.length hw
    have hvlength := congrArg List.length hv
    simp only [List.length_append, List.length_cons, List.length_nil] at hwlength hvlength
    have hwpath : w.path.length = 1 := rfl
    have hvpath : v.path.length = 1 := rfl
    exact hne (List.eq_nil_of_length_eq_zero (by omega))
  obtain ⟨v', hv', hpath, -, found, hfound, hfound'⟩ := check_unaffected (v := v) (w := w) ⟨4, 8⟩ (by decide) (by decide)
    (hwhitespace ▸ List.mem_cons_self ..)
    (.node .file [a] [b, wide, c] (.token .whitespace ['\n', ' ', ' '] ['\n', '\n', ' ']))
    (hwhitespace ▸ List.mem_cons_of_mem _ (List.mem_singleton_self v)) hvw hbelow (by decide)
  refine ⟨v', hv', hpath, found, ?_, hfound'⟩
  rintro rfl
  have hcheck : v.check ⟨4, 8⟩ = .ok [⟨6, unitMessage 3 4, false⟩] := rfl
  rw [hcheck] at hfound
  cases hfound

end Element

end IndentLint
