import IndentLint.Text.Runs
import Mathlib.Data.List.DropRight
import Mathlib.Data.List.SplitBy

/-!
# Trimmed texts and runs

Trimming divides a text into blanks, a visible text and blanks again (`eq_append_trim_append`), where a visible text
begins and ends with a character that is not blank.  The runs of a text are not empty, are all blank or all visible,
and no two blank ones follow each other (`isChain_runs`).
-/

namespace IndentLint.Text

/-- The text begins and ends with a character that is not blank. -/
def Visible (cs : List Char) : Prop :=
  (∃ x ∈ cs.head?, isBlank x = false) ∧ ∃ x ∈ cs.getLast?, isBlank x = false

theorem Visible.ne_nil {cs : List Char} (h : Visible cs) : cs ≠ [] := by
  rintro rfl
  obtain ⟨⟨x, hx, -⟩, -⟩ := h
  simp at hx

theorem visible_of_forall {cs : List Char} (hne : cs ≠ []) (h : ∀ x ∈ cs, isBlank x = false) : Visible cs :=
  ⟨⟨cs.head hne, by simp [List.head?_eq_some_head hne], h _ (List.head_mem hne)⟩,
    ⟨cs.getLast hne, by simp [List.getLast?_eq_some_getLast hne], h _ (List.getLast_mem hne)⟩⟩

/-! ### Trimming -/

/-- A text without the blanks at its front is its trimmed text and blanks. -/
theorem trimStart_eq_trim_append (cs : List Char) :
    ∃ tail, trimStart cs = trim cs ++ tail ∧ ∀ x ∈ tail, isBlank x = true := by
  refine ⟨(trimStart cs).rtakeWhile isBlank, ?_, fun x hx => List.mem_rtakeWhile_imp hx⟩
  exact List.rdropWhile_append_rtakeWhile.symm

private theorem trimStart_eq_trim_append_drop (cs : List Char) :
    trimStart cs = trim cs ++ (trimStart cs).drop (trim cs).length := by
  obtain ⟨tail, h, -⟩ := trimStart_eq_trim_append cs
  rw [h, List.drop_left]

/-- Trimming takes blanks away at both ends. -/
theorem eq_append_trim_append (cs : List Char) :
    cs = cs.takeWhile isBlank ++ (trim cs ++ (trimStart cs).drop (trim cs).length) := by
  rw [← trimStart_eq_trim_append_drop]
  exact List.takeWhile_append_dropWhile.symm

theorem visible_trim {cs : List Char} (h : trim cs ≠ []) : Visible (trim cs) := by
  constructor
  · obtain ⟨tail, htail, -⟩ := trimStart_eq_trim_append cs
    obtain ⟨x, rest, hx⟩ := List.exists_cons_of_ne_nil h
    refine ⟨x, by simp [hx], ?_⟩
    have hhead := List.head?_dropWhile_not isBlank cs
    have hfirst : (cs.dropWhile isBlank).head? = some x := by
      show (trimStart cs).head? = some x
      rw [htail, hx]; rfl
    rw [hfirst] at hhead
    simpa using hhead
  · refine ⟨(trim cs).getLast h, by simp [List.getLast?_eq_some_getLast h], ?_⟩
    have hlast := List.rdropWhile_last_not isBlank (trimStart cs) h
    exact Bool.eq_false_iff.2 hlast

/-- Trimming takes all blanks around a visible text away. -/
theorem trim_append {front cs back : List Char} (hfront : ∀ c ∈ front, isBlank c = true)
    (hback : ∀ c ∈ back, isBlank c = true) (hcs : Visible cs) : trim (front ++ (cs ++ back)) = cs := by
  obtain ⟨⟨x, hx, hxblank⟩, y, hy, hyblank⟩ := hcs
  obtain ⟨rest, hrest⟩ := List.head?_eq_some_iff.1 hx
  obtain ⟨init, hinit⟩ := List.getLast?_eq_some_iff.1 hy
  have hstart : trimStart (front ++ (cs ++ back)) = cs ++ back := by
    rw [trimStart, List.dropWhile_append_of_pos hfront, hrest, List.cons_append,
      List.dropWhile_cons_of_neg (Bool.eq_false_iff.1 hxblank)]
  have hend : (cs ++ back).reverse.dropWhile isBlank = cs.reverse := by
    rw [List.reverse_append, List.dropWhile_append_of_pos fun c hc => hback c (List.mem_reverse.1 hc), hinit,
      List.reverse_concat, List.dropWhile_cons_of_neg (Bool.eq_false_iff.1 hyblank)]
  rw [trim, hstart, trimEnd, hend, List.reverse_reverse]

/-! ### Runs -/

theorem flatten_runs (cs : List Char) : (runs cs).flatten = cs :=
  List.flatten_splitBy _ cs

theorem ne_nil_of_mem_runs {cs run : List Char} (h : run ∈ runs cs) : run ≠ [] :=
  List.ne_nil_of_mem_splitBy h

/-- In a run all characters are blank or none is. -/
theorem forall_isBlank_eq_of_mem_runs {cs run : List Char} (h : run ∈ runs cs) :
    ∃ b, ∀ x ∈ run, isBlank x = b := by
  have hchain := List.isChain_of_mem_splitBy h
  cases run with
  | nil => exact absurd rfl (ne_nil_of_mem_runs h)
  | cons c rest =>
    refine ⟨isBlank c, ?_⟩
    have hpair : (c :: rest).Pairwise fun a b => isBlank a = isBlank b := by
      have htrans : IsTrans Char fun a b => isBlank a = isBlank b := ⟨fun _ _ _ h₁ h₂ => h₁.trans h₂⟩
      exact List.isChain_iff_pairwise.1 (hchain.imp fun a b hab => by simpa using hab)
    intro x hx
    rcases List.mem_cons.1 hx with rfl | hx
    · rfl
    · exact ((List.pairwise_cons.1 hpair).1 x hx).symm

/-- Of two runs that follow each other one is blank and one is visible. -/
theorem isChain_runs (cs : List Char) :
    (runs cs).IsChain fun r s => ¬((∀ x ∈ r, isBlank x = true) ∧ ∀ x ∈ s, isBlank x = true) := by
  refine (List.isChain_getLast_head_splitBy _ cs).imp ?_
  rintro r s ⟨hr, hs, hne⟩ ⟨hrb, hsb⟩
  rw [hrb _ (List.getLast_mem hr), hsb _ (List.head_mem hs)] at hne
  simp at hne

end IndentLint.Text
