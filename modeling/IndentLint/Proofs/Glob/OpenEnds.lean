import IndentLint.Glob.Matching
import IndentLint.Text.Pieces
import Mathlib.Data.List.Infix

/-!
# Patterns with open ends

Stars take any text.  So a pattern that ends with stars matches whatever begins as it wants, and one that begins with
stars matches a text as soon as it matches what is behind one of its separators.
-/

namespace IndentLint

namespace Text

variable {α : Type}

private theorem mem_endings {ending cs : List α} : ending ∈ endings cs ↔ ending <:+ cs := by
  induction cs with
  | nil => simp [endings]
  | cons c cs ih => rw [endings, List.mem_cons, ih, List.suffix_cons_iff]

private theorem mem_endingsAfter {p : α → Bool} {ending cs : List α} :
    ending ∈ endingsAfter p cs ↔ ∃ c, p c = true ∧ c :: ending <:+ cs := by
  induction cs with
  | nil => simp [endingsAfter]
  | cons d cs ih =>
    simp only [endingsAfter, List.suffix_cons_iff, List.cons.injEq]
    by_cases hd : p d = true
    · rw [if_pos hd, List.mem_cons, ih]
      constructor
      · rintro (rfl | ⟨c, hc, h⟩)
        · exact ⟨d, hd, Or.inl ⟨rfl, rfl⟩⟩
        · exact ⟨c, hc, Or.inr h⟩
      · rintro ⟨c, hc, ⟨-, rfl⟩ | h⟩
        · exact Or.inl rfl
        · exact Or.inr ⟨c, hc, h⟩
    · rw [if_neg hd, ih]
      constructor
      · rintro ⟨c, hc, h⟩
        exact ⟨c, hc, Or.inr h⟩
      · rintro ⟨c, hc, ⟨rfl, -⟩ | h⟩
        · exact absurd hc hd
        · exact ⟨c, hc, h⟩

theorem containsPart_iff_infix {part cs : List Char} : containsPart part cs = true ↔ part <:+: cs := by
  induction cs with
  | nil => rw [containsPart, List.isEmpty_iff, List.infix_nil]
  | cons c cs ih => rw [containsPart, Bool.or_eq_true, List.isPrefixOf_iff_prefix, ih, List.infix_cons_iff]

end Text

namespace GlobToken

/-- Whether a token takes any text. -/
def isOpen : GlobToken → Bool
  | anyRun => true
  | anyDirectories => true
  | _ => false

/-- Whether a token is a class in brackets. -/
def isClass : GlobToken → Bool
  | within _ => true
  | except _ => true
  | _ => false

end GlobToken

namespace Glob

/-- A pattern that begins and ends with stars and has no classes. -/
def isOpen (pattern : String) : Bool :=
  match parse pattern with
  | .error _ => false
  | .ok g => g.tokens.head?.any (·.isOpen) && g.tokens.getLast?.any (·.isOpen) && g.tokens.all (!·.isClass)

theorem exists_of_isOpen {pattern : String} (h : isOpen pattern = true) :
    ∃ ts, parse pattern = .ok ⟨ts⟩ ∧ ts.head?.any (·.isOpen) = true ∧ ts.getLast?.any (·.isOpen) = true ∧
      ∀ t ∈ ts, t.isClass = false := by
  unfold isOpen at h
  split at h
  · cases h
  · rename_i g hg
    simp only [Bool.and_eq_true, List.all_eq_true, Bool.not_eq_true'] at h
    obtain ⟨⟨hhead, hlast⟩, hclass⟩ := h
    exact ⟨g.tokens, hg, hhead, hlast, hclass⟩

theorem accepts_of_parse {pattern text : String} {ts : List GlobToken} (h : parse pattern = .ok ⟨ts⟩) :
    accepts pattern text = matchTokens ts text.toList := by
  rw [accepts, h]
  exact matchesText_eq ⟨ts⟩ text

/-! ### Open tokens -/

variable {t : GlobToken} {ts : List GlobToken} {cs : List Char}

theorem matchTokens_anyRun :
    matchTokens (.anyRun :: ts) cs = true ↔ ∃ ending, ending <:+ cs ∧ matchTokens ts ending = true := by
  simp only [matchTokens, List.any_eq_true, Text.mem_endings]

private theorem mem_directoryEndings {ending : List Char} :
    ending ∈ directoryEndings cs ↔ ending = cs ∨ ending = [] ∨ '/' :: ending <:+ cs := by
  simp only [directoryEndings, List.mem_cons, Text.mem_endingsAfter, isSeparator, beq_iff_eq, exists_eq_left]

theorem matchTokens_anyDirectories : matchTokens (.anyDirectories :: ts) cs = true ↔
    ∃ ending, (ending = cs ∨ ending = [] ∨ '/' :: ending <:+ cs) ∧ matchTokens ts ending = true := by
  simp only [matchTokens, List.any_eq_true, mem_directoryEndings]

/-- An open token at the end takes all that is left. -/
theorem matchTokens_singleton (ht : t.isOpen = true) (cs : List Char) : matchTokens [t] cs = true := by
  cases t with
  | anyRun => exact matchTokens_anyRun.2 ⟨[], List.nil_suffix, rfl⟩
  | anyDirectories => exact matchTokens_anyDirectories.2 ⟨[], Or.inr (Or.inl rfl), rfl⟩
  | _ => cases ht

/-- What begins with an open token also matches with more directories in front. -/
theorem matchTokens_behind (ht : ts.head?.any (·.isOpen) = true) (front : List Char)
    (h : matchTokens ts cs = true) : matchTokens ts (front ++ '/' :: cs) = true := by
  have hsep : '/' :: cs <:+ front ++ '/' :: cs := List.suffix_append _ _
  have hcs : cs <:+ front ++ '/' :: cs := (List.suffix_cons _ _).trans hsep
  cases ts with
  | nil => cases ht
  | cons t ts =>
    cases t with
    | anyRun =>
      obtain ⟨ending, hending, hmatch⟩ := matchTokens_anyRun.1 h
      exact matchTokens_anyRun.2 ⟨ending, hending.trans hcs, hmatch⟩
    | anyDirectories =>
      obtain ⟨ending, hending, hmatch⟩ := matchTokens_anyDirectories.1 h
      refine matchTokens_anyDirectories.2 ⟨ending, ?_, hmatch⟩
      rcases hending with rfl | rfl | hending
      · exact Or.inr (Or.inr hsep)
      · exact Or.inr (Or.inl rfl)
      · exact Or.inr (Or.inr (hending.trans hcs))
    | _ => cases ht

/-! ### Reading stars -/

/-- A row of stars is one star, two stars at the end, or two stars with a separator behind them. -/
theorem starToken_cases {position taken : Nat} {previous : Option Char}
    (h : starToken position previous cs = .ok (t, taken)) :
    (t = .anyRun ∧ taken = 0 ∧ cs.head? ≠ some '*') ∨
      (t = .anyDirectories ∧ taken = 1 ∧ cs = ['*']) ∨
      (t = .anyDirectories ∧ taken = 2 ∧ ∃ rest, cs = '*' :: '/' :: rest) := by
  unfold starToken at h
  split at h
  · cases h
  · split at h
    · split at h
      · obtain ⟨rfl, rfl⟩ := Prod.mk.inj (Except.ok.inj h)
        exact Or.inr (Or.inl ⟨rfl, rfl, rfl⟩)
      · rename_i c rest _
        by_cases hc : c = '/'
        · rw [if_pos hc] at h
          obtain ⟨rfl, rfl⟩ := Prod.mk.inj (Except.ok.inj h)
          exact Or.inr (Or.inr ⟨rfl, rfl, rest, by rw [hc]⟩)
        · rw [if_neg hc] at h
          cases h
    · cases h
  · rename_i _ hne
    obtain ⟨rfl, rfl⟩ := Prod.mk.inj (Except.ok.inj h)
    refine Or.inl ⟨rfl, rfl, fun hhead => ?_⟩
    obtain ⟨rest, rfl⟩ := List.head?_eq_some_iff.1 hhead
    exact hne rest rfl

end Glob

end IndentLint
