import IndentLint.Analysis.Discovery
import IndentLint.Proofs.File.Descent
import IndentLint.Proofs.Glob.OpenEnds

/-!
# What the patterns leave out

Files are left out by globs and by the parts of their paths that are left of a pattern without its pairs of stars.  For
a pattern with open ends the part says nothing that the glob does not say, and the path from the root says nothing that
the whole path does not say.  So only other patterns may leave out a file that no glob matches, or miss one that a glob
matches from the root (`Analyzer.isExcluded_eq_isMatched_iff`).
-/

namespace IndentLint

/-! ### A pattern without its pairs of stars -/

private theorem withoutStarPairs_cons {c : Char} (hc : c ≠ '*') (cs : List Char) :
    withoutStarPairs (c :: cs) = c :: withoutStarPairs cs :=
  withoutStarPairs.eq_3 c cs fun _ h _ => hc h

private theorem withoutStarPairs_star {cs : List Char} (h : cs.head? ≠ some '*') :
    withoutStarPairs ('*' :: cs) = '*' :: withoutStarPairs cs := by
  refine withoutStarPairs.eq_3 '*' cs fun rest _ hcs => h ?_
  rw [hcs]
  rfl

/-- Whether what is left of a pattern without its pairs of stars is a part of a path. -/
def occurs (pattern : String) (path : Path) : Bool :=
  let part := withoutStarPairs pattern.toList
  !part.isEmpty && Text.containsPart part path.text.toList

private theorem excludes_eq (pattern : String) (path : Path) :
    excludes pattern path = (Glob.accepts pattern path.text || occurs pattern path) :=
  rfl

namespace Glob

private theorem map_cons_eq_ok {ε : Type} {t : GlobToken} {ts : List GlobToken} {x : Except ε (List GlobToken)}
    (h : x.map (t :: ·) = .ok ts) : ∃ rest, x = .ok rest ∧ ts = t :: rest := by
  cases x with
  | error e => cases h
  | ok rest => exact ⟨rest, rfl, (Except.ok.inj h).symm⟩

variable {position skip taken : Nat} {previous : Option Char} {t : GlobToken} {ts rest : List GlobToken}
  {cs back : List Char}

/-- The token of a row of stars takes what the row leaves behind, with everything in front of it. -/
private theorem matchTokens_stars (h : starToken position previous cs = .ok (t, taken))
    (htokens : tokensFrom (position + 1) (some '*') taken cs = .ok rest)
    (hrest : rest = [] ∨ matchTokens rest (withoutStarPairs (cs.drop taken) ++ back) = true) (front : List Char) :
    matchTokens (t :: rest) (front ++ (withoutStarPairs ('*' :: cs) ++ back)) = true := by
  have hopen : t.isOpen = true := by
    rcases starToken_cases h with ⟨rfl, -⟩ | ⟨rfl, -⟩ | ⟨rfl, -⟩ <;> rfl
  rcases hrest with rfl | hrest
  · exact matchTokens_singleton hopen _
  · rcases starToken_cases h with ⟨rfl, rfl, hhead⟩ | ⟨rfl, rfl, rfl⟩ | ⟨rfl, rfl, more, rfl⟩
    · refine matchTokens_anyRun.2 ⟨_, ?_, hrest⟩
      rw [withoutStarPairs_star hhead, List.drop_zero]
      exact (List.suffix_cons _ _).trans (List.suffix_append _ _)
    · obtain rfl : [] = rest := Except.ok.inj htokens
      exact matchTokens_singleton rfl _
    · exact matchTokens_anyDirectories.2 ⟨_, Or.inr (Or.inr (List.suffix_append _ _)), hrest⟩

private theorem isClass_of_classToken? (h : classToken? cs = some (t, taken)) : t.isClass = true := by
  unfold classToken? at h
  split at h
  · split at h
    · obtain ⟨rfl, -⟩ := Prod.mk.inj (Option.some.inj h)
      rfl
    · cases h
  · split at h
    · obtain ⟨rfl, -⟩ := Prod.mk.inj (Option.some.inj h)
      rfl
    · cases h
  · cases h

/-- The first token is a class, or that of a row of stars, or it takes the first character. -/
theorem tokensFrom_cons_cases {c : Char} (h : tokensFrom position previous 0 (c :: cs) = .ok ts) :
    ∃ t taken rest, ts = t :: rest ∧ tokensFrom (position + 1) (some c) taken cs = .ok rest ∧
      (t.isClass = true ∨ (c = '*' ∧ starToken position previous cs = .ok (t, taken)) ∨
        (c ≠ '*' ∧ taken = 0 ∧ t.isOpen = false ∧ t.admits c = true)) := by
  rw [tokensFrom, if_neg (lt_irrefl 0)] at h
  split at h
  · rename_i hc
    obtain ⟨rest, hrest, rfl⟩ := map_cons_eq_ok h
    exact ⟨_, _, _, rfl, hrest, Or.inr (Or.inr ⟨by rw [hc]; decide, rfl, rfl, rfl⟩)⟩
  · split at h
    · rename_i hc
      split at h
      · cases h
      · rename_i hstar
        obtain ⟨rest, hrest, rfl⟩ := map_cons_eq_ok h
        exact ⟨_, _, _, rfl, hrest, Or.inr (Or.inl ⟨hc, hstar⟩)⟩
    · rename_i hc
      split at h
      · split at h
        · cases h
        · rename_i htoken
          obtain ⟨rest, hrest, rfl⟩ := map_cons_eq_ok h
          exact ⟨_, _, _, rfl, hrest, Or.inl (isClass_of_classToken? htoken)⟩
      · obtain ⟨rest, hrest, rfl⟩ := map_cons_eq_ok h
        exact ⟨_, _, _, rfl, hrest, Or.inr (Or.inr ⟨hc, rfl, rfl, beq_self_eq_true c⟩)⟩

/-- The tokens of a pattern without classes that ends with stars match each text that begins with the pattern without
its pairs of stars. -/
private theorem matchTokens_withoutStarPairs (h : tokensFrom position previous skip cs = .ok ts)
    (hclass : ∀ t ∈ ts, t.isClass = false) (hlast : ∀ t ∈ ts.getLast?, t.isOpen = true) (back : List Char) :
    ts = [] ∨ matchTokens ts (withoutStarPairs (cs.drop skip) ++ back) = true := by
  induction cs generalizing position skip previous ts with
  | nil =>
    obtain rfl := Except.ok.inj h
    exact Or.inl rfl
  | cons c cs ih =>
    cases skip with
    | succ skip =>
      rw [tokensFrom, if_pos skip.succ_pos] at h
      exact ih h hclass hlast
    | zero =>
      right
      obtain ⟨t, taken, rest, rfl, htokens, hcases⟩ := tokensFrom_cons_cases h
      have hrest : rest = [] ∨ matchTokens rest (withoutStarPairs (cs.drop taken) ++ back) = true := by
        refine ih htokens (fun s hs => hclass s (List.mem_cons_of_mem _ hs)) fun s hs => hlast s ?_
        rw [List.getLast?_cons, Option.mem_def.1 hs]
        rfl
      rcases hcases with ht | ⟨rfl, hstar⟩ | ⟨hc, rfl, hopen, hadmits⟩
      · exact absurd ht (by simp [hclass t List.mem_cons_self])
      · exact matchTokens_stars hstar htokens hrest []
      · -- a token that takes one character is not the last one
        have hmatch := hrest.resolve_left fun hnil => by
          subst hnil
          simpa [hopen] using hlast t rfl
        rw [List.drop_zero] at hmatch ⊢
        rw [withoutStarPairs_cons hc]
        cases t with
        | anyRun => cases hopen
        | anyDirectories => cases hopen
        | _ => simpa [matchTokens, hadmits] using hmatch

/-- A pattern with open ends matches each text of which it is a part without its pairs of stars. -/
theorem accepts_of_infix {pattern text : String} (hopen : isOpen pattern = true)
    (h : withoutStarPairs pattern.toList <:+: text.toList) : accepts pattern text = true := by
  obtain ⟨ts, hparse, hhead, hlast, hclass⟩ := exists_of_isOpen hopen
  have htokens : tokensFrom 0 none 0 pattern.toList = .ok ts := by
    unfold parse at hparse
    cases htokens : tokensFrom 0 none 0 pattern.toList with
    | error e =>
      rw [htokens] at hparse
      cases hparse
    | ok us =>
      rw [htokens] at hparse
      exact congrArg Except.ok (Glob.mk.inj (Except.ok.inj hparse))
  cases hcs : pattern.toList with
  | nil =>
    rw [hcs] at htokens
    obtain rfl := Except.ok.inj htokens
    cases hhead
  | cons c cs =>
    rw [hcs] at h htokens
    obtain ⟨t, taken, rest, rfl, hrest, hcases⟩ := tokensFrom_cons_cases htokens
    rcases hcases with ht | ⟨rfl, hstar⟩ | ⟨-, -, hnot, -⟩
    · exact absurd ht (by simp [hclass t List.mem_cons_self])
    · obtain ⟨front, back, htext⟩ := h
      rw [accepts_of_parse hparse, ← htext, List.append_assoc]
      refine matchTokens_stars hstar hrest ?_ front
      refine matchTokens_withoutStarPairs hrest (fun s hs => hclass s (List.mem_cons_of_mem _ hs)) ?_ back
      intro s hs
      rw [List.getLast?_cons, Option.mem_def.1 hs] at hlast
      exact hlast
    · exact absurd (hhead : t.isOpen = true) (by simp [hnot])

end Glob

/-! ### Files below the root -/

private theorem infix_of_occurs {pattern : String} {path : Path} (h : occurs pattern path = true) :
    withoutStarPairs pattern.toList <:+: path.text.toList :=
  Text.containsPart_iff_infix.1 (Bool.and_eq_true_iff.1 h).2

namespace Analyzer

/-- Whether a glob matches a file by its path or by its path as seen from the root. -/
def isMatched (a : Analyzer) (path : Path) : Bool :=
  a.exclude.any fun pattern =>
    Glob.accepts pattern path.text || Glob.accepts pattern (path.relativeTo a.root).text

variable {a : Analyzer} {names : List String}

/-- A pattern with open ends matches a file below the root by its path if it does so from the root. -/
theorem accepts_of_relativeTo {pattern : String} (hopen : Glob.isOpen pattern = true)
    (hroot : a.root.isAbsolute = true) (hne : names ≠ []) (hnames : ∀ n ∈ names, Path.IsFileName n)
    (h : Glob.accepts pattern ((a.root.below names).relativeTo a.root).text = true) :
    Glob.accepts pattern (a.root.below names).text = true := by
  obtain ⟨front, hlead, -⟩ := Path.exists_lead (Path.toList_ne_nil_of_isAbsolute hroot)
  obtain ⟨ts, hparse, hhead, -, -⟩ := Glob.exists_of_isOpen hopen
  rw [Path.relativeTo_below hroot hne hnames, Glob.accepts_of_parse hparse, Path.ofSegments,
    String.toList_ofList] at h
  rw [Glob.accepts_of_parse hparse, Path.toList_below _ hne hnames, hlead, List.append_assoc]
  exact Glob.matchTokens_behind hhead front h

private theorem isExcluded_of_accepts {pattern : String} {path : Path} (hmem : pattern ∈ a.exclude)
    (h : Glob.accepts pattern path.text = true) : a.isExcluded path = true :=
  List.any_eq_true.2 ⟨pattern, hmem, by rw [excludes_eq, h, Bool.true_or]⟩

/-- A file that is left out is matched, unless the part of a pattern without open ends is in its path. -/
private theorem isMatched_of_isExcluded {path : Path}
    (hpart : ∀ pattern ∈ a.exclude, Glob.isOpen pattern = false → occurs pattern path = true →
      a.isMatched path = true) (h : a.isExcluded path = true) : a.isMatched path = true := by
  obtain ⟨pattern, hmem, hpattern⟩ := List.any_eq_true.1 h
  have hmatched : Glob.accepts pattern path.text = true → a.isMatched path = true := fun haccepts =>
    List.any_eq_true.2 ⟨pattern, hmem, by rw [haccepts, Bool.true_or]⟩
  rw [excludes_eq, Bool.or_eq_true] at hpattern
  rcases hpattern with haccepts | hoccurs
  · exact hmatched haccepts
  · cases hopen : Glob.isOpen pattern with
    | false => exact hpart pattern hmem hopen hoccurs
    | true => exact hmatched (Glob.accepts_of_infix hopen (infix_of_occurs hoccurs))

/-- A file below the root that is matched is left out, unless a pattern without open ends matches it from the root. -/
private theorem isExcluded_of_isMatched (hroot : a.root.isAbsolute = true) (hne : names ≠ [])
    (hnames : ∀ n ∈ names, Path.IsFileName n)
    (hrelative : ∀ pattern ∈ a.exclude, Glob.isOpen pattern = false →
      Glob.accepts pattern ((a.root.below names).relativeTo a.root).text = true →
        a.isExcluded (a.root.below names) = true)
    (h : a.isMatched (a.root.below names) = true) : a.isExcluded (a.root.below names) = true := by
  obtain ⟨pattern, hmem, hpattern⟩ := List.any_eq_true.1 h
  rw [Bool.or_eq_true] at hpattern
  rcases hpattern with haccepts | haccepts
  · exact isExcluded_of_accepts hmem haccepts
  · cases hopen : Glob.isOpen pattern with
    | false => exact hrelative pattern hmem hopen haccepts
    | true => exact isExcluded_of_accepts hmem (accepts_of_relativeTo hopen hroot hne hnames haccepts)

/-- A file below the root is left out as the globs say, by its path or from the root, exactly if each pattern without
open ends has its part only in matched files and matches from the root only files that are left out. -/
theorem isExcluded_eq_isMatched_iff (hroot : a.root.isAbsolute = true) (hne : names ≠ [])
    (hnames : ∀ n ∈ names, Path.IsFileName n) :
    a.isExcluded (a.root.below names) = a.isMatched (a.root.below names) ↔
      ∀ pattern ∈ a.exclude, Glob.isOpen pattern = false →
        (occurs pattern (a.root.below names) = true → a.isMatched (a.root.below names) = true) ∧
        (Glob.accepts pattern ((a.root.below names).relativeTo a.root).text = true →
          a.isExcluded (a.root.below names) = true) := by
  constructor
  · intro heq pattern hmem _
    constructor
    · intro hoccurs
      rw [← heq, isExcluded, List.any_eq_true]
      exact ⟨pattern, hmem, by rw [excludes_eq, hoccurs, Bool.or_true]⟩
    · intro haccepts
      rw [heq, isMatched, List.any_eq_true]
      exact ⟨pattern, hmem, by rw [haccepts, Bool.or_true]⟩
  · intro h
    rw [Bool.eq_iff_iff]
    constructor
    · exact isMatched_of_isExcluded fun pattern hmem hopen => (h pattern hmem hopen).1
    · exact isExcluded_of_isMatched hroot hne hnames fun pattern hmem hopen => (h pattern hmem hopen).2

/-- The patterns that are given where none are configured leave out what their globs match. -/
theorem isExcluded_default (hroot : a.root.isAbsolute = true) (hne : names ≠ [])
    (hnames : ∀ n ∈ names, Path.IsFileName n) (hexclude : a.exclude = AnalyzerConfig.default.exclude) :
    a.isExcluded (a.root.below names) = a.isMatched (a.root.below names) := by
  have hopen : ∀ pattern ∈ a.exclude, Glob.isOpen pattern ≠ false := by
    rw [hexclude]
    decide
  rw [Bool.eq_iff_iff]
  constructor
  · exact isMatched_of_isExcluded fun pattern hmem hnot => absurd hnot (hopen pattern hmem)
  · exact isExcluded_of_isMatched hroot hne hnames fun pattern hmem hnot => absurd hnot (hopen pattern hmem)

/-- An analysis at `/p` with some patterns. -/
def excluding (patterns : List String) : Analyzer :=
  ⟨⟨"/p"⟩, [], [], patterns, .default, false⟩

/-- What is left out in `gen` is what the globs match, although the end of one of them is not open. -/
theorem excluded_in_gen :
    (excluding ["**/build/**", "**/gen/*.kt"]).isExcluded (Path.below ⟨"/p"⟩ ["gen", "a.kt"]) = true ∧
      (excluding ["**/build/**", "**/gen/*.kt"]).isMatched (Path.below ⟨"/p"⟩ ["gen", "a.kt"]) = true := by
  have hexcluded : (excluding ["**/build/**", "**/gen/*.kt"]).isExcluded (Path.below ⟨"/p"⟩ ["gen", "a.kt"]) := by
    decide +kernel
  have heq : (excluding ["**/build/**", "**/gen/*.kt"]).isExcluded (Path.below ⟨"/p"⟩ ["gen", "a.kt"]) =
      (excluding ["**/build/**", "**/gen/*.kt"]).isMatched (Path.below ⟨"/p"⟩ ["gen", "a.kt"]) :=
    (isExcluded_eq_isMatched_iff rfl (by decide) (by decide)).2 (by decide +kernel)
  exact ⟨hexcluded, heq ▸ hexcluded⟩

/-- The part of a pattern for `Api.kt` is in the path of `Api.kts`, which no glob matches; a pattern for the sources in
`src` matches them from the root, but it leaves out none of them. -/
theorem excluded_without_match :
    ((Glob.parse "**/Api.kt").isOk = true ∧
      (excluding ["**/Api.kt"]).isExcluded (Path.below ⟨"/p"⟩ ["Api.kts"]) = true ∧
      (excluding ["**/Api.kt"]).isMatched (Path.below ⟨"/p"⟩ ["Api.kts"]) = false) ∧
    ((Glob.parse "src/*.kt").isOk = true ∧
      (excluding ["src/*.kt"]).isExcluded (Path.below ⟨"/p"⟩ ["src", "a.kt"]) = false ∧
      (excluding ["src/*.kt"]).isMatched (Path.below ⟨"/p"⟩ ["src", "a.kt"]) = true) := by
  decide +kernel

end Analyzer

end IndentLint
