import IndentLint.Proofs.Layout.Findings

/-!
# The unit that a complaint cites

A complaint names the length of the indentation and cites a unit, and both numbers can be read off its words
(`Cites.unique`).  A line that is complained about misses the unit that applies to it, and outside parameter lists this
is the unit that is cited.  Inside a parameter list the block unit is cited, whatever unit applies.  So the cited unit
can be met only where a continuation unit of its own applies inside a parameter list (`check_misses_unit`), and there
it is met by some lines (`type_in_parameter_meets_cited_unit`).
-/

namespace IndentLint

/-! ### Reading a complaint -/

/-- The message is a complaint about `n` characters of indentation that cites a unit of `m` columns. -/
def Cites (n m : Nat) (message : String) : Prop :=
  message = unitMessage n m ∨ message = parameterMessage n m

/-- A number is determined by its digits, wherever a bracket ends them. -/
private theorem eq_of_toDigits_append {n n' : Nat} {cs cs' : List Char}
    (h : Nat.toDigits 10 n ++ ')' :: cs = Nat.toDigits 10 n' ++ ')' :: cs') : n = n' ∧ cs = cs' := by
  have hdigits : ∀ k ds, (Nat.toDigits 10 k ++ ')' :: ds).takeWhile Char.isDigit = Nat.toDigits 10 k := by
    intro k ds
    have hall : ∀ c ∈ Nat.toDigits 10 k, c.isDigit = true :=
      fun c hc => Nat.isDigit_of_mem_toDigits (by decide) (by decide) hc
    rw [List.takeWhile_append_of_pos hall, List.takeWhile_cons_of_neg (by decide), List.append_nil]
  have hsame : Nat.toDigits 10 n = Nat.toDigits 10 n' := by
    rw [← hdigits n cs, h, hdigits]
  have hn : n = n' := by
    rw [← Nat.ofDigitChars_ten_toDigits (n := n), hsame, Nat.ofDigitChars_ten_toDigits]
  rw [hsame] at h
  exact ⟨hn, (List.cons.inj (List.append_cancel_left h)).2⟩

private def unitWords : List Char :=
  " (it should be ".toList

private def parameterWords : List Char :=
  " (parameters should be either vertically aligned or indented by the multiple of ".toList

/-- A complaint with some words between its two numbers. -/
private def worded (words : List Char) (n m : Nat) : List Char :=
  "Unexpected indentation (".toList ++ (Nat.toDigits 10 n ++ ')' :: (words ++ (Nat.toDigits 10 m ++ [')'])))

private theorem toList_unitMessage (n m : Nat) : (unitMessage n m).toList = worded unitWords n m := by
  show ("Unexpected indentation (" ++ n.repr ++ ") (it should be " ++ m.repr ++ ")").toList = _
  simp only [String.toList_append, Nat.toList_repr, List.append_assoc]
  rfl

private theorem toList_parameterMessage (n m : Nat) :
    (parameterMessage n m).toList = worded parameterWords n m := by
  show ("Unexpected indentation (" ++ n.repr ++
    ") (parameters should be either vertically aligned or indented by the multiple of " ++ m.repr ++ ")").toList = _
  simp only [String.toList_append, Nat.toList_repr, List.append_assoc]
  rfl

private theorem eq_of_worded {words words' : List Char} {n m n' m' : Nat}
    (h : worded words n m = worded words' n' m') :
    n = n' ∧ words ++ (Nat.toDigits 10 m ++ [')']) = words' ++ (Nat.toDigits 10 m' ++ [')']) :=
  eq_of_toDigits_append (List.append_cancel_left h)

/-- The two kinds of complaints differ in the third character of their words. -/
private theorem unitWords_append_ne (cs cs' : List Char) : unitWords ++ cs ≠ parameterWords ++ cs' := by
  intro h
  have hthird : some 'i' = some 'p' := congrArg (·[2]?) h
  exact absurd hthird (by decide)

/-- A complaint cites one length and one unit. -/
theorem Cites.unique {n m n' m' : Nat} {message : String} (h : Cites n m message) (h' : Cites n' m' message) :
    n = n' ∧ m = m' := by
  have hsame : ∀ words, worded words n m = worded words n' m' → n = n' ∧ m = m' := by
    intro words heq
    obtain ⟨hn, hrest⟩ := eq_of_worded heq
    exact ⟨hn, (eq_of_toDigits_append (List.append_cancel_left hrest)).1⟩
  rcases h with rfl | rfl
  · rcases h' with h' | h'
    · refine hsame unitWords ?_
      rw [← toList_unitMessage, h', toList_unitMessage]
    · have hlist := congrArg String.toList h'
      rw [toList_unitMessage, toList_parameterMessage] at hlist
      exact absurd (eq_of_worded hlist).2 (unitWords_append_ne _ _)
  · rcases h' with h' | h'
    · have hlist := congrArg String.toList h'
      rw [toList_unitMessage, toList_parameterMessage] at hlist
      exact absurd (eq_of_worded hlist).2.symm (unitWords_append_ne _ _)
    · refine hsame parameterWords ?_
      rw [← toList_parameterMessage, h', toList_parameterMessage]

namespace Cursor

/-! ### What is cited -/

/-- The unit that complaints about the lines of an element cite. -/
def citedUnit (units : Units) (c : Cursor) : Nat :=
  if c.firstParameterColumn?.isSome then units.block else units.required c

theorem cites_message (units : Units) (c : Cursor) (n : Nat) : Cites n (c.citedUnit units) (c.message units n) := by
  rw [citedUnit, Cursor.message]
  split
  · exact Or.inr rfl
  · exact Or.inl rfl

/-- The block unit is cited where there is a first parameter, and elsewhere the unit that applies. -/
private theorem citedUnit_cases {units : Units} {c : Cursor} :
    (∃ t, c.FirstParameterToken t) ∧ c.citedUnit units = units.block ∨
      (¬ ∃ t, c.FirstParameterToken t) ∧ c.citedUnit units = units.required c := by
  rw [citedUnit, ← isSome_firstParameterColumn?]
  by_cases hparameter : c.firstParameterColumn?.isSome = true
  · exact Or.inl ⟨hparameter, if_pos hparameter⟩
  · exact Or.inr ⟨hparameter, if_neg hparameter⟩

/-- Where the cited unit does not apply, a first parameter has changed it, and a continuation unit of its own
applies. -/
private theorem citedUnit_ne_required {units : Units} {c : Cursor} (h : c.citedUnit units ≠ units.required c) :
    (∃ t, c.FirstParameterToken t) ∧ c.citedUnit units = units.block ∧ units.continuation ≠ units.block ∧
      c.context.isContinuation = true := by
  rcases citedUnit_cases with ⟨hparameter, hcited⟩ | ⟨-, hcited⟩
  · rw [hcited, Units.required] at h
    split at h
    · rename_i happlies
      have hne : units.continuation ≠ units.block := Ne.symm h
      have hcontext : c.context.isContinuation = true := by
        simpa [hne] using happlies
      exact ⟨hparameter, hcited, hne, hcontext⟩
    · exact absurd rfl h
  · exact absurd hcited h

/-- Under units that are columns wide, every complaint cites the length of a line that misses the unit that applies.
The unit cited is the block unit where there is a first parameter, and elsewhere the one that applies; the line meets it
only inside a parameter list where a continuation unit of its own applies. -/
theorem check_misses_unit (units : Units) (c : Cursor) (hblock : 0 < units.block)
    (hcontinuation : 0 < units.continuation) :
    ∃ findings, c.check units = .ok findings ∧ ∀ f ∈ findings, (∃ n m, Cites n m f.message) ∧
      ∀ n m, Cites n m f.message →
        (∃ line ∈ c.measuredLines, line.offset = f.offset ∧ line.length = n) ∧
        ¬ (units.required c : Int) ∣ (n : Int) - c.baseline ∧
        ((∃ t, c.FirstParameterToken t) ∧ m = units.block ∨
          (¬ ∃ t, c.FirstParameterToken t) ∧ m = units.required c) ∧
        ((m : Int) ∣ (n : Int) - c.baseline → (∃ t, c.FirstParameterToken t) ∧ m = units.block ∧
          units.continuation ≠ units.block ∧ c.context.isContinuation = true) := by
  refine ⟨_, check_of_pos hblock hcontinuation c, fun f hf => ?_⟩
  obtain ⟨line, hline, hfits, -, rfl⟩ := mem_findings.1 hf
  have hcites := c.cites_message units line.length
  refine ⟨⟨_, _, hcites⟩, fun n m hnm => ?_⟩
  obtain ⟨rfl, rfl⟩ := hcites.unique hnm
  have hmissed : ¬ (units.required c : Int) ∣ (line.length : Int) - c.baseline := by
    rw [← fits_iff, hfits]
    exact Bool.false_ne_true
  refine ⟨⟨line, hline, rfl, rfl⟩, hmissed, citedUnit_cases, fun hmet => ?_⟩
  refine citedUnit_ne_required fun hsame => hmissed ?_
  rwa [← hsame]

/-- A parameter `(a:` LF four blanks `Int)`, its type on a line of its own. -/
def typeOnItsOwnLine : Element :=
  .node .file [.node .parameterList [.token .token ['('],
    .node .parameter [.token .token ['a'], .token .token [':'], .token .whitespace ['\n', ' ', ' ', ' ', ' '],
      .node .typeReference [.token .token ['I', 'n', 't']]],
    .token .token [')']]]

/-- The whitespace before a type on a line of its own. -/
def whitespaceBeforeType : Cursor :=
  ⟨.token .whitespace ['\n', ' ', ' ', ' ', ' '], 3,
    [⟨.parameter, [.token .token [':'], .token .token ['a']], [.node .typeReference [.token .token ['I', 'n', 't']]]⟩,
      ⟨.parameterList, [.token .token ['(']], [.token .token [')']]⟩, ⟨.file, [], []⟩]⟩

/-- The four columns before the type miss the continuation unit of eight columns. -/
theorem misses_unit_before_type : whitespaceBeforeType ∈ typeOnItsOwnLine.whitespace ∧ 0 < 4 ∧ 0 < 8 ∧
    ∃ f, whitespaceBeforeType.check ⟨4, 8⟩ = .ok [f] ∧ Cites 4 4 f.message ∧
      ¬ (8 : Int) ∣ 4 - whitespaceBeforeType.baseline := by
  obtain ⟨findings, hcheck, hall⟩ := check_misses_unit ⟨4, 8⟩ whitespaceBeforeType (by decide) (by decide)
  have hfindings : findings = [⟨4, parameterMessage 4 4, false⟩] := (Except.ok.inj hcheck).symm
  obtain ⟨-, hmissed⟩ := hall ⟨4, parameterMessage 4 4, false⟩ (by rw [hfindings]; exact List.mem_singleton_self _)
  have hcites : Cites 4 4 (parameterMessage 4 4) := Or.inr rfl
  refine ⟨List.mem_singleton_self _, by decide, by decide, _, hfindings ▸ hcheck, hcites, ?_⟩
  exact (hmissed 4 4 hcites).2.1

/-- The complaint about the type on a line of its own cites four columns, and four columns from the baseline it
is. -/
theorem type_in_parameter_meets_cited_unit : ∃ c ∈ typeOnItsOwnLine.whitespace, ∃ f,
    c.check ⟨4, 8⟩ = .ok [f] ∧ Cites 4 4 f.message ∧ (4 : Int) ∣ 4 - c.baseline :=
  ⟨whitespaceBeforeType, List.mem_singleton_self _, ⟨4, parameterMessage 4 4, false⟩, rfl, Or.inr rfl, by decide⟩

end Cursor

end IndentLint
