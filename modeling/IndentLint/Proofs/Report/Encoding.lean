import IndentLint.Command.Run
import IndentLint.Proofs.Json.RoundTrip
import IndentLint.Proofs.Text.Integer
import Mathlib.Data.List.Nodup

/-!
# Results survive their report

A record that is written with its fields in order is read back field by field, since each name occurs once among its
members (`fields?_zip`).  So every result is read back from its JSON, and from the text that is printed for it, if its
numbers fit in 64 bits (`ofText?_reported`).
-/

namespace IndentLint

namespace Json

private theorem natural64?_ofNat {n : Nat} (h : n < Nat.pow 2 64) : (ofNat n).natural64? = some n := by
  rw [ofNat, natural64?, Text.natural?_toDigits, Option.filter_some, if_pos (decide_eq_true h)]

private theorem map_lookup_zip {names : List String} {values : List Json} (hnodup : names.Nodup)
    (hlength : names.length = values.length) :
    (names.map fun n => (names.zip values).lookup n) = values.map some := by
  induction names generalizing values with
  | nil =>
    rw [List.eq_nil_of_length_eq_zero hlength.symm]
    rfl
  | cons name names ih =>
    obtain ⟨value, values, rfl⟩ := List.exists_cons_of_length_eq_add_one hlength.symm
    obtain ⟨hname, hnodup⟩ := List.nodup_cons.1 hnodup
    -- the first name is none of the others, so these are looked up behind it
    have hrest : ∀ n ∈ names, ((name, value) :: names.zip values).lookup n = (names.zip values).lookup n := by
      intro n hn
      have hne : (n == name) = false := beq_false_of_ne fun heq => hname (heq ▸ hn)
      rw [List.lookup_cons, hne]
    rw [List.zip_cons_cons, List.map_cons, List.lookup_cons_self, List.map_congr_left hrest,
      ih hnodup (Nat.succ.inj hlength), List.map_cons]

/-- A record that is written under names without a duplicate has its values as the fields of these names. -/
theorem fields?_zip {names : List String} {values : List Json} (hnodup : names.Nodup)
    (hlength : names.length = values.length) :
    (object (names.zip values)).fields? names = some (values.map some) := by
  have honce : (names.all fun n => (names.zip values).countP (·.1 == n) ≤ 1) = true := by
    refine List.all_eq_true.2 fun n _ => decide_eq_true ?_
    have hcount : (names.zip values).countP (·.1 == n) = ((names.zip values).map Prod.fst).count n := by
      rw [List.count, List.countP_map]
      rfl
    rw [hcount, List.map_fst_zip (Nat.le_of_eq hlength)]
    exact List.nodup_iff_count_le_one.1 hnodup n
  rw [fields?, if_pos honce, map_lookup_zip hnodup hlength]

private theorem isPlain_zip {names : List String} {values : List Json} (h : ∀ v ∈ values, v.IsPlain) :
    (object (names.zip values)).IsPlain :=
  .object _ fun m hm => h m.2 (List.of_mem_zip hm).2

end Json

private theorem Severity.ofJson?_toJson (s : Severity) : Severity.ofJson? s.toJson = some s := by
  cases s <;> decide

namespace Location

/-- The numbers of a place fit in 64 bits. -/
structure Fits64 (l : Location) : Prop where
  line : l.line < Nat.pow 2 64
  column : l.column < Nat.pow 2 64
  offset : l.offset < Nat.pow 2 64
  length : l.length < Nat.pow 2 64

private theorem isPlain_toJson (l : Location) : l.toJson.IsPlain := by
  refine Json.isPlain_zip fun v hv => ?_
  simp only [List.mem_cons, List.not_mem_nil, or_false] at hv
  rcases hv with rfl | rfl | rfl | rfl | rfl
  · exact .string _
  all_goals exact .ofNat _

private theorem ofJson?_toJson {l : Location} (h : l.Fits64) : ofJson? l.toJson = some l := by
  rw [ofJson?, toJson, Json.fields?_zip (by decide) rfl]
  simp [Json.text?, Json.natural64?_ofNat h.line, Json.natural64?_ofNat h.column, Json.natural64?_ofNat h.offset,
    Json.natural64?_ofNat h.length]

end Location

namespace Violation

private theorem isPlain_toJson (v : Violation) : v.toJson.IsPlain := by
  refine Json.isPlain_zip fun j hj => ?_
  simp only [List.mem_cons, List.not_mem_nil, or_false] at hj
  rcases hj with rfl | rfl | rfl | rfl | rfl | rfl
  · exact .string _
  · exact .string _
  · exact .string _
  · exact v.location.isPlain_toJson
  · exact .string _
  · exact .bool _

private theorem ofJson?_toJson {v : Violation} (h : v.location.Fits64) : ofJson? v.toJson = some v := by
  rw [ofJson?, toJson, Json.fields?_zip (by decide) rfl]
  simp [Json.text?, Json.flag?, Severity.ofJson?_toJson, Location.ofJson?_toJson h]

end Violation

namespace LintResult

/-- The numbers of a result fit in 64 bits. -/
structure Fits64 (r : LintResult) : Prop where
  locations : ∀ v ∈ r.violations, v.location.Fits64
  filesChecked : r.filesChecked < Nat.pow 2 64

private theorem isPlain_toJson (r : LintResult) : r.toJson.IsPlain := by
  refine Json.isPlain_zip fun j hj => ?_
  simp only [List.mem_cons, List.not_mem_nil, or_false] at hj
  rcases hj with rfl | rfl
  · refine .array _ fun item hitem => ?_
    obtain ⟨v, -, rfl⟩ := List.mem_map.1 hitem
    exact v.isPlain_toJson
  · exact .ofNat _

private theorem mapM_ofJson? {vs : List Violation} (h : ∀ v ∈ vs, v.location.Fits64) :
    (vs.map Violation.toJson).mapM Violation.ofJson? = some vs := by
  induction vs with
  | nil => rfl
  | cons v vs ih =>
    rw [List.map_cons, List.mapM_cons, Violation.ofJson?_toJson (h v List.mem_cons_self),
      ih fun w hw => h w (List.mem_cons_of_mem v hw)]
    rfl

private theorem ofJson?_toJson {r : LintResult} (h : r.Fits64) : ofJson? r.toJson = some r := by
  have hviolations := mapM_ofJson? h.locations
  rw [ofJson?, toJson, Json.fields?_zip (by decide) rfl]
  simp [Json.items?, hviolations, Json.natural64?_ofNat h.filesChecked]

private theorem ofText?_output_reported {r : LintResult} (h : r.Fits64) (source? : Path → Option String) :
    ofText? (Command.reported .json r source?).output = some r := by
  have hread : Json.read? (r.toJson.indented 0 ++ ['\n']) = some r.toJson :=
    r.isPlain_toJson.read?_indented (by simp [JsonToken.isJsonBlank])
  have htext : (Command.reported .json r source?).output.toList = r.toJson.indented 0 ++ ['\n'] := by
    simp [Command.reported, report, toText, Json.toText]
  rw [ofText?, htext, hread, Option.bind_some, ofJson?_toJson h]

/-- A check that does not fail reports what the analysis of the project or of standard input finds, in the form that is
asked for. -/
private theorem exists_reported_of_check {s : Command.Surroundings} {given : Option Path} {o : Command.CheckOptions}
    {printed : Command.Result} (h : Command.check s given o = .ok printed) :
    ∃ a r source?, Command.setUp s given o = .ok a ∧
      (if o.readsInput then Command.checkInput a o.inputName s.input else Command.checkProject a s.toStandpoint) =
        .ok (r, source?) ∧ printed = Command.reported o.format r source? := by
  unfold Command.check at h
  cases hsetup : Command.setUp s given o with
  | error failure =>
    rw [hsetup] at h
    cases h
  | ok a =>
    rw [hsetup] at h
    dsimp only at h
    cases hresult : (if o.readsInput then Command.checkInput a o.inputName s.input
        else Command.checkProject a s.toStandpoint) with
    | error failure =>
      rw [hresult] at h
      cases h
    | ok found =>
      rw [hresult] at h
      exact ⟨a, found.1, found.2, rfl, hresult, (Except.ok.inj h).symm⟩

/-- A result is read back from the text that is printed for it, every field of every violation and in their order, if
its numbers fit in 64 bits.  Such a text is what a check prints under the format JSON, for the result of its analysis. -/
theorem ofText?_reported :
    (∀ r : LintResult, r.Fits64 → ∀ source?, ofText? (Command.reported .json r source?).output = some r) ∧
    ∀ s given o printed, o.format = .json → Command.check s given o = .ok printed →
      ∃ a r source?, Command.setUp s given o = .ok a ∧
        (if o.readsInput then Command.checkInput a o.inputName s.input else Command.checkProject a s.toStandpoint) =
          .ok (r, source?) ∧
        printed = Command.reported .json r source? ∧ (r.Fits64 → ofText? printed.output = some r) := by
  refine ⟨fun r h => ofText?_output_reported h, fun s given o printed hformat h => ?_⟩
  obtain ⟨a, r, source?, hsetup, hfound, hprinted⟩ := exists_reported_of_check h
  rw [hformat] at hprinted
  exact ⟨a, r, source?, hsetup, hfound, hprinted, fun hfits => hprinted ▸ ofText?_output_reported hfits source?⟩

/-- Quotes, a backslash, control characters and a letter beyond 16 bits survive, and so do the greatest numbers. -/
theorem ofText?_reported_escapes :
    ∃ r : LintResult, (∃ v ∈ r.violations, v.message = "\"\\\x01\n\x7f𝔞" ∧ v.location.offset = Nat.pow 2 64 - 1) ∧
      ∀ source?, ofText? (Command.reported .json r source?).output = some r := by
  refine ⟨⟨[⟨"indent", "indent", .info, ⟨⟨"a \"b\".kt"⟩, 1, 1, Nat.pow 2 64 - 1, 0⟩, "\"\\\x01\n\x7f𝔞", true⟩],
    Nat.pow 2 64 - 1⟩, ⟨_, List.mem_cons_self, rfl, rfl⟩, ofText?_reported.1 _ ⟨?_, by decide⟩⟩
  intro v hv
  obtain rfl := List.mem_singleton.1 hv
  exact ⟨by decide, by decide, by decide, by decide⟩

end LintResult

end IndentLint
