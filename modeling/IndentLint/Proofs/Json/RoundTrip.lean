import IndentLint.Json.Reader
import IndentLint.Proofs.Json.Token

/-!
# JSON that is read as it was written

The indented text of a value scans to the tokens of the value, since blanks stand between tokens only and no number
touches what follows (`IsPlain.scansIndented`), and these tokens read as the value again (`IsPlain.reads`).  So reading
undoes writing (`IsPlain.read?_indented`) for a value in which every number is natural and every string has a text.
-/

namespace IndentLint.Json

open JsonToken (Scans EndsNumber scans_nil endsNumber_nil endsNumber_cons endsNumber_of_isJsonBlank isJsonBlank)

mutual

/-- The tokens of a value. -/
def tokens : Json → List JsonToken
  | null => [.null]
  | bool b => [.bool b]
  | number literal => [.number literal]
  | string text => [.string (some text)]
  | unpaired => [.string none]
  | array [] => [.openArray, .closeArray]
  | array (item :: items) => .openArray :: (item.tokens ++ tokensOfItems items)
  | object [] => [.openObject, .closeObject]
  | object ((name, value) :: members) =>
    .openObject :: .string (some name) :: .colon :: (value.tokens ++ tokensOfMembers members)

/-- The tokens of further items of an array, and the bracket after them. -/
def tokensOfItems : List Json → List JsonToken
  | [] => [.closeArray]
  | item :: items => .comma :: (item.tokens ++ tokensOfItems items)

/-- The tokens of further members of an object, and the brace after them. -/
def tokensOfMembers : List (String × Json) → List JsonToken
  | [] => [.closeObject]
  | (name, value) :: members => .comma :: .string (some name) :: .colon :: (value.tokens ++ tokensOfMembers members)

end

/-- A value of natural numbers and of strings that have a text. -/
inductive IsPlain : Json → Prop where
  | null : IsPlain null
  | bool (b : Bool) : IsPlain (bool b)
  | ofNat (n : Nat) : IsPlain (ofNat n)
  | string (text : String) : IsPlain (string text)
  | array (items : List Json) (h : ∀ item ∈ items, IsPlain item) : IsPlain (array items)
  | object (members : List (String × Json)) (h : ∀ m ∈ members, IsPlain m.2) : IsPlain (object members)

/-! ### Scanning the text of a value -/

/-- The indented text of the value scans to the tokens of the value, before anything that does not go on with a
number. -/
def ScansIndented (v : Json) : Prop :=
  ∀ depth rest ts, EndsNumber rest → Scans rest ts → Scans (v.indented depth ++ rest) (v.tokens ++ ts)

private theorem scans_newline {depth : Nat} {cs : List Char} {ts : List JsonToken} (h : Scans cs ts) :
    Scans (newline depth ++ cs) ts := by
  refine Scans.blanks (fun c hc => ?_) h
  rcases List.mem_cons.1 hc with rfl | hc
  · rfl
  · rw [List.eq_of_mem_replicate hc]
    rfl

/-- A bracket, brace, comma or colon scans to itself. -/
private theorem scans_mark {c : Char} {t : JsonToken} {rest : List Char} {ts : List JsonToken}
    (hc : (c, t) ∈ [('[', .openArray), (']', .closeArray), ('\x7b', .openObject), ('\x7d', .closeObject),
      (',', .comma), (':', .colon)]) (h : Scans rest ts) : Scans (c :: rest) (t :: ts) := by
  have hscan : JsonToken.scan? ([c] ++ rest) = some (t, rest) ∧ isJsonBlank c = false := by
    simp only [List.mem_cons, Prod.mk.injEq, List.not_mem_nil, or_false] at hc
    rcases hc with ⟨rfl, rfl⟩ | ⟨rfl, rfl⟩ | ⟨rfl, rfl⟩ | ⟨rfl, rfl⟩ | ⟨rfl, rfl⟩ | ⟨rfl, rfl⟩
    all_goals exact ⟨rfl, rfl⟩
  exact Scans.token hscan.2 hscan.1 h

private theorem scans_quote (text : String) {rest : List Char} {ts : List JsonToken} (h : Scans rest ts) :
    Scans (quote text ++ rest) (.string (some text) :: ts) :=
  Scans.token rfl (JsonToken.scan?_quote text rest) h

private theorem scans_toDigits (n : Nat) {rest : List Char} {ts : List JsonToken} (hends : EndsNumber rest)
    (h : Scans rest ts) : Scans (Nat.toDigits 10 n ++ rest) (.number (Nat.toDigits 10 n) :: ts) := by
  have hscan := JsonToken.scan?_toDigits n hends
  obtain ⟨c, cs, hcs, hdigit⟩ := JsonToken.exists_digit_toDigits n
  rw [hcs] at hscan ⊢
  have hblank : isJsonBlank c = false := by
    by_contra hblank
    have hends : EndsNumber (c :: cs) := endsNumber_of_isJsonBlank (by simpa using hblank) cs
    rw [(endsNumber_cons.1 hends).1] at hdigit
    exact Bool.false_ne_true hdigit
  exact Scans.token hblank hscan h

/-- The name of a member, its colon and the blank after it. -/
private theorem scans_name (name : String) {rest : List Char} {ts : List JsonToken} (h : Scans rest ts) :
    Scans (quote name ++ (": ".toList ++ rest)) (.string (some name) :: .colon :: ts) :=
  scans_quote name (scans_mark (by decide) (h.blank rfl))

private theorem endsNumber_newline (depth : Nat) (rest : List Char) : EndsNumber (newline depth ++ rest) :=
  endsNumber_of_isJsonBlank rfl _

private theorem endsNumber_comma (rest : List Char) : EndsNumber (',' :: rest) :=
  endsNumber_cons.2 (by decide)

private theorem endsNumber_indentedItems {depth : Nat} {items : List Json} {rest : List Char} (h : EndsNumber rest) :
    EndsNumber (indentedItems depth items ++ rest) := by
  cases items with
  | nil => exact h
  | cons item items => exact endsNumber_comma _

private theorem endsNumber_indentedMembers {depth : Nat} {members : List (String × Json)} {rest : List Char}
    (h : EndsNumber rest) : EndsNumber (indentedMembers depth members ++ rest) := by
  cases members with
  | nil => exact h
  | cons m members => exact endsNumber_comma _

private theorem scans_indentedItems {items : List Json} (hitems : ∀ item ∈ items, item.ScansIndented)
    (depth outer : Nat) {rest : List Char} {ts : List JsonToken} (h : Scans rest ts) :
    Scans (indentedItems depth items ++ (newline outer ++ ']' :: rest)) (tokensOfItems items ++ ts) := by
  induction items with
  | nil => exact scans_newline (scans_mark (by decide) h)
  | cons item items ih =>
    have hmore := ih fun i hi => hitems i (List.mem_cons_of_mem item hi)
    have hitem := hitems item List.mem_cons_self depth _ _
      (endsNumber_indentedItems (endsNumber_newline outer (']' :: rest))) hmore
    rw [indentedItems, tokensOfItems]
    simp only [List.cons_append, List.append_assoc]
    exact scans_mark (by decide) (scans_newline hitem)

private theorem scans_indentedMembers {members : List (String × Json)} (hmembers : ∀ m ∈ members, m.2.ScansIndented)
    (depth outer : Nat) {rest : List Char} {ts : List JsonToken} (h : Scans rest ts) :
    Scans (indentedMembers depth members ++ (newline outer ++ '\x7d' :: rest)) (tokensOfMembers members ++ ts) := by
  induction members with
  | nil => exact scans_newline (scans_mark (by decide) h)
  | cons m members ih =>
    have hmore := ih fun m' hm' => hmembers m' (List.mem_cons_of_mem m hm')
    have hvalue := hmembers m List.mem_cons_self depth _ _
      (endsNumber_indentedMembers (endsNumber_newline outer ('\x7d' :: rest))) hmore
    rw [indentedMembers, tokensOfMembers]
    simp only [List.cons_append, List.append_assoc]
    exact scans_mark (by decide) (scans_newline (scans_name m.1 hvalue))

/-- The indented text of a plain value scans to the tokens of the value. -/
theorem IsPlain.scansIndented {v : Json} (h : v.IsPlain) : v.ScansIndented := by
  intro depth rest ts hends hscans
  induction h generalizing depth rest ts with
  | null =>
    have hword : Scans (['n', 'u', 'l', 'l'] ++ rest) (.null :: ts) := Scans.token rfl rfl hscans
    exact hword
  | bool b =>
    cases b with
    | false =>
      have hword : Scans (['f', 'a', 'l', 's', 'e'] ++ rest) (.bool false :: ts) := Scans.token rfl rfl hscans
      exact hword
    | true =>
      have hword : Scans (['t', 'r', 'u', 'e'] ++ rest) (.bool true :: ts) := Scans.token rfl rfl hscans
      exact hword
  | ofNat n => exact scans_toDigits n hends hscans
  | string text => exact scans_quote text hscans
  | array items _ ih =>
    cases items with
    | nil => exact scans_mark (by decide) (scans_mark (by decide) hscans)
    | cons item items =>
      have hmore := scans_indentedItems (fun i hi => ih i (List.mem_cons_of_mem item hi)) (depth + 1) depth hscans
      have hitem := ih item List.mem_cons_self (depth + 1) _ _
        (endsNumber_indentedItems (endsNumber_newline depth (']' :: rest))) hmore
      rw [indented, tokens]
      simp only [List.cons_append, List.append_assoc]
      exact scans_mark (by decide) (scans_newline hitem)
  | object members _ ih =>
    cases members with
    | nil => exact scans_mark (by decide) (scans_mark (by decide) hscans)
    | cons m members =>
      have hmore := scans_indentedMembers (fun m' hm' => ih m' (List.mem_cons_of_mem m hm')) (depth + 1) depth hscans
      have hvalue := ih m List.mem_cons_self (depth + 1) _ _
        (endsNumber_indentedMembers (endsNumber_newline depth ('\x7d' :: rest))) hmore
      rw [indented, tokens]
      simp only [List.cons_append, List.append_assoc]
      exact scans_mark (by decide) (scans_newline (scans_name m.1 hvalue))

/-! ### Reading the tokens of a value -/

/-- The tokens of the value read as the value, with at least two steps for each of them. -/
def Reads (v : Json) : Prop :=
  ∀ fuel rest, 2 * v.tokens.length ≤ fuel → readValue fuel (v.tokens ++ rest) = some (v, rest)

/-- A value does not start with a closing bracket. -/
private theorem exists_tokens_eq (v : Json) : ∃ t ts, v.tokens = t :: ts ∧ t ≠ .closeArray := by
  cases v with
  | null => exact ⟨_, _, rfl, by decide⟩
  | bool b => exact ⟨_, _, rfl, by simp⟩
  | number literal => exact ⟨_, _, rfl, by simp⟩
  | string text => exact ⟨_, _, rfl, by simp⟩
  | unpaired => exact ⟨_, _, rfl, by simp⟩
  | array items => cases items <;> exact ⟨_, _, by rw [tokens], by decide⟩
  | object members => cases members <;> exact ⟨_, _, by rw [tokens], by decide⟩

private theorem length_tokens_pos (v : Json) : 0 < v.tokens.length := by
  obtain ⟨t, ts, htokens, -⟩ := v.exists_tokens_eq
  rw [htokens]
  exact Nat.succ_pos _

private theorem reads_of_succ {v : Json} (h : ∀ fuel rest, 2 * v.tokens.length ≤ fuel + 1 →
    readValue (fuel + 1) (v.tokens ++ rest) = some (v, rest)) : v.Reads := by
  rintro (_ | fuel) rest hfuel
  · have := v.length_tokens_pos
    omega
  · exact h fuel rest hfuel

private theorem readItems_tokens {item : Json} {items : List Json} (hitem : item.Reads) (hitems : ∀ i ∈ items, i.Reads)
    {fuel : Nat} (hfuel : 2 * (item.tokens.length + (tokensOfItems items).length) ≤ fuel) (rest : List JsonToken) :
    readItems fuel (item.tokens ++ (tokensOfItems items ++ rest)) = some (item :: items, rest) := by
  -- the tokens of an item pay for reading it, the comma or bracket behind it for the step to the next
  induction items generalizing item fuel with
  | nil =>
    obtain _ | fuel := fuel
    · simp [tokensOfItems] at hfuel
    · rw [readItems, hitem fuel _ (by simp [tokensOfItems] at hfuel; omega)]
      rfl
  | cons next items ih =>
    have hpos := next.length_tokens_pos
    simp only [tokensOfItems, List.length_cons, List.length_append] at hfuel
    obtain _ | fuel := fuel
    · omega
    · have hmore : readItems fuel (next.tokens ++ (tokensOfItems items ++ rest)) = some (next :: items, rest) :=
        ih (hitems next List.mem_cons_self) (fun i hi => hitems i (List.mem_cons_of_mem next hi)) (by omega)
      rw [readItems, hitem fuel _ (by omega), tokensOfItems, List.cons_append, List.append_assoc]
      dsimp only
      rw [hmore, Option.map_some]

private theorem readMembers_tokens (name : String) {value : Json} {members : List (String × Json)}
    (hvalue : value.Reads) (hmembers : ∀ m ∈ members, m.2.Reads) {fuel : Nat}
    (hfuel : 2 * (value.tokens.length + (tokensOfMembers members).length) ≤ fuel) (rest : List JsonToken) :
    readMembers fuel (.string (some name) :: .colon :: (value.tokens ++ (tokensOfMembers members ++ rest))) =
      some (((name, value) :: members).map fun m => (some m.1, m.2), rest) := by
  induction members generalizing name value fuel with
  | nil =>
    obtain _ | fuel := fuel
    · simp [tokensOfMembers] at hfuel
    · rw [readMembers, hvalue fuel _ (by simp [tokensOfMembers] at hfuel; omega)]
      rfl
  | cons next members ih =>
    obtain ⟨name', value'⟩ := next
    have hvalue' : value'.Reads := hmembers _ List.mem_cons_self
    simp only [tokensOfMembers, List.length_cons, List.length_append] at hfuel
    obtain _ | fuel := fuel
    · omega
    · have hmore : readMembers fuel
          (.string (some name') :: .colon :: (value'.tokens ++ (tokensOfMembers members ++ rest))) =
          some (((name', value') :: members).map fun m => (some m.1, m.2), rest) :=
        ih name' hvalue' (fun m hm => hmembers m (List.mem_cons_of_mem _ hm)) (by omega)
      rw [readMembers, hvalue fuel _ (by omega), tokensOfMembers]
      simp only [List.cons_append, List.append_assoc]
      rw [hmore]
      rfl

private theorem ofMembers_map_some (members : List (String × Json)) :
    ofMembers (members.map fun m => (some m.1, m.2)) = object members := by
  have hnamed : (members.map fun m => (some m.1, m.2)).mapM (fun m : Option String × Json =>
      m.1.map fun name => (name, m.2)) = some members := by
    induction members with
    | nil => rfl
    | cons m members ih => simp [ih]
  rw [ofMembers, hnamed]

private theorem readValue_openArray (fuel : Nat) {ts : List JsonToken} (h : ∀ t ∈ ts.head?, t ≠ .closeArray) :
    readValue (fuel + 1) (.openArray :: ts) = (readItems fuel ts).map fun p => (array p.1, p.2) := by
  cases ts with
  | nil => rfl
  | cons t ts => cases t <;> first | rfl | exact absurd rfl (h _ rfl)

/-- The tokens of a plain value read as the value. -/
theorem IsPlain.reads {v : Json} (h : v.IsPlain) : v.Reads := by
  induction h with
  | null | bool | ofNat | string => exact reads_of_succ fun _ _ _ => rfl
  | array items _ ih =>
    refine reads_of_succ fun fuel rest hfuel => ?_
    cases items with
    | nil => rfl
    | cons item items =>
      obtain ⟨t, ts, htokens, hopen⟩ := item.exists_tokens_eq
      rw [tokens, List.length_cons, List.length_append] at hfuel
      have hitems := readItems_tokens (ih item List.mem_cons_self) (fun i hi => ih i (List.mem_cons_of_mem item hi))
        (show _ ≤ fuel by omega) rest
      rw [tokens, List.cons_append, List.append_assoc, readValue_openArray fuel, hitems, Option.map_some]
      rw [htokens]
      rintro _ ⟨⟩
      exact hopen
  | object members _ ih =>
    refine reads_of_succ fun fuel rest hfuel => ?_
    cases members with
    | nil => rfl
    | cons m members =>
      rw [tokens, List.length_cons, List.length_cons, List.length_cons, List.length_append] at hfuel
      have hmembers := readMembers_tokens m.1 (ih m List.mem_cons_self)
        (fun m' hm' => ih m' (List.mem_cons_of_mem m hm')) (show _ ≤ fuel by omega) rest
      rw [tokens]
      simp only [List.cons_append, List.append_assoc]
      rw [readValue, hmembers, Option.map_some]
      · dsimp only
        rw [ofMembers_map_some]
      · rintro _ ⟨⟩

/-- The indented text of a plain value, with or without a line break after it, reads as the value. -/
theorem IsPlain.read?_indented {v : Json} (h : v.IsPlain) {blanks : List Char}
    (hblanks : ∀ c ∈ blanks, isJsonBlank c = true) : read? (v.indented 0 ++ blanks) = some v := by
  -- a number at the end of the text is followed by nothing or by a blank
  have hends : EndsNumber blanks := by
    cases blanks with
    | nil => exact endsNumber_nil
    | cons c rest => exact endsNumber_of_isJsonBlank (hblanks c List.mem_cons_self) rest
  have hscans : Scans blanks [] := by simpa using scans_nil.blanks hblanks
  have hall := (h.scansIndented 0 blanks [] hends hscans).scanAll
  rw [List.append_nil] at hall
  have hread := h.reads (2 * v.tokens.length + 1) [] (Nat.le_succ _)
  rw [List.append_nil] at hread
  simp [read?, hall, hread]

end IndentLint.Json
