import WordMachine.Proofs.Computation
import WordMachine.Proofs.Json.Token

/-!
# Readers take the tokens of a value

A reader that takes the tokens of a value takes exactly those, whatever comes after them, so
that readers of parts make up readers of lists and records.

## Main definitions

* `Json.Reads` — a reader takes given tokens as a given value
* `Json.ReadsEntry` — a field of a record is read into a draft

## Main results

* `Json.reads_text`, `Json.reads_size` — strings and 64-bit integers
* `Json.reads_listOf` — lists
* `Json.reads_record` — records
* `Json.read_pretty` — a whole printed value
-/

namespace WordMachine.Json

variable {α β ρ : Type}

/-- The reader takes exactly these tokens, as this value. -/
def Reads (reader : Reader α) (toks : List Token) (value : α) : Prop :=
  ∀ rest, reader (toks ++ rest) = .ok (value, rest)

/-- A printed value is read from its text if it is read from its tokens. -/
theorem read_pretty {reader : Reader α} {v : Value} {value : α} (hplain : v.Plain)
    (h : Reads reader v.tokens value) : read reader v.pretty.toList = .ok value := by
  have hread := h []
  rw [List.append_nil] at hread
  rw [read, Value.tokens_pretty hplain, hread]

/-! ## Single values -/

theorem reads_text (value : String) : Reads text [.ofString value] value.toList := by
  intro rest
  show text (.ofString value :: rest) = _
  rw [Token.ofString, text, decodePieces_map_ofChar]

private theorem reads_naturalBelow {n bound : Nat} (h : n < bound) :
    Reads (naturalBelow bound) [.number (Nat.toDigits 10 n)] n := by
  intro rest
  have hvalue : natural? (Nat.toDigits 10 n) = some n := by
    rw [natural?, if_neg (by simp [Nat.toDigits_ne_nil]), Text.decimalFrom?_eq,
      Text.valueFrom?_toDigits (by decide) (by decide), Nat.zero_mul, Nat.zero_add]
  show naturalBelow bound (.number (Nat.toDigits 10 n) :: rest) = _
  rw [naturalBelow, hvalue]
  exact if_pos h

theorem reads_size (n : UInt64) : Reads size (Value.nat n.toNat).tokens n := by
  intro rest
  have hread := reads_naturalBelow n.toNat_lt rest
  rw [Value.nat, Value.tokens, Text.decimal, String.toList_ofList, size]
  refine except_bind_eq_ok_iff.mpr ⟨_, hread, ?_⟩
  simp [pure, Except.pure]

/-! ## Lists -/

/-- There are more tokens than items that start with a comma. -/
theorem length_lt_separated (toks : β → List Token) (token : Token)
    (rest : List Token) (bs : List β) :
    bs.length < (bs.flatMap (fun b => .comma :: toks b) ++ token :: rest).length := by
  induction bs with
  | nil => simp
  | cons b bs ih =>
      simp only [List.flatMap_cons, List.length_append, List.length_cons] at ih ⊢
      omega

/-- The items after the first one are read one after the other. -/
theorem itemsWithin_of_reads {item : Reader α} {toks : β → List Token} {value : β → α}
    (hitem : ∀ b, Reads item (toks b) (value b)) (bs : List β) (rest : List Token) {budget : Nat}
    (hbudget : bs.length < budget) :
    itemsWithin item budget
        (bs.flatMap (fun b => .comma :: toks b) ++ .closeList :: rest)
      = .ok (bs.map value, rest) := by
  induction bs generalizing budget with
  | nil =>
      match budget with
      | budget + 1 => rfl
  | cons b bs ih =>
      match budget with
      | budget + 1 =>
          rw [List.flatMap_cons, List.append_assoc, List.cons_append, itemsWithin]
          refine except_bind_eq_ok_iff.mpr ⟨_, hitem b _, ?_⟩
          exact except_bind_eq_ok_iff.mpr ⟨_, ih (Nat.lt_of_succ_lt_succ hbudget), rfl⟩

private theorem intercalate_cons (separator toks : List Token) (tokss : List (List Token)) :
    separator.intercalate (toks :: tokss) = toks ++ tokss.flatMap (separator ++ ·) := by
  induction tokss generalizing toks with
  | nil => simp
  | cons next tokss ih =>
      rw [List.intercalate_cons_cons, ih, List.flatMap_cons, List.append_assoc, List.append_assoc]

/-- A bracket that is not closed at once opens a list with a first item. -/
theorem listOf_cons {item : Reader α} {token : Token} (h : token ≠ .closeList)
    (rest : List Token) :
    listOf item (.openList :: token :: rest) = (do
      let (value, rest) ← item (token :: rest)
      let (values, rest) ← itemsWithin item rest.length rest
      return (value :: values, rest)) := by
  rw [listOf]
  rintro _ hcons
  exact h (List.cons.inj hcons).1

/-- A list is read item by item.  No item starts with the bracket that ends the list. -/
theorem reads_listOf {item : Reader α} {toks : β → List Token} {value : β → α}
    (hitem : ∀ b, Reads item (toks b) (value b))
    (hstart : ∀ b, ∃ token more, toks b = token :: more ∧ token ≠ .closeList) (bs : List β) :
    Reads (listOf item) (.openList :: ([.comma].intercalate (bs.map toks) ++ [.closeList]))
      (bs.map value) := by
  intro rest
  match bs with
  | [] => rfl
  | b :: bs =>
      obtain ⟨token, more, htoken, hne⟩ := hstart b
      have hfirst := hitem b (bs.flatMap (fun b => .comma :: toks b) ++ .closeList :: rest)
      rw [List.map_cons, intercalate_cons, List.flatMap_map]
      simp only [htoken, List.cons_append, List.append_assoc, List.nil_append] at hfirst ⊢
      rw [listOf_cons hne]
      refine except_bind_eq_ok_iff.mpr ⟨_, hfirst, ?_⟩
      exact except_bind_eq_ok_iff.mpr
        ⟨_, itemsWithin_of_reads hitem bs rest (length_lt_separated toks _ _ bs), rfl⟩

/-! ## Records -/

/-- A field that a draft holds as an option is filled with the value that is read. -/
theorem reads_field {key : String} {get : ρ → Option α} {set : ρ → α → ρ} {value : Reader α}
    {draft : ρ} {toks : List Token} {v : α} (hvalue : Reads value toks v) :
    Reads ((Field.of key get set value).read draft) toks (set draft v) :=
  fun rest => except_bind_eq_ok_iff.mpr ⟨_, hvalue rest, rfl⟩

/-- An entry is read as the field of its key, if that is still missing. -/
theorem reads_entry {fields : List (Field ρ)} {field : Field ρ} {key : String} {draft draft' : ρ}
    {toks : List Token} (hfield : fields.find? (·.key == key) = some field)
    (hmissing : field.present draft = false) (hread : Reads (field.read draft) toks draft') :
    Reads (readEntry fields draft) (.ofString key :: .colon :: toks) draft' := by
  intro rest
  have hkey : readKey fields key draft (toks ++ rest) = .ok (draft', rest) := by
    rw [readKey, hfield]
    dsimp only
    rw [if_neg (by simp [hmissing])]
    exact hread rest
  refine except_bind_eq_ok_iff.mpr ⟨_, reads_text key _, ?_⟩
  simpa using hkey

/-- Entries are read into a draft one after the other. -/
inductive ReadsEntries (fields : List (Field ρ)) : ρ → List (List Token) → ρ → Prop where
  | nil (draft : ρ) : ReadsEntries fields draft [] draft
  | cons {draft draft' draft'' : ρ} {toks : List Token} {tokss : List (List Token)}
      (first : Reads (readEntry fields draft) toks draft')
      (others : ReadsEntries fields draft' tokss draft'') :
      ReadsEntries fields draft (toks :: tokss) draft''

private theorem ReadsEntries.entriesWithin {fields : List (Field ρ)} {draft draft' : ρ}
    {tokss : List (List Token)} (h : ReadsEntries fields draft tokss draft') (rest : List Token)
    {budget : Nat} (hbudget : tokss.length < budget) :
    Json.entriesWithin fields budget draft
        (tokss.flatMap (.comma :: ·) ++ .closeRecord :: rest)
      = .ok (draft', rest) := by
  induction h generalizing budget with
  | nil draft =>
      match budget with
      | budget + 1 => rfl
  | cons first others ih =>
      match budget with
      | budget + 1 =>
          rw [List.flatMap_cons, List.append_assoc]
          refine except_bind_eq_ok_iff.mpr ⟨_, first _, ?_⟩
          exact ih (Nat.lt_of_succ_lt_succ hbudget)

/-- A record is read entry by entry. -/
theorem reads_record {fields : List (Field ρ)} {empty draft : ρ} {finish : ρ → Option α}
    {key : String} {toks : List Token} {tokss : List (List Token)} {value : α}
    (hentries : ReadsEntries fields empty ((.ofString key :: toks) :: tokss) draft)
    (hfinish : finish draft = some value) :
    Reads (record fields empty finish)
      (.openRecord :: ([.comma].intercalate ((.ofString key :: toks) :: tokss) ++ [.closeRecord]))
      value := by
  intro rest
  cases hentries with
  | cons first others =>
      have hfirst := first (tokss.flatMap (.comma :: ·) ++ .closeRecord :: rest)
      have hothers := others.entriesWithin rest (length_lt_separated id .closeRecord rest tokss)
      rw [intercalate_cons]
      simp only [List.cons_append, List.append_assoc, List.nil_append]
      refine except_bind_eq_ok_iff.mpr ⟨_, hfirst, ?_⟩
      refine except_bind_eq_ok_iff.mpr ⟨_, hothers, ?_⟩
      dsimp only
      rw [hfinish]

end WordMachine.Json
