import Mathlib.Data.List.TakeDrop
import WordMachine.Json.Value
import WordMachine.Proofs.Text.Numeral

/-!
# Printed values are cut into their tokens

The tokens of a value are known without its text.  A printed value is cut into them in front
of everything that a printer puts after a value; blanks between tokens do not matter.

## Main definitions

* `Json.Cuts` — a text and its tokens, whatever the budget
* `Json.Written` — a text in front of others that is cut into given tokens
* `Json.Value.tokens` — the tokens of a value
* `Json.Value.Plain` — values whose numbers are decimal numerals

## Main results

* `Json.scanString_quoted`, `Json.decodePieces_map_ofChar` — strings survive their escapes
* `Json.Value.written_prettyAt` — a printed value is cut into its tokens
* `Json.Value.tokens_pretty`
-/

namespace WordMachine.Json

/-! ## Strings -/

/-- A character as a piece of a printed string: control characters are written as units. -/
def Piece.ofChar (c : Char) : Piece := if c.toNat < 0x20 then .unit c.toNat else .char c

private theorem hexUnit?_hexDigit {n : Nat} (h : n < 256) :
    hexUnit? '0' '0' (Text.hexDigit (n / 16)) (Text.hexDigit (n % 16)) = some n := by
  have hhigh : Text.digitValue? 16 (Text.hexDigit (n / 16)) = some (n / 16) :=
    Text.digitValue?_digitChar (Nat.le_refl 16) (by omega)
  have hlow : Text.digitValue? 16 (Text.hexDigit (n % 16)) = some (n % 16) :=
    Text.digitValue?_digitChar (Nat.le_refl 16) (Nat.mod_lt n (by decide))
  have hzero : Text.digitValue? 16 '0' = some 0 := rfl
  rw [hexUnit?, hhigh, hlow, hzero]
  simp only [Option.bind_eq_bind, Option.bind_some, Option.pure_def, Option.some.injEq]
  omega

/-- A printed character is one piece of its string. -/
theorem scanString_escape {c : Char} {text rest : List Char} {pieces : List Piece}
    (h : scanString text = some (pieces, rest)) :
    scanString (Value.escape c ++ text) = some (Piece.ofChar c :: pieces, rest) := by
  by_cases hquote : c = '"'
  · subst hquote
    show scanString ('\\' :: '"' :: text) = _
    rw [scanString, h]
    · rfl
    · simp
  · by_cases hslash : c = '\\'
    · subst hslash
      show scanString ('\\' :: '\\' :: text) = _
      rw [scanString, h]
      · rfl
      · simp
    · rw [Value.escape, if_neg hquote, if_neg hslash, Piece.ofChar]
      split
      · next hcontrol =>
          show scanString ('\\' :: 'u' :: '0' :: '0' :: _ :: _ :: text) = _
          rw [scanString, hexUnit?_hexDigit (by omega), h]
          rfl
      · next hplain =>
          show scanString (c :: text) = _
          rw [scanString, if_neg (by simp [hslash, hplain]), h]
          · rfl
          · simpa using hquote
          · simp [hslash]
          · simp [hslash]

/-- A printed string ends at its closing quote, and its characters are its pieces. -/
theorem scanString_quoted (chars rest : List Char) :
    scanString (chars.flatMap Value.escape ++ '"' :: rest)
      = some (chars.map Piece.ofChar, rest) := by
  induction chars with
  | nil => rfl
  | cons c chars ih =>
      rw [List.flatMap_cons, List.append_assoc, List.map_cons]
      exact scanString_escape ih

private theorem decodePieces_ofChar (c : Char) (pieces : List Piece) :
    decodePieces (Piece.ofChar c :: pieces) = (decodePieces pieces).map (c :: ·) := by
  rw [Piece.ofChar]
  split
  · next hcontrol =>
      have hhigh : isHighHalf c.toNat = false := by
        simp only [isHighHalf, Bool.and_eq_false_iff, decide_eq_false_iff_not]
        omega
      have hlow : isLowHalf c.toNat = false := by
        simp only [isLowHalf, Bool.and_eq_false_iff, decide_eq_false_iff_not]
        omega
      match pieces with
      | [] => simp [decodePieces, hhigh, hlow]
      | .char d :: rest => simp [decodePieces, hhigh, hlow]
      | .unit low :: rest => simp [decodePieces, hhigh, hlow]
  · rfl

/-- A string has the characters that its printed form was made of. -/
theorem decodePieces_map_ofChar (chars : List Char) :
    decodePieces (chars.map Piece.ofChar) = some chars := by
  induction chars with
  | nil => rfl
  | cons c chars ih => rw [List.map_cons, decodePieces_ofChar, ih, Option.map_some]

/-! ## Numbers -/

/-- What a printer puts after a value: nothing, or something that no number goes on with. -/
def Ends : List Char → Prop
  | [] => True
  | c :: _ => c = ',' ∨ c = '\n'

private theorem isDigit_of_mem_toDigits {n : Nat} {c : Char} (h : c ∈ Nat.toDigits 10 n) :
    isDigit c = true :=
  Nat.isDigit_of_mem_toDigits (by decide) (by decide) h

/-- Only the numeral of zero starts with a zero. -/
theorem eq_zero_of_toDigits {n : Nat} {rest : List Char}
    (h : Nat.toDigits 10 n = '0' :: rest) : n = 0 := by
  have hdigit : ∀ d, d < 10 → Nat.digitChar d = '0' → d = 0 := by decide
  induction n using Nat.strongRecOn generalizing rest with
  | ind n ih =>
      by_cases hn : n < 10
      · rw [Nat.toDigits_of_lt_base hn] at h
        exact hdigit n hn (List.cons.inj h).1
      · have hle : 10 ≤ n := Nat.not_lt.mp hn
        rw [Nat.toDigits_of_base_le (by decide) hle] at h
        obtain ⟨hnil, -⟩ | ⟨rest', hcons, -⟩ := List.append_eq_cons_iff.mp h
        · exact absurd hnil Nat.toDigits_ne_nil
        · have hzero := ih (n / 10) (Nat.div_lt_self (by omega) (by decide)) hcons
          omega

private theorem not_isDigit_of_ends {c : Char} {rest : List Char} (h : Ends (c :: rest)) :
    isDigit c = false := by
  obtain rfl | rfl := h
  · rfl
  · rfl

/-- A decimal numeral is a whole number up to its end. -/
theorem scanWhole_toDigits {rest : List Char} (hrest : Ends rest) (n : Nat) :
    scanWhole (Nat.toDigits 10 n ++ rest) = some (Nat.toDigits 10 n, rest) := by
  have hspan : (Nat.toDigits 10 n ++ rest).span isDigit = (Nat.toDigits 10 n, rest) := by
    have htake : rest.takeWhile isDigit = [] ∧ rest.dropWhile isDigit = rest := by
      match rest with
      | [] => exact ⟨rfl, rfl⟩
      | c :: rest => simp [not_isDigit_of_ends hrest]
    rw [List.span_eq_takeWhile_dropWhile,
      List.takeWhile_append_of_pos fun c hc => isDigit_of_mem_toDigits hc,
      List.dropWhile_append_of_pos fun c hc => isDigit_of_mem_toDigits hc, htake.1, htake.2,
      List.append_nil]
  have hdigits : scanDigits (Nat.toDigits 10 n ++ rest) = some (Nat.toDigits 10 n, rest) := by
    rw [scanDigits, hspan]
    simp [Nat.toDigits_ne_nil]
  match hchars : Nat.toDigits 10 n with
  | [] => exact absurd hchars Nat.toDigits_ne_nil
  | c :: chars =>
      by_cases hzero : c = '0'
      · subst hzero
        rw [eq_zero_of_toDigits hchars] at hchars
        cases hchars
        rfl
      · rw [hchars, List.cons_append] at hdigits
        rw [List.cons_append, scanWhole, hdigits]
        simpa using hzero

/-- A decimal numeral is a number up to its end. -/
theorem scanUnsigned_toDigits {rest : List Char} (hrest : Ends rest) (n : Nat) :
    scanUnsigned (Nat.toDigits 10 n ++ rest) = some (Nat.toDigits 10 n, rest) := by
  have hfraction : scanFraction rest = some ([], rest) := by
    match rest with
    | [] => rfl
    | c :: rest => obtain rfl | rfl := hrest <;> rfl
  have hexponent : scanExponent rest = some ([], rest) := by
    match rest with
    | [] => rfl
    | c :: rest => obtain rfl | rfl := hrest <;> rfl
  rw [scanUnsigned, scanWhole_toDigits hrest]
  simp [hfraction, hexponent]

private theorem isGap_of_isDigit {c : Char} (hc : isDigit c = true) : isGap c = false := by
  have hne {d : Char} (hd : isDigit d = false) : (c == d) = false := by
    rw [beq_eq_false_iff_ne]
    rintro rfl
    rw [hc] at hd
    cases hd
  rw [isGap, hne rfl, hne rfl, hne rfl, hne rfl]
  rfl

/-- A token that starts with a digit is a number. -/
theorem scanToken_of_isDigit {c : Char} (hc : isDigit c = true) (rest : List Char) :
    scanToken (c :: rest)
      = (scanUnsigned (c :: rest)).map fun (literal, rest) => (.number literal, rest) := by
  rw [scanToken]
  · rw [scanNumber]
    rintro _ h
    cases h
    cases hc
  all_goals
    rintro _ h
    cases h
    cases hc

private theorem scanToken_toDigits {rest : List Char} (hrest : Ends rest) (n : Nat) :
    scanToken (Nat.toDigits 10 n ++ rest) = some (.number (Nat.toDigits 10 n), rest) := by
  have hscan := scanUnsigned_toDigits hrest n
  match hchars : Nat.toDigits 10 n with
  | [] => exact absurd hchars Nat.toDigits_ne_nil
  | c :: chars =>
      have hc : isDigit c = true := isDigit_of_mem_toDigits (by rw [hchars]; exact .head _)
      rw [hchars] at hscan
      rw [List.cons_append, scanToken_of_isDigit hc, ← List.cons_append, hscan, Option.map_some]

/-! ## Tokens in a row -/

/-- A text is cut into the given tokens, for every budget of at least its length. -/
def Cuts (text : List Char) (toks : List Token) : Prop :=
  ∀ budget, text.length ≤ budget → tokensWithin budget text = toks

private theorem Cuts.tokens_eq {text : List Char} {toks : List Token} (h : Cuts text toks) :
    tokens text = toks :=
  h text.length (Nat.le_refl _)

private theorem Cuts.nil : Cuts [] [] := by
  intro budget _
  cases budget <;> rfl

/-- A blank in front does not matter. -/
theorem Cuts.gap {c : Char} (hc : isGap c = true) {text : List Char} {toks : List Token}
    (h : Cuts text toks) : Cuts (c :: text) toks := by
  intro budget hbudget
  match budget with
  | budget + 1 =>
      have htext := h (budget + 1) (Nat.le_of_succ_le hbudget)
      rw [tokensWithin, List.dropWhile_cons_of_pos hc]
      rwa [tokensWithin] at htext

private theorem Cuts.gaps {gap : List Char} (hgap : ∀ c ∈ gap, isGap c = true) {text : List Char}
    {toks : List Token} (h : Cuts text toks) : Cuts (gap ++ text) toks := by
  induction gap with
  | nil => exact h
  | cons c gap ih =>
      obtain ⟨hc, hgap⟩ := List.forall_mem_cons.mp hgap
      exact .gap hc (ih hgap)

/-- A token in front is cut off. -/
theorem Cuts.token {c : Char} (hc : isGap c = false) {text rest : List Char} {token : Token}
    {toks : List Token} (hscan : scanToken (c :: text) = some (token, rest))
    (hsuffix : rest <:+ text) (h : Cuts rest toks) : Cuts (c :: text) (token :: toks) := by
  intro budget hbudget
  match budget with
  | budget + 1 =>
      have hlength : text.length ≤ budget := Nat.le_of_succ_le_succ hbudget
      have hrest := h budget (hsuffix.length_le.trans hlength)
      rw [tokensWithin, List.dropWhile_cons_of_neg (by simp [hc])]
      dsimp only
      rw [hscan]
      dsimp only
      rw [hrest]

/-- A sign that is a token of its own. -/
structure Sign (c : Char) (token : Token) : Prop where
  solid : isGap c = false
  scans : ∀ rest, scanToken (c :: rest) = some (token, rest)

private theorem sign_openRecord : Sign '{' .openRecord := ⟨rfl, fun _ => rfl⟩

private theorem sign_closeRecord : Sign '}' .closeRecord := ⟨rfl, fun _ => rfl⟩

private theorem sign_openList : Sign '[' .openList := ⟨rfl, fun _ => rfl⟩

private theorem sign_closeList : Sign ']' .closeList := ⟨rfl, fun _ => rfl⟩

private theorem sign_colon : Sign ':' .colon := ⟨rfl, fun _ => rfl⟩

private theorem sign_comma : Sign ',' .comma := ⟨rfl, fun _ => rfl⟩

private theorem Cuts.sign {c : Char} {token : Token} (hsign : Sign c token) {rest : List Char}
    {toks : List Token} (h : Cuts rest toks) : Cuts (c :: rest) (token :: toks) :=
  Cuts.token hsign.solid (hsign.scans rest) List.suffix_rfl h

/-- The token of a string. -/
def Token.ofString (value : String) : Token := .text (value.toList.map Piece.ofChar)

private theorem Cuts.quoted (value : String) {rest : List Char} {toks : List Token}
    (h : Cuts rest toks) :
    Cuts ((Value.quoted value).toList ++ rest) (.ofString value :: toks) := by
  have hscan : scanToken ('"' :: (value.toList.flatMap Value.escape ++ '"' :: rest))
      = some (.ofString value, rest) := by
    rw [scanToken, scanString_quoted]
    rfl
  rw [Value.quoted, String.toList_ofList, List.append_assoc]
  have hsuffix : rest <:+ value.toList.flatMap Value.escape ++ '"' :: rest :=
    (List.suffix_cons '"' rest).trans (List.suffix_append _ _)
  exact Cuts.token rfl hscan hsuffix h

/-- A text that is cut into the given tokens in front of everything that may follow a value. -/
def Written (text : List Char) (toks : List Token) : Prop :=
  ∀ rest more, Ends rest → Cuts rest more → Cuts (text ++ rest) (toks ++ more)

private theorem written_quoted (value : String) :
    Written (Value.quoted value).toList [.ofString value] :=
  fun _ _ _ h => Cuts.quoted value h

private theorem written_null : Written "null".toList [.null] := by
  intro rest more _ h
  have hscan : scanToken ('n' :: ('u' :: 'l' :: 'l' :: rest)) = some (.null, rest) := rfl
  exact Cuts.token rfl hscan (List.suffix_append ['u', 'l', 'l'] rest) h

private theorem written_bool (b : Bool) : Written (Value.bool b).compact.toList [.bool b] := by
  intro rest more _ h
  cases b with
  | true =>
      have hscan : scanToken ('t' :: ('r' :: 'u' :: 'e' :: rest)) = some (.bool true, rest) := rfl
      exact Cuts.token rfl hscan (List.suffix_append ['r', 'u', 'e'] rest) h
  | false =>
      have hscan : scanToken ('f' :: ('a' :: 'l' :: 's' :: 'e' :: rest))
          = some (.bool false, rest) := rfl
      exact Cuts.token rfl hscan (List.suffix_append ['a', 'l', 's', 'e'] rest) h

private theorem written_decimal (n : Nat) :
    Written (Text.decimal n).toList [.number (Nat.toDigits 10 n)] := by
  intro rest more hends h
  have hscan := scanToken_toDigits hends n
  rw [Text.decimal, String.toList_ofList]
  match hchars : Nat.toDigits 10 n with
  | [] => exact absurd hchars Nat.toDigits_ne_nil
  | c :: chars =>
      have hc : isDigit c = true := isDigit_of_mem_toDigits (by rw [hchars]; exact .head _)
      have hsolid : isGap c = false := isGap_of_isDigit hc
      rw [hchars] at hscan
      exact Cuts.token hsolid hscan (List.suffix_append chars rest) h

/-! ## Blocks -/

private theorem lineBreak_toList (depth : Nat) :
    (Value.lineBreak depth).toList = '\n' :: List.replicate (2 * depth) ' ' := by
  simp only [Value.lineBreak, String.toList_append, String.toList_ofList]
  rfl

private theorem Cuts.lineBreak (depth : Nat) {text : List Char} {toks : List Token}
    (h : Cuts text toks) : Cuts ((Value.lineBreak depth).toList ++ text) toks := by
  rw [lineBreak_toList]
  refine .gaps ?_ h
  simp [List.mem_replicate, isGap]

private theorem ends_lineBreak (depth : Nat) (text : List Char) :
    Ends ((Value.lineBreak depth).toList ++ text) := by
  rw [lineBreak_toList]
  exact .inr rfl

/-- Items on lines of their own are cut into their tokens and commas. -/
theorem cuts_items {depth : Nat} {rest : List Char} {more : List Token} (hends : Ends rest)
    (hrest : Cuts rest more) {item : String} {items : List String} {toks : List Token}
    {tokss : List (List Token)} (hitem : Written item.toList toks)
    (hitems : List.Forall₂ (fun item toks => Written item.toList toks) items tokss) :
    Cuts (((",".toList ++ (Value.lineBreak depth).toList).intercalate
        (item.toList :: items.map String.toList)) ++ rest)
      ([Token.comma].intercalate (toks :: tokss) ++ more) := by
  induction hitems generalizing item toks with
  | nil =>
      simp only [List.map_nil, List.intercalate_singleton]
      exact hitem _ _ hends hrest
  | cons hnext hitems ih =>
      rw [List.map_cons, List.intercalate_cons_cons, List.intercalate_cons_cons]
      simp only [List.append_assoc]
      refine hitem _ _ (.inl rfl) ?_
      exact .sign sign_comma (.lineBreak depth (ih hnext))

/-- A block is cut into its brackets and the tokens of its items. -/
theorem written_block {depth : Nat} {opening closing : Char} {openToken closeToken : Token}
    (hopen : Sign opening openToken) (hclose : Sign closing closeToken) {items : List String}
    {tokss : List (List Token)}
    (hitems : List.Forall₂ (fun item toks => Written item.toList toks) items tokss) :
    Written (Value.block depth (String.singleton opening) (String.singleton closing) items).toList
      (openToken :: ([Token.comma].intercalate tokss ++ [closeToken])) := by
  intro rest more _ hrest
  cases hitems with
  | nil =>
      rw [Value.block, if_pos List.isEmpty_nil]
      simp only [String.toList_append, String.toList_singleton, List.intercalate_nil,
        List.nil_append, List.cons_append]
      exact .sign hopen (.sign hclose hrest)
  | cons hitem hitems =>
      rw [Value.block, if_neg (by simp)]
      simp only [String.toList_append, String.toList_singleton, String.toList_intercalate,
        List.append_assoc, List.cons_append, List.nil_append, List.map_cons]
      refine .sign hopen (.lineBreak _ ?_)
      exact cuts_items (ends_lineBreak _ _) (.lineBreak _ (.sign hclose hrest)) hitem hitems

/-! ## Values -/

namespace Value

mutual

/-- The tokens of a value. -/
def tokens : Value → List Token
  | .null => [.null]
  | .bool b => [.bool b]
  | .number literal => [.number literal.toList]
  | .text value => [.ofString value]
  | .list items => .openList :: ([.comma].intercalate (itemTokens items) ++ [.closeList])
  | .record fields => .openRecord :: ([.comma].intercalate (fieldTokens fields) ++ [.closeRecord])

/-- The tokens of each item. -/
def itemTokens : List Value → List (List Token)
  | [] => []
  | v :: vs => v.tokens :: itemTokens vs

/-- The tokens of each field. -/
def fieldTokens : List (String × Value) → List (List Token)
  | [] => []
  | (key, v) :: vs => (.ofString key :: .colon :: v.tokens) :: fieldTokens vs

end

mutual

/-- All numbers in a value are decimal numerals. -/
def Plain : Value → Prop
  | .number literal => ∃ n, literal = Text.decimal n
  | .list items => PlainItems items
  | .record fields => PlainFields fields
  | _ => True

/-- All numbers in the items are decimal numerals. -/
def PlainItems : List Value → Prop
  | [] => True
  | v :: vs => v.Plain ∧ PlainItems vs

/-- All numbers in the fields are decimal numerals. -/
def PlainFields : List (String × Value) → Prop
  | [] => True
  | (_, v) :: vs => v.Plain ∧ PlainFields vs

end

mutual

/-- A printed value is cut into its tokens. -/
theorem written_prettyAt (depth : Nat) :
    ∀ v : Value, v.Plain → Written (v.prettyAt depth).toList v.tokens
  | .null, _ => written_null
  | .bool b, _ => written_bool b
  | .number literal, hplain => by
      obtain ⟨n, rfl⟩ := hplain
      simp only [tokens, Text.decimal, String.toList_ofList]
      exact written_decimal n
  | .text value, _ => written_quoted value
  | .list items, hplain => written_block sign_openList sign_closeList (written_items _ items hplain)
  | .record fields, hplain =>
      written_block sign_openRecord sign_closeRecord (written_fields _ fields hplain)

private theorem written_items (depth : Nat) :
    ∀ items : List Value, PlainItems items →
      List.Forall₂ (fun item toks => Written item.toList toks) (prettyItems depth items)
        (itemTokens items)
  | [], _ => .nil
  | v :: vs, hplain => .cons (written_prettyAt depth v hplain.1) (written_items depth vs hplain.2)

private theorem written_fields (depth : Nat) :
    ∀ fields : List (String × Value), PlainFields fields →
      List.Forall₂ (fun item toks => Written item.toList toks) (prettyFields depth fields)
        (fieldTokens fields)
  | [], _ => .nil
  | (key, v) :: vs, hplain => by
      refine .cons ?_ (written_fields depth vs hplain.2)
      intro rest more hends hrest
      have hvalue := written_prettyAt depth v hplain.1 rest more hends hrest
      simp only [String.toList_append, List.append_assoc]
      exact .quoted key (.sign sign_colon (.gap rfl hvalue))

end

/-- The tokens of a printed value are those of the value. -/
theorem tokens_pretty {v : Value} (hplain : v.Plain) : Json.tokens v.pretty.toList = v.tokens := by
  have h := written_prettyAt 0 v hplain [] [] trivial Cuts.nil
  rw [List.append_nil, List.append_nil] at h
  exact h.tokens_eq

end Value

end WordMachine.Json
