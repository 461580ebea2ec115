import WordMachine.Proofs.Assembly.Layout

/-!
# Where errors point

An error of assembling has a line and a column.  The reader of a statement computes the column
from the token at hand, at each place where it gives up; the column of a token in turn is
counted while the line is cut.  Here both are related to the text itself: a token stands in its
line where its column says, and an error points to a token that its cause speaks of.  Lines in
brackets are not cut into tokens; there the place is that of the first bracket.

One error has a column of its own.  A source that is opened out of order is reported in column
1, so that the error points to the bracket only if nothing stands before it.

## Main definitions

* `Token.StandsIn` — a token and the line around it
* `Cause.Concerns` — what a cause says of the token it was found at
* `PointsInto` — an error that points to its place in a line

## Main results

* `standsIn_of_mem_tokens` — tokens stand in their line
* `Statement.places_encodeOperand`, `places_readTokens` — errors of a statement are placed
* `errors_point_at_offending_token` — where the errors of a text point
-/

namespace WordMachine

private theorem Text.byteSize_append (first second : List Char) :
    byteSize (first ++ second) = byteSize first + byteSize second := by
  induction first with
  | nil => simp [byteSize]
  | cons c rest ih => simp only [List.cons_append, byteSize, ih, Nat.add_assoc]

namespace Assembly

/-! ## Tokens in their line -/

/-- The token is a piece of the line, at its column.  Before it there is no comment, and nothing
else that belongs to it; after it there is a separator, a comment or the end. -/
def Token.StandsIn (t : Token) (line : List Char) : Prop :=
  ∃ before after, line = before ++ t.chars ++ after ∧ t.column = Text.byteSize before + 1 ∧
    IsUnbroken t.chars ∧ '#' ∉ before ∧ (∀ c ∈ before.getLast?, isSeparator c = true) ∧
    ∀ c ∈ after.head?, isSeparator c = true ∨ c = '#'

/-- What stands in code stands in every line with that code. -/
theorem Token.StandsIn.remark {t : Token} {code remark : List Char} (h : t.StandsIn code)
    (hremark : IsRemark remark) : t.StandsIn (code ++ remark) := by
  obtain ⟨before, after, rfl, hcolumn, hword, hbefore, hlast, hafter⟩ := h
  refine ⟨before, after ++ remark, by rw [List.append_assoc], hcolumn, hword, hbefore, hlast, ?_⟩
  intro c hc
  cases after with
  | cons d rest => exact hafter c hc
  | nil =>
      cases hremark with
      | none => cases hc
      | comment =>
          cases hc
          exact .inr rfl

/-- A line that is cut up to some place: `before` is what comes before the token that is being
read, `word` what was read of it, backwards, and `start` the byte where it began. -/
structure Cut (before word : List Char) (start : Nat) : Prop where
  code : '#' ∉ before
  separated : ∀ c ∈ before.getLast?, isSeparator c = true
  unbroken : ∀ c ∈ word, isSeparator c = false ∧ c ≠ '#'
  begins : word ≠ [] → start = Text.byteSize before

namespace Cut

variable {before word : List Char} {start : Nat} {c : Char}

/-- The token that is closed stands between what comes before it and what comes after. -/
theorem standsIn_of_mem_closeToken (h : Cut before word start) {after : List Char}
    (hafter : ∀ c ∈ after.head?, isSeparator c = true ∨ c = '#') {t : Token}
    (ht : t ∈ closeToken start word) : t.StandsIn (before ++ word.reverse ++ after) := by
  cases word with
  | nil => simp [closeToken] at ht
  | cons c word =>
      obtain rfl : t = ⟨(c :: word).reverse, start + 1⟩ := by simpa [closeToken] using ht
      have hword : IsUnbroken (c :: word).reverse :=
        ⟨by simp, fun d hd => h.unbroken d (List.mem_reverse.mp hd)⟩
      exact ⟨before, after, rfl, congrArg (· + 1) (h.begins (by simp)), hword, h.code,
        h.separated, hafter⟩

/-- A separator ends the token, and belongs to what comes before the next one. -/
theorem separator (h : Cut before word start) (hc : isSeparator c = true) (hne : c ≠ '#')
    (next : Nat) : Cut (before ++ word.reverse ++ [c]) [] next where
  code := by
    have hword : '#' ∉ word.reverse := fun hmem => (h.unbroken _ (List.mem_reverse.mp hmem)).2 rfl
    simp only [List.mem_append, List.mem_singleton, not_or]
    exact ⟨⟨h.code, hword⟩, hne.symm⟩
  separated := by simp [hc]
  unbroken := List.forall_mem_nil _
  begins hnil := absurd rfl hnil

/-- Any other character belongs to the token, which begins here if nothing was read of it. -/
theorem read (h : Cut before word start) (hc : isSeparator c = false) (hne : c ≠ '#') :
    Cut before (c :: word)
      (if word.isEmpty then Text.byteSize (before ++ word.reverse) else start) where
  code := h.code
  separated := h.separated
  unbroken := List.forall_mem_cons.mpr ⟨⟨hc, hne⟩, h.unbroken⟩
  begins _ := by
    cases word with
    | nil => simp
    | cons d word => exact h.begins (by simp)

end Cut

/-- The tokens that are still to come stand in the line. -/
theorem standsIn_of_mem_tokensFrom {code : List Char} (hcode : '#' ∉ code)
    {before word : List Char} {start : Nat} (h : Cut before word start) {t : Token}
    (ht : t ∈ tokensFrom (Text.byteSize (before ++ word.reverse)) start word code) :
    t.StandsIn (before ++ word.reverse ++ code) := by
  induction code generalizing before word start with
  | nil => exact h.standsIn_of_mem_closeToken (by simp) ht
  | cons c rest ih =>
      have hne : c ≠ '#' := (List.ne_of_not_mem_cons hcode).symm
      have hrest : '#' ∉ rest := List.not_mem_of_not_mem_cons hcode
      have hnext : Text.byteSize (before ++ word.reverse) + c.utf8Size
          = Text.byteSize (before ++ word.reverse ++ [c]) := by
        rw [Text.byteSize_append _ [c]]
        rfl
      rw [tokensFrom, hnext] at ht
      split at ht
      · next hc =>
          rcases List.mem_append.mp ht with ht | ht
          · exact h.standsIn_of_mem_closeToken (by simp [hc]) ht
          · have hlater := ih hrest (h.separator hc hne _) (by simpa using ht)
            simpa using hlater
      · next hc =>
          have hlater := ih hrest (h.read (by simpa using hc) hne) (by simpa using ht)
          simpa using hlater

/-- The tokens of a line stand in it. -/
theorem standsIn_of_mem_tokens {line : List Char} {t : Token} (h : t ∈ tokens line) :
    t.StandsIn line := by
  obtain ⟨code, remark, rfl, hremark, hlaid⟩ := exists_laid line
  rw [tokens_append hremark, tokens, hlaid.codeOf_eq] at h
  have hstart : Cut [] [] 0 := ⟨by simp, by simp, by simp, by simp⟩
  have hstands : t.StandsIn ([] ++ [].reverse ++ code) :=
    standsIn_of_mem_tokensFrom hlaid.hash_not_mem hstart h
  exact hstands.remark hremark

/-! ## Errors of a statement -/

/-- What a cause says of the token it was found at: the token is of the line, its text is the
one that is quoted, and it is what the cause calls it. -/
def Cause.Concerns (line : List Token) (t : Token) : Cause → Prop
  | .malformedMarker _ | .sourceOrder .. => False
  | .arity head expected found =>
    ∃ first operands, line = first :: operands ∧ head = first.text ∧ found = operands.length ∧
      found ≠ expected ∧ t = operands[expected]?.getD first
  | .invalidNumber text error => text = t.text ∧ Word.parseChars t.chars = .error error
  | .notAByte value => t.IsWord value ∧ 256 ≤ value.toNat
  | .notASize value => t.IsWord value ∧ 2 ^ 64 ≤ value.toNat
  | .notASignedByte text => text = t.text ∧ ∀ x, ¬ t.IsSignedByte x
  | .unknownDirective name | .unknownInstruction name => line.head? = some t ∧ name = t.text
  | .poolFull => ∃ literal, t.IsWord literal
  | .laneWidth => ∃ width, t.IsSize width ∧ 65536 ≤ width.toNat
  | .unknownLogic text | .unknownMode text => text = Statement.lowered t
  | .operand _ => t ∈ line.tail

namespace Statement

/-- The tokens of a statement. -/
def tokens (s : Statement) : List Token := s.head :: s.operands

/-- A computation whose errors have the line of the statement and the column of the token that
they concern. -/
def Places {α : Type} (s : Statement) (x : Except Error α) : Prop :=
  ∀ e, x = .error e → e.line = s.number ∧
    ∃ t ∈ s.tokens, e.column = t.column ∧ e.cause.Concerns s.tokens t

variable {s : Statement} {t : Token} {α β : Type}

private theorem mem_tokens_of_mem_operands (ht : t ∈ s.operands) : t ∈ s.tokens :=
  List.mem_cons_of_mem _ ht

namespace Places

private theorem ok (v : α) : s.Places (.ok v : Except Error α) := by
  intro e h
  cases h

private theorem errorAt (ht : t ∈ s.tokens) {cause : Cause} (h : cause.Concerns s.tokens t) :
    s.Places (s.errorAt t cause : Except Error α) := by
  intro e he
  cases he
  exact ⟨rfl, t, ht, rfl, h⟩

/-- The second part has to place its errors only where the first succeeds. -/
theorem bind {x : Except Error α} {f : α → Except Error β} (hx : s.Places x)
    (hf : ∀ a, x = .ok a → s.Places (f a)) : s.Places (x >>= f) := by
  intro e h
  cases x with
  | error e' =>
      cases h
      exact hx e rfl
  | ok a => exact hf a rfl e h

end Places

private theorem places_wrongArity {expected : Nat} (h : s.operands.length ≠ expected) :
    s.Places (s.wrongArity expected : Except Error α) := by
  refine .errorAt ?_ ⟨s.head, s.operands, rfl, rfl, rfl, h, rfl⟩
  cases hoperand : s.operands[expected]? with
  | none => exact List.mem_cons_self
  | some t => exact mem_tokens_of_mem_operands (List.mem_of_getElem? hoperand)

section

variable (ht : t ∈ s.tokens)
include ht

private theorem places_word : s.Places (s.word t) := by
  unfold word
  split
  · exact .ok _
  · next error herror => exact .errorAt ht ⟨rfl, herror⟩

private theorem places_byte : s.Places (s.byte t) := by
  refine (places_word ht).bind fun value hvalue => ?_
  split
  · exact .ok _
  · next hnone =>
      exact .errorAt ht ⟨word_eq_ok_iff.mp hvalue, Word.toUInt8?_eq_none_iff.mp hnone⟩

private theorem places_size : s.Places (s.size t) := by
  refine (places_word ht).bind fun value hvalue => ?_
  split
  · exact .ok _
  · next hnone =>
      exact .errorAt ht ⟨word_eq_ok_iff.mp hvalue, Word.toUInt64?_eq_none_iff.mp hnone⟩

private theorem places_signedByte : s.Places (s.signedByte t) := by
  unfold signedByte
  split
  · exact .ok _
  · next hnone =>
      refine .errorAt ht ⟨rfl, fun x hx => ?_⟩
      rw [signedByte?_eq_some_iff.mpr hx] at hnone
      cases hnone

private theorem places_logic : s.Places (s.logic t) := by
  unfold logic
  dsimp only
  split
  · exact .ok _
  · split
    · exact .ok _
    · exact .errorAt ht rfl

private theorem places_mode : s.Places (s.mode t) := by
  unfold mode
  dsimp only
  split
  · exact .ok _
  · split
    · exact .ok _
    · split
      · exact .ok _
      · exact .errorAt ht rfl

private theorem places_laneBits : s.Places (s.laneBits t) := by
  refine (places_size ht).bind fun width hwidth => ?_
  split
  · exact .ok _
  · next hwide =>
      have hle : 65536 ≤ width.toNat := UInt64.le_iff_toNat_le.mp (UInt64.not_lt.mp hwide)
      exact .errorAt ht ⟨width, size_eq_ok_iff.mp hwidth, hle⟩

end

/-- Refusals of an operand are placed at an operand. -/
theorem places_locate (ht : t ∈ s.operands) (x : Except OperandError α) :
    s.Places (s.locate t x) := by
  cases x with
  | ok v => exact .ok v
  | error e => exact .errorAt (mem_tokens_of_mem_operands ht) ht

section

variable {first second third : Token}

private theorem places_zipOperand (h : s.operands = [first, second, third]) :
    s.Places (s.zipOperand first second third) := by
  have hmem : ∀ t ∈ [first, second, third], t ∈ s.operands := by simp [h]
  simp only [List.forall_mem_cons] at hmem
  obtain ⟨hfirst, hsecond, hthird, -⟩ := hmem
  refine (places_byte (mem_tokens_of_mem_operands hfirst)).bind fun index _ => ?_
  refine (places_laneBits (mem_tokens_of_mem_operands hsecond)).bind fun bits _ => ?_
  refine (places_byte (mem_tokens_of_mem_operands hthird)).bind fun values _ => ?_
  exact (places_locate hfirst _).bind fun zip _ => places_locate hfirst _

private theorem places_selectOperand (h : s.operands = [first, second, third]) :
    s.Places (s.selectOperand first second third) := by
  have hmem : ∀ t ∈ [first, second, third], t ∈ s.operands := by simp [h]
  simp only [List.forall_mem_cons] at hmem
  obtain ⟨hfirst, hsecond, hthird, -⟩ := hmem
  refine (places_logic (mem_tokens_of_mem_operands hfirst)).bind fun logic _ => ?_
  refine (places_mode (mem_tokens_of_mem_operands hsecond)).bind fun mode _ => ?_
  refine (places_byte (mem_tokens_of_mem_operands hthird)).bind fun count _ => ?_
  exact places_locate hthird _

private theorem places_rangeOperand (h : s.operands = [first, second]) :
    s.Places (s.rangeOperand first second) := by
  have hmem : ∀ t ∈ [first, second], t ∈ s.operands := by simp [h]
  simp only [List.forall_mem_cons] at hmem
  obtain ⟨hfirst, hsecond, -⟩ := hmem
  refine (places_byte (mem_tokens_of_mem_operands hfirst)).bind fun start _ => ?_
  refine (places_byte (mem_tokens_of_mem_operands hsecond)).bind fun stop _ => ?_
  exact (places_locate hfirst _).bind fun range _ => .ok _

end

/-- The errors of the operands of a standard instruction. -/
theorem places_encodeOperand (instruction : Instruction) :
    s.Places (encodeOperand instruction s) := by
  have hone {t : Token} (h : s.operands = [t]) : t ∈ s.operands := by simp [h]
  unfold encodeOperand
  split
  · exact .ok _
  · next hne => exact places_wrongArity (mt List.length_eq_zero_iff.mp hne)
  · next t hoperands =>
      refine (places_byte (mem_tokens_of_mem_operands (hone hoperands))).bind fun n _ => ?_
      exact (places_locate (hone hoperands) _).bind fun size _ => .ok _
  · next t hoperands =>
      refine (places_byte (mem_tokens_of_mem_operands (hone hoperands))).bind fun n _ => ?_
      exact (places_locate (hone hoperands) _).bind fun part _ => .ok _
  · next t hoperands => exact places_signedByte (mem_tokens_of_mem_operands (hone hoperands))
  · next hoperands => exact places_zipOperand hoperands
  · next hne => exact places_wrongArity (mt List.length_eq_three.mp fun ⟨a, b, c, h⟩ => hne a b c h)
  · next hoperands => exact places_selectOperand hoperands
  · next hne => exact places_wrongArity (mt List.length_eq_three.mp fun ⟨a, b, c, h⟩ => hne a b c h)
  · next hoperands => exact places_rangeOperand hoperands
  · next hne => exact places_wrongArity (mt List.length_eq_two.mp fun ⟨a, b, h⟩ => hne a b h)
  · next t hoperands _ _ _ _ _ _ _ =>
      exact places_byte (mem_tokens_of_mem_operands (hone hoperands))
  · next hne _ _ _ _ _ _ _ =>
      exact places_wrongArity (mt List.length_eq_one_iff.mp fun ⟨a, h⟩ => hne a h)

/-! ## Errors of a line -/

private theorem places_readDirective : s.Places (readDirective s) := by
  unfold readDirective
  split
  · next t hoperands =>
      have ht : t ∈ s.tokens := mem_tokens_of_mem_operands (by simp [hoperands])
      refine (places_size ht).bind fun hint _ => ?_
      split
      · exact .ok _
      · split
        · exact .ok _
        · exact .errorAt List.mem_cons_self ⟨rfl, rfl⟩
  · next hne => exact places_wrongArity (mt List.length_eq_one_iff.mp fun ⟨t, h⟩ => hne t h)

private theorem places_readValue : s.Places (readValue s) := by
  unfold readValue
  split
  · next t hoperands =>
      have ht : t ∈ s.tokens := mem_tokens_of_mem_operands (by simp [hoperands])
      exact (places_word ht).bind fun literal _ => .ok _
  · next hne => exact places_wrongArity (mt List.length_eq_one_iff.mp fun ⟨t, h⟩ => hne t h)

private theorem places_readArgument : s.Places (readArgument s) := by
  unfold readArgument
  split
  · next t hoperands =>
      have ht : t ∈ s.operands := by simp [hoperands]
      refine (places_byte (mem_tokens_of_mem_operands ht)).bind fun index _ => ?_
      exact (places_locate ht _).bind fun operand _ => .ok _
  · next hne => exact places_wrongArity (mt List.length_eq_one_iff.mp fun ⟨t, h⟩ => hne t h)

private theorem places_readPair : s.Places (readPair s) := by
  unfold readPair
  split
  · next a b hoperands =>
      have ha : a ∈ s.tokens := mem_tokens_of_mem_operands (by simp [hoperands])
      have hb : b ∈ s.tokens := mem_tokens_of_mem_operands (by simp [hoperands])
      refine (places_byte ha).bind fun opcode _ => ?_
      exact (places_byte hb).bind fun operand _ => .ok _
  · next hne => exact places_wrongArity (mt List.length_eq_two.mp fun ⟨a, b, h⟩ => hne a b h)

private theorem places_readStatement : s.Places (readStatement s) := by
  unfold readStatement
  dsimp only
  split
  · exact places_readValue
  · split
    · exact places_readArgument
    · split
      · exact places_readPair
      · split
        · exact .errorAt List.mem_cons_self ⟨rfl, rfl⟩
        · exact (places_encodeOperand _).bind fun operand _ => .ok _

end Statement

/-- An error of a line of tokens has the number of the line, and the column of a token that it
concerns. -/
theorem places_readTokens {number : Nat} {line : List Token} {e : Error}
    (h : readTokens number line = .error e) :
    e.line = number ∧ ∃ t ∈ line, e.column = t.column ∧ e.cause.Concerns line t := by
  cases line with
  | nil => cases h
  | cons head operands =>
      rw [readTokens] at h
      split at h
      · exact Statement.places_readDirective e h
      · exact Statement.places_readStatement e h

/-- A line in brackets starts with a bracket, after blanks. -/
theorem InBrackets.exists_split {line : List Char} (h : InBrackets line) :
    ∃ before after, line = before ++ '[' :: after ∧ '[' ∉ before := by
  obtain ⟨inner, hinner⟩ := Option.isSome_iff_exists.mp h
  obtain ⟨code, remark, rfl, hremark, hlaid⟩ := exists_laid line
  rw [codeOf_append hremark, hlaid.codeOf_eq] at hinner
  obtain ⟨front, back, hcode, hblank⟩ := (Text.trims_trim code).around
  rw [bracketed?_eq_some_iff.mp hinner] at hcode
  refine ⟨front, inner ++ [']'] ++ back ++ remark, by rw [hcode]; simp, fun hmem => ?_⟩
  exact absurd (hblank '[' (List.mem_append_left _ hmem)) (by decide)

private theorem markerColumn_of_split {before after : List Char} (h : '[' ∉ before) :
    markerColumn (before ++ '[' :: after) = Text.byteSize before + 1 := by
  have hbefore : ∀ c ∈ before, (c != '[') = true := by
    intro c hc
    rw [bne_iff_ne]
    rintro rfl
    exact h hc
  rw [markerColumn, List.takeWhile_append_of_pos hbefore, List.takeWhile_cons_of_neg (by decide),
    List.append_nil]

/-- An error points to its place in a line: to a token that its cause concerns or, if the line is
in brackets, to the first bracket. -/
inductive PointsInto (line : List Char) (e : Error) : Prop where
  | token {t : Token} (hline : ¬ InBrackets line) (ht : t ∈ tokens line)
    (hstands : t.StandsIn line) (hcolumn : e.column = t.column)
    (hcause : e.cause.Concerns (tokens line) t) : PointsInto line e
  | bracket {before after : List Char} (hline : InBrackets line)
    (hsplit : line = before ++ '[' :: after) (hbefore : '[' ∉ before)
    (hcolumn : e.column = Text.byteSize before + 1) : PointsInto line e

/-- An error of reading a line points into it. -/
theorem pointsInto_of_readLine {number : Nat} {line : List Char} {e : Error}
    (h : readLine number line = .error e) :
    e.line = number ∧ PointsInto line e ∧
      ∀ expected found, e.cause ≠ .sourceOrder expected found := by
  simp only [readLine, readMarker?] at h
  cases hinner : bracketed? (Text.trim (codeOf line)) with
  | none =>
      rw [hinner] at h
      have hline : ¬ InBrackets line := by simp [InBrackets, hinner]
      obtain ⟨hnumber, t, ht, hcolumn, hcause⟩ := places_readTokens h
      refine ⟨hnumber, .token hline ht (standsIn_of_mem_tokens ht) hcolumn hcause, ?_⟩
      intro expected found heq
      rw [heq] at hcause
      exact hcause
  | some inner =>
      rw [hinner, Option.map_some] at h
      cases hindex : markerIndex? inner with
      | some index => simp [hindex] at h
      | none =>
          simp only [hindex, Except.error.injEq] at h
          subst h
          have hline : InBrackets line := by simp [InBrackets, hinner]
          obtain ⟨before, after, hsplit, hbefore⟩ := hline.exists_split
          refine ⟨rfl, .bracket hline hsplit hbefore ?_, ?_⟩
          · rw [hsplit]
            exact markerColumn_of_split hbefore
          · intro expected found heq
            cases heq

/-! ## Errors of a text -/

/-- An error of adding a line that was read points into it, if it is not about the order of the
sources. -/
theorem pointsInto_of_add {d : Draft} {number : Nat} {line : List Char} {said : Line} {e : Error}
    (hsaid : Says line said) (h : d.add number said = .error e) :
    e.line = number ∧
      ((∀ expected found, e.cause ≠ .sourceOrder expected found) → PointsInto line e) ∧
      ∀ expected found, e.cause = .sourceOrder expected found → InBrackets line ∧ e.column = 1 := by
  unfold Draft.add at h
  split at h
  · cases h
  · split at h
    · cases h
    · cases h
      refine ⟨rfl, fun hother => absurd rfl (hother _ _), fun _ _ _ => ⟨?_, rfl⟩⟩
      cases hsaid with
      | marker hline => simp [InBrackets, hline]
      | plain _ hspells =>
          generalize tokens line = ts at hspells
          cases hspells
  · cases h
  · cases h
  · next literal column =>
      split at h
      · cases h
      · cases h
        refine ⟨rfl, fun _ => ?_, ?_⟩
        · cases hsaid with
          | plain hline hspells =>
              generalize hts : tokens line = ts at hspells
              cases hspells with
              | @value head t literal hhead ht =>
                  have hmem : t ∈ tokens line := by simp [hts]
                  exact .token (by simp [InBrackets, hline]) hmem (standsIn_of_mem_tokens hmem)
                    rfl ⟨literal, ht⟩
        · intro expected found heq
          cases heq
  · cases h
  · cases h

/-- An error of adding lines comes from one of them. -/
theorem exists_line_of_addLines {d : Draft} {number : Nat} {lines : List (List Char)} {e : Error}
    (h : d.addLines number lines = .error e) :
    ∃ i line, lines[i]? = some line ∧ e.line = number + i ∧
      ((∀ expected found, e.cause ≠ .sourceOrder expected found) → PointsInto line e) ∧
      ∀ expected found, e.cause = .sourceOrder expected found → InBrackets line ∧ e.column = 1 := by
  induction lines generalizing d number with
  | nil => cases h
  | cons line rest ih =>
      rw [Draft.addLines] at h
      cases hread : readLine number line with
      | error e' =>
          rw [hread] at h
          cases h
          obtain ⟨hnumber, hpoints, hother⟩ := pointsInto_of_readLine hread
          exact ⟨0, line, rfl, hnumber, fun _ => hpoints, fun _ _ heq => absurd heq (hother _ _)⟩
      | ok said =>
          rw [except_bind_of_ok hread] at h
          cases hadd : d.add number said with
          | error e' =>
              rw [hadd] at h
              cases h
              obtain ⟨hnumber, hpoints⟩ := pointsInto_of_add (readLine_eq_ok_iff.mp hread) hadd
              exact ⟨0, line, rfl, hnumber, hpoints⟩
          | ok next =>
              rw [except_bind_of_ok hadd] at h
              obtain ⟨i, line', hline, hnumber, hpoints⟩ := ih h
              exact ⟨i + 1, line', hline, by omega, hpoints⟩

/-- In column 1 stands the first bracket of a line exactly if the line starts with it. -/
theorem pointsInto_column_one_iff {line : List Char} {e : Error} (hline : InBrackets line)
    (h : e.column = 1) : PointsInto line e ↔ line.head? = some '[' := by
  constructor
  · rintro (⟨hnot, -⟩ | ⟨-, hsplit, -, hcolumn⟩)
    · exact absurd hline hnot
    · next before after =>
        cases before with
        | nil => rw [hsplit, List.nil_append, List.head?_cons]
        | cons c rest =>
            have hsize := c.utf8Size_pos
            rw [h, Text.byteSize] at hcolumn
            omega
  · intro hhead
    obtain ⟨before, after, rfl, hbefore⟩ := hline.exists_split
    cases before with
    | nil => exact .bracket hline rfl hbefore h
    | cons c rest =>
        obtain rfl : c = '[' := by simpa using hhead
        simp at hbefore

/-- Where the errors of assembling point.  The line of an error is a line of the text.  Unless the
error is about the order of the sources, its column is the place of a token of that line which its
cause concerns or, if the line is in brackets, of the first bracket.  An error about the order of
the sources comes from a line in brackets and has column 1, which is the place of the bracket
exactly if the line starts with it. -/
theorem errors_point_at_offending_token {text : String} {e : Error}
    (h : assemble text = .error e) :
    (1 ≤ e.line ∧ e.line ≤ (Text.lines text.toList).length) ∧
    ∃ line, (Text.lines text.toList)[e.line - 1]? = some line ∧
      ((∀ expected found, e.cause ≠ .sourceOrder expected found) → PointsInto line e) ∧
      ∀ expected found, e.cause = .sourceOrder expected found →
        InBrackets line ∧ e.column = 1 ∧ (PointsInto line e ↔ line.head? = some '[') := by
  unfold assemble at h
  cases hlines : ({} : Draft).addLines 1 (Text.lines text.toList) with
  | ok d =>
      rw [except_bind_of_ok hlines] at h
      cases h
  | error e' =>
      rw [hlines] at h
      cases h
      obtain ⟨i, line, hline, hnumber, hpoints, horder⟩ := exists_line_of_addLines hlines
      have hlength := (List.getElem?_eq_some_iff.mp hline).1
      refine ⟨⟨by omega, by omega⟩, line, ?_, hpoints, ?_⟩
      · rw [hnumber, Nat.add_sub_cancel_left, hline]
      · intro expected found hcause
        obtain ⟨hbrackets, hcolumn⟩ := horder expected found hcause
        exact ⟨hbrackets, hcolumn, pointsInto_column_one_iff hbrackets hcolumn⟩

/-- A number out of range, behind characters of two bytes and of three, in the second line. -/
theorem errors_point_at_offending_token_of_wide_blanks :
    assemble "# é\n\u3000OP\u00A01, 256 # é" = .error ⟨2, 11, .notAByte (Word.ofSmall 256)⟩ ∧
    PointsInto "\u3000OP\u00A01, 256 # é".toList ⟨2, 11, .notAByte (Word.ofSmall 256)⟩ := by
  have hassemble : assemble "# é\n\u3000OP\u00A01, 256 # é"
      = .error ⟨2, 11, .notAByte (Word.ofSmall 256)⟩ := by decide +kernel
  obtain ⟨-, line, hline, hpoints, -⟩ := errors_point_at_offending_token hassemble
  have hsecond : (Text.lines "# é\n\u3000OP\u00A01, 256 # é".toList)[1]?
      = some "\u3000OP\u00A01, 256 # é".toList := by decide +kernel
  obtain rfl := Option.some_inj.mp (hsecond.symm.trans hline)
  exact ⟨hassemble, hpoints (by simp)⟩

/-- The error of a source that is opened out of order, in a line with blanks before the bracket:
its column is that of the first blank. -/
theorem order_error_misses_indented_bracket :
    assemble "VAL 1\n  [ source 2 ]" = .error ⟨2, 1, .sourceOrder 0 2⟩ ∧
    (Text.lines "VAL 1\n  [ source 2 ]".toList)[1]? = some "  [ source 2 ]".toList ∧
    ¬ PointsInto "  [ source 2 ]".toList ⟨2, 1, .sourceOrder 0 2⟩ := by
  have hbrackets : InBrackets "  [ source 2 ]".toList := by decide +kernel
  refine ⟨by decide +kernel, by decide +kernel, ?_⟩
  rw [pointsInto_column_one_iff hbrackets rfl]
  decide

end Assembly

end WordMachine
