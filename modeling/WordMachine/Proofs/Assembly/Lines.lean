import WordMachine.Assembly.Line
import WordMachine.Proofs.Computation
import WordMachine.Proofs.Operand
import WordMachine.Proofs.Word.Text

/-!
# What a line says

Reading a line goes through several functions, each with errors of its own.  Here the lines
that are read without an error are described by their tokens alone, with one rule for each
kind of line: `Says` relates a line to what it says, and reading gives exactly that.  In
particular the number of a line and the column of its first token have no influence.

The operand of a standard instruction is described by what its byte means to the machine, and
not by how the byte is put together: the fields that the machine takes from the byte are the
fields that are written.

## Main definitions

* `Token.IsWord`, `Token.IsByte`, `Token.IsSize`, `Token.IsSignedByte` — the numbers that tokens
  denote
* `Written` — tokens that write an operand byte
* `Spells`, `Says` — what tokens spell, and what a line says

## Main results

* `Statement.signedByte?_eq_some_iff` — the signed bytes that tokens denote
* `encodeOperand_eq_ok_iff` — the operand bytes that tokens write
* `readLine_eq_ok_iff` — reading a line gives what it says
* `Says.unique` — a line says one thing
-/

namespace WordMachine

/-- The word that stands for a logic. -/
def SelectLogic.word : SelectLogic → String
  | .every => "every"
  | .any => "any"

/-- The word that stands for a mode. -/
def SelectMode.word : SelectMode → String
  | .min => "min"
  | .max => "max"
  | .first => "first"

namespace Assembly

/-! ## Numbers -/

/-- The name that a token spells, in capital letters. -/
def Token.name (t : Token) : String := String.ofList (t.chars.map Char.toUpper)

/-- The token is the literal of a word. -/
def Token.IsWord (t : Token) (w : Word) : Prop := Word.parseChars t.chars = .ok w

/-- The token is the literal of a byte. -/
def Token.IsByte (t : Token) (b : UInt8) : Prop := ∃ w, t.IsWord w ∧ w.toNat = b.toNat

/-- The token is the literal of a number of 64 bits. -/
def Token.IsSize (t : Token) (n : UInt64) : Prop := ∃ w, t.IsWord w ∧ w.toNat = n.toNat

/-- The token writes the number that a byte is in two's complement: the literal of a word, or a
minus sign and the literal of a word. -/
def Token.IsSignedByte (t : Token) (x : UInt8) : Prop :=
  ∃ w : Word, (t.IsWord w ∧ x.toInt8.toInt = w.toNat) ∨
    ∃ digits, t.chars = '-' :: digits ∧ Word.parseChars digits = .ok w ∧
      x.toInt8.toInt = -w.toNat

private theorem toInt_toInt8 (x : UInt8) :
    x.toInt8.toInt = if x.toNat < 128 then (x.toNat : Int) else x.toNat - 256 := by
  have hvalue : x.toInt8.toInt = if 2 * x.toNat < 2 ^ 8 then (x.toNat : Int) else x.toNat - 2 ^ 8 :=
    BitVec.toInt_eq_toNat_cond x.toBitVec
  rw [hvalue]
  split <;> split <;> omega

/-- The bytes of the numbers up to 127 are these numbers. -/
theorem toInt8_eq_toNat_iff {w : Word} {x : UInt8} :
    x.toInt8.toInt = w.toNat ↔
      ∃ n, w.toUInt64? = some n ∧ n ≤ 127 ∧ n.toUInt8 = x := by
  have hx := x.toNat_lt
  simp only [Word.toUInt64?_eq_some_iff, UInt64.le_iff_toNat_le, ← UInt8.toNat_inj,
    UInt64.toNat_toUInt8, UInt64.toNat_ofNat, toInt_toInt8]
  constructor
  · intro h
    refine ⟨x.toUInt64, ?_⟩
    rw [UInt8.toNat_toUInt64]
    split at h <;> omega
  · rintro ⟨n, hn, hle, hbyte⟩
    split <;> omega

/-- The bytes of the numbers from -128 to zero are what is left of `2 ^ 8` without them. -/
theorem toInt8_eq_neg_toNat_iff {w : Word} {x : UInt8} :
    x.toInt8.toInt = -w.toNat ↔
      ∃ n, w.toUInt64? = some n ∧ n ≤ 128 ∧ 0 - n.toUInt8 = x := by
  have hx := x.toNat_lt
  simp only [Word.toUInt64?_eq_some_iff, UInt64.le_iff_toNat_le, ← UInt8.toNat_inj,
    UInt8.toNat_sub, UInt8.toNat_zero, UInt64.toNat_toUInt8, UInt64.toNat_ofNat, toInt_toInt8]
  constructor
  · intro h
    refine ⟨(0 - x).toUInt64, ?_⟩
    rw [UInt8.toNat_toUInt64, UInt8.toNat_sub, UInt8.toNat_zero]
    split at h <;> omega
  · rintro ⟨n, hn, hle, hbyte⟩
    split <;> omega

namespace Statement

variable {s : Statement} {t : Token}

theorem word_eq_ok_iff {w : Word} : s.word t = .ok w ↔ t.IsWord w := by
  unfold word Token.IsWord
  cases Word.parseChars t.chars with
  | ok v => simp
  | error e => simp [errorAt]

private theorem byte_eq_ok_iff {b : UInt8} : s.byte t = .ok b ↔ t.IsByte b := by
  unfold byte Token.IsByte
  simp only [except_bind_eq_ok_iff, word_eq_ok_iff, ← Word.toUInt8?_eq_some_iff]
  refine exists_congr fun w => and_congr_right fun _ => ?_
  cases w.toUInt8? with
  | none => simp [errorAt]
  | some v => simp

theorem size_eq_ok_iff {n : UInt64} : s.size t = .ok n ↔ t.IsSize n := by
  unfold size Token.IsSize
  simp only [except_bind_eq_ok_iff, word_eq_ok_iff, ← Word.toUInt64?_eq_some_iff]
  refine exists_congr fun w => and_congr_right fun _ => ?_
  cases w.toUInt64? with
  | none => simp [errorAt]
  | some v => simp

/-- After a minus sign, the literal is the number below zero. -/
private theorem signedByte?_minus_eq_some_iff {digits : List Char} {x : UInt8} :
    signedByte? ('-' :: digits) = some x ↔
      ∃ w, Word.parseChars digits = .ok w ∧ x.toInt8.toInt = -w.toNat := by
  rw [signedByte?, signOf]
  simp only [Option.bind_eq_bind, Option.bind_eq_some_iff, except_toOption_eq_some_iff, if_true,
    Option.ite_none_right_eq_some, Option.some_inj, ← toInt8_eq_neg_toNat_iff]

/-- Without a minus sign, the literal is the number itself. -/
private theorem signedByte?_eq_some_iff_of_ne {chars : List Char} {x : UInt8}
    (hsign : ∀ digits, chars ≠ '-' :: digits) :
    signedByte? chars = some x ↔
      ∃ w, Word.parseChars chars = .ok w ∧ x.toInt8.toInt = w.toNat := by
  have hsignOf : signOf chars = (false, chars) := by
    rw [signOf.eq_def]
    split
    · next digits => exact absurd rfl (hsign digits)
    · rfl
  rw [signedByte?, hsignOf]
  simp only [Option.bind_eq_bind, Option.bind_eq_some_iff, except_toOption_eq_some_iff,
    Bool.false_eq_true, if_false, Option.ite_none_right_eq_some, Option.some_inj,
    ← toInt8_eq_toNat_iff]

/-- The signed byte of a token is the one whose number in two's complement the token writes. -/
theorem signedByte?_eq_some_iff {x : UInt8} : signedByte? t.chars = some x ↔ t.IsSignedByte x := by
  by_cases hsign : ∃ digits, t.chars = '-' :: digits
  · obtain ⟨digits, hdigits⟩ := hsign
    rw [hdigits, signedByte?_minus_eq_some_iff]
    constructor
    · rintro ⟨w, hw, hx⟩
      exact ⟨w, .inr ⟨digits, hdigits, hw, hx⟩⟩
    · rintro ⟨w, ⟨hw, -⟩ | ⟨digits', hdigits', hw, hx⟩⟩
      · -- with its sign, the text is no literal of a word
        rw [Token.IsWord, hdigits] at hw
        exact absurd hw (Word.parseChars_minus_ne_ok digits w)
      · obtain rfl : digits = digits' := List.tail_eq_of_cons_eq (hdigits.symm.trans hdigits')
        exact ⟨w, hw, hx⟩
  · rw [signedByte?_eq_some_iff_of_ne fun digits hdigits => hsign ⟨digits, hdigits⟩]
    constructor
    · rintro ⟨w, hw, hx⟩
      exact ⟨w, .inl ⟨hw, hx⟩⟩
    · rintro ⟨w, ⟨hw, hx⟩ | ⟨digits, hdigits, -⟩⟩
      · exact ⟨w, hw, hx⟩
      · exact absurd ⟨digits, hdigits⟩ hsign

private theorem signedByte_eq_ok_iff {b : UInt8} : s.signedByte t = .ok b ↔ t.IsSignedByte b := by
  rw [← signedByte?_eq_some_iff]
  unfold signedByte
  cases signedByte? t.chars with
  | none => simp [errorAt]
  | some v => simp

private theorem locate_eq_ok_iff {α : Type} {x : Except OperandError α} {v : α} :
    s.locate t x = .ok v ↔ x = .ok v := by
  cases x with
  | error e => simp [locate, errorAt]
  | ok v => simp [locate]

private theorem logic_eq_ok_iff {l : SelectLogic} : s.logic t = .ok l ↔ lowered t = l.word := by
  unfold logic
  dsimp only
  split
  · next h => cases l <;> simp [h, SelectLogic.word]
  · split
    · next h => cases l <;> simp [h, SelectLogic.word]
    · cases l <;> simp_all [errorAt, SelectLogic.word]

private theorem mode_eq_ok_iff {m : SelectMode} : s.mode t = .ok m ↔ lowered t = m.word := by
  unfold mode
  dsimp only
  split
  · next h => cases m <;> simp [h, SelectMode.word]
  · split
    · next h => cases m <;> simp [h, SelectMode.word]
    · split
      · next h => cases m <;> simp [h, SelectMode.word]
      · cases m <;> simp_all [errorAt, SelectMode.word]

end Statement

/-! ## Operands -/

/-- The tokens write an operand byte: the fields that the instruction takes from the byte are
those that the tokens denote. -/
inductive Written (instruction : Instruction) : List Token → UInt8 → Prop where
  | nothing (hform : instruction.form = .none) : Written instruction [] 0
  | number {t : Token} {x : UInt8}
    (hform : instruction.form ∈
      [OperandForm.constant, .stackIndex, .extension, .length, .decimals])
    (ht : t.IsByte x) : Written instruction [t] x
  | window {t : Token} {x : UInt8} (hform : instruction.form = .window) (ht : t.IsByte x)
    (hx : x ≠ 0) : Written instruction [t] x
  | part {t : Token} {x : UInt8} {part : Inspection} (hform : instruction.form = .debug)
    (ht : t.IsByte x) (hx : Inspection.decode x = .ok part) : Written instruction [t] x
  | exponent {t : Token} {x : UInt8} (hform : instruction.form = .signedExponent)
    (ht : t.IsSignedByte x) : Written instruction [t] x
  | zip {source lanes count : Token} {x values : UInt8} {width : UInt64}
    (hform : instruction.form = .zipmap) (hsource : source.IsByte (Zip.decode x).source)
    (hlanes : lanes.IsSize width) (hwidth : width.toNat = (Zip.decode x).laneBits)
    (hcount : count.IsByte values) (hvalues : values.toNat = (Zip.decode x).valueCount) :
    Written instruction [source, lanes, count] x
  | selection {logic mode count : Token} {x : UInt8} {fields : Selection}
    (hform : instruction.form = .selectLte) (hx : Selection.decode x = .ok fields)
    (hlogic : Statement.lowered logic = fields.logic.word)
    (hmode : Statement.lowered mode = fields.mode.word) (hcount : count.IsByte fields.count) :
    Written instruction [logic, mode, count] x
  | range {start stop : Token} {x : UInt8} {fields : TierRange}
    (hform : instruction.form = .tierRange) (hx : TierRange.decode x = .ok fields)
    (hstart : start.IsByte fields.start) (hstop : stop.IsByte fields.stop) :
    Written instruction [start, stop] x

namespace Statement

variable {s : Statement} {x : UInt8}

private theorem laneBits_eq_ok_iff {t : Token} {bits : UInt16} :
    s.laneBits t = .ok bits ↔ ∃ width, t.IsSize width ∧ width.toNat = bits.toNat := by
  unfold laneBits
  simp only [except_bind_eq_ok_iff, size_eq_ok_iff]
  refine exists_congr fun width => and_congr_right fun _ => ?_
  have hbits : bits.toNat < 65536 := bits.toNat_lt
  split
  · next hwidth =>
      have hlt : width.toNat < 65536 := UInt64.lt_iff_toNat_lt.mp hwidth
      show Except.ok width.toUInt16 = Except.ok bits ↔ _
      rw [Except.ok.injEq, ← UInt16.toNat_inj, UInt64.toNat_toUInt16, Nat.mod_eq_of_lt hlt]
  · next hwidth =>
      have hle : 65536 ≤ width.toNat := UInt64.le_iff_toNat_le.mp (UInt64.not_lt.mp hwidth)
      simp only [errorAt, reduceCtorEq, false_iff]
      omega

private theorem zipOperand_eq_ok_iff {source lanes count : Token} :
    s.zipOperand source lanes count = .ok x ↔
      source.IsByte (Zip.decode x).source ∧
        (∃ width, lanes.IsSize width ∧ width.toNat = (Zip.decode x).laneBits) ∧
        ∃ values, count.IsByte values ∧ values.toNat = (Zip.decode x).valueCount := by
  unfold zipOperand
  simp only [except_bind_eq_ok_iff, byte_eq_ok_iff, laneBits_eq_ok_iff, locate_eq_ok_iff,
    Zip.ofLaneBits_eq_ok_iff]
  constructor
  · rintro ⟨index, hindex, bits, ⟨width, hlanes, hwidth⟩, values, hcount, z,
      ⟨rfl, hbits, hvalues, -⟩, hx⟩
    rw [Zip.decode_of_encode_eq_ok hx]
    exact ⟨hindex, ⟨width, hlanes, hwidth.trans hbits⟩, values, hcount, hvalues⟩
  · rintro ⟨hindex, ⟨width, hlanes, hwidth⟩, values, hcount, hvalues⟩
    have hlt : (Zip.decode x).laneBits < 65536 := by
      rw [Zip.laneBits, Nat.shiftRight_eq_div_pow]
      exact Nat.lt_of_le_of_lt (Nat.div_le_self _ _) (by decide)
    have hbits : (UInt16.ofNat (Zip.decode x).laneBits).toNat = (Zip.decode x).laneBits := by
      rw [UInt16.toNat_ofNat', Nat.mod_eq_of_lt hlt]
    exact ⟨_, hindex, _, ⟨width, hlanes, hwidth.trans hbits.symm⟩, values, hcount, _,
      ⟨rfl, hbits, hvalues, x, Zip.encode_decode x⟩, Zip.encode_decode x⟩

private theorem selectOperand_eq_ok_iff {logic mode count : Token} :
    s.selectOperand logic mode count = .ok x ↔
      ∃ fields, Selection.decode x = .ok fields ∧ lowered logic = fields.logic.word ∧
        lowered mode = fields.mode.word ∧ count.IsByte fields.count := by
  unfold selectOperand
  simp only [except_bind_eq_ok_iff, logic_eq_ok_iff, mode_eq_ok_iff, byte_eq_ok_iff,
    locate_eq_ok_iff]
  constructor
  · rintro ⟨l, hl, m, hm, n, hn, hx⟩
    exact ⟨_, Selection.decode_of_encode_eq_ok hx, hl, hm, hn⟩
  · rintro ⟨fields, hx, hl, hm, hn⟩
    exact ⟨_, hl, _, hm, _, hn, Selection.encode_of_decode_eq_ok hx⟩

private theorem rangeOperand_eq_ok_iff {start stop : Token} :
    s.rangeOperand start stop = .ok x ↔
      ∃ fields, TierRange.decode x = .ok fields ∧ start.IsByte fields.start ∧
        stop.IsByte fields.stop := by
  unfold rangeOperand
  simp only [except_bind_eq_ok_iff, byte_eq_ok_iff, locate_eq_ok_iff]
  constructor
  · rintro ⟨first, hfirst, last, hlast, r, hr, hx⟩
    obtain ⟨rfl, hdecode⟩ := TierRange.decode_encode hr
    cases hx
    exact ⟨_, hdecode, hfirst, hlast⟩
  · rintro ⟨fields, hx, hstart, hstop⟩
    obtain ⟨hbounds, rfl⟩ := TierRange.encode_of_decode_eq_ok hx
    exact ⟨_, hstart, _, hstop, fields, hbounds, rfl⟩

end Statement

/-- Tokens that are read as an operand byte write that byte. -/
theorem written_of_encodeOperand_eq_ok {instruction : Instruction} {s : Statement} {x : UInt8}
    (h : encodeOperand instruction s = .ok x) : Written instruction s.operands x := by
  unfold encodeOperand at h
  split at h
  · next hform hoperands =>
      cases h
      rw [hoperands]
      exact .nothing hform
  · cases h
  · next t hform hoperands =>
      obtain ⟨b, hb, h⟩ := except_bind_eq_ok h
      obtain ⟨n, hn, h⟩ := except_bind_eq_ok h
      cases h
      have hx : x ≠ 0 := by
        rintro rfl
        cases hn
      rw [hoperands]
      exact .window hform (Statement.byte_eq_ok_iff.mp hb) hx
  · next t hform hoperands =>
      obtain ⟨b, hb, h⟩ := except_bind_eq_ok h
      obtain ⟨part, hpart, h⟩ := except_bind_eq_ok h
      cases h
      have hdecode := Statement.locate_eq_ok_iff.mp hpart
      rw [hoperands, Inspection.encode_of_decode_eq_ok hdecode]
      exact .part hform (Statement.byte_eq_ok_iff.mp hb) hdecode
  · next t hform hoperands =>
      rw [hoperands]
      exact .exponent hform (Statement.signedByte_eq_ok_iff.mp h)
  · next source lanes count hform hoperands =>
      obtain ⟨hsource, ⟨width, hlanes, hwidth⟩, values, hcount, hvalues⟩ :=
        Statement.zipOperand_eq_ok_iff.mp h
      rw [hoperands]
      exact .zip hform hsource hlanes hwidth hcount hvalues
  · cases h
  · next logic mode count hform hoperands =>
      obtain ⟨fields, hx, hlogic, hmode, hcount⟩ := Statement.selectOperand_eq_ok_iff.mp h
      rw [hoperands]
      exact .selection hform hx hlogic hmode hcount
  · cases h
  · next start stop hform hoperands =>
      obtain ⟨fields, hx, hstart, hstop⟩ := Statement.rangeOperand_eq_ok_iff.mp h
      rw [hoperands]
      exact .range hform hx hstart hstop
  · cases h
  · next t hoperands _ _ _ _ _ _ _ =>
      rw [hoperands]
      refine .number ?_ (Statement.byte_eq_ok_iff.mp h)
      cases hform : instruction.form <;> simp_all
  · cases h

/-- Tokens are read as the operand byte that they write. -/
theorem encodeOperand_eq_ok_iff {instruction : Instruction} {s : Statement} {x : UInt8} :
    encodeOperand instruction s = .ok x ↔ Written instruction s.operands x := by
  refine ⟨written_of_encodeOperand_eq_ok, fun h => ?_⟩
  obtain ⟨number, head, operands⟩ := s
  cases h with
  | nothing hform => simp [encodeOperand, hform]
  | number hform ht =>
      simp only [List.mem_cons, List.not_mem_nil, or_false] at hform
      rcases hform with hform | hform | hform | hform | hform <;>
        simpa [encodeOperand, hform] using Statement.byte_eq_ok_iff.mpr ht
  | window hform ht hx =>
      simp only [encodeOperand, hform, except_bind_eq_ok_iff]
      exact ⟨x, Statement.byte_eq_ok_iff.mpr ht, x.toNat,
        Statement.locate_eq_ok_iff.mpr (if_neg hx), rfl⟩
  | part hform ht hx =>
      simp only [encodeOperand, hform, except_bind_eq_ok_iff]
      exact ⟨x, Statement.byte_eq_ok_iff.mpr ht, _, Statement.locate_eq_ok_iff.mpr hx,
        congrArg Except.ok (Inspection.encode_of_decode_eq_ok hx)⟩
  | exponent hform ht =>
      simpa [encodeOperand, hform] using Statement.signedByte_eq_ok_iff.mpr ht
  | zip hform hsource hlanes hwidth hcount hvalues =>
      simpa [encodeOperand, hform] using Statement.zipOperand_eq_ok_iff.mpr
        ⟨hsource, ⟨_, hlanes, hwidth⟩, _, hcount, hvalues⟩
  | selection hform hx hlogic hmode hcount =>
      simpa [encodeOperand, hform] using Statement.selectOperand_eq_ok_iff.mpr
        ⟨_, hx, hlogic, hmode, hcount⟩
  | range hform hx hstart hstop =>
      simpa [encodeOperand, hform] using Statement.rangeOperand_eq_ok_iff.mpr
        ⟨_, hx, hstart, hstop⟩

/-! ## Lines -/

/-- What the tokens of a line without brackets say. -/
inductive Spells : List Token → Line → Prop where
  | blank : Spells [] .blank
  | stackLength {head t : Token} {hint : UInt64} (hhead : head.text = ".stack_length")
    (ht : t.IsSize hint) : Spells [head, t] (.stackLength hint)
  | argumentsLength {head t : Token} {hint : UInt64} (hhead : head.text = ".arguments_length")
    (ht : t.IsSize hint) : Spells [head, t] (.argumentsLength hint)
  /-- `VAL` and a literal. -/
  | value {head t : Token} {literal : Word} (hhead : head.name = "VAL")
    (ht : t.IsWord literal) : Spells [head, t] (.value literal t.column)
  /-- `ARG` and an index, which has an operand byte of its own. -/
  | argument {head t : Token} {index operand : UInt8} (hhead : head.name = "ARG")
    (ht : t.IsByte index) (hoperand : (Fetch.argument index).encode = .ok operand) :
    Spells [head, t] (.argument index operand)
  /-- `OP` and a pair as it is. -/
  | raw {head a b : Token} {opcode operand : UInt8} (hhead : head.name = "OP")
    (ha : a.IsByte opcode) (hb : b.IsByte operand) : Spells [head, a, b] (.pair opcode operand)
  /-- The name of a standard instruction and its operands. -/
  | standard {head : Token} {operands : List Token} {instruction : Instruction} {operand : UInt8}
    (hhead : Instruction.ofMnemonic? head.name = some instruction)
    (hoperand : Written instruction operands operand) :
    Spells (head :: operands) (.pair instruction.opcode operand)

/-- What a line says: a line in brackets opens a source, and any other line says what its
tokens spell. -/
inductive Says (line : List Char) : Line → Prop where
  | marker {inner : List Char} {index : UInt64}
    (hline : bracketed? (Text.trim (codeOf line)) = some inner)
    (hindex : markerIndex? inner = some index) : Says line (.marker index)
  | plain {said : Line} (hline : bracketed? (Text.trim (codeOf line)) = none)
    (h : Spells (tokens line) said) : Says line said

/-- The name of an instruction starts with a letter. -/
theorem isUpper_of_ofMnemonic? {name : String} {instruction : Instruction}
    (h : Instruction.ofMnemonic? name = some instruction) :
    name.toList.head?.any Char.isUpper = true := by
  have hmnemonic : ∀ i : Instruction, i.mnemonic.toList.head?.any Char.isUpper = true := by
    intro i
    cases i <;> decide
  unfold Instruction.ofMnemonic? at h
  split at h
  · next hdup =>
      rw [hdup]
      decide
  · have hname := List.find?_some h
    rw [decide_eq_true_eq] at hname
    exact hname ▸ hmnemonic instruction

/-- The name of a token starts with the capital of the token's first letter. -/
theorem Token.head?_name (t : Token) : t.name.toList.head? = t.chars.head?.map Char.toUpper := by
  rw [name, String.toList_ofList, List.head?_map]

section Reading

variable {number : Nat} {head : Token} {operands : List Token} {said : Line}

/-- A line that starts with a point is read as what it spells. -/
theorem readDirective_eq_ok_iff (h : head.chars.head? = some '.') :
    readDirective ⟨number, head, operands⟩ = .ok said ↔ Spells (head :: operands) said := by
  constructor
  · intro hread
    unfold readDirective at hread
    split at hread
    · next t hoperands =>
        obtain rfl : operands = [t] := hoperands
        obtain ⟨hint, hhint, hread⟩ := except_bind_eq_ok hread
        have ht := Statement.size_eq_ok_iff.mp hhint
        split at hread
        · next hhead =>
            cases hread
            exact .stackLength hhead ht
        · split at hread
          · next hhead =>
              cases hread
              exact .argumentsLength hhead ht
          · cases hread
    · cases hread
  · intro hspells
    -- a token that starts with a point is no name, so only the two hints are left
    have hname : head.name.toList.head? = some '.' := by
      rw [Token.head?_name, h]
      rfl
    cases hspells with
    | stackLength hhead ht =>
        simp only [readDirective, except_bind_eq_ok_iff, Statement.size_eq_ok_iff]
        exact ⟨_, ht, by simp [hhead]; rfl⟩
    | argumentsLength hhead ht =>
        simp only [readDirective, except_bind_eq_ok_iff, Statement.size_eq_ok_iff]
        exact ⟨_, ht, by simp [hhead]; rfl⟩
    | value hhead | argument hhead | raw hhead => simp [hhead] at hname
    | standard hhead =>
        have hupper := isUpper_of_ofMnemonic? hhead
        rw [hname] at hupper
        cases hupper

private theorem spells_of_readValue_eq_ok (hhead : head.name = "VAL")
    (h : readValue ⟨number, head, operands⟩ = .ok said) : Spells (head :: operands) said := by
  unfold readValue at h
  split at h
  · next t hoperands =>
      obtain rfl : operands = [t] := hoperands
      obtain ⟨literal, hliteral, h⟩ := except_bind_eq_ok h
      cases h
      exact .value hhead (Statement.word_eq_ok_iff.mp hliteral)
  · cases h

private theorem spells_of_readArgument_eq_ok (hhead : head.name = "ARG")
    (h : readArgument ⟨number, head, operands⟩ = .ok said) : Spells (head :: operands) said := by
  unfold readArgument at h
  split at h
  · next t hoperands =>
      obtain rfl : operands = [t] := hoperands
      obtain ⟨index, hindex, h⟩ := except_bind_eq_ok h
      obtain ⟨operand, hoperand, h⟩ := except_bind_eq_ok h
      cases h
      exact .argument hhead (Statement.byte_eq_ok_iff.mp hindex)
        (Statement.locate_eq_ok_iff.mp hoperand)
  · cases h

private theorem spells_of_readPair_eq_ok (hhead : head.name = "OP")
    (h : readPair ⟨number, head, operands⟩ = .ok said) : Spells (head :: operands) said := by
  unfold readPair at h
  split at h
  · next a b hoperands =>
      obtain rfl : operands = [a, b] := hoperands
      obtain ⟨opcode, hopcode, h⟩ := except_bind_eq_ok h
      obtain ⟨operand, hoperand, h⟩ := except_bind_eq_ok h
      cases h
      exact .raw hhead (Statement.byte_eq_ok_iff.mp hopcode)
        (Statement.byte_eq_ok_iff.mp hoperand)
  · cases h

/-- A line that starts with a name is read as what it spells. -/
theorem spells_of_readStatement_eq_ok (h : readStatement ⟨number, head, operands⟩ = .ok said) :
    Spells (head :: operands) said := by
  unfold readStatement at h
  dsimp only at h
  split at h
  · next hhead => exact spells_of_readValue_eq_ok hhead h
  · split at h
    · next hhead => exact spells_of_readArgument_eq_ok hhead h
    · split at h
      · next hhead => exact spells_of_readPair_eq_ok hhead h
      · split at h
        · cases h
        · next instruction hhead =>
            obtain ⟨operand, hoperand, h⟩ := except_bind_eq_ok h
            cases h
            exact .standard hhead (written_of_encodeOperand_eq_ok hoperand)

/-- The words that start a statement of their own are no names of instructions. -/
theorem name_of_ofMnemonic? {name : String} {instruction : Instruction}
    (h : Instruction.ofMnemonic? name = some instruction) :
    name ≠ "VAL" ∧ name ≠ "ARG" ∧ name ≠ "OP" := by
  have hnone : ∀ word ∈ ["VAL", "ARG", "OP"], Instruction.ofMnemonic? word = none := by decide
  have hne : ∀ word ∈ ["VAL", "ARG", "OP"], name ≠ word := by
    rintro word hword rfl
    simp [hnone name hword] at h
  simpa using hne

/-- What tokens spell after a name is what they are read as. -/
theorem readStatement_of_spells (h : head.chars.head? ≠ some '.')
    (hspells : Spells (head :: operands) said) :
    readStatement ⟨number, head, operands⟩ = .ok said := by
  unfold readStatement
  dsimp only
  rw [← Token.name]
  cases hspells with
  | stackLength hhead | argumentsLength hhead =>
      refine absurd ?_ h
      rw [← String.toList_ofList (l := head.chars), ← Token.text, hhead]
      rfl
  | value hhead ht =>
      rw [if_pos hhead]
      exact except_bind_of_ok (Statement.word_eq_ok_iff.mpr ht) _
  | argument hhead ht hoperand =>
      rw [hhead, if_neg (by decide), if_pos rfl]
      refine (except_bind_of_ok (Statement.byte_eq_ok_iff.mpr ht) _).trans ?_
      exact except_bind_of_ok (Statement.locate_eq_ok_iff.mpr hoperand) _
  | raw hhead ha hb =>
      rw [hhead, if_neg (by decide), if_neg (by decide), if_pos rfl]
      refine (except_bind_of_ok (Statement.byte_eq_ok_iff.mpr ha) _).trans ?_
      exact except_bind_of_ok (Statement.byte_eq_ok_iff.mpr hb) _
  | standard hhead hoperand =>
      obtain ⟨hval, harg, hop⟩ := name_of_ofMnemonic? hhead
      simp only [if_neg hval, if_neg harg, if_neg hop, hhead]
      exact except_bind_of_ok (encodeOperand_eq_ok_iff.mpr hoperand) _

/-- Tokens are read as what they spell. -/
theorem readTokens_eq_ok_iff {line : List Token} :
    readTokens number line = .ok said ↔ Spells line said := by
  cases line with
  | nil =>
      constructor
      · intro h
        cases h
        exact .blank
      · intro h
        cases h
        rfl
  | cons head operands =>
      by_cases h : head.chars.head? = some '.'
      · rw [readTokens, if_pos h]
        exact readDirective_eq_ok_iff h
      · rw [readTokens, if_neg h]
        exact ⟨spells_of_readStatement_eq_ok, readStatement_of_spells h⟩

/-- A line is read as what it says. -/
theorem readLine_eq_ok_iff {line : List Char} :
    readLine number line = .ok said ↔ Says line said := by
  cases hline : bracketed? (Text.trim (codeOf line)) with
  | none =>
      have hread : readLine number line = readTokens number (tokens line) := by
        simp [readLine, readMarker?, hline]
      rw [hread, readTokens_eq_ok_iff]
      constructor
      · exact .plain hline
      · rintro (⟨hinner, -⟩ | ⟨-, h⟩)
        · simp [hline] at hinner
        · exact h
  | some inner =>
      constructor
      · intro h
        simp only [readLine, readMarker?, hline, Option.map_some] at h
        split at h
        · next index hindex =>
            cases h
            exact .marker hline hindex
        · cases h
      · rintro (⟨hinner, hindex⟩ | ⟨hinner, -⟩)
        · cases hline.symm.trans hinner
          simp [readLine, readMarker?, hline, hindex]
        · simp [hline] at hinner

/-- A line says one thing. -/
theorem Says.unique {line : List Char} {other : Line} (h : Says line said)
    (h' : Says line other) : said = other := by
  have hread : readLine 1 line = .ok said := readLine_eq_ok_iff.mpr h
  rw [readLine_eq_ok_iff.mpr h'] at hread
  cases hread
  rfl

end Reading

end Assembly

end WordMachine
