import WordMachine.Proofs.Program.Binary

/-!
# Encodings delimit themselves

Programs and lists of programs are encoded like any other value, so the types that can be
encoded are those of `Shape` together with programs, and lists of all of these nested to any
depth.  In each of them an encoding says by itself where it ends: nothing that comes after it
is looked at, and no part of it is enough.

This is a property of one reader and of the bytes that it takes, `Delimits`, and it is kept when
one reader goes on where another one ends.  A cut falls into the bytes of the first reader or
into those of the second, and this is the only case split; integers, words, lists and programs
follow by putting readers in a row.

## Main definitions

* `Delimits` — bytes from which a reader takes a value, and no part of which is enough
* `Encoding`, `Encoding.list` — the writer, reader and counter of a type, and those of its lists
* `Format` — the types that can be encoded

## Main results

* `Delimits.bind` — one reader after another
* `Encoding.SelfDelimiting.list` — from items to lists
* `Format.encodings_delimit_themselves`
-/

namespace WordMachine

/-- A reader takes the value from exactly these bytes, whatever comes after them.  Where the
input ends within them, it says so. -/
structure Delimits {α : Type} (decode : List UInt8 → Except CodecError (α × List UInt8))
    (bytes : List UInt8) (v : α) : Prop where
  whole (rest : List UInt8) : decode (bytes ++ rest) = .ok (v, rest)
  cut {input missing : List UInt8} (h : bytes = input ++ missing) (hmissing : missing ≠ []) :
    decode input = .error .unexpectedEnd

namespace Delimits

variable {α β : Type} {bytes : List UInt8}

private theorem pure (v : α) : Delimits (fun input => .ok (v, input)) [] v where
  whole _ := rfl
  cut h hmissing := absurd (List.append_eq_nil_iff.mp h.symm).2 hmissing

/-- A reader that goes on where another one ends. -/
theorem bind {first : List UInt8 → Except CodecError (α × List UInt8)} {front back : List UInt8}
    {v : α} {w : β} (hfirst : Delimits first front v)
    (next : α → List UInt8 → Except CodecError (β × List UInt8))
    (hnext : Delimits (next v) back w) :
    Delimits (fun input => do
      let (v, rest) ← first input
      next v rest) (front ++ back) w where
  whole rest := by
    rw [List.append_assoc, except_bind_of_ok (hfirst.whole (back ++ rest))]
    exact hnext.whole rest
  cut {input missing} h hmissing := by
    -- the cut falls into the bytes of the first reader or into those of the second
    obtain ⟨inner, hinput, hback⟩ | ⟨lost, hfront, hlost⟩ := List.append_eq_append_iff.mp h
    · rw [hinput, except_bind_of_ok (hfirst.whole inner)]
      exact hnext.cut hback hmissing
    · by_cases hnone : lost = []
      · rw [hnone, List.append_nil] at hfront
        rw [hnone, List.nil_append] at hlost
        have hread := hfirst.whole []
        rw [List.append_nil, hfront] at hread
        rw [except_bind_of_ok hread]
        exact hnext.cut (hlost.symm.trans (List.nil_append _).symm) hmissing
      · rw [hfirst.cut hfront hnone]
        rfl

private theorem map {first : List UInt8 → Except CodecError (α × List UInt8)} {v : α}
    (h : Delimits first bytes v) (f : α → β) :
    Delimits (fun input => do
      let (v, rest) ← first input
      return (f v, rest)) bytes (f v) := by
  have hmap := h.bind (fun v input => .ok (f v, input)) (pure (f v))
  rwa [List.append_nil] at hmap

end Delimits

namespace Shape

private theorem delimits_takeBytes (bytes : List UInt8) :
    Delimits (takeBytes bytes.length) bytes bytes where
  whole _ := takeBytes_eq_ok_iff.mpr ⟨rfl, rfl⟩
  cut {input missing} h hmissing := by
    have hpos : 0 < missing.length := List.length_pos_iff.mpr hmissing
    have hlength : bytes.length = input.length + missing.length := by
      rw [h, List.length_append]
    rw [takeBytes, List.length_take, if_pos (by omega)]

private theorem delimits_decodeNat {width n : Nat} (hn : n < 256 ^ width) :
    Delimits (decodeNat width) (littleEndian width n) n := by
  have h := (delimits_takeBytes (littleEndian width n)).map ofLittleEndian
  rwa [length_littleEndian, ofLittleEndian_littleEndian, Nat.mod_eq_of_lt hn] at h

/-- An integer is read from its bytes. -/
theorem delimits_integer {α : Type} (width : Nat) {ofNat : Nat → α} {toNat : α → Nat}
    (hlt : ∀ v, toNat v < 256 ^ width) (hof : ∀ v, ofNat (toNat v) = v) (v : α) :
    Delimits (fun input => do
      let (n, rest) ← decodeNat width input
      return (ofNat n, rest)) (littleEndian width (toNat v)) v := by
  have h := (delimits_decodeNat (hlt v)).map ofNat
  rwa [hof] at h

private theorem delimits_word (v : Word) : Delimits (decode .word) v.toBytes v := by
  have h := (delimits_takeBytes v.toBytes).map Word.ofBytes
  rwa [Word.length_toBytes, Word.ofBytes_toBytes] at h

section Lists

variable {α : Type} {item : List UInt8 → Except CodecError (α × List UInt8)}
  {encode : α → List UInt8}

/-- Items are read in a row. -/
theorem delimits_decodeMany {values : List α}
    (hitem : ∀ v ∈ values, Delimits item (encode v) v) :
    Delimits (decodeMany item values.length) (values.flatMap encode) values := by
  induction values with
  | nil => exact Delimits.pure []
  | cons v rest ih =>
      obtain ⟨hv, hrest⟩ := List.forall_mem_cons.mp hitem
      exact hv.bind (fun v input => do
        let read ← decodeMany item rest.length input
        return (v :: read.1, read.2)) ((ih hrest).map (v :: ·))

/-- A list is read, if it is not too long for the reader. -/
theorem delimits_decodeList {values : List α} (hlimit : values.length ≤ maxLength)
    (hitem : ∀ v ∈ values, Delimits item (encode v) v) :
    Delimits (decodeList item) (encodeList encode values) values := by
  have hsize : values.length < 256 ^ 8 := Nat.lt_of_le_of_lt hlimit (by decide)
  refine (delimits_decodeNat hsize).bind (fun length rest =>
    if maxLength < length then .error (.lengthOverflow (.ofNat length))
    else decodeMany item length rest) ?_
  simp only [if_neg (Nat.not_lt.mpr hlimit)]
  exact delimits_decodeMany hitem

end Lists

end Shape

/-! ## Encodings of types -/

/-- How the values of a type are written and read, and how their bytes are counted without
writing them. -/
structure Encoding (α : Type) where
  encode : α → List UInt8
  decode : List UInt8 → Except CodecError (α × List UInt8)
  size : α → Nat

namespace Encoding

variable {α : Type} {c : Encoding α} {P : α → Prop}

/-- Lists of values that can be encoded. -/
def list (item : Encoding α) : Encoding (List α) where
  encode := Shape.encodeList item.encode
  decode := Shape.decodeList item.decode
  size values := 8 + (values.map item.size).sum

/-- The value that takes up all of the bytes. -/
def decodeAll (c : Encoding α) (input : List UInt8) : Except CodecError α :=
  Shape.exactly (c.decode input)

/-- The reader accepts the encodings of the values in `P` and nothing else, and each of them
tells where it ends.  Counting gives the length of the encoding. -/
structure SelfDelimiting (c : Encoding α) (P : α → Prop) : Prop where
  reads {v : α} (hv : P v) : Delimits c.decode (c.encode v) v
  only {input rest : List UInt8} {v : α} (h : c.decode input = .ok (v, rest)) :
    input = c.encode v ++ rest ∧ P v
  counts (v : α) : c.size v = (c.encode v).length

namespace SelfDelimiting

private theorem decode_eq_ok_iff (h : c.SelfDelimiting P) {input rest : List UInt8} {v : α} :
    c.decode input = .ok (v, rest) ↔ input = c.encode v ++ rest ∧ P v := by
  constructor
  · exact h.only
  · rintro ⟨rfl, hv⟩
    exact (h.reads hv).whole rest

/-- If items tell where they end, then lists of them do. -/
theorem list (h : c.SelfDelimiting P) :
    c.list.SelfDelimiting fun values =>
      values.length ≤ Shape.maxLength ∧ ∀ v ∈ values, P v where
  reads hvalues := Shape.delimits_decodeList hvalues.1 fun v hv => h.reads (hvalues.2 v hv)
  only := (Shape.decodeList_eq_ok_iff h.decode_eq_ok_iff).mp
  counts values := by
    show 8 + (values.map c.size).sum = (Shape.encodeList c.encode values).length
    rw [Shape.encodeList, List.length_append, Shape.length_littleEndian, List.length_flatMap,
      List.map_congr_left fun v _ => h.counts v]

/-- Bytes after a value are not accepted as part of it. -/
theorem decodeAll_append (h : c.SelfDelimiting P) {v : α} (hv : P v) {trailing : List UInt8}
    (htrailing : trailing ≠ []) :
    c.decodeAll (c.encode v ++ trailing) = .error (.trailingBytes trailing.length) := by
  obtain ⟨byte, rest, rfl⟩ := List.exists_cons_of_ne_nil htrailing
  rw [decodeAll, (h.reads hv).whole]
  rfl

end SelfDelimiting

end Encoding

/-! ## Integers, words and programs -/

/-- The encoding of the values of a shape. -/
def Shape.encoding (shape : Shape) : Encoding shape.Value :=
  ⟨shape.encode, shape.decode, shape.size⟩

/-- The encoding of programs. -/
def Program.encoding : Encoding Program := ⟨Program.encode, Program.decode, Program.size⟩

namespace Shape

/-- Values of every shape tell where they end. -/
theorem selfDelimiting (shape : Shape) :
    shape.encoding.SelfDelimiting (shape.Bounded maxLength) := by
  induction shape with
  | uint8 =>
      refine ⟨fun {v} _ => ?_, (decode_eq_ok_iff .uint8).mp, fun _ => rfl⟩
      have hbyte : littleEndian 1 v.toNat = [v] := by
        simp [littleEndian]
      have hv := delimits_integer 1 UInt8.toNat_lt (fun _ => UInt8.ofNat_toNat) v
      rwa [hbyte] at hv
  | uint16 =>
      exact ⟨fun {v} _ => delimits_integer 2 UInt16.toNat_lt (fun _ => UInt16.ofNat_toNat) v,
        (decode_eq_ok_iff .uint16).mp, fun _ => rfl⟩
  | uint32 =>
      exact ⟨fun {v} _ => delimits_integer 4 UInt32.toNat_lt (fun _ => UInt32.ofNat_toNat) v,
        (decode_eq_ok_iff .uint32).mp, fun _ => rfl⟩
  | uint64 =>
      exact ⟨fun {v} _ => delimits_integer 8 UInt64.toNat_lt (fun _ => UInt64.ofNat_toNat) v,
        (decode_eq_ok_iff .uint64).mp, fun _ => rfl⟩
  | word =>
      exact ⟨fun {v} _ => delimits_word v, (decode_eq_ok_iff .word).mp,
        fun v => v.length_toBytes.symm⟩
  | list item ih => exact ih.list

end Shape

namespace Program

/-- A program is read part by part. -/
theorem delimits_decode {p : Program} (hp : p.Within Shape.maxLength) :
    Delimits decode p.encode p := by
  obtain ⟨hsources, hconstants⟩ := within_iff.mp hp
  have hhint (hint : UInt64) : Delimits Shape.uint64.decode (Shape.uint64.encode hint) hint :=
    Shape.uint64.selfDelimiting.reads trivial
  have hencode : p.encode = sourcesShape.encode p.sources ++ (constantsShape.encode p.constants
      ++ (Shape.uint64.encode p.stackLength ++ Shape.uint64.encode p.argumentsLength)) := by
    simp only [encode, List.append_assoc]
  rw [hencode]
  have harguments := (hhint p.argumentsLength).map fun argumentsLength =>
    Program.mk p.sources p.constants p.stackLength argumentsLength
  have hstack := (hhint p.stackLength).bind (fun stackLength rest => do
    let arguments ← Shape.uint64.decode rest
    return (Program.mk p.sources p.constants stackLength arguments.1, arguments.2)) harguments
  have hpool := (constantsShape.selfDelimiting.reads hconstants).bind (fun constants rest => do
    let stack ← Shape.uint64.decode rest
    let arguments ← Shape.uint64.decode stack.2
    return (Program.mk p.sources constants stack.1 arguments.1, arguments.2)) hstack
  exact (sourcesShape.selfDelimiting.reads hsources).bind (fun sources rest => do
    let pool ← constantsShape.decode rest
    let stack ← Shape.uint64.decode pool.2
    let arguments ← Shape.uint64.decode stack.2
    return (Program.mk sources pool.1 stack.1 arguments.1, arguments.2)) hpool

private theorem selfDelimiting : encoding.SelfDelimiting (Within Shape.maxLength) where
  reads := delimits_decode
  only := decode_eq_ok_iff.mp
  counts p := by
    have hcount (shape : Shape) (v : shape.Value) : shape.size v = (shape.encode v).length :=
      shape.selfDelimiting.counts v
    simp only [encoding, size, encode, List.length_append, hcount]

end Program

/-- The types of values that can be encoded. -/
inductive Format where
  /-- Integers, words, and lists of them.  A size is an integer of 64 bits. -/
  | plain (shape : Shape)
  | program
  | list (item : Format)
  deriving DecidableEq, Repr

namespace Format

/-- The values of a type. -/
abbrev Value : Format → Type
  | .plain shape => shape.Value
  | .program => Program
  | .list item => List item.Value

/-- How the values of a type are written and read. -/
def encoding : (format : Format) → Encoding format.Value
  | .plain shape => shape.encoding
  | .program => Program.encoding
  | .list item => item.encoding.list

/-- Every list in a value has at most `limit` items. -/
def Bounded (limit : Nat) : (format : Format) → format.Value → Prop
  | .plain shape, v => shape.Bounded limit v
  | .program, p => p.Within limit
  | .list item, values => values.length ≤ limit ∧ ∀ v ∈ values, item.Bounded limit v

private theorem selfDelimiting (format : Format) :
    format.encoding.SelfDelimiting (format.Bounded Shape.maxLength) := by
  induction format with
  | plain shape => exact shape.selfDelimiting
  | program => exact Program.selfDelimiting
  | list item ih => exact ih.list

/-- Encodings of every type delimit themselves.  The bytes that are read as a value are its
encoding, with anything after it, and the values that are read are those without a list of more
than `2 ^ 20` items.  The encoding of such a value cut short is reported as an end of the input,
wherever the cut is; bytes after it are counted and refused where it should be all; and its
length is the one that is counted without writing it. -/
theorem encodings_delimit_themselves (format : Format) :
    (∀ (b rest : List UInt8) (v : format.Value),
      format.encoding.decode b = .ok (v, rest)
        ↔ b = format.encoding.encode v ++ rest ∧ format.Bounded (2 ^ 20) v) ∧
    ∀ v : format.Value, format.Bounded (2 ^ 20) v →
      (∀ cut missing : List UInt8, missing ≠ [] → format.encoding.encode v = cut ++ missing →
        format.encoding.decode cut = .error .unexpectedEnd) ∧
      (∀ t : List UInt8, t ≠ [] → format.encoding.decodeAll (format.encoding.encode v ++ t)
        = .error (.trailingBytes t.length)) ∧
      format.encoding.size v = (format.encoding.encode v).length := by
  have h := format.selfDelimiting
  refine ⟨fun b rest v => h.decode_eq_ok_iff, fun v hv => ⟨?_, ?_, h.counts v⟩⟩
  · intro cut missing hmissing hcut
    exact (h.reads hv).cut hcut hmissing
  · intro t ht
    exact h.decodeAll_append hv ht

/-- A list of two programs, cut within the constants of the first one. -/
theorem encodings_delimit_themselves_of_programs :
    let programs : List Program := [⟨[[0, 1]], [Word.one], 2, 3⟩, ⟨[[]], [], 0, 0⟩]
    let bytes := (list program).encoding.encode programs
    (list program).Bounded (2 ^ 20) programs ∧ bytes.drop 50 ≠ [] ∧
      (list program).encoding.decode (bytes.take 50) = .error .unexpectedEnd ∧ [7, 8] ≠ [] ∧
      (list program).encoding.decodeAll (bytes ++ [7, 8]) = .error (.trailingBytes 2) ∧
      (list program).encoding.size programs = bytes.length := by
  intro programs bytes
  have hbounded : (list program).Bounded (2 ^ 20) programs := by
    refine ⟨by decide, fun p hp => ?_⟩
    revert p
    show ∀ p ∈ programs, p.Within (2 ^ 20)
    decide
  have hmissing : bytes.drop 50 ≠ [] := by decide
  obtain ⟨hcut, htrailing, hsize⟩ := (encodings_delimit_themselves (list program)).2 _ hbounded
  exact ⟨hbounded, hmissing, hcut _ _ hmissing (List.take_append_drop 50 bytes).symm, by decide,
    htrailing _ (by decide), hsize⟩

end Format

end WordMachine
