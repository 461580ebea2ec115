import Mathlib.Algebra.Order.BigOperators.Group.List
import Mathlib.Algebra.Order.Ring.Nat
import WordMachine.Codec
import WordMachine.Proofs.Computation
import WordMachine.Proofs.Word.Bytes

/-!
# The encoding is self-delimiting

Reading takes exactly the bytes that writing gives for a value, whatever comes after them.  So
each value has one encoding, and no encoding is the beginning of another one.  The reader
refuses long lists and the writer does not; beyond the limit the two are not inverse, but even
there different values have different encodings, as long as their lists have lengths of
64 bits.

## Main definitions

* `Shape.Bounded` — values whose lists have at most a given number of items

## Main results

* `Shape.decode_eq_ok_iff` — what reading accepts
* `Shape.encode_append_inj` — different values have different encodings
* `Shape.encode_inj_of_bounded` — a value with the encoding of a bounded one is that value
-/

namespace WordMachine.Shape

/-! ## Numbers -/

@[simp] theorem length_littleEndian (width n : Nat) : (littleEndian width n).length = width := by
  induction width generalizing n with
  | zero => rfl
  | succ width ih => simp [littleEndian, ih]

/-- The bytes of a number write it, up to what their number can hold. -/
theorem ofLittleEndian_littleEndian (width n : Nat) :
    ofLittleEndian (littleEndian width n) = n % 256 ^ width := by
  induction width generalizing n with
  | zero => simp [littleEndian, ofLittleEndian, Nat.mod_one]
  | succ width ih =>
      have hlow : (UInt8.ofNat n).toNat = n % 256 := UInt8.toNat_ofNat'
      rw [littleEndian, ofLittleEndian, ih, hlow, Nat.pow_succ', Nat.mod_mul]

/-- Bytes are those of the number that they write. -/
theorem littleEndian_ofLittleEndian (bytes : List UInt8) :
    littleEndian bytes.length (ofLittleEndian bytes) = bytes := by
  induction bytes with
  | nil => rfl
  | cons byte rest ih =>
      have hbyte := byte.toNat_lt
      have hlow : UInt8.ofNat (byte.toNat + 256 * ofLittleEndian rest) = byte := by
        apply UInt8.toNat_inj.mp
        rw [UInt8.toNat_ofNat']
        omega
      have hhigh : (byte.toNat + 256 * ofLittleEndian rest) / 256 = ofLittleEndian rest := by
        omega
      rw [List.length_cons, ofLittleEndian, littleEndian, hlow, hhigh, ih]

private theorem ofLittleEndian_lt (bytes : List UInt8) :
    ofLittleEndian bytes < 256 ^ bytes.length := by
  induction bytes with
  | nil => simp [ofLittleEndian]
  | cons byte rest ih =>
      have hbyte := byte.toNat_lt
      rw [ofLittleEndian, List.length_cons, Nat.pow_succ']
      omega

variable {input rest : List UInt8}

/-- Bytes are taken from the front of the input. -/
theorem takeBytes_eq_ok_iff {n : Nat} {bytes : List UInt8} :
    takeBytes n input = .ok (bytes, rest) ↔ bytes.length = n ∧ input = bytes ++ rest := by
  rw [takeBytes]
  constructor
  · intro h
    split at h
    · cases h
    · next hlength =>
        cases h
        rw [List.length_take] at hlength ⊢
        exact ⟨by omega, (List.take_append_drop n input).symm⟩
  · rintro ⟨rfl, rfl⟩
    simp

/-- A number is read exactly from its bytes. -/
theorem decodeNat_eq_ok_iff {width n : Nat} :
    decodeNat width input = .ok (n, rest)
      ↔ n < 256 ^ width ∧ input = littleEndian width n ++ rest := by
  constructor
  · intro h
    obtain ⟨⟨bytes, rest'⟩, hbytes, h⟩ := except_bind_eq_ok h
    cases h
    obtain ⟨rfl, rfl⟩ := takeBytes_eq_ok_iff.mp hbytes
    exact ⟨ofLittleEndian_lt bytes, by rw [littleEndian_ofLittleEndian]⟩
  · rintro ⟨hn, rfl⟩
    have htake : takeBytes width (littleEndian width n ++ rest)
        = .ok (littleEndian width n, rest) :=
      takeBytes_eq_ok_iff.mpr ⟨length_littleEndian width n, rfl⟩
    rw [decodeNat, except_bind_of_ok htake]
    dsimp only
    rw [ofLittleEndian_littleEndian, Nat.mod_eq_of_lt hn]
    rfl

/-! ## Values -/

/-- Every list in a value has at most `limit` items. -/
def Bounded (limit : Nat) : (shape : Shape) → shape.Value → Prop
  | .list item, values => values.length ≤ limit ∧ ∀ v ∈ values, item.Bounded limit v
  | _, _ => True

/-- A number of values is read exactly from their encodings in a row. -/
theorem decodeMany_eq_ok_iff {α : Type} {item : List UInt8 → Except CodecError (α × List UInt8)}
    {encode : α → List UInt8} {P : α → Prop}
    (hitem : ∀ {input rest v}, item input = .ok (v, rest) ↔ input = encode v ++ rest ∧ P v)
    {n : Nat} {values : List α} :
    decodeMany item n input = .ok (values, rest)
      ↔ values.length = n ∧ input = values.flatMap encode ++ rest ∧ ∀ v ∈ values, P v := by
  induction n generalizing input values with
  | zero =>
      constructor
      · intro h
        cases h
        exact ⟨rfl, rfl, by simp⟩
      · rintro ⟨hlength, rfl, -⟩
        rw [List.length_eq_zero_iff.mp hlength]
        rfl
  | succ n ih =>
      constructor
      · intro h
        obtain ⟨⟨v, middle⟩, hv, h⟩ := except_bind_eq_ok h
        obtain ⟨⟨vs, rest'⟩, hvs, h⟩ := except_bind_eq_ok h
        cases h
        obtain ⟨rfl, hP⟩ := hitem.mp hv
        obtain ⟨rfl, rfl, hPs⟩ := ih.mp hvs
        refine ⟨rfl, ?_, List.forall_mem_cons.mpr ⟨hP, hPs⟩⟩
        rw [List.flatMap_cons, List.append_assoc]
      · rintro ⟨hlength, rfl, hPs⟩
        match values with
        | [] => cases hlength
        | v :: vs =>
            obtain ⟨hP, hPs⟩ := List.forall_mem_cons.mp hPs
            have hv : item ((v :: vs).flatMap encode ++ rest)
                = .ok (v, vs.flatMap encode ++ rest) :=
              hitem.mpr ⟨by rw [List.flatMap_cons, List.append_assoc], hP⟩
            have hvs : decodeMany item n (vs.flatMap encode ++ rest) = .ok (vs, rest) :=
              ih.mpr ⟨by simpa using hlength, rfl, hPs⟩
            rw [decodeMany, except_bind_of_ok hv]
            exact except_bind_of_ok hvs _

/-- The bytes of a list: its length and its items. -/
def encodeList {α : Type} (encode : α → List UInt8) (values : List α) : List UInt8 :=
  littleEndian 8 values.length ++ values.flatMap encode

/-- A list that is not longer than the reader accepts. -/
def decodeList {α : Type} (item : List UInt8 → Except CodecError (α × List UInt8))
    (input : List UInt8) : Except CodecError (List α × List UInt8) := do
  let (length, rest) ← decodeNat 8 input
  if maxLength < length then .error (.lengthOverflow (.ofNat length))
  else decodeMany item length rest

private theorem encode_list (item : Shape) : (list item).encode = encodeList item.encode := rfl

private theorem decode_list (item : Shape) : (list item).decode = decodeList item.decode := rfl

/-- A list is read exactly from its length and the encodings of its items. -/
theorem decodeList_eq_ok_iff {α : Type} {item : List UInt8 → Except CodecError (α × List UInt8)}
    {encode : α → List UInt8} {P : α → Prop}
    (hitem : ∀ {input rest v}, item input = .ok (v, rest) ↔ input = encode v ++ rest ∧ P v)
    {values : List α} :
    decodeList item input = .ok (values, rest)
      ↔ input = encodeList encode values ++ rest ∧ values.length ≤ maxLength
        ∧ ∀ v ∈ values, P v := by
  rw [decodeList, encodeList, List.append_assoc]
  constructor
  · intro h
    obtain ⟨⟨length, middle⟩, hlength, hrest⟩ := except_bind_eq_ok h
    obtain ⟨-, rfl⟩ := decodeNat_eq_ok_iff.mp hlength
    dsimp only at hrest
    split at hrest
    · cases hrest
    · next hlimit =>
        obtain ⟨rfl, rfl, hitems⟩ := (decodeMany_eq_ok_iff hitem).mp hrest
        exact ⟨rfl, Nat.not_lt.mp hlimit, hitems⟩
  · rintro ⟨rfl, hlimit, hitems⟩
    have hsize : values.length < 256 ^ 8 := Nat.lt_of_le_of_lt hlimit (by decide)
    have hlength : decodeNat 8 (littleEndian 8 values.length ++ (values.flatMap encode ++ rest))
        = .ok (values.length, values.flatMap encode ++ rest) :=
      decodeNat_eq_ok_iff.mpr ⟨hsize, rfl⟩
    rw [except_bind_of_ok hlength]
    dsimp only
    rw [if_neg (Nat.not_lt.mpr hlimit)]
    exact (decodeMany_eq_ok_iff hitem).mpr ⟨rfl, rfl, hitems⟩

/-- A fixed-width integer is read exactly from its bytes. -/
theorem decodeInteger_eq_ok_iff {α : Type} {width : Nat} {ofNat : Nat → α} {toNat : α → Nat}
    (hlt : ∀ v, toNat v < 256 ^ width) (hof : ∀ v, ofNat (toNat v) = v)
    (hto : ∀ n, n < 256 ^ width → toNat (ofNat n) = n) {v : α} :
    (do
      let (n, rest) ← decodeNat width input
      return (ofNat n, rest) : Except CodecError (α × List UInt8)) = .ok (v, rest)
      ↔ input = littleEndian width (toNat v) ++ rest := by
  constructor
  · intro h
    obtain ⟨⟨n, rest'⟩, hn, h⟩ := except_bind_eq_ok h
    cases h
    obtain ⟨hlt, rfl⟩ := decodeNat_eq_ok_iff.mp hn
    rw [hto n hlt]
  · intro h
    have hn : decodeNat width input = .ok (toNat v, rest) := decodeNat_eq_ok_iff.mpr ⟨hlt v, h⟩
    rw [except_bind_of_ok hn]
    dsimp only
    rw [hof]
    rfl

/-- Reading accepts exactly the encodings of values within the limit, and leaves what comes
after them. -/
theorem decode_eq_ok_iff (shape : Shape) {v : shape.Value} :
    shape.decode input = .ok (v, rest)
      ↔ input = shape.encode v ++ rest ∧ shape.Bounded maxLength v := by
  induction shape generalizing input rest with
  | uint8 =>
      have hbyte : littleEndian 1 v.toNat = [v] := by
        simp [littleEndian]
      refine (decodeInteger_eq_ok_iff UInt8.toNat_lt (fun _ => UInt8.ofNat_toNat)
        fun n hn => UInt8.toNat_ofNat_of_lt' hn).trans ?_
      rw [hbyte]
      exact (and_iff_left trivial).symm
  | uint16 =>
      refine (decodeInteger_eq_ok_iff UInt16.toNat_lt (fun _ => UInt16.ofNat_toNat)
        fun n hn => UInt16.toNat_ofNat_of_lt' hn).trans ?_
      exact (and_iff_left trivial).symm
  | uint32 =>
      refine (decodeInteger_eq_ok_iff UInt32.toNat_lt (fun _ => UInt32.ofNat_toNat)
        fun n hn => UInt32.toNat_ofNat_of_lt' hn).trans ?_
      exact (and_iff_left trivial).symm
  | uint64 =>
      refine (decodeInteger_eq_ok_iff UInt64.toNat_lt (fun _ => UInt64.ofNat_toNat)
        fun n hn => UInt64.toNat_ofNat_of_lt' hn).trans ?_
      exact (and_iff_left trivial).symm
  | word =>
      constructor
      · intro h
        obtain ⟨⟨bytes, rest'⟩, hbytes, h⟩ := except_bind_eq_ok h
        cases h
        obtain ⟨hlength, rfl⟩ := takeBytes_eq_ok_iff.mp hbytes
        refine ⟨?_, trivial⟩
        rw [encode, Word.toBytes_ofBytes hlength]
      · rintro ⟨rfl, -⟩
        have htake : takeBytes 32 (v.toBytes ++ rest) = .ok (v.toBytes, rest) :=
          takeBytes_eq_ok_iff.mpr ⟨v.length_toBytes, rfl⟩
        rw [decode, encode, except_bind_of_ok htake]
        dsimp only
        rw [Word.ofBytes_toBytes]
        rfl
  | list item ih =>
      rw [decode_list, encode_list]
      exact decodeList_eq_ok_iff ih

/-! ## Different values have different encodings -/

private theorem littleEndian_append_inj (width : Nat) {m n : Nat} (hm : m < 256 ^ width)
    (hn : n < 256 ^ width) {rest' : List UInt8}
    (h : littleEndian width m ++ rest = littleEndian width n ++ rest') :
    m = n ∧ rest = rest' := by
  obtain ⟨hbytes, hrest⟩ := List.append_inj h (by simp)
  refine ⟨?_, hrest⟩
  rw [← Nat.mod_eq_of_lt hm, ← Nat.mod_eq_of_lt hn, ← ofLittleEndian_littleEndian,
    ← ofLittleEndian_littleEndian, hbytes]

/-- Encodings in a row can be told apart if single ones can. -/
theorem flatMap_append_inj {α : Type} {encode : α → List UInt8} {P : α → Prop}
    (hitem : ∀ {v w r r'}, P v → P w → encode v ++ r = encode w ++ r' → v = w ∧ r = r')
    {vs ws : List α} (hlength : vs.length = ws.length) (hvs : ∀ v ∈ vs, P v)
    (hws : ∀ w ∈ ws, P w) {rest' : List UInt8}
    (h : vs.flatMap encode ++ rest = ws.flatMap encode ++ rest') : vs = ws ∧ rest = rest' := by
  induction vs generalizing ws with
  | nil =>
      rw [List.eq_nil_of_length_eq_zero hlength.symm] at h ⊢
      exact ⟨rfl, h⟩
  | cons v vs ih =>
      match ws with
      | [] => cases hlength
      | w :: ws =>
          rw [List.flatMap_cons, List.flatMap_cons, List.append_assoc, List.append_assoc] at h
          obtain ⟨hv, hvs⟩ := List.forall_mem_cons.mp hvs
          obtain ⟨hw, hws'⟩ := List.forall_mem_cons.mp hws
          obtain ⟨rfl, htail⟩ := hitem hv hw h
          obtain ⟨rfl, hrest⟩ := ih (Nat.succ.inj hlength) hvs hws' htail
          exact ⟨rfl, hrest⟩

/-- An encoding is not the beginning of another one, as long as lengths have 64 bits. -/
theorem encode_append_inj (shape : Shape) {limit : Nat} (hlimit : limit < 256 ^ 8)
    {v w : shape.Value} (hv : shape.Bounded limit v) (hw : shape.Bounded limit w)
    {rest' : List UInt8} (h : shape.encode v ++ rest = shape.encode w ++ rest') :
    v = w ∧ rest = rest' := by
  induction shape generalizing rest rest' with
  | uint8 =>
      obtain ⟨hbyte, hrest⟩ := List.cons.inj h
      exact ⟨hbyte, hrest⟩
  | uint16 =>
      obtain ⟨hn, hrest⟩ := littleEndian_append_inj 2 v.toNat_lt w.toNat_lt h
      exact ⟨UInt16.toNat_inj.mp hn, hrest⟩
  | uint32 =>
      obtain ⟨hn, hrest⟩ := littleEndian_append_inj 4 v.toNat_lt w.toNat_lt h
      exact ⟨UInt32.toNat_inj.mp hn, hrest⟩
  | uint64 =>
      obtain ⟨hn, hrest⟩ := littleEndian_append_inj 8 v.toNat_lt w.toNat_lt h
      exact ⟨UInt64.toNat_inj.mp hn, hrest⟩
  | word =>
      rw [encode, encode] at h
      obtain ⟨hbytes, hrest⟩ := List.append_inj h (by rw [v.length_toBytes, w.length_toBytes])
      refine ⟨?_, hrest⟩
      rw [← v.ofBytes_toBytes, hbytes, w.ofBytes_toBytes]
  | list item ih =>
      obtain ⟨hvlength, hvs⟩ := hv
      obtain ⟨hwlength, hws⟩ := hw
      rw [encode, encode, List.append_assoc, List.append_assoc] at h
      obtain ⟨hlength, hitems⟩ := littleEndian_append_inj 8 (Nat.lt_of_le_of_lt hvlength hlimit)
        (Nat.lt_of_le_of_lt hwlength hlimit) h
      exact flatMap_append_inj (fun hv hw h => ih hv hw h) hlength hvs hws hitems

/-! ## How long encodings are -/

/-- The largest number of bytes of a value with lists of at most `limit` items. -/
def maxSize (limit : Nat) : Shape → Nat
  | .uint8 => 1
  | .uint16 => 2
  | .uint32 => 4
  | .uint64 => 8
  | .word => 32
  | .list item => 8 + limit * item.maxSize limit

theorem length_encode_le {limit : Nat} (shape : Shape) {v : shape.Value}
    (hv : shape.Bounded limit v) : (shape.encode v).length ≤ shape.maxSize limit := by
  induction shape with
  | uint8 => simp [encode, maxSize]
  | uint16 => simp [encode, maxSize]
  | uint32 => simp [encode, maxSize]
  | uint64 => simp [encode, maxSize]
  | word => rw [encode, maxSize, v.length_toBytes]
  | list item ih =>
      obtain ⟨hlength, hitems⟩ := hv
      rw [encode, maxSize, List.length_append, length_littleEndian, List.length_flatMap]
      have hsum : (v.map fun x => (item.encode x).length).sum ≤ v.length * item.maxSize limit := by
        have h := List.sum_le_card_nsmul (v.map fun x => (item.encode x).length)
          (item.maxSize limit) (by simpa using fun x hx => ih (hitems x hx))
        simpa using h
      exact Nat.add_le_add_left (hsum.trans (Nat.mul_le_mul_right _ hlength)) 8

/-- Every value takes up bytes. -/
theorem length_encode_pos (shape : Shape) (v : shape.Value) : 0 < (shape.encode v).length := by
  cases shape <;> simp [encode, Word.length_toBytes]

/-- Lists have no more items than their encodings have bytes. -/
theorem bounded_of_length_encode_le (shape : Shape) {n : Nat} {v : shape.Value}
    (h : (shape.encode v).length ≤ n) : shape.Bounded n v := by
  induction shape with
  | list item ih =>
      rw [encode, List.length_append, length_littleEndian, List.length_flatMap] at h
      constructor
      · have hitems : v.length ≤ (v.map fun x => (item.encode x).length).sum := by
          have h := List.card_nsmul_le_sum (v.map fun x => (item.encode x).length) 1
            (by simpa [Nat.one_le_iff_ne_zero, Nat.pos_iff_ne_zero] using
              fun x _ => item.length_encode_pos x)
          simpa using h
        omega
      · intro x hx
        have hx := List.le_sum_of_mem
          (List.mem_map_of_mem (f := fun x => (item.encode x).length) hx)
        exact ih (by omega)
  | _ => trivial

end WordMachine.Shape
