import Mathlib.Data.List.Induction
import WordMachine.Address
import WordMachine.Proofs.Word.Value

/-!
# Bytes of words and addresses

The bytes of a limb are its digits in base `2 ^ 8`.  So 32 bytes are read back from
the word that they write, and an address from the word that holds it.

## Main results

* `Word.limbBytes_limbOfBytes`, `Word.toBytes_ofBytes` — bytes survive their word
* `Word.limbOfBytes_limbBytes`, `Word.ofBytes_toBytes` — a word survives its bytes
* `Word.bytesValue_toBytes`, `Word.toNat_ofBytes`, `Word.getElem?_toBytes` — bytes are the digits
  of the word
* `Address.ofWord_toWord`, `Address.toNat_toWord_ofWord` — an address survives its word, and a
  word keeps its low 160 bits
-/

namespace WordMachine

namespace Word

/-- Bringing in a byte multiplies by `2 ^ 8` and adds the byte. -/
theorem toNat_pushByte {acc : UInt64} (b : UInt8) (h : acc.toNat < 2 ^ 56) :
    ((acc <<< 8) ||| b.toUInt64).toNat = 2 ^ 8 * acc.toNat + b.toNat := by
  have hb := b.toNat_lt
  have hshift : (acc <<< (8 : UInt64)).toNat = 2 ^ 8 * acc.toNat := by
    have hdistance : (8 : UInt64).toNat % 64 = 8 := rfl
    rw [UInt64.toNat_shiftLeft, hdistance, Nat.shiftLeft_eq, Nat.mul_comm]
    omega
  rw [UInt64.toNat_or, hshift, UInt8.toNat_toUInt64, ← Nat.two_pow_add_eq_or_of_lt hb]

/-- The number that bytes write, the first one most significant. -/
def bytesValue (bytes : List UInt8) : Nat :=
  bytes.foldl (fun n b => 2 ^ 8 * n + b.toNat) 0

/-- Up to eight bytes write a limb with their value. -/
theorem toNat_limbOfBytes {bytes : List UInt8} (h : bytes.length ≤ 8) :
    (limbOfBytes bytes).toNat = bytesValue bytes := by
  -- a limb that has room for the bytes still to come loses nothing
  have hfold : ∀ (bytes : List UInt8) (acc : UInt64), bytes.length ≤ 8 →
      acc.toNat < 2 ^ (8 * (8 - bytes.length)) →
      (bytes.foldl (fun (acc : UInt64) b => (acc <<< 8) ||| b.toUInt64) acc).toNat
        = bytes.foldl (fun n b => 2 ^ 8 * n + b.toNat) acc.toNat := by
    intro bytes
    induction bytes with
    | nil =>
        intro acc _ _
        rfl
    | cons b rest ih =>
        intro acc hlength hroom
        rw [List.length_cons] at hlength hroom
        have hb := b.toNat_lt
        have hsmall : acc.toNat < 2 ^ 56 :=
          Nat.lt_of_lt_of_le hroom (Nat.pow_le_pow_right (by decide) (by omega))
        have hpush := toNat_pushByte b hsmall
        have hpow : 2 ^ (8 * (8 - rest.length)) = 2 ^ 8 * 2 ^ (8 * (8 - (rest.length + 1))) := by
          rw [← Nat.pow_add]
          congr 1
          omega
        rw [List.foldl_cons, List.foldl_cons, ih _ (by omega) (by omega), hpush]
  exact hfold bytes 0 h (Nat.two_pow_pos _)

private theorem toNat_shiftRight_toUInt8 (x : UInt64) {k : Nat} (hk : k < 64) :
    (x >>> UInt64.ofNat k).toUInt8.toNat = x.toNat / 2 ^ k % 2 ^ 8 := by
  have hdistance : (UInt64.ofNat k).toNat % 64 = k := by
    rw [UInt64.toNat_ofNat']
    omega
  rw [UInt64.toNat_toUInt8, UInt64.toNat_shiftRight, hdistance, Nat.shiftRight_eq_div_pow]

/-- Eight bytes are those of the limb that they write. -/
theorem limbBytes_limbOfBytes {bytes : List UInt8} (h : bytes.length = 8) :
    limbBytes (limbOfBytes bytes) = bytes := by
  have hvalue := toNat_limbOfBytes (Nat.le_of_eq h)
  match bytes, h with
  | [b7, b6, b5, b4, b3, b2, b1, b0], _ =>
      generalize limbOfBytes [b7, b6, b5, b4, b3, b2, b1, b0] = limb at hvalue ⊢
      simp only [bytesValue, List.foldl_cons, List.foldl_nil, Nat.mul_zero, Nat.zero_add] at hvalue
      have h7 := b7.toNat_lt
      have h6 := b6.toNat_lt
      have h5 := b5.toNat_lt
      have h4 := b4.toNat_lt
      have h3 := b3.toNat_lt
      have h2 := b2.toNat_lt
      have h1 := b1.toNat_lt
      have h0 := b0.toNat_lt
      have hdigit : ∀ {k : Nat} {b : UInt8}, k < 64 → limb.toNat / 2 ^ k % 2 ^ 8 = b.toNat →
          (limb >>> UInt64.ofNat k).toUInt8 = b := by
        intro k b hk hb
        apply UInt8.toNat_inj.mp
        rw [toNat_shiftRight_toUInt8 limb hk, hb]
      have hlast : limb.toUInt8 = b0 := by
        apply UInt8.toNat_inj.mp
        rw [UInt64.toNat_toUInt8]
        omega
      have e7 : (limb >>> 56).toUInt8 = b7 := hdigit (k := 56) (by decide) (by omega)
      have e6 : (limb >>> 48).toUInt8 = b6 := hdigit (k := 48) (by decide) (by omega)
      have e5 : (limb >>> 40).toUInt8 = b5 := hdigit (k := 40) (by decide) (by omega)
      have e4 : (limb >>> 32).toUInt8 = b4 := hdigit (k := 32) (by decide) (by omega)
      have e3 : (limb >>> 24).toUInt8 = b3 := hdigit (k := 24) (by decide) (by omega)
      have e2 : (limb >>> 16).toUInt8 = b2 := hdigit (k := 16) (by decide) (by omega)
      have e1 : (limb >>> 8).toUInt8 = b1 := hdigit (k := 8) (by decide) (by omega)
      rw [limbBytes, e7, e6, e5, e4, e3, e2, e1, hlast]

/-- Thirty-two bytes are those of the word that they write. -/
theorem toBytes_ofBytes {bytes : List UInt8} (h : bytes.length = 32) :
    (ofBytes bytes).toBytes = bytes := by
  have h3 : (bytes.take 8).length = 8 := by
    rw [List.length_take]
    omega
  have h2 : ((bytes.drop 8).take 8).length = 8 := by
    rw [List.length_take, List.length_drop]
    omega
  have h1 : ((bytes.drop 16).take 8).length = 8 := by
    rw [List.length_take, List.length_drop]
    omega
  have h0 : ((bytes.drop 24).take 8).length = 8 := by
    rw [List.length_take, List.length_drop]
    omega
  rw [toBytes, ofBytes]
  dsimp only
  rw [limbBytes_limbOfBytes h3, limbBytes_limbOfBytes h2, limbBytes_limbOfBytes h1,
    limbBytes_limbOfBytes h0]
  have hrest : (bytes.drop 24).take 8 = bytes.drop 24 := List.take_of_length_le (by
    rw [List.length_drop]
    omega)
  have hsplit : ∀ i, (bytes.drop i).take 8 ++ bytes.drop (i + 8) = bytes.drop i := by
    intro i
    rw [← List.drop_drop]
    exact List.take_append_drop 8 _
  have h16 : (bytes.drop 16).take 8 ++ bytes.drop 24 = bytes.drop 16 := hsplit 16
  have h8 : (bytes.drop 8).take 8 ++ bytes.drop 16 = bytes.drop 8 := hsplit 8
  rw [hrest, List.append_assoc, List.append_assoc, h16, h8, List.take_append_drop]

/-- A number of eight digits in base `2 ^ 8` is made of them. -/
theorem eight_digits {n : Nat} (hn : n < 2 ^ 64) :
    2 ^ 8 * (2 ^ 8 * (2 ^ 8 * (2 ^ 8 * (2 ^ 8 * (2 ^ 8 * (2 ^ 8 * (n / 2 ^ 56 % 2 ^ 8)
      + n / 2 ^ 48 % 2 ^ 8) + n / 2 ^ 40 % 2 ^ 8) + n / 2 ^ 32 % 2 ^ 8) + n / 2 ^ 24 % 2 ^ 8)
      + n / 2 ^ 16 % 2 ^ 8) + n / 2 ^ 8 % 2 ^ 8) + n % 2 ^ 8 = n := by
  -- each digit turns the number above its place into the one from its place on
  have hpush : ∀ k, 2 ^ 8 * (n / 2 ^ (k + 8)) + n / 2 ^ k % 2 ^ 8 = n / 2 ^ k := by
    intro k
    rw [Nat.pow_add, ← Nat.div_div_eq_div_mul]
    exact Nat.div_add_mod _ _
  have hfirst : n / 2 ^ 56 % 2 ^ 8 = n / 2 ^ 56 := Nat.mod_eq_of_lt (by omega)
  have hlast : 2 ^ 8 * (n / 2 ^ 8) + n % 2 ^ 8 = n := Nat.div_add_mod _ _
  rw [hfirst, hpush 48, hpush 40, hpush 32, hpush 24, hpush 16, hpush 8, hlast]

private theorem bytesValue_eight (b7 b6 b5 b4 b3 b2 b1 b0 : UInt8) :
    bytesValue [b7, b6, b5, b4, b3, b2, b1, b0]
      = 2 ^ 8 * (2 ^ 8 * (2 ^ 8 * (2 ^ 8 * (2 ^ 8 * (2 ^ 8 * (2 ^ 8 * b7.toNat + b6.toNat)
        + b5.toNat) + b4.toNat) + b3.toNat) + b2.toNat) + b1.toNat) + b0.toNat := by
  simp only [bytesValue, List.foldl_cons, List.foldl_nil, Nat.mul_zero, Nat.zero_add]

/-- A limb is the one that its bytes write. -/
theorem limbOfBytes_limbBytes (limb : UInt64) : limbOfBytes (limbBytes limb) = limb := by
  have hdigit : ∀ {k : Nat}, k < 64 →
      (limb >>> UInt64.ofNat k).toUInt8.toNat = limb.toNat / 2 ^ k % 2 ^ 8 :=
    fun hk => toNat_shiftRight_toUInt8 limb hk
  have h7 : (limb >>> 56).toUInt8.toNat = limb.toNat / 2 ^ 56 % 2 ^ 8 := hdigit (by decide)
  have h6 : (limb >>> 48).toUInt8.toNat = limb.toNat / 2 ^ 48 % 2 ^ 8 := hdigit (by decide)
  have h5 : (limb >>> 40).toUInt8.toNat = limb.toNat / 2 ^ 40 % 2 ^ 8 := hdigit (by decide)
  have h4 : (limb >>> 32).toUInt8.toNat = limb.toNat / 2 ^ 32 % 2 ^ 8 := hdigit (by decide)
  have h3 : (limb >>> 24).toUInt8.toNat = limb.toNat / 2 ^ 24 % 2 ^ 8 := hdigit (by decide)
  have h2 : (limb >>> 16).toUInt8.toNat = limb.toNat / 2 ^ 16 % 2 ^ 8 := hdigit (by decide)
  have h1 : (limb >>> 8).toUInt8.toNat = limb.toNat / 2 ^ 8 % 2 ^ 8 := hdigit (by decide)
  apply UInt64.toNat_inj.mp
  have hlength : (limbBytes limb).length ≤ 8 := Nat.le_refl 8
  rw [toNat_limbOfBytes hlength, limbBytes, bytesValue_eight]
  rw [h7, h6, h5, h4, h3, h2, h1, UInt64.toNat_toUInt8]
  exact eight_digits limb.toNat_lt

/-- A word is the one that its bytes write. -/
theorem ofBytes_toBytes (w : Word) : ofBytes w.toBytes = w := by
  have hlength : ∀ limb, (limbBytes limb).length = 8 := fun _ => rfl
  have htake : ∀ (limb : UInt64) (rest : List UInt8),
      (limbBytes limb ++ rest).take 8 = limbBytes limb :=
    fun limb _ => List.take_left' (hlength limb)
  have hdrop : ∀ (limb : UInt64) (rest : List UInt8) (n : Nat),
      (limbBytes limb ++ rest).drop (8 + n) = rest.drop n := by
    intro limb rest n
    rw [← List.drop_drop, List.drop_left' (hlength limb)]
  have h2 : w.toBytes.drop 8 = limbBytes w.limb2 ++ (limbBytes w.limb1 ++ limbBytes w.limb0) := by
    rw [toBytes, List.append_assoc, List.append_assoc]
    exact hdrop w.limb3 _ 0
  have h1 : w.toBytes.drop 16 = limbBytes w.limb1 ++ limbBytes w.limb0 := by
    rw [show 16 = 8 + 8 from rfl, ← List.drop_drop, h2]
    exact hdrop w.limb2 _ 0
  have h0 : w.toBytes.drop 24 = limbBytes w.limb0 := by
    rw [show 24 = 16 + 8 from rfl, ← List.drop_drop, h1]
    exact hdrop w.limb1 _ 0
  have h3 : w.toBytes.take 8 = limbBytes w.limb3 := by
    rw [toBytes, List.append_assoc, List.append_assoc]
    exact htake w.limb3 _
  rw [ofBytes, h3, h2, h1, h0, htake, htake, List.take_of_length_le (Nat.le_of_eq (hlength _))]
  simp only [limbOfBytes_limbBytes]

/-! ## Bytes as digits -/

private theorem bytesValue_concat (bytes : List UInt8) (b : UInt8) :
    bytesValue (bytes ++ [b]) = 2 ^ 8 * bytesValue bytes + b.toNat := by
  rw [bytesValue, List.foldl_append]
  rfl

/-- Bytes are moved up by those that come after them. -/
theorem bytesValue_append (front back : List UInt8) :
    bytesValue (front ++ back) = 2 ^ (8 * back.length) * bytesValue front + bytesValue back := by
  induction back using List.reverseRecOn with
  | nil =>
      rw [List.append_nil, List.length_nil, Nat.mul_zero, Nat.pow_zero, Nat.one_mul]
      rfl
  | append_singleton back b ih =>
      rw [← List.append_assoc, bytesValue_concat, ih, bytesValue_concat, List.length_append,
        List.length_singleton, Nat.mul_succ, Nat.pow_add]
      ring

private theorem bytesValue_lt (bytes : List UInt8) : bytesValue bytes < 2 ^ (8 * bytes.length) := by
  induction bytes using List.reverseRecOn with
  | nil => exact Nat.one_pos
  | append_singleton bytes b ih =>
      have hb := b.toNat_lt
      rw [bytesValue_concat, List.length_append, List.length_singleton, Nat.mul_succ, Nat.pow_add]
      omega

/-- A byte is the digit in its place. -/
theorem bytesValue_digit (front back : List UInt8) (b : UInt8) :
    bytesValue (front ++ b :: back) / 2 ^ (8 * back.length) % 2 ^ 8 = b.toNat := by
  have hb := b.toNat_lt
  have hback := bytesValue_lt back
  have hvalue : bytesValue (front ++ b :: back)
      = bytesValue back + 2 ^ (8 * back.length) * (2 ^ 8 * bytesValue front + b.toNat) := by
    rw [List.append_cons, bytesValue_append, bytesValue_concat, Nat.add_comm]
  rw [hvalue, Nat.add_mul_div_left _ _ (Nat.two_pow_pos _), Nat.div_eq_of_lt hback]
  omega

private theorem bytesValue_limbBytes (limb : UInt64) :
    bytesValue (limbBytes limb) = limb.toNat := by
  have hlength : (limbBytes limb).length ≤ 8 := Nat.le_refl 8
  rw [← toNat_limbOfBytes hlength, limbOfBytes_limbBytes]

/-- The bytes of a word write its value. -/
theorem bytesValue_toBytes (w : Word) : bytesValue w.toBytes = w.toNat := by
  have hlength : ∀ limb, (limbBytes limb).length = 8 := fun _ => rfl
  simp only [toBytes, bytesValue_append, bytesValue_limbBytes, hlength, toNat, UInt64.size]
  omega

/-- Thirty-two bytes write the word with their value. -/
theorem toNat_ofBytes {bytes : List UInt8} (h : bytes.length = 32) :
    (ofBytes bytes).toNat = bytesValue bytes := by
  rw [← bytesValue_toBytes, toBytes_ofBytes h]

/-- The bytes of a word are its digits in base 256, the most significant one first. -/
theorem getElem?_toBytes (w : Word) {i : Nat} (hi : i < 32) :
    w.toBytes[i]? = some (.ofNat (w.toNat / 256 ^ (31 - i) % 256)) := by
  have hlt : i < w.toBytes.length := hi
  have hplace : (256 : Nat) ^ (31 - i) = 2 ^ (8 * (w.toBytes.drop (i + 1)).length) := by
    rw [List.length_drop, length_toBytes, Nat.pow_mul]
    congr 1
    omega
  have hbyte := bytesValue_digit (w.toBytes.take i) (w.toBytes.drop (i + 1)) w.toBytes[i]
  rw [List.getElem_cons_drop, List.take_append_drop, bytesValue_toBytes, ← hplace] at hbyte
  have hdigit : w.toNat / 256 ^ (31 - i) % 256 = w.toBytes[i].toNat := hbyte
  rw [List.getElem?_eq_getElem hlt, hdigit, UInt8.ofNat_toNat]

end Word

private theorem Address.eq_of_bytes {a b : Address} (h : a.bytes = b.bytes) : a = b := by
  obtain ⟨bytes, hlength⟩ := a
  obtain ⟨bytes', hlength'⟩ := b
  cases h
  rfl

/-- An address is read back from the word that holds it. -/
theorem Address.ofWord_toWord (a : Address) : ofWord a.toWord = a := by
  have hlength : (List.replicate 12 0 ++ a.bytes).length = 32 := by
    rw [List.length_append, List.length_replicate, a.length_bytes]
  apply Address.eq_of_bytes
  rw [ofWord, toWord]
  dsimp only
  rw [Word.toBytes_ofBytes hlength]
  exact List.drop_left' List.length_replicate

/-- Different addresses are different words. -/
theorem Address.toWord_inj {a b : Address} : a.toWord = b.toWord ↔ a = b := by
  constructor
  · intro h
    rw [← ofWord_toWord a, h, ofWord_toWord]
  · intro h
    rw [h]

/-- The word of an address has the value that its bytes write. -/
theorem Address.toNat_toWord (a : Address) : a.toWord.toNat = Word.bytesValue a.bytes := by
  have hlength : (List.replicate 12 0 ++ a.bytes).length = 32 := by
    rw [List.length_append, List.length_replicate, a.length_bytes]
  have hzeros : Word.bytesValue (List.replicate 12 0) = 0 := rfl
  rw [toWord, Word.toNat_ofBytes hlength, Word.bytesValue_append, hzeros, Nat.mul_zero,
    Nat.zero_add]

theorem Address.toNat_toWord_lt (a : Address) : a.toWord.toNat < 2 ^ 160 := by
  have hlt := Word.bytesValue_lt a.bytes
  rwa [a.length_bytes, ← toNat_toWord] at hlt

/-- The address in a word is that of its low 160 bits. -/
theorem Address.toNat_toWord_ofWord (w : Word) : (ofWord w).toWord.toNat = w.toNat % 2 ^ 160 := by
  have hlow := Word.bytesValue_lt (w.toBytes.drop 12)
  have hlength : (w.toBytes.drop 12).length = 20 := by rw [List.length_drop, Word.length_toBytes]
  have hsplit := Word.bytesValue_append (w.toBytes.take 12) (w.toBytes.drop 12)
  rw [List.take_append_drop, Word.bytesValue_toBytes, hlength] at hsplit
  rw [hlength] at hlow
  rw [toNat_toWord, hsplit, Nat.mul_add_mod, Nat.mod_eq_of_lt hlow]
  rfl

/-- Words hold the same address exactly if they agree in their low 160 bits. -/
theorem Address.ofWord_inj {w w' : Word} :
    ofWord w = ofWord w' ↔ w.toNat % 2 ^ 160 = w'.toNat % 2 ^ 160 := by
  rw [← toWord_inj, ← Word.toNat_inj, toNat_toWord_ofWord, toNat_toWord_ofWord]

end WordMachine
