import WordMachine.Proofs.Program.Json

/-!
# Bytes written in hexadecimal

Addresses and the sources of a program in JSON are bytes, written as successive pairs of
hexadecimal digits.  Two characters are read as a numeral of their own, though, and a numeral
may start with a plus sign; so a pair may also be a plus sign and one digit.  Apart from such
pairs, exactly the digits are read.

## Main definitions

* `Text.IsHexPair`, `Text.IsSignedDigit` — two characters and their byte
* `Text.InPairs` — a text of pairs and their bytes

## Main results

* `Text.hexBytes?_eq_some_iff` — which pairs of characters are read
* `hex_bytes_are_read_in_pairs` — addresses and sources
* `signed_digits_are_read` — pairs that are no two digits
-/

namespace WordMachine

namespace Text

/-- Two hexadecimal digits, the high one first, and the byte that they make up. -/
def IsHexPair (high low : Char) (b : UInt8) : Prop :=
  ∃ h l, IsDigit 16 high h ∧ IsDigit 16 low l ∧ b.toNat = 16 * h + l

/-- A plus sign before one hexadecimal digit, and the byte with the value of the digit. -/
def IsSignedDigit (high low : Char) (b : UInt8) : Prop :=
  high = '+' ∧ IsDigit 16 low b.toNat

/-- Successive pairs of characters stand for successive bytes. -/
inductive InPairs (stands : Char → Char → UInt8 → Prop) : List Char → List UInt8 → Prop where
  | nil : InPairs stands [] []
  | cons {high low : Char} {b : UInt8} {text : List Char} {bytes : List UInt8}
    (hpair : stands high low b) (hrest : InPairs stands text bytes) :
    InPairs stands (high :: low :: text) (b :: bytes)

/-- Two characters as the numeral of a byte. -/
def IsBytePair (high low : Char) (b : UInt8) : Prop :=
  IsHexPair high low b ∨ IsSignedDigit high low b

/-- Two characters are read as the numeral of a byte. -/
theorem hexByte?_eq_some_iff {high low : Char} {b : UInt8} :
    hexByte? high low = some b ↔ IsBytePair high low b := by
  constructor
  · intro h
    obtain ⟨l, hl, h⟩ := Option.bind_eq_some_iff.mp h
    have hl := digitValue?_eq_some_iff.mp hl
    split at h
    · next hsign =>
        cases h
        refine .inr ⟨hsign, ?_⟩
        rwa [UInt8.toNat_ofNat_of_lt' (Nat.lt_trans hl.1 (by decide))]
    · obtain ⟨d, hd, h⟩ := Option.bind_eq_some_iff.mp h
      have hd := digitValue?_eq_some_iff.mp hd
      have hlt : 16 * d + l < 256 := by
        have := hd.1
        have := hl.1
        omega
      cases h
      exact .inl ⟨d, l, hd, hl, UInt8.toNat_ofNat_of_lt' hlt⟩
  · rintro (⟨d, l, hd, hl, hb⟩ | ⟨rfl, hl⟩)
    · have hd := digitValue?_eq_some_iff.mpr hd
      have hsign : high ≠ '+' := by
        rintro rfl
        rw [show digitValue? 16 '+' = none by decide] at hd
        cases hd
      rw [hexByte?, digitValue?_eq_some_iff.mpr hl, Option.bind_eq_bind, Option.bind_some,
        if_neg hsign, hd, Option.bind_some, ← hb, UInt8.ofNat_toNat]
      rfl
    · rw [hexByte?, digitValue?_eq_some_iff.mpr hl, Option.bind_eq_bind, Option.bind_some,
        if_pos rfl, UInt8.ofNat_toNat]
      rfl

/-- Successive pairs are read as the bytes that they stand for. -/
theorem hexBytes?_eq_some_iff {text : List Char} {bytes : List UInt8} :
    hexBytes? text = some bytes ↔ InPairs IsBytePair text bytes := by
  constructor
  · intro h
    fun_induction hexBytes? text generalizing bytes with
    | case1 =>
        cases h
        exact .nil
    | case2 => cases h
    | case3 high low rest ih =>
        obtain ⟨b, hb, h⟩ := Option.bind_eq_some_iff.mp h
        obtain ⟨more, hmore, h⟩ := Option.bind_eq_some_iff.mp h
        cases h
        exact .cons (hexByte?_eq_some_iff.mp hb) (ih hmore)
  · intro h
    induction h with
    | nil => rfl
    | cons hpair _ ih =>
        rw [hexBytes?, hexByte?_eq_some_iff.mpr hpair, ih]
        rfl

namespace InPairs

variable {stands stands' : Char → Char → UInt8 → Prop} {text : List Char} {bytes : List UInt8}

private theorem length_eq (h : InPairs stands text bytes) : text.length = 2 * bytes.length := by
  induction h with
  | nil => rfl
  | cons _ _ ih =>
      simp only [List.length_cons, ih]
      omega

/-- Pairs that stand for their bytes in one way do so in another one, if the pairs of this
text do. -/
theorem imp (himp : ∀ high ∈ text, ∀ low ∈ text, ∀ b, stands high low b → stands' high low b)
    (h : InPairs stands text bytes) : InPairs stands' text bytes := by
  induction h with
  | nil => exact .nil
  | cons hpair _ ih =>
      refine .cons (himp _ (by simp) _ (by simp) _ hpair) (ih fun high hhigh low hlow b => ?_)
      exact himp high (by simp [hhigh]) low (by simp [hlow]) b

end InPairs

/-- Without a plus sign, pairs are read exactly if they are digits. -/
theorem inPairs_iff_of_no_sign {text : List Char} {bytes : List UInt8} (h : '+' ∉ text) :
    InPairs IsBytePair text bytes ↔ InPairs IsHexPair text bytes := by
  constructor
  · refine InPairs.imp fun high hhigh low _ b hpair => hpair.resolve_right ?_
    rintro ⟨rfl, -⟩
    exact h hhigh
  · exact InPairs.imp fun _ _ _ _ _ => .inl

/-- Digits and plus signs are ASCII characters. -/
theorem isAscii_of_inPairs {text : List Char} {bytes : List UInt8}
    (h : InPairs IsBytePair text bytes) : isAscii text = true := by
  have hdigit {c : Char} {d : Nat} (hc : IsDigit 16 c d) : c.toNat < 128 := by
    have hascii : isAscii (smallSymbols ++ capitalSymbols) = true := by decide
    have hmem : c ∈ smallSymbols ++ capitalSymbols := by
      obtain ⟨-, hsmall | hcapital⟩ := hc
      · exact List.mem_append_left _ (List.mem_of_getElem? hsmall)
      · exact List.mem_append_right _ (List.mem_of_getElem? hcapital)
    exact of_decide_eq_true (List.all_eq_true.mp hascii c hmem)
  rw [isAscii, List.all_eq_true]
  simp only [decide_eq_true_iff]
  induction h with
  | nil => simp
  | cons hpair _ ih =>
      refine List.forall_mem_cons.mpr ⟨?_, List.forall_mem_cons.mpr ⟨?_, ih⟩⟩
      · obtain ⟨_, _, hhigh, -, -⟩ | ⟨rfl, -⟩ := hpair
        · exact hdigit hhigh
        · decide
      · obtain ⟨_, _, -, hlow, -⟩ | ⟨-, hlow⟩ := hpair
        · exact hdigit hlow
        · exact hdigit hlow

private theorem not_isHexPair_plus {low : Char} {b : UInt8} : ¬ IsHexPair '+' low b := by
  rintro ⟨d, -, hd, -, -⟩
  rw [← digitValue?_eq_some_iff] at hd
  cases hd

private theorem not_isBytePair_mark {high : Char} {b : UInt8} : ¬ IsBytePair high 'x' b := by
  have hmark {d : Nat} : ¬ IsDigit 16 'x' d := by
    rw [← digitValue?_eq_some_iff]
    exact nofun
  rintro (⟨_, _, -, hlow, -⟩ | ⟨-, hlow⟩)
  · exact hmark hlow
  · exact hmark hlow

private theorem after?_eq_some_iff {head text rest : List Char} :
    after? head text = some rest ↔ text = head ++ rest := by
  fun_induction after? head text with
  | case1 => simp [eq_comm]
  | case2 => simp
  | case3 h hs cs ih => simp [ih]
  | case4 h hs c cs hne => simp [Ne.symm hne]

end Text

open Text

/-! ## Addresses -/

/-- The text is `0x` or `0X` and forty characters, of which successive pairs stand for the bytes
of the address. -/
def Address.Written (stands : Char → Char → UInt8 → Prop) (s : String) (a : Address) : Prop :=
  ∃ mark digits, (mark = 'x' ∨ mark = 'X') ∧ s.toList = '0' :: mark :: digits ∧
    digits.length = 40 ∧ InPairs stands digits a.bytes

private theorem Address.body?_eq_some_iff {text body : List Char} :
    body? text = some body ↔ ∃ mark, (mark = 'x' ∨ mark = 'X') ∧ text = '0' :: mark :: body := by
  rw [body?.eq_def]
  split
  · simp
  · simp
  · next hsmall hcapital =>
      constructor
      · intro h
        cases h
      · rintro ⟨mark, rfl | rfl, rfl⟩
        · exact absurd rfl (hsmall body)
        · exact absurd rfl (hcapital body)

/-- An address is read from its pairs. -/
theorem Address.parse_eq_ok_iff {s : String} {a : Address} :
    parse s = .ok a ↔ Written IsBytePair s a := by
  have hparse : parse s = .ok a ↔ parse? s.toList = some a := by
    rw [parse]
    cases parse? s.toList with
    | none => simp
    | some b => simp
  rw [hparse, parse?]
  simp only [Option.bind_eq_bind, Option.bind_eq_some_iff, body?_eq_some_iff,
    hexBytes?_eq_some_iff]
  constructor
  · rintro ⟨digits, ⟨mark, hmark, htext⟩, bytes, hpairs, h⟩
    split at h
    · next hlength =>
        cases h
        exact ⟨mark, digits, hmark, htext, by rw [hpairs.length_eq, hlength], hpairs⟩
    · cases h
  · rintro ⟨mark, digits, hmark, htext, -, hpairs⟩
    exact ⟨digits, ⟨mark, hmark, htext⟩, a.bytes, hpairs, dif_pos a.length_bytes⟩

/-! ## Sources -/

namespace Program

/-- The text without `0x` in front of it, if it has that, consists of pairs that stand for the
bytes of the source. -/
def SourceWritten (stands : Char → Char → UInt8 → Prop) (s : String) (source : Source) : Prop :=
  ∃ digits, (s.toList = digits ∨ s.toList = '0' :: 'x' :: digits) ∧ InPairs stands digits source

private theorem sourceOfText_eq_ok_iff_inPairs {text : List Char} {source : Source} :
    sourceOfText text = .ok source
      ↔ InPairs IsBytePair ((after? ['0', 'x'] text).getD text) source := by
  rw [sourceOfText]
  constructor
  · intro h
    split at h
    · cases h
    · split at h
      · next hbytes =>
          cases h
          exact hexBytes?_eq_some_iff.mp hbytes
      · cases h
  · intro h
    have hlength := h.length_eq
    rw [if_neg (by simp [isAscii_of_inPairs h]; omega), hexBytes?_eq_some_iff.mpr h]

/-- A source is read from its pairs. -/
theorem sourceOfText_eq_ok_iff {s : String} {source : Source} :
    sourceOfText s.toList = .ok source ↔ SourceWritten IsBytePair s source := by
  rw [sourceOfText_eq_ok_iff_inPairs]
  constructor
  · intro h
    cases hafter : after? ['0', 'x'] s.toList with
    | none =>
        rw [hafter] at h
        exact ⟨s.toList, .inl rfl, h⟩
    | some digits =>
        rw [hafter] at h
        exact ⟨digits, .inr (after?_eq_some_iff.mp hafter), h⟩
  · rintro ⟨digits, htext | htext, hpairs⟩
    · -- a text of pairs does not start with the mark, which would be a pair of its own
      have hafter : after? ['0', 'x'] s.toList = none := by
        rw [Option.eq_none_iff_forall_ne_some]
        intro rest hrest
        rw [htext, after?_eq_some_iff] at hrest
        rw [hrest] at hpairs
        cases hpairs with
        | cons hpair _ => exact not_isBytePair_mark hpair
      rw [hafter, htext]
      exact hpairs
    · rw [after?_eq_some_iff.mpr htext]
      exact hpairs

end Program

/-- Addresses and sources are read from successive pairs of characters, each of which is two
hexadecimal digits or a plus sign and one digit: an address after `0x` or `0X` and from forty
characters, a source after at most one `0x`, and the sources of a program in JSON each from its
string.  A text without a plus sign is read exactly if it is digits. -/
theorem hex_bytes_are_read_in_pairs (s : String) (texts : List String) (rest : List Json.Token) :
    (∀ a : Address, Address.parse s = .ok a ↔ Address.Written IsBytePair s a) ∧
    (∀ sources : List Source,
      Program.sourceList ((Json.Value.list (texts.map .text)).tokens ++ rest) = .ok (sources, rest)
        ↔ List.Forall₂ (Program.SourceWritten IsBytePair) texts sources) ∧
    ('+' ∉ s.toList →
      (∀ a : Address, Address.parse s = .ok a ↔ Address.Written IsHexPair s a) ∧
      ∀ source : Source, Program.sourceOfText s.toList = .ok source
        ↔ Program.SourceWritten IsHexPair s source) := by
  refine ⟨fun a => Address.parse_eq_ok_iff, fun sources => ?_, fun hsign => ⟨?_, ?_⟩⟩
  · simp only [Program.sourceList_eq_ok_iff, Program.sourceOfText_eq_ok_iff]
  · intro a
    rw [Address.parse_eq_ok_iff]
    refine exists_congr fun mark => exists_congr fun digits => and_congr_right fun _ =>
      and_congr_right fun htext => and_congr_right fun _ => inPairs_iff_of_no_sign ?_
    rw [htext] at hsign
    exact fun hmem => hsign (by simp [hmem])
  · intro source
    rw [Program.sourceOfText_eq_ok_iff]
    refine exists_congr fun digits => and_congr_right fun htext => inPairs_iff_of_no_sign ?_
    obtain htext | htext := htext
    · rwa [htext] at hsign
    · rw [htext] at hsign
      exact fun hmem => hsign (by simp [hmem])

/-- Digits in either case, after the second mark and after none. -/
theorem hex_bytes_are_read_in_pairs_of_digits :
    '+' ∉ "0XaB000000000000000000000000000000000000Ef".toList ∧
    Address.Written IsHexPair "0XaB000000000000000000000000000000000000Ef"
      ⟨0xab :: List.replicate 18 0 ++ [0xef], by decide⟩ ∧
    '+' ∉ "2101".toList ∧ Program.SourceWritten IsHexPair "2101" [33, 1] := by
  have haddress : '+' ∉ "0XaB000000000000000000000000000000000000Ef".toList := by decide
  have hsource : '+' ∉ "2101".toList := by decide
  exact ⟨haddress, (((hex_bytes_are_read_in_pairs _ [] []).2.2 haddress).1 _).mp (by decide),
    hsource, (((hex_bytes_are_read_in_pairs _ [] []).2.2 hsource).2 _).mp (by decide)⟩

/-- A plus sign and a digit are no two digits, and they are read all the same. -/
theorem signed_digits_are_read :
    (∃ a, Address.parse "0x+f00000000000000000000000000000000000000" = .ok a ∧
      ¬ Address.Written IsHexPair "0x+f00000000000000000000000000000000000000" a) ∧
    Program.sourceOfText "+f".toList = .ok [15] ∧ ¬ Program.SourceWritten IsHexPair "+f" [15] := by
  refine ⟨⟨⟨15 :: List.replicate 19 0, by decide⟩, by decide, ?_⟩, by decide, ?_⟩
  · rintro ⟨mark, digits, -, htext, -, hpairs⟩
    obtain rfl : '+' :: 'f' :: List.replicate 38 '0' = digits :=
      (List.cons.inj (List.cons.inj htext).2).2
    cases hpairs with
    | cons hpair _ => exact not_isHexPair_plus hpair
  · rintro ⟨digits, htext | htext, hpairs⟩
    · rw [← htext] at hpairs
      cases hpairs with
      | cons hpair _ => exact not_isHexPair_plus hpair
    · cases htext

end WordMachine
