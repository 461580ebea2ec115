import WordMachine.Proofs.Word.Text

/-!
# Which texts are read as words

A numeral is read digit by digit onto a word.  The number that is written so far never gets
smaller, so a numeral is read exactly if its whole number is a word, and if it is not, the
first place at which something is wrong decides: a character that is no digit, or a digit with
which the number is no word any more.

## Main definitions

* `Word.StopsAt` — what is wrong with a text at a place

## Main results

* `Word.parseRadix_eq_ok_iff`, `Word.parseRadix_eq_error_iff` — the texts that are read and
  the errors of the others
* `Word.exists_parse_eq` — the radix of a literal
* `Word.numerals_are_read_exactly` — all of this
-/

namespace WordMachine.Word

open Text

variable {radix : Nat}

/-! ## One digit after another -/

/-- A text that is read writes the number of the word. -/
theorem value_of_parseDigits_eq_ok (hradix : radix ≤ 36) {input : String} {acc w : Word}
    {text : List Char} (h : parseDigits radix input acc text = .ok w) :
    valueFrom? radix acc.toNat text = some w.toNat := by
  induction text generalizing acc with
  | nil =>
      cases h
      rfl
  | cons c rest ih =>
      rw [parseDigits] at h
      cases hd : digitValue? radix c with
      | none =>
          rw [hd] at h
          cases h
      | some d =>
          have hlt : d < radix := (digitValue?_eq_some_iff.mp hd).1
          rw [hd] at h
          dsimp only at h
          rw [mul?_add?_digit acc hradix hlt] at h
          by_cases hfits : radix * acc.toNat + d < 2 ^ 256
          · rw [if_pos hfits] at h
            have hrest := ih h
            rw [toNat_ofNat_of_lt hfits] at hrest
            rw [valueFrom?, hd]
            exact hrest
          · rw [if_neg hfits] at h
            cases h

/-- Where reading stops, what comes before writes a word, and the character that comes next is
no digit or makes the number too large. -/
theorem exists_stop_of_parseDigits_eq_error (hradix : radix ≤ 36) {input : String} {acc : Word}
    {text : List Char} {e : NumeralError} (h : parseDigits radix input acc text = .error e) :
    ∃ before c after, text = before ++ c :: after ∧
      ∃ n < 2 ^ 256, valueFrom? radix acc.toNat before = some n ∧
        ((digitValue? radix c = none ∧ e = .invalidDigit input c) ∨
          ∃ d, digitValue? radix c = some d ∧ 2 ^ 256 ≤ radix * n + d ∧ e = .overflow input) := by
  induction text generalizing acc with
  | nil => cases h
  | cons c rest ih =>
      rw [parseDigits] at h
      cases hd : digitValue? radix c with
      | none =>
          rw [hd] at h
          cases h
          exact ⟨[], c, rest, rfl, acc.toNat, acc.toNat_lt, rfl, .inl ⟨hd, rfl⟩⟩
      | some d =>
          have hlt : d < radix := (digitValue?_eq_some_iff.mp hd).1
          rw [hd] at h
          dsimp only at h
          rw [mul?_add?_digit acc hradix hlt] at h
          by_cases hfits : radix * acc.toNat + d < 2 ^ 256
          · rw [if_pos hfits] at h
            obtain ⟨before, c', after, rfl, n, hn, hvalue, hwhy⟩ := ih h
            rw [toNat_ofNat_of_lt hfits] at hvalue
            refine ⟨c :: before, c', after, rfl, n, hn, ?_, hwhy⟩
            rw [valueFrom?, hd]
            exact hvalue
          · rw [if_neg hfits] at h
            cases h
            exact ⟨[], c, rest, rfl, acc.toNat, acc.toNat_lt, rfl,
              .inr ⟨d, hd, Nat.not_lt.mp hfits, rfl⟩⟩

/-! ## The place that decides -/

/-- What is wrong at a place of a text: the character there is no digit, or the text up to and
with it writes a number that is no word. -/
inductive StopsAt (radix : Nat) (text : String) (i : Nat) : NumeralError → Prop where
  | invalidDigit {c : Char} (hc : text.toList[i]? = some c) (hdigit : ∀ d, ¬ IsDigit radix c d) :
    StopsAt radix text i (.invalidDigit text c)
  | overflow {n : Nat} (hi : i < text.toList.length)
    (hvalue : Writes radix (text.toList.take (i + 1)) n) (hn : 2 ^ 256 ≤ n) :
    StopsAt radix text i (.overflow text)

private theorem exists_digit_of_writes {text : List Char} {n : Nat} (h : Writes radix text n)
    {c : Char} (hc : c ∈ text) : ∃ d, IsDigit radix c d := by
  obtain ⟨d, hd⟩ := forall_digit_of_valueFrom?_eq_some (writes_iff.mp h) c hc
  exact ⟨d, digitValue?_eq_some_iff.mp hd⟩

namespace StopsAt

variable {text : String} {i : Nat} {e e' : NumeralError}

/-- There is at most one thing wrong at a place. -/
theorem unique (h : StopsAt radix text i e) (h' : StopsAt radix text i e') : e = e' := by
  have hdigit {c : Char} {n : Nat} (hc : text.toList[i]? = some c)
      (hvalue : Writes radix (text.toList.take (i + 1)) n) : ∃ d, IsDigit radix c d := by
    refine exists_digit_of_writes hvalue (List.mem_of_getElem? (i := i) ?_)
    rw [List.getElem?_take_of_lt (Nat.lt_succ_self i), hc]
  cases h with
  | invalidDigit hc hnone =>
      cases h' with
      | invalidDigit hc' =>
          rw [hc] at hc'
          obtain rfl := Option.some_inj.mp hc'
          rfl
      | overflow hi hvalue =>
          obtain ⟨d, hd⟩ := hdigit hc hvalue
          exact absurd hd (hnone d)
  | overflow hi hvalue =>
      cases h' with
      | invalidDigit hc' hnone =>
          obtain ⟨d, hd⟩ := hdigit hc' hvalue
          exact absurd hd (hnone d)
      | overflow => rfl

private theorem lt_length (h : StopsAt radix text i e) : i < text.toList.length := by
  cases h with
  | invalidDigit hc => exact (List.getElem?_eq_some_iff.mp hc).1
  | overflow hi => exact hi

/-- Nothing is wrong in a part of the text that writes a word. -/
theorem le_of_writes (hradix : 0 < radix) {j n : Nat}
    (hvalue : Writes radix (text.toList.take i) n) (hn : n < 2 ^ 256)
    (h : StopsAt radix text j e) : i ≤ j := by
  by_contra hlt
  have hj : j < i := Nat.not_le.mp hlt
  cases h with
  | @invalidDigit c hc hnone =>
      have hmem : c ∈ text.toList.take i :=
        List.mem_of_getElem? (by rw [List.getElem?_take_of_lt hj, hc])
      obtain ⟨d, hd⟩ := exists_digit_of_writes hvalue hmem
      exact hnone d hd
  | @overflow m _ hfirst hm =>
      have hsplit := List.take_append_drop (j + 1) (text.toList.take i)
      rw [List.take_take, Nat.min_eq_left (by omega)] at hsplit
      -- reading on from a number that is no word does not lead back to one
      rw [writes_iff, ← hsplit, valueFrom?_append, writes_iff.mp hfirst, Option.bind_some] at hvalue
      have hle := le_of_valueFrom?_eq_some hradix hvalue
      omega

end StopsAt

/-! ## Numerals of one radix -/

private theorem parseRadix_of_ne_empty {text : String} (h : text ≠ "") :
    parseRadix radix text.toList = parseDigits radix text zero text.toList := by
  rw [parseRadix, if_neg (by simpa using h), String.ofList_toList]

/-- The texts that are read are the numerals of words. -/
theorem parseRadix_eq_ok_iff (hradix : radix ≤ 36) (text : String) (n : Nat) :
    (∃ w, parseRadix radix text.toList = .ok w ∧ w.toNat = n)
      ↔ text ≠ "" ∧ Writes radix text.toList n ∧ n < 2 ^ 256 := by
  constructor
  · rintro ⟨w, h, rfl⟩
    have hne : text ≠ "" := by
      rintro rfl
      cases h
    rw [parseRadix_of_ne_empty hne] at h
    exact ⟨hne, writes_iff.mpr (value_of_parseDigits_eq_ok hradix h), w.toNat_lt⟩
  · rintro ⟨hne, hvalue, hn⟩
    rw [parseRadix_of_ne_empty hne]
    exact ⟨ofNat n, parseDigits_of_value hradix (writes_iff.mp hvalue) hn, toNat_ofNat_of_lt hn⟩

/-- The error of a text that is not empty is what is wrong at the first place at which
something is. -/
theorem exists_first_stop_of_parseRadix_eq_error (hpos : 0 < radix) (hradix : radix ≤ 36)
    {text : String} (hne : text ≠ "") {e : NumeralError}
    (h : parseRadix radix text.toList = .error e) :
    ∃ i, StopsAt radix text i e ∧ ∀ j < i, ∀ e', ¬ StopsAt radix text j e' := by
  rw [parseRadix_of_ne_empty hne] at h
  obtain ⟨before, c, after, htext, n, hn, hvalue, hwhy⟩ :=
    exists_stop_of_parseDigits_eq_error hradix h
  have hbefore : text.toList.take before.length = before := by
    rw [htext, List.take_left]
  have hthrough : text.toList.take (before.length + 1) = before ++ [c] := by
    rw [htext, List.take_length_add_append]
    rfl
  refine ⟨before.length, ?_, fun j hj e' hstop => ?_⟩
  · obtain ⟨hd, rfl⟩ | ⟨d, hd, hlarge, rfl⟩ := hwhy
    · refine .invalidDigit (by rw [htext, List.getElem?_append_right (Nat.le_refl _)]; simp) ?_
      intro d hdigit
      rw [digitValue?_eq_some_iff.mpr hdigit] at hd
      cases hd
    · refine .overflow (by rw [htext]; simp) (writes_iff.mpr ?_) hlarge
      rw [hthrough, valueFrom?_append, ← toNat_zero, hvalue, Option.bind_some, valueFrom?, hd]
      rfl
  · have hle := hstop.le_of_writes hpos (writes_iff.mpr (by rwa [hbefore])) hn
    omega

/-- The error of a text tells what is wrong with it first. -/
theorem parseRadix_eq_error_iff (hpos : 0 < radix) (hradix : radix ≤ 36) (text : String)
    (e : NumeralError) :
    parseRadix radix text.toList = .error e
      ↔ (text = "" ∧ e = .empty) ∨
        ∃ i, StopsAt radix text i e ∧ ∀ j < i, ∀ e', ¬ StopsAt radix text j e' := by
  by_cases hempty : text = ""
  · subst hempty
    constructor
    · intro h
      cases h
      exact .inl ⟨rfl, rfl⟩
    · rintro (⟨-, rfl⟩ | ⟨i, hstop, -⟩)
      · rfl
      · exact absurd hstop.lt_length (Nat.not_lt_zero i)
  constructor
  · exact fun h => .inr (exists_first_stop_of_parseRadix_eq_error hpos hradix hempty h)
  · rintro (⟨h, -⟩ | ⟨i, hstop, hfirst⟩)
    · exact absurd h hempty
    · cases hread : parseRadix radix text.toList with
      | ok w =>
          obtain ⟨-, hvalue, hn⟩ := (parseRadix_eq_ok_iff hradix text w.toNat).mp ⟨w, hread, rfl⟩
          have hwhole : Writes radix (text.toList.take text.toList.length) w.toNat := by
            rwa [List.take_length]
          have hle := hstop.le_of_writes hpos hwhole hn
          exact absurd hstop.lt_length (Nat.not_lt.mpr hle)
      | error e' =>
          -- both errors are told by the first place at which something is wrong
          obtain ⟨j, hstop', hfirst'⟩ :=
            exists_first_stop_of_parseRadix_eq_error hpos hradix hempty hread
          obtain hlt | rfl | hlt := Nat.lt_trichotomy i j
          · exact absurd hstop (hfirst' i hlt e)
          · rw [hstop.unique hstop']
          · exact absurd hstop' (hfirst j hlt e')

/-! ## Literals -/

private theorem hexLiteral?_eq_some_iff {text digits : List Char} :
    hexLiteral? text = some digits ↔ text = '0' :: 'x' :: digits ∨ text = '0' :: 'X' :: digits := by
  rw [hexLiteral?.eq_def]
  split
  · simp
  · simp
  · next hsmall hcapital =>
      constructor
      · rintro ⟨⟩
      · rintro (rfl | rfl)
        · exact absurd rfl (hsmall digits)
        · exact absurd rfl (hcapital digits)

/-- Without the blanks around it, a literal is hexadecimal after its mark, and else decimal. -/
theorem exists_parse_eq (text : String) :
    ∃ core, Trims text.toList core ∧
      (∀ digits, core = '0' :: 'x' :: digits ∨ core = '0' :: 'X' :: digits →
        parse text = parseRadix 16 digits) ∧
      ((∀ digits, core ≠ '0' :: 'x' :: digits ∧ core ≠ '0' :: 'X' :: digits) →
        parse text = parseRadix 10 core) := by
  refine ⟨trim text.toList, trims_trim text.toList, fun digits hmark => ?_, fun hmark => ?_⟩
  · rw [parse, parseChars, hexLiteral?_eq_some_iff.mpr hmark]
  · have hnone : hexLiteral? (trim text.toList) = none := by
      rw [Option.eq_none_iff_forall_ne_some]
      intro digits hdigits
      obtain h | h := hexLiteral?_eq_some_iff.mp hdigits
      · exact (hmark digits).1 h
      · exact (hmark digits).2 h
    rw [parse, parseChars, hnone]

/-- A text is read exactly if it is the numeral of a word.  Else it is empty, or the first place
decides at which a character is no digit or the number written so far is no word.  Literals are
read so without the blanks around them, in a radix that their mark tells. -/
theorem numerals_are_read_exactly (hradix : 2 ≤ radix ∧ radix ≤ 36) (text : String) :
    (∀ n, (∃ w, parseRadix radix text.toList = .ok w ∧ w.toNat = n)
      ↔ text ≠ "" ∧ Writes radix text.toList n ∧ n < 2 ^ 256) ∧
    (∀ e, parseRadix radix text.toList = .error e
      ↔ (text = "" ∧ e = .empty) ∨
        ∃ i, StopsAt radix text i e ∧ ∀ j < i, ∀ e', ¬ StopsAt radix text j e') ∧
    ∃ core, Trims text.toList core ∧
      (∀ digits, core = '0' :: 'x' :: digits ∨ core = '0' :: 'X' :: digits →
        parse text = parseRadix 16 digits) ∧
      ((∀ digits, core ≠ '0' :: 'x' :: digits ∧ core ≠ '0' :: 'X' :: digits) →
        parse text = parseRadix 10 core) :=
  ⟨parseRadix_eq_ok_iff hradix.2 text, parseRadix_eq_error_iff (by omega) hradix.2 text,
    exists_parse_eq text⟩

/-- Zeros in front and the case of letters do not matter; a figure that is too large for the
radix does, also where later ones are not. -/
theorem numerals_are_read_exactly_of_mixed_case :
    (2 ≤ 16 ∧ 16 ≤ 36) ∧ (∃ w, parseRadix 16 "00fF".toList = .ok w ∧ w.toNat = 255) ∧
      (2 ≤ 2 ∧ 2 ≤ 36) ∧ parseRadix 2 "1021".toList = .error (.invalidDigit "1021" '2') := by
  have hwrites : Writes 16 "00fF".toList 255 := writes_iff.mpr (by decide)
  have hbefore : Writes 2 ("1021".toList.take 2) 2 := writes_iff.mpr (by decide)
  have hstop : StopsAt 2 "1021" 2 (.invalidDigit "1021" '2') := by
    refine .invalidDigit rfl fun d hd => ?_
    have hvalue := digitValue?_eq_some_iff.mpr hd
    rw [show digitValue? 2 '2' = none by decide] at hvalue
    cases hvalue
  refine ⟨by decide, ?_, by decide, ?_⟩
  · exact ((numerals_are_read_exactly (by decide) "00fF").1 255).mpr
      ⟨by decide, hwrites, by decide⟩
  · refine ((numerals_are_read_exactly (by decide) "1021").2.1 _).mpr
      (.inr ⟨2, hstop, fun j hj e hstop' => ?_⟩)
    have hle := hstop'.le_of_writes (by decide) hbefore (by decide)
    omega

end WordMachine.Word
