import Mathlib
import WordMachine.Proofs.Text.Numeral

/-!
# Texts in small letters

Blanks, and so the words of a text, do not depend on the case of its letters.  A text without
letters has no case at all; decimal numerals are such texts.

## Main results

* `Text.trim_map_toLower`, `Text.words_map_toLower` — cutting at blanks
* `Text.eq_of_map_toLower_eq` — texts without letters
* `Text.isAlpha_of_size?_eq_some` — numerals have no letters
-/

namespace WordMachine.Text

/-! ## Characters -/

private theorem toLower_of_not_isAlpha {c : Char} (h : c.isAlpha = false) : c.toLower = c := by
  refine Char.toLower_eq_of_not_isUpper ?_
  rw [Char.isAlpha, Bool.or_eq_false_iff] at h
  simp [h.1]

/-- A character that is no letter is no other character in small letters. -/
theorem eq_of_toLower_eq {c d : Char} (hc : c.isAlpha = false) (h : d.toLower = c.toLower) :
    d = c := by
  have hd : d.isAlpha = false := by
    rw [← Char.isAlpha_toLower_eq_isAlpha, h, Char.isAlpha_toLower_eq_isAlpha, hc]
  rwa [toLower_of_not_isAlpha hc, toLower_of_not_isAlpha hd] at h

theorem toLower_eq_iff {c d : Char} (hc : c.isAlpha = false) : d.toLower = c ↔ d = c := by
  constructor
  · intro h
    exact eq_of_toLower_eq hc (h.trans (toLower_of_not_isAlpha hc).symm)
  · rintro rfl
    exact toLower_of_not_isAlpha hc

theorem eq_of_map_toLower_eq {text text' : List Char} (halpha : ∀ c ∈ text, c.isAlpha = false)
    (h : text'.map Char.toLower = text.map Char.toLower) : text' = text := by
  induction text generalizing text' with
  | nil => simpa using h
  | cons c text ih =>
      obtain ⟨hc, halpha⟩ := List.forall_mem_cons.mp halpha
      rw [List.map_cons, List.map_eq_cons_iff] at h
      obtain ⟨d, rest, rfl, hd, hrest⟩ := h
      rw [eq_of_toLower_eq hc hd, ih halpha hrest]

/-- No letter is blank. -/
theorem isAlpha_of_isBlank {c : Char} (h : isBlank c = true) : c.isAlpha = false := by
  have hval : c.val.toNat = c.toNat := rfl
  simp only [isBlank, Bool.or_eq_true, Bool.and_eq_true, decide_eq_true_eq, beq_iff_eq] at h
  simp only [Char.isAlpha, Char.isUpper, Char.isLower, Bool.or_eq_false_iff, ge_iff_le,
    Bool.and_eq_false_imp, decide_eq_true_eq, decide_eq_false_iff_not, UInt32.le_iff_toNat_le, hval]
  have hletters : 'A'.val.toNat = 65 ∧ 'Z'.val.toNat = 90 ∧ 'a'.val.toNat = 97 ∧
      'z'.val.toNat = 122 := by decide
  omega

private theorem isBlank_toLower (c : Char) : isBlank c.toLower = isBlank c := by
  by_cases hc : c.isAlpha = true
  · have hblank {d : Char} (hd : d.isAlpha = true) : isBlank d = false := by
      by_contra hblank
      rw [isAlpha_of_isBlank (by simpa using hblank)] at hd
      cases hd
    rw [hblank hc, hblank (by rwa [Char.isAlpha_toLower_eq_isAlpha])]
  · rw [toLower_of_not_isAlpha (by simpa using hc)]

/-! ## Cutting at blanks -/

private theorem dropWhile_map_toLower (text : List Char) :
    (text.map Char.toLower).dropWhile isBlank = (text.dropWhile isBlank).map Char.toLower := by
  have hblank : isBlank ∘ Char.toLower = isBlank := funext isBlank_toLower
  rw [List.dropWhile_map, hblank]

theorem trim_map_toLower (text : List Char) :
    trim (text.map Char.toLower) = (trim text).map Char.toLower := by
  rw [trim, trim, trimEnd, trimEnd, dropWhile_map_toLower, ← List.map_reverse,
    dropWhile_map_toLower, List.map_reverse]

private theorem wordsFrom_map_toLower (word text : List Char) :
    wordsFrom (word.map Char.toLower) (text.map Char.toLower)
      = (wordsFrom word text).map (List.map Char.toLower) := by
  induction text generalizing word with
  | nil => cases word <;> simp [wordsFrom]
  | cons c rest ih =>
      have hnext := ih (c :: word)
      have hnil := ih []
      cases word <;> cases hc : isBlank c <;>
        simp_all [wordsFrom, isBlank_toLower]

theorem words_map_toLower (text : List Char) :
    words (text.map Char.toLower) = (words text).map (List.map Char.toLower) :=
  wordsFrom_map_toLower [] text

/-! ## Numerals -/

private theorem isAlpha_of_digit {c : Char} {d : Nat} (h : digitValue? 10 c = some d) :
    c.isAlpha = false := by
  have hsymbols : ∀ d < 10, smallSymbols[d]?.all (! ·.isAlpha) ∧
      capitalSymbols[d]?.all (! ·.isAlpha) := by decide
  obtain ⟨hd, hsmall | hcapital⟩ := digitValue?_eq_some_iff.mp h
  · simpa [hsmall] using (hsymbols d hd).1
  · simpa [hcapital] using (hsymbols d hd).2

private theorem isAlpha_of_decimalFrom? {digits : List Char} {value : Nat}
    (h : decimalFrom? 0 digits = some value) : ∀ c ∈ digits, c.isAlpha = false := by
  intro c hc
  rw [decimalFrom?_eq] at h
  obtain ⟨d, hd⟩ := forall_digit_of_valueFrom?_eq_some h c hc
  exact isAlpha_of_digit hd

/-- A numeral is digits, after a sign or not. -/
theorem exists_digits_of_size?_eq_some {text : List Char} {n : UInt64} (h : size? text = some n) :
    ∃ digits value, (text = digits ∨ text = '+' :: digits) ∧
      decimalFrom? 0 digits = some value := by
  unfold size? at h
  simp only [Option.bind_eq_bind] at h
  split at h
  · next rest =>
      split at h
      · cases h
      · obtain ⟨value, hvalue, -⟩ := Option.bind_eq_some_iff.mp h
        exact ⟨rest, value, .inr rfl, hvalue⟩
  · split at h
    · cases h
    · obtain ⟨value, hvalue, -⟩ := Option.bind_eq_some_iff.mp h
      exact ⟨text, value, .inl rfl, hvalue⟩

/-- No letter stands in a decimal numeral. -/
theorem isAlpha_of_size?_eq_some {text : List Char} {n : UInt64} (h : size? text = some n) :
    ∀ c ∈ text, c.isAlpha = false := by
  obtain ⟨digits, value, rfl | rfl, hvalue⟩ := exists_digits_of_size?_eq_some h
  · exact isAlpha_of_decimalFrom? hvalue
  · exact List.forall_mem_cons.mpr ⟨by decide, isAlpha_of_decimalFrom? hvalue⟩

end WordMachine.Text
