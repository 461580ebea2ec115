import Mathlib.Data.List.DropRight
import WordMachine.Text.Blank

/-!
# Texts without the blanks around them

## Main definitions

* `Text.Trims` — a text and what is left of it without the blanks at its ends

## Main results

* `Text.trims_trim` — trimming leaves that
* `Text.trim_of_forall` — a text without blanks is left as it is
* `Text.words_append_blank` — a blank ends a word
-/

namespace WordMachine.Text

/-- The text is `core` with nothing but blanks before and after it, and neither end of `core`
is blank. -/
structure Trims (text core : List Char) : Prop where
  around : ∃ front back, text = front ++ core ++ back ∧ ∀ c ∈ front ++ back, isBlank c = true
  first : ∀ c ∈ core.head?, isBlank c = false
  last : ∀ c ∈ core.getLast?, isBlank c = false

private theorem trimEnd_eq_rdropWhile (text : List Char) :
    trimEnd text = text.rdropWhile isBlank := rfl

private theorem rdropWhile_append_rtakeWhile {α : Type} (p : α → Bool) (l : List α) :
    l.rdropWhile p ++ l.rtakeWhile p = l := by
  rw [List.rdropWhile, List.rtakeWhile, ← List.reverse_append, List.takeWhile_append_dropWhile,
    List.reverse_reverse]

/-- Trimming leaves the text between the blanks at its ends. -/
theorem trims_trim (text : List Char) : Trims text (trim text) := by
  rw [trim, trimEnd_eq_rdropWhile]
  refine ⟨⟨text.takeWhile isBlank, (text.dropWhile isBlank).rtakeWhile isBlank, ?_, ?_⟩, ?_, ?_⟩
  · rw [List.append_assoc, rdropWhile_append_rtakeWhile, List.takeWhile_append_dropWhile]
  · intro c hc
    obtain hc | hc := List.mem_append.mp hc
    · exact List.mem_takeWhile_imp hc
    · exact List.mem_rtakeWhile_imp hc
  · intro c hc
    -- what is left starts where the text without its front starts
    obtain ⟨back, hback⟩ := List.rdropWhile_prefix isBlank (text.dropWhile isBlank)
    have hhead : (text.dropWhile isBlank).head? = some c := by
      rw [← hback, List.head?_append, hc, Option.some_or]
    have hnot := List.head?_dropWhile_not isBlank text
    rwa [hhead] at hnot
  · intro c hc
    have hne : (text.dropWhile isBlank).rdropWhile isBlank ≠ [] := by
      rintro hnil
      rw [hnil] at hc
      cases hc
    have hnot := List.rdropWhile_last_not isBlank _ hne
    rw [List.getLast?_eq_some_getLast hne] at hc
    obtain rfl := Option.some_inj.mp hc
    exact Bool.eq_false_iff.mpr hnot

/-- A text without blanks has none at its ends. -/
theorem trim_of_forall {text : List Char} (h : ∀ c ∈ text, isBlank c = false) :
    trim text = text := by
  have hfront {cs : List Char} (hcs : ∀ c ∈ cs, isBlank c = false) : cs.dropWhile isBlank = cs := by
    match cs with
    | [] => rfl
    | c :: rest => rw [List.dropWhile_cons_of_neg (by simp [hcs c])]
  rw [trim, hfront h, trimEnd, hfront (by simpa using h), List.reverse_reverse]

/-- A blank at the end of a text is cut off. -/
theorem trim_concat {c : Char} (hc : isBlank c = true) (text : List Char) :
    trim (text ++ [c]) = trim text := by
  rw [trim, trim, trimEnd_eq_rdropWhile, trimEnd_eq_rdropWhile, List.dropWhile_append]
  split
  · next h =>
      rw [List.isEmpty_iff.mp h, List.dropWhile_cons_of_pos hc]
      rfl
  · rw [List.rdropWhile_concat_pos _ _ _ hc]

/-- A text that does not start with a blank keeps its first character. -/
theorem exists_trim_cons {c : Char} (hc : isBlank c = false) (rest : List Char) :
    ∃ kept, trim (c :: rest) = c :: kept := by
  rw [trim, trimEnd_eq_rdropWhile, List.dropWhile_cons_of_neg (by simp [hc])]
  have hne : (c :: rest).rdropWhile isBlank ≠ [] := by simp [hc]
  obtain ⟨first, kept, hkept⟩ := List.exists_cons_of_ne_nil hne
  have hinitial : (c :: rest).rdropWhile isBlank <+: c :: rest := List.rdropWhile_prefix _ _
  rw [hkept, List.cons_prefix_cons] at hinitial
  exact ⟨kept, hkept.trans (by rw [hinitial.1])⟩

/-- A text that neither starts nor ends with a blank is left as it is. -/
theorem trim_of_ends {first last : Char} (hfirst : isBlank first = false)
    (hlast : isBlank last = false) (middle : List Char) :
    trim (first :: (middle ++ [last])) = first :: (middle ++ [last]) := by
  simp [trim, trimEnd, hfirst, hlast]

/-! ## Words -/

private theorem wordsFrom_append {part : List Char} (hpart : ∀ c ∈ part, isBlank c = false)
    (word rest : List Char) :
    wordsFrom word (part ++ rest) = wordsFrom (part.reverse ++ word) rest := by
  induction part generalizing word with
  | nil => rfl
  | cons c part ih =>
      obtain ⟨hc, hpart⟩ := List.forall_mem_cons.mp hpart
      rw [List.cons_append, wordsFrom, if_neg (by simp [hc]), ih hpart, List.reverse_cons,
        List.append_assoc]
      rfl

theorem words_blank {c : Char} (hc : isBlank c = true) (rest : List Char) :
    words (c :: rest) = words rest := by
  simp [words, wordsFrom, hc]

/-- A blank ends a word. -/
theorem words_append_blank {part : List Char} (hne : part ≠ [])
    (hpart : ∀ c ∈ part, isBlank c = false) {c : Char} (hc : isBlank c = true)
    (rest : List Char) : words (part ++ c :: rest) = part :: words rest := by
  rw [words, wordsFrom_append hpart, wordsFrom, if_pos hc, List.append_nil, if_neg (by simpa),
    List.reverse_reverse, words]

end WordMachine.Text
