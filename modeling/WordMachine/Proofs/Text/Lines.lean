import WordMachine.Text.Blank

/-!
# The lines of a text in parts

A text can be cut where a line starts, and the first line of a text can be cut off.  Whether a
line ends with a line feed, with a carriage return before it, or with the text makes no
difference to the lines after it.

## Main definitions

* `Text.StartsLine` — the texts after which a line starts
* `Text.EndsLine` — the texts that a line ends before

## Main results

* `Text.lines_append` — a text that is cut where a line starts
* `Text.exists_startsLine` — every text is cut there, once and for its last line
-/

namespace WordMachine.Text

/-- A line starts after the text. -/
def StartsLine (before : List Char) : Prop := before = [] ∨ ∃ earlier, before = earlier ++ ['\n']

/-- A line ends before the text, and `rest` is the text of the lines after it. -/
inductive EndsLine : List Char → List Char → Prop where
  | stop : EndsLine [] []
  | feed {rest : List Char} : EndsLine ('\n' :: rest) rest
  | returnFeed {rest : List Char} : EndsLine ('\r' :: '\n' :: rest) rest

private theorem linesFrom_append_feed (line before after : List Char) :
    linesFrom line (before ++ '\n' :: after)
      = linesFrom line (before ++ ['\n']) ++ linesFrom [] after := by
  fun_induction linesFrom line before with
  | case1 line h => simp [linesFrom]
  | case2 line h => simp [linesFrom]
  | case3 line rest ih => simp [linesFrom, ih]
  | case4 line c rest hc ih =>
      rw [List.cons_append, List.cons_append, linesFrom.eq_3 _ _ _ hc, linesFrom.eq_3 _ _ _ hc, ih]

/-- A text is cut where a line starts. -/
theorem lines_append {before : List Char} (h : StartsLine before) (after : List Char) :
    lines (before ++ after) = lines before ++ lines after := by
  obtain rfl | ⟨earlier, rfl⟩ := h
  · rfl
  · rw [List.append_assoc]
    exact linesFrom_append_feed [] earlier after

private theorem linesFrom_append {line part : List Char} (h : '\n' ∉ part) (rest : List Char) :
    linesFrom line (part ++ rest) = linesFrom (part.reverse ++ line) rest := by
  induction part generalizing line with
  | nil => rfl
  | cons c part ih =>
      have hc : c ≠ '\n' := (List.ne_of_not_mem_cons h).symm
      rw [List.cons_append, linesFrom.eq_3 _ _ _ hc, ih (List.not_mem_of_not_mem_cons h),
        List.reverse_cons, List.append_assoc]
      rfl

/-- A text without line feeds is a line, unless it is empty. -/
theorem lines_of_line {line : List Char} (h : '\n' ∉ line) :
    lines line = if line = [] then [] else [line] := by
  have hlines : linesFrom [] (line ++ []) = linesFrom (line.reverse ++ []) [] :=
    linesFrom_append h []
  rw [List.append_nil, List.append_nil] at hlines
  rw [lines, hlines, linesFrom, List.reverse_reverse]
  simp

/-- The first line of a text is cut off at its line feed. -/
theorem lines_append_feed {line : List Char} (h : '\n' ∉ line) (rest : List Char) :
    lines (line ++ '\n' :: rest) = closeLine line.reverse :: lines rest := by
  rw [lines, linesFrom_append h, List.append_nil, linesFrom, lines]

/-- One carriage return at the end of a line is left out. -/
theorem closeLine_reverse (line : List Char) :
    closeLine line.reverse = line ∨ line = closeLine line.reverse ++ ['\r'] := by
  rcases List.eq_nil_or_concat line with rfl | ⟨front, c, rfl⟩
  · exact .inl rfl
  · by_cases hc : c = '\r'
    · subst hc
      right
      simp [closeLine]
    · left
      simp [closeLine.eq_2 _ (fun l h => hc (List.cons.inj h).1)]

/-- Lines that are ended one by one are the lines of the text. -/
theorem lines_flatMap_feed {rows : List (List Char)} (h : ∀ row ∈ rows, '\n' ∉ row ∧ '\r' ∉ row) :
    lines (rows.flatMap (· ++ ['\n'])) = rows := by
  induction rows with
  | nil => rfl
  | cons row rest ih =>
      obtain ⟨⟨hfeed, hreturn⟩, hrest⟩ := List.forall_mem_cons.mp h
      have hclose : closeLine row.reverse = row := by
        refine (closeLine_reverse row).resolve_right fun hrow => hreturn ?_
        rw [hrow]
        simp
      rw [List.flatMap_cons, List.append_assoc, List.singleton_append, lines_append_feed hfeed,
        hclose, ih hrest]

/-- A text ends with its last line, which is empty after a line feed. -/
theorem exists_startsLine (text : List Char) :
    ∃ before line, StartsLine before ∧ '\n' ∉ line ∧ text = before ++ line := by
  induction text with
  | nil => exact ⟨[], [], .inl rfl, List.not_mem_nil, rfl⟩
  | cons c rest ih =>
      obtain ⟨before, line, hbefore, hline, rfl⟩ := ih
      obtain rfl | ⟨earlier, rfl⟩ := hbefore
      · by_cases hc : c = '\n'
        · exact ⟨[c], line, .inr ⟨[], by rw [hc]; rfl⟩, hline, rfl⟩
        · exact ⟨[], c :: line, .inl rfl, List.not_mem_cons_of_ne_of_not_mem (Ne.symm hc) hline,
            rfl⟩
      · exact ⟨c :: (earlier ++ ['\n']), line, .inr ⟨c :: earlier, rfl⟩, hline, rfl⟩

end WordMachine.Text
