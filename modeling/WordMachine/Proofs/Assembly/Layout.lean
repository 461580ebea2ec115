import WordMachine.Assembly.Assemble
import WordMachine.Proofs.Assembly.Lines
import WordMachine.Proofs.Text.Blank
import WordMachine.Proofs.Text.Lines

/-!
# The layout of a text

A line is code and then, if there is one, a comment.  Code is words with separators around them,
and whatever the separators are, the words are its tokens.

Neither the number of a line nor the column of a token becomes part of a program.  So a text
conveys less than its lines say: what is left of a line is its `gist?`, and blank lines leave
nothing.  Assembling is adding up the gists of a text.

## Main definitions

* `IsRemark` — what may stand after the code of a line
* `Laid` — words and the code in which they are laid out
* `Line.gist?` — what a line says to a program
* `Conveys` — lines and all that they say to a program

## Main results

* `map_chars_tokens_of_laid`, `exists_laid` — the tokens of a line are the words laid out in it
* `Conveys.append_iff`, `conveys_cutLine_iff` — texts convey what their parts do
* `assemble_eq_ok_iff` — the program of a text is built from what the text conveys
-/

namespace WordMachine

namespace Assembly

/-! ## Code and comments -/

/-- What may stand after the code of a line: nothing, or a comment. -/
inductive IsRemark : List Char → Prop where
  | none : IsRemark []
  | comment {text : List Char} : IsRemark ('#' :: text)

theorem codeOf_append {remark : List Char} (h : IsRemark remark) (line : List Char) :
    codeOf (line ++ remark) = codeOf line := by
  induction line with
  | nil => cases h <;> rfl
  | cons c rest ih =>
      unfold codeOf at ih ⊢
      rw [List.cons_append, List.takeWhile_cons, List.takeWhile_cons, ih]

private theorem codeOf_of_not_mem {code : List Char} (h : '#' ∉ code) : codeOf code = code := by
  refine List.takeWhile_eq_self_iff.mpr fun c hc => ?_
  rw [bne_iff_ne]
  rintro rfl
  exact h hc

theorem tokens_append {remark : List Char} (h : IsRemark remark) (line : List Char) :
    tokens (line ++ remark) = tokens line := by
  rw [tokens, tokens, codeOf_append h]

/-- What a line says depends on its code without the blanks at the ends, and on its tokens. -/
theorem Says.of_eq {line line' : List Char} {said : Line} (h : Says line said)
    (hcode : Text.trim (codeOf line') = Text.trim (codeOf line))
    (htokens : tokens line' = tokens line) : Says line' said := by
  cases h with
  | marker hline hindex => exact .marker (hcode ▸ hline) hindex
  | plain hline h => exact .plain (hcode ▸ hline) (htokens ▸ h)

/-- A remark says nothing. -/
theorem Says.remark {line remark : List Char} {said : Line} (hremark : IsRemark remark)
    (h : Says line said) : Says (line ++ remark) said :=
  h.of_eq (by rw [codeOf_append hremark]) (tokens_append hremark line)

/-! ## The end of a line -/

private theorem tokensFrom_concat {c : Char} (hc : isSeparator c = true) (code : List Char) :
    ∀ (offset start : Nat) (word : List Char),
      tokensFrom offset start word (code ++ [c]) = tokensFrom offset start word code := by
  induction code with
  | nil => simp [tokensFrom, hc, closeToken]
  | cons d rest ih =>
      intro offset start word
      simp only [List.cons_append, tokensFrom, ih]

/-- A blank at the end of a line is not read. -/
theorem says_concat_iff {c : Char} (hc : Text.isBlank c = true) {line : List Char} {said : Line} :
    Says (line ++ [c]) said ↔ Says line said := by
  have hseparator : isSeparator c = true := by simp [isSeparator, hc]
  have hsame : Text.trim (codeOf (line ++ [c])) = Text.trim (codeOf line) ∧
      tokens (line ++ [c]) = tokens line := by
    by_cases hhash : '#' ∈ line
    · have hcode : codeOf (line ++ [c]) = codeOf line := by
        unfold codeOf
        rw [List.takeWhile_append, if_neg]
        intro hlength
        have hall := List.takeWhile_eq_self_iff.mp
          (List.takeWhile_prefix (· != '#') |>.eq_of_length hlength)
        simpa using hall '#' hhash
      exact ⟨by rw [hcode], by rw [tokens, tokens, hcode]⟩
    · have hne : c ≠ '#' := by
        rintro rfl
        cases hc
      have hhash' : '#' ∉ line ++ [c] := by simp [hhash, hne.symm]
      rw [tokens, tokens, codeOf_of_not_mem hhash, codeOf_of_not_mem hhash']
      exact ⟨Text.trim_concat hc line, tokensFrom_concat hseparator line 0 0 []⟩
  exact ⟨fun h => h.of_eq hsame.1.symm hsame.2.symm, fun h => h.of_eq hsame.1 hsame.2⟩

/-- A line says the same without a carriage return at its end. -/
theorem says_closeLine_iff {line : List Char} {said : Line} :
    Says (Text.closeLine line.reverse) said ↔ Says line said := by
  rcases Text.closeLine_reverse line with h | h
  · rw [h]
  · rw [h, says_concat_iff (by decide), ← h]

/-! ## Words -/

/-- A piece of a line that is one token. -/
structure IsUnbroken (word : List Char) : Prop where
  ne_nil : word ≠ []
  unbroken : ∀ c ∈ word, isSeparator c = false ∧ c ≠ '#'

instance (word : List Char) : Decidable (IsUnbroken word) :=
  decidable_of_iff (word ≠ [] ∧ word.all fun c => !isSeparator c && c != '#') <| by
    simp only [List.all_eq_true, Bool.and_eq_true, Bool.not_eq_true', bne_iff_ne]
    exact ⟨fun ⟨hne, h⟩ => ⟨hne, h⟩, fun ⟨hne, h⟩ => ⟨hne, h⟩⟩

theorem IsUnbroken.isBlank {word : List Char} (h : IsUnbroken word) :
    ∀ c ∈ word, Text.isBlank c = false := by
  intro c hc
  have hseparator := (h.unbroken c hc).1
  rw [isSeparator, Bool.or_eq_false_iff] at hseparator
  exact hseparator.2

/-- Words and the code in which they are laid out: there are separators between them, and there
may be some at the ends. -/
inductive Laid : List (List Char) → List Char → Prop where
  | nil {gap : List Char} (hgap : ∀ c ∈ gap, isSeparator c = true) : Laid [] gap
  | cons {gap word rest : List Char} {words : List (List Char)}
    (hgap : ∀ c ∈ gap, isSeparator c = true) (hword : IsUnbroken word)
    (hrest : ∀ c ∈ rest.head?, isSeparator c = true) (h : Laid words rest) :
    Laid (word :: words) (gap ++ word ++ rest)

private theorem not_mem_of_separators {gap : List Char} (h : ∀ c ∈ gap, isSeparator c = true) :
    '#' ∉ gap :=
  fun hmem => absurd (h '#' hmem) (by decide)

namespace Laid

variable {words : List (List Char)} {code : List Char}

theorem hash_not_mem (h : Laid words code) : '#' ∉ code := by
  induction h with
  | nil hgap => exact not_mem_of_separators hgap
  | cons hgap hword _ _ ih =>
      simp only [List.mem_append, not_or]
      exact ⟨⟨not_mem_of_separators hgap, fun hmem => (hword.unbroken _ hmem).2 rfl⟩, ih⟩

theorem codeOf_eq (h : Laid words code) : codeOf code = code := codeOf_of_not_mem h.hash_not_mem

/-- A separator may be put in front. -/
theorem separator {c : Char} (hc : isSeparator c = true) (h : Laid words code) :
    Laid words (c :: code) := by
  cases h with
  | nil hgap => exact .nil (List.forall_mem_cons.mpr ⟨hc, hgap⟩)
  | cons hgap hword hrest h =>
      exact .cons (List.forall_mem_cons.mpr ⟨hc, hgap⟩) hword hrest h

/-- Code starts with the first word, after separators. -/
theorem head?_dropWhile (h : Laid words code) :
    (code.dropWhile isSeparator).head? = words.head?.bind List.head? := by
  cases h with
  | nil hgap =>
      rw [List.dropWhile_eq_nil_iff.mpr hgap]
      rfl
  | @cons gap word rest words hgap hword =>
      obtain ⟨c, tail, rfl⟩ := List.exists_cons_of_ne_nil hword.ne_nil
      have hc := (hword.unbroken c List.mem_cons_self).1
      rw [List.append_assoc, List.dropWhile_append_of_pos hgap, List.cons_append,
        List.dropWhile_cons_of_neg (by simp [hc])]
      rfl

end Laid

private theorem tokensFrom_gap {gap : List Char} (hgap : ∀ c ∈ gap, isSeparator c = true)
    (rest : List Char) : ∀ offset start, ∃ offset' start',
      tokensFrom offset start [] (gap ++ rest) = tokensFrom offset' start' [] rest := by
  induction gap with
  | nil => exact fun offset start => ⟨offset, start, rfl⟩
  | cons c gap ih =>
      intro offset start
      obtain ⟨hc, hgap⟩ := List.forall_mem_cons.mp hgap
      rw [List.cons_append, tokensFrom, if_pos hc]
      exact ih hgap _ _

private theorem tokensFrom_word {part : List Char} (hpart : ∀ c ∈ part, isSeparator c = false)
    (rest : List Char) : ∀ offset start word, ∃ offset' start',
      tokensFrom offset start word (part ++ rest)
        = tokensFrom offset' start' (part.reverse ++ word) rest := by
  induction part with
  | nil => exact fun offset start word => ⟨offset, start, rfl⟩
  | cons c part ih =>
      intro offset start word
      obtain ⟨hc, hpart⟩ := List.forall_mem_cons.mp hpart
      rw [List.cons_append, tokensFrom, if_neg (by simp [hc]), List.reverse_cons,
        List.append_assoc]
      exact ih hpart _ _ _

/-- A separator, or the end of the code, closes the token that is being read. -/
theorem tokensFrom_of_separator {rest : List Char} (h : ∀ c ∈ rest.head?, isSeparator c = true)
    (offset start : Nat) (word : List Char) :
    tokensFrom offset start word rest
      = closeToken start word ++ tokensFrom offset start [] rest := by
  cases rest with
  | nil => simp [tokensFrom, closeToken]
  | cons c rest => simp [tokensFrom, h c rfl, closeToken]

private theorem map_chars_tokensFrom_of_laid {words : List (List Char)} {code : List Char}
    (h : Laid words code) : ∀ offset start,
      (tokensFrom offset start [] code).map Token.chars = words := by
  induction h with
  | @nil gap hgap =>
      intro offset start
      obtain ⟨offset', start', hgap⟩ := tokensFrom_gap hgap [] offset start
      rw [← List.append_nil gap, hgap]
      rfl
  | @cons gap word rest words hgap hword hrest _ ih =>
      intro offset start
      obtain ⟨offset', start', hgap⟩ := tokensFrom_gap hgap (word ++ rest) offset start
      obtain ⟨offset'', start'', hread⟩ :=
        tokensFrom_word (fun c hc => (hword.unbroken c hc).1) rest offset' start' []
      rw [List.append_assoc, hgap, hread, List.append_nil, tokensFrom_of_separator hrest,
        closeToken, if_neg (by simpa using hword.ne_nil), List.map_append, ih]
      simp

/-- The words that are laid out in a line are its tokens. -/
theorem map_chars_tokens_of_laid {words : List (List Char)} {code : List Char}
    (h : Laid words code) : (tokens code).map Token.chars = words := by
  rw [tokens, h.codeOf_eq]
  exact map_chars_tokensFrom_of_laid h 0 0

/-- A piece that was read up to here, backwards, and the words of the code after it. -/
theorem laid_tokensFrom {code : List Char} (hcode : '#' ∉ code) : ∀ (offset start : Nat)
    (word : List Char), (∀ c ∈ word.reverse, isSeparator c = false ∧ c ≠ '#') →
      Laid ((tokensFrom offset start word code).map Token.chars) (word.reverse ++ code) := by
  induction code with
  | nil =>
      intro offset start word hword
      cases word with
      | nil => exact .nil (List.forall_mem_nil _)
      | cons c word =>
          have hlaid : Laid [(c :: word).reverse] ([] ++ (c :: word).reverse ++ []) :=
            .cons (List.forall_mem_nil _) ⟨by simp, hword⟩ (by simp) (.nil (List.forall_mem_nil _))
          simpa [tokensFrom, closeToken] using hlaid
  | cons c rest ih =>
      intro offset start word hword
      have hne : c ≠ '#' := (List.ne_of_not_mem_cons hcode).symm
      have ih := ih (List.not_mem_of_not_mem_cons hcode)
      rw [tokensFrom]
      split
      · next hc =>
          have hnext := (ih (offset + c.utf8Size) (offset + c.utf8Size) []
            (List.forall_mem_nil _)).separator hc
          cases word with
          | nil => simpa [closeToken] using hnext
          | cons d word =>
              have hlaid := Laid.cons (List.forall_mem_nil _) ⟨by simp, hword⟩
                (by simpa using hc) hnext
              simpa [closeToken] using hlaid
      · next hc =>
          have hword' : ∀ d ∈ (c :: word).reverse, isSeparator d = false ∧ d ≠ '#' := by
            intro d hd
            rcases List.mem_cons.mp (List.mem_reverse.mp hd) with rfl | hd
            · exact ⟨by simpa using hc, hne⟩
            · exact hword d (List.mem_reverse.mpr hd)
          simpa using ih _ _ _ hword'

/-- The tokens of a line are laid out in its code. -/
theorem laid_tokens (line : List Char) : Laid ((tokens line).map Token.chars) (codeOf line) := by
  have hcode : '#' ∉ codeOf line := fun hmem => by simpa using List.mem_takeWhile_imp hmem
  exact laid_tokensFrom hcode 0 0 [] (List.forall_mem_nil _)

/-- Every line is its tokens, laid out in code, and a remark. -/
theorem exists_laid (line : List Char) : ∃ code remark,
    line = code ++ remark ∧ IsRemark remark ∧ Laid ((tokens line).map Token.chars) code := by
  refine ⟨codeOf line, line.dropWhile (· != '#'), List.takeWhile_append_dropWhile.symm, ?_,
    laid_tokens line⟩
  cases hrest : line.dropWhile (· != '#') with
  | nil => exact .none
  | cons c text =>
      have hc := List.head?_dropWhile_not (· != '#') line
      rw [hrest] at hc
      obtain rfl : c = '#' := by simpa using hc
      exact .comment

/-! ## Lines without brackets -/

/-- The line is in brackets, as a marker is. -/
def InBrackets (line : List Char) : Prop := (bracketed? (Text.trim (codeOf line))).isSome

instance : DecidablePred InBrackets :=
  fun line => inferInstanceAs (Decidable ((bracketed? (Text.trim (codeOf line))).isSome = true))

theorem bracketed?_eq_some_iff {code inner : List Char} :
    bracketed? code = some inner ↔ code = '[' :: (inner ++ [']']) := by
  constructor
  · intro h
    unfold bracketed? at h
    split at h
    · next rest =>
        split at h
        · next back hrest =>
            cases h
            rw [← List.reverse_cons, ← hrest, List.reverse_reverse]
        · cases h
    · cases h
  · rintro rfl
    simp [bracketed?]

private theorem bracketed?_trim_eq_none {code : List Char}
    (h : (code.dropWhile isSeparator).head? ≠ some '[') : bracketed? (Text.trim code) = none := by
  rw [Option.eq_none_iff_forall_not_mem]
  intro inner hinner
  obtain ⟨front, back, hcode, hblank⟩ := (Text.trims_trim code).around
  have hfront : ∀ c ∈ front, isSeparator c = true := by
    intro c hc
    simp [isSeparator, hblank c (List.mem_append_left _ hc)]
  refine absurd ?_ h
  rw [hcode, bracketed?_eq_some_iff.mp hinner, List.append_assoc,
    List.dropWhile_append_of_pos hfront, List.cons_append, List.dropWhile_cons_of_neg (by decide)]
  rfl

/-- What is spelled does not start with a bracket. -/
theorem Spells.head?_ne {head : Token} {operands : List Token} {said : Line}
    (h : Spells (head :: operands) said) : head.chars.head? ≠ some '[' := by
  intro hbracket
  have hname : head.name.toList.head? = some '[' := by
    rw [Token.head?_name, hbracket]
    rfl
  cases h with
  | stackLength hhead | argumentsLength hhead =>
      have htext : head.text.toList.head? = some '[' := by
        rw [Token.text, String.toList_ofList, hbracket]
      rw [hhead] at htext
      revert htext
      decide
  | value hhead | argument hhead | raw hhead =>
      rw [hhead] at hname
      revert hname
      decide
  | standard hhead =>
      have hupper := isUpper_of_ofMnemonic? hhead
      rw [hname] at hupper
      cases hupper

/-- A line says what its tokens spell: no line in brackets has such tokens. -/
theorem says_of_spells {line : List Char} {said : Line} (h : Spells (tokens line) said) :
    Says line said := by
  refine .plain (bracketed?_trim_eq_none ?_) h
  rw [(laid_tokens line).head?_dropWhile]
  cases htokens : tokens line with
  | nil => simp
  | cons head operands =>
      rw [htokens] at h
      exact h.head?_ne

theorem Says.spells {line : List Char} {said : Line} (h : Says line said)
    (hline : ¬InBrackets line) : Spells (tokens line) said := by
  cases h with
  | marker hinner => exact absurd (by rw [InBrackets, hinner]; rfl) hline
  | plain _ h => exact h

/-! ## What a text conveys -/

/-- What a line says to a program.  The column of a literal is for messages only. -/
def Line.gist? : Line → Option Line
  | .blank => none
  | .value literal _ => some (.value literal 0)
  | said => some said

/-- Lines and all that they say to a program. -/
inductive Conveys : List (List Char) → List Line → Prop where
  | nil : Conveys [] []
  | cons {line : List Char} {said : Line} {lines : List (List Char)} {gists : List Line}
    (hline : Says line said) (h : Conveys lines gists) :
    Conveys (line :: lines) (said.gist?.toList ++ gists)

private theorem conveys_cons_iff {line : List Char} {lines : List (List Char)} {gists : List Line} :
    Conveys (line :: lines) gists ↔
      ∃ said more, Says line said ∧ Conveys lines more ∧ gists = said.gist?.toList ++ more := by
  constructor
  · rintro (_ | ⟨hline, h⟩)
    exact ⟨_, _, hline, h, rfl⟩
  · rintro ⟨said, more, hline, h, rfl⟩
    exact .cons hline h

theorem Conveys.append {first second : List (List Char)} {gists more : List Line}
    (hfirst : Conveys first gists) (hsecond : Conveys second more) :
    Conveys (first ++ second) (gists ++ more) := by
  induction hfirst with
  | nil => exact hsecond
  | cons hline _ ih =>
      rw [List.append_assoc]
      exact .cons hline ih

theorem Conveys.append_iff {first second : List (List Char)} {gists : List Line} :
    Conveys (first ++ second) gists ↔
      ∃ front back, Conveys first front ∧ Conveys second back ∧ gists = front ++ back := by
  constructor
  · intro h
    induction first generalizing gists with
    | nil => exact ⟨[], gists, .nil, h, rfl⟩
    | cons line first ih =>
        obtain ⟨said, more, hline, hmore, rfl⟩ := conveys_cons_iff.mp h
        obtain ⟨front, back, hfront, hback, rfl⟩ := ih hmore
        exact ⟨_, back, .cons hline hfront, hback, by rw [List.append_assoc]⟩
  · rintro ⟨front, back, hfront, hback, rfl⟩
    exact hfront.append hback

/-- The empty line says nothing. -/
theorem says_nil_iff {said : Line} : Says [] said ↔ said = .blank := by
  have hblank : Says [] .blank := .plain rfl .blank
  exact ⟨fun h => h.unique hblank, fun h => h ▸ hblank⟩

/-- The first line of a text, however it ends, conveys what it says. -/
theorem conveys_cutLine_iff {line after rest : List Char} {gists : List Line} (hline : '\n' ∉ line)
    (hafter : Text.EndsLine after rest) :
    Conveys (Text.lines (line ++ after)) gists ↔
      ∃ said more, Says line said ∧ Conveys (Text.lines rest) more ∧
        gists = said.gist?.toList ++ more := by
  cases hafter with
  | stop =>
      rw [List.append_nil, Text.lines_of_line hline]
      split
      · next hnil =>
          subst hnil
          simp only [says_nil_iff, exists_and_left, exists_eq_left]
          exact ⟨fun h => ⟨gists, h, rfl⟩, fun ⟨more, h, hmore⟩ => hmore ▸ h⟩
      · exact conveys_cons_iff
  | feed =>
      rw [Text.lines_append_feed hline, conveys_cons_iff]
      simp only [says_closeLine_iff]
  | @returnFeed rest =>
      have hline' : '\n' ∉ line ++ ['\r'] := by simp [hline]
      have htext : line ++ '\r' :: '\n' :: rest = (line ++ ['\r']) ++ '\n' :: rest := by simp
      rw [htext, Text.lines_append_feed hline', conveys_cons_iff]
      simp only [says_closeLine_iff, says_concat_iff (show Text.isBlank '\r' = true by decide)]

/-! ## The program of a text -/

namespace Draft

/-- The draft after all that lines say to it. -/
def after? (d : Draft) (gists : List Line) : Option Draft :=
  gists.foldlM (fun d gist => (d.add 0 gist).toOption) d

theorem after?_cons_of_ok {d next : Draft} {gist : Line} {gists : List Line}
    (h : d.add 0 gist = .ok next) : d.after? (gist :: gists) = next.after? gists := by
  rw [after?, List.foldlM_cons, h]
  rfl

theorem after?_append (d : Draft) (front back : List Line) :
    d.after? (front ++ back) = (d.after? front).bind fun d => d.after? back :=
  List.foldlM_append

variable {d d' : Draft} {number : Nat}

/-- What a line adds to a draft is its gist. -/
theorem add_eq_ok_iff {said : Line} :
    d.add number said = .ok d' ↔ d.after? said.gist?.toList = some d' := by
  cases said with
  | blank => simp [add, after?, Line.gist?]
  | marker index =>
      by_cases h : index.toNat = d.markers <;> simp [add, after?, Line.gist?, h, Except.toOption]
  | value literal column =>
      cases h : intern? d.constants literal <;>
        simp [add, after?, Line.gist?, h, Except.toOption]
  | _ => simp [add, after?, Line.gist?, Except.toOption]

private theorem addLines_eq_ok_iff {lines : List (List Char)} :
    d.addLines number lines = .ok d' ↔ ∃ gists, Conveys lines gists ∧ d.after? gists = some d' := by
  induction lines generalizing d number with
  | nil =>
      constructor
      · intro h
        cases h
        exact ⟨[], .nil, rfl⟩
      · rintro ⟨gists, ⟨⟩, h⟩
        cases h
        rfl
  | cons line lines ih =>
      simp only [addLines, except_bind_eq_ok_iff, readLine_eq_ok_iff, add_eq_ok_iff, ih,
        conveys_cons_iff]
      constructor
      · rintro ⟨said, hline, next, hnext, more, hmore, hd'⟩
        refine ⟨_, ⟨said, more, hline, hmore, rfl⟩, ?_⟩
        rw [after?_append, hnext]
        exact hd'
      · rintro ⟨_, ⟨said, more, hline, hmore, rfl⟩, hd'⟩
        rw [after?_append, Option.bind_eq_some_iff] at hd'
        obtain ⟨next, hnext, hd'⟩ := hd'
        exact ⟨said, hline, next, hnext, more, hmore, hd'⟩

end Draft

/-- The program of a text is built from what its lines convey. -/
theorem assemble_eq_ok_iff {text : String} {p : Program} :
    assemble text = .ok p ↔ ∃ gists d, Conveys (Text.lines text.toList) gists ∧
      Draft.after? {} gists = some d ∧ d.finish = p := by
  unfold assemble
  simp only [except_bind_eq_ok_iff, Draft.addLines_eq_ok_iff]
  constructor
  · rintro ⟨d, ⟨gists, hgists, hd⟩, hp⟩
    exact ⟨gists, d, hgists, hd, Except.ok.inj hp⟩
  · rintro ⟨gists, d, hgists, hd, hp⟩
    exact ⟨d, ⟨gists, hgists, hd⟩, congrArg Except.ok hp⟩

end Assembly

end WordMachine
