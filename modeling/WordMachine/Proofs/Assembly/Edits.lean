import WordMachine.Proofs.Assembly.Layout
import WordMachine.Proofs.Text.Letters

/-!
# Edits that carry no meaning

A text may be given comments and idle lines, other separators, and words in other letters, and
still assembles to the same program.  Each edit keeps what the text conveys (`TextEdit.conveys`);
for that it is enough that an edit of a line keeps the gist of the line (`LineEdit.says`).

The separators of a line in brackets are left alone: a comma is no blank, so that it would not
separate the words of a marker.  The words of all other lines are found by `Laid`, and no
layout of them is in brackets, because no line that says something has a token that starts
with one.

## Main definitions

* `IsKeyword`, `Respelled` — the words whose case may be changed
* `LineEdit`, `TextEdit` — the edits of a line and of a text

## Main results

* `Spells.respelled` — tokens in other letters spell the same
* `LineEdit.says`, `TextEdit.conveys` — edits keep what is conveyed
* `layout_carries_no_meaning` — the program of an edited text
-/

namespace WordMachine.Assembly

/-! ## Edits -/

/-- The name that a word spells, in capital letters. -/
def nameOf (word : List Char) : String := String.ofList (word.map Char.toUpper)

/-- The word starts a statement: it is `VAL`, `ARG`, `OP` or the name of an instruction, in
whatever case. -/
def IsKeyword (word : List Char) : Prop :=
  nameOf word ∈ ["VAL", "ARG", "OP"] ∨ (Instruction.ofMnemonic? (nameOf word)).isSome

/-- The words of a line, and the same words with a keyword, or with the logic and the mode of
a `SELECT_LTE`, in other letters. -/
inductive Respelled : List (List Char) → List (List Char) → Prop where
  | same {words : List (List Char)} : Respelled words words
  | keyword {word word' : List Char} {operands : List (List Char)} (hword : IsKeyword word)
    (hletters : sameLetters word word') : Respelled (word :: operands) (word' :: operands)
  | selection {word logic logic' mode mode' : List Char} {operands : List (List Char)}
    (hword : nameOf word = Instruction.selectLte.mnemonic) (hlogic : sameLetters logic logic')
    (hmode : sameLetters mode mode') :
    Respelled (word :: logic :: mode :: operands) (word :: logic' :: mode' :: operands)

/-- An edit of a line that carries no meaning. -/
inductive LineEdit : List Char → List Char → Prop where
  /-- A comment is appended. -/
  | comment {line text : List Char} : LineEdit line (line ++ '#' :: text)
  /-- The words of a line that is no marker are laid out anew, in the same letters or in other
  ones. -/
  | layout {words words' : List (List Char)} {code code' remark : List Char}
    (hremark : IsRemark remark) (hline : ¬InBrackets (code ++ remark)) (hcode : Laid words code)
    (hwords : Respelled words words') (hcode' : Laid words' code') :
    LineEdit (code ++ remark) (code' ++ remark)
  /-- A marker is written in other letters: its word `source`, and its comment if it has one. -/
  | marker {line line' : List Char} (hline : InBrackets line) (hletters : sameLetters line line') :
    LineEdit line line'

/-- A line of blanks, with or without a comment. -/
def IsIdle (line : List Char) : Prop :=
  ∃ blanks remark, line = blanks ++ remark ∧ (∀ c ∈ blanks, Text.isBlank c = true) ∧
    IsRemark remark

/-- An edit of a text that carries no meaning. -/
inductive TextEdit : List Char → List Char → Prop where
  /-- A line is edited. -/
  | line {before line line' after rest : List Char} (hbefore : Text.StartsLine before)
    (hafter : Text.EndsLine after rest) (hline : '\n' ∉ line) (hline' : '\n' ∉ line')
    (h : LineEdit line line') : TextEdit (before ++ line ++ after) (before ++ line' ++ after)
  /-- An idle line is inserted before a line. -/
  | insert {before idle after : List Char} (hbefore : Text.StartsLine before)
    (hline : '\n' ∉ idle) (hidle : IsIdle idle) :
    TextEdit (before ++ after) (before ++ (idle ++ '\n' :: after))
  /-- An idle line is put behind the last one, which is ended for that if it is not. -/
  | append {text feed idle : List Char} (hfeed : Text.EndsLine feed [])
    (hbefore : Text.StartsLine (text ++ feed)) (hline : '\n' ∉ idle) (hidle : IsIdle idle) :
    TextEdit text (text ++ feed ++ idle)

/-! ## Tokens of the same words -/

/-- Tokens of the same words, wherever they stand. -/
def SameWords : List Token → List Token → Prop := List.Forall₂ fun t t' => t.chars = t'.chars

private theorem sameWords_of_map_eq {ts ts' : List Token}
    (h : ts.map Token.chars = ts'.map Token.chars) : SameWords ts ts' := by
  rw [← List.forall₂_eq_eq_eq, List.forall₂_map_left_iff, List.forall₂_map_right_iff] at h
  exact h

namespace Token

variable {t t' : Token}

private theorem IsWord.congr {w : Word} (hchars : t.chars = t'.chars) (h : t.IsWord w) :
    t'.IsWord w := by
  rwa [IsWord, ← hchars]

private theorem IsByte.congr {b : UInt8} (hchars : t.chars = t'.chars) (h : t.IsByte b) :
    t'.IsByte b :=
  h.imp fun _ => And.imp_left (IsWord.congr hchars)

private theorem IsSize.congr {n : UInt64} (hchars : t.chars = t'.chars) (h : t.IsSize n) :
    t'.IsSize n :=
  h.imp fun _ => And.imp_left (IsWord.congr hchars)

private theorem IsSignedByte.congr {x : UInt8} (hchars : t.chars = t'.chars)
    (h : t.IsSignedByte x) : t'.IsSignedByte x := by
  obtain ⟨w, ⟨hw, hx⟩ | ⟨digits, hdigits, hw, hx⟩⟩ := h
  · exact ⟨w, .inl ⟨hw.congr hchars, hx⟩⟩
  · exact ⟨w, .inr ⟨digits, hchars ▸ hdigits, hw, hx⟩⟩

end Token

/-- An operand is written by the words of its tokens. -/
theorem Written.congr {instruction : Instruction} {ts ts' : List Token} {x : UInt8}
    (hwords : SameWords ts ts') (h : Written instruction ts x) : Written instruction ts' x := by
  cases h with
  | nothing hform =>
      cases hwords
      exact .nothing hform
  | number hform ht =>
      obtain _ | ⟨hchars, ⟨⟩⟩ := hwords
      exact .number hform (ht.congr hchars)
  | window hform ht hx =>
      obtain _ | ⟨hchars, ⟨⟩⟩ := hwords
      exact .window hform (ht.congr hchars) hx
  | part hform ht hx =>
      obtain _ | ⟨hchars, ⟨⟩⟩ := hwords
      exact .part hform (ht.congr hchars) hx
  | exponent hform ht =>
      obtain _ | ⟨hchars, ⟨⟩⟩ := hwords
      exact .exponent hform (ht.congr hchars)
  | zip hform hsource hlanes hwidth hcount hvalues =>
      obtain _ | ⟨hchars, _ | ⟨hchars', _ | ⟨hchars'', ⟨⟩⟩⟩⟩ := hwords
      exact .zip hform (hsource.congr hchars) (hlanes.congr hchars') hwidth
        (hcount.congr hchars'') hvalues
  | selection hform hx hlogic hmode hcount =>
      obtain _ | ⟨hchars, _ | ⟨hchars', _ | ⟨hchars'', ⟨⟩⟩⟩⟩ := hwords
      refine .selection hform hx ?_ ?_ (hcount.congr hchars'')
      · rwa [Statement.lowered, ← hchars]
      · rwa [Statement.lowered, ← hchars']
  | range hform hx hstart hstop =>
      obtain _ | ⟨hchars, _ | ⟨hchars', ⟨⟩⟩⟩ := hwords
      exact .range hform hx (hstart.congr hchars) (hstop.congr hchars')

/-- What tokens spell goes by the name of the first one, or by the first one itself if it starts
with a point, and by the words of the others. -/
theorem Spells.congr {head head' : Token} {ts ts' : List Token} {said : Line}
    (hname : head'.name = head.name)
    (hpoint : head.chars.head? = some '.' → head'.chars = head.chars) (hwords : SameWords ts ts')
    (h : Spells (head :: ts) said) :
    ∃ said', Spells (head' :: ts') said' ∧ said'.gist? = said.gist? := by
  have htext {text : String} (hhead : head.text = text) (hstart : text.toList.head? = some '.') :
      head'.text = text := by
    have hchars : head.chars = text.toList := by rw [← hhead, Token.text, String.toList_ofList]
    rw [Token.text, hpoint (by rw [hchars, hstart]), hchars, String.ofList_toList]
  cases h with
  | stackLength hhead ht =>
      obtain _ | ⟨hchars, ⟨⟩⟩ := hwords
      exact ⟨_, .stackLength (htext hhead rfl) (ht.congr hchars), rfl⟩
  | argumentsLength hhead ht =>
      obtain _ | ⟨hchars, ⟨⟩⟩ := hwords
      exact ⟨_, .argumentsLength (htext hhead rfl) (ht.congr hchars), rfl⟩
  | value hhead ht =>
      obtain _ | ⟨hchars, ⟨⟩⟩ := hwords
      exact ⟨_, .value (hname.trans hhead) (ht.congr hchars), rfl⟩
  | argument hhead ht hoperand =>
      obtain _ | ⟨hchars, ⟨⟩⟩ := hwords
      exact ⟨_, .argument (hname.trans hhead) (ht.congr hchars) hoperand, rfl⟩
  | raw hhead ha hb =>
      obtain _ | ⟨hchars, _ | ⟨hchars', ⟨⟩⟩⟩ := hwords
      exact ⟨_, .raw (hname.trans hhead) (ha.congr hchars) (hb.congr hchars'), rfl⟩
  | standard hhead hoperand =>
      exact ⟨_, .standard (hname ▸ hhead) (hoperand.congr hwords), rfl⟩

/-! ## Words in other letters -/

private theorem nameOf_of_sameLetters {word word' : List Char} (h : sameLetters word word') :
    nameOf word' = nameOf word := by
  have hupper (text : List Char) :
      text.map Char.toUpper = (text.map Char.toLower).map Char.toUpper := by
    rw [List.map_map]
    exact List.map_congr_left fun c _ => (Char.toUpper_toLower_eq_toUpper c).symm
  rw [nameOf, nameOf, hupper word', hupper word, beq_iff_eq.mp h]

/-- A keyword does not start with a point. -/
theorem IsKeyword.head?_ne {word : List Char} (h : IsKeyword word) : word.head? ≠ some '.' := by
  intro hpoint
  have hname : (nameOf word).toList.head? = some '.' := by
    rw [nameOf, String.toList_ofList, List.head?_map, hpoint]
    rfl
  obtain h | h := h
  · have hword : ∀ name ∈ ["VAL", "ARG", "OP"], name.toList.head? ≠ some '.' := by decide
    exact hword _ h hname
  · obtain ⟨instruction, h⟩ := Option.isSome_iff_exists.mp h
    have hupper := isUpper_of_ofMnemonic? h
    rw [hname] at hupper
    cases hupper

/-- A `SELECT_LTE` spells its pair. -/
theorem exists_written_of_selectLte {head : Token} {ts : List Token} {said : Line}
    (hname : head.name = Instruction.selectLte.mnemonic) (h : Spells (head :: ts) said) :
    ∃ x, said = .pair Instruction.selectLte.opcode x ∧ Written .selectLte ts x := by
  cases h with
  | stackLength hhead | argumentsLength hhead =>
      have hhead' : head.name.toList.head? = some '.' := by
        rw [Token.head?_name, ← String.toList_ofList (l := head.chars), ← Token.text, hhead]
        rfl
      rw [hname] at hhead'
      exact absurd hhead' (by decide)
  | value hhead | argument hhead | raw hhead =>
      rw [hname] at hhead
      exact absurd hhead (by decide)
  | standard hhead hoperand =>
      have hmnemonic : Instruction.ofMnemonic? Instruction.selectLte.mnemonic
          = some .selectLte := by decide
      rw [hname, hmnemonic] at hhead
      cases hhead
      exact ⟨_, rfl, hoperand⟩

/-- The operands of a `SELECT_LTE` are a logic, a mode and a number. -/
theorem exists_fields_of_written {ts : List Token} {x : UInt8} (h : Written .selectLte ts x) :
    ∃ logic mode count fields, ts = [logic, mode, count] ∧ Selection.decode x = .ok fields ∧
      Statement.lowered logic = fields.logic.word ∧ Statement.lowered mode = fields.mode.word ∧
      count.IsByte fields.count := by
  cases h with
  | selection _ hx hlogic hmode hcount => exact ⟨_, _, _, _, rfl, hx, hlogic, hmode, hcount⟩
  | number hform => simp [Instruction.form] at hform
  | _ hform => cases hform

private theorem lowered_of_sameLetters {t t' : Token} (h : sameLetters t.chars t'.chars) :
    Statement.lowered t' = Statement.lowered t := by
  rw [Statement.lowered, Statement.lowered, beq_iff_eq.mp h]

/-- The logic and the mode of a `SELECT_LTE` may be written in other letters. -/
theorem Spells.selection {head head' logic logic' mode mode' : Token} {ts ts' : List Token}
    {said : Line} (hname : head.name = Instruction.selectLte.mnemonic)
    (hhead : head'.chars = head.chars) (hlogic : sameLetters logic.chars logic'.chars)
    (hmode : sameLetters mode.chars mode'.chars) (hwords : SameWords ts ts')
    (h : Spells (head :: logic :: mode :: ts) said) :
    Spells (head' :: logic' :: mode' :: ts') said := by
  obtain ⟨x, rfl, hx⟩ := exists_written_of_selectLte hname h
  obtain ⟨_, _, count, fields, hts, hfields, hl, hm, hcount⟩ := exists_fields_of_written hx
  cases hts
  obtain _ | ⟨hchars, ⟨⟩⟩ := hwords
  have hname' : head'.name = Instruction.selectLte.mnemonic := by
    rw [Token.name, hhead, ← Token.name, hname]
  refine .standard (by rw [hname']; decide) (.selection rfl hfields ?_ ?_ (hcount.congr hchars))
  · rw [lowered_of_sameLetters hlogic, hl]
  · rw [lowered_of_sameLetters hmode, hm]

/-- Tokens in other letters spell the same. -/
theorem Spells.respelled {ts ts' : List Token} {said : Line}
    (hwords : Respelled (ts.map Token.chars) (ts'.map Token.chars)) (h : Spells ts said) :
    ∃ said', Spells ts' said' ∧ said'.gist? = said.gist? := by
  generalize hts : ts.map Token.chars = words at hwords
  generalize hts' : ts'.map Token.chars = words' at hwords
  cases hwords with
  | same =>
      obtain _ | ⟨hchars, hwords⟩ := sameWords_of_map_eq (hts.trans hts'.symm)
      · exact ⟨said, h, rfl⟩
      · refine h.congr ?_ (fun _ => hchars.symm) hwords
        rw [Token.name, Token.name, hchars]
  | keyword hword hletters =>
      obtain ⟨head, _, rfl, rfl, hrest⟩ := List.map_eq_cons_iff.mp hts
      obtain ⟨head', _, rfl, rfl, hrest'⟩ := List.map_eq_cons_iff.mp hts'
      exact h.congr (nameOf_of_sameLetters hletters) (fun hpoint => absurd hpoint hword.head?_ne)
        (sameWords_of_map_eq (hrest.trans hrest'.symm))
  | selection hword hlogic hmode =>
      simp only [List.map_eq_cons_iff] at hts hts'
      obtain ⟨head, _, rfl, rfl, logic, _, rfl, rfl, mode, _, rfl, rfl, hrest⟩ := hts
      obtain ⟨head', _, rfl, hhead, logic', _, rfl, rfl, mode', _, rfl, rfl, hrest'⟩ := hts'
      exact ⟨said, h.selection hword hhead hlogic hmode
        (sameWords_of_map_eq (hrest.trans hrest'.symm)), rfl⟩

/-! ## Markers in other letters -/

private theorem codeOf_map_toLower (line : List Char) :
    codeOf (line.map Char.toLower) = (codeOf line).map Char.toLower := by
  have hhash : (· != '#') ∘ Char.toLower = (· != '#') := by
    funext c
    rw [Function.comp_apply, Bool.eq_iff_iff, bne_iff_ne, bne_iff_ne, ne_eq,
      Text.toLower_eq_iff (by decide)]
  rw [codeOf, codeOf, List.takeWhile_map, hhash]

/-- What stands between the brackets in other letters is still there. -/
theorem bracketed?_of_map_toLower_eq {code code' inner : List Char}
    (hletters : code'.map Char.toLower = code.map Char.toLower)
    (h : bracketed? code = some inner) :
    ∃ inner', bracketed? code' = some inner' ∧
      inner'.map Char.toLower = inner.map Char.toLower := by
  rw [bracketed?_eq_some_iff.mp h, List.map_cons, List.map_append, List.map_cons,
    List.map_eq_cons_iff] at hletters
  obtain ⟨c, _, rfl, hc, hrest⟩ := hletters
  obtain ⟨inner', _, rfl, hinner, hlast⟩ := List.map_eq_append_iff.mp hrest
  obtain ⟨d, _, rfl, hd, hnil⟩ := List.map_eq_cons_iff.mp hlast
  rw [List.map_eq_nil_iff.mp hnil, Text.eq_of_toLower_eq (by decide) hc,
    Text.eq_of_toLower_eq (by decide) hd]
  exact ⟨inner', bracketed?_eq_some_iff.mpr rfl, hinner⟩

/-- The index of a marker has no letters, and the word before it may be in other ones. -/
theorem markerIndex?_of_map_toLower_eq {inner inner' : List Char} {index : UInt64}
    (hletters : inner'.map Char.toLower = inner.map Char.toLower)
    (h : markerIndex? inner = some index) : markerIndex? inner' = some index := by
  have hwords : (Text.words inner').map (List.map Char.toLower)
      = (Text.words inner).map (List.map Char.toLower) := by
    rw [← Text.words_map_toLower, ← Text.words_map_toLower, hletters]
  unfold markerIndex? at h ⊢
  split at h
  · next keyword numeral hinner =>
      split at h
      · next hkeyword =>
          rw [hinner] at hwords
          simp only [List.map_cons, List.map_nil, List.map_eq_cons_iff, List.map_eq_nil_iff]
            at hwords
          obtain ⟨keyword', _, hinner', hsame, numeral', _, rfl, hnumeral, rfl⟩ := hwords
          rw [Text.eq_of_map_toLower_eq (Text.isAlpha_of_size?_eq_some h) hnumeral] at hinner'
          rw [hinner']
          dsimp only
          rw [sameLetters, hsame]
          exact (if_pos hkeyword).trans h
      · cases h
  · cases h

/-- A marker says the same in other letters. -/
theorem Says.marker_of_sameLetters {line line' : List Char} {said : Line}
    (hline : InBrackets line) (hletters : sameLetters line line') (h : Says line said) :
    Says line' said := by
  cases h with
  | plain hinner => exact absurd hline (by rw [InBrackets, hinner]; simp)
  | marker hinner hindex =>
      have hcode : (Text.trim (codeOf line')).map Char.toLower
          = (Text.trim (codeOf line)).map Char.toLower := by
        rw [← Text.trim_map_toLower, ← Text.trim_map_toLower, ← codeOf_map_toLower,
          ← codeOf_map_toLower, beq_iff_eq.mp hletters]
      obtain ⟨inner', hinner', hsame⟩ := bracketed?_of_map_toLower_eq hcode hinner
      exact .marker hinner' (markerIndex?_of_map_toLower_eq hsame hindex)

/-! ## Edited texts -/

/-- An edited line has the same gist. -/
theorem LineEdit.says {line line' : List Char} {said : Line} (hedit : LineEdit line line')
    (h : Says line said) : ∃ said', Says line' said' ∧ said'.gist? = said.gist? := by
  cases hedit with
  | comment => exact ⟨said, h.remark .comment, rfl⟩
  | marker hline hletters => exact ⟨said, h.marker_of_sameLetters hline hletters, rfl⟩
  | @layout words words' code code' remark hremark hline hcode hwords hcode' =>
      have htokens : (tokens (code ++ remark)).map Token.chars = words := by
        rw [tokens_append hremark, map_chars_tokens_of_laid hcode]
      have htokens' : (tokens (code' ++ remark)).map Token.chars = words' := by
        rw [tokens_append hremark, map_chars_tokens_of_laid hcode']
      rw [← htokens, ← htokens'] at hwords
      obtain ⟨said', hspells, hgist⟩ := (h.spells hline).respelled hwords
      exact ⟨said', says_of_spells hspells, hgist⟩

theorem IsIdle.says {line : List Char} (h : IsIdle line) : Says line .blank := by
  obtain ⟨blanks, remark, rfl, hblank, hremark⟩ := h
  have hlaid : Laid [] blanks := .nil fun c hc => by simp [isSeparator, hblank c hc]
  refine Says.remark hremark (says_of_spells ?_)
  rw [List.map_eq_nil_iff.mp (map_chars_tokens_of_laid hlaid)]
  exact .blank

/-- A text conveys the same when it ends with the end of a line. -/
theorem conveys_append_feed {text feed : List Char} {gists : List Line}
    (hfeed : Text.EndsLine feed []) (h : Conveys (Text.lines text) gists) :
    Conveys (Text.lines (text ++ feed)) gists := by
  obtain ⟨before, line, hbefore, hline, rfl⟩ := Text.exists_startsLine text
  rw [Text.lines_append hbefore] at h
  rw [List.append_assoc, Text.lines_append hbefore]
  obtain ⟨front, back, hfront, hback, rfl⟩ := Conveys.append_iff.mp h
  rw [← List.append_nil line] at hback
  exact hfront.append
    ((conveys_cutLine_iff hline hfeed).mpr ((conveys_cutLine_iff hline .stop).mp hback))

/-- An edited text conveys the same. -/
theorem TextEdit.conveys {text text' : List Char} {gists : List Line} (hedit : TextEdit text text')
    (h : Conveys (Text.lines text) gists) : Conveys (Text.lines text') gists := by
  cases hedit with
  | @line before line line' after rest hbefore hafter hline hline' hedit =>
      rw [List.append_assoc, Text.lines_append hbefore] at h ⊢
      obtain ⟨front, back, hfront, hback, rfl⟩ := Conveys.append_iff.mp h
      obtain ⟨said, more, hsays, hmore, rfl⟩ := (conveys_cutLine_iff hline hafter).mp hback
      obtain ⟨said', hsays', hgist⟩ := hedit.says hsays
      rw [← hgist]
      exact hfront.append ((conveys_cutLine_iff hline' hafter).mpr
        ⟨said', more, hsays', hmore, rfl⟩)
  | @insert before idle after hbefore hline hidle =>
      rw [Text.lines_append hbefore] at h ⊢
      obtain ⟨front, back, hfront, hback, rfl⟩ := Conveys.append_iff.mp h
      exact hfront.append ((conveys_cutLine_iff hline .feed).mpr
        ⟨.blank, back, hidle.says, hback, rfl⟩)
  | @append _ feed idle hfeed hbefore hline hidle =>
      have hback : Conveys (Text.lines (idle ++ [])) [] :=
        (conveys_cutLine_iff hline .stop).mpr ⟨.blank, [], hidle.says, .nil, rfl⟩
      rw [List.append_nil] at hback
      rw [Text.lines_append hbefore, ← List.append_nil gists]
      exact (conveys_append_feed hfeed h).append hback

/-- A text that assembles still does after edits of its layout, of its comments and of the case
of its words, and to the same program. -/
theorem layout_carries_no_meaning {text text' : String} {p : Program}
    (hedits : Relation.ReflTransGen TextEdit text.toList text'.toList)
    (h : assemble text = .ok p) : assemble text' = .ok p := by
  obtain ⟨gists, d, hgists, hd, hp⟩ := assemble_eq_ok_iff.mp h
  refine assemble_eq_ok_iff.mpr ⟨gists, d, ?_, hd, hp⟩
  generalize text'.toList = chars at hedits
  induction hedits with
  | refl => exact hgists
  | tail _ hedit ih => exact hedit.conveys ih

/-- A selection under a comment, with other separators and in other letters. -/
theorem layout_carries_no_meaning_of_selection :
    Relation.ReflTransGen TextEdit "SELECT_LTE any max 2".toList
      "# last\r\n, SELECT_LTE Any\u2003MAX,2".toList ∧
    assemble "SELECT_LTE any max 2" = .ok ⟨[[44, 162]], [], 1, 0⟩ ∧
    assemble "# last\r\n, SELECT_LTE Any\u2003MAX,2" = .ok ⟨[[44, 162]], [], 1, 0⟩ := by
  have hinsert : TextEdit ([] ++ "SELECT_LTE any max 2".toList)
      ([] ++ ("# last\r".toList ++ '\n' :: "SELECT_LTE any max 2".toList)) :=
    .insert (.inl rfl) (by decide +kernel) ⟨[], _, rfl, List.forall_mem_nil _, .comment⟩
  have hselect : LineEdit ("SELECT_LTE any max 2".toList ++ [])
      (", SELECT_LTE Any\u2003MAX,2".toList ++ []) := by
    have hwords : (tokens "SELECT_LTE any max 2".toList).map Token.chars
        = ["SELECT_LTE".toList, "any".toList, "max".toList, ['2']] := by decide +kernel
    have hwords' : (tokens ", SELECT_LTE Any\u2003MAX,2".toList).map Token.chars
        = ["SELECT_LTE".toList, "Any".toList, "MAX".toList, ['2']] := by decide +kernel
    exact .layout .none (by decide +kernel) (hwords ▸ laid_tokens "SELECT_LTE any max 2".toList)
      (.selection (by decide) (by decide) (by decide))
      (hwords' ▸ laid_tokens ", SELECT_LTE Any\u2003MAX,2".toList)
  have hline : TextEdit ("# last\r\n".toList ++ ("SELECT_LTE any max 2".toList ++ []) ++ [])
      ("# last\r\n".toList ++ (", SELECT_LTE Any\u2003MAX,2".toList ++ []) ++ []) :=
    .line (.inr ⟨"# last\r".toList, by decide +kernel⟩) .stop (by decide +kernel)
      (by decide +kernel) hselect
  have hedits : Relation.ReflTransGen TextEdit "SELECT_LTE any max 2".toList
      "# last\r\n, SELECT_LTE Any\u2003MAX,2".toList := by
    have htext : "# last\r\n, SELECT_LTE Any\u2003MAX,2".toList
        = "# last\r\n".toList ++ (", SELECT_LTE Any\u2003MAX,2".toList ++ []) ++ [] := by
      decide +kernel
    rw [htext]
    exact (Relation.ReflTransGen.single hinsert).tail hline
  have hassemble : assemble "SELECT_LTE any max 2" = .ok ⟨[[44, 162]], [], 1, 0⟩ := by
    decide +kernel
  exact ⟨hedits, hassemble, layout_carries_no_meaning hedits hassemble⟩

end WordMachine.Assembly
