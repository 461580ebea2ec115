import WordMachine.Program.Json
import WordMachine.Proofs.Json.Reader
import WordMachine.Proofs.Program.Binary
import WordMachine.Proofs.Word.Text

/-!
# Programs survive their JSON text

A program is read from its JSON text field by field, whatever its sizes.  A file is taken for
the binary format exactly if it starts with the magic bytes, which no JSON text of a program
does.

## Main results

* `Program.reads_toJson` — a program is read from the tokens of its JSON value
* `Program.ofJson_toJsonText` — a program is read from its JSON text
* `Program.loading_returns_the_program`
-/

namespace WordMachine.Program

open Json

/-! ## Sources and constants -/

/-- A source is read from its digits. -/
theorem sourceOfText_sourceText (source : Source) :
    sourceOfText (sourceText source).toList = .ok source := by
  have hdigits : Text.after? ['0', 'x'] (sourceText source).toList
      = some (Text.hexText source) := by
    rw [sourceText, String.toList_ofList]
    rfl
  rw [sourceOfText, hdigits, Option.getD_some, if_neg, Text.hexBytes?_hexText]
  simp [Text.length_hexText, Text.isAscii_hexText]

private theorem reads_writtenSource (text : String) :
    Reads writtenSource [.ofString text] (.digits text.toList) :=
  fun rest => except_bind_eq_ok_iff.mpr ⟨_, reads_text text rest, rfl⟩

private theorem mapM_toSource_eq_ok_iff {texts : List String} {sources : List Source} :
    (texts.map fun text => WrittenSource.digits text.toList).mapM WrittenSource.toSource
        = .ok sources
      ↔ List.Forall₂ (fun text source => sourceOfText text.toList = .ok source) texts sources := by
  induction texts generalizing sources with
  | nil =>
      rw [List.forall₂_nil_left_iff]
      constructor
      · rintro ⟨⟩
        rfl
      · rintro rfl
        rfl
  | cons text texts ih =>
      rw [List.map_cons, List.mapM_cons]
      constructor
      · intro h
        obtain ⟨source, hsource, h⟩ := except_bind_eq_ok h
        obtain ⟨sources, hsources, h⟩ := except_bind_eq_ok h
        cases h
        exact .cons hsource (ih.mp hsources)
      · rintro ⟨⟩
        next hsource hsources =>
          refine except_bind_eq_ok_iff.mpr ⟨_, hsource, ?_⟩
          exact except_bind_eq_ok_iff.mpr ⟨_, ih.mpr hsources, rfl⟩

private theorem itemTokens_map {β : Type} (value : β → Value) (bs : List β) :
    Value.itemTokens (bs.map value) = bs.map fun b => (value b).tokens := by
  induction bs with
  | nil => rfl
  | cons b bs ih => rw [List.map_cons, List.map_cons, Value.itemTokens, ih]

/-- A list of strings is read as sources exactly if each of them is. -/
theorem sourceList_eq_ok_iff {texts : List String} {sources : List Source}
    {rest : List Json.Token} :
    sourceList ((Value.list (texts.map .text)).tokens ++ rest) = .ok (sources, rest)
      ↔ List.Forall₂ (fun text source => sourceOfText text.toList = .ok source) texts sources := by
  have hlist := reads_listOf reads_writtenSource (fun _ => ⟨_, _, rfl, nofun⟩) texts rest
  rw [Value.tokens, itemTokens_map, ← mapM_toSource_eq_ok_iff]
  refine (except_bind_of_ok hlist _).congr_left.trans ?_
  constructor
  · intro h
    obtain ⟨read, hread, h⟩ := except_bind_eq_ok h
    cases h
    exact hread
  · exact fun h => except_bind_eq_ok_iff.mpr ⟨_, h, rfl⟩

/-- The sources of a program are read from their list. -/
theorem reads_sourceList (sources : List Source) :
    Reads sourceList (Value.list (sources.map fun source => .text (sourceText source))).tokens
      sources := by
  intro rest
  have hwritten : List.Forall₂ (fun text source => sourceOfText text.toList = .ok source)
      (sources.map sourceText) sources := by
    rw [List.forall₂_map_left_iff, List.forall₂_same]
    exact fun source _ => sourceOfText_sourceText source
  have hread := @sourceList_eq_ok_iff _ _ rest |>.mpr hwritten
  rwa [List.map_map] at hread

private theorem reads_word (word : Word) : Reads Json.word [.ofString word.prefixedHex] word := by
  intro rest
  refine except_bind_eq_ok_iff.mpr ⟨_, reads_text _ rest, ?_⟩
  rw [Word.prefixedHex, String.toList_ofList]
  dsimp only
  rw [Word.parseChars_prefixedHex]

/-- The constants of a program are read from their list. -/
theorem reads_constants (constants : List Word) :
    Reads (Json.listOf Json.word)
      (Value.list (constants.map fun word => .text word.prefixedHex)).tokens constants := by
  intro rest
  rw [Value.tokens, itemTokens_map]
  have hlist := reads_listOf reads_word (fun _ => ⟨_, _, rfl, nofun⟩) constants rest
  rwa [List.map_id'] at hlist

/-! ## Programs -/

/-- A program is read from the tokens of its JSON value. -/
theorem reads_toJson (p : Program) : Reads reader p.toJson.tokens p := by
  have hsources : Reads (readEntry fields {}) (.ofString "sources" :: .colon :: _)
      ⟨some p.sources, none, none, none⟩ :=
    reads_entry rfl rfl (reads_field (reads_sourceList p.sources))
  have hconstants : Reads (readEntry fields ⟨some p.sources, none, none, none⟩)
      (.ofString "constants" :: .colon :: _) ⟨some p.sources, some p.constants, none, none⟩ :=
    reads_entry rfl rfl (reads_field (reads_constants p.constants))
  have hstack : Reads (readEntry fields ⟨some p.sources, some p.constants, none, none⟩)
      (.ofString "stackLength" :: .colon :: _)
      ⟨some p.sources, some p.constants, some p.stackLength, none⟩ :=
    reads_entry rfl rfl (reads_field (reads_size p.stackLength))
  have harguments : Reads
      (readEntry fields ⟨some p.sources, some p.constants, some p.stackLength, none⟩)
      (.ofString "argumentsLength" :: .colon :: _)
      ⟨some p.sources, some p.constants, some p.stackLength, some p.argumentsLength⟩ :=
    reads_entry rfl rfl (reads_field (reads_size p.argumentsLength))
  exact reads_record
    (.cons hsources (.cons hconstants (.cons hstack (.cons harguments (.nil _))))) rfl

private theorem plainItems_map_text {β : Type} (text : β → String) (bs : List β) :
    Value.PlainItems (bs.map fun b => .text (text b)) := by
  induction bs with
  | nil => exact trivial
  | cons b bs ih => exact ⟨trivial, ih⟩

private theorem plain_toJson (p : Program) : p.toJson.Plain :=
  ⟨plainItems_map_text _ p.sources, plainItems_map_text _ p.constants, ⟨_, rfl⟩, ⟨_, rfl⟩, trivial⟩

/-- A program is read from its JSON text. -/
theorem ofJson_toJsonText (p : Program) : ofJson p.toJsonText = .ok p := by
  rw [ofJson, toJsonText, read_pretty p.plain_toJson p.reads_toJson]
  rfl

/-! ## Files of either format -/

/-- A block starts with its opening bracket. -/
theorem exists_block_eq (depth : Nat) (opening closing : String) (items : List String) :
    ∃ rest, Value.block depth opening closing items = opening ++ rest := by
  rw [Value.block]
  split
  · exact ⟨_, rfl⟩
  · simp only [String.append_assoc]
    exact ⟨_, rfl⟩

/-- The JSON text of a program does not start with the magic bytes. -/
theorem take_toJsonText_ne_magic (p : Program) :
    p.toJsonText.toUTF8.data.toList.take magic.length ≠ magic := by
  obtain ⟨rest, htext⟩ : ∃ rest, p.toJsonText = "\x7b" ++ rest := by
    rw [toJsonText, Value.pretty, toJson, Value.prettyAt]
    exact exists_block_eq 0 _ _ _
  have hbytes : p.toJsonText.toUTF8.data.toList = 0x7b :: rest.toUTF8.data.toList := by
    rw [htext]
    show ("\x7b" ++ rest).toByteArray.data.toList = _
    rw [String.toByteArray_append, ByteArray.data_append, Array.toList_append]
    rfl
  rw [hbytes]
  intro h
  exact absurd (List.cons.inj h).1 (by decide)

/-- A file that does not start with the magic bytes is read as a JSON text. -/
theorem ofAny_toUTF8 {text : String} (h : text.toUTF8.data.toList.take magic.length ≠ magic) :
    ofAny text.toUTF8.data.toList = ofJson text := by
  have hvalid : text.toUTF8.IsValidUTF8 := text.isValidUTF8
  have hutf8 : String.fromUTF8? ⟨text.toUTF8.data.toList.toArray⟩ = some text := by
    rw [Array.toArray_toList, String.fromUTF8?, dif_pos hvalid]
    rfl
  rw [ofAny, if_neg h, hutf8]

/-- Writing a program loses nothing, and loading finds out the format: a program is read from its
JSON text, from the bytes of that text, and, within the limit of the binary format, from its
binary file. -/
theorem loading_returns_the_program (p : Program) :
    ofJson p.toJsonText = .ok p
      ∧ ofAny p.toJsonText.toUTF8.data.toList = .ok p
      ∧ (p.Within (2 ^ 20) → ofAny p.toBytes = .ok p) := by
  refine ⟨ofJson_toJsonText p, ?_, ?_⟩
  · rw [ofAny_toUTF8 (take_toJsonText_ne_magic p), ofJson_toJsonText]
  · intro hwithin
    have hmagic : p.toBytes.take magic.length = magic := by
      rw [toBytes, List.append_assoc, take_magic]
    rw [ofAny, if_pos hmagic]
    exact ofBytes_eq_ok_iff.mpr ⟨rfl, hwithin⟩

/-- A program with both kinds of digits is read from its binary file as well. -/
theorem loading_returns_the_program_of_one_source :
    ofAny (toBytes ⟨[[0x0a, 0xff]], [Word.max], 2, 3⟩)
      = .ok ⟨[[0x0a, 0xff]], [Word.max], 2, 3⟩ := by
  obtain ⟨-, -, hbinary⟩ := loading_returns_the_program ⟨[[0x0a, 0xff]], [Word.max], 2, 3⟩
  exact hbinary (by decide)

end WordMachine.Program
