import WordMachine.Proofs.Assembly.Layout
import WordMachine.Proofs.Word.Printing

/-!
# Programs as listings

A program without constants is no more than its hints and its pairs, and both can be written
down: a directive for each hint, a marker before each source, and an `OP` for each pair.  The
listing of a program assembles to the program.

The lines are read one by one.  Each is words with one blank between them (`spaced`), so what it
says is found from its words.  `Draft.Lists` is the invariant of the draft: after the lines of
some sources it holds these sources and both hints, and nothing else that could become part of
the program.

## Main definitions

* `Program.listing`, `Program.listingText` — the lines that write a program, and their text
* `Draft.Lists` — the draft after the lines of some sources

## Main results

* `conveys_listing` — what a listing conveys
* `Draft.Lists.source`, `Draft.Lists.addSources` — a source, and then all sources, are added
* `assemble_listing` — a listing assembles to its program
-/

namespace WordMachine

namespace Program

/-- The line that sets a hint. -/
def hintListing (directive : String) (hint : UInt64) : String :=
  directive ++ " " ++ Text.decimal hint.toNat

/-- The lines that write source `index`. -/
def sourceListing (index : Nat) (source : Source) : List String :=
  ("[ source " ++ Text.decimal index ++ " ]") :: (pairs source).map fun (opcode, operand) =>
    "OP " ++ Text.decimal opcode.toNat ++ " " ++ Text.decimal operand.toNat

/-- The lines that write sources from source `index` on. -/
def sourcesListing (index : Nat) : List Source → List String
  | [] => []
  | source :: rest => sourceListing index source ++ sourcesListing (index + 1) rest

/-- The lines that write a program without constants. -/
def listing (p : Program) : List String :=
  hintListing ".stack_length" p.stackLength :: hintListing ".arguments_length" p.argumentsLength ::
    sourcesListing 0 p.sources

/-- The text of the listing, with a line feed after each line. -/
def listingText (p : Program) : String := String.join (p.listing.map (· ++ "\n"))

end Program

namespace Assembly

/-! ## Words with one blank between them -/

/-- The words with one blank between them. -/
def spaced : List (List Char) → List Char
  | [] => []
  | first :: rest => first ++ rest.flatMap (' ' :: ·)

section

variable {words : List (List Char)}

private theorem laid_flatMap (h : ∀ word ∈ words, IsUnbroken word) :
    Laid words (words.flatMap (' ' :: ·)) ∧
      ∀ c ∈ (words.flatMap (' ' :: ·)).head?, isSeparator c = true := by
  have hblank : ∀ c ∈ [' '], isSeparator c = true := List.forall_mem_singleton.mpr (by decide)
  induction words with
  | nil => exact ⟨.nil (List.forall_mem_nil _), by simp⟩
  | cons word rest ih =>
      obtain ⟨hword, hrest⟩ := List.forall_mem_cons.mp h
      obtain ⟨hlaid, hhead⟩ := ih hrest
      exact ⟨.cons hblank hword hhead hlaid, by simpa using hblank⟩

private theorem laid_spaced (h : ∀ word ∈ words, IsUnbroken word) : Laid words (spaced words) := by
  cases words with
  | nil => exact .nil (List.forall_mem_nil _)
  | cons word rest =>
      obtain ⟨hword, hrest⟩ := List.forall_mem_cons.mp h
      obtain ⟨hlaid, hhead⟩ := laid_flatMap hrest
      exact .cons (List.forall_mem_nil _) hword hhead hlaid

private theorem not_mem_spaced (h : ∀ word ∈ words, IsUnbroken word) {c : Char}
    (hc : isSeparator c = true) (hblank : c ≠ ' ') : c ∉ spaced words := by
  have hword : ∀ word ∈ words, c ∉ word := by
    intro word hword hmem
    rw [((h word hword).unbroken c hmem).1] at hc
    cases hc
  cases words with
  | nil => exact List.not_mem_nil
  | cons first rest =>
      simp only [spaced, List.mem_append, List.mem_flatMap, List.mem_cons, not_or, not_exists,
        not_and]
      exact ⟨hword first List.mem_cons_self,
        fun word hmem => ⟨hblank, hword word (List.mem_cons_of_mem _ hmem)⟩⟩

end

/-! ## Numerals -/

private theorem isUnbroken_toDigits (n : Nat) : IsUnbroken (Nat.toDigits 10 n) := by
  refine ⟨Nat.toDigits_ne_nil, fun c hc => ?_⟩
  have hdigit : ∀ d < 10, isSeparator (Nat.digitChar d) = false ∧ Nat.digitChar d ≠ '#' := by
    decide
  obtain ⟨d, hd, rfl⟩ := Text.exists_digit_of_mem_toDigits (by decide) hc
  exact hdigit d hd

private theorem Token.IsSize.of_chars {t : Token} {n : UInt64}
    (h : t.chars = Nat.toDigits 10 n.toNat) : t.IsSize n := by
  have hword := Word.parseChars_toDigits (Word.ofUInt64 n)
  rw [Word.toNat_ofUInt64, ← h] at hword
  exact ⟨Word.ofUInt64 n, hword, Word.toNat_ofUInt64 n⟩

private theorem Token.IsByte.of_chars {t : Token} {b : UInt8}
    (h : t.chars = Nat.toDigits 10 b.toNat) : t.IsByte b := by
  obtain ⟨w, hword, hsize⟩ := Token.IsSize.of_chars (n := b.toUInt64) (by simpa using h)
  exact ⟨w, hword, hsize.trans b.toNat_toUInt64⟩

/-! ## The lines of a listing -/

/-- Words with one blank between them say what tokens of these words spell. -/
theorem says_spaced {words : List (List Char)} {said : Line}
    (hwords : ∀ word ∈ words, IsUnbroken word)
    (h : ∀ ts : List Token, ts.map Token.chars = words → Spells ts said) :
    Says (spaced words) said :=
  says_of_spells (h _ (map_chars_tokens_of_laid (laid_spaced hwords)))

def hintWords (directive : String) (hint : UInt64) : List (List Char) :=
  [directive.toList, Nat.toDigits 10 hint.toNat]

def pairWords (pair : UInt8 × UInt8) : List (List Char) :=
  ["OP".toList, Nat.toDigits 10 pair.1.toNat, Nat.toDigits 10 pair.2.toNat]

def markerWords (index : Nat) : List (List Char) :=
  ["[".toList, "source".toList, Nat.toDigits 10 index, "]".toList]

private theorem toList_hint (directive : String) (hint : UInt64) :
    (Program.hintListing directive hint).toList = spaced (hintWords directive hint) := by
  simp [Program.hintListing, Text.decimal, spaced, hintWords]

private theorem toList_pair (pair : UInt8 × UInt8) :
    ("OP " ++ Text.decimal pair.1.toNat ++ " " ++ Text.decimal pair.2.toNat).toList
      = spaced (pairWords pair) := by
  simp [Text.decimal, spaced, pairWords]

private theorem toList_marker (index : Nat) :
    ("[ source " ++ Text.decimal index ++ " ]").toList = spaced (markerWords index) := by
  simp [Text.decimal, spaced, markerWords]

private theorem isUnbroken_of_hint {directive : String} (h : IsUnbroken directive.toList)
    (hint : UInt64) : ∀ word ∈ hintWords directive hint, IsUnbroken word := by
  simp only [hintWords, List.forall_mem_cons]
  exact ⟨h, isUnbroken_toDigits _, List.forall_mem_nil _⟩

private theorem isUnbroken_of_pair (pair : UInt8 × UInt8) :
    ∀ word ∈ pairWords pair, IsUnbroken word := by
  simp only [pairWords, List.forall_mem_cons]
  exact ⟨by decide, isUnbroken_toDigits _, isUnbroken_toDigits _, List.forall_mem_nil _⟩

private theorem isUnbroken_of_marker (index : Nat) :
    ∀ word ∈ markerWords index, IsUnbroken word := by
  simp only [markerWords, List.forall_mem_cons]
  exact ⟨by decide, by decide, isUnbroken_toDigits _, by decide, List.forall_mem_nil _⟩

private theorem isUnbroken_stackLength : IsUnbroken ".stack_length".toList := by decide

private theorem isUnbroken_argumentsLength : IsUnbroken ".arguments_length".toList := by decide

/-- A hint is set by its directive and its numeral. -/
theorem says_hint {directive : String} {hint : UInt64} {said : Line}
    (hdirective : IsUnbroken directive.toList)
    (h : ∀ {head t : Token}, head.text = directive → t.IsSize hint → Spells [head, t] said) :
    Says (spaced (hintWords directive hint)) said := by
  refine says_spaced (isUnbroken_of_hint hdirective hint) fun ts hts => ?_
  simp only [hintWords, List.map_eq_cons_iff, List.map_eq_nil_iff] at hts
  obtain ⟨head, _, rfl, hhead, t, _, rfl, ht, rfl⟩ := hts
  exact h (by rw [Token.text, hhead, String.ofList_toList]) (.of_chars ht)

private theorem says_pair (pair : UInt8 × UInt8) :
    Says (spaced (pairWords pair)) (.pair pair.1 pair.2) := by
  refine says_spaced (isUnbroken_of_pair pair) fun ts hts => ?_
  simp only [pairWords, List.map_eq_cons_iff, List.map_eq_nil_iff] at hts
  obtain ⟨head, _, rfl, hhead, a, _, rfl, ha, b, _, rfl, hb, rfl⟩ := hts
  exact .raw (by rw [Token.name, hhead]; decide) (.of_chars ha) (.of_chars hb)

/-- What stands between the brackets of a marker gives its index. -/
theorem says_marker {index : Nat} (h : index < UInt64.size) :
    Says (spaced (markerWords index)) (.marker (.ofNat index)) := by
  have hsource : IsUnbroken "source".toList := by decide
  have hline : spaced (markerWords index)
      = '[' :: (' ' :: ("source".toList ++ ' ' :: (Nat.toDigits 10 index ++ [' '])) ++ [']']) := by
    simp [spaced, markerWords]
  have hwords : Text.words (' ' :: ("source".toList ++ ' ' :: (Nat.toDigits 10 index ++ [' '])))
      = ["source".toList, Nat.toDigits 10 index] := by
    rw [Text.words_blank (by decide),
      Text.words_append_blank hsource.ne_nil hsource.isBlank (by decide),
      Text.words_append_blank Nat.toDigits_ne_nil (isUnbroken_toDigits index).isBlank (by decide)]
    rfl
  have hbrackets := bracketed?_eq_some_iff.mpr (Eq.refl ('[' ::
    (' ' :: ("source".toList ++ ' ' :: (Nat.toDigits 10 index ++ [' '])) ++ [']'])))
  rw [← Text.trim_of_ends (by decide) (by decide), ← hline,
    ← (laid_spaced (isUnbroken_of_marker index)).codeOf_eq] at hbrackets
  refine .marker hbrackets ?_
  rw [markerIndex?, hwords]
  exact (if_pos (by decide)).trans (Text.size?_toDigits h)

/-! ## What a listing conveys -/

/-- What the lines of source `index` say. -/
def sourceGists (index : Nat) (source : Source) : List Line :=
  .marker (.ofNat index) :: (pairs source).map fun (opcode, operand) => .pair opcode operand

/-- What the lines of sources from source `index` on say. -/
def sourcesGists (index : Nat) : List Source → List Line
  | [] => []
  | source :: rest => sourceGists index source ++ sourcesGists (index + 1) rest

private theorem conveys_pairs (code : List (UInt8 × UInt8)) :
    Conveys (code.map fun pair => spaced (pairWords pair))
      (code.map fun (opcode, operand) => .pair opcode operand) := by
  induction code with
  | nil => exact .nil
  | cons pair rest ih => exact .cons (says_pair pair) ih

private theorem map_toList_sourceListing (index : Nat) (source : Source) :
    (Program.sourceListing index source).map String.toList
      = spaced (markerWords index) :: (pairs source).map fun pair => spaced (pairWords pair) := by
  rw [Program.sourceListing, List.map_cons, toList_marker, List.map_map]
  exact congrArg _ (List.map_congr_left fun pair _ => toList_pair pair)

private theorem conveys_sourcesListing {index : Nat} {sources : List Source}
    (h : index + sources.length ≤ UInt64.size) :
    Conveys ((Program.sourcesListing index sources).map String.toList)
      (sourcesGists index sources) := by
  induction sources generalizing index with
  | nil => exact .nil
  | cons source rest ih =>
      rw [List.length_cons] at h
      rw [Program.sourcesListing, List.map_append, map_toList_sourceListing]
      exact Conveys.append (.cons (says_marker (by omega)) (conveys_pairs _)) (ih (by omega))

theorem conveys_listing {p : Program} (h : p.sources.length ≤ UInt64.size) :
    Conveys (p.listing.map String.toList)
      (.stackLength p.stackLength :: .argumentsLength p.argumentsLength ::
        sourcesGists 0 p.sources) := by
  rw [Program.listing, List.map_cons, List.map_cons, toList_hint, toList_hint]
  exact .cons (says_hint isUnbroken_stackLength .stackLength)
    (.cons (says_hint isUnbroken_argumentsLength .argumentsLength)
      (conveys_sourcesListing (by omega)))

/-! ## The draft -/

namespace Draft

/-- The draft after the lines of some sources: it holds these sources and the hints of the
program, and nothing else that becomes part of a program. -/
structure Lists (d : Draft) (p : Program) (done : List Source) : Prop where
  markers : d.markers = done.length
  sources : done ≠ [] → d.earlier ++ [d.current] = done
  start : done = [] → d.earlier = [] ∧ d.current = []
  constants : d.constants = []
  stackLength : d.stackLength = some p.stackLength
  argumentsLength : d.argumentsLength = some p.argumentsLength

/-- The pairs of whole code are added to the open source. -/
theorem after?_pairs (d : Draft) {code : Source} (h : isWhole code) :
    ∃ statements, d.after? ((pairs code).map fun (opcode, operand) => .pair opcode operand)
      = some { d with current := d.current ++ code, statements := statements } := by
  fun_induction pairs code generalizing d with
  | case1 opcode operand rest ih =>
      rw [isWhole_cons_cons] at h
      obtain ⟨statements, hpairs⟩ := ih (d.emit opcode operand) h
      refine ⟨statements, ?_⟩
      rw [List.map_cons, after?_cons_of_ok (show d.add 0 _ = .ok (d.emit opcode operand) from rfl),
        hpairs]
      simp [emit]
  | case2 code hshort =>
      refine ⟨d.statements, ?_⟩
      rcases code with _ | ⟨a, _ | ⟨b, rest⟩⟩
      · simp [after?]
      · simp [isWhole] at h
      · exact absurd rfl (hshort a b rest)

namespace Lists

variable {d : Draft} {p : Program} {done : List Source}

/-- A marker opens the next source, which is empty. -/
theorem openNext (h : d.Lists p done) :
    d.openNext.Lists p (done ++ [[]]) ∧ d.openNext.current = [] := by
  obtain rfl | ⟨front, last, rfl⟩ := List.eq_nil_or_concat done
  · obtain ⟨hearlier, hcurrent⟩ := h.start rfl
    have hopen : d.openNext = { d with markers := 1 } := if_pos h.markers
    rw [hopen]
    exact ⟨⟨rfl, fun _ => by simp [hearlier, hcurrent], by simp, h.constants, h.stackLength,
      h.argumentsLength⟩, hcurrent⟩
  · have hmarkers : d.markers ≠ 0 := by simp [h.markers]
    have hopen : d.openNext = { d with
        earlier := d.earlier ++ [d.current], current := [], markers := d.markers + 1 } :=
      if_neg hmarkers
    rw [hopen]
    exact ⟨⟨by simp [h.markers], fun _ => by simp [h.sources], by simp, h.constants,
      h.stackLength, h.argumentsLength⟩, rfl⟩

/-- The lines of a source are added. -/
theorem source (h : d.Lists p done) {code : Source} (hwhole : isWhole code)
    (hroom : done.length < UInt64.size) :
    ∃ d', d.after? (sourceGists done.length code) = some d' ∧ d'.Lists p (done ++ [code]) := by
  have hmarker : d.add 0 (.marker (.ofNat done.length)) = .ok d.openNext := by
    rw [add, if_pos (by rw [UInt64.toNat_ofNat_of_lt' hroom, h.markers])]
  obtain ⟨hopened, hcurrent⟩ := h.openNext
  obtain ⟨statements, hpairs⟩ := d.openNext.after?_pairs hwhole
  rw [hcurrent, List.nil_append] at hpairs
  refine ⟨_, (after?_cons_of_ok hmarker).trans hpairs, ?_⟩
  have hearlier : d.openNext.earlier = done := by
    have hsources := hopened.sources (by simp)
    rw [hcurrent] at hsources
    exact List.append_cancel_right hsources
  exact ⟨by simpa using hopened.markers, fun _ => by rw [hearlier], by simp, hopened.constants,
    hopened.stackLength, hopened.argumentsLength⟩

/-- The lines of all sources are added. -/
theorem addSources (h : d.Lists p done) {sources : List Source}
    (hwhole : ∀ source ∈ sources, isWhole source)
    (hroom : done.length + sources.length ≤ UInt64.size) :
    ∃ d', d.after? (sourcesGists done.length sources) = some d' ∧ d'.Lists p (done ++ sources) := by
  induction sources generalizing d done with
  | nil => exact ⟨d, rfl, by rwa [List.append_nil]⟩
  | cons source rest ih =>
      obtain ⟨hsource, hrest⟩ := List.forall_mem_cons.mp hwhole
      rw [List.length_cons] at hroom
      obtain ⟨next, hnext, hlists⟩ := h.source hsource (by omega)
      obtain ⟨d', hd', hlists'⟩ := ih hlists hrest (by simp; omega)
      refine ⟨d', ?_, by simpa using hlists'⟩
      rw [sourcesGists, after?_append, hnext, Option.bind_some]
      simpa using hd'

/-- The draft of all sources is finished into the program. -/
theorem finish_eq (h : d.Lists p p.sources) (hsources : p.sources ≠ [])
    (hconstants : p.constants = []) : d.finish = p := by
  ext1 <;> simp [finish, h.sources hsources, h.constants, hconstants, h.stackLength,
    h.argumentsLength]

end Lists

end Draft

/-! ## The text of a listing -/

/-- A line of a listing is words with one blank between them. -/
theorem exists_words_of_mem_listing {p : Program} {line : String} (h : line ∈ p.listing) :
    ∃ words, (∀ word ∈ words, IsUnbroken word) ∧ line.toList = spaced words := by
  have hsources {sources : List Source} : ∀ {index : Nat},
      line ∈ Program.sourcesListing index sources →
        ∃ words, (∀ word ∈ words, IsUnbroken word) ∧ line.toList = spaced words := by
    induction sources with
    | nil => simp [Program.sourcesListing]
    | cons source rest ih =>
        intro index hline
        obtain hline | hline := List.mem_append.mp hline
        · obtain rfl | hline := List.mem_cons.mp hline
          · exact ⟨_, isUnbroken_of_marker index, toList_marker index⟩
          · obtain ⟨pair, -, rfl⟩ := List.mem_map.mp hline
            exact ⟨_, isUnbroken_of_pair pair, toList_pair pair⟩
        · exact ih hline
  obtain rfl | h := List.mem_cons.mp h
  · exact ⟨_, isUnbroken_of_hint isUnbroken_stackLength _, toList_hint _ _⟩
  · obtain rfl | h := List.mem_cons.mp h
    · exact ⟨_, isUnbroken_of_hint isUnbroken_argumentsLength _, toList_hint _ _⟩
    · exact hsources h

private theorem lines_listingText (p : Program) :
    Text.lines p.listingText.toList = p.listing.map String.toList := by
  have htext : p.listingText.toList
      = (p.listing.map String.toList).flatMap (· ++ ['\n']) := by
    simp [Program.listingText, List.flatMap_map]
  rw [htext, Text.lines_flatMap_feed]
  intro row hrow
  obtain ⟨line, hline, rfl⟩ := List.mem_map.mp hrow
  obtain ⟨words, hwords, hspaced⟩ := exists_words_of_mem_listing hline
  rw [hspaced]
  exact ⟨not_mem_spaced hwords (by decide) (by decide),
    not_mem_spaced hwords (by decide) (by decide)⟩

/-- Every code can be written in assembler text: the listing of a program without constants, and
any text with the same lines, assembles to the program.  It has sources, all of whole pairs, and
the index of the last one is a number of 64 bits. -/
theorem assemble_listing {p : Program} (hconstants : p.constants = []) (hsources : p.sources ≠ [])
    (hwhole : ∀ source ∈ p.sources, isWhole source) (hroom : p.sources.length ≤ UInt64.size) :
    assemble p.listingText = .ok p ∧
      ∀ text : String, Text.lines text.toList = p.listing.map String.toList →
        assemble text = .ok p := by
  have hlines {text : String} (htext : Text.lines text.toList = p.listing.map String.toList) :
      assemble text = .ok p := by
    let d : Draft :=
      { stackLength := some p.stackLength, argumentsLength := some p.argumentsLength }
    have hstart : d.Lists p [] := ⟨rfl, by simp, fun _ => ⟨rfl, rfl⟩, rfl, rfl, rfl⟩
    obtain ⟨d', hd', hlists⟩ := hstart.addSources hwhole (by simpa using hroom)
    refine assemble_eq_ok_iff.mpr ⟨_, d', htext ▸ conveys_listing hroom, ?_,
      hlists.finish_eq hsources hconstants⟩
    rw [Draft.after?_cons_of_ok rfl, Draft.after?_cons_of_ok rfl]
    exact hd'
  exact ⟨hlines (lines_listingText p), fun text => hlines⟩

/-- Two sources, one of them empty, with the largest hint and an opcode that no instruction
has. -/
theorem assemble_listing_of_two_sources :
    let p : Program := ⟨[[], [255, 0, 44, 162]], [], 18446744073709551615, 0⟩
    (p.constants = [] ∧ p.sources ≠ [] ∧ (∀ source ∈ p.sources, isWhole source) ∧
      p.sources.length ≤ UInt64.size) ∧
    p.listingText = ".stack_length 18446744073709551615\n.arguments_length 0\n" ++
      "[ source 0 ]\n[ source 1 ]\nOP 255 0\nOP 44 162\n" ∧
    assemble p.listingText = .ok p := by
  intro p
  have hp : p.constants = [] ∧ p.sources ≠ [] ∧ (∀ source ∈ p.sources, isWhole source) ∧
      p.sources.length ≤ UInt64.size := by decide
  exact ⟨hp, by decide +kernel, (assemble_listing hp.1 hp.2.1 hp.2.2.1 hp.2.2.2).1⟩

end Assembly

end WordMachine
