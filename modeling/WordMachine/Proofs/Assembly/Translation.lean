import Mathlib.Data.List.Forall2
import WordMachine.Assembly.Assemble
import WordMachine.Proofs.Assembly.Lines

/-!
# Assembling line by line

The program of a text is described by what its lines say, without the draft that grows with
them.  The pairs of a source are the statements of its section, one for one and in order; the
constants are the literals in the order of their first occurrence.

The index of a literal is written into its pair when the pool is still short.  It stays right
because the pool only grows at its end (`Becomes.mono`), so that a pair never has to be
revisited.  This is why the description of the pairs mentions the pool of the finished program
alone.

## Main definitions

* `Becomes` — the pair that a statement becomes
* `statementsOf` — the statements of a section
* `Translates` — lines and the program that they become
* `Draft.Holds` — what a draft knows of the lines so far

## Main results

* `Draft.Holds.add`, `Draft.Holds.addLines` — a line, and then all lines, are taken into account
* `holds_of_assemble_eq_ok` — so they are when the text ends
* `assembled_translates` — a text translates into its program
-/

namespace WordMachine.Assembly

/-! ## Lines and their sections -/

namespace Line

/-- The index of the source that the line opens. -/
def marker? : Line → Option Nat
  | .marker index => some index.toNat
  | _ => none

/-- Whether the line becomes a pair. -/
def isStatement : Line → Bool
  | .value .. | .argument .. | .pair .. => true
  | _ => false

/-- The literal that the line pushes. -/
def literal? : Line → Option Word
  | .value literal _ => some literal
  | _ => none

/-- The index of the argument that the line pushes. -/
def argument? : Line → Option Nat
  | .argument index _ => some index.toNat
  | _ => none

def stackHint? : Line → Option UInt64
  | .stackLength hint => some hint
  | _ => none

def argumentsHint? : Line → Option UInt64
  | .argumentsLength hint => some hint
  | _ => none

end Line

/-- The number of arguments that lines need: the highest index plus one. -/
def argumentsNeeded (said : List Line) : Nat :=
  ((said.filterMap Line.argument?).max?.map (· + 1)).getD 0

/-- The section that is open after some lines, if section `current` is open before them. -/
def openAfter (current : Nat) : List Line → Nat
  | [] => current
  | line :: rest => openAfter (line.marker?.getD current) rest

/-- The statements of section `k` among lines that follow the start of section `current`. -/
def statementsOf (k current : Nat) : List Line → List Line
  | [] => []
  | line :: rest =>
    if line.isStatement ∧ current = k then line :: statementsOf k current rest
    else statementsOf k (line.marker?.getD current) rest

private theorem openAfter_append (current : Nat) (before after : List Line) :
    openAfter current (before ++ after) = openAfter (openAfter current before) after := by
  induction before generalizing current with
  | nil => rfl
  | cons line rest ih => exact ih _

private theorem marker?_of_isStatement {line : Line} (h : line.isStatement) :
    line.marker? = none := by
  cases line <;> first | rfl | cases h

private theorem statementsOf_append (k current : Nat) (before after : List Line) :
    statementsOf k current (before ++ after)
      = statementsOf k current before ++ statementsOf k (openAfter current before) after := by
  induction before generalizing current with
  | nil => rfl
  | cons line rest ih =>
      simp only [List.cons_append, statementsOf, openAfter]
      split
      · next h => rw [ih, marker?_of_isStatement h.1, Option.getD_none, List.cons_append]
      · exact ih _

private theorem mem_of_mem_statementsOf {k current : Nat} {said : List Line} {line : Line}
    (h : line ∈ statementsOf k current said) : line ∈ said := by
  induction said generalizing current with
  | nil => exact h
  | cons first rest ih =>
      unfold statementsOf at h
      split at h
      · rcases List.mem_cons.mp h with rfl | h
        · exact List.mem_cons_self
        · exact List.mem_cons_of_mem _ (ih h)
      · exact List.mem_cons_of_mem _ (ih h)

/-- What stands on the right of a row of related things has one on the left. -/
theorem exists_of_forall₂ {α β : Type} {R : α → β → Prop} {xs : List α} {ys : List β}
    (h : List.Forall₂ R xs ys) {y : β} (hy : y ∈ ys) : ∃ x ∈ xs, R x y := by
  induction h with
  | nil => cases hy
  | cons hxy _ ih =>
      rcases List.mem_cons.mp hy with rfl | hy
      · exact ⟨_, List.mem_cons_self, hxy⟩
      · obtain ⟨x, hx, hrel⟩ := ih hy
        exact ⟨x, List.mem_cons_of_mem _ hx, hrel⟩

/-! ## Statements and pairs -/

/-- A line that pushes an argument gives the operand byte of the argument. -/
theorem Says.encode_argument {text : List Char} {index operand : UInt8}
    (h : Says text (.argument index operand)) : (Fetch.argument index).encode = .ok operand := by
  cases h with
  | plain _ hspells =>
      generalize tokens text = line at hspells
      cases hspells with
      | argument _ _ hoperand => exact hoperand

/-- The pair that a statement becomes in a program with the given constants.  A literal is
referred to by an index that reads it from these constants; an argument is read under any. -/
inductive Becomes (pool : List Word) : Line → UInt8 × UInt8 → Prop where
  | value {literal : Word} {column : Nat} {index : UInt8} (hindex : index.toNat ≤ 127)
    (hliteral : pool[index.toNat]? = some literal)
    (hread : Fetch.resolve index pool.length = .constant index) :
    Becomes pool (.value literal column) (Instruction.constant.opcode, index)
  | argument {index operand : UInt8}
    (hread : ∀ size, Fetch.resolve operand size = .argument index) :
    Becomes pool (.argument index operand) (Instruction.constant.opcode, operand)
  | pair {opcode operand : UInt8} : Becomes pool (.pair opcode operand) (opcode, operand)

/-- A literal becomes a reference to its place in the pool. -/
theorem Becomes.of_getElem? {pool : List Word} {literal : Word} {column index : Nat}
    (hpool : pool.length ≤ 128) (h : pool[index]? = some literal) :
    Becomes pool (.value literal column) (Instruction.constant.opcode, .ofNat index) := by
  obtain ⟨hlt, -⟩ := List.getElem?_eq_some_iff.mp h
  have hnat : (UInt8.ofNat index).toNat = index := by
    rw [UInt8.toNat_ofNat', Nat.mod_eq_of_lt (by omega)]
  have hle : (UInt8.ofNat index).toNat ≤ 127 := by omega
  refine .value hle (by rw [hnat, h]) (Fetch.resolve_eq_constant_iff.mpr ⟨rfl, hle, ?_⟩)
  omega

/-- What a statement becomes does not change when constants are added. -/
theorem Becomes.mono {pool pool' : List Word} (hpool : pool <+: pool') {line : Line}
    {pair : UInt8 × UInt8} (h : Becomes pool line pair) : Becomes pool' line pair := by
  cases h with
  | value hindex hliteral hread =>
      obtain ⟨-, hle, hlt⟩ := Fetch.resolve_eq_constant_iff.mp hread
      refine .value hindex ?_ (Fetch.resolve_eq_constant_iff.mpr ⟨rfl, hle, ?_⟩)
      · obtain ⟨more, rfl⟩ := hpool
        rw [List.getElem?_append_left hlt, hliteral]
      · exact Nat.lt_of_lt_of_le hlt hpool.length_le
  | argument hread => exact .argument hread
  | pair => exact .pair

/-- The sources hold the statements of their sections, one pair for each. -/
def CodeOf (pool : List Word) (sources : List Source) (said : List Line) : Prop :=
  ∀ k, isWhole (sources.getD k []) ∧
    List.Forall₂ (Becomes pool) (statementsOf k 0 said) (pairs (sources.getD k []))

/-- Lines and the program that they become. -/
structure Translates (said : List Line) (p : Program) : Prop where
  /-- The markers number the sections in order. -/
  markers : said.filterMap Line.marker? = List.range (said.filterMap Line.marker?).length
  sources : p.sources.length = max 1 (said.filterMap Line.marker?).length
  code : CodeOf p.constants p.sources said
  constants : p.constants = (said.filterMap Line.literal?).eraseDups
  room : p.constants.length ≤ 128
  stackLength : p.stackLength =
    (said.filterMap Line.stackHint?).getLast?.getD (.ofNat (said.countP Line.isStatement))
  argumentsLength : p.argumentsLength =
    (said.filterMap Line.argumentsHint?).getLast?.getD (.ofNat (argumentsNeeded said))

/-- Each pair of the program comes from a line. -/
theorem Translates.exists_line {said : List Line} {p : Program} (h : Translates said p)
    {pair : UInt8 × UInt8} (hpair : pair ∈ p.sources.flatMap pairs) :
    ∃ line ∈ said, Becomes p.constants line pair := by
  obtain ⟨code, hcode, hpair⟩ := List.mem_flatMap.mp hpair
  obtain ⟨k, hk, rfl⟩ := List.mem_iff_getElem.mp hcode
  have hget : p.sources.getD k [] = p.sources[k] := by simp [hk]
  rw [← hget] at hpair
  obtain ⟨line, hline, hbecomes⟩ := exists_of_forall₂ (h.code k).2 hpair
  exact ⟨line, mem_of_mem_statementsOf hline, hbecomes⟩

/-- The code of source `k` when `code` is the last source. -/
theorem getD_concat (earlier : List Source) (code : Source) (k : Nat) :
    (earlier ++ [code]).getD k [] = if earlier.length = k then code else earlier.getD k [] := by
  simp only [List.getD_eq_getElem?_getD]
  split
  · next h =>
      subst h
      rw [List.getElem?_concat_length, Option.getD_some]
  · next h =>
      by_cases hlt : k < earlier.length
      · rw [List.getElem?_append_left hlt]
      · rw [List.getElem?_eq_none (by simp; omega), List.getElem?_eq_none (by omega)]

namespace CodeOf

variable {pool pool' : List Word} {sources : List Source} {said : List Line}

theorem mono (hpool : pool <+: pool') (h : CodeOf pool sources said) :
    CodeOf pool' sources said :=
  fun k => ⟨(h k).1, (h k).2.imp fun _ _ => Becomes.mono hpool⟩

/-- A line that is no statement leaves the code as it is. -/
theorem silent {line : Line} (hline : line.isStatement = false) (h : CodeOf pool sources said) :
    CodeOf pool sources (said ++ [line]) := by
  intro k
  have hsame : statementsOf k 0 (said ++ [line]) = statementsOf k 0 said := by
    simp [statementsOf_append, statementsOf, hline]
  rw [hsame]
  exact h k

/-- A new source has no code yet. -/
theorem concat_nil (h : CodeOf pool sources said) : CodeOf pool (sources ++ [[]]) said := by
  intro k
  have hsame : (sources ++ [[]]).getD k [] = sources.getD k [] := by
    rw [getD_concat]
    split
    · next hk => simp [← hk]
    · rfl
  rw [hsame]
  exact h k

/-- A statement adds a pair to the section that is open, and to no other. -/
theorem emit {earlier : List Source} {current : Source} {line : Line} {opcode operand : UInt8}
    (hopen : openAfter 0 said = earlier.length) (hline : line.isStatement)
    (hpair : Becomes pool line (opcode, operand)) (h : CodeOf pool (earlier ++ [current]) said) :
    CodeOf pool (earlier ++ [current ++ [opcode, operand]]) (said ++ [line]) := by
  intro k
  obtain ⟨hwhole, hcode⟩ := h k
  rw [getD_concat] at hwhole hcode ⊢
  rw [statementsOf_append, hopen]
  split
  · next hk =>
      rw [if_pos hk] at hwhole hcode
      constructor
      · simp only [isWhole, beq_iff_eq, List.length_append, List.length_cons, List.length_nil]
          at hwhole ⊢
        omega
      · have hlast : statementsOf k earlier.length [line] = [line] := by
          simp [statementsOf, hline, hk]
        rw [pairs_append hwhole, hlast]
        exact List.rel_append hcode (.cons hpair .nil)
  · next hk =>
      rw [if_neg hk] at hwhole hcode
      have hlast : statementsOf k earlier.length [line] = [] := by simp [statementsOf, hk]
      rw [hlast, List.append_nil]
      exact ⟨hwhole, hcode⟩

end CodeOf

/-! ## Literals, arguments and hints -/

section

variable {β : Type} {f : Line → Option β} {line : Line}

private theorem filterMap_concat_of_eq_none {said : List Line} (h : f line = none) :
    (said ++ [line]).filterMap f = said.filterMap f := by
  simp [h]

/-- The last of what some lines give comes from the last line that gives something. -/
theorem getLast?_filterMap_concat (said : List Line) :
    ((said ++ [line]).filterMap f).getLast? = (f line).or (said.filterMap f).getLast? := by
  cases h : f line <;> simp [h]

end

/-- A further value is kept if it did not occur before. -/
theorem eraseDups_concat (xs : List Word) (x : Word) :
    (xs ++ [x]).eraseDups = if x ∈ xs then xs.eraseDups else xs.eraseDups ++ [x] := by
  rw [List.eraseDups_append]
  split
  · next h => simp [List.removeAll, h]
  · next h => simp [List.removeAll, h, List.eraseDups_cons]

/-- Interning keeps the pool without repetitions, and finds the literal in it. -/
theorem intern?_eq_some {pool pool' : List Word} {literal : Word} {index : Nat}
    (h : Draft.intern? pool literal = some (index, pool')) (hroom : pool.length ≤ 128) :
    pool' = (if literal ∈ pool then pool else pool ++ [literal]) ∧
      pool'[index]? = some literal ∧ pool'.length ≤ 128 := by
  unfold Draft.intern? at h
  split at h
  · next found hfound =>
      cases h
      obtain ⟨hlt, hget, -⟩ := List.idxOf?_eq_some_iff.mp hfound
      have hmem : literal ∈ pool := by
        rw [← hget]
        exact List.getElem_mem hlt
      refine ⟨(if_pos hmem).symm, ?_, hroom⟩
      rw [List.getElem?_eq_getElem hlt, hget]
  · next hnone =>
      split at h
      · cases h
      · next hfull =>
          cases h
          have hmem : literal ∉ pool := List.idxOf?_eq_none_iff.mp hnone
          refine ⟨(if_neg hmem).symm, List.getElem?_concat_length, ?_⟩
          rw [List.length_append, List.length_singleton]
          exact Nat.succ_le_succ (Nat.not_lt.mp hfull)

/-- A further line may need one more argument. -/
theorem argumentsNeeded_concat (said : List Line) (line : Line) :
    argumentsNeeded (said ++ [line])
      = max (argumentsNeeded said) ((line.argument?.map (· + 1)).getD 0) := by
  unfold argumentsNeeded
  rw [List.filterMap_append]
  cases h : line.argument? with
  | none => simp [h]
  | some index =>
      cases hxs : said.filterMap Line.argument? with
      | nil => simp [h]
      | cons x xs =>
          have hlast : [line].filterMap Line.argument? = [index] := by simp [h]
          rw [hlast, List.cons_append, List.max?_cons', List.max?_cons', List.foldl_append]
          exact (Nat.succ_max_succ _ _).symm

/-! ## The draft -/

/-- What a draft knows of the lines so far. -/
structure Draft.Holds (d : Draft) (said : List Line) : Prop where
  markers : said.filterMap Line.marker? = List.range d.markers
  opened : openAfter 0 said = d.earlier.length
  earlier : d.earlier.length = d.markers - 1
  code : CodeOf d.constants (d.earlier ++ [d.current]) said
  constants : d.constants = (said.filterMap Line.literal?).eraseDups
  room : d.constants.length ≤ 128
  statements : d.statements = said.countP Line.isStatement
  total : ((d.earlier ++ [d.current]).flatMap pairs).length = d.statements
  arguments : d.arguments = argumentsNeeded said
  stackLength : d.stackLength = (said.filterMap Line.stackHint?).getLast?
  argumentsLength : d.argumentsLength = (said.filterMap Line.argumentsHint?).getLast?

namespace Draft.Holds

variable {d d' : Draft} {said : List Line}

private theorem start : ({} : Draft).Holds [] where
  markers := rfl
  opened := rfl
  earlier := rfl
  code := by
    intro k
    rw [List.nil_append, ← List.nil_append [_], getD_concat, List.getD_nil, ite_self]
    exact ⟨rfl, .nil⟩
  constants := rfl
  room := Nat.zero_le _
  statements := rfl
  total := rfl
  arguments := rfl
  stackLength := rfl
  argumentsLength := rfl

/-- The code that is open consists of whole pairs. -/
theorem isWhole_current (h : d.Holds said) : isWhole d.current := by
  have hlast := (h.code d.earlier.length).1
  rwa [getD_concat, if_pos rfl] at hlast

/-- A statement is taken into account by its pair, and by the pool and the number of arguments
after it. -/
theorem emit {line : Line} {pool : List Word} {arguments : Nat} {opcode operand : UInt8}
    (h : d.Holds said) (hline : line.isStatement) (hgrows : d.constants <+: pool)
    (hpool : pool = ((said ++ [line]).filterMap Line.literal?).eraseDups)
    (hroom : pool.length ≤ 128) (harguments : arguments = argumentsNeeded (said ++ [line]))
    (hpair : Becomes pool line (opcode, operand)) :
    ({ d with constants := pool, arguments := arguments }.emit opcode operand).Holds
      (said ++ [line]) := by
  have hnone : line.marker? = none ∧ line.stackHint? = none ∧ line.argumentsHint? = none := by
    cases line <;> first | exact ⟨rfl, rfl, rfl⟩ | cases hline
  obtain ⟨hmarker, hstack, hargument⟩ := hnone
  exact {
    markers := by rw [filterMap_concat_of_eq_none hmarker]; exact h.markers
    opened := by simpa [Draft.emit, openAfter_append, openAfter, hmarker] using h.opened
    earlier := h.earlier
    code := (h.code.mono hgrows).emit h.opened hline hpair
    constants := hpool
    room := hroom
    statements := by simp [Draft.emit, h.statements, hline]
    total := by
      simpa [Draft.emit, pairs_append h.isWhole_current, pairs, ← Nat.add_assoc] using h.total
    arguments := harguments
    stackLength := by rw [filterMap_concat_of_eq_none hstack]; exact h.stackLength
    argumentsLength := by rw [filterMap_concat_of_eq_none hargument]; exact h.argumentsLength }

/-- A marker opens the section that it names. -/
theorem openNext {index : UInt64} (h : d.Holds said) (hindex : index.toNat = d.markers) :
    d.openNext.Holds (said ++ [.marker index]) := by
  have hmarker : Line.marker? (.marker index) = some d.markers := congrArg some hindex
  have hcode : CodeOf d.constants (d.earlier ++ [d.current]) (said ++ [.marker index]) :=
    h.code.silent rfl
  -- what the sections are after the marker; the rest of the draft stays
  have hsections : d.openNext.markers = d.markers + 1 ∧ d.openNext.earlier.length = d.markers ∧
      CodeOf d.constants (d.openNext.earlier ++ [d.openNext.current]) (said ++ [.marker index]) ∧
      ((d.openNext.earlier ++ [d.openNext.current]).flatMap pairs).length = d.statements := by
    have hearlier := h.earlier
    have htotal := h.total
    unfold Draft.openNext
    split
    · next hfirst => exact ⟨by simp [hfirst], by simp [hearlier, hfirst], hcode, htotal⟩
    · next hfirst =>
        exact ⟨rfl, by simp [hearlier]; omega, hcode.concat_nil, by simpa [pairs] using htotal⟩
  have hrest : d.openNext.constants = d.constants ∧ d.openNext.statements = d.statements ∧
      d.openNext.arguments = d.arguments ∧ d.openNext.stackLength = d.stackLength ∧
      d.openNext.argumentsLength = d.argumentsLength := by
    unfold Draft.openNext
    split <;> exact ⟨rfl, rfl, rfl, rfl, rfl⟩
  obtain ⟨hcount, hlength, hsources, htotal⟩ := hsections
  obtain ⟨hconstants, hstatements, harguments, hstack, hhint⟩ := hrest
  exact {
    markers := by simp [hmarker, h.markers, hcount, List.range_succ]
    opened := by simp [openAfter_append, openAfter, hmarker, hlength]
    earlier := by simp [hcount, hlength]
    code := by rwa [hconstants]
    constants := by rw [hconstants, filterMap_concat_of_eq_none rfl, h.constants]
    room := by rw [hconstants]; exact h.room
    statements := by simp [hstatements, h.statements, Line.isStatement]
    total := by rw [htotal, hstatements]
    arguments := by simp [harguments, h.arguments, argumentsNeeded_concat, Line.argument?]
    stackLength := by rw [hstack, filterMap_concat_of_eq_none rfl, h.stackLength]
    argumentsLength := by rw [hhint, filterMap_concat_of_eq_none rfl, h.argumentsLength] }

/-- A line that is no statement and opens no section at most changes a hint. -/
theorem remark (h : d.Holds said) (line : Line) (hline : line.isStatement = false)
    (hmarker : line.marker? = none) :
    { d with
      stackLength := line.stackHint?.or d.stackLength
      argumentsLength := line.argumentsHint?.or d.argumentsLength : Draft }.Holds
      (said ++ [line]) := by
  have hnone : line.literal? = none ∧ line.argument? = none := by
    cases line <;> first | exact ⟨rfl, rfl⟩ | cases hline
  obtain ⟨hliteral, hargument⟩ := hnone
  exact {
    markers := by rw [filterMap_concat_of_eq_none hmarker]; exact h.markers
    opened := by simpa [openAfter_append, openAfter, hmarker] using h.opened
    earlier := h.earlier
    code := h.code.silent hline
    constants := by rw [filterMap_concat_of_eq_none hliteral]; exact h.constants
    room := h.room
    statements := by simpa [hline] using h.statements
    total := h.total
    arguments := by simpa [argumentsNeeded_concat, hargument] using h.arguments
    stackLength := by rw [getLast?_filterMap_concat, h.stackLength]
    argumentsLength := by rw [getLast?_filterMap_concat, h.argumentsLength] }

/-- A literal is taken into account by its place in the pool. -/
theorem value {literal : Word} {column index : Nat} {pool : List Word} (h : d.Holds said)
    (hintern : Draft.intern? d.constants literal = some (index, pool)) :
    ({ d with constants := pool }.emit Instruction.constant.opcode (.ofNat index)).Holds
      (said ++ [Line.value literal column]) := by
  obtain ⟨hpool, hliteral, hroom⟩ := intern?_eq_some hintern h.room
  have hlast : (said ++ [Line.value literal column]).filterMap Line.literal?
      = said.filterMap Line.literal? ++ [literal] := by simp [Line.literal?]
  have hconstants :
      pool = ((said ++ [Line.value literal column]).filterMap Line.literal?).eraseDups := by
    rw [hlast, eraseDups_concat, ← h.constants, hpool, h.constants]
    simp only [List.mem_eraseDups]
  have hgrows : d.constants <+: pool := by
    rw [hpool]
    split
    · exact List.prefix_rfl
    · exact List.prefix_append _ _
  refine h.emit rfl hgrows hconstants hroom ?_ (.of_getElem? hroom hliteral)
  simp [h.arguments, argumentsNeeded_concat, Line.argument?]

/-- A line is taken into account. -/
theorem add {text : List Char} {number : Nat} {line : Line} (h : d.Holds said)
    (hmeans : Says text line) (hadd : d.add number line = .ok d') : d'.Holds (said ++ [line]) := by
  cases line with
  | blank =>
      cases hadd
      exact h.remark .blank rfl rfl
  | stackLength hint =>
      cases hadd
      exact h.remark (.stackLength hint) rfl rfl
  | argumentsLength hint =>
      cases hadd
      exact h.remark (.argumentsLength hint) rfl rfl
  | marker index =>
      simp only [Draft.add] at hadd
      split at hadd
      · next hindex =>
          cases hadd
          exact h.openNext hindex
      · cases hadd
  | value literal column =>
      simp only [Draft.add] at hadd
      split at hadd
      · next hintern =>
          cases hadd
          exact h.value hintern
      · cases hadd
  | argument index operand =>
      cases hadd
      refine h.emit rfl List.prefix_rfl ?_ h.room ?_ (.argument fun size => ?_)
      · rw [filterMap_concat_of_eq_none rfl, h.constants]
      · simp [h.arguments, argumentsNeeded_concat, Line.argument?]
      · exact Fetch.resolve_of_encode_argument hmeans.encode_argument size
  | pair opcode operand =>
      cases hadd
      refine h.emit rfl List.prefix_rfl ?_ h.room ?_ .pair
      · rw [filterMap_concat_of_eq_none rfl, h.constants]
      · simp [h.arguments, argumentsNeeded_concat, Line.argument?]

/-- Line after line is taken into account. -/
theorem addLines {lines : List (List Char)} {number : Nat} (h : d.Holds said)
    (hadd : d.addLines number lines = .ok d') :
    ∃ more, List.Forall₂ Says lines more ∧ d'.Holds (said ++ more) := by
  induction lines generalizing d number said with
  | nil =>
      cases hadd
      exact ⟨[], .nil, by rwa [List.append_nil]⟩
  | cons text rest ih =>
      obtain ⟨line, hline, hadd⟩ := except_bind_eq_ok hadd
      obtain ⟨next, hnext, hadd⟩ := except_bind_eq_ok hadd
      have hmeans := readLine_eq_ok_iff.mp hline
      obtain ⟨more, hmore, hd'⟩ := ih (h.add hmeans hnext) hadd
      refine ⟨line :: more, .cons hmeans hmore, ?_⟩
      rwa [List.append_assoc] at hd'

/-- A draft that knows of all lines is finished into their program. -/
theorem translates_finish (h : d.Holds said) : Translates said d.finish where
  markers := by rw [h.markers, List.length_range]
  sources := by
    have hearlier := h.earlier
    simp only [Draft.finish, List.length_append, List.length_singleton, h.markers,
      List.length_range]
    omega
  code := h.code
  constants := h.constants
  room := h.room
  stackLength := by rw [← h.stackLength, ← h.statements]; rfl
  argumentsLength := by rw [← h.argumentsLength, ← h.arguments]; rfl

end Draft.Holds

/-! ## The text -/

private theorem length_linesFrom_le (line text : List Char) :
    (Text.linesFrom line text).length ≤ text.length + (if line.isEmpty then 0 else 1) := by
  fun_induction Text.linesFrom line text with
  | case1 line h => simp
  | case2 line h => simp [h]
  | case3 line rest ih =>
      simp only [List.length_cons, List.isEmpty_nil, if_true] at ih ⊢
      omega
  | case4 line c rest hc ih =>
      simp only [List.length_cons, List.isEmpty_cons, Bool.false_eq_true, if_false] at ih ⊢
      omega

/-- A text has no more lines than characters. -/
theorem length_lines_le (text : List Char) : (Text.lines text).length ≤ text.length :=
  length_linesFrom_le [] text

/-- A text has no more statements than characters. -/
theorem countP_isStatement_le {text : String} {said : List Line}
    (h : List.Forall₂ Says (Text.lines text.toList) said) :
    said.countP Line.isStatement ≤ text.length :=
  calc said.countP Line.isStatement
      ≤ said.length := List.countP_le_length
    _ = (Text.lines text.toList).length := h.length_eq.symm
    _ ≤ text.toList.length := length_lines_le _
    _ = text.length := String.length_toList

/-- An index of an argument is a byte. -/
theorem argumentsNeeded_le (said : List Line) : argumentsNeeded said ≤ 256 := by
  unfold argumentsNeeded
  cases hmax : (said.filterMap Line.argument?).max? with
  | none => exact Nat.zero_le _
  | some most =>
      obtain ⟨line, -, hline⟩ := List.mem_filterMap.mp (List.max?_mem hmax)
      cases line with
      | argument index operand =>
          cases hline
          exact index.toNat_lt
      | _ => cases hline

/-- Every line of a text that is assembled says something, and the draft at its end holds all
of it. -/
theorem holds_of_assemble_eq_ok {text : String} {p : Program} (h : assemble text = .ok p) :
    ∃ d said, List.Forall₂ Says (Text.lines text.toList) said ∧ Draft.Holds d said ∧
      d.finish = p := by
  obtain ⟨d, hd, h⟩ := except_bind_eq_ok h
  cases h
  obtain ⟨said, hsaid, hholds⟩ := Draft.Holds.start.addLines hd
  exact ⟨d, said, hsaid, hholds, rfl⟩

/-- The lines of a text that is assembled translate into its program.  The numbers of statements
and of arguments are small enough for the hints that they become. -/
theorem assembled_translates {text : String} {p : Program} (h : assemble text = .ok p) :
    ∃ said, List.Forall₂ Says (Text.lines text.toList) said ∧ Translates said p ∧
      said.countP Line.isStatement ≤ text.length ∧ argumentsNeeded said ≤ 256 := by
  obtain ⟨d, said, hsaid, hholds, rfl⟩ := holds_of_assemble_eq_ok h
  exact ⟨said, hsaid, hholds.translates_finish, countP_isStatement_le hsaid,
    argumentsNeeded_le said⟩

/-- A literal in two notations, once before the first marker. -/
theorem assembled_translates_two_sections :
    ∃ said,
      List.Forall₂ Says (Text.lines
        "VAL 0x10\n[ source 0 ]\nval 7\n[ source 1 ]\nARG 1\nVAL 16\nADD 2".toList) said ∧
      Translates said ⟨[[0, 0, 0, 1], [0, 129, 0, 0, 33, 2]], [.ofSmall 16, .ofSmall 7], 5, 2⟩ ∧
      said.countP Line.isStatement ≤ 59 ∧ argumentsNeeded said ≤ 256 := by
  have hassemble :
      assemble "VAL 0x10\n[ source 0 ]\nval 7\n[ source 1 ]\nARG 1\nVAL 16\nADD 2"
        = .ok ⟨[[0, 0, 0, 1], [0, 129, 0, 0, 33, 2]], [.ofSmall 16, .ofSmall 7], 5, 2⟩ := by
    decide +kernel
  exact assembled_translates hassemble

end WordMachine.Assembly
