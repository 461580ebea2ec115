import WordMachine.Proofs.Combinators.Gates
import WordMachine.Proofs.Combinators.Multipliers
import WordMachine.Proofs.Linking.Sizing

/-!
# Room for what combinators make

Combinators add up the hints of the programs that they are given and of their own.  Instructions
that follow programs come without hints and need none, since they work on values that are there.
Gates need two values.  A tier table needs the most: before the last of its eight tiers is
evaluated there are seven values of the others, and the source for a tier goes up by three.

A gate that cannot be evaluated fails with the first pair of the whole program, which then needs
no room at all.

## Main results

* `Combinator.stays_of_ascent?` — programs of instructions
* `Combinator.stays_bestTier` — the room for a tier table
* `hints_stay_sufficient_under_linking` — programs in a row and every combinator
-/

namespace WordMachine

namespace Combinator

open Program

variable {env : Environment} {p q : Program} {values : List Word}

/-! ## Instructions after a program -/

/-- A program of instructions goes as high as their ascent says. -/
theorem stays_of_ascent? {ops : List (Instruction × UInt8)}
    (hcode : q.sources[0]? = some (code ops)) {w : Workspace} {way : Nat × Nat}
    (hway : ascent? (pairsOf ops) w.stack.length = some way) {S A : Nat} (hS : way.1 ≤ S)
    (hA : w.arguments.length ≤ A) : q.Stays env w S A := by
  rw [stays_iff hcode (isWhole_code ops), pairs_code, ← List.append_nil (pairsOf ops)]
  have hbase : (q.machine w).height = 0 + w.stack.length := (Nat.zero_add _).symm
  exact Config.stays_straight hway hbase (by omega) hA fun stack _ hle =>
    Config.stays_of_last ⟨hle, hA⟩

/-- `ZIPMAP` has no ascent. -/
theorem ne_zipmap_of_ascent? {ops : List (Instruction × UInt8)} {height : Nat} {way : Nat × Nat}
    (h : ascent? (pairsOf ops) height = some way) : ∀ op ∈ ops, op.1 ≠ .zipmap := by
  induction ops generalizing height way with
  | nil => simp
  | cons op rest ih =>
      obtain ⟨e, heffect, hrest⟩ := Option.bind_eq_some_iff.mp h
      rw [List.forall_mem_cons]
      constructor
      · intro hzipmap
        rw [hzipmap, Instruction.ofOpcode?_opcode] at heffect
        cases heffect
      · split at hrest
        · obtain ⟨way', hway', -⟩ := Option.map_eq_some_iff.mp hrest
          exact ih hway'
        · cases hrest

/-- Instructions that go no higher than the values they work on need no hint. -/
theorem covers_followedBy {ops : List (Instruction × UInt8)} (h : followedBy p ops = .ok q)
    (hp : p.Sized env values) {n : Nat}
    (hway : ascent? (pairsOf ops) values.length = some (values.length, n)) :
    q.Covers env ∧ q.HintsAdd [p] := by
  have hfits : HintsFit [p, tail ops] 0 0 := by
    constructor
    · simpa [tail] using p.stackLength.toNat_lt_size
    · simpa [tail] using p.argumentsLength.toNat_lt_size
  constructor
  · refine hp.covers_of_link h hfits ?_ ?_
    · intro k hreach
      exact absurd hreach (not_reaches_tail (ne_zipmap_of_ascent? hway))
    · exact stays_of_ascent? rfl hway (Nat.le_add_right_of_le hp.length_le) (Nat.zero_le _)
  · obtain ⟨hstack, harguments⟩ := HintsAdd.link h hfits
    exact ⟨by simpa [tail] using hstack, by simpa [tail] using harguments⟩

private theorem fitted_negation (h : negation p = .ok q) (hp : p.Fitted env) :
    q.Fitted env ∧ q.HintsAdd [p] := by
  obtain ⟨v, hv⟩ := hp
  obtain ⟨hcovers, hhints⟩ := covers_followedBy h hv rfl
  exact ⟨⟨_, output_negation h hv.output, hcovers⟩, hhints⟩

/-! ## Several programs -/

section

variable {programs : List Program}
variable (hall : ∀ q ∈ programs, q.Fitted env) (hfits : HintsFit programs 0 0)
include hall hfits

private theorem covers_linkAll (h : Program.linkAll programs true = .ok p) : p.Covers env := by
  obtain ⟨values, hvalues⟩ := exists_sized_of_fitted hall
  exact (sized_of_linkAll hvalues hfits h).1.covers

/-- An instruction over all values takes a window of them. -/
theorem covers_reduce {instruction : Instruction}
    (hwindow : ∀ n, instruction.takesLeaves? n
      = (windowSize instruction n).toOption.map fun k => (k, 1))
    (h : reduce programs instruction = .ok p) : p.Covers env ∧ p.HintsAdd programs := by
  obtain ⟨values, hvalues⟩ := exists_sized_of_fitted hall
  obtain ⟨n, hn, h⟩ := except_bind_eq_ok h
  obtain ⟨all, hlinked, h⟩ := except_bind_eq_ok h
  obtain ⟨hpos, hcount⟩ := windowOver_eq_ok hn
  obtain ⟨hsized, hhints⟩ := sized_of_linkAll hvalues hfits hlinked
  have hlength : n.toNat = values.length := hcount.trans hvalues.length_eq
  have hne : n ≠ 0 := by
    rintro rfl
    exact absurd hcount (Nat.ne_of_lt hpos)
  have hway : ascent? (pairsOf [(instruction, n)]) values.length = some (values.length, 1) := by
    have hsize : windowSize instruction n = .ok values.length := by
      rw [windowSize, if_neg hne, hlength]
    simp only [pairsOf, List.map_cons, List.map_nil, ascent?, Instruction.ofOpcode?_opcode,
      Option.bind_some, hwindow, hsize, Except.toOption, Option.map_some, Nat.le_refl, if_true]
    rw [Nat.sub_self, Nat.max_eq_left (by omega)]
  obtain ⟨hcovers, hhints'⟩ := covers_followedBy h hsized hway
  exact ⟨hcovers, hhints'.trans hhints⟩

private theorem fitted_conjunction (h : conjunction programs = .ok p) :
    p.Fitted env ∧ p.HintsAdd programs := by
  obtain ⟨hcovers, hhints⟩ := covers_reduce hall hfits (fun _ => rfl) h
  obtain ⟨values, hvalues⟩ := exists_sized_of_fitted hall
  obtain ⟨v, hv, -⟩ := output_conjunction (output_of_sized hvalues) h
  exact ⟨⟨v, hv, hcovers⟩, hhints⟩

private theorem fitted_disjunction (h : disjunction programs = .ok p) :
    p.Fitted env ∧ p.HintsAdd programs := by
  obtain ⟨hcovers, hhints⟩ := covers_reduce hall hfits (fun _ => rfl) h
  obtain ⟨values, hvalues⟩ := exists_sized_of_fitted hall
  exact ⟨⟨_, output_disjunction (output_of_sized hvalues) h, hcovers⟩, hhints⟩

private theorem covers_nand (h : nand programs = .ok p) : p.Covers env := by
  obtain ⟨q, hq, h⟩ := except_bind_eq_ok h
  exact (fitted_negation h (fitted_conjunction hall hfits hq).1).1.covers

private theorem covers_nor (h : nor programs = .ok p) : p.Covers env := by
  obtain ⟨q, hq, h⟩ := except_bind_eq_ok h
  exact (fitted_negation h (fitted_disjunction hall hfits hq).1).1.covers

end

section

variable {a b : Program} (ha : a.Fitted env) (hb : b.Fitted env) (hfits : HintsFit [a, b] 0 0)
include ha hb hfits

/-- Instructions on two values. -/
theorem covers_onPair {ops : List (Instruction × UInt8)} {n : Nat}
    (hway : ascent? (pairsOf ops) 2 = some (2, n)) (h : onPair a b ops = .ok q) :
    q.Covers env := by
  obtain ⟨x, hx⟩ := ha
  obtain ⟨y, hy⟩ := hb
  obtain ⟨all, hall, h⟩ := except_bind_eq_ok h
  rw [linkPair_eq_linkAll] at hall
  obtain ⟨hsized, -⟩ := sized_of_linkAll (.cons hx (.cons hy .nil)) hfits hall
  exact (covers_followedBy h hsized hway).1

private theorem fitted_xnor (h : xnor a b = .ok q) : q.Fitted env := by
  obtain ⟨a', ha', h'⟩ := except_bind_eq_ok h
  obtain ⟨b', hb', h'⟩ := except_bind_eq_ok h'
  obtain ⟨hfa, hsa, hta⟩ := fitted_negation ha' ha
  obtain ⟨hfb, hsb, htb⟩ := fitted_negation hb' hb
  have hfits' : HintsFit [a', b'] 0 0 := by
    constructor
    · simpa [hsa, hsb] using hfits.stack
    · simpa [hta, htb] using hfits.arguments
  obtain ⟨x, hx⟩ := ha
  obtain ⟨y, hy⟩ := hb
  exact ⟨_, output_xnor hx.output hy.output h, covers_onPair hfa hfb hfits' rfl h'⟩

private theorem covers_xor (h : Combinator.xor a b = .ok q) : q.Covers env := by
  obtain ⟨r, hr, h⟩ := except_bind_eq_ok h
  exact (fitted_negation h (fitted_xnor ha hb hfits hr)).1.covers

end

private theorem covers_conditional {condition whenTrue whenFalse : Program}
    (hc : condition.Fitted env) (ht : whenTrue.Fitted env) (hf : whenFalse.Fitted env)
    (hfits : HintsFit [condition, whenTrue, whenFalse] 0 0)
    (h : conditional condition whenTrue whenFalse = .ok q) : q.Covers env := by
  obtain ⟨x, hx⟩ := hc
  obtain ⟨y, hy⟩ := ht
  obtain ⟨z, hz⟩ := hf
  obtain ⟨all, hall, h⟩ := except_bind_eq_ok h
  obtain ⟨hsized, -⟩ := sized_of_linkAll (.cons hx (.cons hy (.cons hz .nil))) hfits hall
  exact (covers_followedBy h hsized rfl).1

/-! ## Gates -/

private theorem fitted_value (w : Word) : (value w).Fitted env :=
  ⟨w, output_value w, stays_of_ascent? (w := ⟨[], [], []⟩) rfl rfl (Nat.le_refl 1) (Nat.le_refl 0)⟩

private theorem fitted_timeGate {time : Word} (htime : env.HasTime time) (c : Comparison)
    (bound : Word) : (timeGate (comparisonInstruction c) bound).Fitted env := by
  refine ⟨_, output_timeGate htime c bound, ?_⟩
  have hway : ascent? (pairsOf [(.blockTimestamp, 0), (.constant, 0), (comparisonInstruction c, 0),
      (.isZero, 0)]) 0 = some (2, 1) := by
    cases c <;> rfl
  exact stays_of_ascent? (w := ⟨[], [], []⟩) rfl hway (Nat.le_refl 2) (Nat.le_refl 0)

private theorem fitted_ownerGate {signer : Address} (hsigner : env.signer = some (.ok signer))
    (owner : Address) : (ownerGate owner).Fitted env :=
  ⟨_, output_ownerGate hsigner owner,
    stays_of_ascent? (w := ⟨[], [], []⟩) rfl rfl (Nat.le_refl 2) (Nat.le_refl 0)⟩

/-- What time gates add to the hint for the stack: two values for each gate, and one for the value
zero. -/
def gateHint : Option Word → Option Word → Nat
  | none, none => 0
  | some _, some _ => 5
  | _, _ => 3

/-- An instruction over several programs comes after the first pair of the first one. -/
theorem begins_reduce {first : Program} {rest : List Program} {head : UInt8 × UInt8}
    (hfirst : first.Begins head) (hhead : head.1 ≠ Instruction.constant.opcode)
    {instruction : Instruction} (h : reduce (first :: rest) instruction = .ok q) :
    q.Begins head := by
  obtain ⟨n, -, h⟩ := except_bind_eq_ok h
  obtain ⟨all, hall, h⟩ := except_bind_eq_ok h
  exact (hfirst.linkAfter hhead hall).link hhead h

private theorem begins_conditional {condition whenTrue whenFalse : Program} {head : UInt8 × UInt8}
    (hcondition : condition.Begins head) (hhead : head.1 ≠ Instruction.constant.opcode)
    (h : conditional condition whenTrue whenFalse = .ok q) : q.Begins head := by
  obtain ⟨all, hall, h⟩ := except_bind_eq_ok h
  exact (hcondition.linkAfter hhead hall).link hhead h

/-- `BLOCK_TIMESTAMP` succeeds only if the chain gives a time. -/
theorem exists_hasTime_of_blockTimestamp {m : Machine}
    (h : (Action.blockTimestamp env m).result = .ok ()) : ∃ time, env.HasTime time := by
  obtain ⟨block, hblock, h⟩ := Action.bind_result_eq_ok h
  obtain ⟨time, htime, -⟩ := Action.bind_result_eq_ok h
  obtain ⟨chain, hchain, hblock⟩ := Action.chain_of_ask_eq_ok hblock
  obtain ⟨chain', hchain', htime⟩ := Action.chain_of_ask_eq_ok htime
  obtain rfl : chain' = chain := Option.some.inj (hchain'.symm.trans hchain)
  exact ⟨time, chain', block, hchain, hblock, htime⟩

/-- `SENDER` succeeds only if there is a signer that gives its address. -/
theorem exists_signer_of_sender {m : Machine} (h : (Action.sender env m).result = .ok ()) :
    ∃ signer, env.signer = some (.ok signer) := by
  have hrequired : ∀ e, env.requireSigner ≠ .error e := by
    intro e he
    rw [Action.sender, he] at h
    cases h
  rw [Environment.requireSigner] at hrequired
  cases hsigner : env.signer with
  | none => exact absurd (by rw [hsigner]; rfl) (hrequired .noSigner)
  | some answer =>
      cases answer with
      | ok signer => exact ⟨signer, rfl⟩
      | error e => exact absurd (by rw [hsigner]; rfl) (hrequired e)

/-- The bounds that are there begin with the time of the current block. -/
theorem begins_boundGates {start stop : Option Word} (h : ¬ (start = none ∧ stop = none)) :
    ∃ first rest, boundGates start stop = first :: rest ∧
      first.Begins (Instruction.blockTimestamp.opcode, 0) := by
  have hbegins : ∀ comparison bound,
      (timeGate comparison bound).Begins (Instruction.blockTimestamp.opcode, 0) :=
    fun _ _ => ⟨_, _, rfl, isWhole_code _, pairs_code _⟩
  cases start with
  | some bound => exact ⟨_, _, rfl, hbegins .lessThan bound⟩
  | none =>
      cases stop with
      | some bound => exact ⟨_, _, rfl, hbegins .greaterThan bound⟩
      | none => exact absurd ⟨rfl, rfl⟩ h

private theorem fitted_boundGates {time : Word} (htime : env.HasTime time)
    (start stop : Option Word) : ∀ gate ∈ boundGates start stop, gate.Fitted env := by
  intro gate hgate
  unfold boundGates at hgate
  simp only [List.mem_append, Option.mem_toList, Option.map_eq_some_iff] at hgate
  rcases hgate with ⟨bound, -, rfl⟩ | ⟨bound, -, rfl⟩
  · exact fitted_timeGate htime .less bound
  · exact fitted_timeGate htime .greater bound

/-- With at least one bound, the gates and the value zero have the hints that gates add. -/
theorem hints_boundGates {start stop : Option Word} (h : ¬ (start = none ∧ stop = none)) :
    stackHints (boundGates start stop) + 1 = gateHint start stop ∧
      argumentHints (boundGates start stop) = 0 := by
  cases start with
  | some bound => cases stop <;> exact ⟨rfl, rfl⟩
  | none =>
      cases stop with
      | some bound => exact ⟨rfl, rfl⟩
      | none => exact absurd ⟨rfl, rfl⟩ h

private theorem covers_during (hp : p.Fitted env) {start stop : Option Word}
    (hfits : HintsFit [p] (gateHint start stop) 0) (h : during p start stop = .ok q) :
    q.Covers env := by
  by_cases hnone : start = none ∧ stop = none
  · obtain ⟨rfl, rfl⟩ := hnone
    cases h
    exact hp.covers
  · rw [during_eq_conditional p hnone] at h
    obtain ⟨condition, hcondition, h⟩ := except_bind_eq_ok h
    by_cases htime : ∃ time, env.HasTime time
    · obtain ⟨time, htime⟩ := htime
      obtain ⟨hstack, harguments⟩ := hfits
      obtain ⟨hgateStack, hgateArguments⟩ := hints_boundGates hnone
      have hgates : HintsFit (boundGates start stop) 0 0 := ⟨by omega, by omega⟩
      obtain ⟨hfitted, hs, ht⟩ :=
        fitted_conjunction (fitted_boundGates htime start stop) hgates hcondition
      have hvalue : (value Word.zero).stackLength.toNat = 1 := rfl
      have hvalue' : (value Word.zero).argumentsLength.toNat = 0 := rfl
      refine covers_conditional hfitted hp (fitted_value Word.zero) ⟨?_, ?_⟩ h
      · simp only [stackHints_cons, stackHints_nil] at hstack ⊢
        omega
      · simp only [argumentHints_cons, argumentHints_nil] at harguments ⊢
        omega
    · -- the first pair of the first gate fails, and nothing comes before it
      obtain ⟨first, rest, hgates, hbegins⟩ := begins_boundGates hnone
      rw [hgates] at hcondition
      have hq := begins_conditional (begins_reduce hbegins (by decide) hcondition) (by decide) h
      exact hq.covers (by decide) fun m hok => htime (exists_hasTime_of_blockTimestamp hok)

private theorem covers_ownedBy (hp : p.Fitted env) {owner : Address} {fallback : Word}
    (hfits : HintsFit [p] 3 0) (h : ownedBy p owner fallback = .ok q) : q.Covers env := by
  by_cases hsigner : ∃ signer, env.signer = some (.ok signer)
  · obtain ⟨signer, hsigner⟩ := hsigner
    obtain ⟨hstack, harguments⟩ := hfits
    have hgate : (ownerGate owner).stackLength.toNat = 2 := rfl
    have hgate' : (ownerGate owner).argumentsLength.toNat = 0 := rfl
    have hvalue : (value fallback).stackLength.toNat = 1 := rfl
    have hvalue' : (value fallback).argumentsLength.toNat = 0 := rfl
    refine covers_conditional (fitted_ownerGate hsigner owner) hp (fitted_value fallback)
      ⟨?_, ?_⟩ h
    · simp only [stackHints_cons, stackHints_nil] at hstack ⊢
      omega
    · simp only [argumentHints_cons, argumentHints_nil] at harguments ⊢
      omega
  · have hbegins : (ownerGate owner).Begins (Instruction.sender.opcode, 0) :=
      ⟨_, _, rfl, isWhole_code _, pairs_code _⟩
    have hq := begins_conditional hbegins (by decide) h
    exact hq.covers (by decide) fun m hok => hsigner (exists_signer_of_sender hok)

/-! ## Tier tables -/

section

open Config

variable {S A : Nat} {m : Machine} {k : UInt8} (hsource : m.sources[1]? = some (heldTier k))
include hsource

/-- The source for a tier goes up by three values and leaves one. -/
theorem stays_heldTier {after : List Task} (hS : m.height + 3 ≤ S) (hA : m.arguments.length ≤ A)
    (hafter : ∀ stack, stack.length = m.height + 1 →
      Stays env S A ⟨after, .ok (), { m with stack := stack }⟩) :
    Stays env S A ⟨.source 1 :: after, .ok (), m⟩ := by
  refine stays_source hsource (isWhole_code _) ⟨by omega, hA⟩ ?_
  rw [heldTier, pairs_code, ← List.append_nil (pairsOf _)]
  have hway : ascent? (pairsOf [(.constant, argument 1), (.constant, 3), (.lessThan, 0),
      (.constant, argument 0), (.constant, k), (.eagerIf, 0)]) 0 = some (3, 1) := rfl
  have hbase : m.height = m.height + 0 := rfl
  exact stays_straight hway hbase hS hA fun stack hstack hle =>
    stays_of_step ⟨hle, hA⟩ (hafter stack hstack)

/-- The largest value of the tiers needs ten values above those that are there: the last tier is
evaluated above the values of the seven others. -/
theorem stays_bestTier {more : List (UInt8 × UInt8)} {rest : List Task} (hS : m.height + 10 ≤ S)
    (hA : m.arguments.length + 2 ≤ A)
    (hmore : ∀ stack, stack.length = m.height + 1 →
      Stays env S A ⟨.pairs more :: rest, .ok (), { m with stack := stack }⟩) :
    Stays env S A ⟨.pairs (pairsOf bestTier ++ more) :: rest, .ok (), m⟩ := by
  have hA' : m.arguments.length ≤ A := by omega
  have hfront : ascent? (pairsOf [(.constant, 1), (.constant, 2), (.sender, 0), (.tierReport, 0)]) 0
      = some (3, 2) := rfl
  have hback : ascent? (pairsOf [(.max, 8)]) 8 = some (8, 1) := rfl
  have hcode : pairsOf bestTier ++ more
      = pairsOf [(.constant, 1), (.constant, 2), (.sender, 0), (.tierReport, 0)]
        ++ (Instruction.zipmap.opcode, 0x39) :: (pairsOf [(.max, 8)] ++ more) := rfl
  have hbase : m.height = m.height + 0 := rfl
  rw [hcode]
  refine stays_straight hfront hbase (by omega) hA' fun stack hstack hle => ?_
  refine stays_zipmap ⟨hle, hA'⟩ fun values below hvalues hbelow => ?_
  rw [decode_zipTiers] at hvalues ⊢
  have hcount : values.length = 2 := hvalues
  have hheight : below.length = m.height := by
    have hlength : stack.length = (below ++ values).length := congrArg List.length hbelow
    rw [List.length_append] at hlength
    omega
  show Stays env S A ⟨.lanes tierZip values (List.range 8) ::
    .pairs (pairsOf [(.max, 8)] ++ more) :: rest, .ok (), { m with stack := below }⟩
  refine stays_lanes 3 (by decide) ?_ (by omega) ?_ ?_
  · intro lane stack' after hstack' hafter
    have hopened : ({ m.openFrame (Action.laneValues tierZip values lane) with
        stack := stack' } : Machine).sources[1]? = some (heldTier k) := hsource
    refine stays_heldTier hopened hstack' ?_ hafter
    show (m.arguments ++ Action.laneValues tierZip values lane).length ≤ A
    rw [List.length_append, Action.laneValues, List.length_map, hcount]
    exact hA
  · rw [List.length_range]
    omega
  · intro stack' hstack'
    have hbase : stack'.length = m.height + 8 := by
      rw [hstack', hheight, List.length_range]
    exact stays_straight hback hbase (by omega) hA' fun stack'' hstack'' _ => hmore stack'' hstack''

end

section

variable {contract : Address} {table : Vector UInt32 8} {S A : Nat}

/-- A discount holds a value and one hundred below the tiers. -/
theorem stays_discount (v : Word) (hS : 12 ≤ S) (hA : 2 ≤ A) :
    (tierProgram (code discount) 4 table contract 11).Stays env ⟨[v], [], []⟩ S A := by
  let m := (tierProgram (code discount) 4 table contract 11).machine ⟨[v], [], []⟩
  have hhundred : ascent? (pairsOf [(.constant, 0)]) 1 = some (2, 2) := rfl
  have hscale : ascent? (pairsOf ((.sub, 2) :: hundredths)) 3 = some (3, 1) := rfl
  have hcode : pairsOf discount = pairsOf [(.constant, 0)] ++ (pairsOf bestTier
      ++ (pairsOf ((.sub, 2) :: hundredths) ++ [])) := rfl
  rw [stays_iff rfl (isWhole_code discount), pairs_code, hcode]
  have hbase : m.height = 0 + 1 := rfl
  have hA' : m.arguments.length ≤ A := Nat.zero_le A
  refine Config.stays_straight hhundred hbase (by omega) hA' fun stack hstack _ => ?_
  have hsource : ({ m with stack := stack } : Machine).sources[1]? = some (heldTier 4) := rfl
  have hheight : ({ m with stack := stack } : Machine).height = 2 := hstack
  refine stays_bestTier hsource (by omega) hA fun stack' hstack' => ?_
  have hbase' : ({ m with stack := stack' } : Machine).height = 0 + 3 :=
    hstack'.trans (congrArg (· + 1) hstack)
  exact Config.stays_straight hscale hbase' (by omega) hA' fun stack'' _ hle =>
    Config.stays_of_last ⟨hle, hA'⟩

/-- A multiplier holds a value below the tiers. -/
theorem stays_multiplier (v : Word) (hS : 11 ≤ S) (hA : 2 ≤ A) :
    (tierProgram (code multiplier) 0 table contract 10).Stays env ⟨[v], [], []⟩ S A := by
  let m := (tierProgram (code multiplier) 0 table contract 10).machine ⟨[v], [], []⟩
  have hscale : ascent? (pairsOf hundredths) 2 = some (2, 1) := rfl
  have hcode : pairsOf multiplier = pairsOf bestTier ++ (pairsOf hundredths ++ []) := rfl
  rw [stays_iff rfl (isWhole_code multiplier), pairs_code, hcode]
  have hA' : m.arguments.length ≤ A := Nat.zero_le A
  have hsource : m.sources[1]? = some (heldTier 0) := rfl
  refine stays_bestTier hsource hS hA fun stack hstack => ?_
  have hbase : ({ m with stack := stack } : Machine).height = 0 + 2 := hstack
  exact Config.stays_straight hscale hbase (by omega) hA' fun stack' _ hle =>
    Config.stays_of_last ⟨hle, hA'⟩

/-- Instructions with a tier table that need at most their hints above one value. -/
theorem covers_of_link_tierProgram {ops : List (Instruction × UInt8)} {k : UInt8} {hint : UInt64}
    (hlink : p.link (tierProgram (code ops) k table contract hint) = .ok q)
    (hops : ∀ operand, (Instruction.zipmap, operand) ∈ ops → operand = 0x39)
    (hp : p.Fitted env) (hfits : HintsFit [p] hint.toNat 2)
    (hstays : ∀ v S A, hint.toNat + 1 ≤ S → 2 ≤ A →
      (tierProgram (code ops) k table contract hint).Stays env ⟨[v], [], []⟩ S A) :
    q.Covers env := by
  obtain ⟨v, hv⟩ := hp
  have hlength : 1 ≤ p.stackLength.toNat := hv.length_le
  have htable : (tierProgram (code ops) k table contract hint).stackLength.toNat = hint.toNat := rfl
  have htable' : (tierProgram (code ops) k table contract hint).argumentsLength.toNat = 2 := rfl
  obtain ⟨hstack, harguments⟩ := hfits
  have hfits : HintsFit [p, tierProgram (code ops) k table contract hint] 0 0 := by
    constructor
    · simpa [htable] using hstack
    · simpa [htable'] using harguments
  refine hv.covers_of_link hlink hfits ?_ (hstays v _ _ (by omega) (by omega))
  intro j hreach
  rw [eq_one_of_reaches hops hreach]
  exact ⟨Nat.le_refl 1, Nat.lt_add_one 1⟩

private theorem covers_discounted (hp : p.Fitted env) (hfits : HintsFit [p] 11 2)
    (h : discounted p contract table = .ok q) : q.Covers env := by
  refine covers_of_link_tierProgram (link_of_discounted h).2 ?_ hp hfits fun v _ _ =>
    stays_discount v
  intro operand hop
  simpa [discount, bestTier, tierValues, hundredths] using hop

private theorem covers_multiplied (hp : p.Fitted env) (hfits : HintsFit [p] 10 2)
    (h : multiplied p contract table = .ok q) : q.Covers env := by
  refine covers_of_link_tierProgram (link_of_multiplied h) ?_ hp hfits fun v _ _ =>
    stays_multiplier v
  intro operand hop
  simpa [multiplier, bestTier, tierValues, hundredths] using hop

end

end Combinator

open Program Combinator in
/-- Linking keeps hints sufficient.  A program is fitted if its run leaves one value and at no
moment, within `ZIPMAP` as well, has more values on the stack or in its frames than its hints say.
Whatever is made of fitted programs by linking them in a row, or by a combinator, never has more
values than its own hints say, whether its run succeeds or fails.  The hints that are added up, with
those that a combinator adds itself, must be numbers of 64 bits. -/
theorem hints_stay_sufficient_under_linking (env : Environment) :
    (∀ (programs : List Program) (p : Program), (∀ q ∈ programs, q.Fitted env) →
      HintsFit programs 0 0 →
      (linkAll programs true = .ok p → p.Covers env) ∧
      (sum programs = .ok p → p.Covers env) ∧
      (product programs = .ok p → p.Covers env) ∧
      (least programs = .ok p → p.Covers env) ∧
      (greatest programs = .ok p → p.Covers env) ∧
      (conjunction programs = .ok p → p.Covers env) ∧
      (disjunction programs = .ok p → p.Covers env) ∧
      (nand programs = .ok p → p.Covers env) ∧
      (nor programs = .ok p → p.Covers env)) ∧
    (∀ a b p : Program, a.Fitted env → b.Fitted env → HintsFit [a, b] 0 0 →
      (a.linkPair b true = .ok p → p.Covers env) ∧
      (Combinator.xor a b = .ok p → p.Covers env) ∧
      (xnor a b = .ok p → p.Covers env) ∧
      (equal a b = .ok p → p.Covers env) ∧
      (greater a b = .ok p → p.Covers env) ∧
      (less a b = .ok p → p.Covers env) ∧
      (atLeast a b = .ok p → p.Covers env) ∧
      (atMost a b = .ok p → p.Covers env)) ∧
    (∀ condition whenTrue whenFalse p : Program, condition.Fitted env → whenTrue.Fitted env →
      whenFalse.Fitted env → HintsFit [condition, whenTrue, whenFalse] 0 0 →
      conditional condition whenTrue whenFalse = .ok p → p.Covers env) ∧
    (∀ a p : Program, a.Fitted env →
      (negation a = .ok p → p.Covers env) ∧
      (∀ start stop, HintsFit [a] (gateHint start stop) 0 → during a start stop = .ok p →
        p.Covers env) ∧
      (∀ owner fallback, HintsFit [a] 3 0 → ownedBy a owner fallback = .ok p → p.Covers env) ∧
      (∀ contract table, HintsFit [a] 11 2 → discounted a contract table = .ok p →
        p.Covers env) ∧
      (∀ contract table, HintsFit [a] 10 2 → multiplied a contract table = .ok p →
        p.Covers env)) := by
  refine ⟨?_, ?_, ?_, ?_⟩
  · intro programs p hall hfits
    have hreduce : ∀ instruction : Instruction, (∀ n, instruction.takesLeaves? n
        = (windowSize instruction n).toOption.map fun k => (k, 1)) →
        reduce programs instruction = .ok p → p.Covers env :=
      fun _ hwindow h => (covers_reduce hall hfits hwindow h).1
    exact ⟨covers_linkAll hall hfits, hreduce .add fun _ => rfl, hreduce .mul fun _ => rfl,
      hreduce .min fun _ => rfl, hreduce .max fun _ => rfl, hreduce .every fun _ => rfl,
      hreduce .any fun _ => rfl, covers_nand hall hfits, covers_nor hall hfits⟩
  · intro a b p ha hb hfits
    have hpair : a.linkPair b true = .ok p → p.Covers env := by
      rw [linkPair_eq_linkAll]
      exact covers_linkAll (by simp [ha, hb]) hfits
    exact ⟨hpair, covers_xor ha hb hfits, fun h => (fitted_xnor ha hb hfits h).covers,
      covers_onPair ha hb hfits rfl, covers_onPair ha hb hfits rfl,
      covers_onPair ha hb hfits rfl, covers_onPair ha hb hfits rfl,
      covers_onPair ha hb hfits rfl⟩
  · intro condition whenTrue whenFalse p hc ht hf hfits
    exact covers_conditional hc ht hf hfits
  · intro a p ha
    refine ⟨?negation, ?during, ?owned, ?discounted, ?multiplied⟩
    case negation =>
      intro h
      exact (fitted_negation h ha).1.covers
    case during =>
      intro start stop
      exact covers_during ha
    case owned =>
      intro owner fallback
      exact covers_ownedBy ha
    case discounted =>
      intro contract table
      exact covers_discounted ha
    case multiplied =>
      intro contract table
      exact covers_multiplied ha

open Program Combinator in
/-- A price that is made by a source that `ZIPMAP` evaluates, and its discount for a signer who
holds the first two tiers. -/
theorem hints_stay_sufficient_under_linking_of_a_discount :
    let price : Program := ⟨[ code [(.constant, 0), (.zipmap, 1)],
      code [(.constant, 0x80), (.constant, 0), (.add, 2)] ], [Word.ofSmall 500], 2, 1⟩
    let table : Vector UInt32 8 := #v[10, 20, 30, 40, 50, 60, 70, 80]
    let signer := Address.ofWord Word.one
    let report := Report.ofLanes ([7, 9] ++ List.replicate 6 Report.never)
    let env : Environment :=
      { chain := some (Ledger.ofFacts [.tierReport Address.zero signer report]).chain
        signer := some (.ok signer) }
    let discounted : Program := ⟨[ code [(.constant, 0), (.zipmap, 1), (.constant, 1),
        (.constant, 2), (.constant, 3), (.sender, 0), (.tierReport, 0), (.zipmap, 0x3a), (.max, 8),
        (.sub, 2), (.mul, 2), (.constant, 1), (.div, 2)],
      code [(.constant, 0x80), (.constant, 0), (.add, 2)],
      code [(.constant, 0x81), (.constant, 4), (.lessThan, 0), (.constant, 0x80), (.constant, 5),
        (.eagerIf, 0)] ],
      Word.ofSmall 500 :: tierConstants table Address.zero, 13, 3⟩
    price.Fitted env ∧ Combinator.discounted price Address.zero table = .ok discounted ∧
      discounted.Covers env := by
  intro price table signer report env discounted
  have hlink : Combinator.discounted price Address.zero table = .ok discounted := by decide
  have hprice : price.output env = .ok [Word.ofSmall 1000] := by decide
  have hcovers : price.Covers env :=
    Config.stays_of_done_after 12 (List.isEmpty_iff.mp (by decide +kernel)) (by decide +kernel)
  have hfitted : price.Fitted env := ⟨_, hprice, hcovers⟩
  have hfits : HintsFit [price] 11 2 := ⟨by decide, by decide⟩
  obtain ⟨-, -, -, hone⟩ := hints_stay_sufficient_under_linking env
  obtain ⟨-, -, -, hdiscounted, -⟩ := hone price discounted hfitted
  exact ⟨hfitted, hlink, hdiscounted _ _ hfits hlink⟩

end WordMachine
