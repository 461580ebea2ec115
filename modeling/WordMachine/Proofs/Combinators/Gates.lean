import WordMachine.Proofs.Combinators.Values
import WordMachine.Proofs.Word.Bytes

/-!
# Gates around a program

A gate is a small program that leaves a condition.  The gated program evaluates the
gates, the program behind them and another value, and then chooses.  A bound on the
time is tested by a strict comparison and the test for zero, so both bounds belong
to the time in which the gate is open.

## Main definitions

* `Environment.HasTime` — the time that the chain gives for the current block
* `Combinator.WithinBounds` — a time between two bounds, each of which may be missing

## Main results

* `Combinator.output_timeGate`, `Combinator.output_ownerGate` — what the gates leave
* `Combinator.output_during`, `Combinator.output_ownedBy` — programs behind gates
* `gates_select_around_any_program` — both kinds of gates around any program
-/

namespace WordMachine

/-- The chain answers the queries for the current block and for its time. -/
def Environment.HasTime (env : Environment) (time : Word) : Prop :=
  ∃ chain block, env.chain = some chain ∧ chain .blockNumber = .ok block ∧
    chain (.blockTimestamp block) = .ok time

namespace Combinator

variable {env : Environment}

/-- A program whose first source is made of instructions leaves what they leave on
empty stacks. -/
theorem output_of_performed {p : Program} {ops : List (Instruction × UInt8)}
    (hcode : p.sources[0]? = some (code ops)) {values : List Word}
    (h : p.performed env (pairsOf ops) ⟨[], [], []⟩ = .ok ⟨values, [], []⟩) :
    p.output env = .ok values := by
  rw [Program.output_eq_ok_iff, evaluated_code hcode, h]

theorem output_value (w : Word) : (value w).output env = .ok [w] :=
  output_of_performed rfl (Program.performed_constant_of_ok rfl)

/-! ## The gates -/

/-- A time gate leaves whether the time fails its strict comparison. -/
theorem output_timeGate {time : Word} (htime : env.HasTime time) (c : Comparison)
    (bound : Word) :
    (timeGate (Program.comparisonInstruction c) bound).output env
      = .ok [Word.ofBool (!c.holds time bound)] := by
  let gate := timeGate (Program.comparisonInstruction c) bound
  obtain ⟨chain, block, hchain, hblock, htime⟩ := htime
  have hclock := Program.performed_blockTimestamp gate env hchain hblock htime 0 ⟨[], [], []⟩
  have hbound : gate.performed env [(Instruction.constant.opcode, 0)] ⟨[time], [], []⟩
      = .ok ⟨[time, bound], [], []⟩ := Program.performed_constant_of_ok rfl
  have hcompare := Program.performed_comparison gate env [] [] [] c time bound 0
  have hnegate := Program.performed_isZero gate env [] [] [] (Word.ofBool (c.holds time bound)) 0
  rw [isZero_ofBool] at hnegate
  refine output_of_performed rfl ?_
  show gate.performed env [(_, 0), (_, 0), (_, 0), (_, 0)] _ = _
  rw [Program.performed_cons_of_ok hclock]
  refine (Program.performed_cons_of_ok hbound _).trans ?_
  exact (Program.performed_cons_of_ok hcompare _).trans hnegate

/-- An owner gate leaves whether the signer is the owner. -/
theorem output_ownerGate {signer : Address} (hsigner : env.signer = some (.ok signer))
    (owner : Address) :
    (ownerGate owner).output env = .ok [if signer = owner then Word.one else Word.zero] := by
  let gate := ownerGate owner
  have hsender := Program.performed_sender gate env hsigner 0 ⟨[], [], []⟩
  have howner : gate.performed env [(Instruction.constant.opcode, 0)] ⟨[signer.toWord], [], []⟩
      = .ok ⟨[signer.toWord, owner.toWord], [], []⟩ := Program.performed_constant_of_ok rfl
  have hcompare := Program.performed_comparison gate env [] [] [] .equal signer.toWord
    owner.toWord 0
  have hsame : Comparison.equal.holds signer.toWord owner.toWord = decide (signer = owner) := by
    rw [Comparison.holds, Bool.eq_iff_iff, beq_iff_eq, decide_eq_true_iff, Address.toWord_inj]
  rw [hsame, ofBool_decide] at hcompare
  refine output_of_performed rfl ?_
  show gate.performed env [(_, 0), (_, 0), (_, 0)] _ = _
  rw [Program.performed_cons_of_ok hsender]
  exact (Program.performed_cons_of_ok howner _).trans hcompare

/-! ## Programs behind gates -/

/-- The time lies between the bounds, which belong to the window themselves.  A
missing bound is open. -/
def WithinBounds (start stop : Option Word) (time : Word) : Prop :=
  (∀ bound ∈ start, bound.toNat ≤ time.toNat) ∧ (∀ bound ∈ stop, time.toNat ≤ bound.toNat)

instance (start stop : Option Word) (time : Word) : Decidable (WithinBounds start stop time) :=
  inferInstanceAs (Decidable (_ ∧ _))

/-- The programs of the bounds that are there. -/
def boundGates (start stop : Option Word) : List Program :=
  (start.map (timeGate .lessThan)).toList ++ (stop.map (timeGate .greaterThan)).toList

/-- The conditions that these programs leave. -/
def boundConditions (start stop : Option Word) (time : Word) : List Word :=
  (start.map fun bound => Word.ofBool (!Comparison.less.holds time bound)).toList
    ++ (stop.map fun bound => Word.ofBool (!Comparison.greater.holds time bound)).toList

private theorem output_boundGates {time : Word} (htime : env.HasTime time)
    (start stop : Option Word) :
    List.Forall₂ (fun (q : Program) v => q.output env = .ok [v]) (boundGates start stop)
      (boundConditions start stop time) := by
  have hone : ∀ (c : Comparison) (bound : Option Word),
      List.Forall₂ (fun (q : Program) v => q.output env = .ok [v])
        (bound.map (timeGate (Program.comparisonInstruction c))).toList
        (bound.map fun b => Word.ofBool (!c.holds time b)).toList := by
    intro c bound
    cases bound with
    | none => exact .nil
    | some b => exact .cons (output_timeGate htime c b) .nil
  exact List.rel_append (hone .less start) (hone .greater stop)

/-- One of the conditions fails exactly if the time is not between the bounds. -/
theorem exists_boundConditions_zero_iff (start stop : Option Word) (time : Word) :
    (∃ v ∈ boundConditions start stop time, v.toNat = 0) ↔ ¬ WithinBounds start stop time := by
  have hzero : ∀ b : Bool, (Word.ofBool (!b)).toNat = 0 ↔ b = true := by
    intro b
    cases b <;> simp [Word.ofBool]
  cases start <;> cases stop <;>
    simp [boundConditions, WithinBounds, hzero, Comparison.holds, Word.blt_iff, imp_iff_not_or]

/-- With at least one bound, the gates choose between the program and zero. -/
theorem during_eq_conditional (p : Program) {start stop : Option Word}
    (h : ¬ (start = none ∧ stop = none)) :
    during p start stop = (do
      conditional (← conjunction (boundGates start stop)) p (value Word.zero)) := by
  have hgates : ¬ (boundGates start stop).isEmpty := by
    cases start <;> cases stop <;> simp_all [boundGates]
  exact if_neg hgates

/-- A program behind time gates leaves its value between the bounds and zero outside. -/
theorem output_during {p gated : Program} {v : Word} (hp : p.output env = .ok [v])
    {start stop : Option Word} (h : during p start stop = .ok gated) {time : Word}
    (htime : (start = none ∧ stop = none) ∨ env.HasTime time) :
    gated.output env = .ok [if WithinBounds start stop time then v else Word.zero] := by
  by_cases hnone : start = none ∧ stop = none
  · -- without bounds there is no gate
    obtain ⟨rfl, rfl⟩ := hnone
    cases h
    rw [hp, if_pos (by simp [WithinBounds])]
  · rw [during_eq_conditional p hnone] at h
    obtain ⟨condition, hcondition, h⟩ := except_bind_eq_ok h
    obtain ⟨out, hout, hzero⟩ := output_conjunction_eq_zero_iff
      (output_boundGates (htime.resolve_left hnone) start stop) hcondition
    rw [output_conditional hout hp (output_value Word.zero) h]
    simp only [hzero, exists_boundConditions_zero_iff, ite_not]

/-- A program behind an owner gate leaves its value for the owner and the fallback for
everyone else. -/
theorem output_ownedBy {p gated : Program} {v : Word} (hp : p.output env = .ok [v])
    {owner : Address} {fallback : Word} (h : ownedBy p owner fallback = .ok gated)
    {signer : Address} (hsigner : env.signer = some (.ok signer)) :
    gated.output env = .ok [if signer = owner then v else fallback] := by
  rw [output_conditional (output_ownerGate hsigner owner) hp (output_value fallback) h]
  by_cases hsame : signer = owner
  · simp [hsame]
  · simp [hsame]

end Combinator

open Combinator in
/-- Gates select correctly around any program.  Let a program leave one value when it
is run alone.  Behind time gates it leaves this value if the time of the current block
lies between the bounds, which count as inside, and zero otherwise; without bounds the
chain is not even asked.  Behind an owner gate it leaves its value if the signer is the
owner, and the fallback otherwise. -/
theorem gates_select_around_any_program {env : Environment} {p : Program} {v : Word}
    (hp : p.output env = .ok [v]) :
    (∀ (start stop : Option Word) (gated : Program) (time : Word),
      during p start stop = .ok gated →
      (start = none ∧ stop = none) ∨ env.HasTime time →
      gated.output env = .ok [if WithinBounds start stop time then v else Word.zero]) ∧
    (∀ (owner : Address) (fallback : Word) (gated : Program) (signer : Address),
      ownedBy p owner fallback = .ok gated → env.signer = some (.ok signer) →
      gated.output env = .ok [if signer = owner then v else fallback]) := by
  constructor
  · intro start stop gated time h htime
    exact output_during hp h htime
  · intro owner fallback gated signer h hsigner
    exact output_ownedBy hp h hsigner

open Combinator in
/-- A program that reads its stack and evaluates a source of its own, behind time gates
in the last moment that counts as inside, and behind an owner gate for someone else. -/
theorem gates_select_around_any_program_at_the_end :
    let p : Program := ⟨[ code [(.constant, 0), (.stack, 0), (.zipmap, 0x21)],
      code [(.constant, 0x80), (.constant, 0x81), (.add, 2)] ], [Word.ofSmall 7], 0, 0⟩
    let time := Word.ofSmall 1000
    let timed : Program := ⟨[ code [(.blockTimestamp, 0), (.constant, 0), (.lessThan, 0),
        (.isZero, 0), (.blockTimestamp, 0), (.constant, 1), (.greaterThan, 0), (.isZero, 0),
        (.every, 2), (.constant, 2), (.stack, 1), (.zipmap, 0x21), (.constant, 3),
        (.eagerIf, 0)],
      code [(.constant, 0x80), (.constant, 0x81), (.add, 2)] ],
      [Word.ofSmall 500, time, Word.ofSmall 7, Word.zero], 5, 0⟩
    let owned : Program := ⟨[ code [(.sender, 0), (.constant, 0), (.equalTo, 0), (.constant, 1),
        (.stack, 1), (.zipmap, 0x21), (.constant, 2), (.eagerIf, 0)],
      code [(.constant, 0x80), (.constant, 0x81), (.add, 2)] ],
      [Word.zero, Word.ofSmall 7, Word.ofSmall 3], 3, 0⟩
    let env : Environment :=
      { chain := some (Ledger.ofFacts [.block (Word.ofSmall 10) time]).chain
        signer := some (.ok (Address.ofWord Word.one)) }
    during p (some (Word.ofSmall 500)) (some time) = .ok timed ∧
      timed.output env = .ok [Word.ofSmall 14] ∧
      ownedBy p Address.zero (Word.ofSmall 3) = .ok owned ∧
      owned.output env = .ok [Word.ofSmall 3] := by
  intro p time timed owned env
  have hp : p.output env = .ok [Word.ofSmall 14] := by decide
  have htimed : during p (some (Word.ofSmall 500)) (some time) = .ok timed := by decide
  have howned : ownedBy p Address.zero (Word.ofSmall 3) = .ok owned := by decide
  have htime : env.HasTime time := ⟨_, Word.ofSmall 10, rfl, by decide, by decide⟩
  obtain ⟨hduring, hownedBy⟩ := gates_select_around_any_program hp
  refine ⟨htimed, ?_, howned, ?_⟩
  · exact (hduring _ _ timed time htimed (.inr htime)).trans (by decide +kernel)
  · exact (hownedBy _ _ owned _ howned rfl).trans (by decide +kernel)

end WordMachine
