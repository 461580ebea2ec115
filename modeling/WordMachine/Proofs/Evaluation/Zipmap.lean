import WordMachine.Proofs.Evaluation.Calls
import WordMachine.Proofs.Evaluation.Instructions
import WordMachine.Proofs.Report

/-!
# `ZIPMAP` as a map over lanes

`ZIPMAP` cuts the values it takes into lanes and evaluates a source once for each
lane, with the slices of that lane as its arguments.  If every such evaluation
leaves one value more, the values that `ZIPMAP` leaves are those of the lanes, the
most significant one deepest.  Every evaluation but the first starts above what those
before it left, so a lane is followed on any stack.

## Main definitions

* `Action.EndsIn` — an action that ends well, and the machine it leaves

## Main results

* `Action.EndsIn.zipLanes`, `Action.EndsIn.zipmap` — evaluations lane after lane
* `Program.performed_zipmap` — `ZIPMAP` maps a function over the lanes
* `zipmap_maps_over_lanes` — the lanes as numbers, with any handlers that change only the
  stack
-/

namespace WordMachine

namespace Action

/-- The action ends well and leaves the machine `m'`. -/
def EndsIn (a : Action Unit) (m m' : Machine) : Prop := (a m).result = .ok () ∧ (a m).machine = m'

namespace EndsIn

private theorem bind {first : Action Unit} {next : Unit → Action Unit} {m m' m'' : Machine}
    (hfirst : first.EndsIn m m') (hnext : (next ()).EndsIn m' m'') :
    (first >>= next).EndsIn m m'' := by
  obtain ⟨hresult, rfl⟩ := hfirst
  constructor
  · rw [bind_result_ok hresult]
    exact hnext.1
  · rw [bind_machine_ok hresult]
    exact hnext.2

/-- An action that changes only the stack leaves the machine with its new stack. -/
theorem of_keepsRest {a : Action Unit} (hkeeps : a.KeepsRest) {m : Machine} {stack : List Word}
    (hresult : (a m).result = .ok ()) (hstack : (a m).machine.stack = stack) :
    a.EndsIn m { m with stack := stack } := by
  refine ⟨hresult, ?_⟩
  rw [hkeeps m, hstack]

private theorem ending {a : Action Unit} {m m' : Machine} (h : a.EndsIn m m') :
    (a m).ending = .ok m'.workspace := by
  rw [Outcome.ending, h.1, h.2]
  rfl

variable {evaluate : Nat → Action Unit} {zip : Zip} {values : List Word} {m : Machine}

/-- A lane whose evaluation leaves one value more adds that value. -/
theorem zipLane {lane : Nat} {v : Word}
    (h : (evaluate zip.source.toNat).EndsIn (m.openFrame (laneValues zip values lane))
      ({ m with stack := m.stack ++ [v] }.openFrame (laneValues zip values lane))) :
    (Action.zipLane evaluate zip values lane).EndsIn m { m with stack := m.stack ++ [v] } := by
  obtain ⟨hresult, hmachine⟩ := zipLane_eq_inFrame evaluate zip values lane m
  refine ⟨hresult.trans h.1, hmachine.trans ?_⟩
  show (evaluate zip.source.toNat (m.openFrame (laneValues zip values lane))).machine.closeFrame
    = _
  rw [h.2, Machine.closeFrame_openFrame]

/-- Lanes whose evaluations leave one value more each add their values in order. -/
theorem zipLanes {g : Nat → Word}
    (h : ∀ lane stack, (evaluate zip.source.toNat).EndsIn
      ({ m with stack := stack }.openFrame (laneValues zip values lane))
      ({ m with stack := stack ++ [g lane] }.openFrame (laneValues zip values lane)))
    (lanes : List Nat) (stack : List Word) :
    (Action.zipLanes evaluate zip values lanes).EndsIn { m with stack := stack }
      { m with stack := stack ++ lanes.map g } := by
  induction lanes generalizing stack with
  | nil =>
      rw [List.map_nil, List.append_nil]
      exact ⟨rfl, rfl⟩
  | cons lane rest ih =>
      have hlane : (Action.zipLane evaluate zip values lane).EndsIn { m with stack := stack }
          { m with stack := stack ++ [g lane] } := zipLane (h lane stack)
      have hrest := ih (stack ++ [g lane])
      rw [List.append_assoc, List.singleton_append] at hrest
      exact hlane.bind hrest

/-- `ZIPMAP` maps a function over the lanes of the values that it takes, if the function is
what evaluating the source adds. -/
theorem zipmap {operand : UInt8} {g : Nat → Word} (base : List Word)
    (hdepth : m.depth < maxDepth) (hsource : (Zip.decode operand).source.toNat < m.sources.length)
    (hcount : values.length = (Zip.decode operand).valueCount)
    (h : ∀ lane stack, (evaluate (Zip.decode operand).source.toNat).EndsIn
      ({ m with stack := stack }.openFrame (laneValues (Zip.decode operand) values lane))
      ({ m with stack := stack ++ [g lane] }.openFrame
        (laneValues (Zip.decode operand) values lane))) :
    (Action.zipmap (some evaluate) operand).EndsIn { m with stack := base ++ values }
      { m with stack := base ++ (List.range (Zip.decode operand).lanes).map g } := by
  have hshallow : ¬ maxDepth ≤ ({ m with stack := base ++ values } : Machine).depth :=
    Nat.not_le.mpr hdepth
  have hexists : ¬ ({ m with stack := base ++ values } : Machine).sources.length
      ≤ (Zip.decode operand).source.toNat := Nat.not_le.mpr hsource
  have hlanes := zipLanes h (List.range (Zip.decode operand).lanes) base
  rw [EndsIn, zipmap_apply, if_neg hshallow, if_neg hexists, ← hcount,
    bind_apply_ok (popMany_apply base rfl)]
  exact hlanes

end EndsIn

end Action

namespace Evaluation

/-- Only a source that exists is evaluated with success. -/
theorem lt_of_nested_ok {table : Table} {env : Environment} {budget i : Nat} {m : Machine}
    (h : (nested table env budget i m).result = .ok ()) : i < m.sources.length := by
  obtain ⟨code, hcode, -⟩ := sequence_of_nested_ok h
  exact (List.getElem?_eq_some_iff.mp hcode).1

/-- As long as the nesting is not used up, `ZIPMAP` is given the evaluation one level further
down. -/
theorem inner_of_depth_lt (table : Table) (env : Environment) {depth : Nat}
    (h : depth < maxDepth) :
    inner table env (maxDepth - depth) = some (nested table env (maxDepth - (depth + 1))) := by
  have hbudget : maxDepth - depth = maxDepth - (depth + 1) + 1 := by omega
  rw [hbudget, inner]

end Evaluation

namespace Program

variable {p : Program} {env : Environment} {arguments : List Word} {frames : List Nat}

/-- The workspace in which the evaluation for a lane runs. -/
def laneWorkspace (zip : Zip) (values arguments : List Word) (frames : List Nat) (lane : Nat)
    (stack : List Word) : Workspace :=
  ⟨stack, arguments ++ Action.laneValues zip values lane, arguments.length :: frames⟩

/-- `ZIPMAP` maps a function over the lanes of the values that it takes, if the
function is what its source computes from its arguments. -/
theorem performed_zipmap {operand : UInt8} {values : List Word} {g : Nat → Word}
    (hcount : values.length = (Zip.decode operand).valueCount)
    (hdepth : frames.length < maxDepth)
    (hsource : (Zip.decode operand).source.toNat < p.sources.length)
    (h : ∀ lane stack, p.evaluated env (Zip.decode operand).source.toNat
        (laneWorkspace (Zip.decode operand) values arguments frames lane stack)
      = .ok (laneWorkspace (Zip.decode operand) values arguments frames lane
          (stack ++ [g lane]))) (base : List Word) :
    p.performed env [(Instruction.zipmap.opcode, operand)] ⟨base ++ values, arguments, frames⟩
      = .ok ⟨base ++ (List.range (Zip.decode operand).lanes).map g, arguments, frames⟩ := by
  have hlane : ∀ lane stack, (Evaluation.nested Table.standard env
      (maxDepth - (frames.length + 1)) (Zip.decode operand).source.toNat).EndsIn
      ({ p.machine ⟨base, arguments, frames⟩ with stack := stack }.openFrame
        (Action.laneValues (Zip.decode operand) values lane))
      ({ p.machine ⟨base, arguments, frames⟩ with stack := stack ++ [g lane] }.openFrame
        (Action.laneValues (Zip.decode operand) values lane)) := fun lane stack =>
    machine_of_ending_eq_ok (Evaluation.keepsRest_nested Table.keepsRest_standard env _ _)
      (h lane stack)
  have hends := Action.EndsIn.zipmap (m := p.machine ⟨base, arguments, frames⟩) base hdepth
    hsource hcount hlane
  rw [performed_instruction p env (by decide) (by decide), Workspace.depth,
    Evaluation.inner_of_depth_lt Table.standard env hdepth]
  exact hends.ending

end Program

/-! ## Lanes as numbers -/

/-- A byte's lanes make up a word. -/
theorem Zip.laneBits_mul_lanes (x : UInt8) : (decode x).laneBits * (decode x).lanes = 256 := by
  revert x
  exact forall_byte (by decide)

private theorem Zip.laneBits_eq_div (x : UInt8) :
    (decode x).laneBits = 256 / (decode x).lanes := by
  revert x
  exact forall_byte (by decide)

private theorem Zip.lanes_eq_two_pow (z : Zip) :
    z.lanes = 2 ^ z.selector.toNat := Nat.one_shiftLeft _

/-- The arguments of a lane are the digits of the values in its place. -/
theorem Action.laneValues_eq (zip : Zip) (values : List Word) (lane : Nat) :
    laneValues zip values lane = values.map fun value =>
      Word.ofNat
        (value.toNat / 2 ^ (zip.laneBits * (zip.lanes - 1 - lane)) % 2 ^ zip.laneBits) := by
  refine List.map_congr_left fun value _ => ?_
  rw [← toNat_laneSlice, Word.ofNat_toNat]

/-- `ZIPMAP` is a map over lanes.  Let evaluating a source, one level further down, add to any
stack what `g` makes of the values in the innermost frame.  Then a `ZIPMAP` that names the
source replaces the values it takes by what `g` makes of their slices, the most significant
lane deepest, and leaves the frames and all else as they were.  The slices of a value are its
digits, and make up the value. -/
theorem zipmap_maps_over_lanes {table : Table} (htable : table.KeepsRest) {env : Environment}
    {m : Machine} (hdepth : m.depth < maxDepth) {source extra : Nat} {g : List Word → Word}
    (hsource : ∀ (stack arguments : List Word), arguments.length = extra + 1 →
      let after := evaluate table env source ({ m with stack := stack }.openFrame arguments)
      after.result = .ok () ∧ after.machine.stack = stack ++ [g arguments])
    {operand : UInt8} (htarget : (Zip.decode operand).source.toNat = source)
    (hextra : (Zip.decode operand).extraValues.toNat = extra)
    (base : List Word) {values : List Word} (hcount : values.length = extra + 1) :
    let lanes := 2 ^ (Zip.decode operand).selector.toNat
    let bits := 256 / lanes
    let slice (value : Word) (lane : Nat) : Nat :=
      value.toNat / 2 ^ (bits * (lanes - 1 - lane)) % 2 ^ bits
    let results := (List.range lanes).map fun lane =>
      g (values.map fun value => Word.ofNat (slice value lane))
    let after := Action.execute env (Evaluation.inner table env (maxDepth - m.depth)) .zipmap
      operand { m with stack := base ++ values }
    after.result = .ok () ∧ after.machine = { m with stack := base ++ results } ∧
      ∀ value ∈ values, ∑ lane ∈ Finset.range lanes,
        slice value lane * 2 ^ (bits * (lanes - 1 - lane)) = value.toNat := by
  subst htarget hextra
  intro lanes bits slice results after
  have hlanes : lanes = (Zip.decode operand).lanes := (Zip.lanes_eq_two_pow _).symm
  have hbits : bits = (Zip.decode operand).laneBits := by
    rw [Zip.laneBits_eq_div, ← hlanes]
  have hwhole : bits * lanes = 256 := by
    rw [hlanes, hbits, Zip.laneBits_mul_lanes]
  -- what an evaluation adds to the stack is all that it changes
  have hadds : ∀ stack arguments, arguments.length = (Zip.decode operand).valueCount →
      (Evaluation.nested table env (maxDepth - (m.depth + 1))
          (Zip.decode operand).source.toNat).EndsIn
        ({ m with stack := stack }.openFrame arguments)
        ({ m with stack := stack ++ [g arguments] }.openFrame arguments) := by
    intro stack arguments hlength
    obtain ⟨hresult, hstack⟩ := hsource stack arguments hlength
    exact Action.EndsIn.of_keepsRest (Evaluation.keepsRest_nested htable env _ _) hresult hstack
  have hexists : (Zip.decode operand).source.toNat < m.sources.length := by
    have hzeros := (hadds [] (List.replicate _ Word.zero) List.length_replicate).1
    have hlt := Evaluation.lt_of_nested_ok hzeros
    exact hlt
  have hends := Action.EndsIn.zipmap base hdepth hexists hcount fun lane stack =>
    hadds stack (Action.laneValues (Zip.decode operand) values lane)
      (by rw [Action.laneValues, List.length_map, hcount, Zip.valueCount])
  have hresults : results = (List.range (Zip.decode operand).lanes).map fun lane =>
      g (Action.laneValues (Zip.decode operand) values lane) := by
    simp only [results, slice, Action.laneValues_eq, hlanes, hbits]
  have hafter : after = Action.zipmap _ operand { m with stack := base ++ values } :=
    congrArg (fun nested => Action.zipmap nested operand { m with stack := base ++ values })
      (Evaluation.inner_of_depth_lt table env hdepth)
  rw [hafter, hresults]
  exact ⟨hends.1, hends.2, fun value _ => sum_slices value hwhole⟩

/-- Two values of two lanes each are added lane by lane; what a lane passes on stays in its
result. -/
theorem zipmap_maps_over_lanes_of_two :
    let adder : Program := ⟨[[], [Instruction.constant.opcode, 0x80, Instruction.constant.opcode,
      0x81, Instruction.saturatingAdd.opcode, 2]], [], 0, 0⟩
    let m := adder.machine ⟨[], [], []⟩
    let sum : List Word → Word := fun
      | [a, b] => a.addSat b
      | _ => Word.zero
    let values : List Word := [⟨5, 0, 2, 0⟩, ⟨0xffffffffffffffff, 0xffffffffffffffff, 3, 0⟩]
    let after := Action.execute {} (Evaluation.inner Table.standard {} (maxDepth - m.depth))
      .zipmap 0x29 { m with stack := [Word.ofSmall 7] ++ values }
    Table.standard.KeepsRest ∧ m.depth < maxDepth ∧
      (∀ (stack arguments : List Word), arguments.length = 1 + 1 →
        let inside := evaluate Table.standard {} 1 ({ m with stack := stack }.openFrame arguments)
        inside.result = .ok () ∧ inside.machine.stack = stack ++ [sum arguments]) ∧
      after.result = .ok () ∧
      after.machine.stack = [Word.ofSmall 7, Word.ofSmall 5, ⟨4, 0, 1, 0⟩] := by
  intro adder m sum values after
  have hsource : ∀ (stack arguments : List Word), arguments.length = 1 + 1 →
      let inside := evaluate Table.standard {} 1 ({ m with stack := stack }.openFrame arguments)
      inside.result = .ok () ∧ inside.machine.stack = stack ++ [sum arguments] := by
    intro stack arguments hlength
    obtain ⟨a, b, rfl⟩ := List.length_eq_two.mp hlength
    have hsum : adder.evaluated {} 1 ⟨stack, [a, b], [0]⟩
        = .ok ⟨stack ++ [a.addSat b], [a, b], [0]⟩ := by
      rw [Program.evaluated_eq_performed rfl rfl]
      show adder.performed {} [(Instruction.constant.opcode, 0x80),
        (Instruction.constant.opcode, 0x81), (Instruction.saturatingAdd.opcode, 2)] _ = _
      rw [Program.performed_cons_of_ok (Program.performed_constant_of_ok (v := a) rfl),
        Program.performed_cons_of_ok (Program.performed_constant_of_ok (v := b) rfl)]
      dsimp only
      rw [List.append_assoc]
      exact adder.performed_arithmetic_pair {} stack [a, b] [0] .saturatingAdd a b
    obtain ⟨hresult, hmachine⟩ := Program.machine_of_ending_eq_ok
      (Evaluation.keepsRest_nested Table.keepsRest_standard {} _ _) hsum
    exact ⟨hresult, congrArg Machine.stack hmachine⟩
  have hcount : values.length = 1 + 1 := rfl
  have htarget : (Zip.decode 0x29).source.toNat = 1 := by decide
  have hextra : (Zip.decode 0x29).extraValues.toNat = 1 := by decide
  obtain ⟨hresult, hmachine, -⟩ := zipmap_maps_over_lanes Table.keepsRest_standard
    (by decide) hsource htarget hextra [Word.ofSmall 7] hcount
  refine ⟨Table.keepsRest_standard, by decide, hsource, hresult, ?_⟩
  rw [hmachine]
  decide +kernel

end WordMachine
