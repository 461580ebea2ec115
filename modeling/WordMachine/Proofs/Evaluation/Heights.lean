import WordMachine.Proofs.Evaluation.Effects

/-!
# Stack heights

How many values an evaluation leaves on the stack can be foretold without looking at a
single word: every instruction has a fixed effect, code has no branches, and `ZIPMAP`
evaluates its source once for each lane.  So the height is computed here from the outline
of a machine, and an evaluation ends with that height or in a fault that depends on data.
Hence two evaluations from machines of one outline never end in different heights,
whatever the words on the stack, in the pool and in the frames are, and whatever the chain
answers.

## Main definitions

* `Outline.heightAfter` — the height after an evaluation

## Main results

* `Action.reshapes_zipmap` — the height after `ZIPMAP`
* `Evaluation.agrees_evaluate` — the height after an evaluation is the one foretold
* `stack_shape_never_depends_on_data` — two evaluations from machines of one outline
-/

namespace WordMachine

/-! ## Heights of whole evaluations -/

namespace Outline

/-- The height after the evaluations for lanes, in frames of the given length. -/
def lanes (evaluated : Outline → Option Nat) (frame : Nat) : List Nat → Outline → Option Nat
  | [], s => some s.height
  | _ :: rest, s =>
    (evaluated { s with frame := frame, depth := s.depth + 1 }).bind fun height =>
      lanes evaluated frame rest { s with height := height }

/-- The height after `ZIPMAP`. -/
def zipped (nested : Option (Nat → Outline → Option Nat)) (operand : UInt8) (s : Outline) :
    Option Nat :=
  let zip := Zip.decode operand
  nested.bind fun evaluated =>
    if maxDepth ≤ s.depth then none
    else if s.sources.length ≤ zip.source.toNat then none
    else
      (s.effect zip.valueCount 0).bind fun height =>
        lanes (evaluated zip.source.toNat) zip.valueCount (List.range zip.lanes)
          { s with height := height }

/-- The height after a standard instruction. -/
def executed (nested : Option (Nat → Outline → Option Nat)) (instruction : Instruction)
    (operand : UInt8) (s : Outline) : Option Nat :=
  match instruction with
  | .constant => s.fetched operand
  | .stack => s.copied operand
  | .zipmap => s.zipped nested operand
  | _ => (instruction.effect? operand).bind fun e => s.effect e.1 e.2

/-- The height after pairs. -/
def performed (nested : Option (Nat → Outline → Option Nat)) :
    List (UInt8 × UInt8) → Outline → Option Nat
  | [], s => some s.height
  | (opcode, operand) :: rest, s =>
    ((Instruction.ofOpcode? opcode).bind fun instruction =>
      s.executed nested instruction operand).bind fun height =>
        performed nested rest { s with height := height }

/-- The height after a source. -/
def sourced (nested : Option (Nat → Outline → Option Nat)) (index : Nat) (s : Outline) :
    Option Nat :=
  s.sources[index]?.bind fun code =>
    if isWhole code then s.performed nested (pairs code) else none

/-- The height after a source while at most `budget` levels of nesting are left. -/
def evaluated : (budget : Nat) → Nat → Outline → Option Nat
  | 0 => sourced none
  | budget + 1 => sourced (some (evaluated budget))

/-- The height after the evaluation of a source, if nothing but data can stop it. -/
def heightAfter (s : Outline) (index : Nat) : Option Nat := evaluated (maxDepth - s.depth) index s

end Outline

namespace Action

/-! ## `ZIPMAP` -/

private theorem outline_openFrame (m : Machine) (values : List Word) :
    (m.openFrame values).outline
      = { m.outline with frame := values.length, depth := m.outline.depth + 1 } := by
  unfold Machine.outline
  rw [Machine.currentFrame_openFrame]
  rfl

theorem height_closeFrame (m : Machine) : m.closeFrame.height = m.height := by
  unfold Machine.closeFrame
  split <;> rfl

/-- Within a frame of its own, an action sees the length of that frame. -/
theorem Reshapes.inFrame {body : Action Unit} {f : Outline → Option Nat} (h : body.Reshapes f)
    (values : List Word) :
    (inFrame values body).Reshapes fun s =>
      f { s with frame := values.length, depth := s.depth + 1 } := by
  refine ⟨h.keeps.inFrame values, fun m => ?_⟩
  have hbody := h.agrees (m.openFrame values)
  rw [outline_openFrame] at hbody
  revert hbody
  cases f { m.outline with frame := values.length, depth := m.outline.depth + 1 } with
  | none => exact id
  | some height =>
      rintro (⟨hok, hheight⟩ | hdata)
      · exact .inl ⟨hok, (height_closeFrame _).trans hheight⟩
      · exact .inr hdata

theorem length_of_popMany_ok {n : Nat} {m : Machine} {values : List Word}
    (h : (popMany n m).result = .ok values) : values.length = n := by
  unfold popMany at h
  split at h
  · next hn =>
      cases h
      exact Machine.length_top hn
  · cases h

section

variable {evaluate : Nat → Action Unit} {f : Nat → Outline → Option Nat}
variable (h : ∀ i, (evaluate i).Reshapes (f i))
include h

private theorem reshapes_zipLane (zip : Zip) (values : List Word) (lane : Nat) :
    (zipLane evaluate zip values lane).Reshapes fun s =>
      f zip.source.toNat { s with frame := values.length, depth := s.depth + 1 } := by
  refine ⟨keepsRest_zipLane zip values lane fun i => (h i).keeps, fun m => ?_⟩
  have hframe := ((h zip.source.toNat).inFrame (laneValues zip values lane)).agrees m
  have hlength : (laneValues zip values lane).length = values.length := List.length_map ..
  rw [hlength] at hframe
  exact .congr (zipLane_eq_inFrame evaluate zip values lane m).1
    (zipLane_eq_inFrame evaluate zip values lane m).2 hframe

private theorem reshapes_zipLanes (zip : Zip) (values : List Word) (lanes : List Nat) :
    (zipLanes evaluate zip values lanes).Reshapes
      (Outline.lanes (f zip.source.toNat) values.length lanes) := by
  induction lanes with
  | nil => exact .of_unchanged fun _ => ⟨rfl, rfl⟩
  | cons lane rest ih => exact (reshapes_zipLane h zip values lane).bind fun _ => ih

/-- The frames of the lanes are as long as the number of values taken. -/
theorem reshapes_zipTaken (zip : Zip) (lanes : List Nat) :
    (do
      let values ← popMany zip.valueCount
      zipLanes evaluate zip values lanes).Reshapes fun s =>
        (s.effect zip.valueCount 0).bind fun height =>
          Outline.lanes (f zip.source.toNat) zip.valueCount lanes { s with height := height } := by
  refine (Reshapes.popMany _).bind_of_agrees
    (fun values => (reshapes_zipLanes h zip values lanes).keeps) fun m values hvalues => ?_
  have hlanes := (reshapes_zipLanes h zip values lanes).agrees (popMany zip.valueCount m).machine
  rwa [length_of_popMany_ok hvalues] at hlanes

end

/-- The evaluations that `ZIPMAP` is given have the heights that are foretold for it. -/
inductive ReshapesInner :
    Option (Nat → Action Unit) → Option (Nat → Outline → Option Nat) → Prop
  | none : ReshapesInner none none
  | some {evaluate : Nat → Action Unit} {f : Nat → Outline → Option Nat}
      (h : ∀ i, (evaluate i).Reshapes (f i)) : ReshapesInner (some evaluate) (some f)

theorem reshapes_zipmap {nested : Option (Nat → Action Unit)}
    {foretold : Option (Nat → Outline → Option Nat)} (h : ReshapesInner nested foretold)
    (operand : UInt8) : (zipmap nested operand).Reshapes (Outline.zipped foretold operand) := by
  cases h with
  | none =>
      have hkeeps : (zipmap none operand).KeepsRest := keepsRest_zipmap operand nofun
      refine ⟨hkeeps, fun m => ?_⟩
      rw [zipmap_none_apply]
      exact ⟨_, rfl⟩
  | @some evaluate f h =>
      have hkeeps : (zipmap (some evaluate) operand).KeepsRest := by
        refine keepsRest_zipmap operand ?_
        rintro _ ⟨⟩ i
        exact (h i).keeps
      refine ⟨hkeeps, fun m => ?_⟩
      rw [zipmap_apply]
      show (_ : Outcome Unit).Agrees (if maxDepth ≤ m.depth then none
        else if m.sources.length ≤ (Zip.decode operand).source.toNat then none else _)
      split
      · exact ⟨_, rfl⟩
      · split
        · exact ⟨_, rfl⟩
        · exact (reshapes_zipTaken h _ _).agrees m

/-- Every standard instruction leaves the height that is foretold for it. -/
theorem reshapes_executed (env : Environment) {nested : Option (Nat → Action Unit)}
    {foretold : Option (Nat → Outline → Option Nat)} (h : ReshapesInner nested foretold)
    (instruction : Instruction) (operand : UInt8) :
    (execute env nested instruction operand).Reshapes
      (Outline.executed foretold instruction operand) := by
  cases instruction with
  | constant => exact .fetchConstant operand
  | stack => exact .copyStack operand
  | zipmap => exact reshapes_zipmap h operand
  | _ => exact reshapes_execute env nested operand nofun nofun nofun

end Action

/-! ## Evaluations -/

namespace Evaluation

open WordMachine.Action

variable (env : Environment) {nested : Option (Nat → Action Unit)}
  {foretold : Option (Nat → Outline → Option Nat)}

theorem reshapes_pair (h : ReshapesInner nested foretold) (opcode operand : UInt8) :
    (pair Table.standard env nested opcode operand).Reshapes fun s =>
      (Instruction.ofOpcode? opcode).bind fun instruction =>
        s.executed foretold instruction operand := by
  simp only [pair, Table.route, Table.standard]
  cases Instruction.ofOpcode? opcode with
  | none => exact .fail_none _
  | some instruction =>
      by_cases hcontext : instruction = .context
      · subst hcontext
        exact .fail_none _
      · by_cases hstorage : instruction = .storage
        · subst hstorage
          exact .fail_none _
        · simp only
          exact reshapes_executed env h instruction operand

private theorem reshapes_sequence (h : ReshapesInner nested foretold)
    (code : List (UInt8 × UInt8)) :
    (sequence Table.standard env nested code).Reshapes (Outline.performed foretold code) := by
  induction code with
  | nil => exact .of_unchanged fun _ => ⟨rfl, rfl⟩
  | cons head rest ih => exact (reshapes_pair env h head.1 head.2).bind fun _ => ih

private theorem reshapes_source (h : ReshapesInner nested foretold) (index : Nat) :
    (source Table.standard env nested index).Reshapes (Outline.sourced foretold index) := by
  refine ⟨keepsRest_source Table.keepsRest_standard env ?_ index, fun m => ?_⟩
  · rintro evaluate rfl i
    cases h with
    | some h => exact (h i).keeps
  · rw [source, look_bind]
    unfold Outline.sourced
    show (_ : Outcome Unit).Agrees (m.sources[index]?.bind _)
    cases m.sources[index]? with
    | none => exact ⟨_, rfl⟩
    | some code =>
        simp only [Option.bind_some]
        split
        · exact (reshapes_sequence env h _).agrees m
        · exact ⟨_, rfl⟩

private theorem reshapes_nested (budget index : Nat) :
    (Evaluation.nested Table.standard env budget index).Reshapes
      (Outline.evaluated budget index) := by
  induction budget generalizing index with
  | zero => exact reshapes_source env .none index
  | succ budget ih => exact reshapes_source env (.some ih) index

/-- An evaluation leaves the height that is foretold by the outline of its machine, or
ends in a fault that depends on data. -/
theorem agrees_evaluate (index : Nat) (m : Machine) :
    (evaluate Table.standard env index m).Agrees (m.outline.heightAfter index) :=
  (reshapes_nested env (maxDepth - m.depth) index).agrees m

end Evaluation

/-- The stack's shape never depends on data.  Take two machines with the same sources,
pools of one size, stacks of one height and equally many open frames, the innermost of
one length, but with any words in their stacks, pools and frames, and two environments.
If the evaluation of a source succeeds in one of them, then in the other it succeeds with
the same height, or it ends in a fault that depends on data: arithmetic without a result,
a read without an answer, or a word that names no tier. -/
theorem stack_shape_never_depends_on_data {m m' : Machine} (houtline : m.outline = m'.outline)
    (env env' : Environment) (index : Nat)
    (hok : (evaluate Table.standard env index m).result = .ok ()) :
    ((evaluate Table.standard env' index m').result = .ok () ∧
      (evaluate Table.standard env' index m').machine.height
        = (evaluate Table.standard env index m).machine.height) ∨
    ∃ e, (evaluate Table.standard env' index m').result = .error e ∧ e.dependsOnData := by
  have hfirst := Evaluation.agrees_evaluate env index m
  have hsecond := Evaluation.agrees_evaluate env' index m'
  rw [← houtline] at hsecond
  cases hforetold : m.outline.heightAfter index with
  | none =>
      -- no height is foretold only for evaluations that fail
      rw [hforetold] at hfirst
      obtain ⟨e, he⟩ := hfirst
      rw [hok] at he
      cases he
  | some height =>
      rw [hforetold] at hfirst hsecond
      rcases hfirst with ⟨-, hheight⟩ | ⟨e, he, -⟩
      · rw [hheight]
        exact hsecond.imp_left fun ⟨⟨_, hok'⟩, hheight'⟩ => ⟨hok', hheight'⟩
      · rw [hok] at he
        cases he

/-- A source of differences that `ZIPMAP` evaluates for two lanes, on two pools: with the
first one it leaves two values, with the second one a difference is negative. -/
theorem stack_shape_never_depends_on_data_of_differences :
    let sources : List Source :=
      [ [Instruction.constant.opcode, 0, Instruction.constant.opcode, 1,
          Instruction.zipmap.opcode, 0x29],
        [Instruction.constant.opcode, 0x80, Instruction.constant.opcode, 0x81,
          Instruction.sub.opcode, 2] ]
    let m := Machine.ofProgram ⟨sources, [Word.ofSmall 5, Word.ofSmall 3], 0, 0⟩
    let m' := Machine.ofProgram ⟨sources, [Word.ofSmall 3, Word.ofSmall 5], 0, 0⟩
    m.outline = m'.outline ∧ (evaluate Table.standard {} 0 m).result = .ok () ∧
      (((evaluate Table.standard {} 0 m').result = .ok () ∧
        (evaluate Table.standard {} 0 m').machine.height
          = (evaluate Table.standard {} 0 m).machine.height) ∨
      ∃ e, (evaluate Table.standard {} 0 m').result = .error e ∧ e.dependsOnData) := by
  intro sources m m'
  have houtline : m.outline = m'.outline := rfl
  have hok : (evaluate Table.standard {} 0 m).result = .ok () := by decide
  exact ⟨houtline, hok, stack_shape_never_depends_on_data houtline {} {} 0 hok⟩

end WordMachine
