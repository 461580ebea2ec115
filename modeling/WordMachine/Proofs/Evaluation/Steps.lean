import Mathlib.Logic.Function.Iterate
import WordMachine.Proofs.Evaluation.Placement

/-!
# Evaluation step by step

`evaluate` recurses on a budget of nesting.  Here an evaluation is taken apart into single
steps of a machine that has no budget: it keeps a list of what is left to do, puts a source
on it for each lane of a `ZIPMAP`, and stops when the list is empty.  Nothing in a step
says that the steps come to an end, or that few frames are open at a time.

Both follow from the handlers leaving the frames alone.  The steps come to an end, with
the result and the machine that `evaluate` gives, since every source that a `ZIPMAP` puts
on the list has one frame more around it; and what is left to do never leads beyond the
nesting that is allowed.

## Main definitions

* `Task`, `Config` — what is left to do, and a moment of an evaluation
* `Config.step` — one step
* `Config.Leads` — some number of steps from one moment to another

## Main results

* `Config.leads_evaluate` — the steps end where `evaluate` does
* `Config.Bounded.iterate` — no number of steps opens too many frames
-/

namespace WordMachine

/-! ## The views of frames and sources -/

namespace Machine

theorem stableView_frames : StableView frames where
  stack _ _ := rfl
  frame m m' values h := by
    unfold closeFrame
    rw [h]
    rfl

theorem stableView_sources : StableView sources where
  stack _ _ := rfl
  frame m m' values h := by
    unfold closeFrame
    split
    · exact h
    · exact h

end Machine

theorem Action.Keeps.depth {α : Type} {a : Action α} (h : a.Keeps Machine.frames) (m : Machine) :
    (a m).machine.depth = m.depth :=
  congrArg List.length (h m)

/-! ## Steps -/

/-- Whether a route leads to the standard `ZIPMAP`. -/
def Route.isZipmap : Route → Bool
  | .standard .zipmap => true
  | _ => false

theorem Route.isZipmap_iff {r : Route} : r.isZipmap ↔ r = .standard .zipmap := by
  constructor
  · intro h
    unfold isZipmap at h
    split at h
    · rfl
    · cases h
  · rintro rfl
    rfl

/-- What an evaluation has to do. -/
inductive Task where
  /-- Evaluate a source. -/
  | source (index : Nat)
  /-- Evaluate pairs in order. -/
  | pairs (code : List (UInt8 × UInt8))
  /-- Evaluate a source for lanes of values in order. -/
  | lanes (zip : Zip) (values : List Word) (lanes : List Nat)
  /-- Close the innermost frame. -/
  | close

/-- A moment of an evaluation: what is left to do, first task first, whether a fault has
ended it, and the machine. -/
@[ext]
structure Config where
  tasks : List Task
  result : Except Fault Unit
  machine : Machine

/-- What an action leaves behind, with tasks left to do. -/
def Outcome.config (o : Outcome Unit) (tasks : List Task) : Config := ⟨tasks, o.result, o.machine⟩

/-- Checks what `ZIPMAP` checks, and takes its values. -/
def Action.takeZip (operand : UInt8) : Action (List Word) := fun m =>
  if maxDepth ≤ m.depth then
    fail (.invalidOperand ⟨.zipmap, operand, .nesting⟩) m
  else if m.sources.length ≤ (Zip.decode operand).source.toNat then
    fail (.invalidSource (Zip.decode operand).source.toNat m.sources.length) m
  else
    popMany (Zip.decode operand).valueCount m

/-- Does a task on a machine, or begins it and leaves the rest of it to be done before
`rest`. -/
def Task.begin (table : Table) (env : Environment) (rest : List Task) (m : Machine) :
    Task → Config
  | .source index =>
    match m.sources[index]? with
    | none => ⟨rest, .error (.invalidSource index m.sources.length), m⟩
    | some code =>
      if isWhole code then ⟨.pairs (WordMachine.pairs code) :: rest, .ok (), m⟩
      else ⟨rest, .error (.truncatedSource index (code.length - 1)), m⟩
  | .pairs [] => ⟨rest, .ok (), m⟩
  | .pairs ((opcode, operand) :: code) =>
    if (table.route opcode operand).isZipmap then
      let zip := Zip.decode operand
      let taken := Action.takeZip operand m
      match taken.result with
      | .ok values =>
        ⟨.lanes zip values (List.range zip.lanes) :: .pairs code :: rest, .ok (), taken.machine⟩
      | .error fault => ⟨.pairs code :: rest, .error fault, taken.machine⟩
    else
      (Evaluation.pair table env none opcode operand m).config (.pairs code :: rest)
  | .lanes _ _ [] => ⟨rest, .ok (), m⟩
  | .lanes zip values (lane :: more) =>
    ⟨.source zip.source.toNat :: .close :: .lanes zip values more :: rest, .ok (),
      m.openFrame (Action.laneValues zip values lane)⟩
  | .close => ⟨rest, .ok (), m.closeFrame⟩

namespace Config

variable (table : Table) (env : Environment)

/-- One step.  After a fault the tasks are dropped one by one, but frames are still
closed. -/
def step (c : Config) : Config :=
  match c.tasks, c.result with
  | [], _ => c
  | task :: rest, .ok () => task.begin table env rest c.machine
  | .close :: rest, .error fault => ⟨rest, .error fault, c.machine.closeFrame⟩
  | _ :: rest, .error fault => ⟨rest, .error fault, c.machine⟩

/-- The moment before a source is evaluated. -/
def start (index : Nat) (m : Machine) : Config := ⟨[.source index], .ok (), m⟩

/-- Some number of steps leads from one moment to the other. -/
def Leads (c d : Config) : Prop := ∃ n, (step table env)^[n] c = d

variable {table env}

namespace Leads

theorem refl (c : Config) : Leads table env c c := ⟨0, rfl⟩

theorem of_step {c d : Config} (h : c.step table env = d) : Leads table env c d := ⟨1, h⟩

theorem trans {c d e : Config} (h : Leads table env c d) (h' : Leads table env d e) :
    Leads table env c e := by
  obtain ⟨n, rfl⟩ := h
  obtain ⟨k, rfl⟩ := h'
  exact ⟨k + n, Function.iterate_add_apply _ k n c⟩

/-- A step and then others. -/
theorem head {c d e : Config} (h : c.step table env = d) (h' : Leads table env d e) :
    Leads table env c e :=
  (of_step h).trans h'

end Leads

/-- When nothing is left to do, nothing more happens. -/
theorem step_of_done {c : Config} (h : c.tasks = []) : c.step table env = c := by
  unfold step
  rw [h]

section

variable {rest : List Task} {m : Machine}

/-- After a fault, tasks other than closing a frame are dropped. -/
theorem step_of_error {task : Task} {fault : Fault} (h : task ≠ .close) :
    step table env ⟨task :: rest, .error fault, m⟩ = ⟨rest, .error fault, m⟩ := by
  cases task with
  | close => exact absurd rfl h
  | _ => rfl

/-- A frame is closed whether or not a fault has come before. -/
theorem step_close (result : Except Fault Unit) :
    step table env ⟨.close :: rest, result, m⟩ = ⟨rest, result, m.closeFrame⟩ := by
  cases result with
  | error fault => rfl
  | ok v => rfl

/-- A source is entered if it exists and is whole. -/
theorem step_source (table : Table) (env : Environment) (rest : List Task) (m : Machine)
    (index : Nat) :
    step table env ⟨.source index :: rest, .ok (), m⟩
      = match m.sources[index]? with
        | none => ⟨rest, .error (.invalidSource index m.sources.length), m⟩
        | some code =>
          if isWhole code then ⟨.pairs (pairs code) :: rest, .ok (), m⟩
          else ⟨rest, .error (.truncatedSource index (code.length - 1)), m⟩ := rfl

variable {opcode operand : UInt8} {code : List (UInt8 × UInt8)}

theorem step_pair (h : ¬ (table.route opcode operand).isZipmap) :
    step table env ⟨.pairs ((opcode, operand) :: code) :: rest, .ok (), m⟩
      = (Evaluation.pair table env none opcode operand m).config (.pairs code :: rest) :=
  if_neg h

theorem step_zipmap_error (h : (table.route opcode operand).isZipmap) {fault : Fault}
    (htake : (Action.takeZip operand m).result = .error fault) :
    step table env ⟨.pairs ((opcode, operand) :: code) :: rest, .ok (), m⟩
      = ⟨.pairs code :: rest, .error fault, (Action.takeZip operand m).machine⟩ := by
  refine (if_pos h).trans ?_
  simp only [htake]

theorem step_zipmap_ok (h : (table.route opcode operand).isZipmap) {values : List Word}
    (htake : (Action.takeZip operand m).result = .ok values) :
    step table env ⟨.pairs ((opcode, operand) :: code) :: rest, .ok (), m⟩
      = ⟨.lanes (Zip.decode operand) values (List.range (Zip.decode operand).lanes)
          :: .pairs code :: rest, .ok (), (Action.takeZip operand m).machine⟩ := by
  refine (if_pos h).trans ?_
  simp only [htake]

end

end Config

/-! ## Where the steps lead -/

/-- Only `ZIPMAP` looks at the evaluation that it is given. -/
theorem Evaluation.pair_eq_of_not_isZipmap {table : Table} {opcode operand : UInt8}
    (h : ¬ (table.route opcode operand).isZipmap) (env : Environment)
    (nested nested' : Option (Nat → Action Unit)) :
    pair table env nested opcode operand = pair table env nested' opcode operand := by
  unfold pair
  cases hroute : table.route opcode operand with
  | standard instruction =>
      cases instruction with
      | zipmap => exact absurd (Route.isZipmap_iff.mpr hroute) h
      | _ => rfl
  | _ => rfl

namespace Action

/-- `ZIPMAP` takes its values and then evaluates its lanes. -/
theorem zipmap_eq_takeZip_bind (evaluate : Nat → Action Unit) (operand : UInt8) (m : Machine) :
    zipmap (some evaluate) operand m
      = (takeZip operand >>= fun values =>
          zipLanes evaluate (Zip.decode operand) values
            (List.range (Zip.decode operand).lanes)) m := by
  rw [zipmap_apply]
  show _ = Action.bind (takeZip operand) _ m
  unfold Action.bind takeZip
  split
  · rfl
  · split
    · rfl
    · rfl

/-- With the frames used up, `ZIPMAP` fails as it does without an evaluation to use. -/
theorem takeZip_of_le (operand : UInt8) {m : Machine} (h : maxDepth ≤ m.depth) :
    takeZip operand m = fail (.invalidOperand ⟨.zipmap, operand, .nesting⟩) m := if_pos h

/-- `ZIPMAP` goes on to its lanes only if one more frame is allowed. -/
theorem depth_lt_of_takeZip_ok {operand : UInt8} {m : Machine} {values : List Word}
    (h : (takeZip operand m).result = .ok values) : m.depth < maxDepth := by
  rw [← Nat.not_le]
  intro hle
  rw [takeZip_of_le operand hle] at h
  cases h

theorem keeps_takeZip {γ : Type} {view : Machine → γ} (operand : UInt8)
    (hview : Machine.StableView view) : (takeZip operand).Keeps view := by
  intro m
  unfold takeZip
  split
  · rfl
  · split
    · rfl
    · exact (TakesTop.popMany _).stackLocal.keeps.keeps hview m

end Action

namespace Config

variable {table : Table} {env : Environment}

/-- After an action, the task that goes on from it is done, or dropped if there was a
fault. -/
theorem Leads.bind {c : Config} {first : Action Unit} {next : Unit → Action Unit} {task : Task}
    {rest : List Task} {m : Machine} (htask : task ≠ .close)
    (hfirst : Leads table env c ((first m).config (task :: rest)))
    (hnext : Leads table env ⟨task :: rest, .ok (), (first m).machine⟩
      ((next () (first m).machine).config rest)) :
    Leads table env c (((first >>= next) m).config rest) := by
  refine hfirst.trans ?_
  unfold Outcome.config
  cases hresult : (first m).result with
  | error fault =>
      rw [Action.bind_error hresult]
      exact .of_step (step_of_error htask)
  | ok v =>
      rw [Action.bind_result_ok hresult, Action.bind_machine_ok hresult]
      exact hnext

section

variable {evaluate : Nat → Action Unit} {depth : Nat}
variable (heval : ∀ i m rest, m.depth = depth + 1 →
  Leads table env ⟨.source i :: rest, .ok (), m⟩ ((evaluate i m).config rest))
include heval

private theorem leads_zipLane (zip : Zip) (values : List Word) (lane : Nat) (more : List Nat)
    (rest : List Task) {m : Machine} (hdepth : m.depth = depth) :
    Leads table env ⟨.lanes zip values (lane :: more) :: rest, .ok (), m⟩
      ((Action.zipLane evaluate zip values lane m).config (.lanes zip values more :: rest)) := by
  have hopen : (m.openFrame (Action.laneValues zip values lane)).depth = depth + 1 := by
    rw [← hdepth]
    rfl
  -- a frame is opened, the source evaluated, and the frame closed
  refine .head rfl ((heval _ _ _ hopen).trans ?_)
  obtain ⟨hresult, hmachine⟩ := Action.zipLane_eq_inFrame evaluate zip values lane m
  unfold Outcome.config
  rw [hresult, hmachine]
  exact .of_step (step_close _)

variable (hframes : ∀ i, (evaluate i).Keeps Machine.frames)
include hframes

private theorem leads_zipLanes (zip : Zip) (values : List Word) (lanes : List Nat)
    (rest : List Task) {m : Machine} (hdepth : m.depth = depth) :
    Leads table env ⟨.lanes zip values lanes :: rest, .ok (), m⟩
      ((Action.zipLanes evaluate zip values lanes m).config rest) := by
  induction lanes generalizing m with
  | nil => exact .of_step rfl
  | cons lane more ih =>
      have hkeeps := Action.keeps_zipLane Machine.stableView_frames hframes zip values lane
      refine .bind (by simp) (leads_zipLane heval zip values lane more rest hdepth) (ih ?_)
      rw [hkeeps.depth m]
      exact hdepth

end

section

variable (htable : table.Keeps Machine.frames) {budget : Nat}
variable (heval : ∀ k, budget = k + 1 → ∀ i m rest, k = maxDepth - m.depth →
  Leads table env ⟨.source i :: rest, .ok (), m⟩
    ((Evaluation.nested table env k i m).config rest))
include htable heval

/-- One pair is evaluated, with the nesting that is left for the frames that are open. -/
theorem leads_pair (opcode operand : UInt8) (code : List (UInt8 × UInt8)) (rest : List Task)
    {m : Machine} (hbudget : budget = maxDepth - m.depth) :
    Leads table env ⟨.pairs ((opcode, operand) :: code) :: rest, .ok (), m⟩
      ((Evaluation.pair table env (Evaluation.inner table env budget) opcode operand m).config
        (.pairs code :: rest)) := by
  by_cases hzipmap : (table.route opcode operand).isZipmap
  · have hpair : Evaluation.pair table env (Evaluation.inner table env budget) opcode operand
        = Action.zipmap (Evaluation.inner table env budget) operand := by
      unfold Evaluation.pair
      rw [Route.isZipmap_iff.mp hzipmap]
      rfl
    rw [hpair]
    cases budget with
    | zero =>
        -- no budget is left exactly when the frames are used up
        have hle : maxDepth ≤ m.depth := Nat.sub_eq_zero_iff_le.mp hbudget.symm
        have htake := Action.takeZip_of_le operand hle
        refine .of_step ((step_zipmap_error hzipmap (congrArg Outcome.result htake)).trans ?_)
        rw [htake, Evaluation.inner, Action.zipmap_none_apply]
        rfl
    | succ k =>
        rw [Evaluation.inner, Action.zipmap_eq_takeZip_bind]
        unfold Outcome.config
        cases htake : (Action.takeZip operand m).result with
        | error fault =>
            rw [Action.bind_error htake]
            exact .of_step (step_zipmap_error hzipmap htake)
        | ok values =>
            rw [Action.bind_result_ok htake, Action.bind_machine_ok htake]
            have hdepth := (Action.keeps_takeZip operand Machine.stableView_frames).depth m
            refine .head (step_zipmap_ok hzipmap htake) (leads_zipLanes ?_ ?_ _ _ _ _ hdepth)
            · intro i m' rest' hdepth'
              exact heval k rfl i m' rest' (by omega)
            · exact Evaluation.keeps_nested Machine.stableView_frames htable env k
  · rw [Evaluation.pair_eq_of_not_isZipmap hzipmap env _ none]
    exact .of_step (step_pair hzipmap)

private theorem leads_sequence (code : List (UInt8 × UInt8)) (rest : List Task) {m : Machine}
    (hbudget : budget = maxDepth - m.depth) :
    Leads table env ⟨.pairs code :: rest, .ok (), m⟩
      ((Evaluation.sequence table env (Evaluation.inner table env budget) code m).config
        rest) := by
  induction code generalizing m with
  | nil => exact .of_step rfl
  | cons head code ih =>
      obtain ⟨opcode, operand⟩ := head
      have hkeeps := Evaluation.keeps_pair Machine.stableView_frames htable env
        (Evaluation.keeps_inner Machine.stableView_frames htable env budget) opcode operand
      refine .bind (by simp) (leads_pair htable heval opcode operand code rest hbudget) (ih ?_)
      rw [hkeeps.depth m]
      exact hbudget

end

/-- The budget of a nested evaluation is the nesting that its open frames leave. -/
theorem leads_nested (htable : table.Keeps Machine.frames) (budget index : Nat) (m : Machine)
    (rest : List Task) (hbudget : budget = maxDepth - m.depth) :
    Leads table env ⟨.source index :: rest, .ok (), m⟩
      ((Evaluation.nested table env budget index m).config rest) := by
  -- by induction on the budget: the sources that its pairs put on the list have one less
  induction budget using Nat.strongRecOn generalizing index m rest with
  | ind budget ih =>
      rw [Evaluation.nested_eq_source, Evaluation.source, Action.look_bind]
      have hstep := step_source table env rest m index
      cases hcode : m.sources[index]? with
      | none =>
          simp only [hcode] at hstep
          exact .of_step hstep
      | some code =>
          simp only [hcode] at hstep ⊢
          split
          · next hwhole =>
              rw [if_pos hwhole] at hstep
              refine .head hstep (leads_sequence htable ?_ _ rest hbudget)
              rintro k rfl i m' rest' hk
              exact ih k (Nat.lt_succ_self k) i m' rest' hk
          · next hwhole =>
              rw [if_neg hwhole] at hstep
              exact .of_step hstep

/-- The steps from the start of an evaluation end where `evaluate` does. -/
theorem leads_evaluate (htable : table.Keeps Machine.frames) (index : Nat) (m : Machine) :
    Leads table env (start index m) ((evaluate table env index m).config []) :=
  leads_nested htable _ index m [] rfl

/-- A step from a pair keeps what the handlers keep. -/
theorem view_step_pairs {γ : Type} {view : Machine → γ} (hview : Machine.StableView view)
    (htable : table.Keeps view) (code : List (UInt8 × UInt8)) {rest : List Task} {m : Machine} :
    view (step table env ⟨.pairs code :: rest, .ok (), m⟩).machine = view m := by
  cases code with
  | nil => rfl
  | cons head code =>
      obtain ⟨opcode, operand⟩ := head
      by_cases hzipmap : (table.route opcode operand).isZipmap
      · have htaken := Action.keeps_takeZip operand hview m
        cases htake : (Action.takeZip operand m).result with
        | error fault =>
            rw [step_zipmap_error hzipmap htake]
            exact htaken
        | ok values =>
            rw [step_zipmap_ok hzipmap htake]
            exact htaken
      · rw [step_pair hzipmap]
        refine Evaluation.keeps_pair hview htable env ?_ opcode operand m
        intro evaluate h
        cases h

/-! ## Open frames -/

/-- What is left to do leads nowhere beyond the nesting that is allowed, with `depth` frames
open now. -/
def Fits : List Task → (depth : Nat) → Prop
  | [], _ => True
  | .close :: rest, depth => Fits rest (depth - 1)
  | .lanes .. :: rest, depth => depth < maxDepth ∧ Fits rest depth
  | .source _ :: rest, depth | .pairs _ :: rest, depth => Fits rest depth

/-- The open frames, and those that are still to be opened, are within bounds. -/
structure Bounded (c : Config) : Prop where
  depth : c.machine.depth ≤ maxDepth
  tasks : Fits c.tasks c.machine.depth

theorem depth_closeFrame (m : Machine) : m.closeFrame.depth = m.depth - 1 := by
  unfold Machine.closeFrame Machine.depth
  split
  · next h => rw [h]; rfl
  · next h => rw [h]; rfl

namespace Bounded

variable {rest : List Task} {m m' : Machine}

theorem start (index : Nat) (h : m.depth ≤ maxDepth) : (start index m).Bounded := ⟨h, trivial⟩

/-- Only the number of open frames counts. -/
theorem of_depth_eq {result : Except Fault Unit} (h : m'.depth = m.depth)
    (hdepth : m.depth ≤ maxDepth) (hrest : Fits rest m.depth) :
    (⟨rest, result, m'⟩ : Config).Bounded :=
  ⟨h ▸ hdepth, h ▸ hrest⟩

private theorem closeFrame {result : Except Fault Unit} (hdepth : m.depth ≤ maxDepth)
    (hrest : Fits rest (m.depth - 1)) : (⟨rest, result, m.closeFrame⟩ : Config).Bounded := by
  constructor
  · show m.closeFrame.depth ≤ maxDepth
    rw [depth_closeFrame]
    omega
  · show Fits rest m.closeFrame.depth
    rwa [depth_closeFrame]

/-- A step from a pair: only `ZIPMAP` adds lanes, and only if one more frame is allowed. -/
theorem step_pairs (htable : table.Keeps Machine.frames) (code : List (UInt8 × UInt8))
    (hdepth : m.depth ≤ maxDepth) (hrest : Fits rest m.depth) :
    (step table env ⟨.pairs code :: rest, .ok (), m⟩).Bounded := by
  have hkept : (step table env ⟨.pairs code :: rest, .ok (), m⟩).machine.depth = m.depth :=
    congrArg List.length (view_step_pairs Machine.stableView_frames htable code)
  cases code with
  | nil => exact of_depth_eq rfl hdepth hrest
  | cons head code =>
      obtain ⟨opcode, operand⟩ := head
      by_cases hzipmap : (table.route opcode operand).isZipmap
      · cases htake : (Action.takeZip operand m).result with
        | error fault =>
            rw [step_zipmap_error hzipmap htake] at hkept ⊢
            exact of_depth_eq hkept hdepth hrest
        | ok values =>
            rw [step_zipmap_ok hzipmap htake] at hkept ⊢
            exact of_depth_eq hkept hdepth ⟨Action.depth_lt_of_takeZip_ok htake, hrest⟩
      · rw [step_pair hzipmap] at hkept ⊢
        exact of_depth_eq hkept hdepth hrest

/-- One step keeps the frames within bounds. -/
theorem step (htable : table.Keeps Machine.frames) {c : Config} (h : c.Bounded) :
    (c.step table env).Bounded := by
  obtain ⟨tasks, result, m⟩ := c
  obtain ⟨hdepth, htasks⟩ := h
  cases tasks with
  | nil => exact ⟨hdepth, htasks⟩
  | cons task rest =>
      cases task with
      | close =>
          rw [step_close]
          exact closeFrame hdepth htasks
      | source index =>
          cases result with
          | error fault => exact of_depth_eq rfl hdepth htasks
          | ok v =>
              rw [step_source]
              split
              · exact of_depth_eq rfl hdepth htasks
              · split
                · exact of_depth_eq rfl hdepth htasks
                · exact of_depth_eq rfl hdepth htasks
      | pairs code =>
          cases result with
          | error fault => exact of_depth_eq rfl hdepth htasks
          | ok v => exact step_pairs htable code hdepth htasks
      | lanes zip values lanes =>
          cases result with
          | error fault => exact of_depth_eq rfl hdepth htasks.2
          | ok v =>
              cases lanes with
              | nil => exact of_depth_eq rfl hdepth htasks.2
              | cons lane more =>
                  -- the one step that opens a frame, and closing it comes before the rest
                  exact ⟨htasks.1, htasks⟩

/-- Any number of steps keeps the frames within bounds. -/
theorem iterate (htable : table.Keeps Machine.frames) {c : Config} (h : c.Bounded) (n : Nat) :
    ((Config.step table env)^[n] c).Bounded :=
  Function.Iterate.rec Bounded h (fun _ hc => hc.step htable) n

end Bounded

end Config

end WordMachine
