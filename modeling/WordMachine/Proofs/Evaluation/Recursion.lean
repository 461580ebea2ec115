import Mathlib.Logic.Relation
import WordMachine.Fixtures
import WordMachine.Proofs.Evaluation.Steps
import WordMachine.Proofs.Operand

/-!
# Recursion never succeeds

Code has no branches, so an evaluation that succeeds has gone through every pair of every
source that it entered, and a `ZIPMAP` among them has entered its source with one frame
more open.  A chain of calls is thus as long as the frames that it opens, of which there
are never more than eight: a source that calls itself, directly or through others, or that
heads a longer chain of calls, is never evaluated with success.

The sources that count are those of the program, so the handlers must leave the sources of
the machine alone.  That evaluations end, and that no more than eight frames are open, needs
no more than that the handlers leave the frames alone.

## Main definitions

* `Table.Calls` — a pair of one source that goes to the standard `ZIPMAP` names another
* `Config.Enters` — the evaluation comes to a source, with some number of frames open

## Main results

* `Config.Enters.call` — an evaluation that succeeds enters what a source it enters calls
* `Config.not_succeeds` — recursion does not succeed
* `run_ends_and_recursion_never_succeeds` — what is known of every run
* `recursion_succeeds_where_sources_are_rewritten` — why the sources must be left alone
-/

namespace WordMachine

/-- Source `i` exists, and some pair of it that goes to the standard `ZIPMAP` names source
`j`. -/
def Table.Calls (table : Table) (sources : List Source) (i j : Nat) : Prop :=
  ∃ code, sources[i]? = some code ∧ ∃ pair ∈ pairs code,
    table.route pair.1 pair.2 = .standard .zipmap ∧ (Zip.decode pair.2).source.toNat = j

namespace Config

variable {table : Table} {env : Environment}

/-! ## Evaluations that succeed -/

/-- The steps come to an end without a fault. -/
def Succeeds (table : Table) (env : Environment) (c : Config) : Prop :=
  ∃ m, Leads table env c ⟨[], .ok (), m⟩

theorem iterate_of_done {c : Config} (h : c.tasks = []) (n : Nat) :
    (step table env)^[n] c = c :=
  Function.iterate_fixed (step_of_done h) n

/-- Once a fault has come, it stays. -/
theorem result_step_of_error {c : Config} {fault : Fault} (h : c.result = .error fault) :
    (c.step table env).result = .error fault := by
  obtain ⟨tasks, result, m⟩ := c
  cases h
  cases tasks with
  | nil => rfl
  | cons task rest => cases task <;> rfl

private theorem result_iterate_of_error {c : Config} {fault : Fault} (h : c.result = .error fault)
    (n : Nat) : ((step table env)^[n] c).result = .error fault :=
  Function.Iterate.rec (fun d : Config => d.result = .error fault) h
    (fun _ => result_step_of_error) n

namespace Succeeds

theorem result {c : Config} (h : Succeeds table env c) : c.result = .ok () := by
  obtain ⟨m, n, hn⟩ := h
  cases hresult : c.result with
  | ok v => rfl
  | error fault =>
      have hlast : ((step table env)^[n] c).result = .error fault :=
        result_iterate_of_error hresult n
      rw [hn] at hlast
      cases hlast

/-- The steps are determined, so every moment on the way succeeds as well. -/
theorem of_leads {c d : Config} (h : Succeeds table env c) (hd : Leads table env c d) :
    Succeeds table env d := by
  obtain ⟨m, n, hn⟩ := h
  obtain ⟨k, rfl⟩ := hd
  refine ⟨m, n, ?_⟩
  rw [← Function.iterate_add_apply, Nat.add_comm, Function.iterate_add_apply, hn]
  exact iterate_of_done rfl k

end Succeeds

/-! ## Handlers that leave the sources alone -/

private theorem sources_step (hsources : table.Keeps Machine.sources) (c : Config) :
    (c.step table env).machine.sources = c.machine.sources := by
  obtain ⟨tasks, result, m⟩ := c
  cases tasks with
  | nil => rfl
  | cons task rest =>
      cases result with
      | error fault =>
          cases task with
          | close => exact Machine.stableView_sources.frame m m [] rfl
          | _ => rfl
      | ok v =>
          cases task with
          | source index =>
              rw [step_source]
              split
              · rfl
              · split <;> rfl
          | pairs code => exact view_step_pairs Machine.stableView_sources hsources code
          | lanes zip values lanes => cases lanes <;> rfl
          | close => exact Machine.stableView_sources.frame m m [] rfl

private theorem sources_iterate (hsources : table.Keeps Machine.sources) (c : Config) (n : Nat) :
    ((step table env)^[n] c).machine.sources = c.machine.sources :=
  Function.Iterate.rec (fun d : Config => d.machine.sources = c.machine.sources) rfl
    (fun d hd => (sources_step hsources d).trans hd) n

private theorem Leads.sources_eq (hsources : table.Keeps Machine.sources) {c d : Config}
    (h : Leads table env c d) : d.machine.sources = c.machine.sources := by
  obtain ⟨n, rfl⟩ := h
  exact sources_iterate hsources c n

/-! ## The sources that are entered -/

/-- The evaluation comes to a source while `depth` frames are open. -/
def Enters (table : Table) (env : Environment) (c : Config) (index depth : Nat) : Prop :=
  ∃ rest m, Leads table env c ⟨.source index :: rest, .ok (), m⟩ ∧ m.depth = depth

private theorem Enters.of_leads {c d : Config} {index depth : Nat}
    (h : Enters table env d index depth) (hd : Leads table env c d) :
    Enters table env c index depth := by
  obtain ⟨rest, m, hm, hdepth⟩ := h
  exact ⟨rest, m, hd.trans hm, hdepth⟩

/-- A `ZIPMAP` that takes its values has at least one lane to evaluate its source for. -/
theorem enters_of_lanes (zip : Zip) (values : List Word) (rest : List Task) (m : Machine) :
    Enters table env ⟨.lanes zip values (List.range zip.lanes) :: rest, .ok (), m⟩
      zip.source.toNat (m.depth + 1) := by
  obtain ⟨more, hmore⟩ := zip.exists_range_lanes
  rw [hmore]
  exact ⟨_, _, .of_step rfl, rfl⟩

/-- A pair leads to the pairs after it, with the same frames open. -/
theorem leads_tail (htable : table.Keeps Machine.frames) (opcode operand : UInt8)
    (code : List (UInt8 × UInt8)) (rest : List Task) (m : Machine) :
    ∃ result m', Leads table env ⟨.pairs ((opcode, operand) :: code) :: rest, .ok (), m⟩
      ⟨.pairs code :: rest, result, m'⟩ ∧ m'.depth = m.depth := by
  have hkeeps := Evaluation.keeps_pair Machine.stableView_frames htable env
    (Evaluation.keeps_inner Machine.stableView_frames htable env (maxDepth - m.depth)) opcode
    operand
  exact ⟨_, _, leads_pair htable (fun k _ => leads_nested htable k) opcode operand code rest rfl,
    hkeeps.depth m⟩

/-- Pairs that are evaluated with success enter every source that a `ZIPMAP` among them
names. -/
theorem enters_of_pairs (htable : table.Keeps Machine.frames) {code : List (UInt8 × UInt8)}
    {rest : List Task} {m : Machine}
    (h : Succeeds table env ⟨.pairs code :: rest, .ok (), m⟩) {pair : UInt8 × UInt8}
    (hpair : pair ∈ code) (hroute : table.route pair.1 pair.2 = .standard .zipmap) :
    Enters table env ⟨.pairs code :: rest, .ok (), m⟩ (Zip.decode pair.2).source.toNat
      (m.depth + 1) := by
  induction code generalizing m with
  | nil => cases hpair
  | cons head code ih =>
      obtain ⟨opcode, operand⟩ := head
      rcases List.mem_cons.mp hpair with rfl | hmem
      · have hzipmap := Route.isZipmap_iff.mpr hroute
        cases htake : (Action.takeZip operand m).result with
        | error fault =>
            -- a fault here would have stayed to the end
            have hfault := (h.of_leads (.of_step (step_zipmap_error hzipmap htake))).result
            cases hfault
        | ok values =>
            have hlanes : Enters table env _ _ _ := enters_of_lanes (Zip.decode operand) values
              (.pairs code :: rest) (Action.takeZip operand m).machine
            rw [(Action.keeps_takeZip operand Machine.stableView_frames).depth m] at hlanes
            exact hlanes.of_leads (.of_step (step_zipmap_ok hzipmap htake))
      · obtain ⟨result, m', hleads, hdepth⟩ := leads_tail htable opcode operand code rest m
        have hnext := h.of_leads hleads
        cases hnext.result
        have hrest := ih hnext hmem
        rw [hdepth] at hrest
        exact hrest.of_leads hleads

/-- An evaluation that succeeds enters every source that a source it enters calls, with one
frame more open. -/
theorem Enters.call (htable : table.Keeps Machine.frames) (hsources : table.Keeps Machine.sources)
    {c : Config} (hsucceeds : Succeeds table env c) {i j depth : Nat}
    (h : Enters table env c i depth) (hcall : table.Calls c.machine.sources i j) :
    Enters table env c j (depth + 1) := by
  obtain ⟨rest, m, hleads, rfl⟩ := h
  have hentered := hsucceeds.of_leads hleads
  rw [← hleads.sources_eq hsources] at hcall
  obtain ⟨code, hcode, pair, hpair, hroute, rfl⟩ := hcall
  have hstep := step_source table env rest m i
  simp only [hcode] at hstep
  by_cases hwhole : isWhole code
  · rw [if_pos hwhole] at hstep
    have hpairs := enters_of_pairs htable (hentered.of_leads (.of_step hstep)) hpair hroute
    exact (hpairs.of_leads (.of_step hstep)).of_leads hleads
  · rw [if_neg hwhole] at hstep
    have hfault := (hentered.of_leads (.of_step hstep)).result
    cases hfault

section

variable (htable : table.Keeps Machine.frames) (hsources : table.Keeps Machine.sources)
variable {c : Config} (hsucceeds : Succeeds table env c)
variable {i j depth : Nat} (h : Enters table env c i depth)
include htable hsources hsucceeds h

private theorem Enters.reflTransGen
    (hcalls : Relation.ReflTransGen (table.Calls c.machine.sources) i j) :
    ∃ depth' ≥ depth, Enters table env c j depth' := by
  induction hcalls with
  | refl => exact ⟨depth, Nat.le_refl _, h⟩
  | tail _ hcall ih =>
      obtain ⟨depth', hle, hmid⟩ := ih
      exact ⟨depth' + 1, Nat.le_succ_of_le hle, hmid.call htable hsources hsucceeds hcall⟩

private theorem Enters.transGen (hcalls : Relation.TransGen (table.Calls c.machine.sources) i j) :
    ∃ depth' > depth, Enters table env c j depth' := by
  obtain ⟨k, hcall, hrest⟩ := Relation.TransGen.head'_iff.mp hcalls
  exact (h.call htable hsources hsucceeds hcall).reflTransGen htable hsources hsucceeds hrest

/-- A chain of calls is entered with as many frames more as it has calls. -/
theorem Enters.isChain {path : List Nat}
    (hpath : List.IsChain (table.Calls c.machine.sources) (i :: path)) :
    ∃ k, Enters table env c k (depth + path.length) := by
  induction path generalizing i depth with
  | nil => exact ⟨i, h⟩
  | cons k path ih =>
      obtain ⟨hcall, hrest⟩ := List.isChain_cons_cons.mp hpath
      obtain ⟨last, hlast⟩ := ih (h.call htable hsources hsucceeds hcall) hrest
      refine ⟨last, ?_⟩
      rwa [List.length_cons, Nat.add_comm path.length, ← Nat.add_assoc]

/-- A source that calls itself through others is entered as deep as one likes. -/
theorem Enters.of_cycle (hcycle : Relation.TransGen (table.Calls c.machine.sources) i i)
    (n : Nat) : ∃ depth' ≥ n, Enters table env c i depth' := by
  induction n with
  | zero => exact ⟨depth, Nat.zero_le _, h⟩
  | succ n ih =>
      obtain ⟨depth', hle, hmid⟩ := ih
      obtain ⟨depth'', hlt, hend⟩ := hmid.transGen htable hsources hsucceeds hcycle
      exact ⟨depth'', Nat.lt_of_le_of_lt hle hlt, hend⟩

end

private theorem Enters.le_maxDepth (htable : table.Keeps Machine.frames) {c : Config}
    (hc : c.Bounded) {index depth : Nat} (h : Enters table env c index depth) :
    depth ≤ maxDepth := by
  obtain ⟨rest, m, ⟨n, hn⟩, rfl⟩ := h
  have hbounded : ((step table env)^[n] c).Bounded := hc.iterate htable n
  rw [hn] at hbounded
  exact hbounded.depth

/-! ## Runs -/

/-- A source that calls itself through others, or that heads a chain of calls longer than
the nesting that is allowed, is not entered by an evaluation that succeeds. -/
theorem not_succeeds (htable : table.Keeps Machine.frames)
    (hsources : table.Keeps Machine.sources) {entry : Nat} {m : Machine} (hm : m.depth ≤ maxDepth)
    {k : Nat} (hreached : Relation.ReflTransGen (table.Calls m.sources) entry k)
    (hdeep : Relation.TransGen (table.Calls m.sources) k k ∨
      ∃ path : List Nat, maxDepth < path.length ∧
        List.IsChain (table.Calls m.sources) (k :: path)) :
    ¬ Succeeds table env (start entry m) := by
  intro hsucceeds
  have hbounded := Bounded.start entry hm
  have hentry : Enters table env (start entry m) entry m.depth := ⟨[], m, .refl _, rfl⟩
  obtain ⟨depth, -, hk⟩ := hentry.reflTransGen htable hsources hsucceeds hreached
  rcases hdeep with hcycle | ⟨path, hlong, hpath⟩
  · obtain ⟨depth', hle, hk'⟩ := hk.of_cycle htable hsources hsucceeds hcycle (maxDepth + 1)
    exact absurd (hk'.le_maxDepth htable hbounded) (Nat.not_le.mpr hle)
  · obtain ⟨last, hlast⟩ := hk.isChain htable hsources hsucceeds hpath
    have hle := hlast.le_maxDepth htable hbounded
    omega

/-- The steps of a run come to an end, with its result. -/
theorem iterate_eq_run (htable : table.Keeps Machine.frames) (env : Environment) (entry : Nat)
    (p : Program) : ∃ n,
      ((step table env)^[n] (start entry (Machine.ofProgram p))).tasks = [] ∧
      (run table env entry (Machine.ofProgram p)).result
        = ((step table env)^[n] (start entry (Machine.ofProgram p))).result.map fun _ =>
            ((step table env)^[n] (start entry (Machine.ofProgram p))).machine.stack := by
  obtain ⟨n, hn⟩ : Leads table env _ _ := leads_evaluate htable entry (Machine.ofProgram p)
  have hreset : (Machine.ofProgram p).reset = Machine.ofProgram p := rfl
  refine ⟨n, ?_⟩
  rw [hn, run_result, hreset]
  exact ⟨rfl, rfl⟩

/-- A run whose steps do not succeed ends in a fault. -/
theorem run_eq_error (htable : table.Keeps Machine.frames) {entry : Nat} {p : Program}
    (h : ¬ Succeeds table env (start entry (Machine.ofProgram p))) :
    ∃ fault, (run table env entry (Machine.ofProgram p)).result = .error fault := by
  obtain ⟨n, htasks, hresult⟩ := iterate_eq_run htable env entry p
  rw [hresult]
  cases hlast : ((step table env)^[n] (start entry (Machine.ofProgram p))).result with
  | error fault => exact ⟨fault, rfl⟩
  | ok v => exact absurd ⟨_, n, Config.ext htasks hlast rfl⟩ h

end Config

/-- What is known of every run, with handlers that leave the frames alone.  Its steps come
to an end, with the result of the run.  At no moment are more than eight frames open.  If the
handlers leave the sources alone as well, and the calls that lead on from the entry go round in
a cycle or make a chain of more than eight, the run ends in a fault. -/
theorem run_ends_and_recursion_never_succeeds {table : Table}
    (htable : table.Keeps Machine.frames) (env : Environment) (entry : Nat) (p : Program) :
    let moment (n : Nat) := (Config.step table env)^[n] (Config.start entry (Machine.ofProgram p))
    let calls := table.Calls p.sources
    (∃ n, (moment n).tasks = [] ∧
      (run table env entry (Machine.ofProgram p)).result
        = (moment n).result.map fun _ => (moment n).machine.stack) ∧
    (∀ n, (moment n).machine.depth ≤ 8) ∧
    (table.Keeps Machine.sources → ∀ k, Relation.ReflTransGen calls entry k →
      (Relation.TransGen calls k k ∨
        ∃ path : List Nat, 8 < path.length ∧ List.IsChain calls (k :: path)) →
      ∃ fault, (run table env entry (Machine.ofProgram p)).result = .error fault) := by
  intro moment calls
  have hdepth : (Machine.ofProgram p).depth ≤ maxDepth := Nat.zero_le _
  refine ⟨Config.iterate_eq_run htable env entry p, ?_, ?_⟩
  · intro n
    have hbounded : (moment n).Bounded := (Config.Bounded.start entry hdepth).iterate htable n
    exact hbounded.depth
  · intro hsources k hreached hdeep
    exact Config.run_eq_error htable (Config.not_succeeds htable hsources hdepth hreached hdeep)

/-- Two sources that call each other, with a handler between the calls that looks at the
number of open frames. -/
theorem run_ends_and_recursion_never_succeeds_of_cycle :
    let table := Table.standard.register .locals 200 Handler.pushDepth
    let p : Program := ⟨
      [ [Instruction.constant.opcode, 0, 200, 0, Instruction.zipmap.opcode, 0x21],
        [Instruction.constant.opcode, 0x80, Instruction.zipmap.opcode, 0x00] ],
      [Word.ofSmall 5], 0, 0⟩
    table.Keeps Machine.frames ∧ table.Keeps Machine.sources ∧
      Relation.TransGen (table.Calls p.sources) 0 0 ∧
      (∀ n, ((Config.step table {})^[n]
        (.start 0 (Machine.ofProgram p))).machine.depth ≤ 8) ∧
      ∃ fault, (run table {} 0 (Machine.ofProgram p)).result = .error fault := by
  intro table p
  have hhandler : ∀ operand env, (Handler.pushDepth operand env).KeepsRest := fun _ _ =>
    (Action.KeepsRest.look _).bind fun _ => (Action.StackLocal.push _).keeps
  have hframes : table.Keeps Machine.frames := (Table.keeps_standard _).register
    (fun operand env => (hhandler operand env).keeps Machine.stableView_frames) .locals 200
  have hsources : table.Keeps Machine.sources := (Table.keeps_standard _).register
    (fun operand env => (hhandler operand env).keeps Machine.stableView_sources) .locals 200
  have hdown : table.Calls p.sources 0 1 :=
    ⟨_, rfl, (Instruction.zipmap.opcode, 0x21), by decide, rfl, rfl⟩
  have hback : table.Calls p.sources 1 0 :=
    ⟨_, rfl, (Instruction.zipmap.opcode, 0x00), by decide, rfl, rfl⟩
  have hcycle : Relation.TransGen (table.Calls p.sources) 0 0 := .tail (.single hdown) hback
  obtain ⟨-, hdepth, hfails⟩ := run_ends_and_recursion_never_succeeds hframes {} 0 p
  exact ⟨hframes, hsources, hcycle, hdepth, hfails hsources 0 .refl (.inl hcycle)⟩

/-- A handler that rewrites the sources, and nothing else, can cut a recursion short.  Here it
leaves one empty source, so that the program, whose only source calls itself, enters that
source once more and comes to its end. -/
theorem recursion_succeeds_where_sources_are_rewritten :
    let clear : Handler := fun _ _ => Action.change fun m => { m with sources := [[]] }
    let table := Table.standard.register .locals 200 clear
    let p : Program := ⟨
      [[200, 0, Instruction.constant.opcode, 0, Instruction.zipmap.opcode, 0]],
      [Word.zero], 0, 0⟩
    table.Keeps (fun m => (m.frames, m.arguments)) ∧
      Relation.TransGen (table.Calls p.sources) 0 0 ∧
      (run table {} 0 (Machine.ofProgram p)).result = .ok [] := by
  intro clear table p
  have hcall : table.Calls p.sources 0 0 :=
    ⟨_, rfl, (Instruction.zipmap.opcode, 0), by decide, rfl, rfl⟩
  refine ⟨?_, .single hcall, by decide⟩
  exact (Table.keeps_standard _).register (fun _ _ _ => rfl) .locals 200

end WordMachine
