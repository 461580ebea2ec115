import WordMachine.Fixtures
import WordMachine.Proofs.Evaluation.Recursion

/-!
# What a run sees of a table

A table may hold more handlers than a run can come to.  A run comes to the pairs of its entry and
of the sources that are called from there, and it sees the table only in where these pairs go.  So
two tables that have the same replacements for the opcodes of these pairs, and where there is no
replacement the same handlers of the operands of `CONTEXT` and `STORAGE` and of the opcodes past
the standard ones, make the same run.

## Main definitions

* `Table.Reaches` — the pairs of the sources that an entry calls
* `Table.AgreesOn` — the same handlers, as far as some pairs can tell
* `Action.Alike` — the same actions, on machines with a given view

## Main results

* `Table.AgreesOn.route_eq` — tables that agree on a pair send it to the same place
* `Evaluation.alike_pair`, `Evaluation.alike_level`, `Evaluation.alike_nested` — one pair, one
  level, and a whole evaluation
* `run_sees_only_reachable_routes` — what is known of two runs
-/

namespace WordMachine

variable {α β γ : Type}

/-! ## Tables that agree -/

/-- The opcodes that are not those of instructions are past the standard ones. -/
theorem Instruction.le_of_ofOpcode?_eq_none {opcode : UInt8} (h : ofOpcode? opcode = none) :
    46 ≤ opcode :=
  List.getElem?_eq_none_iff.mp h

namespace Table

/-- The pair is in the source of the entry, or in one that it calls, directly or through
others. -/
def Reaches (t : Table) (sources : List Source) (entry : Nat) (opcode operand : UInt8) : Prop :=
  ∃ i code, Relation.ReflTransGen (t.Calls sources) entry i ∧ sources[i]? = some code ∧
    (opcode, operand) ∈ pairs code

/-- Two tables have the same handlers, or none, for pairs that occur: the same replacements of
their opcodes, and where an opcode has no replacement the same handlers of `CONTEXT` and of
`STORAGE` for their operands, and of opcodes past the standard ones. -/
structure AgreesOn (t t' : Table) (occurs : UInt8 → UInt8 → Prop) : Prop where
  overrides : ∀ {opcode operand}, occurs opcode operand → t.overrides opcode = t'.overrides opcode
  context : ∀ {operand}, occurs Instruction.context.opcode operand →
    t.overrides Instruction.context.opcode = none → t.context operand = t'.context operand
  storage : ∀ {operand}, occurs Instruction.storage.opcode operand →
    t.overrides Instruction.storage.opcode = none → t.storage operand = t'.storage operand
  locals : ∀ {opcode operand}, occurs opcode operand → t.overrides opcode = none → 46 ≤ opcode →
    t.locals opcode = t'.locals opcode

/-- Tables that agree on a pair send it to the same place. -/
theorem AgreesOn.route_eq {t t' : Table} {occurs : UInt8 → UInt8 → Prop}
    (h : t.AgreesOn t' occurs) {opcode operand : UInt8} (hoccurs : occurs opcode operand) :
    t.route opcode operand = t'.route opcode operand := by
  rw [route, route, ← h.overrides hoccurs]
  cases hoverride : t.overrides opcode with
  | some handler => rfl
  | none =>
      cases hopcode : Instruction.ofOpcode? opcode with
      | none =>
          dsimp only
          rw [h.locals hoccurs hoverride (Instruction.le_of_ofOpcode?_eq_none hopcode)]
      | some instruction =>
          obtain rfl := Placement.opcode_of_ofOpcode?_eq_some hopcode
          cases instruction with
          | context =>
              dsimp only
              rw [h.context hoccurs hoverride]
          | storage =>
              dsimp only
              rw [h.storage hoccurs hoverride]
          | _ => rfl

end Table

/-! ## Actions that do the same -/

namespace Action

/-- Two actions do the same to every machine with a given view. -/
def Alike (view : Machine → γ) (seen : γ) (a b : Action α) : Prop :=
  ∀ m, view m = seen → a m = b m

variable {view : Machine → γ} {seen : γ}

private theorem Alike.refl (a : Action α) : Alike view seen a a := fun _ _ => rfl

/-- Two actions in a row: the first one keeps what the second one needs to see. -/
theorem Alike.bind {first first' : Action α} {next next' : α → Action β}
    (hfirst : Alike view seen first first') (hkeeps : first.Keeps view)
    (hnext : ∀ v, Alike view seen (next v) (next' v)) :
    Alike view seen (first >>= next) (first' >>= next') := by
  intro m hm
  have hsame := hfirst m hm
  have hafter := (hkeeps m).trans hm
  rcases hout : first m with ⟨result, after, events⟩
  rw [hout] at hsame hafter
  cases result with
  | error fault => rw [bind_apply_error hout, bind_apply_error hsame.symm]
  | ok v => rw [bind_apply_ok hout, bind_apply_ok hsame.symm, hnext v after hafter]

section

variable (hview : Machine.StableView view)
variable (hopen : ∀ m values, view (Machine.openFrame m values) = view m)
variable {evaluate evaluate' : Nat → Action Unit} (hkeeps : ∀ i, (evaluate i).Keeps view)
variable {zip : Zip}
variable (h : Alike view seen (evaluate zip.source.toNat) (evaluate' zip.source.toNat))
include hview hopen hkeeps h

private theorem Alike.zipLane (values : List Word) (lane : Nat) :
    Alike view seen (zipLane evaluate zip values lane) (zipLane evaluate' zip values lane) := by
  refine (Alike.refl _).bind (Keeps.look _) fun before => ?_
  refine Alike.bind ?_ (keeps_inFrame hview _ (hkeeps _)) fun _ => .refl _
  intro m hm
  rw [inFrame, inFrame, h _ ((hopen m _).trans hm)]

private theorem Alike.zipLanes (values : List Word) (lanes : List Nat) :
    Alike view seen (zipLanes evaluate zip values lanes)
      (zipLanes evaluate' zip values lanes) := by
  induction lanes with
  | nil => exact .refl _
  | cons lane rest ih =>
      exact (Alike.zipLane hview hopen hkeeps h values lane).bind
        (keeps_zipLane hview hkeeps zip values lane) fun _ => ih

end

/-- `ZIPMAP` does the same if the evaluations of the source that it names do. -/
theorem Alike.zipmap (hview : Machine.StableView view)
    (hopen : ∀ m values, view (Machine.openFrame m values) = view m)
    {evaluate evaluate' : Nat → Action Unit} (hkeeps : ∀ i, (evaluate i).Keeps view)
    {operand : UInt8}
    (h : Alike view seen (evaluate (Zip.decode operand).source.toNat)
      (evaluate' (Zip.decode operand).source.toNat)) :
    Alike view seen (zipmap (some evaluate) operand) (zipmap (some evaluate') operand) := by
  intro m hm
  rw [zipmap_eq_takeZip_bind, zipmap_eq_takeZip_bind]
  refine (Alike.refl _).bind (keeps_takeZip operand hview) (fun values => ?_) m hm
  exact Alike.zipLanes hview hopen hkeeps h values _

end Action

/-! ## Evaluations that do the same -/

namespace Evaluation

open WordMachine.Action (Alike)

variable {view : Machine → γ} {seen : γ} {t t' : Table} {env : Environment}

/-- A pair that goes to the same place does the same, if it does so as a `ZIPMAP`. -/
theorem alike_pair {nested nested' : Option (Nat → Action Unit)} {opcode operand : UInt8}
    (hroute : t.route opcode operand = t'.route opcode operand)
    (hzipmap : t.route opcode operand = .standard .zipmap →
      Alike view seen (Action.zipmap nested operand) (Action.zipmap nested' operand)) :
    Alike view seen (pair t env nested opcode operand) (pair t' env nested' opcode operand) := by
  have hsame : pair t' env nested' opcode operand = pair t env nested' opcode operand := by
    rw [pair, pair, hroute]
  rw [hsame]
  by_cases hzip : t.route opcode operand = .standard .zipmap
  · rw [pair, pair, hzip]
    exact hzipmap hzip
  · rw [pair_eq_of_not_isZipmap (mt Route.isZipmap_iff.mp hzip) env nested nested']
    exact .refl _

section

variable (hview : Machine.StableView view) (htable : t.Keeps view)
include hview htable

private theorem alike_sequence {nested nested' : Option (Nat → Action Unit)}
    (hkeeps : ∀ evaluate, nested = some evaluate → ∀ i, (evaluate i).Keeps view)
    {code : List (UInt8 × UInt8)}
    (hcode : ∀ head ∈ code, Alike view seen (pair t env nested head.1 head.2)
      (pair t' env nested' head.1 head.2)) :
    Alike view seen (sequence t env nested code) (sequence t' env nested' code) := by
  induction code with
  | nil => exact .refl _
  | cons head rest ih =>
      obtain ⟨hhead, hrest⟩ := List.forall_mem_cons.mp hcode
      exact hhead.bind (keeps_pair hview htable env hkeeps head.1 head.2) fun _ => ih hrest

variable (hopen : ∀ m values, view (Machine.openFrame m values) = view m)
variable (Comes : Nat → Prop)
variable (hcomes : ∀ m, view m = seen → ∀ i, Comes i → ∀ code, m.sources[i]? = some code →
  ∀ head ∈ pairs code, t.route head.1 head.2 = t'.route head.1 head.2 ∧
    (t.route head.1 head.2 = .standard .zipmap → Comes (Zip.decode head.2).source.toNat))
include hcomes

/-- One level of an evaluation: a source does the same if every `ZIPMAP` of its pairs does. -/
theorem alike_level {budget index : Nat} (hindex : Comes index)
    (hzipmap : ∀ operand, Comes (Zip.decode operand).source.toNat →
      Alike view seen (Action.zipmap (inner t env budget) operand)
        (Action.zipmap (inner t' env budget) operand)) :
    Alike view seen (nested t env budget index) (nested t' env budget index) := by
  intro m hm
  rw [nested_eq_source, nested_eq_source, source, source, Action.look_bind, Action.look_bind]
  cases hsource : m.sources[index]? with
  | none => rfl
  | some code =>
      dsimp only
      split
      · refine alike_sequence hview htable (keeps_inner hview htable env budget) ?_ m hm
        intro head hhead
        obtain ⟨hroute, hcalls⟩ := hcomes m hm index hindex code hsource head hhead
        exact alike_pair hroute fun hzip => hzipmap _ (hcalls hzip)
      · rfl

include hopen

/-- Evaluations under two tables do the same if they come only to sources of some kind, and the
pairs of such sources go to the same places and call only sources of that kind. -/
theorem alike_nested (budget : Nat) {index : Nat} (hindex : Comes index) :
    Alike view seen (nested t env budget index) (nested t' env budget index) := by
  induction budget generalizing index with
  | zero => exact alike_level hview htable Comes hcomes hindex fun _ _ => .refl _
  | succ budget ih =>
      refine alike_level hview htable Comes hcomes hindex fun operand hoperand => ?_
      exact Alike.zipmap hview hopen (keeps_nested hview htable env budget) (ih hoperand)

end

end Evaluation

/-! ## Runs -/

private theorem run_eq_of_evaluate_eq {t t' : Table} {env : Environment} {entry : Nat} {m : Machine}
    (h : evaluate t env entry m.reset = evaluate t' env entry m.reset) :
    run t env entry m = run t' env entry m := by
  rw [run_eq_evaluate, run_eq_evaluate, h]

/-- If no pair can tell two tables apart, nothing can. -/
theorem run_eq_of_route_eq {t t' : Table}
    (h : ∀ opcode operand, t.route opcode operand = t'.route opcode operand) : run t = run t' := by
  have hview : Machine.StableView fun _ : Machine => () := ⟨fun _ _ => rfl, fun _ _ _ _ => rfl⟩
  have htable : t.Keeps fun _ : Machine => () := by
    constructor <;> exact fun _ _ _ _ => rfl
  funext env entry m
  refine run_eq_of_evaluate_eq (Evaluation.alike_nested hview htable (fun _ _ => rfl)
    (fun _ => True) ?_ _ trivial _ rfl)
  exact fun _ _ _ _ _ _ _ _ => ⟨h _ _, fun _ => trivial⟩

section

variable {t t' : Table} (hkeeps : t.Keeps Machine.sources) {m : Machine} {index : Nat}
variable (h : t.AgreesOn t' (t.Reaches m.sources index))
include hkeeps h

/-- Evaluations go along with each other under tables that agree on what they can come to, if the
handlers leave the sources alone. -/
theorem evaluate_eq_of_agreesOn (env : Environment) :
    evaluate t env index m = evaluate t' env index m := by
  refine Evaluation.alike_nested Machine.stableView_sources hkeeps (fun _ _ => rfl)
    (Relation.ReflTransGen (t.Calls m.sources) index) ?_ _ .refl m rfl
  intro m' hm' i hi code hcode head hhead
  rw [hm'] at hcode
  refine ⟨h.route_eq ⟨i, code, hi, hcode, hhead⟩, fun hzip => hi.tail ?_⟩
  exact ⟨code, hcode, head, hhead, hzip, rfl⟩

private theorem run_eq_of_agreesOn (env : Environment) : run t env index m = run t' env index m :=
  run_eq_of_evaluate_eq (evaluate_eq_of_agreesOn hkeeps (m := m.reset) h env)

end

namespace Table

variable (t : Table) (handler : Handler) (occurs : UInt8 → UInt8 → Prop)

/-- A map with one more handler has what it had at the other keys. -/
theorem put_of_ne {map : UInt8 → Option Handler} {key k : UInt8} (h : k ≠ key) :
    put map key handler k = map k := if_neg h

/-- Nothing can tell that a handler was added under the opcode of an instruction. -/
theorem agreesOn_register_locals {opcode : UInt8} (h : opcode < 46) :
    (t.register .locals opcode handler).AgreesOn t occurs where
  overrides _ := rfl
  context _ _ := rfl
  storage _ _ := rfl
  locals _ _ hle := put_of_ne handler (UInt8.ne_of_lt (UInt8.lt_of_lt_of_le h hle)).symm

/-- Nothing can tell that a handler of `CONTEXT` was added if `CONTEXT` is replaced. -/
theorem agreesOn_register_context (h : t.overrides Instruction.context.opcode ≠ none)
    (operand : UInt8) : (t.register .context operand handler).AgreesOn t occurs where
  overrides _ := rfl
  context _ hnone := absurd hnone h
  storage _ _ := rfl
  locals _ _ _ := rfl

/-- Nothing can tell that a handler of `STORAGE` was added if `STORAGE` is replaced. -/
theorem agreesOn_register_storage (h : t.overrides Instruction.storage.opcode ≠ none)
    (operand : UInt8) : (t.register .storage operand handler).AgreesOn t occurs where
  overrides _ := rfl
  context _ _ := rfl
  storage _ hnone := absurd hnone h
  locals _ _ _ := rfl

/-- Tables that agree on all pairs make the same runs, whatever the handlers do. -/
theorem AgreesOn.run_eq {t t' : Table} (h : t.AgreesOn t' fun _ _ => True) : run t = run t' :=
  run_eq_of_route_eq fun _ _ => h.route_eq trivial

end Table

/-- With handlers that change only the stack, two tables make the same run of a program, down to
its fault, its machine and its events, if they agree on the pairs that the entry can come to.
Whatever the handlers do, no run of any program changes with a handler that is added under the
opcode of an instruction, or one of `CONTEXT` or `STORAGE` where this opcode is replaced. -/
theorem run_sees_only_reachable_routes :
    (∀ {t t' : Table}, t.KeepsRest → ∀ (p : Program) (env : Environment) (entry : Nat),
      t.AgreesOn t' (t.Reaches p.sources entry) →
        run t env entry (Machine.ofProgram p) = run t' env entry (Machine.ofProgram p)) ∧
    ∀ (t : Table) (handler : Handler),
      (∀ opcode < 46, run (t.register .locals opcode handler) = run t) ∧
      (t.overrides Instruction.context.opcode ≠ none →
        ∀ operand, run (t.register .context operand handler) = run t) ∧
      (t.overrides Instruction.storage.opcode ≠ none →
        ∀ operand, run (t.register .storage operand handler) = run t) := by
  refine ⟨?_, fun t handler => ⟨?_, ?_, ?_⟩⟩
  · intro t t' hkeeps p env entry h
    exact run_eq_of_agreesOn (hkeeps.keepsView Machine.stableView_sources) h env
  · exact fun opcode h => (t.agreesOn_register_locals handler _ h).run_eq
  · exact fun h operand => (t.agreesOn_register_context handler _ h operand).run_eq
  · exact fun h operand => (t.agreesOn_register_storage handler _ h operand).run_eq

/-- The first source calls the second, which reads the context; the third source is never
called, so that a replacement of `ADD` and a handler of `STORAGE` do not matter. -/
theorem run_sees_only_reachable_routes_of_two_sources :
    let p : Program := ⟨[[Instruction.constant.opcode, 0, Instruction.zipmap.opcode, 1],
      [Instruction.context.opcode, 0], [Instruction.add.opcode, 2, Instruction.storage.opcode, 0]],
      [Word.one], 0, 0⟩
    let t := Table.standard.register .context 0 (Handler.fixed Word.max)
    let t' := (t.register .override Instruction.add.opcode Handler.double).register .storage 0
      Handler.double
    let replaced := t.register .override Instruction.context.opcode (Handler.fixed Word.zero)
    t.KeepsRest ∧ t.AgreesOn t' (t.Reaches p.sources 0) ∧
    run t {} 0 (Machine.ofProgram p) = run t' {} 0 (Machine.ofProgram p) ∧
    (run t' {} 0 (Machine.ofProgram p)).result = .ok [Word.max] ∧
    replaced.overrides Instruction.context.opcode ≠ none ∧
    run (replaced.register .context 0 Handler.double) = run replaced ∧
    run (replaced.register .locals 3 Handler.double) = run replaced := by
  intro p t t' replaced
  have hkeeps : t.KeepsRest :=
    Table.keepsRest_standard.register (fun _ _ _ => rfl) .context 0
  have hpairs : ∀ i ≤ 1, ∀ code, p.sources[i]? = some code → ∀ head ∈ pairs code,
      (Zip.decode head.2).source.toNat ≤ 1 ∧
        head.1 ≠ Instruction.add.opcode ∧ head.1 ≠ Instruction.storage.opcode := by
    intro i hi code hcode
    obtain rfl | rfl : i = 0 ∨ i = 1 := by omega
    · cases hcode
      refine List.forall_mem_cons.mpr ⟨by decide, List.forall_mem_cons.mpr ⟨by decide, ?_⟩⟩
      exact List.forall_mem_nil _
    · cases hcode
      exact List.forall_mem_cons.mpr ⟨by decide, List.forall_mem_nil _⟩
  have hcalled : ∀ i, Relation.ReflTransGen (t.Calls p.sources) 0 i → i ≤ 1 := by
    intro i hi
    induction hi with
    | refl => exact Nat.zero_le 1
    | tail _ hcall ih =>
        obtain ⟨code, hcode, head, hhead, -, rfl⟩ := hcall
        exact (hpairs _ ih code hcode head hhead).1
  have hreaches : ∀ {opcode operand}, t.Reaches p.sources 0 opcode operand →
      opcode ≠ Instruction.add.opcode ∧ opcode ≠ Instruction.storage.opcode := by
    rintro opcode operand ⟨i, code, hi, hcode, hmem⟩
    exact (hpairs i (hcalled i hi) code hcode _ hmem).2
  have hagrees : t.AgreesOn t' (t.Reaches p.sources 0) := {
    overrides := fun h => (Table.put_of_ne _ (hreaches h).1).symm
    context := fun _ _ => rfl
    storage := fun h => absurd rfl (hreaches h).2
    locals := fun _ _ _ => rfl }
  have hreplaced : replaced.overrides Instruction.context.opcode ≠ none := nofun
  obtain ⟨hsame, hadded⟩ := run_sees_only_reachable_routes
  refine ⟨hkeeps, hagrees, hsame hkeeps p {} 0 hagrees, rfl, hreplaced, ?_, ?_⟩
  · exact (hadded replaced Handler.double).2.1 hreplaced 0
  · exact (hadded replaced Handler.double).1 3 (by decide)

end WordMachine
