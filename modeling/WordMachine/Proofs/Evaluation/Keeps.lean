import WordMachine.Proofs.Evaluation.StackLocal

/-!
# What evaluations leave alone

The standard instructions change nothing but the stack, and `ZIPMAP` closes every frame
that it opens, also after a fault.  So an evaluation keeps everything of a machine that
the handlers of its table keep.  This is stated for any view of a machine that the stack
does not enter and that closing a frame brings back: the open frames, the sources, or all
that is not the stack.

## Main definitions

* `Action.Keeps`, `Table.Keeps` — actions and handlers that leave a view as it was
* `Machine.StableView` — the views that evaluations can keep
* `Evaluation.inner` — the evaluation that `ZIPMAP` is given

## Main results

* `Evaluation.keeps_nested` — an evaluation keeps what the handlers keep
* `Evaluation.keepsRest_nested` — an evaluation changes only the stack
-/

namespace WordMachine

variable {α β γ : Type}

/-- A view of machines that does not see the stack, and for which closing a frame undoes
opening one, whatever was done to the stack in between. -/
structure Machine.StableView (view : Machine → γ) : Prop where
  stack : ∀ m stack, view { m with stack := stack } = view m
  frame : ∀ m m' values, view m' = view (m.openFrame values) → view m'.closeFrame = view m

namespace Action

/-- The action leaves a view of the machine as it was, also when it ends in a fault. -/
def Keeps (view : Machine → γ) (a : Action α) : Prop := ∀ m, view (a m).machine = view m

namespace Keeps

variable {view : Machine → γ}

private theorem of_machine_eq {a : Action α} (h : ∀ m, (a m).machine = m) : a.Keeps view := by
  intro m
  rw [h m]

theorem look (seen : Machine → α) : (look seen).Keeps view := of_machine_eq fun _ => rfl

private theorem bind {first : Action α} {next : α → Action β} (hfirst : first.Keeps view)
    (hnext : ∀ v, (next v).Keeps view) : (first >>= next).Keeps view := by
  intro m
  cases h : (first m).result with
  | error e =>
      rw [bind_error h]
      exact hfirst m
  | ok v => rw [bind_machine_ok h, hnext v, hfirst m]

end Keeps

theorem KeepsRest.keeps {view : Machine → γ} {a : Action α} (h : a.KeepsRest)
    (hview : Machine.StableView view) : a.Keeps view := by
  intro m
  rw [h m]
  exact hview.stack m _

/-! ## Instructions -/

theorem KeepsRest.look (view : Machine → α) : (look view).KeepsRest :=
  .of_machine_eq fun _ => rfl

private theorem KeepsRest.ofExcept (x : Except Fault α) : (ofExcept x).KeepsRest := by
  cases x <;> exact .of_machine_eq fun _ => rfl

theorem keepsRest_fetchConstant (operand : UInt8) : (fetchConstant operand).KeepsRest :=
  (KeepsRest.look _).bind fun _ => (KeepsRest.ofExcept _).bind fun _ => fun _ => rfl

theorem keepsRest_copyStack (operand : UInt8) : (copyStack operand).KeepsRest :=
  (KeepsRest.look _).bind fun _ => (KeepsRest.ofExcept _).bind fun _ => fun _ => rfl

section

variable {view : Machine → γ} (hview : Machine.StableView view)
include hview

/-- A frame that was opened for an action is closed after it. -/
theorem keeps_inFrame {body : Action Unit} (values : List Word) (h : body.Keeps view) :
    (inFrame values body).Keeps view := by
  intro m
  exact hview.frame m _ values (h (m.openFrame values))

section

variable {evaluate : Nat → Action Unit} (h : ∀ i, (evaluate i).Keeps view)
include h

theorem keeps_zipLane (zip : Zip) (values : List Word) (lane : Nat) :
    (zipLane evaluate zip values lane).Keeps view := by
  refine (Keeps.look _).bind fun before => (keeps_inFrame hview _ (h _)).bind fun _ =>
    (Keeps.look _).bind fun after => ?_
  split
  · exact .of_machine_eq fun _ => rfl
  · exact .of_machine_eq fun _ => rfl

private theorem keeps_zipLanes (zip : Zip) (values : List Word) (lanes : List Nat) :
    (zipLanes evaluate zip values lanes).Keeps view := by
  induction lanes with
  | nil => exact .of_machine_eq fun _ => rfl
  | cons lane rest ih => exact (keeps_zipLane hview h zip values lane).bind fun _ => ih

end

variable {nested : Option (Nat → Action Unit)}
variable (h : ∀ evaluate, nested = some evaluate → ∀ i, (evaluate i).Keeps view)
include h

private theorem keeps_zipmap (operand : UInt8) : (zipmap nested operand).Keeps view := by
  refine (Keeps.look _).bind fun depth => ?_
  cases nested with
  | none => exact .of_machine_eq fun _ => rfl
  | some evaluate =>
      dsimp only
      split
      · exact .of_machine_eq fun _ => rfl
      · refine (Keeps.look _).bind fun available => ?_
        split
        · exact .of_machine_eq fun _ => rfl
        · exact ((TakesTop.popMany _).stackLocal.keeps.keeps hview).bind fun values =>
            keeps_zipLanes hview (h evaluate rfl) _ values _

private theorem keeps_execute (env : Environment) (instruction : Instruction) (operand : UInt8) :
    (execute env nested instruction operand).Keeps view := by
  by_cases hconstant : instruction = .constant
  · subst hconstant
    exact (keepsRest_fetchConstant operand).keeps hview
  · by_cases hstack : instruction = .stack
    · subst hstack
      exact (keepsRest_copyStack operand).keeps hview
    · by_cases hzipmap : instruction = .zipmap
      · subst hzipmap
        exact keeps_zipmap hview h operand
      · exact (stackLocal_execute env nested operand hconstant hstack hzipmap).keeps.keeps hview

end

end Action

/-! ## Evaluations -/

/-- Every handler of the table leaves a view of the machine as it was. -/
structure Table.Keeps (view : Machine → γ) (t : Table) : Prop where
  overrides : ∀ {key handler}, t.overrides key = some handler →
    ∀ operand env, (handler operand env).Keeps view
  context : ∀ {key handler}, t.context key = some handler →
    ∀ operand env, (handler operand env).Keeps view
  storage : ∀ {key handler}, t.storage key = some handler →
    ∀ operand env, (handler operand env).Keeps view
  locals : ∀ {key handler}, t.locals key = some handler →
    ∀ operand env, (handler operand env).Keeps view

theorem Table.keeps_standard (view : Machine → γ) : Table.standard.Keeps view := by
  constructor <;> intro key handler h <;> cases h

/-- A table goes on keeping a view when a handler is added that keeps it. -/
theorem Table.Keeps.register {view : Machine → γ} {t : Table} (h : t.Keeps view)
    {handler : Handler} (hhandler : ∀ operand env, (handler operand env).Keeps view)
    (part : TablePart) (key : UInt8) : (t.register part key handler).Keeps view := by
  have hput : ∀ {map : UInt8 → Option Handler},
      (∀ {k other}, map k = some other → ∀ operand env, (other operand env).Keeps view) →
      ∀ {k other}, put map key handler k = some other →
        ∀ operand env, (other operand env).Keeps view := by
    intro map hmap k other hother
    unfold put at hother
    split at hother
    · cases hother
      exact hhandler
    · exact hmap hother
  cases part with
  | override => exact { h with overrides := hput h.overrides }
  | context => exact { h with context := hput h.context }
  | storage => exact { h with storage := hput h.storage }
  | locals => exact { h with locals := hput h.locals }

namespace Evaluation

/-- The evaluation that `ZIPMAP` is given while `budget` levels are left. -/
def inner (table : Table) (env : Environment) : Nat → Option (Nat → Action Unit)
  | 0 => none
  | budget + 1 => some (nested table env budget)

theorem nested_eq_source (table : Table) (env : Environment) (budget : Nat) :
    nested table env budget = source table env (inner table env budget) := by
  cases budget <;> rfl

section

variable {view : Machine → γ} (hview : Machine.StableView view)
variable {table : Table} (htable : table.Keeps view) (env : Environment)
include hview htable

section

variable {nested : Option (Nat → Action Unit)}
variable (h : ∀ evaluate, nested = some evaluate → ∀ i, (evaluate i).Keeps view)
include h

theorem keeps_pair (opcode operand : UInt8) :
    (pair table env nested opcode operand).Keeps view := by
  simp only [pair, Table.route]
  cases hover : table.overrides opcode with
  | some handler => exact htable.overrides hover operand env
  | none =>
      cases Instruction.ofOpcode? opcode with
      | none =>
          cases hlocals : table.locals opcode with
          | none => exact .of_machine_eq fun _ => rfl
          | some handler => exact htable.locals hlocals operand env
      | some instruction =>
          by_cases hcontext : instruction = .context
          · subst hcontext
            cases hkey : table.context operand with
            | none => exact .of_machine_eq fun _ => by simp [Action.fail]
            | some handler =>
                simpa [hkey] using htable.context hkey operand env
          · by_cases hstorage : instruction = .storage
            · subst hstorage
              cases hkey : table.storage operand with
              | none => exact .of_machine_eq fun _ => by simp [Action.fail]
              | some handler =>
                  simpa [hkey] using htable.storage hkey operand env
            · simpa [hcontext, hstorage] using
                Action.keeps_execute hview h env instruction operand

private theorem keeps_sequence (code : List (UInt8 × UInt8)) :
    (sequence table env nested code).Keeps view := by
  induction code with
  | nil => exact .of_machine_eq fun _ => rfl
  | cons head rest ih => exact (keeps_pair hview htable env h head.1 head.2).bind fun _ => ih

private theorem keeps_source (index : Nat) : (source table env nested index).Keeps view := by
  refine (Action.Keeps.look _).bind fun sources => ?_
  split
  · exact .of_machine_eq fun _ => rfl
  · split
    · exact keeps_sequence hview htable env h _
    · exact .of_machine_eq fun _ => rfl

end

/-- An evaluation keeps what the handlers keep, at any nesting and also when it ends in a
fault. -/
theorem keeps_nested (budget index : Nat) : (nested table env budget index).Keeps view := by
  induction budget generalizing index with
  | zero =>
      refine keeps_source hview htable env ?_ index
      intro evaluate h
      cases h
  | succ budget ih =>
      refine keeps_source hview htable env ?_ index
      intro evaluate h
      cases h
      exact ih

theorem keeps_inner (budget : Nat) :
    ∀ evaluate, inner table env budget = some evaluate → ∀ i, (evaluate i).Keeps view := by
  intro evaluate h
  cases budget with
  | zero => cases h
  | succ budget =>
      cases h
      exact keeps_nested hview htable env budget

end

end Evaluation

/-! ## Everything but the stack -/

/-- The machine with nothing on its stack. -/
def Machine.unstacked (m : Machine) : Machine := { m with stack := [] }

theorem Machine.stableView_unstacked : StableView unstacked where
  stack _ _ := rfl
  frame m m' values h := by
    have harguments : m'.arguments = m.arguments ++ values := congrArg Machine.arguments h
    have hframes : m'.frames = m.arguments.length :: m.frames := congrArg Machine.frames h
    unfold closeFrame
    rw [hframes]
    simp only [unstacked, harguments, List.take_left]
    simp only [unstacked, openFrame, Machine.mk.injEq] at h
    simp [h]

/-- Every handler of the table leaves everything but the stack alone. -/
structure Table.KeepsRest (t : Table) : Prop where
  overrides : ∀ {key handler}, t.overrides key = some handler →
    ∀ operand env, (handler operand env).KeepsRest
  context : ∀ {key handler}, t.context key = some handler →
    ∀ operand env, (handler operand env).KeepsRest
  storage : ∀ {key handler}, t.storage key = some handler →
    ∀ operand env, (handler operand env).KeepsRest
  locals : ∀ {key handler}, t.locals key = some handler →
    ∀ operand env, (handler operand env).KeepsRest

theorem Table.keepsRest_standard : Table.standard.KeepsRest := by
  constructor <;> intro key handler h <;> cases h

namespace Action

open Machine (stableView_unstacked)

theorem keepsRest_iff_keeps {a : Action α} : a.KeepsRest ↔ a.Keeps Machine.unstacked := by
  constructor
  · intro h
    exact h.keeps stableView_unstacked
  · intro h m
    have hm := h m
    simp only [Machine.unstacked, Machine.mk.injEq] at hm
    ext <;> simp [hm]

theorem KeepsRest.inFrame {body : Action Unit} (values : List Word) (h : body.KeepsRest) :
    (inFrame values body).KeepsRest := by
  rw [keepsRest_iff_keeps] at h ⊢
  exact keeps_inFrame stableView_unstacked values h

theorem keepsRest_zipLane {evaluate : Nat → Action Unit} (zip : Zip) (values : List Word)
    (lane : Nat) (h : ∀ i, (evaluate i).KeepsRest) :
    (zipLane evaluate zip values lane).KeepsRest := by
  simp only [keepsRest_iff_keeps] at h ⊢
  exact keeps_zipLane stableView_unstacked h zip values lane

theorem keepsRest_zipmap {nested : Option (Nat → Action Unit)} (operand : UInt8)
    (h : ∀ evaluate, nested = some evaluate → ∀ i, (evaluate i).KeepsRest) :
    (zipmap nested operand).KeepsRest := by
  simp only [keepsRest_iff_keeps] at h ⊢
  exact keeps_zipmap stableView_unstacked h operand

end Action

/-- Handlers that change only the stack keep every view that evaluations can keep. -/
theorem Table.KeepsRest.keepsView {view : Machine → γ} {t : Table} (h : t.KeepsRest)
    (hview : Machine.StableView view) : t.Keeps view where
  overrides hkey operand env := (h.overrides hkey operand env).keeps hview
  context hkey operand env := (h.context hkey operand env).keeps hview
  storage hkey operand env := (h.storage hkey operand env).keeps hview
  locals hkey operand env := (h.locals hkey operand env).keeps hview

theorem Table.KeepsRest.keeps {t : Table} (h : t.KeepsRest) : t.Keeps Machine.unstacked :=
  h.keepsView Machine.stableView_unstacked

private theorem Table.Keeps.keepsRest {t : Table} (h : t.Keeps Machine.unstacked) :
    t.KeepsRest where
  overrides hkey operand env := Action.keepsRest_iff_keeps.mpr (h.overrides hkey operand env)
  context hkey operand env := Action.keepsRest_iff_keeps.mpr (h.context hkey operand env)
  storage hkey operand env := Action.keepsRest_iff_keeps.mpr (h.storage hkey operand env)
  locals hkey operand env := Action.keepsRest_iff_keeps.mpr (h.locals hkey operand env)

/-- A table goes on changing only the stack when a handler is added that does no more. -/
theorem Table.KeepsRest.register {t : Table} (h : t.KeepsRest) {handler : Handler}
    (hhandler : ∀ operand env, (handler operand env).KeepsRest) (part : TablePart) (key : UInt8) :
    (t.register part key handler).KeepsRest := by
  have hkeeps : ∀ operand env, (handler operand env).Keeps Machine.unstacked :=
    fun operand env => Action.keepsRest_iff_keeps.mp (hhandler operand env)
  exact (h.keeps.register hkeeps part key).keepsRest

namespace Evaluation

open Machine (stableView_unstacked)

variable {table : Table} (htable : table.KeepsRest) (env : Environment)
include htable

section

variable {nested : Option (Nat → Action Unit)}
variable (h : ∀ evaluate, nested = some evaluate → ∀ i, (evaluate i).KeepsRest)
include h

theorem keepsRest_pair (opcode operand : UInt8) :
    (pair table env nested opcode operand).KeepsRest := by
  simp only [Action.keepsRest_iff_keeps] at h ⊢
  exact keeps_pair stableView_unstacked htable.keeps env h opcode operand

theorem keepsRest_sequence (code : List (UInt8 × UInt8)) :
    (sequence table env nested code).KeepsRest := by
  simp only [Action.keepsRest_iff_keeps] at h ⊢
  exact keeps_sequence stableView_unstacked htable.keeps env h code

theorem keepsRest_source (index : Nat) : (source table env nested index).KeepsRest := by
  simp only [Action.keepsRest_iff_keeps] at h ⊢
  exact keeps_source stableView_unstacked htable.keeps env h index

end

/-- An evaluation changes only the stack, at any nesting and also when it ends
in a fault. -/
theorem keepsRest_nested (budget index : Nat) : (nested table env budget index).KeepsRest :=
  Action.keepsRest_iff_keeps.mpr
    (keeps_nested stableView_unstacked htable.keeps env budget index)

theorem keepsRest_inner (budget : Nat) :
    ∀ evaluate, inner table env budget = some evaluate → ∀ i, (evaluate i).KeepsRest := by
  intro evaluate hevaluate i
  rw [Action.keepsRest_iff_keeps]
  exact keeps_inner stableView_unstacked htable.keeps env budget evaluate hevaluate i

end Evaluation

end WordMachine
