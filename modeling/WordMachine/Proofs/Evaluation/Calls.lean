import WordMachine.Proofs.Evaluation.Placement
import WordMachine.Proofs.Operand

/-!
# Which sources an evaluation reaches

`ZIPMAP` is the only way from one source to another, and code has no branches:
an evaluation that succeeds has gone through every pair of its source, and so
through every source that some pair names.  Each step down uses up one level of
nesting.  Hence a source that reaches itself cannot be evaluated with success,
whatever the machine holds.

## Main definitions

* `zipTarget?`, `Program.Calls`, `Program.Reaches` — the sources that pairs,
  sources and chains of sources name

## Main results

* `Evaluation.nested_of_reaches` — what a successful evaluation reaches has
  succeeded too, with less nesting left
* `Program.reaches_of_evaluated_eq_ok` — a successful evaluation reaches only
  sources that exist, and never its own
-/

namespace WordMachine

/-- The source that a pair names, if it is a `ZIPMAP`. -/
def zipTarget? (pair : UInt8 × UInt8) : Option Nat :=
  if pair.1 = Instruction.zipmap.opcode then some (Zip.decode pair.2).source.toNat else none

theorem zipTarget?_eq_some_iff {pair : UInt8 × UInt8} {j : Nat} :
    zipTarget? pair = some j ↔
      pair.1 = Instruction.zipmap.opcode ∧ (Zip.decode pair.2).source.toNat = j := by
  simp [zipTarget?]

namespace Program

/-- Source `i` exists, and some `ZIPMAP` of it names source `j`. -/
def Calls (p : Program) (i j : Nat) : Prop :=
  ∃ code, p.sources[i]? = some code ∧ j ∈ (pairs code).filterMap zipTarget?

/-- A chain of one or more `ZIPMAP`s leads from source `i` to source `j`. -/
def Reaches (p : Program) : Nat → Nat → Prop := Relation.TransGen p.Calls

/-- The sources that a program names are those that some source calls. -/
theorem mem_zipTargets_iff {p : Program} {j : Nat} : j ∈ p.zipTargets ↔ ∃ i, p.Calls i j := by
  have htargets : p.zipTargets = (p.sources.flatMap pairs).filterMap zipTarget? := rfl
  rw [htargets]
  constructor
  · intro h
    obtain ⟨pair, hpair, htarget⟩ := List.mem_filterMap.mp h
    obtain ⟨code, hcode, hmem⟩ := List.mem_flatMap.mp hpair
    obtain ⟨i, hi⟩ := List.mem_iff_getElem?.mp hcode
    exact ⟨i, code, hi, List.mem_filterMap.mpr ⟨pair, hmem, htarget⟩⟩
  · rintro ⟨i, code, hcode, hmem⟩
    obtain ⟨pair, hpair, htarget⟩ := List.mem_filterMap.mp hmem
    exact List.mem_filterMap.mpr ⟨pair,
      List.mem_flatMap.mpr ⟨code, List.mem_of_getElem? hcode, hpair⟩, htarget⟩

end Program

namespace Action

/-- A successful `ZIPMAP` has evaluated its source, one level further down. -/
theorem evaluated_of_zipmap_ok {nested : Option (Nat → Action Unit)} {operand : UInt8}
    {m : Machine} (h : (zipmap nested operand m).result = .ok ()) :
    ∃ evaluate m', nested = some evaluate ∧ m'.sources = m.sources ∧
      (Zip.decode operand).source.toNat < m.sources.length ∧
      (evaluate (Zip.decode operand).source.toNat m').result = .ok () := by
  cases nested with
  | none =>
      rw [zipmap_none_apply] at h
      cases h
  | some evaluate =>
      rw [zipmap_apply] at h
      split at h
      · cases h
      · split at h
        · cases h
        · next hsource =>
            obtain ⟨values, hvalues, hlanes⟩ := bind_result_eq_ok h
            -- there is at least one lane, and its evaluation came first
            obtain ⟨more, hmore⟩ := (Zip.decode operand).exists_range_lanes
            rw [hmore, zipLanes] at hlanes
            obtain ⟨_, hlane, -⟩ := bind_result_eq_ok hlanes
            rw [(zipLane_eq_inFrame evaluate _ values 0 _).1] at hlane
            refine ⟨evaluate, _, rfl, ?_, Nat.not_le.mp hsource, hlane⟩
            rw [(TakesTop.popMany _).stackLocal.keeps m]
            rfl

end Action

namespace Evaluation

variable {env : Environment} {budget : Nat}

/-- A successful evaluation of code has evaluated every source that it names,
with one level of nesting less. -/
theorem nested_of_sequence_ok {code : List (UInt8 × UInt8)} {m : Machine}
    (h : (sequence Table.standard env (inner Table.standard env budget) code m).result
      = .ok ()) {j : Nat} (hj : j ∈ code.filterMap zipTarget?) :
    j < m.sources.length ∧ ∃ budget' m', budget = budget' + 1 ∧ m'.sources = m.sources ∧
      (nested Table.standard env budget' j m').result = .ok () := by
  induction code generalizing m with
  | nil => cases hj
  | cons head rest ih =>
      obtain ⟨_, hhead, hrest⟩ := Action.bind_result_eq_ok h
      obtain ⟨pair, hpair, htarget⟩ := List.mem_filterMap.mp hj
      rcases List.mem_cons.mp hpair with rfl | hmem
      · obtain ⟨hopcode, rfl⟩ := zipTarget?_eq_some_iff.mp htarget
        rw [hopcode] at hhead
        obtain ⟨evaluate, m', hsome, hsources, hlt, hok⟩ := Action.evaluated_of_zipmap_ok hhead
        cases budget with
        | zero => cases hsome
        | succ budget' =>
            cases hsome
            exact ⟨hlt, budget', m', rfl, hsources, hok⟩
      · have hkeeps := keepsRest_pair Table.keepsRest_standard env
          (keepsRest_inner Table.keepsRest_standard env budget) head.1 head.2 m
        have hrec := ih hrest (List.mem_filterMap.mpr ⟨pair, hmem, htarget⟩)
        rw [hkeeps] at hrec
        exact hrec

/-- A successful evaluation of a source has gone through all its pairs. -/
theorem sequence_of_nested_ok {table : Table} {i : Nat} {m : Machine}
    (h : (nested table env budget i m).result = .ok ()) :
    ∃ code, m.sources[i]? = some code ∧ isWhole code ∧
      (sequence table env (inner table env budget) (pairs code) m).result = .ok () := by
  rw [nested_eq_source, source, Action.look_bind] at h
  cases hcode : m.sources[i]? with
  | none =>
      rw [hcode] at h
      cases h
  | some code =>
      rw [hcode] at h
      dsimp only at h
      split at h
      · next hwhole => exact ⟨code, rfl, hwhole, h⟩
      · cases h

/-- Whatever a successful evaluation reaches has succeeded as well, with less
nesting left. -/
theorem nested_of_reaches {p : Program} {i j : Nat} {m : Machine}
    (h : (nested Table.standard env budget i m).result = .ok ())
    (hsources : m.sources = p.sources) (hreaches : p.Reaches i j) :
    j < p.sources.length ∧ ∃ budget' m', budget' < budget ∧ m'.sources = p.sources ∧
      (nested Table.standard env budget' j m').result = .ok () := by
  -- one call, from any evaluation that succeeded
  have hcall : ∀ {budget i k m}, (nested Table.standard env budget i m).result = .ok () →
      m.sources = p.sources → p.Calls i k →
      k < p.sources.length ∧ ∃ budget' m', budget' < budget ∧ m'.sources = p.sources ∧
        (nested Table.standard env budget' k m').result = .ok () := by
    rintro budget i k m hok hm ⟨code, hcode, hmem⟩
    obtain ⟨code', hcode', -, hsequence⟩ := sequence_of_nested_ok hok
    rw [hm, hcode] at hcode'
    cases hcode'
    obtain ⟨hlt, budget', m', rfl, hm', hok'⟩ := nested_of_sequence_ok hsequence hmem
    rw [hm] at hlt hm'
    exact ⟨hlt, budget', m', Nat.lt_succ_self _, hm', hok'⟩
  induction hreaches with
  | single hstep => exact hcall h hsources hstep
  | tail _ hstep ih =>
      obtain ⟨-, budget', m', hless, hm', hok'⟩ := ih
      obtain ⟨hlt, budget'', m'', hless', hm'', hok''⟩ := hcall hok' hm' hstep
      exact ⟨hlt, budget'', m'', Nat.lt_trans hless' hless, hm'', hok''⟩

/-- A source that reaches itself is never evaluated with success. -/
theorem not_reaches_self {p : Program} {i : Nat} {m : Machine}
    (h : (nested Table.standard env budget i m).result = .ok ())
    (hsources : m.sources = p.sources) : ¬ p.Reaches i i := by
  intro hcycle
  induction budget using Nat.strongRecOn generalizing m with
  | ind budget ih =>
      obtain ⟨-, budget', m', hless, hm', hok'⟩ := nested_of_reaches h hsources hcycle
      exact ih budget' hless hok' hm'

end Evaluation

namespace Program

variable {p : Program} {env : Environment} {i j : Nat} {w w' : Workspace}

private theorem nested_ok_of_evaluated_eq_ok (h : p.evaluated env i w = .ok w') :
    (Evaluation.nested Table.standard env (maxDepth - w.depth) i (p.machine w)).result
      = .ok () := by
  change (Evaluation.nested Table.standard env (maxDepth - w.depth) i
    (p.machine w)).ending = .ok w' at h
  cases hresult : (Evaluation.nested Table.standard env (maxDepth - w.depth) i
      (p.machine w)).result with
  | ok v => rfl
  | error e =>
      rw [Outcome.ending, hresult] at h
      cases h

/-- Only a source that exists and is whole is evaluated with success. -/
theorem source_of_evaluated_eq_ok (h : p.evaluated env i w = .ok w') :
    ∃ code, p.sources[i]? = some code ∧ isWhole code := by
  obtain ⟨code, hcode, hwhole, -⟩ :=
    Evaluation.sequence_of_nested_ok (nested_ok_of_evaluated_eq_ok h)
  exact ⟨code, hcode, hwhole⟩

/-- A successful evaluation reaches only sources that exist, and never the one
that is evaluated. -/
theorem reaches_of_evaluated_eq_ok (h : p.evaluated env i w = .ok w')
    (hreaches : p.Reaches i j) : j < p.sources.length ∧ j ≠ i := by
  have hok := nested_ok_of_evaluated_eq_ok h
  refine ⟨(Evaluation.nested_of_reaches hok rfl hreaches).1, ?_⟩
  rintro rfl
  exact Evaluation.not_reaches_self hok rfl hreaches

end Program

end WordMachine
