import WordMachine.Proofs.Evaluation.Arithmetic
import WordMachine.Proofs.Evaluation.Instructions
import WordMachine.Proofs.Linking.Sequence

/-!
# What combinators compute

A combinator links the programs it is given and lets instructions follow.  The
linked programs leave their values in order, so what follows works on exactly
these values, the first one deepest.  Hence each combinator leaves one value, the
one that it is named for, or the fault of its instruction.

## Main results

* `Combinator.output_of_link_code`, `Combinator.output_followedBy` — instructions after a
  program
* `Combinator.output_reduce` — an instruction over a window of all values
* `combinators_compute_their_functions` — every combinator that makes one value
  from others
-/

namespace WordMachine.Combinator

variable {env : Environment}

/-! ## Instructions after a program -/

/-- The pairs of instructions. -/
def pairsOf (ops : List (Instruction × UInt8)) : List (UInt8 × UInt8) :=
  ops.map fun op => (op.1.opcode, op.2)

theorem pairs_code (ops : List (Instruction × UInt8)) : pairs (code ops) = pairsOf ops := by
  induction ops with
  | nil => rfl
  | cons op rest ih =>
      change (op.1.opcode, op.2) :: pairs (code rest) = (op.1.opcode, op.2) :: pairsOf rest
      rw [ih]

theorem isWhole_code (ops : List (Instruction × UInt8)) : isWhole (code ops) := by
  induction ops with
  | nil => rfl
  | cons op rest ih =>
      change isWhole (op.1.opcode :: op.2 :: code rest)
      rwa [isWhole_cons_cons]

/-- A source made of instructions is evaluated by performing them. -/
theorem evaluated_code {p : Program} {i : Nat} {ops : List (Instruction × UInt8)}
    (h : p.sources[i]? = some (code ops)) (w : Workspace) :
    p.evaluated env i w = p.performed env (pairsOf ops) w := by
  rw [Program.evaluated_eq_performed h (isWhole_code ops), pairs_code]

/-- Code made of instructions names the sources of its `ZIPMAP`s. -/
theorem mem_zipTarget?_code {ops : List (Instruction × UInt8)} {j : Nat}
    (h : j ∈ (pairs (code ops)).filterMap zipTarget?) :
    ∃ operand, (Instruction.zipmap, operand) ∈ ops ∧ (Zip.decode operand).source.toNat = j := by
  rw [pairs_code] at h
  obtain ⟨pair, hpair, htarget⟩ := List.mem_filterMap.mp h
  obtain ⟨op, hop, rfl⟩ := List.mem_map.mp hpair
  obtain ⟨hopcode, hsource⟩ := zipTarget?_eq_some_iff.mp htarget
  have hzipmap : op.1 = .zipmap := Instruction.opcode_inj.mp hopcode
  refine ⟨op.2, ?_, hsource⟩
  rw [← hzipmap]
  exact hop

theorem not_reaches_tail {ops : List (Instruction × UInt8)} (h : ∀ op ∈ ops, op.1 ≠ .zipmap)
    {k : Nat} : ¬ (tail ops).Reaches 0 k := by
  intro hreach
  -- the first step of the chain is a call of the only source
  obtain ⟨j, hcall⟩ : ∃ j, (tail ops).Calls 0 j := by
    induction hreach with
    | single hcall => exact ⟨_, hcall⟩
    | tail _ _ ih => exact ih
  obtain ⟨source, hsource, hmem⟩ := hcall
  cases hsource
  obtain ⟨operand, hop, -⟩ := mem_zipTarget?_code hmem
  exact h _ hop rfl

/-- A program of instructions that is linked behind another one works on the
values which that one leaves.  A fault that is not about nesting stays the same. -/
theorem output_of_link_code {p q combined : Program} (hlink : p.link q = .ok combined)
    {ops : List (Instruction × UInt8)} (hcode : q.sources[0]? = some (code ops))
    (hreach : ∀ k, q.Reaches 0 k → 1 ≤ k ∧ k < q.sources.length) {values : List Word}
    (hp : p.output env = .ok values) {result : Except Fault Workspace}
    (hresult : q.performed env (pairsOf ops) ⟨values, [], []⟩ = result)
    (hsteady : ∀ e, result = .error e → e.isNesting = false) :
    combined.output env = result.map Workspace.stack := by
  have hout := Program.output_of_link hlink hp hreach
  rw [evaluated_code hcode, hresult] at hout
  rw [hout]
  cases result with
  | ok w => rfl
  | error e =>
      change Except.error (Fault.moved _ e) = Except.error e
      rw [Fault.moved_of_isNesting_eq_false _ (hsteady e rfl)]

/-- Instructions after a program work on the values it leaves. -/
theorem output_followedBy {p q : Program} {ops : List (Instruction × UInt8)}
    (hlink : followedBy p ops = .ok q) (hops : ∀ op ∈ ops, op.1 ≠ .zipmap) {values : List Word}
    (hp : p.output env = .ok values) {result : Except Fault Workspace}
    (hresult : (tail ops).performed env (pairsOf ops) ⟨values, [], []⟩ = result)
    (hsteady : ∀ e, result = .error e → e.isNesting = false) :
    q.output env = result.map Workspace.stack :=
  output_of_link_code hlink rfl (fun _ hreach => absurd hreach (not_reaches_tail hops)) hp hresult
    hsteady

private theorem output_followedBy_of_ok {p q : Program} {ops : List (Instruction × UInt8)}
    (hlink : followedBy p ops = .ok q) {values values' : List Word} (hp : p.output env = .ok values)
    (hresult : (tail ops).performed env (pairsOf ops) ⟨values, [], []⟩ = .ok ⟨values', [], []⟩) :
    q.output env = .ok values' := by
  refine Program.output_of_link_eq_ok hlink hp ?_
  rw [evaluated_code rfl, hresult]

/-! ## Windows over all values -/

section

variable {programs : List Program} {values : List Word} {p : Program}

theorem windowOver_eq_ok {instruction : Instruction} {count : Nat} {n : UInt8}
    (h : windowOver instruction count = .ok n) : 0 < count ∧ n.toNat = count := by
  rw [windowOver] at h
  split at h
  · next hcount =>
      cases h
      refine ⟨hcount.1, ?_⟩
      rw [UInt8.toNat_ofNat']
      omega
  · cases h

variable (hruns : List.Forall₂ (fun q v => q.output env = .ok [v]) programs values)
include hruns

/-- An instruction over a window of all values makes one value of them. -/
theorem output_reduce {instruction : Instruction} (hreduce : reduce programs instruction = .ok p)
    (hzipmap : instruction ≠ .zipmap) (f : Word → List Word → Except Fault Word)
    (hperformed : ∀ (q : Program) (first : Word) (rest : List Word) (n : UInt8),
      n.toNat = rest.length + 1 →
      q.performed env [(instruction.opcode, n)] ⟨first :: rest, [], []⟩
        = (f first rest).map fun v => ⟨[v], [], []⟩)
    (hsteady : ∀ first rest e, f first rest = .error e → e.isNesting = false) :
    ∃ first rest, values = first :: rest ∧
      p.output env = (f first rest).map fun v => [v] := by
  obtain ⟨n, hwindow, hreduce⟩ := except_bind_eq_ok hreduce
  obtain ⟨all, hall, hfollowed⟩ := except_bind_eq_ok hreduce
  obtain ⟨hpos, hn⟩ := windowOver_eq_ok hwindow
  have hlength := hruns.length_eq
  match values, hlength with
  | [], hlength =>
      rw [hlength] at hpos
      cases hpos
  | first :: rest, hlength =>
      refine ⟨first, rest, rfl, ?_⟩
      have hn' : n.toNat = rest.length + 1 := hn.trans hlength
      have hops : ∀ op ∈ [(instruction, n)], op.1 ≠ .zipmap := by
        intro op hop
        rw [List.mem_singleton.mp hop]
        exact hzipmap
      have hout := output_followedBy hfollowed hops (Program.output_of_linkAll hruns hall)
        (hperformed _ first rest n hn') fun e he => by
          cases hf : f first rest with
          | ok v =>
              rw [hf] at he
              cases he
          | error e' =>
              rw [hf] at he
              cases he
              exact hsteady first rest e hf
      rw [hout]
      cases f first rest with
      | ok v => rfl
      | error e => rfl

/-- An arithmetic instruction over all values folds them. -/
theorem output_reduce_arithmetic (op : Arithmetic)
    (hreduce : reduce programs op.instruction = .ok p) :
    ∃ first rest, values = first :: rest ∧
      p.output env = (op.fold first rest).map fun v => [v] := by
  have hzipmap : op.instruction ≠ .zipmap := by
    cases op <;> decide
  refine output_reduce hruns hreduce hzipmap op.fold ?_ ?_
  · intro q first rest n hn
    exact Program.performed_arithmetic q env [] [] [] op first rest hn
  · intro first rest e he
    exact Fault.isNesting_of_dependsOnData (Arithmetic.dependsOnData_of_fold_eq_error he)

private theorem output_sum (h : sum programs = .ok p) :
    p.output env = if (values.map Word.toNat).sum < 2 ^ 256 then
        .ok [Word.ofNat (values.map Word.toNat).sum]
      else .error (.arithmeticOverflow "ADD") := by
  obtain ⟨first, rest, rfl, hout⟩ := output_reduce_arithmetic hruns .add h
  rw [hout, Arithmetic.fold_add]
  split <;> rfl

private theorem output_product_of_forall (h : product programs = .ok p)
    (hfits : ∀ k, ((values.map Word.toNat).take k).prod < 2 ^ 256) :
    p.output env = .ok [Word.ofNat (values.map Word.toNat).prod] := by
  obtain ⟨first, rest, rfl, hout⟩ := output_reduce_arithmetic hruns .mul h
  rw [hout, Arithmetic.fold_mul_of_forall first rest hfits]
  rfl

private theorem output_product_of_exists (h : product programs = .ok p)
    (hover : ∃ k, 2 ^ 256 ≤ ((values.map Word.toNat).take k).prod) :
    p.output env = .error (.arithmeticOverflow "MUL") := by
  obtain ⟨first, rest, rfl, hout⟩ := output_reduce_arithmetic hruns .mul h
  rw [hout, Arithmetic.fold_mul_of_exists first rest hover]
  rfl

private theorem output_least (h : least programs = .ok p) :
    ∃ out ∈ values, (∀ v ∈ values, out.toNat ≤ v.toNat) ∧ p.output env = .ok [out] := by
  obtain ⟨first, rest, rfl, hout⟩ := output_reduce_arithmetic hruns .min h
  obtain ⟨out, hmem, hall, hfold⟩ := Arithmetic.fold_min first rest
  refine ⟨out, hmem, hall, ?_⟩
  rw [hout, hfold]
  rfl

private theorem output_greatest (h : greatest programs = .ok p) :
    ∃ out ∈ values, (∀ v ∈ values, v.toNat ≤ out.toNat) ∧ p.output env = .ok [out] := by
  obtain ⟨first, rest, rfl, hout⟩ := output_reduce_arithmetic hruns .max h
  obtain ⟨out, hmem, hall, hfold⟩ := Arithmetic.fold_max first rest
  refine ⟨out, hmem, hall, ?_⟩
  rw [hout, hfold]
  rfl

/-- The conjunction is zero if some value is, else the last value. -/
theorem output_conjunction (h : conjunction programs = .ok p) :
    ∃ out, p.output env = .ok [out] ∧ ((∃ v ∈ values, v.toNat = 0) → out = Word.zero) ∧
      ((∀ v ∈ values, v.toNat ≠ 0) → values.getLast? = some out) := by
  obtain ⟨first, rest, rfl, hout⟩ := output_reduce hruns h (by decide)
    (fun first rest => .ok (Action.lastUnlessZero first rest))
    (fun q first rest n hn => Program.performed_every q env [] [] [] first rest hn)
    (fun first rest e he => by cases he)
  refine ⟨Action.lastUnlessZero first rest, hout, ?_, ?_⟩
  · rintro ⟨v, hv, hzero⟩
    have hany : (first :: rest).any Word.isZero = true :=
      List.any_eq_true.mpr ⟨v, hv, Word.isZero_iff.mpr hzero⟩
    rw [Action.lastUnlessZero, if_pos hany]
  · intro hall
    have hnone : ¬ (first :: rest).any Word.isZero = true := by
      intro hany
      obtain ⟨v, hv, hzero⟩ := List.any_eq_true.mp hany
      exact hall v hv (Word.isZero_iff.mp hzero)
    rw [Action.lastUnlessZero, if_neg hnone, List.getLast?_cons]

/-- The conjunction is zero exactly if some value is. -/
theorem output_conjunction_eq_zero_iff (h : conjunction programs = .ok p) :
    ∃ out, p.output env = .ok [out] ∧ (out.toNat = 0 ↔ ∃ v ∈ values, v.toNat = 0) := by
  obtain ⟨out, hout, hzero, hlast⟩ := output_conjunction hruns h
  refine ⟨out, hout, ?_, ?_⟩
  · intro hout0
    by_contra hnone
    have hall : ∀ v ∈ values, v.toNat ≠ 0 := fun v hv hv0 => hnone ⟨v, hv, hv0⟩
    exact hall out (List.mem_of_getLast? (hlast hall)) hout0
  · intro hsome
    rw [hzero hsome]
    rfl

/-- The disjunction is the first value that is not zero. -/
theorem output_disjunction (h : disjunction programs = .ok p) :
    p.output env = .ok [(values.find? fun v => v.toNat ≠ 0).getD Word.zero] := by
  obtain ⟨first, rest, rfl, hout⟩ := output_reduce hruns h (by decide)
    (fun first rest => .ok (Action.firstNonZero (first :: rest)))
    (fun q first rest n hn => Program.performed_any q env [] [] [] first rest hn)
    (fun first rest e he => by cases he)
  have htest : (fun v : Word => !v.isZero) = fun v => decide (v.toNat ≠ 0) := by
    funext v
    rw [Bool.eq_iff_iff, Bool.not_eq_true', ← Bool.not_eq_true, Word.isZero_iff,
      decide_eq_true_iff]
  rw [hout, Action.firstNonZero, htest]
  rfl

end

/-! ## One and two values -/

theorem ofBool_decide (P : Prop) [Decidable P] :
    Word.ofBool (decide P) = if P then Word.one else Word.zero := by
  simp [Word.ofBool]

private theorem isZero_eq_decide (v : Word) : v.isZero = decide (v.toNat = 0) := by
  rw [Bool.eq_iff_iff, Word.isZero_iff, decide_eq_true_iff]

theorem isZero_ofBool (condition : Bool) : (Word.ofBool condition).isZero = !condition := by
  cases condition <;> rfl

/-- Words that stand for conditions are the same if the conditions are. -/
theorem toNat_ite_eq_iff {P Q : Prop} [Decidable P] [Decidable Q] :
    (if P then Word.one else Word.zero).toNat = (if Q then Word.one else Word.zero).toNat
      ↔ (P ↔ Q) := by
  by_cases hP : P
  · by_cases hQ : Q
    · simp [hP, hQ]
    · simp [hP, hQ]
  · by_cases hQ : Q
    · simp [hP, hQ]
    · simp [hP, hQ]

private theorem holds_equal (x y : Word) :
    Comparison.equal.holds x y = decide (x.toNat = y.toNat) := by
  rw [Comparison.holds, Bool.eq_iff_iff, beq_iff_eq, decide_eq_true_iff, Word.toNat_inj]

private theorem holds_greater (x y : Word) :
    Comparison.greater.holds x y = decide (y.toNat < x.toNat) := by
  rw [Comparison.holds, Bool.eq_iff_iff, Word.blt_iff, decide_eq_true_iff]

private theorem holds_less (x y : Word) :
    Comparison.less.holds x y = decide (x.toNat < y.toNat) := by
  rw [Comparison.holds, Bool.eq_iff_iff, Word.blt_iff, decide_eq_true_iff]

theorem output_negation {p q : Program} (h : negation p = .ok q) {v : Word}
    (hp : p.output env = .ok [v]) :
    q.output env = .ok [if v.toNat = 0 then Word.one else Word.zero] := by
  refine output_followedBy_of_ok h hp ?_
  rw [← ofBool_decide, ← isZero_eq_decide]
  exact Program.performed_isZero _ env [] [] [] v 0

section

variable {a b q : Program} {x y : Word}
variable (ha : a.output env = .ok [x]) (hb : b.output env = .ok [y])
include ha hb

/-- Two programs leave their values for the instructions that follow. -/
theorem output_onPair {ops : List (Instruction × UInt8)} (h : onPair a b ops = .ok q) {z : Word}
    (hresult : (tail ops).performed env (pairsOf ops) ⟨[x, y], [], []⟩ = .ok ⟨[z], [], []⟩) :
    q.output env = .ok [z] := by
  obtain ⟨all, hall, hfollowed⟩ := except_bind_eq_ok h
  rw [Program.linkPair_eq_linkAll] at hall
  have hvalues : all.output env = .ok [x, y] :=
    Program.output_of_linkAll (.cons ha (.cons hb .nil)) hall
  exact output_followedBy_of_ok hfollowed hvalues hresult

private theorem output_equal (h : equal a b = .ok q) :
    q.output env = .ok [if x.toNat = y.toNat then Word.one else Word.zero] := by
  refine output_onPair ha hb h ?_
  rw [← ofBool_decide, ← holds_equal]
  exact Program.performed_comparison _ env [] [] [] .equal x y 0

private theorem output_greater (h : greater a b = .ok q) :
    q.output env = .ok [if y.toNat < x.toNat then Word.one else Word.zero] := by
  refine output_onPair ha hb h ?_
  rw [← ofBool_decide, ← holds_greater]
  exact Program.performed_comparison _ env [] [] [] .greater x y 0

private theorem output_less (h : less a b = .ok q) :
    q.output env = .ok [if x.toNat < y.toNat then Word.one else Word.zero] := by
  refine output_onPair ha hb h ?_
  rw [← ofBool_decide, ← holds_less]
  exact Program.performed_comparison _ env [] [] [] .less x y 0

/-- A comparison and then the test for zero leave the opposite of the
comparison. -/
theorem output_onPair_not (c : Comparison)
    (h : onPair a b [(Program.comparisonInstruction c, 0), (.isZero, 0)] = .ok q) :
    q.output env = .ok [Word.ofBool (!c.holds x y)] := by
  refine output_onPair ha hb h ?_
  have hcompare := Program.performed_comparison (tail [(Program.comparisonInstruction c, 0),
    (.isZero, 0)]) env [] [] [] c x y 0
  have hnegate := Program.performed_isZero (tail [(Program.comparisonInstruction c, 0),
    (.isZero, 0)]) env [] [] [] (Word.ofBool (c.holds x y)) 0
  rw [isZero_ofBool] at hnegate
  exact (Program.performed_cons_of_ok hcompare _).trans hnegate

private theorem output_atLeast (h : atLeast a b = .ok q) :
    q.output env = .ok [if y.toNat ≤ x.toNat then Word.one else Word.zero] := by
  rw [output_onPair_not ha hb .less h, holds_less, ← decide_not, ofBool_decide]
  simp only [Nat.not_lt]

private theorem output_atMost (h : atMost a b = .ok q) :
    q.output env = .ok [if x.toNat ≤ y.toNat then Word.one else Word.zero] := by
  rw [output_onPair_not ha hb .greater h, holds_greater, ← decide_not, ofBool_decide]
  simp only [Nat.not_lt]

theorem output_xnor (h : xnor a b = .ok q) :
    q.output env = .ok [if x.toNat = 0 ↔ y.toNat = 0 then Word.one else Word.zero] := by
  obtain ⟨a', ha', h⟩ := except_bind_eq_ok h
  obtain ⟨b', hb', h⟩ := except_bind_eq_ok h
  rw [output_equal (output_negation ha' ha) (output_negation hb' hb) h]
  simp only [toNat_ite_eq_iff]

private theorem output_xor (h : xor a b = .ok q) :
    q.output env = .ok [if x.toNat = 0 ↔ y.toNat = 0 then Word.zero else Word.one] := by
  obtain ⟨r, hr, h⟩ := except_bind_eq_ok h
  rw [output_negation h (output_xnor ha hb hr)]
  by_cases hsame : x.toNat = 0 ↔ y.toNat = 0
  · rw [if_pos hsame, if_pos hsame]
    rfl
  · rw [if_neg hsame, if_neg hsame]
    rfl

end

theorem output_conditional {condition whenTrue whenFalse q : Program} {c t f : Word}
    (hc : condition.output env = .ok [c]) (ht : whenTrue.output env = .ok [t])
    (hf : whenFalse.output env = .ok [f])
    (h : conditional condition whenTrue whenFalse = .ok q) :
    q.output env = .ok [if c.toNat = 0 then f else t] := by
  obtain ⟨all, hall, hfollowed⟩ := except_bind_eq_ok h
  have hvalues : all.output env = .ok [c, t, f] :=
    Program.output_of_linkAll (.cons hc (.cons ht (.cons hf .nil))) hall
  refine output_followedBy_of_ok hfollowed hvalues ?_
  simp only [← Word.isZero_iff]
  exact Program.performed_eagerIf _ env [] [] [] c t f 0

section

variable {programs : List Program} {values : List Word} {p : Program}
variable (hruns : List.Forall₂ (fun q v => q.output env = .ok [v]) programs values)
include hruns

private theorem output_nand (h : nand programs = .ok p) :
    p.output env = .ok [if ∃ v ∈ values, v.toNat = 0 then Word.one else Word.zero] := by
  obtain ⟨all, hall, h⟩ := except_bind_eq_ok h
  obtain ⟨out, hout, hzero⟩ := output_conjunction_eq_zero_iff hruns hall
  rw [output_negation h hout]
  simp only [hzero]

private theorem output_nor (h : nor programs = .ok p) :
    p.output env = .ok [if ∀ v ∈ values, v.toNat = 0 then Word.one else Word.zero] := by
  obtain ⟨all, hall, h⟩ := except_bind_eq_ok h
  rw [output_negation h (output_disjunction hruns hall)]
  cases hfind : values.find? fun v => v.toNat ≠ 0 with
  | none =>
      have hall : ∀ v ∈ values, v.toNat = 0 := by
        simpa using hfind
      rw [if_pos hall]
      rfl
  | some v =>
      have hne : v.toNat ≠ 0 := by
        simpa using List.find?_some hfind
      have hsome : ¬ ∀ v ∈ values, v.toNat = 0 := fun hall =>
        hne (hall v (List.mem_of_find?_eq_some hfind))
      rw [if_neg hsome, Option.getD_some, if_neg hne]

end

end WordMachine.Combinator

namespace WordMachine

open Combinator in
/-- Every combinator of values computes the function it is named for.  Let the
programs it is given leave one value each when they are run alone.  Then the
combined program leaves one value: the sum, the product, the smallest or the
largest value, the conjunction, the disjunction and their opposites, a comparison,
or the chosen one of two values.  A sum overflows exactly if the exact sum is no
word, and a product exactly if one of its initial products is none. -/
theorem combinators_compute_their_functions (env : Environment) :
    (∀ (programs : List Program) (values : List Word) (p : Program),
      List.Forall₂ (fun q v => q.output env = .ok [v]) programs values →
      (sum programs = .ok p → p.output env
        = if (values.map Word.toNat).sum < 2 ^ 256 then
            .ok [Word.ofNat (values.map Word.toNat).sum]
          else .error (.arithmeticOverflow "ADD")) ∧
      (product programs = .ok p →
        ((∀ k, ((values.map Word.toNat).take k).prod < 2 ^ 256) →
          p.output env = .ok [Word.ofNat (values.map Word.toNat).prod]) ∧
        ((∃ k, 2 ^ 256 ≤ ((values.map Word.toNat).take k).prod) →
          p.output env = .error (.arithmeticOverflow "MUL"))) ∧
      (least programs = .ok p → ∃ out ∈ values, (∀ v ∈ values, out.toNat ≤ v.toNat) ∧
        p.output env = .ok [out]) ∧
      (greatest programs = .ok p → ∃ out ∈ values, (∀ v ∈ values, v.toNat ≤ out.toNat) ∧
        p.output env = .ok [out]) ∧
      (conjunction programs = .ok p → ∃ out, p.output env = .ok [out] ∧
        ((∃ v ∈ values, v.toNat = 0) → out = Word.zero) ∧
        ((∀ v ∈ values, v.toNat ≠ 0) → values.getLast? = some out)) ∧
      (disjunction programs = .ok p →
        p.output env = .ok [(values.find? fun v => v.toNat ≠ 0).getD Word.zero]) ∧
      (nand programs = .ok p →
        p.output env = .ok [if ∃ v ∈ values, v.toNat = 0 then Word.one else Word.zero]) ∧
      (nor programs = .ok p →
        p.output env = .ok [if ∀ v ∈ values, v.toNat = 0 then Word.one else Word.zero])) ∧
    (∀ (a b p : Program) (x y : Word), a.output env = .ok [x] → b.output env = .ok [y] →
      (Combinator.xor a b = .ok p →
        p.output env = .ok [if x.toNat = 0 ↔ y.toNat = 0 then Word.zero else Word.one]) ∧
      (xnor a b = .ok p →
        p.output env = .ok [if x.toNat = 0 ↔ y.toNat = 0 then Word.one else Word.zero]) ∧
      (equal a b = .ok p →
        p.output env = .ok [if x.toNat = y.toNat then Word.one else Word.zero]) ∧
      (greater a b = .ok p →
        p.output env = .ok [if y.toNat < x.toNat then Word.one else Word.zero]) ∧
      (less a b = .ok p →
        p.output env = .ok [if x.toNat < y.toNat then Word.one else Word.zero]) ∧
      (atLeast a b = .ok p →
        p.output env = .ok [if y.toNat ≤ x.toNat then Word.one else Word.zero]) ∧
      (atMost a b = .ok p →
        p.output env = .ok [if x.toNat ≤ y.toNat then Word.one else Word.zero])) ∧
    (∀ (a p : Program) (x : Word), a.output env = .ok [x] → negation a = .ok p →
      p.output env = .ok [if x.toNat = 0 then Word.one else Word.zero]) ∧
    (∀ (condition whenTrue whenFalse p : Program) (c t f : Word),
      condition.output env = .ok [c] → whenTrue.output env = .ok [t] →
      whenFalse.output env = .ok [f] → conditional condition whenTrue whenFalse = .ok p →
      p.output env = .ok [if c.toNat = 0 then f else t]) := by
  refine ⟨?_, ?_, ?_, ?_⟩
  · intro programs values p hruns
    exact ⟨output_sum hruns,
      fun h => ⟨output_product_of_forall hruns h, output_product_of_exists hruns h⟩,
      output_least hruns, output_greatest hruns, output_conjunction hruns,
      output_disjunction hruns, output_nand hruns, output_nor hruns⟩
  · intro a b p x y ha hb
    exact ⟨output_xor ha hb, output_xnor ha hb, output_equal ha hb, output_greater ha hb,
      output_less ha hb, output_atLeast ha hb, output_atMost ha hb⟩
  · intro a p x ha h
    exact output_negation h ha
  · intro condition whenTrue whenFalse p c t f hc ht hf h
    exact output_conditional hc ht hf h

/-- A sum of two programs, one of which evaluates a source of its own, and a
product that is too large. -/
theorem combinators_compute_their_functions_of_two :
    let five := Combinator.value (Word.ofSmall 5)
    let fourteen : Program := ⟨[ Combinator.code [(.constant, 0), (.zipmap, 1)],
      Combinator.code [(.constant, 0x80), (.constant, 0), (.add, 2)] ], [Word.ofSmall 7], 0, 0⟩
    let total : Program := ⟨[ Combinator.code [(.constant, 0), (.constant, 1), (.zipmap, 1),
        (.add, 2)],
      Combinator.code [(.constant, 0x80), (.constant, 1), (.add, 2)] ],
      [Word.ofSmall 5, Word.ofSmall 7], 1, 0⟩
    let largest := Combinator.value Word.max
    let tooLarge : Program := ⟨[Combinator.code [(.constant, 0), (.constant, 1), (.mul, 2)]],
      [Word.max, Word.ofSmall 5], 2, 0⟩
    Combinator.sum [five, fourteen] = .ok total ∧
      total.output {} = .ok [Word.ofSmall 19] ∧
      Combinator.product [largest, five] = .ok tooLarge ∧
      tooLarge.output {} = .error (.arithmeticOverflow "MUL") := by
  intro five fourteen total largest tooLarge
  have hsum : Combinator.sum [five, fourteen] = .ok total := by decide
  have hproduct : Combinator.product [largest, five] = .ok tooLarge := by decide
  have hfive : five.output {} = .ok [Word.ofSmall 5] := by decide
  have hfourteen : fourteen.output {} = .ok [Word.ofSmall 14] := by decide
  have hlargest : largest.output {} = .ok [Word.max] := by decide
  have hlists := (combinators_compute_their_functions {}).1
  refine ⟨hsum, ?_, hproduct, ?_⟩
  · have htotal := (hlists _ _ total (.cons hfive (.cons hfourteen .nil))).1 hsum
    exact htotal.trans (by decide +kernel)
  · have hover := (hlists _ _ tooLarge (.cons hlargest (.cons hfive .nil))).2.1 hproduct
    exact hover.2 ⟨2, by decide +kernel⟩

end WordMachine
