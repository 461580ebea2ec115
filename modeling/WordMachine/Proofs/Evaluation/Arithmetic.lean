import Mathlib.Algebra.BigOperators.Group.List.Basic
import WordMachine.Machine.Arithmetic
import WordMachine.Proofs.Word.Limbs
import WordMachine.Proofs.Word.Power

/-!
# Folding arithmetic over windows

An arithmetic instruction folds its window from the deepest value upward.  The
intermediate results are words, so a fold has a result exactly as long as each
of its steps has one.  One lemma says what a step makes of two numbers, and by
induction a fold makes of a window what a fold over exact numbers makes of it.

A sum only grows, and it is enough to look at the last one; a product or a power
may grow too large and come down again, so all initial ones count.  A result that
was stopped at the largest word stays there until a factor is zero, as the exact
product does.

## Main definitions

* `Arithmetic.Allows`, `Arithmetic.combine`, `Arithmetic.fault` — one step in exact numbers
* `Arithmetic.HasResult`, `Arithmetic.closedForm` — a whole fold in exact numbers

## Main results

* `Arithmetic.step_of_allows`, `Arithmetic.step_of_not_allows` — single steps
* `Arithmetic.fold_of_hasResult`, `Arithmetic.fold_of_not_hasResult` — whole folds
* `Arithmetic.fold_add`, `Arithmetic.fold_mul_of_forall`, `Arithmetic.fold_mul_of_exists` —
  sums and products
* `Arithmetic.fold_min`, `Arithmetic.fold_max` — the smallest and the largest value
-/

namespace WordMachine.Arithmetic

/-! ## Single steps -/

private theorem step_add (acc value : Word) :
    Arithmetic.add.step acc value
      = if acc.toNat + value.toNat < 2 ^ 256 then
          .ok (Word.ofNat (acc.toNat + value.toNat))
        else .error (.arithmeticOverflow "ADD") := by
  rw [step, Word.add?_eq]
  split <;> rfl

theorem step_sub (acc value : Word) :
    Arithmetic.sub.step acc value
      = if value.toNat ≤ acc.toNat then .ok (Word.ofNat (acc.toNat - value.toNat))
        else .error (.negativeResult "SUB") := by
  rw [step, Word.sub?_eq]
  split <;> rfl

theorem step_mul (acc value : Word) :
    Arithmetic.mul.step acc value
      = if acc.toNat * value.toNat < 2 ^ 256 then
          .ok (Word.ofNat (acc.toNat * value.toNat))
        else .error (.arithmeticOverflow "MUL") := by
  rw [step, Word.mul?_eq]
  split <;> rfl

theorem step_div (acc value : Word) :
    Arithmetic.div.step acc value
      = if value.toNat = 0 then .error (.divisionByZero "DIV")
        else .ok (Word.ofNat (acc.toNat / value.toNat)) := by
  rw [step, Word.div?_eq]
  split <;> rfl

private theorem step_mod (acc value : Word) :
    Arithmetic.mod.step acc value
      = if value.toNat = 0 then .error (.divisionByZero "MOD")
        else .ok (Word.ofNat (acc.toNat % value.toNat)) := by
  rw [step, Word.mod?_eq]
  split <;> rfl

private theorem step_exp (acc value : Word) :
    Arithmetic.exp.step acc value
      = if acc.toNat ^ value.toNat < 2 ^ 256 then
          .ok (Word.ofNat (acc.toNat ^ value.toNat))
        else .error (.arithmeticOverflow "EXP") := by
  rw [step, Word.pow?_eq]
  split <;> rfl

/-! ## Single steps in exact numbers -/

/-- A step on exact numbers has a result. -/
def Allows : Arithmetic → Nat → Nat → Prop
  | .add, acc, value => acc + value < 2 ^ 256
  | .sub, acc, value => value ≤ acc
  | .mul, acc, value => acc * value < 2 ^ 256
  | .div, _, value => value ≠ 0
  | .mod, _, value => value ≠ 0
  | .exp, acc, value => acc ^ value < 2 ^ 256
  | _, _, _ => True

/-- The result of a step on exact numbers, where there is one. -/
def combine : Arithmetic → Nat → Nat → Nat
  | .add, acc, value => acc + value
  | .sub, acc, value => acc - value
  | .mul, acc, value => acc * value
  | .div, acc, value => acc / value
  | .mod, acc, value => acc % value
  | .exp, acc, value => acc ^ value
  | .min, acc, value => Min.min acc value
  | .max, acc, value => Max.max acc value
  | .saturatingAdd, acc, value => Min.min (acc + value) (2 ^ 256 - 1)
  | .saturatingSub, acc, value => acc - value
  | .saturatingMul, acc, value => Min.min (acc * value) (2 ^ 256 - 1)

/-- The fault of a step without a result.  The operations that take the smaller or the larger
value, and those that stop at the nearest word, have no such step. -/
def fault (op : Arithmetic) : Fault :=
  match op with
  | .sub => .negativeResult op.name
  | .div | .mod => .divisionByZero op.name
  | _ => .arithmeticOverflow op.name

variable {op : Arithmetic}

theorem step_of_allows {acc value : Word} (h : op.Allows acc.toNat value.toNat) :
    ∃ next, op.step acc value = .ok next ∧ next.toNat = op.combine acc.toNat value.toNat := by
  have hacc := acc.toNat_lt
  cases op with
  | add => exact ⟨_, (step_add acc value).trans (if_pos h), Word.toNat_ofNat_of_lt h⟩
  | sub =>
      have hlt : acc.toNat - value.toNat < 2 ^ 256 := by omega
      exact ⟨_, (step_sub acc value).trans (if_pos h), Word.toNat_ofNat_of_lt hlt⟩
  | mul => exact ⟨_, (step_mul acc value).trans (if_pos h), Word.toNat_ofNat_of_lt h⟩
  | div =>
      have hlt := Nat.lt_of_le_of_lt (Nat.div_le_self acc.toNat value.toNat) hacc
      exact ⟨_, (step_div acc value).trans (if_neg h), Word.toNat_ofNat_of_lt hlt⟩
  | mod =>
      have hlt := Nat.lt_of_le_of_lt (Nat.mod_le acc.toNat value.toNat) hacc
      exact ⟨_, (step_mod acc value).trans (if_neg h), Word.toNat_ofNat_of_lt hlt⟩
  | exp => exact ⟨_, (step_exp acc value).trans (if_pos h), Word.toNat_ofNat_of_lt h⟩
  | min => exact ⟨_, rfl, Word.toNat_least acc value⟩
  | max => exact ⟨_, rfl, Word.toNat_greatest acc value⟩
  | saturatingAdd => exact ⟨_, rfl, Word.toNat_addSat acc value⟩
  | saturatingSub => exact ⟨_, rfl, Word.toNat_subSat acc value⟩
  | saturatingMul => exact ⟨_, rfl, Word.toNat_mulSat acc value⟩

theorem step_of_not_allows {acc value : Word} (h : ¬ op.Allows acc.toNat value.toNat) :
    op.step acc value = .error op.fault := by
  cases op with
  | add => exact (step_add acc value).trans (if_neg h)
  | sub => exact (step_sub acc value).trans (if_neg h)
  | mul => exact (step_mul acc value).trans (if_neg h)
  | div => exact (step_div acc value).trans (if_pos (not_not.mp h))
  | mod => exact (step_mod acc value).trans (if_pos (not_not.mp h))
  | exp => exact (step_exp acc value).trans (if_neg h)
  | _ => exact absurd trivial h

/-! ## Whole folds -/

/-- Each step of a fold over exact numbers has a result. -/
def AllowsAll (op : Arithmetic) : Nat → List Nat → Prop
  | _, [] => True
  | acc, value :: rest => op.Allows acc value ∧ op.AllowsAll (op.combine acc value) rest

private theorem fold_of_allowsAll {first : Word} {rest : List Word}
    (h : op.AllowsAll first.toNat (rest.map Word.toNat)) :
    ∃ last, op.fold first rest = .ok last ∧
      last.toNat = (rest.map Word.toNat).foldl op.combine first.toNat := by
  induction rest generalizing first with
  | nil => exact ⟨first, rfl, rfl⟩
  | cons value rest ih =>
      obtain ⟨hstep, hrest⟩ := h
      obtain ⟨next, hnext, hvalue⟩ := step_of_allows hstep
      rw [← hvalue] at hrest
      obtain ⟨last, hfold, hlast⟩ := ih hrest
      refine ⟨last, ?_, ?_⟩
      · rw [fold, hnext]
        exact hfold
      · rw [hlast, hvalue, List.map_cons, List.foldl_cons]

private theorem fold_of_not_allowsAll {first : Word} {rest : List Word}
    (h : ¬ op.AllowsAll first.toNat (rest.map Word.toNat)) :
    op.fold first rest = .error op.fault := by
  induction rest generalizing first with
  | nil => exact absurd trivial h
  | cons value rest ih =>
      rw [fold]
      by_cases hstep : op.Allows first.toNat value.toNat
      · obtain ⟨next, hnext, hvalue⟩ := step_of_allows hstep
        have hrest : ¬ op.AllowsAll next.toNat (rest.map Word.toNat) := by
          rw [hvalue]
          exact fun hrest => h ⟨hstep, hrest⟩
        rw [hnext]
        exact ih hrest
      · rw [step_of_not_allows hstep]
        rfl

/-! ## Closed forms -/

/-- A fold over exact numbers has a result, said of the numbers as a whole. -/
def HasResult : Arithmetic → Nat → List Nat → Prop
  | .add, first, rest => first + rest.sum < 2 ^ 256
  | .sub, first, rest => rest.sum ≤ first
  | .mul, first, rest => ∀ part, part <+: rest → first * part.prod < 2 ^ 256
  | .div, _, rest => ∀ value ∈ rest, value ≠ 0
  | .mod, _, rest => ∀ value ∈ rest, value ≠ 0
  | .exp, first, rest => ∀ part, part <+: rest → first ^ part.prod < 2 ^ 256
  | _, _, _ => True

/-- The result of a fold over exact numbers, said of the numbers as a whole. -/
def closedForm : Arithmetic → Nat → List Nat → Nat
  | .add, first, rest => first + rest.sum
  | .sub, first, rest => first - rest.sum
  | .mul, first, rest => first * rest.prod
  | .div, first, rest => first / rest.prod
  | .mod, first, rest => rest.foldl (· % ·) first
  | .exp, first, rest => first ^ rest.prod
  | .min, first, rest => (first :: rest).min (List.cons_ne_nil first rest)
  | .max, first, rest => (first :: rest).max (List.cons_ne_nil first rest)
  | .saturatingAdd, first, rest => Min.min (first + rest.sum) (2 ^ 256 - 1)
  | .saturatingSub, first, rest => first - rest.sum
  | .saturatingMul, first, rest => Min.min (first * rest.prod) (2 ^ 256 - 1)

private theorem allowsAll_of_forall (op : Arithmetic) (h : ∀ acc value, op.Allows acc value)
    (first : Nat) (rest : List Nat) : op.AllowsAll first rest := by
  induction rest generalizing first with
  | nil => trivial
  | cons value rest ih => exact ⟨h first value, ih _⟩

/-- A sum that is a word has only words on the way to it. -/
theorem allowsAll_add_iff {first : Nat} (hfirst : first < 2 ^ 256) (rest : List Nat) :
    Arithmetic.add.AllowsAll first rest ↔ first + rest.sum < 2 ^ 256 := by
  induction rest generalizing first with
  | nil => exact iff_of_true trivial hfirst
  | cons value rest ih =>
      rw [List.sum_cons]
      constructor
      · rintro ⟨hstep, hrest⟩
        have hsum := (ih hstep).mp hrest
        omega
      · intro hsum
        have hstep : first + value < 2 ^ 256 := by omega
        exact ⟨hstep, (ih hstep).mpr (by omega)⟩

private theorem allowsAll_sub_iff (first : Nat) (rest : List Nat) :
    Arithmetic.sub.AllowsAll first rest ↔ rest.sum ≤ first := by
  induction rest generalizing first with
  | nil => exact iff_of_true trivial (Nat.zero_le first)
  | cons value rest ih =>
      rw [AllowsAll, ih, List.sum_cons]
      simp only [Allows, combine]
      omega

/-- Where only zero is refused, no value may be zero. -/
theorem allowsAll_iff_forall_ne_zero (op : Arithmetic)
    (h : ∀ acc value, op.Allows acc value ↔ value ≠ 0) (first : Nat) (rest : List Nat) :
    op.AllowsAll first rest ↔ ∀ value ∈ rest, value ≠ 0 := by
  induction rest generalizing first with
  | nil => simp [AllowsAll]
  | cons value rest ih => rw [AllowsAll, h, ih, List.forall_mem_cons]

/-- Where repeated steps multiply their values, and the results must be words, those for all
initial products have to be. -/
theorem allowsAll_iff_forall_prefix (op : Arithmetic)
    (h : ∀ acc value, op.Allows acc value ↔ op.combine acc value < 2 ^ 256)
    (hone : ∀ acc, op.combine acc 1 = acc)
    (hmul : ∀ acc x y, op.combine (op.combine acc x) y = op.combine acc (x * y))
    {first : Nat} (hfirst : first < 2 ^ 256) (rest : List Nat) :
    op.AllowsAll first rest ↔
      ∀ part, part <+: rest → op.combine first part.prod < 2 ^ 256 := by
  have hnil : op.combine first ([] : List Nat).prod < 2 ^ 256 := by
    rwa [List.prod_nil, hone]
  induction rest generalizing first with
  | nil =>
      refine iff_of_true trivial fun part hpart => ?_
      rwa [List.prefix_nil.mp hpart]
  | cons value rest ih =>
      rw [AllowsAll, h]
      constructor
      · rintro ⟨hstep, hrest⟩ part hpart
        rcases List.prefix_cons_iff.mp hpart with rfl | ⟨part, rfl, hpart⟩
        · exact hnil
        · have hnext : op.combine (op.combine first value) ([] : List Nat).prod < 2 ^ 256 := by
            rwa [List.prod_nil, hone]
          rw [List.prod_cons, ← hmul]
          exact (ih hstep hnext).mp hrest part (List.cons_prefix_cons.mp hpart).2
      · intro hall
        have hstep : op.combine first value < 2 ^ 256 := by
          have hsingle := hall [value] (List.prefix_append [value] rest)
          rwa [List.prod_cons, List.prod_nil, Nat.mul_one] at hsingle
        have hnext : op.combine (op.combine first value) ([] : List Nat).prod < 2 ^ 256 := by
          rwa [List.prod_nil, hone]
        refine ⟨hstep, (ih hstep hnext).mpr fun part hpart => ?_⟩
        rw [hmul, ← List.prod_cons]
        exact hall (value :: part) (List.cons_prefix_cons.mpr ⟨rfl, hpart⟩)

/-- The steps of a fold have results exactly if the fold has one as a whole. -/
theorem allowsAll_iff_hasResult (op : Arithmetic) {first : Nat} (hfirst : first < 2 ^ 256)
    (rest : List Nat) : op.AllowsAll first rest ↔ op.HasResult first rest := by
  cases op with
  | add => exact allowsAll_add_iff hfirst rest
  | sub => exact allowsAll_sub_iff first rest
  | mul =>
      exact allowsAll_iff_forall_prefix .mul (fun _ _ => Iff.rfl) Nat.mul_one Nat.mul_assoc
        hfirst rest
  | div => exact allowsAll_iff_forall_ne_zero .div (fun _ _ => Iff.rfl) first rest
  | mod => exact allowsAll_iff_forall_ne_zero .mod (fun _ _ => Iff.rfl) first rest
  | exp =>
      exact allowsAll_iff_forall_prefix .exp (fun _ _ => Iff.rfl) Nat.pow_one
        (fun acc x y => (Nat.pow_mul acc x y).symm) hfirst rest
  | _ =>
      refine iff_of_true (allowsAll_of_forall _ ?_ first rest) trivial
      exact fun _ _ => trivial

/-- A fold whose steps come together as one step with a total of the values makes that step. -/
theorem foldl_eq_act {act : Nat → Nat → Nat} {total : List Nat → Nat}
    (hnil : ∀ acc, act acc (total []) = acc)
    (hcons : ∀ acc value rest, act (act acc value) (total rest) = act acc (total (value :: rest)))
    (first : Nat) (rest : List Nat) : rest.foldl act first = act first (total rest) := by
  induction rest generalizing first with
  | nil => exact (hnil first).symm
  | cons value rest ih => rw [List.foldl_cons, ih, hcons]

private theorem foldl_add (first : Nat) (rest : List Nat) :
    rest.foldl (· + ·) first = first + rest.sum :=
  foldl_eq_act Nat.add_zero (fun acc value rest => Nat.add_assoc acc value rest.sum) first rest

private theorem foldl_sub (first : Nat) (rest : List Nat) :
    rest.foldl (· - ·) first = first - rest.sum :=
  foldl_eq_act Nat.sub_zero (fun acc value rest => Nat.sub_sub acc value rest.sum) first rest

private theorem foldl_mul (first : Nat) (rest : List Nat) :
    rest.foldl (· * ·) first = first * rest.prod :=
  foldl_eq_act Nat.mul_one (fun acc value rest => Nat.mul_assoc acc value rest.prod) first rest

private theorem foldl_div (first : Nat) (rest : List Nat) :
    rest.foldl (· / ·) first = first / rest.prod :=
  foldl_eq_act Nat.div_one (fun acc value rest => Nat.div_div_eq_div_mul acc value rest.prod)
    first rest

private theorem foldl_pow (first : Nat) (rest : List Nat) :
    rest.foldl (· ^ ·) first = first ^ rest.prod :=
  foldl_eq_act Nat.pow_one (fun acc value rest => (Nat.pow_mul acc value rest.prod).symm)
    first rest

/-- Stopping at a limit at every step is stopping once at the end, if a step makes the same of
whatever lies past the limit. -/
theorem foldl_min_limit {act : Nat → Nat → Nat} {limit : Nat}
    (hact : ∀ acc value,
      Min.min (act (Min.min acc limit) value) limit = Min.min (act acc value) limit)
    (first : Nat) (rest : List Nat) :
    rest.foldl (fun acc value => Min.min (act acc value) limit) (Min.min first limit)
      = Min.min (rest.foldl act first) limit := by
  induction rest generalizing first with
  | nil => rfl
  | cons value rest ih => rw [List.foldl_cons, List.foldl_cons, hact, ih]

/-- A product past the limit stays there, unless a factor is zero. -/
theorem min_mul_min (acc value limit : Nat) :
    Min.min (Min.min acc limit * value) limit = Min.min (acc * value) limit := by
  by_cases hacc : acc ≤ limit
  · rw [Nat.min_eq_left hacc]
  · have hlimit : limit ≤ acc := Nat.le_of_not_le hacc
    rw [Nat.min_eq_right hlimit]
    rcases Nat.eq_zero_or_pos value with rfl | hvalue
    · rfl
    · have hstopped : limit ≤ limit * value := Nat.le_mul_of_pos_right limit hvalue
      rw [Nat.min_eq_right hstopped,
        Nat.min_eq_right (Nat.le_trans hstopped (Nat.mul_le_mul_right value hlimit))]

private theorem foldl_combine (op : Arithmetic) {first : Nat} (hfirst : first < 2 ^ 256)
    (rest : List Nat) : rest.foldl op.combine first = op.closedForm first rest := by
  have hstart : Min.min first (2 ^ 256 - 1) = first := Nat.min_eq_left (by omega)
  cases op with
  | add => exact foldl_add first rest
  | sub => exact foldl_sub first rest
  | mul => exact foldl_mul first rest
  | div => exact foldl_div first rest
  | mod => rfl
  | exp => exact foldl_pow first rest
  | min => rfl
  | max => rfl
  | saturatingAdd =>
      have hact : ∀ acc value : Nat, Min.min (Min.min acc (2 ^ 256 - 1) + value) (2 ^ 256 - 1)
          = Min.min (acc + value) (2 ^ 256 - 1) := by omega
      have hstops := foldl_min_limit hact first rest
      rw [hstart, foldl_add] at hstops
      exact hstops
  | saturatingSub => exact foldl_sub first rest
  | saturatingMul =>
      have hstops := foldl_min_limit (min_mul_min · · (2 ^ 256 - 1)) first rest
      rw [hstart, foldl_mul] at hstops
      exact hstops

variable {first : Word} {rest : List Word}

/-- A fold has a result exactly if the closed form is one, and then it is the closed form. -/
theorem fold_of_hasResult (h : op.HasResult first.toNat (rest.map Word.toNat)) :
    op.closedForm first.toNat (rest.map Word.toNat) < 2 ^ 256 ∧
      op.fold first rest
        = .ok (Word.ofNat (op.closedForm first.toNat (rest.map Word.toNat))) := by
  have hfirst := first.toNat_lt
  have hall := (allowsAll_iff_hasResult op hfirst (rest.map Word.toNat)).mpr h
  obtain ⟨last, hfold, hvalue⟩ := fold_of_allowsAll hall
  rw [foldl_combine op hfirst] at hvalue
  rw [← hvalue, Word.ofNat_toNat]
  exact ⟨last.toNat_lt, hfold⟩

theorem fold_of_not_hasResult (h : ¬ op.HasResult first.toNat (rest.map Word.toNat)) :
    op.fold first rest = .error op.fault :=
  fold_of_not_allowsAll (mt (allowsAll_iff_hasResult op first.toNat_lt _).mp h)

/-! ## Sums and products -/

/-- A sum has a result exactly if the exact sum is a word. -/
theorem fold_add (first : Word) (rest : List Word) :
    Arithmetic.add.fold first rest
      = if ((first :: rest).map Word.toNat).sum < 2 ^ 256 then
          .ok (Word.ofNat ((first :: rest).map Word.toNat).sum)
        else .error (.arithmeticOverflow "ADD") := by
  have hresult : Arithmetic.add.HasResult first.toNat (rest.map Word.toNat)
      ↔ ((first :: rest).map Word.toNat).sum < 2 ^ 256 := Iff.rfl
  split
  · next hfits => exact (fold_of_hasResult (hresult.mpr hfits)).2
  · next hover => exact fold_of_not_hasResult (mt hresult.mp hover)

/-- A product whose initial products are words has a result. -/
theorem fold_mul_of_forall (first : Word) (rest : List Word)
    (h : ∀ k, (((first :: rest).map Word.toNat).take k).prod < 2 ^ 256) :
    Arithmetic.mul.fold first rest
      = .ok (Word.ofNat ((first :: rest).map Word.toNat).prod) := by
  have hresult : Arithmetic.mul.HasResult first.toNat (rest.map Word.toNat) := by
    intro part hpart
    rw [List.prefix_iff_eq_take.mp hpart]
    exact h (part.length + 1)
  exact (fold_of_hasResult hresult).2

/-- A product some initial product of which is no word overflows. -/
theorem fold_mul_of_exists (first : Word) (rest : List Word)
    (h : ∃ k, 2 ^ 256 ≤ (((first :: rest).map Word.toNat).take k).prod) :
    Arithmetic.mul.fold first rest = .error (.arithmeticOverflow "MUL") := by
  obtain ⟨k, hk⟩ := h
  have hresult : ¬ Arithmetic.mul.HasResult first.toNat (rest.map Word.toNat) := by
    intro hall
    cases k with
    | zero => simp at hk
    | succ k =>
        have hfits := hall _ (List.take_prefix k (rest.map Word.toNat))
        exact absurd hfits (Nat.not_lt.mpr hk)
  exact fold_of_not_hasResult hresult

/-! ## The smallest and the largest value -/

theorem fold_min (first : Word) (rest : List Word) :
    ∃ least ∈ first :: rest, (∀ v ∈ first :: rest, least.toNat ≤ v.toNat) ∧
      Arithmetic.min.fold first rest = .ok least := by
  have hresult : Arithmetic.min.HasResult first.toNat (rest.map Word.toNat) := trivial
  have hne : (first :: rest).map Word.toNat ≠ [] := List.cons_ne_nil _ _
  obtain ⟨least, hmem, hleast⟩ := List.mem_map.mp (List.min_mem hne)
  have hclosed : Arithmetic.min.closedForm first.toNat (rest.map Word.toNat) = least.toNat :=
    hleast.symm
  refine ⟨least, hmem, fun v hv => ?_, ?_⟩
  · rw [hleast]
    exact List.min_le_of_mem (List.mem_map_of_mem hv)
  · rw [(fold_of_hasResult hresult).2, hclosed, Word.ofNat_toNat]

theorem fold_max (first : Word) (rest : List Word) :
    ∃ greatest ∈ first :: rest, (∀ v ∈ first :: rest, v.toNat ≤ greatest.toNat) ∧
      Arithmetic.max.fold first rest = .ok greatest := by
  have hresult : Arithmetic.max.HasResult first.toNat (rest.map Word.toNat) := trivial
  have hne : (first :: rest).map Word.toNat ≠ [] := List.cons_ne_nil _ _
  obtain ⟨greatest, hmem, hgreatest⟩ := List.mem_map.mp (List.max_mem hne)
  have hclosed : Arithmetic.max.closedForm first.toNat (rest.map Word.toNat) = greatest.toNat :=
    hgreatest.symm
  refine ⟨greatest, hmem, fun v hv => ?_, ?_⟩
  · rw [hgreatest]
    exact List.le_max_of_mem (List.mem_map_of_mem hv)
  · rw [(fold_of_hasResult hresult).2, hclosed, Word.ofNat_toNat]

end WordMachine.Arithmetic
