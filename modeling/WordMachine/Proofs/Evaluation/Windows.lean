import WordMachine.Proofs.Evaluation.Arithmetic
import WordMachine.Proofs.Evaluation.Instructions

/-!
# Arithmetic instructions in closed form

An arithmetic instruction folds a window of values, and the fold has a closed form over exact
numbers.  So what the instruction does to a stack is said of the window as a whole: it puts the
closed form in the window's place, or it ends in the fault of its operation.  This module joins
the two.

## Main results

* `window_arithmetic_has_closed_forms` — every arithmetic instruction on every window
-/

namespace WordMachine

/-- Every arithmetic instruction has a closed form.  Over exact numbers, the fold of its window
either has a result, which is a word and takes the window's place, or it has none, and the
instruction ends in its operation's fault with the window gone.  What lies below the window, and
all else, stays as it was. -/
theorem window_arithmetic_has_closed_forms (env : Environment)
    (nested : Option (Nat → Action Unit)) (op : Arithmetic) {m : Machine} (base : List Word)
    {first : Word} {rest : List Word} (hstack : m.stack = base ++ first :: rest)
    {operand : UInt8} (hoperand : operand.toNat = rest.length + 1) :
    let values := rest.map Word.toNat
    let closed := op.closedForm first.toNat values
    let after := Evaluation.pair Table.standard env nested op.instruction.opcode operand m
    (op.HasResult first.toNat values ∧ closed < 2 ^ 256 ∧
        after = ⟨.ok (), { m with stack := base ++ [Word.ofNat closed] }, []⟩) ∨
      (¬ op.HasResult first.toNat values ∧
        after = ⟨.error op.fault, { m with stack := base }, []⟩) := by
  intro values closed after
  have hafter := Program.pair_arithmetic env nested op base hstack hoperand
  by_cases hresult : op.HasResult first.toNat values
  · obtain ⟨hclosed, hfold⟩ := Arithmetic.fold_of_hasResult hresult
    rw [hfold] at hafter
    exact .inl ⟨hresult, hclosed, hafter⟩
  · rw [Arithmetic.fold_of_not_hasResult hresult] at hafter
    exact .inr ⟨hresult, hafter⟩

/-- A window whose first product is no word, and which ends in a zero: stopping at the largest
word comes down to zero again, and an exact product overflows. -/
theorem window_arithmetic_has_closed_forms_past_the_word :
    let m : Machine := ⟨[Word.one, Word.max, Word.max, Word.zero], [], [], [], [], 0, 0⟩
    let after (op : Arithmetic) :=
      Evaluation.pair Table.standard {} none op.instruction.opcode 3 m
    m.stack = [Word.one] ++ Word.max :: [Word.max, Word.zero] ∧
      (3 : UInt8).toNat = [Word.max, Word.zero].length + 1 ∧
      after .saturatingMul = ⟨.ok (), { m with stack := [Word.one, Word.zero] }, []⟩ ∧
      after .mul = ⟨.error (.arithmeticOverflow "MUL"), { m with stack := [Word.one] }, []⟩ := by
  intro m after
  have hstack : m.stack = [Word.one] ++ Word.max :: [Word.max, Word.zero] := rfl
  have hoperand : (3 : UInt8).toNat = [Word.max, Word.zero].length + 1 := rfl
  have hforms := fun op =>
    window_arithmetic_has_closed_forms {} none op [Word.one] hstack hoperand
  refine ⟨hstack, hoperand, ?_, ?_⟩
  · rcases hforms .saturatingMul with ⟨-, -, hafter⟩ | ⟨hnone, -⟩
    · exact hafter
    · exact absurd trivial hnone
  · rcases hforms .mul with ⟨hresult, -, -⟩ | ⟨-, hafter⟩
    · have hproduct := hresult [Word.max.toNat] (List.prefix_append [Word.max.toNat] _)
      exact absurd hproduct (by decide)
    · exact hafter

end WordMachine
