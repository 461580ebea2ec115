import WordMachine.Proofs.Assembly.Translation
import WordMachine.Proofs.Evaluation.Unrolling

/-!
# The default hint for the stack

A text that sets no hint for the stack gets the number of its statements.  That is the number of
values that the statements can leave if each is evaluated once, and so the hint is enough for
every program that repeats no code.  `ZIPMAP` repeats code: with eight lanes, a source of one
statement leaves eight values.  The hint does not count this.  What the stack never exceeds is
the number of pairs that were evaluated.

## Main definitions

* `setsStackLength` — the lines that set the hint

## Main results

* `stackLength_of_assemble_eq_ok` — the default is the number of pairs
* `stack_holds_at_most_evaluated_pairs` — the default is enough for code that is not repeated
* `default_stack_length_misses_repetitions` — and too little for eight lanes
-/

namespace WordMachine.Assembly

/-- The line sets the hint for the stack. -/
def setsStackLength (line : List Char) : Bool :=
  (tokens line).head?.map Token.text == some ".stack_length"

private theorem stackHint?_eq_none {line : List Char} {said : Line} (hmeans : Says line said)
    (hline : setsStackLength line = false) : said.stackHint? = none := by
  cases hmeans with
  | marker => rfl
  | plain _ hspells =>
      unfold setsStackLength at hline
      generalize tokens line = spelled at hspells hline
      cases hspells with
      | stackLength hhead => simp [hhead] at hline
      | _ => rfl

/-- Without a hint in the text, the hint for the stack is the number of pairs. -/
theorem stackLength_of_assemble_eq_ok {text : String} {p : Program} (h : assemble text = .ok p)
    (hhint : ∀ line ∈ Text.lines text.toList, setsStackLength line = false)
    (htext : text.length < UInt64.size) :
    p.stackLength.toNat = (p.sources.flatMap pairs).length := by
  obtain ⟨d, said, hsaid, hholds, rfl⟩ := holds_of_assemble_eq_ok h
  have hnone : said.filterMap Line.stackHint? = [] := by
    rw [List.filterMap_eq_nil_iff]
    intro line hline
    obtain ⟨written, hwritten, hmeans⟩ := exists_of_forall₂ hsaid hline
    exact stackHint?_eq_none hmeans (hhint written hwritten)
  have hdefault : d.stackLength = none := by rw [hholds.stackLength, hnone, List.getLast?_nil]
  have hfits : d.statements < UInt64.size := by
    rw [hholds.statements]
    exact Nat.lt_of_le_of_lt (countP_isStatement_le hsaid) htext
  have htotal : (d.finish.sources.flatMap pairs).length = d.statements := hholds.total
  rw [htotal, Draft.finish, hdefault, Option.getD_none, UInt64.toNat_ofNat_of_lt' hfits]

/-- At every moment of a run, the stack holds at most as many values as pairs were evaluated,
repetitions counted, and these pairs are the first ones of the unrolled program.  So the number
of statements, which is the default hint for the stack, is enough for a program that repeats no
code. -/
theorem stack_holds_at_most_evaluated_pairs {text : String} {p : Program}
    (h : assemble text = .ok p)
    (hhint : ∀ line ∈ Text.lines text.toList, setsStackLength line = false)
    (htext : text.length < UInt64.size) (env : Environment) (n : Nat) :
    let first := Config.start 0 (Machine.ofProgram p)
    let height := ((Config.step Table.standard env)^[n] first).machine.height
    p.stackLength.toNat = (p.sources.flatMap pairs).length ∧
      height ≤ (first.trace env n).length ∧ first.trace env n <+: p.unrolled 0 ∧
      (p.Unrepeated 0 → height ≤ p.stackLength.toNat) := by
  intro first height
  have hlength := stackLength_of_assemble_eq_ok h hhint htext
  have hheight : height ≤ 0 + (first.trace env n).length := Config.height_iterate_le env n first
  rw [Nat.zero_add] at hheight
  have hprefix : first.trace env n <+: p.unrolled 0 := by
    rw [← Config.ahead_start]
    exact Config.trace_prefix env n first
  refine ⟨hlength, hheight, hprefix, fun hunrepeated => ?_⟩
  calc height
      ≤ (first.trace env n).length := hheight
    _ ≤ (p.unrolled 0).length := hprefix.length_le
    _ ≤ (p.sources.flatMap pairs).length := hunrepeated.length_unrolled_le
    _ = p.stackLength.toNat := hlength.symm

/-- A `ZIPMAP` with one lane. -/
theorem stack_holds_at_most_evaluated_pairs_of_one_lane :
    let p : Program := ⟨[[0, 0, 4, 1], [0, 128, 0, 128]], [.ofSmall 5], 4, 1⟩
    assemble "VAL 5\n[ source 0 ]\nZIPMAP 1, 256, 1\n[ source 1 ]\nARG 0\nARG 0" = .ok p ∧
      p.Unrepeated 0 ∧
      ∀ n, ((Config.step Table.standard {})^[n]
        (.start 0 (Machine.ofProgram p))).machine.height ≤ 4 := by
  intro p
  have hassemble :
      assemble "VAL 5\n[ source 0 ]\nZIPMAP 1, 256, 1\n[ source 1 ]\nARG 0\nARG 0" = .ok p := by
    decide +kernel
  have hunrepeated : p.Unrepeated 0 := by decide
  refine ⟨hassemble, hunrepeated, fun n => ?_⟩
  exact (stack_holds_at_most_evaluated_pairs hassemble (by decide +kernel) (by decide +kernel)
    {} n).2.2.2 hunrepeated

/-- The default hint for the stack is not always enough: eight lanes leave eight values, and the
text has three statements. -/
theorem default_stack_length_misses_repetitions :
    ¬ ∀ (text : String) (p : Program), assemble text = .ok p →
      (∀ line ∈ Text.lines text.toList, setsStackLength line = false) →
      ∀ (env : Environment) (n : Nat), ((Config.step Table.standard env)^[n]
        (.start 0 (Machine.ofProgram p))).machine.height ≤ p.stackLength.toNat := by
  intro h
  have hassemble : assemble "[ source 0 ]\nVAL 1\nZIPMAP 1, 32, 1\n[ source 1 ]\nARG 0"
      = .ok ⟨[[0, 0, 4, 25], [0, 128]], [.ofSmall 1], 3, 1⟩ := by decide +kernel
  have hle := h _ _ hassemble (by decide +kernel) {} 60
  exact absurd hle (by decide +kernel)

end WordMachine.Assembly
