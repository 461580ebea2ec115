import WordMachine.Proofs.Assembly.Translation
import WordMachine.Proofs.Evaluation.Faults

/-!
# Operands that are written by name

An operand is refused twice over: by the assembler, which reads it from tokens, and by the
instruction, which reads it from the byte.  The two agree.  A statement that names its
instruction becomes a pair whose operand the instruction accepts, and so no run of a program
without `OP` statements ends because an instruction cannot read its operand.  What is left are
the two refusals that depend on the run: a `ZIPMAP` that is nested too deeply, and a tier on
the stack that does not exist.

## Main definitions

* `Instruction.Accepts` — the operand bytes that an instruction accepts
* `Assembly.isRaw` — the lines that give a pair as it is

## Main results

* `Instruction.accepts_iff` — an operand is accepted if no refusal is known
* `accepts_of_written` — operands that are written are accepted
* `assembled_operands_are_accepted` — the operands of a text without `OP` statements
-/

namespace WordMachine

/-! ## Bytes that are accepted -/

/-- The operand byte has a meaning to the instruction: a window is not empty, a selection has a
mode and reports, tiers are at most 8, and a part of the machine is one of four. -/
def Instruction.Accepts (instruction : Instruction) (operand : UInt8) : Prop :=
  match instruction.form with
  | .window => operand ≠ 0
  | .selectLte => (operand >>> 5) &&& 0x03 ≠ 3 ∧ operand &&& 0x1f ≠ 0
  | .tierRange => operand &&& 0x0f ≤ 8 ∧ operand >>> 4 ≤ 8
  | .debug => operand ≤ 3
  | _ => True

private theorem Selection.isOk_decode (operand : UInt8) :
    (decode operand).isOk ↔ (operand >>> 5) &&& 0x03 ≠ 3 ∧ operand &&& 0x1f ≠ 0 := by
  revert operand
  exact forall_byte (by decide)

private theorem TierRange.isOk_decode (operand : UInt8) :
    (decode operand).isOk ↔ operand &&& 0x0f ≤ 8 ∧ operand >>> 4 ≤ 8 := by
  revert operand
  exact forall_byte (by decide)

private theorem Inspection.isOk_decode (operand : UInt8) : (decode operand).isOk ↔ operand ≤ 3 := by
  revert operand
  exact forall_byte (by decide)

private theorem isOk_windowSize (instruction : Instruction) (operand : UInt8) :
    (windowSize instruction operand).isOk ↔ operand ≠ 0 := by
  unfold windowSize
  split <;> simp_all [Except.isOk, Except.toBool]

private theorem isOk_iff_forall_ne_error {ε α : Type} {x : Except ε α} :
    x.isOk ↔ ∀ e, ¬ x = .error e := by
  cases x <;> simp [Except.isOk, Except.toBool]

namespace Instruction

variable {instruction : Instruction} {operand : UInt8}

/-- An operand is accepted if the instruction has no reason to refuse it. -/
theorem accepts_iff : instruction.Accepts operand ↔ ∀ e, ¬ instruction.Refuses operand e := by
  unfold Accepts Refuses
  cases instruction.form with
  | window => exact (isOk_windowSize instruction operand).symm.trans isOk_iff_forall_ne_error
  | selectLte => exact (Selection.isOk_decode operand).symm.trans isOk_iff_forall_ne_error
  | tierRange => exact (TierRange.isOk_decode operand).symm.trans isOk_iff_forall_ne_error
  | debug => exact (Inspection.isOk_decode operand).symm.trans isOk_iff_forall_ne_error
  | _ => simp

end Instruction

namespace Assembly

/-! ## Statements that name their instruction -/

/-- The line is an `OP` statement. -/
def isRaw (line : List Char) : Bool := (tokens line).head?.map Token.name == some "OP"

/-- An operand that is written is accepted. -/
theorem accepts_of_written {instruction : Instruction} {operands : List Token} {operand : UInt8}
    (h : Written instruction operands operand) : instruction.Accepts operand := by
  unfold Instruction.Accepts
  cases h with
  | nothing hform | exponent hform | zip hform => simp [hform]
  | number hform =>
      simp only [List.mem_cons, List.not_mem_nil, or_false] at hform
      rcases hform with hform | hform | hform | hform | hform <;> simp [hform]
  | window hform _ hx => simpa [hform] using hx
  | part hform _ hx =>
      rw [hform]
      exact (Inspection.isOk_decode operand).mp (by rw [hx]; rfl)
  | selection hform hx =>
      rw [hform]
      exact (Selection.isOk_decode operand).mp (by rw [hx]; rfl)
  | range hform hx =>
      rw [hform]
      exact (TierRange.isOk_decode operand).mp (by rw [hx]; rfl)

/-- A statement without `OP` becomes a standard instruction with an operand that it accepts. -/
theorem accepts_of_becomes {pool : List Word} {text : List Char} {line : Line}
    {pair : UInt8 × UInt8} (hmeans : Says text line)
    (hraw : isRaw text = false) (h : Becomes pool line pair) :
    ∃ instruction : Instruction, instruction.opcode = pair.1 ∧ instruction.Accepts pair.2 := by
  cases h with
  | value => exact ⟨.constant, rfl, trivial⟩
  | argument => exact ⟨.constant, rfl, trivial⟩
  | pair =>
      cases hmeans with
      | plain _ hspells =>
          unfold isRaw at hraw
          generalize tokens text = line at hspells hraw
          cases hspells with
          | raw hhead => simp [hhead] at hraw
          | standard _ hoperand => exact ⟨_, rfl, accepts_of_written hoperand⟩

/-- Each pair of a program comes from a line of its text. -/
theorem accepts_of_mem_pairs {text : String} {p : Program} (h : assemble text = .ok p)
    (hraw : ∀ line ∈ Text.lines text.toList, isRaw line = false)
    {pair : UInt8 × UInt8} (hpair : pair ∈ p.sources.flatMap pairs) :
    ∃ instruction : Instruction, instruction.opcode = pair.1 ∧ instruction.Accepts pair.2 := by
  obtain ⟨d, said, hsaid, hholds, rfl⟩ := holds_of_assemble_eq_ok h
  obtain ⟨line, hline, hbecomes⟩ := hholds.translates_finish.exists_line hpair
  obtain ⟨text, htext, hmeans⟩ := exists_of_forall₂ hsaid hline
  exact accepts_of_becomes hmeans (hraw text htext) hbecomes

/-! ## Runs -/

/-- The only operand that is refused for the words on the stack is a tier. -/
theorem tierOutside_of_dependsOnData {e : OperandError}
    (h : (Fault.invalidOperand e).dependsOnData) :
    e.instruction = .tierReportTimeForTier ∧ ∃ tier, e.cause = .tierOutside tier := by
  unfold Fault.dependsOnData at h
  split at h <;> simp_all

/-- A program whose operands are accepted ends in no refusal but the two that depend on the
run. -/
theorem cause_of_canFault {p : Program} {entry : Nat} {e : OperandError}
    (haccepts : ∀ pair ∈ p.sources.flatMap pairs,
      ∃ instruction : Instruction, instruction.opcode = pair.1 ∧ instruction.Accepts pair.2)
    (h : p.CanFault entry (.invalidOperand e)) :
    e.instruction = .zipmap ∧ e.cause = .nesting ∨
      e.instruction = .tierReportTimeForTier ∧ ∃ tier, e.cause = .tierOutside tier := by
  cases h with
  | nesting => exact .inl ⟨rfl, rfl⟩
  | pair hpair he =>
      cases he with
      | data hdata => exact .inr (tierOutside_of_dependsOnData hdata)
      | refused hrefused =>
          obtain ⟨instruction, hopcode, hok⟩ := haccepts _ hpair
          obtain rfl := Instruction.opcode_inj.mp hopcode
          exact absurd hrefused (Instruction.accepts_iff.mp hok e)

/-- A text without `OP` statements becomes a program of standard instructions, each with an
operand that it accepts.  A run of the program that ends in a refused operand was nested too
deeply, or found a tier that does not exist. -/
theorem assembled_operands_are_accepted {text : String} {p : Program}
    (h : assemble text = .ok p)
    (hraw : ∀ line ∈ Text.lines text.toList, isRaw line = false) :
    (∀ code ∈ p.sources, ∀ pair ∈ pairs code, ∃ instruction : Instruction,
      instruction.opcode = pair.1 ∧ instruction.Accepts pair.2 ∧
        ∀ e, ¬ instruction.Refuses pair.2 e) ∧
    ∀ env entry e,
      (run Table.standard env entry (Machine.ofProgram p)).result = .error (.invalidOperand e) →
        e.instruction = .zipmap ∧ e.cause = .nesting ∨
          e.instruction = .tierReportTimeForTier ∧ ∃ tier, e.cause = .tierOutside tier := by
  have haccepts : ∀ pair ∈ p.sources.flatMap pairs,
      ∃ instruction : Instruction, instruction.opcode = pair.1 ∧ instruction.Accepts pair.2 :=
    fun _ hpair => accepts_of_mem_pairs h hraw hpair
  constructor
  · intro code hcode pair hpair
    obtain ⟨instruction, hopcode, hok⟩ := haccepts pair (List.mem_flatMap.mpr ⟨code, hcode, hpair⟩)
    exact ⟨instruction, hopcode, hok, Instruction.accepts_iff.mp hok⟩
  · intro env entry e herror
    exact cause_of_canFault haccepts (Program.canFault_of_run herror)

/-- A source that runs itself ends in the refusal of a `ZIPMAP`, the only one it can end in. -/
theorem assembled_operands_are_accepted_of_loop :
    let p : Program := ⟨[[0, 0, 33, 1, 4, 0]], [.ofSmall 1], 3, 0⟩
    assemble "VAL 1\nADD 1\nZIPMAP 0 256 1" = .ok p ∧
      (run Table.standard {} 0 (Machine.ofProgram p)).result
        = .error (.invalidOperand ⟨.zipmap, 0, .nesting⟩) ∧
      (∀ code ∈ p.sources, ∀ pair ∈ pairs code, ∃ instruction : Instruction,
        instruction.opcode = pair.1 ∧ instruction.Accepts pair.2 ∧
          ∀ e, ¬ instruction.Refuses pair.2 e) ∧
      ∀ env entry e,
        (run Table.standard env entry (Machine.ofProgram p)).result = .error (.invalidOperand e) →
          e.instruction = .zipmap ∧ e.cause = .nesting ∨
            e.instruction = .tierReportTimeForTier ∧ ∃ tier, e.cause = .tierOutside tier := by
  intro p
  have hassemble : assemble "VAL 1\nADD 1\nZIPMAP 0 256 1" = .ok p := by decide +kernel
  have hraw : ∀ line ∈ Text.lines "VAL 1\nADD 1\nZIPMAP 0 256 1".toList, isRaw line = false := by
    decide +kernel
  have hrun : (run Table.standard {} 0 (Machine.ofProgram p)).result
      = .error (.invalidOperand ⟨.zipmap, 0, .nesting⟩) := by decide +kernel
  exact ⟨hassemble, hrun, assembled_operands_are_accepted hassemble hraw⟩

end Assembly

end WordMachine
