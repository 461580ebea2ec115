import WordMachine.Proofs.Evaluation.StackLocal

/-!
# Frames in one store

A machine keeps the values of all its frames in one store, and of each frame only where it starts.
Here the frames themselves are followed beside the machine, as a stack of lists, through any
operations on the stack and on the frames.  At every moment the store holds these lists one after
the other and each frame starts behind those around it, so that whatever is read through the
innermost start is read from the innermost list.

Frames may be empty, and then they start where the frame inside them starts; a frame may be closed
when none is open; and taking values may fail.  None of these needs a case of its own.

## Main definitions

* `StackOperation` — what may be done to the stack and to the frames
* `Machine.after`, `StackOperation.opened` — what it does to a machine, and to a stack of lists
* `Machine.HasFrames` — the lists that are open in a machine

## Main results

* `Machine.HasFrames.after`, `Machine.HasFrames.run` — one operation, and any number of them
* `store_holds_a_stack_of_frames` — what is read of a machine after any operations
-/

namespace WordMachine

/-- An operation on the stack of a machine or on its frames. -/
inductive StackOperation where
  | push (value : Word)
  | pop
  | popMany (n : Nat)
  | openFrame (values : List Word)
  | closeFrame
  | reset

/-- The machine after an operation.  One that fails leaves a machine, too. -/
def Machine.after (m : Machine) : StackOperation → Machine
  | .push value => (Action.push value m).machine
  | .pop => (Action.pop m).machine
  | .popMany n => (Action.popMany n m).machine
  | .openFrame values => m.openFrame values
  | .closeFrame => m.closeFrame
  | .reset => m.reset

namespace StackOperation

/-- The open frames after an operation, innermost first. -/
def opened (frames : List (List Word)) : StackOperation → List (List Word)
  | .push _ | .pop | .popMany _ => frames
  | .openFrame values => values :: frames
  | .closeFrame => frames.tail
  | .reset => []

end StackOperation

/-- Where frames start, innermost first: each one behind the values of all frames around it. -/
def frameStarts : List (List Word) → List Nat
  | [] => []
  | _ :: outer => outer.flatten.length :: frameStarts outer

private theorem length_frameStarts (frames : List (List Word)) :
    (frameStarts frames).length = frames.length := by
  induction frames with
  | nil => rfl
  | cons _ outer ih => rw [frameStarts, List.length_cons, List.length_cons, ih]

private theorem length_flatten_reverse (frames : List (List Word)) :
    frames.reverse.flatten.length = frames.flatten.length := by
  rw [List.length_flatten, List.length_flatten, List.map_reverse, List.sum_reverse]

private theorem flatten_reverse_cons (values : List Word) (outer : List (List Word)) :
    (values :: outer).reverse.flatten = outer.reverse.flatten ++ values := by
  rw [List.reverse_cons, List.flatten_append, List.flatten_singleton]

namespace Machine

/-- These frames are open in a machine, innermost first: the store holds their values, outermost
first, and nothing else, and they start where they have to. -/
structure HasFrames (m : Machine) (frames : List (List Word)) : Prop where
  arguments : m.arguments = frames.reverse.flatten
  starts : m.frames = frameStarts frames

variable {m : Machine} {frames : List (List Word)}

private theorem length_arguments (h : m.HasFrames frames) :
    m.arguments.length = frames.flatten.length := by
  rw [h.arguments, length_flatten_reverse]

namespace HasFrames

/-! ## Operations -/

private theorem ofProgram (p : Program) : (Machine.ofProgram p).HasFrames [] := ⟨rfl, rfl⟩

/-- What is done to the stack alone does not touch the frames. -/
theorem of_keepsRest {α : Type} {a : Action α} (ha : a.KeepsRest) (h : m.HasFrames frames) :
    (a m).machine.HasFrames frames := by
  rw [ha m]
  exact ⟨h.arguments, h.starts⟩

private theorem openFrame (h : m.HasFrames frames) (values : List Word) :
    (m.openFrame values).HasFrames (values :: frames) where
  arguments := by rw [Machine.openFrame, h.arguments, flatten_reverse_cons]
  starts := by rw [Machine.openFrame, frameStarts, length_arguments h, h.starts]

/-- Cutting the store where a frame starts takes away exactly the values of that frame. -/
theorem closeFrame (h : m.HasFrames frames) : m.closeFrame.HasFrames frames.tail := by
  cases frames with
  | nil =>
      rw [Machine.closeFrame, h.starts]
      exact h
  | cons values outer =>
      have harguments : m.arguments = outer.reverse.flatten ++ values := by
        rw [h.arguments, flatten_reverse_cons]
      have hstart : m.frames = outer.reverse.flatten.length :: frameStarts outer := by
        rw [h.starts, frameStarts, length_flatten_reverse]
      rw [Machine.closeFrame, hstart]
      exact ⟨by rw [harguments]; exact List.take_left, rfl⟩

/-- An operation does to the frames of a machine what it does to a stack of lists. -/
theorem after (h : m.HasFrames frames) (operation : StackOperation) :
    (m.after operation).HasFrames (operation.opened frames) := by
  cases operation with
  | push value => exact of_keepsRest (Action.StackLocal.push value).keeps h
  | pop => exact of_keepsRest Action.TakesTop.pop.stackLocal.keeps h
  | popMany n => exact of_keepsRest (Action.TakesTop.popMany n).stackLocal.keeps h
  | openFrame values => exact h.openFrame values
  | closeFrame => exact h.closeFrame
  | reset => exact ⟨rfl, rfl⟩

/-- So do any number of operations. -/
theorem run (h : m.HasFrames frames) (operations : List StackOperation) :
    (operations.foldl Machine.after m).HasFrames
      (operations.foldl StackOperation.opened frames) := by
  induction operations generalizing m frames with
  | nil => exact h
  | cons operation rest ih => exact ih (h.after operation)

/-! ## What is read -/

private theorem depth_eq (h : m.HasFrames frames) : m.depth = frames.length := by
  rw [depth, h.starts, length_frameStarts]

/-- The innermost frame starts within the store. -/
theorem start_le (h : m.HasFrames frames) : m.frames.headD 0 ≤ m.arguments.length := by
  rw [h.starts, length_arguments h]
  cases frames with
  | nil => exact Nat.zero_le _
  | cons values outer =>
      rw [frameStarts, List.headD_cons, List.flatten_cons, List.length_append]
      omega

private theorem currentFrame_eq (h : m.HasFrames frames) : m.currentFrame = frames.headD [] := by
  rw [currentFrame, h.starts, h.arguments]
  cases frames with
  | nil => rfl
  | cons values outer =>
      rw [frameStarts, List.headD_cons, List.headD_cons, flatten_reverse_cons,
        ← length_flatten_reverse, List.drop_left]

private theorem argument_eq (h : m.HasFrames frames) (i : UInt64) :
    m.argument i
      = if hi : i.toNat < (frames.headD []).length then .ok (frames.headD [])[i.toNat]
        else .error (.stackUnderflow (i + 1).toNat (frames.headD []).length) := by
  rw [argument, h.currentFrame_eq, fetch]
  split
  · next hvalue =>
      obtain ⟨hi, rfl⟩ := List.getElem?_eq_some_iff.mp hvalue
      rw [dif_pos hi]
  · next hnone => rw [dif_neg (Nat.not_lt.mpr (List.getElem?_eq_none_iff.mp hnone))]

private theorem closeFrame_of_nil (h : m.HasFrames []) : m.closeFrame = m := by
  rw [Machine.closeFrame, h.starts]
  rfl

end HasFrames

end Machine

/-- The flat store of a machine is a stack of frames.  After any operations on a new machine, the
store holds the values of the frames that are open, the outermost first, and the starts are the
numbers of values in the frames around each.  So the innermost start lies within the store, what
lies behind it is the innermost frame, and an argument is read from there or is missing there.
Closing a frame right after it was opened leaves no trace, and closing one where none is open does
nothing. -/
theorem store_holds_a_stack_of_frames (p : Program) (operations : List StackOperation) :
    let m := operations.foldl Machine.after (Machine.ofProgram p)
    let opened := operations.foldl StackOperation.opened []
    let frame := opened.headD []
    m.arguments = opened.reverse.flatten ∧
    m.frames = frameStarts opened ∧
    m.frames.headD 0 ≤ m.arguments.length ∧
    m.currentFrame = frame ∧
    (∀ i : UInt64, m.argument i = if hi : i.toNat < frame.length then .ok frame[i.toNat]
      else .error (.stackUnderflow (i + 1).toNat frame.length)) ∧
    m.depth = opened.length ∧
    (∀ values, (m.openFrame values).closeFrame = m) ∧
    (opened = [] → m.closeFrame = m) := by
  intro m opened frame
  have h : m.HasFrames opened := (Machine.HasFrames.ofProgram p).run operations
  refine ⟨h.arguments, h.starts, h.start_le, h.currentFrame_eq, h.argument_eq, h.depth_eq,
    fun values => m.closeFrame_openFrame values, fun hnone => ?_⟩
  rw [hnone] at h
  exact h.closeFrame_of_nil

/-- An empty frame inside one of two values, with a failing operation between them; and then
both are closed. -/
theorem store_holds_a_stack_of_frames_of_empty_frame :
    let p : Program := ⟨[], [], 0, 0⟩
    let inside : List StackOperation :=
      [.push Word.one, .openFrame [Word.one, Word.max], .popMany 2, .openFrame []]
    let outside : List StackOperation := inside ++ [.closeFrame, .closeFrame]
    let m := inside.foldl Machine.after (Machine.ofProgram p)
    let m' := outside.foldl Machine.after (Machine.ofProgram p)
    m.frames = [2, 0] ∧ m.arguments = [Word.one, Word.max] ∧ m.depth = 2 ∧
      m.argument 0 = .error (.stackUnderflow 1 0) ∧
      outside.foldl StackOperation.opened [] = [] ∧ m'.closeFrame = m' := by
  intro p inside outside m m'
  obtain ⟨harguments, hframes, -, -, hargument, hdepth, -, -⟩ :=
    store_holds_a_stack_of_frames p inside
  obtain ⟨-, -, -, -, -, -, -, hclosed⟩ := store_holds_a_stack_of_frames p outside
  exact ⟨hframes, harguments, hdepth, hargument 0, rfl, hclosed rfl⟩

end WordMachine
