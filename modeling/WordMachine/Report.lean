import WordMachine.Operand
import WordMachine.Word.Arithmetic

/-!
# Tier reports

A report is a word of eight lanes of 32 bits, lane 0 in the least significant
place.  Lane `i` holds the time since which tier `i + 1` has been held, or the
largest 32-bit number if it never was.

## Main definitions

* `Report.lane`, `Report.lanes`, `Report.ofLanes` — taking reports apart and
  putting them together
* `Report.timeForTier` — the time of a tier
* `Report.difference`, `Report.select`, `Report.lower` — lane-wise operations
-/

namespace WordMachine.Report

/-- The lane of a tier that was never held. -/
def never : UInt32 := 0xFFFFFFFF

/-- The report of an account that never held a tier. -/
def neverHeld : Word := Word.max

/-- Lane `i` of a report. -/
def lane (report : Word) (i : Nat) : UInt32 := (report.shiftRight (32 * i)).lowUInt32

/-- The eight lanes of a report, least significant first. -/
def lanes (report : Word) : List UInt32 := (List.range 8).map (lane report)

/-- The word of a lane's value. -/
def ofLane (value : UInt32) : Word := Word.ofUInt64 value.toUInt64

/-- Packs lanes from place `i` upward onto `acc`. -/
def packFrom (i : Nat) (acc : Word) : List UInt32 → Word
  | [] => acc
  | value :: rest => packFrom (i + 1) (acc.or ((ofLane value).shiftLeft (32 * i))) rest

/-- The report with the given lanes, least significant first. -/
def ofLanes (values : List UInt32) : Word := packFrom 0 Word.zero values

/-- The time of a tier; tier 0 is held from the beginning. -/
def timeForTier (report : Word) (tier : UInt8) : Word :=
  if tier = 0 then Word.zero else ofLane (lane report (tier.toNat - 1))

/-- The difference of two lanes, or zero where it is negative. -/
def laneDifference (a b : UInt32) : UInt32 := if a < b then 0 else a - b

/-- The lane-wise difference, or zero where it is negative. -/
def difference (a b : Word) : Word :=
  ofLanes (List.zipWith laneDifference (lanes a) (lanes b))

/-- A lane above the threshold counts as never held. -/
def withinThreshold (threshold : Word) (value : UInt32) : UInt32 :=
  if threshold.blt (ofLane value) then never else value

/-- The value that a mode takes from the candidates of a lane, `never` if
there is none. -/
def reduce (mode : SelectMode) (candidates : List UInt32) : UInt32 :=
  let chosen := match mode with
    | .min => candidates.min?
    | .max => candidates.max?
    | .first => candidates.getLast?
  chosen.getD never

/-- The selection in one lane. -/
def selectLane (logic : SelectLogic) (mode : SelectMode) (candidates : List UInt32) : UInt32 :=
  match logic with
  | .every => if candidates.contains never then never else reduce mode candidates
  | .any => reduce mode (candidates.filter (· != never))

/-- The lane-wise selection among reports, deepest first, of the times up to
the threshold. -/
def select (reports : List Word) (threshold : Word) (logic : SelectLogic) (mode : SelectMode) :
    Word :=
  ofLanes <| (List.range 8).map fun i =>
    selectLane logic mode (reports.map fun report => withinThreshold threshold (lane report i))

/-- The report with every lane of the range lowered to at most `value`. -/
def lower (report : Word) (range : TierRange) (value : Word) : Word :=
  ofLanes <| (List.range 8).map fun i =>
    let current := lane report i
    let (first, last) := range.laneBounds
    if first ≤ i ∧ i < last ∧ value.blt (ofLane current) then value.lowUInt32 else current

end WordMachine.Report
