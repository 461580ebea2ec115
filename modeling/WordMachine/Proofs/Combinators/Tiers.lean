import WordMachine.Proofs.Combinators.Values
import WordMachine.Proofs.Evaluation.Zipmap
import WordMachine.Proofs.Report
import WordMachine.Proofs.Word.Bytes

/-!
# Tier tables

A tier table is zipped with the signer's report: for each tier, a source compares
the report's lane with the one that says the tier was never held, and leaves the
table's entry or another value.  The largest of the eight values scales what a
program leaves.

## Main definitions

* `Combinator.tierEntry` — the value of one tier
* `Combinator.bestHeld` — the largest entry of a table among the tiers held

## Main results

* `Combinator.evaluated_heldTier` — the source that is evaluated for each tier
* `Combinator.performed_bestTier` — the largest value of the tiers
* `Combinator.performed_hundredths` — hundredths of a value
* `discounted_applies_best_held` — the discount of the best tier held
-/

namespace WordMachine.Combinator

variable {env : Environment} {table : Vector UInt32 8} {contract : Address} {report : Word}

/-! ## One tier -/

/-- The value of tier `i + 1`: the entry of the table if the report holds the tier,
else another one. -/
def tierEntry (table : Vector UInt32 8) (report otherwise : Word) (i : Fin 8) : Word :=
  if Report.lane report i = Report.never then otherwise else Report.ofLane table[i]

/-- The fields of the operand that zips a table and a report. -/
def tierZip : Zip := ⟨1, 3, 1⟩

theorem zipTiers_eq : zipTiers = .ok 0x39 := by decide

theorem decode_zipTiers : Zip.decode 0x39 = tierZip := by decide

/-- The tier that is evaluated for a lane: lanes are counted from the top. -/
def tierOfLane (lane : Nat) : Fin 8 := ⟨7 - lane, by omega⟩

private theorem laneValues_tierZip (lane : Nat) :
    Action.laneValues tierZip [Report.ofLanes table.toList, report] lane
      = [Report.ofLane table[tierOfLane lane],
          Report.ofLane (Report.lane report (tierOfLane lane))] := by
  have hentry : table.toList[7 - lane]? = some table[tierOfLane lane] := by
    rw [Vector.getElem?_toList]
    exact Vector.getElem?_eq_getElem (tierOfLane lane).isLt
  have hslice : ∀ v, laneSlice v lane tierZip.lanes tierZip.laneBits
      = Report.ofLane (Report.lane v (7 - lane)) := fun v => Report.laneSlice_eq_ofLane v lane
  simp only [Action.laneValues, List.map_cons, List.map_nil, hslice]
  rw [Report.lane_ofLanes (by simp) hentry]
  rfl

/-- A lane is below the one of a tier that was never held exactly if it is not that
one. -/
theorem blt_never (value : UInt32) :
    (Report.ofLane value).blt (Report.ofLane Report.never) = true ↔ value ≠ Report.never := by
  have hvalue := value.toNat_lt
  have hnever : Report.never.toNat = 2 ^ 32 - 1 := rfl
  rw [Word.blt_iff, Report.toNat_ofLane, Report.toNat_ofLane, hnever, Ne, ← UInt32.toNat_inj,
    hnever]
  omega

/-- Choosing by the comparison with a tier never held makes the value of a tier. -/
theorem choice_eq_tierEntry (otherwise : Word) (i : Fin 8) :
    (if (Word.ofBool ((Report.ofLane (Report.lane report i)).blt
        (Report.ofLane Report.never))).isZero then otherwise else Report.ofLane table[i])
      = tierEntry table report otherwise i := by
  rw [tierEntry]
  by_cases hlane : Report.lane report i = Report.never
  · rw [if_pos hlane, hlane]
    rfl
  · have hblt := (blt_never (Report.lane report i)).mpr hlane
    rw [if_neg hlane, hblt]
    rfl

/-- A program whose second source is evaluated for each tier. -/
def tierProgram (main : Source) (k : UInt8) (table : Vector UInt32 8) (contract : Address)
    (stackLength : UInt64) : Program :=
  ⟨[main, heldTier k], tierConstants table contract, stackLength, 2⟩

section

variable (main : Source) {k : UInt8} (stackLength : UInt64) {otherwise : Word}
variable (hk : ∀ frame, readConstant (tierConstants table contract) frame k = .ok otherwise)
include hk

/-- The source for a tier leaves the value of the tier. -/
theorem evaluated_heldTier (arguments : List Word) (frames : List Nat) (lane : Nat)
    (stack : List Word) :
    (tierProgram main k table contract stackLength).evaluated env 1
        (Program.laneWorkspace tierZip [Report.ofLanes table.toList, report] arguments frames
          lane stack)
      = .ok (Program.laneWorkspace tierZip [Report.ofLanes table.toList, report] arguments frames
          lane (stack ++ [tierEntry table report otherwise (tierOfLane lane)])) := by
  let entry := Report.ofLane table[tierOfLane lane]
  let held := Report.ofLane (Report.lane report (tierOfLane lane))
  let below := arguments ++ [entry, held]
  -- the frame of the lane is the current one whatever is on the stack
  have hread : ∀ (operand : UInt8) (v : Word) (stack : List Word),
      readConstant (tierConstants table contract) [entry, held] operand = .ok v →
      (tierProgram main k table contract stackLength).performed env
          [(Instruction.constant.opcode, operand)] ⟨stack, below, arguments.length :: frames⟩
        = .ok ⟨stack ++ [v], below, arguments.length :: frames⟩ := by
    intro operand v stack h
    refine Program.performed_constant_of_ok ?_
    have hframe : below.drop arguments.length = [entry, held] := List.drop_left
    exact (congrArg (readConstant _ · operand) hframe).trans h
  have hcompare : (tierProgram main k table contract stackLength).performed env
        [(Instruction.lessThan.opcode, 0)]
        ⟨stack ++ [held, Report.ofLane Report.never], below, arguments.length :: frames⟩
      = .ok ⟨stack ++ [Word.ofBool (held.blt (Report.ofLane Report.never))], below,
          arguments.length :: frames⟩ :=
    Program.performed_comparison _ env stack below _ .less held (Report.ofLane Report.never) 0
  have hchoose := Program.performed_eagerIf (tierProgram main k table contract stackLength)
    env stack below (arguments.length :: frames)
    (Word.ofBool (held.blt (Report.ofLane Report.never))) entry otherwise 0
  rw [choice_eq_tierEntry] at hchoose
  rw [evaluated_code rfl, Program.laneWorkspace, Program.laneWorkspace, laneValues_tierZip]
  change Program.performed _ env [(_, argument 1), (_, 3), (_, 0), (_, argument 0), (_, k),
    (_, 0)] ⟨stack, below, _⟩ = _
  rw [Program.performed_cons_of_ok (hread (argument 1) held stack rfl),
    Program.performed_cons_of_ok (hread 3 (Report.ofLane Report.never) _ rfl),
    List.append_assoc, List.singleton_append, Program.performed_cons_of_ok hcompare,
    Program.performed_cons_of_ok (hread (argument 0) entry _ rfl),
    Program.performed_cons_of_ok (hread k otherwise _ (hk _)), List.append_assoc,
    List.singleton_append, List.append_assoc]
  exact hchoose

/-! ## The largest value -/

/-- The instructions that leave the values of the tiers. -/
def tierValues : List (Instruction × UInt8) :=
  [(.constant, 1), (.constant, 2), (.sender, 0), (.tierReport, 0), (.zipmap, 0x39)]

/-- The instructions that leave the largest value of the tiers. -/
def bestTier : List (Instruction × UInt8) := tierValues ++ [(.max, 8)]

/-- `ZIPMAP` makes the values of the tiers, the last tier deepest. -/
theorem performed_zipTiers (base : List Word) :
    (tierProgram main k table contract stackLength).performed env
        [(Instruction.zipmap.opcode, 0x39)]
        ⟨base ++ [Report.ofLanes table.toList, report], [], []⟩
      = .ok ⟨base ++ (List.range 8).map (tierEntry table report otherwise ∘ tierOfLane), [],
          []⟩ := by
  have hexists : (Zip.decode 0x39).source.toNat
      < (tierProgram main k table contract stackLength).sources.length := by
    rw [decode_zipTiers]
    exact Nat.lt_add_one 1
  refine Program.performed_zipmap rfl (by decide) hexists ?_ base
  intro lane stack
  rw [decode_zipTiers]
  exact evaluated_heldTier main stackLength hk [] [] lane stack

variable {chain : Chain} {signer : Address} (hsigner : env.signer = some (.ok signer))
  (hchain : env.chain = some chain)
  (hreport : chain (.tierReport contract signer []) = .ok report)
include hsigner hchain hreport

/-- The signer's report is asked for and zipped with the table. -/
theorem performed_tierValues (base : List Word) :
    (tierProgram main k table contract stackLength).performed env (pairsOf tierValues)
        ⟨base, [], []⟩
      = .ok ⟨base ++ (List.range 8).map (tierEntry table report otherwise ∘ tierOfLane), [],
          []⟩ := by
  have htable : (tierProgram main k table contract stackLength).performed env
        [(Instruction.constant.opcode, 1)] ⟨base, [], []⟩
      = .ok ⟨base ++ [Report.ofLanes table.toList], [], []⟩ :=
    Program.performed_constant_of_ok rfl
  have hcontract : (tierProgram main k table contract stackLength).performed env
        [(Instruction.constant.opcode, 2)] ⟨base ++ [Report.ofLanes table.toList], [], []⟩
      = .ok ⟨base ++ [Report.ofLanes table.toList] ++ [contract.toWord], [], []⟩ :=
    Program.performed_constant_of_ok rfl
  -- the addresses go through words and come back unchanged
  have hask : (tierProgram main k table contract stackLength).performed env
        [(Instruction.tierReport.opcode, 0)]
        ⟨base ++ [Report.ofLanes table.toList] ++ [contract.toWord, signer.toWord], [], []⟩
      = .ok ⟨base ++ [Report.ofLanes table.toList] ++ [report], [], []⟩ := by
    refine Program.performed_tierReport _ env _ [] [] hchain _ _ [] rfl ?_
    rw [Address.ofWord_toWord, Address.ofWord_toWord]
    exact hreport
  change Program.performed _ env [(_, 1), (_, 2), (_, 0), (_, 0), (_, 0x39)] _ = _
  rw [Program.performed_cons_of_ok htable, Program.performed_cons_of_ok hcontract,
    Program.performed_cons_of_ok (Program.performed_sender _ env hsigner 0 _)]
  rw [List.append_assoc (base ++ _), List.singleton_append,
    Program.performed_cons_of_ok hask, List.append_assoc, List.singleton_append]
  exact performed_zipTiers main stackLength hk base

theorem performed_bestTier (base : List Word) :
    ∃ best, (∃ i, tierEntry table report otherwise i = best) ∧
      (∀ i, (tierEntry table report otherwise i).toNat ≤ best.toNat) ∧
      (tierProgram main k table contract stackLength).performed env (pairsOf bestTier)
          ⟨base, [], []⟩ = .ok ⟨base ++ [best], [], []⟩ := by
  have hentries := performed_tierValues main stackLength hk hsigner hchain hreport base
  obtain ⟨first, rest, hvalues⟩ : ∃ first rest,
      (List.range 8).map (tierEntry table report otherwise ∘ tierOfLane) = first :: rest :=
    ⟨_, _, rfl⟩
  have hlength : 8 = rest.length + 1 := congrArg List.length hvalues
  obtain ⟨best, hmem, hbound, hfold⟩ := Arithmetic.fold_max first rest
  rw [← hvalues] at hmem hbound
  refine ⟨best, ?_, ?_, ?_⟩
  · obtain ⟨lane, -, hlane⟩ := List.mem_map.mp hmem
    exact ⟨tierOfLane lane, hlane⟩
  · intro i
    have htier : tierOfLane (7 - i) = i := by
      apply Fin.ext
      change 7 - (7 - i.val) = i.val
      omega
    refine hbound _ (List.mem_map.mpr ⟨7 - i, List.mem_range.mpr (by omega), ?_⟩)
    rw [Function.comp_apply, htier]
  · have hmax : (tierProgram main k table contract stackLength).performed env
          [(Instruction.max.opcode, 8)] ⟨base ++ first :: rest, [], []⟩
        = (Arithmetic.max.fold first rest).map fun v => ⟨base ++ [v], [], []⟩ :=
      Program.performed_arithmetic _ env base [] [] .max first rest hlength
    rw [hfold] at hmax
    rw [hvalues] at hentries
    exact (Program.performed_append_of_ok hentries _).trans hmax

end

/-! ## Programs that are linked with a table -/

/-- The first source of a program with a tier table reaches only the second
one. -/
theorem eq_one_of_reaches {ops : List (Instruction × UInt8)} {k : UInt8} {stackLength : UInt64}
    (hops : ∀ operand, (Instruction.zipmap, operand) ∈ ops → operand = 0x39) {j : Nat}
    (h : (tierProgram (code ops) k table contract stackLength).Reaches 0 j) : j = 1 := by
  induction h with
  | single hcall =>
      obtain ⟨source, hsource, hmem⟩ := hcall
      cases hsource
      obtain ⟨operand, hop, htarget⟩ := mem_zipTarget?_code hmem
      rw [hops operand hop, decode_zipTiers] at htarget
      exact htarget.symm
  | tail _ hcall ih =>
      subst ih
      obtain ⟨source, hsource, hmem⟩ := hcall
      cases hsource
      -- the source for a tier has no `ZIPMAP`
      obtain ⟨operand, hop, -⟩ := mem_zipTarget?_code hmem
      simp at hop

/-- Instructions with a tier table work on the values that the program before
them leaves. -/
theorem output_of_link_tierProgram {p combined : Program} {ops : List (Instruction × UInt8)}
    {k : UInt8} {stackLength : UInt64}
    (hlink : p.link (tierProgram (code ops) k table contract stackLength) = .ok combined)
    (hops : ∀ operand, (Instruction.zipmap, operand) ∈ ops → operand = 0x39)
    {values : List Word} (hp : p.output env = .ok values) {result : Except Fault Workspace}
    (hresult : (tierProgram (code ops) k table contract stackLength).performed env (pairsOf ops)
      ⟨values, [], []⟩ = result)
    (hsteady : ∀ e, result = .error e → e.isNesting = false) :
    combined.output env = result.map Workspace.stack := by
  refine output_of_link_code hlink rfl ?_ hp hresult hsteady
  intro j hreach
  rw [eq_one_of_reaches hops hreach]
  exact ⟨Nat.le_refl 1, Nat.lt_add_one 1⟩

/-! ## Discounts -/

/-- The entries of a table for the tiers that a report holds. -/
def heldEntries (table : Vector UInt32 8) (report : Word) : List Nat :=
  ((List.finRange 8).filter fun i : Fin 8 => Report.lane report i ≠ Report.never).map
    fun i => table[i].toNat

/-- The largest entry of a table among the tiers that a report holds, or another
number if it holds none. -/
def bestHeld (table : Vector UInt32 8) (report : Word) (otherwise : Nat) : Nat :=
  (heldEntries table report).max?.getD otherwise

private theorem mem_heldEntries {n : Nat} :
    n ∈ heldEntries table report
      ↔ ∃ i : Fin 8, Report.lane report i ≠ Report.never ∧ table[i].toNat = n := by
  simp [heldEntries]

private theorem toNat_tierEntry (otherwise : Word) (i : Fin 8) :
    (tierEntry table report otherwise i).toNat
      = if Report.lane report i = Report.never then otherwise.toNat else table[i].toNat := by
  rw [tierEntry]
  split
  · rfl
  · rw [Report.toNat_ofLane]

/-- The entry of a tier that is held is at most the best one. -/
theorem le_bestHeld {i : Fin 8} (h : Report.lane report i ≠ Report.never) (otherwise : Nat) :
    table[i].toNat ≤ bestHeld table report otherwise :=
  List.le_max?_getD_of_mem (mem_heldEntries.mpr ⟨i, h, rfl⟩)

/-- The best entry is at most what bounds the entries of the tiers that are held and,
if there are none, the other number. -/
theorem bestHeld_le {n otherwise : Nat}
    (hheld : ∀ i : Fin 8, Report.lane report i ≠ Report.never → table[i].toNat ≤ n)
    (hnone : (∀ i : Fin 8, Report.lane report i = Report.never) → otherwise ≤ n) :
    bestHeld table report otherwise ≤ n := by
  unfold bestHeld
  cases hmax : (heldEntries table report).max? with
  | none =>
      rw [List.max?_eq_none_iff] at hmax
      refine hnone fun i => ?_
      by_contra hi
      have hmem : table[i].toNat ∈ heldEntries table report := mem_heldEntries.mpr ⟨i, hi, rfl⟩
      simp [hmax] at hmem
  | some best =>
      obtain ⟨i, hi, rfl⟩ := mem_heldEntries.mp (List.max?_mem hmax)
      exact hheld i hi

/-- The largest value of all tiers is the best entry of the tiers that are held, except
that the value of the others counts as well if some tier is not held. -/
theorem toNat_of_tierEntry {otherwise best : Word}
    (hattained : ∃ i, tierEntry table report otherwise i = best)
    (hbound : ∀ i, (tierEntry table report otherwise i).toNat ≤ best.toNat) :
    best.toNat = if ∃ i : Fin 8, Report.lane report i = Report.never then
        max otherwise.toNat (bestHeld table report otherwise.toNat)
      else bestHeld table report otherwise.toNat := by
  have hother : ∀ i : Fin 8, Report.lane report i = Report.never →
      otherwise.toNat ≤ best.toNat := by
    intro i hi
    have hvalue := hbound i
    rwa [toNat_tierEntry, if_pos hi] at hvalue
  have hle : bestHeld table report otherwise.toNat ≤ best.toNat := by
    refine bestHeld_le ?_ fun hnone => hother 0 (hnone 0)
    intro i hi
    have hvalue := hbound i
    rwa [toNat_tierEntry, if_neg hi] at hvalue
  obtain ⟨i, rfl⟩ := hattained
  by_cases hi : Report.lane report i = Report.never
  · rw [if_pos ⟨i, hi⟩]
    have hvalue : (tierEntry table report otherwise i).toNat = otherwise.toNat := by
      rw [toNat_tierEntry, if_pos hi]
    omega
  · have hvalue : (tierEntry table report otherwise i).toNat = table[i].toNat := by
      rw [toNat_tierEntry, if_neg hi]
    have hbest : table[i].toNat ≤ bestHeld table report otherwise.toNat := le_bestHeld hi _
    split
    · next hsome =>
        obtain ⟨j, hj⟩ := hsome
        have := hother j hj
        omega
    · omega

/-- The instructions that take a number of hundredths of a value. -/
def hundredths : List (Instruction × UInt8) := [(.mul, 2), (.constant, 0), (.div, 2)]

/-- Hundredths are rounded down; the product before the division must be a
word. -/
theorem performed_hundredths (env : Environment) (main : Source) (k : UInt8)
    (table : Vector UInt32 8) (contract : Address) (stackLength : UInt64) (v x : Word) :
    (tierProgram main k table contract stackLength).performed env (pairsOf hundredths)
        ⟨[v, x], [], []⟩
      = if v.toNat * x.toNat < 2 ^ 256 then
          .ok ⟨[Word.ofNat (v.toNat * x.toNat / 100)], [], []⟩
        else .error (.arithmeticOverflow "MUL") := by
  have hmul := Program.performed_arithmetic_pair
    (tierProgram main k table contract stackLength) env [] [] [] .mul v x
  change Program.performed _ env [(_, 2), (_, 0), (_, 2)] _ = _
  rw [Program.performed_cons]
  refine (congrArg (Except.bind · _) hmul).trans ?_
  rw [Arithmetic.step_mul]
  split
  · next hfits =>
      have hload : (tierProgram main k table contract stackLength).performed env
            [(Instruction.constant.opcode, 0)] ⟨[Word.ofNat (v.toNat * x.toNat)], [], []⟩
          = .ok ⟨[Word.ofNat (v.toNat * x.toNat), Word.ofSmall 100], [], []⟩ :=
        Program.performed_constant_of_ok rfl
      have hdiv := Program.performed_arithmetic_pair
        (tierProgram main k table contract stackLength) env [] [] [] .div
        (Word.ofNat (v.toNat * x.toNat)) (Word.ofSmall 100)
      have hhundred : (Word.ofSmall 100).toNat = 100 := rfl
      rw [Arithmetic.step_div, hhundred, if_neg (by decide), Word.toNat_ofNat_of_lt hfits] at hdiv
      exact (Program.performed_cons_of_ok hload _).trans hdiv
  · rfl

/-- The instructions of a discount. -/
def discount : List (Instruction × UInt8) :=
  (.constant, 0) :: bestTier ++ (.sub, 2) :: hundredths

/-- A discount is linked only if no entry is above one hundred. -/
theorem link_of_discounted {p combined : Program} (h : discounted p contract table = .ok combined) :
    (∀ i : Fin 8, table[i].toNat ≤ 100) ∧
      p.link (tierProgram (code discount) 4 table contract 11) = .ok combined := by
  rw [discounted] at h
  cases hfind : table.toList.find? (100 < ·) with
  | some percent =>
      rw [hfind] at h
      cases h
  | none =>
      rw [hfind, zipTiers_eq] at h
      refine ⟨?_, h⟩
      intro i
      have hmem : table[i] ∈ table.toList := by simp
      have hle := List.find?_eq_none.mp hfind _ hmem
      rw [decide_eq_true_iff, UInt32.lt_iff_toNat_lt, Nat.not_lt] at hle
      exact hle

section

variable {chain : Chain} {signer : Address} (hsigner : env.signer = some (.ok signer))
  (hchain : env.chain = some chain)
  (hreport : chain (.tierReport contract signer []) = .ok report)
  (htable : ∀ i : Fin 8, table[i].toNat ≤ 100)
include hsigner hchain hreport htable

private theorem performed_discount (v : Word) :
    bestHeld table report 0 ≤ 100 ∧
      (tierProgram (code discount) 4 table contract 11).performed env (pairsOf discount)
          ⟨[v], [], []⟩
        = if v.toNat * (100 - bestHeld table report 0) < 2 ^ 256 then
            .ok ⟨[Word.ofNat (v.toNat * (100 - bestHeld table report 0) / 100)], [], []⟩
          else .error (.arithmeticOverflow "MUL") := by
  have hzero : ∀ frame, readConstant (tierConstants table contract) frame 4 = .ok Word.zero :=
    fun _ => rfl
  obtain ⟨best, hattained, hbound, hbest⟩ := performed_bestTier (code discount) 11 hzero hsigner
    hchain hreport [v, Word.ofSmall 100]
  -- the value zero of the tiers that are not held adds nothing
  have hvalue : bestHeld table report 0 = best.toNat := by
    simp [toNat_of_tierEntry hattained hbound]
  have hle : best.toNat ≤ 100 := by
    obtain ⟨i, rfl⟩ := hattained
    rw [toNat_tierEntry]
    split
    · exact Nat.zero_le 100
    · exact htable i
  have hload : (tierProgram (code discount) 4 table contract 11).performed env
      [(Instruction.constant.opcode, 0)] ⟨[v], [], []⟩ = .ok ⟨[v, Word.ofSmall 100], [], []⟩ :=
    Program.performed_constant_of_ok rfl
  have hsub := Program.performed_arithmetic_pair (tierProgram (code discount) 4 table contract 11)
    env [v] [] [] .sub (Word.ofSmall 100) best
  have hhundred : (Word.ofSmall 100).toNat = 100 := rfl
  rw [Arithmetic.step_sub, hhundred, if_pos hle] at hsub
  have hscale := performed_hundredths env (code discount) 4 table contract 11 v
    (Word.ofNat (100 - best.toNat))
  rw [Word.toNat_ofNat_of_lt (by omega)] at hscale
  rw [hvalue]
  refine ⟨hle, ?_⟩
  change Program.performed _ env ((_, 0) :: pairsOf bestTier ++ (_, 2) :: pairsOf hundredths) _ = _
  rw [List.cons_append, Program.performed_cons_of_ok hload, Program.performed_append_of_ok hbest]
  exact (Program.performed_cons_of_ok hsub _).trans hscale

end

end WordMachine.Combinator

namespace WordMachine

open Combinator in
/-- A discount applies the best percentage of the table among the tiers that the
signer holds.  Let a program leave one value when it is run alone, and let the
chain answer the query for the signer's report.  Then the discounted program leaves
what is left of the value after the discount, rounded down, and it overflows exactly
if the value times the percentage that is left is no word. -/
theorem discounted_applies_best_held {env : Environment} {p combined : Program}
    {contract signer : Address} {table : Vector UInt32 8} {chain : Chain} {v report : Word}
    (hlink : discounted p contract table = .ok combined) (hp : p.output env = .ok [v])
    (hsigner : env.signer = some (.ok signer)) (hchain : env.chain = some chain)
    (hreport : chain (.tierReport contract signer []) = .ok report) :
    bestHeld table report 0 ≤ 100 ∧
      combined.output env
        = if v.toNat * (100 - bestHeld table report 0) < 2 ^ 256 then
            .ok [Word.ofNat (v.toNat * (100 - bestHeld table report 0) / 100)]
          else .error (.arithmeticOverflow "MUL") := by
  obtain ⟨htable, hlinked⟩ := link_of_discounted hlink
  obtain ⟨hle, hperformed⟩ := performed_discount hsigner hchain hreport htable v
  refine ⟨hle, ?_⟩
  have hops : ∀ operand, (Instruction.zipmap, operand) ∈ discount → operand = 0x39 := by
    intro operand hop
    simpa [discount, bestTier, tierValues, hundredths] using hop
  rw [output_of_link_tierProgram hlinked hops hp hperformed]
  · split <;> rfl
  · intro e he
    split at he
    · cases he
    · cases he
      rfl

open Combinator in
/-- A price of 1000, made by a source that `ZIPMAP` evaluates, for a signer who
holds the first two tiers. -/
theorem discounted_applies_best_held_of_two_tiers :
    let price : Program := ⟨[ code [(.constant, 0), (.zipmap, 1)],
      code [(.constant, 0x80), (.constant, 0), (.add, 2)] ], [Word.ofSmall 500], 0, 0⟩
    let table : Vector UInt32 8 := #v[10, 20, 30, 40, 50, 60, 70, 80]
    let signer := Address.ofWord Word.one
    let report := Report.ofLanes ([7, 9] ++ List.replicate 6 Report.never)
    let env : Environment :=
      { chain := some (Ledger.ofFacts [.tierReport Address.zero signer report]).chain
        signer := some (.ok signer) }
    let discounted : Program := ⟨[ code [(.constant, 0), (.zipmap, 1), (.constant, 1),
        (.constant, 2), (.constant, 3), (.sender, 0), (.tierReport, 0), (.zipmap, 0x3a), (.max, 8),
        (.sub, 2), (.mul, 2), (.constant, 1), (.div, 2)],
      code [(.constant, 0x80), (.constant, 0), (.add, 2)],
      code [(.constant, 0x81), (.constant, 4), (.lessThan, 0), (.constant, 0x80), (.constant, 5),
        (.eagerIf, 0)] ],
      Word.ofSmall 500 :: tierConstants table Address.zero, 11, 2⟩
    Combinator.discounted price Address.zero table = .ok discounted ∧
      discounted.output env = .ok [Word.ofSmall 800] := by
  intro price table signer report env discounted
  have hlink : Combinator.discounted price Address.zero table = .ok discounted := by decide
  have hprice : price.output env = .ok [Word.ofSmall 1000] := by decide
  have hreport : (Ledger.ofFacts [.tierReport Address.zero signer report]).chain
      (.tierReport Address.zero signer []) = .ok report := by decide
  have hout := (discounted_applies_best_held hlink hprice rfl rfl hreport).2
  exact ⟨hlink, hout.trans (by decide +kernel)⟩

end WordMachine
