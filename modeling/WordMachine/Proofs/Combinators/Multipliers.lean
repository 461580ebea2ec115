import WordMachine.Proofs.Combinators.Tiers

/-!
# Multipliers for tiers

A multiplier scales a value by a percentage of a tier table.  Tiers that the signer does
not hold enter the choice of the largest percentage as one hundred.  This is harmless as
long as some tier that is held has an entry of one hundred or more, or all tiers are
held.  Otherwise the entries of the tiers held never take effect: a table cannot reduce
a value before its last tier is reached.

## Main results

* `Combinator.performed_multiplier` — the percentage that is applied
* `multiplied_applies_best_held_above_hundred` — what a multiplier leaves
-/

namespace WordMachine.Combinator

variable {env : Environment} {table : Vector UInt32 8} {contract : Address} {report : Word}

/-- The instructions of a multiplier. -/
def multiplier : List (Instruction × UInt8) := bestTier ++ hundredths

theorem link_of_multiplied {p combined : Program}
    (h : multiplied p contract table = .ok combined) :
    p.link (tierProgram (code multiplier) 0 table contract 10) = .ok combined := by
  rw [multiplied, zipTiers_eq] at h
  exact h

/-- The percentage that a multiplier applies: the best entry of the tiers that are held,
but at least one hundred if some tier is not held. -/
def appliedPercentage (table : Vector UInt32 8) (report : Word) : Nat :=
  if ∃ i : Fin 8, Report.lane report i = Report.never then
    max 100 (bestHeld table report 100)
  else bestHeld table report 100

theorem performed_multiplier (table : Vector UInt32 8) {chain : Chain} {signer : Address}
    (hsigner : env.signer = some (.ok signer)) (hchain : env.chain = some chain)
    (hreport : chain (.tierReport contract signer []) = .ok report) (v : Word) :
    (tierProgram (code multiplier) 0 table contract 10).performed env (pairsOf multiplier)
        ⟨[v], [], []⟩
      = if v.toNat * appliedPercentage table report < 2 ^ 256 then
          .ok ⟨[Word.ofNat (v.toNat * appliedPercentage table report / 100)], [], []⟩
        else .error (.arithmeticOverflow "MUL") := by
  have hhundred : ∀ frame,
      readConstant (tierConstants table contract) frame 0 = .ok (Word.ofSmall 100) :=
    fun _ => rfl
  obtain ⟨best, hattained, hbound, hbest⟩ := performed_bestTier (code multiplier) 10 hhundred
    hsigner hchain hreport [v]
  have hvalue : best.toNat = appliedPercentage table report :=
    toNat_of_tierEntry hattained hbound
  rw [← hvalue, ← performed_hundredths env (code multiplier) 0 table contract 10 v best]
  exact Program.performed_append_of_ok hbest _

/-- A multiplied program leaves the percentage that is applied to its value. -/
theorem output_multiplied {p combined : Program} {signer : Address} {chain : Chain} {v : Word}
    (hlink : multiplied p contract table = .ok combined) (hp : p.output env = .ok [v])
    (hsigner : env.signer = some (.ok signer)) (hchain : env.chain = some chain)
    (hreport : chain (.tierReport contract signer []) = .ok report) :
    combined.output env
      = if v.toNat * appliedPercentage table report < 2 ^ 256 then
          .ok [Word.ofNat (v.toNat * appliedPercentage table report / 100)]
        else .error (.arithmeticOverflow "MUL") := by
  have hops : ∀ operand, (Instruction.zipmap, operand) ∈ multiplier → operand = 0x39 := by
    intro operand hop
    simpa [multiplier, bestTier, tierValues, hundredths] using hop
  have hperformed := performed_multiplier table hsigner hchain hreport v
  rw [output_of_link_tierProgram (link_of_multiplied hlink) hops hp hperformed]
  · split <;> rfl
  · intro e he
    split at he
    · cases he
    · cases he
      rfl

end WordMachine.Combinator

namespace WordMachine

open Combinator in
/-- A multiplier applies the best percentage of the table among the tiers that the signer
holds, as long as all tiers are held or this percentage is not below one hundred, which
it also counts as if no tier is held.  If some tier is not held and the best percentage
is below one hundred, the value stays as it is.  In either case the product with the
percentage that is applied must be a word. -/
theorem multiplied_applies_best_held_above_hundred {env : Environment} {p combined : Program}
    {contract signer : Address} {table : Vector UInt32 8} {chain : Chain} {v report : Word}
    (hlink : multiplied p contract table = .ok combined) (hp : p.output env = .ok [v])
    (hsigner : env.signer = some (.ok signer)) (hchain : env.chain = some chain)
    (hreport : chain (.tierReport contract signer []) = .ok report) :
    let best := bestHeld table report 100
    ((∀ i : Fin 8, Report.lane report i ≠ Report.never) ∨ 100 ≤ best →
      combined.output env
        = if v.toNat * best < 2 ^ 256 then .ok [Word.ofNat (v.toNat * best / 100)]
          else .error (.arithmeticOverflow "MUL")) ∧
    ((∃ i : Fin 8, Report.lane report i = Report.never) → best < 100 →
      combined.output env
        = if v.toNat * 100 < 2 ^ 256 then .ok [v] else .error (.arithmeticOverflow "MUL")) := by
  intro best
  have hout := output_multiplied hlink hp hsigner hchain hreport
  constructor
  · intro hbest
    have happlied : appliedPercentage table report = best := by
      unfold appliedPercentage
      rcases hbest with hall | hbest
      · exact if_neg (by simpa using hall)
      · rw [Nat.max_eq_right hbest, ite_self]
    rw [hout, happlied]
  · intro hsome hbest
    have happlied : appliedPercentage table report = 100 := by
      unfold appliedPercentage
      rw [if_pos hsome, Nat.max_eq_left (Nat.le_of_lt hbest)]
    rw [hout, happlied, Nat.mul_div_cancel _ (by decide), Word.ofNat_toNat]

open Combinator in
/-- A price of 1000 for a signer who holds the first two tiers, of which the second one
has the better percentage. -/
theorem multiplied_applies_best_held_above_hundred_of_two_tiers :
    let price := value (Word.ofSmall 1000)
    let table : Vector UInt32 8 := #v[80, 150, 300, 300, 300, 300, 300, 300]
    let signer := Address.ofWord Word.one
    let report := Report.ofLanes ([7, 9] ++ List.replicate 6 Report.never)
    let env : Environment :=
      { chain := some (Ledger.ofFacts [.tierReport Address.zero signer report]).chain
        signer := some (.ok signer) }
    let multiplied : Program := ⟨[ code [(.constant, 0), (.constant, 2), (.constant, 3),
        (.sender, 0), (.tierReport, 0), (.zipmap, 0x39), (.max, 8), (.mul, 2), (.constant, 1),
        (.div, 2)],
      code [(.constant, 0x81), (.constant, 4), (.lessThan, 0), (.constant, 0x80), (.constant, 1),
        (.eagerIf, 0)] ],
      Word.ofSmall 1000 :: tierConstants table Address.zero, 11, 2⟩
    Combinator.multiplied price Address.zero table = .ok multiplied ∧
      multiplied.output env = .ok [Word.ofSmall 1500] := by
  intro price table signer report env multiplied
  have hlink : Combinator.multiplied price Address.zero table = .ok multiplied := by decide
  have hprice : price.output env = .ok [Word.ofSmall 1000] := by decide
  have hreport : (Ledger.ofFacts [.tierReport Address.zero signer report]).chain
      (.tierReport Address.zero signer []) = .ok report := by decide
  have hout := (multiplied_applies_best_held_above_hundred hlink hprice rfl rfl hreport).1
    (.inr (by decide +kernel))
  exact ⟨hlink, hout.trans (by decide +kernel)⟩

open Combinator in
/-- The percentage of the only tier that is held is 50, yet the price stays at 1000. -/
theorem multiplied_ignores_percentage_below_hundred :
    let price := value (Word.ofSmall 1000)
    let table : Vector UInt32 8 := #v[50, 50, 50, 50, 50, 50, 50, 50]
    let signer := Address.ofWord Word.one
    let report := Report.ofLanes (7 :: List.replicate 7 Report.never)
    let env : Environment :=
      { chain := some (Ledger.ofFacts [.tierReport Address.zero signer report]).chain
        signer := some (.ok signer) }
    price.output env = .ok [Word.ofSmall 1000] ∧ bestHeld table report 100 = 50 ∧
      (Combinator.multiplied price Address.zero table).toOption.map (·.output env)
        = some (.ok [Word.ofSmall 1000]) := by
  decide +kernel

end WordMachine
