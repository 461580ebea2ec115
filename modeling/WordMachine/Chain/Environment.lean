import WordMachine.Chain.Memory

/-!
# What a run can see

An environment bundles everything a run may read from outside its program: the
words a caller supplies, the chain, the signer and the contract on whose
behalf the program runs.

## Main definitions

* `Signer` — whoever answers for the account that evaluates a program
* `Environment` — the bundle
-/

namespace WordMachine

/-- A signer is what it answers when it is asked for its address. -/
abbrev Signer := Except ChainError Address

/-- Everything a run may read from outside its program. -/
structure Environment where
  /-- Words supplied by the caller. -/
  context : List Word := []
  chain : Option Chain := none
  signer : Option Signer := none
  contract : Option Address := none

namespace Environment

/-- The chain, which must be present. -/
def requireChain (env : Environment) : Except ChainError Chain :=
  env.chain.elim (.error .noProvider) .ok

/-- The signer's address.  The signer must be present, and may have no answer. -/
def requireSigner (env : Environment) : Except ChainError Address :=
  env.signer.getD (.error .noSigner)

/-- The contract's address, which must be present. -/
def requireContract (env : Environment) : Except ChainError Address :=
  env.contract.elim (.error .noContract) .ok

end Environment

end WordMachine
