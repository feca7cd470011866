/-
# `SmartAccount.Actions` — the modules of actions the account is composed of

`egld_wrapper_actions.rs`, `pair_actions.rs`, `farm_actions.rs` and
`farm_staking_actions.rs`, function by function.  All of them come down to
`execute`, one synchronous call: what is sent leaves the account first (and is
refused when the account does not hold it), then the called contract answers,
then what it sends back comes in.

A storage mapper of another contract is the cell it points to: `none` when the
cell is empty.
-/
import PortfolioPilot.SmartAccount.Types

namespace PortfolioPilot

namespace SmartAccount

open Revert

variable {σ : Type}

/-! ## Decoding returned values -/

def oneOf : List EsdtTokenPayment → Option EsdtTokenPayment
  | [p] => some p
  | _ => none

def twoOf : List EsdtTokenPayment → Option (EsdtTokenPayment × EsdtTokenPayment)
  | [p, q] => some (p, q)
  | _ => none

def threeOf : List EsdtTokenPayment →
    Option (EsdtTokenPayment × EsdtTokenPayment × EsdtTokenPayment)
  | [p, q, r] => some (p, q, r)
  | _ => none

@[simp] theorem oneOf_eq_some {ps : List EsdtTokenPayment} {p : EsdtTokenPayment} :
    oneOf ps = some p ↔ ps = [p] := by
  rcases ps with _ | ⟨a, _ | ⟨b, ps⟩⟩ <;> simp [oneOf]

@[simp] theorem twoOf_eq_some {ps : List EsdtTokenPayment}
    {x : EsdtTokenPayment × EsdtTokenPayment} : twoOf ps = some x ↔ ps = [x.1, x.2] := by
  rcases ps with _ | ⟨a, _ | ⟨b, _ | ⟨c, ps⟩⟩⟩ <;> simp [twoOf, Prod.ext_iff]

@[simp] theorem threeOf_eq_some {ps : List EsdtTokenPayment}
    {x : EsdtTokenPayment × EsdtTokenPayment × EsdtTokenPayment} :
    threeOf ps = some x ↔ ps = [x.1, x.2.1, x.2.2] := by
  rcases ps with _ | ⟨a, _ | ⟨b, _ | ⟨c, _ | ⟨d, ps⟩⟩⟩⟩ <;> simp [threeOf, Prod.ext_iff]

/-- `a - b` of `BigUint`s. -/
def bigUintSub (a b : Nat) : Exec σ Nat := do
  require (b ≤ a) .subtraction
  return a - b

@[simp] theorem commits_bigUintSub {a b n : Nat} {s s' : State σ} :
    Commits (bigUintSub a b) s n s' ↔ b ≤ a ∧ n = a - b ∧ s' = s := by
  simp only [bigUintSub, commits_bind, commits_require, commits_pure]
  constructor
  · rintro ⟨_, _, ⟨h, rfl⟩, rfl, rfl⟩; exact ⟨h, rfl, rfl⟩
  · rintro ⟨h, rfl, rfl⟩; exact ⟨(), _, ⟨h, rfl⟩, rfl, rfl⟩

/-! ## One synchronous call -/

/-- The state after the call `c`: `esdt` is left of the tokens once the payments
are out, `o` is the outside and `r` what came back. -/
def State.after (s : State σ) (c : ContractCall) (esdt : Ledger TokenKey) (o : σ)
    (r : Returned) : State σ :=
  { s with
    egld := s.egld - c.egld + r.egld
    esdt := esdt.creditAll (r.transfers.map EsdtTokenPayment.booked)
    outside := o
    log := s.log ++ [Event.called c r] }

/-- `execute_on_dest_context` of the call `c`, with what it sends along. -/
def execute (P : Peers σ) (c : ContractCall) : Exec σ Returned := do
  let s ← get
  require (c.egld ≤ s.egld) .insufficientFunds
  let esdt ← demand (s.esdt.debitAll (c.payments.map EsdtTokenPayment.booked)) .insufficientFunds
  let answer ← demand (P.call s.outside s.self c) .executionFailed
  set (s.after c esdt answer.1 answer.2)
  return answer.2

theorem commits_execute {P : Peers σ} {c : ContractCall} {s s' : State σ} {r : Returned} :
    Commits (execute P c) s r s' ↔
      c.egld ≤ s.egld ∧
      ∃ esdt o, s.esdt.debitAll (c.payments.map EsdtTokenPayment.booked) = some esdt ∧
        P.call s.outside s.self c = some (o, r) ∧ s' = s.after c esdt o r := by
  simp only [execute, commits_bind, commits_get, commits_require, commits_demand, commits_set,
    commits_pure]
  constructor
  · rintro ⟨_, _, ⟨rfl, rfl⟩, _, _, ⟨hegld, rfl⟩, esdt, _, ⟨hd, rfl⟩, a, _, ⟨hc, rfl⟩,
      _, _, rfl, rfl, rfl⟩
    exact ⟨hegld, esdt, a.1, hd, hc, rfl⟩
  · rintro ⟨hegld, esdt, o, hd, hc, rfl⟩
    exact ⟨_, _, ⟨rfl, rfl⟩, (), _, ⟨hegld, rfl⟩, esdt, _, ⟨hd, rfl⟩, (o, r), _, ⟨hc, rfl⟩,
      ⟨⟩, _, rfl, rfl, rfl⟩

/-! ## `egld_wrapper_actions.rs` -/

def getEgldWrapperContractAddressMapper (P : Peers σ) : Exec σ (Option Address) := do
  let s ← get
  let deployerSc ← demand s.storage.smartAccountDeployerAddress .storageDecode
  return P.egldWrapperAddress s.outside deployerSc

def callWrapEgld (P : Peers σ) (egldAmount : Nat) : Exec σ EsdtTokenPayment := do
  let wrapperMapper ← getEgldWrapperContractAddressMapper P
  let wrapperScAddress ← demand wrapperMapper .storageDecode
  let returned ← execute P (.wrapEgld wrapperScAddress egldAmount)
  let returnedWrappedEgld := returned.transfers
  demand (oneOf returnedWrappedEgld) (.require "wrap_egld should output only 1 payment")

def getWegldTokenId (P : Peers σ) : Exec σ TokenIdentifier := do
  let wrapperMapper ← getEgldWrapperContractAddressMapper P
  let wrapperScAddress ← demand wrapperMapper .storageDecode
  let s ← get
  return P.wrappedEgldTokenId s.outside wrapperScAddress

/-! ## `pair_actions.rs` -/

structure PairAddLiqArgs where
  pairAddress : Address
  firstTokens : EsdtTokenPayment
  secondTokens : EsdtTokenPayment
  firstTokenMinAmountOut : Nat
  secondTokenMinAmountOut : Nat

structure PairAddLiqResult where
  lpTokens : EsdtTokenPayment
  firstTokensRemaining : EsdtTokenPayment
  secondTokensRemaining : EsdtTokenPayment

def callPairSwap (P : Peers σ) (pairAddress : Address) (inputTokens : EsdtTokenPayment)
    (requestedTokenId : TokenIdentifier) : Exec σ EsdtTokenPayment := do
  let returned ← execute P
    (.swapTokensFixedInput pairAddress inputTokens requestedTokenId swapMinAmount)
  demand (oneOf returned.result) .resultDecode

def callPairAddLiquidity (P : Peers σ) (args : PairAddLiqArgs) : Exec σ PairAddLiqResult := do
  let firstTokenFullAmount := args.firstTokens.amount
  let secondTokenFullAmount := args.secondTokens.amount
  let returned ← execute P (.addLiquidity args.pairAddress args.firstTokens args.secondTokens
    args.firstTokenMinAmountOut args.secondTokenMinAmountOut)
  let rawResults ← demand (threeOf returned.result) .resultDecode
  let lpTokens := rawResults.1
  let firstTokensUsed := rawResults.2.1
  let secondTokensUsed := rawResults.2.2
  let firstTokensRemainingAmount ← bigUintSub firstTokenFullAmount firstTokensUsed.amount
  let secondTokensRemainingAmount ← bigUintSub secondTokenFullAmount secondTokensUsed.amount
  return {
    lpTokens
    firstTokensRemaining := ⟨firstTokensUsed.tokenIdentifier, 0, firstTokensRemainingAmount⟩
    secondTokensRemaining := ⟨secondTokensUsed.tokenIdentifier, 0, secondTokensRemainingAmount⟩ }

def getFirstTokenIdMapper (P : Peers σ) (scAddress : Address) : Exec σ TokenIdentifier := do
  let s ← get
  return P.firstTokenId s.outside scAddress

def getSecondTokenIdMapper (P : Peers σ) (scAddress : Address) : Exec σ TokenIdentifier := do
  let s ← get
  return P.secondTokenId s.outside scAddress

/-! ## `farm_actions.rs` -/

structure EnterFarmResultWrapper where
  newFarmToken : EsdtTokenPayment
  rewards : EsdtTokenPayment

def callEnterFarm (P : Peers σ) (farmAddress : Address) (tokens : List EsdtTokenPayment) :
    Exec σ EnterFarmResultWrapper := do
  let returned ← execute P (.enterFarm farmAddress tokens)
  let rawResults ← demand (twoOf returned.result) .resultDecode
  return { newFarmToken := rawResults.1, rewards := rawResults.2 }

def getFarmPairContractAddressMapper (P : Peers σ) (scAddress : Address) :
    Exec σ (Option Address) := do
  let s ← get
  return P.pairContractAddress s.outside scAddress

/-! ## `farm_staking_actions.rs` -/

def callFarmStakingStake (P : Peers σ) (scAddress : Address) (tokens : List EsdtTokenPayment) :
    Exec σ (EsdtTokenPayment × EsdtTokenPayment) := do
  let returned ← execute P (.stakeFarm scAddress tokens)
  demand (twoOf returned.result) .resultDecode

def getFarmStakingAddressMapper (P : Peers σ) (tokenId : TokenIdentifier) :
    Exec σ (Option Address) := do
  let s ← get
  let deployerSc ← demand s.storage.smartAccountDeployerAddress .storageDecode
  return P.farmStakingAddressForToken s.outside deployerSc tokenId

end SmartAccount

end PortfolioPilot
