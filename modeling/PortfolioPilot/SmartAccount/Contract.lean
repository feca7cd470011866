/-
# `SmartAccount.Contract` — `smart-account/src/lib.rs`

The entry points of the account and the four ways a strategy step becomes a
position.  Every amount is computed from the deposit of the call, never from
what is left of it; the liquidity code is written out twice in the source, for
LP and for Farm steps, and is written out twice here.
-/
import PortfolioPilot.SmartAccount.Actions

namespace PortfolioPilot

namespace SmartAccount

open Revert

variable {σ : Type}

/-- `save_user_position`.  The stored vector is read, the position is pushed to
the local copy, and the function ends. -/
def saveUserPosition (userPosition : EsdtTokenPayment) : Exec σ Unit := do
  let s ← get
  let userPortfolioMapper := s.storage.userPortfolio
  let userPortfolio := if !userPortfolioMapper.isEmpty then userPortfolioMapper else []
  -- `push` on the local vector: no `set` of the mapper follows it in the source
  let _userPortfolio := userPortfolio ++ [userPosition]
  set { s with log := s.log ++ [Event.saved userPosition] }

def processEsdtPosition (P : Peers σ) (totalAmount : Nat) (strategyStep : Strategy) :
    Exec σ Unit := do
  let wegldTokenId ← getWegldTokenId P
  let investmentAmount := totalAmount * strategyStep.percentage.toNat / maxPercentage.toNat
  let outputPayment ← callPairSwap P strategyStep.contractAddress
    ⟨wegldTokenId, 0, investmentAmount⟩ strategyStep.outputTokenId
  saveUserPosition outputPayment

def processStakingPosition (P : Peers σ) (totalAmount : Nat) (strategyStep : Strategy) :
    Exec σ Unit := do
  let wegldTokenId ← getWegldTokenId P
  let investmentAmount := totalAmount * strategyStep.percentage.toNat / maxPercentage.toNat
  let swapOutputPayment ← callPairSwap P strategyStep.contractAddress
    ⟨wegldTokenId, 0, investmentAmount⟩ strategyStep.outputTokenId
  let farmStakingMapper ← getFarmStakingAddressMapper P strategyStep.outputTokenId
  let farmStakingAddress ← demand farmStakingMapper .storageDecode
  let farmStakingResult ← callFarmStakingStake P farmStakingAddress [swapOutputPayment]
  let newFarmToken := farmStakingResult.1
  saveUserPosition newFarmToken

def processLpPosition (P : Peers σ) (totalAmount : Nat) (strategyStep : Strategy) :
    Exec σ Unit := do
  let wegldTokenId ← getWegldTokenId P
  let investmentAmount := totalAmount * strategyStep.percentage.toNat / maxPercentage.toNat
  let halfInvestment := investmentAmount / 2
  let swapOutputPayment ← callPairSwap P strategyStep.contractAddress
    ⟨wegldTokenId, 0, halfInvestment⟩ strategyStep.outputTokenId
  let firstTokenId ← getFirstTokenIdMapper P strategyStep.contractAddress
  let secondTokenId ← getSecondTokenIdMapper P strategyStep.contractAddress
  let tokens : EsdtTokenPayment × EsdtTokenPayment :=
    if firstTokenId = wegldTokenId then
      (⟨firstTokenId, 0, halfInvestment⟩, swapOutputPayment)
    else
      (swapOutputPayment, ⟨secondTokenId, 0, halfInvestment⟩)
  let addLiquidityResult ← callPairAddLiquidity P {
    pairAddress := strategyStep.contractAddress
    firstTokens := tokens.1
    secondTokens := tokens.2
    firstTokenMinAmountOut := 1
    secondTokenMinAmountOut := 1 }
  saveUserPosition addLiquidityResult.lpTokens

def processFarmPosition (P : Peers σ) (totalAmount : Nat) (strategyStep : Strategy) :
    Exec σ Unit := do
  let wegldTokenId ← getWegldTokenId P
  let investmentAmount := totalAmount * strategyStep.percentage.toNat / maxPercentage.toNat
  let halfInvestment := investmentAmount / 2
  let pairMapper ← getFarmPairContractAddressMapper P strategyStep.contractAddress
  let pairAddress ← demand pairMapper .storageDecode
  let swapOutputPayment ← callPairSwap P pairAddress
    ⟨wegldTokenId, 0, halfInvestment⟩ strategyStep.outputTokenId
  let firstTokenId ← getFirstTokenIdMapper P pairAddress
  let secondTokenId ← getSecondTokenIdMapper P pairAddress
  let tokens : EsdtTokenPayment × EsdtTokenPayment :=
    if firstTokenId = wegldTokenId then
      (⟨firstTokenId, 0, halfInvestment⟩, swapOutputPayment)
    else
      (swapOutputPayment, ⟨secondTokenId, 0, halfInvestment⟩)
  let addLiquidityResult ← callPairAddLiquidity P {
    pairAddress
    firstTokens := tokens.1
    secondTokens := tokens.2
    firstTokenMinAmountOut := 1
    secondTokenMinAmountOut := 1 }
  let enterFarmPayments := [addLiquidityResult.lpTokens]
  let enterFarmResult ← callEnterFarm P strategyStep.contractAddress enterFarmPayments
  saveUserPosition enterFarmResult.newFarmToken

/-- The `match` in the loop of `setup_smart_account`. -/
def processPosition (P : Peers σ) (totalAmount : Nat) (strategyStep : Strategy) : Exec σ Unit :=
  match strategyStep.positionType with
  | .esdt => processEsdtPosition P totalAmount strategyStep
  | .staking => processStakingPosition P totalAmount strategyStep
  | .lp => processLpPosition P totalAmount strategyStep
  | .farm => processFarmPosition P totalAmount strategyStep

/-! ## Entry points -/

/-- `#[init]` -/
def init (smartAccountDeployerAddress : Address) : Exec σ Unit :=
  modify fun s => { s with
    storage := { s.storage with smartAccountDeployerAddress := some smartAccountDeployerAddress } }

/-- `#[upgrade]` -/
def upgrade : Exec σ Unit := pure ()

/-- `#[only_owner]` -/
def onlyOwner (caller : Address) : Exec σ Unit := do
  let s ← get
  require (caller = s.owner) .notOwner

/-- `#[payable("EGLD")]`: the value of the call is on the balance before the body runs. -/
def receiveEgld (value : Nat) : Exec σ Unit :=
  modify fun s => { s with egld := s.egld + value }

/-- `user_risk_tolerance().set` and `user_strategy().set` -/
def State.storeStrategy (s : State σ) (riskTolerance : UInt64) (userStrategy : List Strategy) :
    State σ :=
  { s with storage := { s.storage with userRiskTolerance := riskTolerance, userStrategy } }

def setupSmartAccount (P : Peers σ) (caller : Address) (egldPayment : Nat)
    (riskTolerance : UInt64) (userStrategy : List Strategy) : Exec σ Unit := do
  receiveEgld egldPayment
  onlyOwner caller
  let wrappedPayment ← callWrapEgld P egldPayment
  let wegldTokenId ← getWegldTokenId P
  require (wrappedPayment.tokenIdentifier = wegldTokenId) (.require "Invalid base token")
  require (userStrategy ≠ []) (.require "No user strategy found")
  require (riskTolerance ≤ maxRiskTolerance) (.require "No user strategy found")
  modify (State.storeStrategy · riskTolerance userStrategy)
  forM userStrategy (processPosition P egldPayment)

end SmartAccount

end PortfolioPilot
