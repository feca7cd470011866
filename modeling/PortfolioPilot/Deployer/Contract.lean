/-
# `Deployer.Contract` — `smart-account-deployer/src`

`lib.rs`, `config.rs` and `strategies.rs`, endpoint by endpoint, and the dispatch
of a transaction.  A call that is undone leaves the world as it was
(`Lib.Revert`).
-/
import PortfolioPilot.Deployer.Types

namespace PortfolioPilot

namespace Deployer

open Revert
open SmartAccount (PositionType Strategy maxPercentage maxRiskTolerance)

variable {X : Type}

/-! ## The framework -/

/-- An endpoint without `#[payable]`. -/
def notPayable (value : Nat) : Exec X Unit := require (value = 0) .notPayable

/-- `#[payable("EGLD")]`: the value of the call is on the balance before the body runs. -/
def receiveEgld (value : Nat) : Exec X Unit := modify fun w => w.receive value

/-- `#[only_owner]` -/
def onlyOwner (caller : Address) : Exec X Unit := do
  let w ← get
  require (caller = w.owner) .notOwner

/-- The code an account runs for a call. -/
def AccountCall.body (C : Chain X) (w : World X) (code : Code) (caller : Address) (value : Nat) :
    AccountCall → SmartAccount.Exec X Unit :=
  match code with
  | .smartAccount => fun
    | .init smartAccountDeployerAddress => SmartAccount.init smartAccountDeployerAddress
    | .upgrade => SmartAccount.upgrade
    | .setupSmartAccount riskTolerance userStrategy =>
        SmartAccount.setupSmartAccount (w.peers C) caller value riskTolerance userStrategy
  | .other n => fun c => C.foreign n c caller value

/-- A call of the account at `a`. -/
def callAccount (C : Chain X) (caller : Address) (value : Nat) (a : Address) (c : AccountCall) :
    Exec X Unit := do
  let w ← get
  let account ← demand (w.accounts a) .executionFailed
  within (fun w => w.enter a account) (fun w s => w.leave a account s)
    (c.body C w account.code caller value)

/-- `direct_egld` -/
def directEgld (dest : Address) (amount : Nat) : Exec X Unit := do
  let w ← get
  require (amount ≤ w.egld) .insufficientFunds
  set (((w.spend amount).credit dest amount).record (.directEgld dest amount))

/-- `init(..).deploy_from_source`: a new contract at `newAddress`, owned by the
deployer, with the code at `templateAddress`. -/
def deployFromSource (C : Chain X) (newAddress templateAddress : Address)
    (smartAccountDeployerAddress : Address) : Exec X Unit := do
  let w ← get
  -- the chain refuses a deployment onto a contract that exists
  require (newAddress ≠ w.self ∧ (w.accounts newAddress).isNone) .executionFailed
  let code ← demand (w.codeAt C templateAddress) .executionFailed
  set (w.put newAddress
    { owner := w.self, code, storage := .blank, egld := 0, esdt := fun _ => 0 })
  callAccount C w.self 0 newAddress (.init smartAccountDeployerAddress)

/-- `upgrade_from_source_contract`: the code of an account is replaced by that at
`templateAddress`; the chain asks that the caller own the account. -/
def upgradeFromSourceContract (C : Chain X) (scAddress templateAddress : Address) :
    Exec X Unit := do
  let w ← get
  let account ← demand (w.accounts scAddress) .executionFailed
  require (account.owner = w.self) .executionFailed
  let code ← demand (w.codeAt C templateAddress) .executionFailed
  set (w.put scAddress { account with code })
  callAccount C w.self 0 scAddress .upgrade

/-! ## `lib.rs` -/

/-- `#[init]` -/
def init (C : Chain X) (smartAccountOpenFee : Nat) (adminAddress smartAccountTemplateAddress
    egldWrapperAddress : Address) : Exec X Unit := do
  require (adminAddress ≠ 0) (.require "Incorrect admin address")
  require (C.isSmartContract smartAccountTemplateAddress)
    (.require "Template address is not a smart contract")
  modify fun w => w.store fun d =>
    { d with smartAccountOpenFee, adminAddress, smartAccountTemplateAddress, egldWrapperAddress }

/-- `#[upgrade]` -/
def upgrade : Exec X Unit := pure ()

def updateSmartAccountTemplate (C : Chain X) (smartAccountTemplateAddress : Address) :
    Exec X Unit := do
  require (C.isSmartContract smartAccountTemplateAddress)
    (.require "Template address is not a smart contract")
  modify fun w => w.store fun d => { d with smartAccountTemplateAddress }

def deploySmartAccount (C : Chain X) (caller : Address) (paymentAmount : Nat)
    (newAddress : Address) : Exec X Address := do
  let w ← get
  require (paymentAmount = w.deployer.smartAccountOpenFee) (.require "Invalid payment amount")
  let smartAccountMapper := w.deployer.userSmartAccount caller
  require (smartAccountMapper.isNone) (.require "User has already a smart account deployed")
  let templateAddress := w.deployer.smartAccountTemplateAddress
  let smartAccount := newAddress
  deployFromSource C smartAccount templateAddress w.self
  modify fun w => w.store fun d =>
    { d with userSmartAccount := Function.update d.userSmartAccount caller (some smartAccount) }
  let w ← get
  let adminAddress := w.deployer.adminAddress
  directEgld adminAddress paymentAmount
  return smartAccount

def upgradeSmartAccount (C : Chain X) (caller : Address) : Exec X Unit := do
  let w ← get
  let smartAccountMapper := w.deployer.userSmartAccount caller
  let smartAccountAddress ← demand smartAccountMapper
    (.require "User has not deployed a smart account yet")
  let templateAddress := w.deployer.smartAccountTemplateAddress
  upgradeFromSourceContract C smartAccountAddress templateAddress

def initializeSmartAccount (C : Chain X) (caller : Address) (paymentAmount : Nat)
    (riskTolerance : UInt64) : Exec X Unit := do
  let w ← get
  let smartAccountMapper := w.deployer.userSmartAccount caller
  let smartAccountAddress ← demand smartAccountMapper
    (.require "User has not deployed a smart account yet")
  let lastStrategyEpoch := w.deployer.lastStrategyEpoch
  let userStrategiesMapper := w.deployer.strategies (lastStrategyEpoch, riskTolerance)
  require (userStrategiesMapper ≠ []) (.require "No strategies available")
  let userStrategy := userStrategiesMapper
  require (paymentAmount ≤ w.egld) .insufficientFunds
  modify fun w => w.spend paymentAmount
  callAccount C w.self paymentAmount smartAccountAddress
    (.setupSmartAccount riskTolerance userStrategy)

/-! ## `config.rs` -/

/-- One iteration of the loop of `set_farm_staking_address_for_token`. -/
def setFarmStakingAddress (C : Chain X) (pair : TokenIdentifier × Address) : Exec X Unit := do
  let (tokenId, stakingAddress) := pair
  require (C.isSmartContract stakingAddress) (.require "Address must be a smart contract")
  modify fun w => w.store fun d =>
    { d with farmStakingAddressForToken :=
        Function.update d.farmStakingAddressForToken tokenId (some stakingAddress) }

def setFarmStakingAddressForToken (C : Chain X) (caller : Address)
    (farmStakingAddresses : List (TokenIdentifier × Address)) : Exec X Unit := do
  onlyOwner caller
  forM farmStakingAddresses (setFarmStakingAddress C)

def setAdminAddress (caller adminAddress : Address) : Exec X Unit := do
  onlyOwner caller
  require (adminAddress ≠ 0) (.require "Incorrect admin address")
  modify fun w => w.store fun d => { d with adminAddress }

/-! ## `strategies.rs` -/

/-- One iteration of the loop of `set_strategies_per_epoch`, on the vector and
the accumulator. -/
def collect (acc : List Strategy × UInt64) (strategy : StrategyTuple) : List Strategy × UInt64 :=
  let (strategies, totalPercentage) := acc
  let (percentage, positionType, contractAddress, outputTokenId) := strategy
  if percentage = 0 then
    acc
  else
    (strategies ++ [{ percentage, positionType, contractAddress, outputTokenId }],
      totalPercentage + percentage)

def setStrategiesPerEpoch (currentEpoch : UInt64) (caller : Address) (riskTolerance : UInt64)
    (riskStrategies : List StrategyTuple) : Exec X Unit := do
  let w ← get
  let admin := w.deployer.adminAddress
  require (caller = admin) (.require "Only admin can update the strategies")
  require (riskStrategies.length ≤ maxStrategiesNo) (.require "Too many strategies defined")
  let strategiesMapper := w.deployer.strategies (currentEpoch, riskTolerance)
  require (riskTolerance ≤ maxRiskTolerance) (.require "Incorrect risk tolerance")
  require (strategiesMapper = []) (.require "Strategy already set")
  let (strategies, totalPercentage) := riskStrategies.foldl collect ([], 0)
  require (totalPercentage = maxPercentage) (.require "Invalid total percentage")
  modify fun w => w.store fun d =>
    { d with
      strategies := Function.update d.strategies (currentEpoch, riskTolerance) strategies
      lastStrategyEpoch := currentEpoch }

/-! ## Dispatch -/

/-- A transaction, run to its end. -/
def dispatch (C : Chain X) (tx : Transaction) : Exec X Unit :=
  match tx.call with
  | .updateSmartAccountTemplate smartAccountTemplateAddress => do
      notPayable tx.value
      updateSmartAccountTemplate C smartAccountTemplateAddress
  | .deploySmartAccount => do
      receiveEgld tx.value
      let _ ← deploySmartAccount C tx.caller tx.value tx.newAddress
  | .upgradeSmartAccount => do
      notPayable tx.value
      upgradeSmartAccount C tx.caller
  | .initializeSmartAccount riskTolerance => do
      receiveEgld tx.value
      initializeSmartAccount C tx.caller tx.value riskTolerance
  | .setFarmStakingAddressForToken farmStakingAddresses => do
      notPayable tx.value
      setFarmStakingAddressForToken C tx.caller farmStakingAddresses
  | .setAdminAddress adminAddress => do
      notPayable tx.value
      setAdminAddress tx.caller adminAddress
  | .setStrategiesPerEpoch riskTolerance riskStrategies => do
      notPayable tx.value
      setStrategiesPerEpoch tx.epoch tx.caller riskTolerance riskStrategies
  | .upgrade => do
      -- the chain lets only the owner of a contract upgrade it
      notPayable tx.value
      onlyOwner tx.caller
      upgrade
  | .view => notPayable tx.value
  | .setupSmartAccount account riskTolerance userStrategy =>
      callAccount C tx.caller tx.value account (.setupSmartAccount riskTolerance userStrategy)

end Deployer

end PortfolioPilot
