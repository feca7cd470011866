/-
# `Deployer.Types` — the deployer's storage, its accounts and the chain around them

A world is one deployer, the accounts it has deployed, and everything else (`X`).
The deployer and an account are code of this development; the rest answers from
its own state through `Chain X`.  What an account sees of the world is `Peers`
again (`World.peers`): the cells it reads at the deployer's address are the
deployer's, and there is no endpoint of the wrapper, pair, farm or staking
contracts at the deployer's address or at an account's.

Third parties do not call back into the deployer or an account during a call
they answer; between two calls they do as they please (`Deployer.Runs`).

An account keeps the code it was deployed or upgraded with.  A template may be
any contract, so there is `Code.other`: such an account is part of the chain
around, and its entry points are `Chain.foreign`.

The log collects what the accounts do and what EGLD the deployer pays out.  It
is not storage, nothing reads it.
-/
import PortfolioPilot.SmartAccount.Contract

namespace PortfolioPilot

namespace Deployer

open Revert
open SmartAccount (Peers PositionType Strategy)

/-- `MAX_STRATEGIES_NO` of `strategies.rs` -/
def maxStrategiesNo : Nat := 5

/-- One argument of `setStrategiesPerEpoch`: percentage, position type, contract
address and output token. -/
abbrev StrategyTuple := UInt64 × PositionType × Address × TokenIdentifier

/-- The storage cells of the deployer.  `init` writes the first four, so they
always hold a value; `strategies` is keyed by epoch and risk tolerance. -/
structure Storage where
  smartAccountOpenFee : Nat
  adminAddress : Address
  smartAccountTemplateAddress : Address
  egldWrapperAddress : Address
  farmStakingAddressForToken : TokenIdentifier → Option Address
  userSmartAccount : Address → Option Address
  strategies : UInt64 × UInt64 → List Strategy
  lastStrategyEpoch : UInt64

/-- The storage of a deployer that has written nothing. -/
def Storage.blank : Storage where
  smartAccountOpenFee := 0
  adminAddress := 0
  smartAccountTemplateAddress := 0
  egldWrapperAddress := 0
  farmStakingAddressForToken _ := none
  userSmartAccount _ := none
  strategies _ := []
  lastStrategyEpoch := 0

/-! ## Accounts -/

inductive Code where
  | smartAccount
  | other (n : Nat)
  deriving DecidableEq, Repr

structure Account where
  owner : Address
  code : Code
  storage : SmartAccount.Storage
  egld : Nat
  esdt : Ledger TokenKey

/-- The entry points of an account that the deployer calls. -/
inductive AccountCall where
  | init (smartAccountDeployerAddress : Address)
  | upgrade
  | setupSmartAccount (riskTolerance : UInt64) (userStrategy : List Strategy)
  deriving DecidableEq, Repr

/-- The chain around the deployer and its accounts, with state `X`. -/
structure Chain (X : Type) where
  /-- `is_smart_contract`, a property of the address alone. -/
  isSmartContract : Address → Bool
  codeAt : X → Address → Option Code
  peers : Peers X
  /-- The entry points of code that is not the account contract, by caller and value. -/
  foreign : Nat → AccountCall → Address → Nat → SmartAccount.Exec X Unit

inductive Event where
  | account (address : Address) (event : SmartAccount.Event)
  | directEgld (dest : Address) (amount : Nat)
  deriving DecidableEq, Repr

structure World (X : Type) where
  self : Address
  owner : Address
  deployer : Storage
  egld : Nat
  accounts : Address → Option Account
  ext : X
  log : List Event

/-- The endpoints of the deployer run in this. -/
abbrev Exec (X : Type) : Type → Type := Revert TxError (World X)

namespace World

variable {X : Type}

/-- Whether the contract at `a` is the deployer or runs the account code. -/
def isOwn (w : World X) (a : Address) : Bool :=
  a == w.self || match w.accounts a with
    | some account => account.code == .smartAccount
    | none => false

/-- What an account sees of the world. -/
def peers (C : Chain X) (w : World X) : Peers X where
  egldWrapperAddress x a :=
    if a = w.self then some w.deployer.egldWrapperAddress else C.peers.egldWrapperAddress x a
  farmStakingAddressForToken x a t :=
    if a = w.self then w.deployer.farmStakingAddressForToken t
    else C.peers.farmStakingAddressForToken x a t
  wrappedEgldTokenId x a := if w.isOwn a then [] else C.peers.wrappedEgldTokenId x a
  pairContractAddress x a := if w.isOwn a then none else C.peers.pairContractAddress x a
  firstTokenId x a := if w.isOwn a then [] else C.peers.firstTokenId x a
  secondTokenId x a := if w.isOwn a then [] else C.peers.secondTokenId x a
  call x a c := if w.isOwn c.dest then none else C.peers.call x a c

/-- The code at an address that `deploy_from_source` and
`upgrade_from_source_contract` copy. -/
def codeAt (C : Chain X) (w : World X) (a : Address) : Option Code :=
  match w.accounts a with
  | some account => some account.code
  | none => C.codeAt w.ext a

/-! ## Updates -/

/-- A write of the deployer's storage. -/
def store (w : World X) (f : Storage → Storage) : World X := { w with deployer := f w.deployer }

def receive (w : World X) (value : Nat) : World X := { w with egld := w.egld + value }

def spend (w : World X) (value : Nat) : World X := { w with egld := w.egld - value }

/-- The world with an account put at `a`. -/
def put (w : World X) (a : Address) (account : Account) : World X :=
  { w with accounts := Function.update w.accounts a (some account) }

/-- EGLD transferred to an address. -/
def credit (w : World X) (dest : Address) (amount : Nat) : World X :=
  if dest = w.self then w.receive amount
  else match w.accounts dest with
    | some account => w.put dest { account with egld := account.egld + amount }
    | none => w

def record (w : World X) (e : Event) : World X := { w with log := w.log ++ [e] }

/-- The state the code of the account at `a` runs in. -/
def enter (w : World X) (a : Address) (account : Account) : SmartAccount.State X where
  self := a
  owner := account.owner
  storage := account.storage
  egld := account.egld
  esdt := account.esdt
  outside := w.ext
  log := []

/-- The world after the account at `a` ended its run in `s`. -/
def leave (w : World X) (a : Address) (account : Account) (s : SmartAccount.State X) : World X :=
  { w with
    accounts := Function.update w.accounts a
      (some { account with storage := s.storage, egld := s.egld, esdt := s.esdt })
    ext := s.outside
    log := w.log ++ s.log.map (Event.account a) }

end World

/-! ## Transactions -/

/-- The calls that can be sent to the deployer and to an account.  `view` stands
for the views of either contract. -/
inductive Call where
  | updateSmartAccountTemplate (smartAccountTemplateAddress : Address)
  | deploySmartAccount
  | upgradeSmartAccount
  | initializeSmartAccount (riskTolerance : UInt64)
  | setFarmStakingAddressForToken (farmStakingAddresses : List (TokenIdentifier × Address))
  | setAdminAddress (adminAddress : Address)
  | setStrategiesPerEpoch (riskTolerance : UInt64) (riskStrategies : List StrategyTuple)
  | upgrade
  | view
  | setupSmartAccount (account : Address) (riskTolerance : UInt64) (userStrategy : List Strategy)
  deriving DecidableEq, Repr

/-- A call with its caller, the EGLD sent along, the epoch of its block, and the
address the chain gives to a contract deployed by it. -/
structure Transaction where
  caller : Address
  value : Nat
  epoch : UInt64
  newAddress : Address
  call : Call
  deriving DecidableEq, Repr

end Deployer

end PortfolioPilot
