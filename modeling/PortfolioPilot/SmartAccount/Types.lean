/-
# `SmartAccount.Types` — strategies, storage, and the contracts an account calls

The account never holds code of the wrapper, pair, farm and staking contracts;
it reads cells of their storage and calls five of their endpoints.  `Peers σ` is
that interface over an arbitrary state `σ` of everything outside the account: a
read is a function of `σ`, a call either fails or gives a new `σ` together with
the tokens it sends back and the values it returns.  What it sends back and what
it returns are separate, as they are on the chain; that they agree is an
assumption on the third party, made where it is used.

An account's execution is logged: every call it makes and every payment it hands
to `save_user_position`.  The log is not storage of the contract, nothing reads
it.
-/
import PortfolioPilot.Basic
import PortfolioPilot.Lib.Revert

namespace PortfolioPilot

namespace SmartAccount

/-! ## `config.rs` -/

/-- `MAX_PERCENTAGE` -/
def maxPercentage : UInt64 := 10000

/-- `MAX_RISK_TOLERANCE` -/
def maxRiskTolerance : UInt64 := 5

/-- `SWAP_MIN_AMOUNT` of `pair_actions.rs` -/
def swapMinAmount : Nat := 1

/-! ## `lib.rs`: the data -/

inductive PositionType where
  | esdt
  | staking
  | lp
  | farm
  deriving DecidableEq, Repr

structure Strategy where
  percentage : UInt64
  positionType : PositionType
  contractAddress : Address
  outputTokenId : TokenIdentifier
  deriving DecidableEq, Repr

/-- The storage cells of an account.  An empty vector cell reads as the empty
list and an empty `u64` cell as 0; only an empty address cell fails to decode. -/
structure Storage where
  smartAccountDeployerAddress : Option Address
  userStrategy : List Strategy
  userPortfolio : List EsdtTokenPayment
  userRiskTolerance : UInt64
  deriving DecidableEq, Repr

/-- The storage of a contract that has written nothing. -/
def Storage.blank : Storage := ⟨none, [], [], 0⟩

/-! ## The contracts an account calls -/

/-- The endpoint calls an account makes, with what it sends along. -/
inductive ContractCall where
  | wrapEgld (wrapper : Address) (amount : Nat)
  | swapTokensFixedInput (pair : Address) (input : EsdtTokenPayment)
      (tokenOut : TokenIdentifier) (amountOutMin : Nat)
  | addLiquidity (pair : Address) (first second : EsdtTokenPayment)
      (firstAmountMin secondAmountMin : Nat)
  | stakeFarm (farmStaking : Address) (tokens : List EsdtTokenPayment)
  | enterFarm (farm : Address) (tokens : List EsdtTokenPayment)
  deriving DecidableEq, Repr

namespace ContractCall

/-- The address called. -/
def dest : ContractCall → Address
  | wrapEgld wrapper _ => wrapper
  | swapTokensFixedInput pair _ _ _ => pair
  | addLiquidity pair _ _ _ _ => pair
  | stakeFarm farmStaking _ => farmStaking
  | enterFarm farm _ => farm

/-- The EGLD sent along. -/
def egld : ContractCall → Nat
  | wrapEgld _ amount => amount
  | swapTokensFixedInput .. | addLiquidity .. | stakeFarm .. | enterFarm .. => 0

/-- The tokens sent along, in order. -/
def payments : ContractCall → List EsdtTokenPayment
  | wrapEgld _ _ => []
  | swapTokensFixedInput _ input _ _ => [input]
  | addLiquidity _ first second _ _ => [first, second]
  | stakeFarm _ tokens => tokens
  | enterFarm _ tokens => tokens

end ContractCall

/-- What a call brings back: EGLD and tokens transferred to the caller, and the
payments it returns as values. -/
structure Returned where
  egld : Nat
  transfers : List EsdtTokenPayment
  result : List EsdtTokenPayment
  deriving DecidableEq, Repr

/-- Everything outside the account: the cells it reads at other addresses, and
the calls it makes from its own address. -/
structure Peers (σ : Type) where
  egldWrapperAddress : σ → Address → Option Address
  farmStakingAddressForToken : σ → Address → TokenIdentifier → Option Address
  wrappedEgldTokenId : σ → Address → TokenIdentifier
  pairContractAddress : σ → Address → Option Address
  firstTokenId : σ → Address → TokenIdentifier
  secondTokenId : σ → Address → TokenIdentifier
  call : σ → Address → ContractCall → Option (σ × Returned)

/-! ## An account in execution -/

/-- What an execution does that another contract can see, and the payments it
hands to `save_user_position`. -/
inductive Event where
  | called (call : ContractCall) (returned : Returned)
  | saved (position : EsdtTokenPayment)
  deriving DecidableEq, Repr

structure State (σ : Type) where
  self : Address
  owner : Address
  storage : Storage
  egld : Nat
  esdt : Ledger TokenKey
  outside : σ
  log : List Event

/-- The entry points of the account contract run in this. -/
abbrev Exec (σ : Type) : Type → Type := Revert TxError (State σ)

end SmartAccount

end PortfolioPilot
