/-
# `Basic` — addresses, tokens, payments and errors

The framework types both contracts are written in.

| source            | here                    |
| :--               | :--                     |
| `ManagedAddress`  | `Address`, 32 bytes     |
| `TokenIdentifier` | any byte string         |
| `BigUint`         | `Nat`                   |
| `u64`             | `UInt64`, wrapping      |
| `ManagedVec`      | `List`                  |

The release profile of both contracts is built with `overflow-checks = false`,
so `u64` addition is addition modulo `2 ^ 64`, which is what `UInt64` has.
-/
import PortfolioPilot.Lib.Ledger

namespace PortfolioPilot

abbrev Address := BitVec 256

abbrev TokenIdentifier := List UInt8

/-- The key of a balance: a token identifier and a nonce (0 for fungible tokens). -/
abbrev TokenKey := TokenIdentifier × UInt64

structure EsdtTokenPayment where
  tokenIdentifier : TokenIdentifier
  tokenNonce : UInt64
  amount : Nat
  deriving DecidableEq, Repr

namespace EsdtTokenPayment

def key (p : EsdtTokenPayment) : TokenKey := (p.tokenIdentifier, p.tokenNonce)

/-- A payment as the ledger books it. -/
def booked (p : EsdtTokenPayment) : TokenKey × Nat := (p.key, p.amount)

/-- What one payment moves of the token `k`. -/
def amountOf (p : EsdtTokenPayment) (k : TokenKey) : Nat := if p.key = k then p.amount else 0

end EsdtTokenPayment

/-- What the payments `ps` move of the token `k`, in total. -/
def totalOf (ps : List EsdtTokenPayment) (k : TokenKey) : Nat :=
  Ledger.total (ps.map EsdtTokenPayment.booked) k

@[simp] theorem totalOf_nil (k : TokenKey) : totalOf [] k = 0 := rfl

@[simp] theorem totalOf_cons (p : EsdtTokenPayment) (ps : List EsdtTokenPayment) (k : TokenKey) :
    totalOf (p :: ps) k = p.amountOf k + totalOf ps k := by
  simp [totalOf, EsdtTokenPayment.booked, EsdtTokenPayment.amountOf]

@[simp] theorem totalOf_append (ps qs : List EsdtTokenPayment) (k : TokenKey) :
    totalOf (ps ++ qs) k = totalOf ps k + totalOf qs k := by
  simp [totalOf]

theorem totalOf_eq_zero {ps : List EsdtTokenPayment} {k : TokenKey} :
    totalOf ps k = 0 ↔ ∀ p ∈ ps, p.key = k → p.amount = 0 := by
  simp [totalOf, Ledger.total_eq_zero, EsdtTokenPayment.booked]

/-- Why a call is undone. -/
inductive TxError where
  /-- A `require!` of one of the two contracts, with its message. -/
  | require (message : String)
  /-- `#[only_owner]`: the caller is not the owner of the contract. -/
  | notOwner
  /-- The endpoint does not accept a payment. -/
  | notPayable
  /-- The contract holds less than it is told to send. -/
  | insufficientFunds
  /-- A storage cell that must hold a value is empty. -/
  | storageDecode
  /-- The values a call returned are not the ones the caller decodes. -/
  | resultDecode
  /-- A `BigUint` subtraction would go below zero. -/
  | subtraction
  /-- The called contract failed, or there is no such endpoint at that address. -/
  | executionFailed
  deriving DecidableEq, Repr

end PortfolioPilot
