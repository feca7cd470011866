/-
# `Lib.Words` — sums of 64-bit words

Adding words up wraps around, so the machine sum of a list is the exact sum
modulo `2 ^ 64`.  A test of the machine sum against a number is a test of the
exact sum as long as the exact sum does not reach `2 ^ 64`.
-/
import Mathlib.Algebra.BigOperators.Group.List.Basic
import Mathlib.Algebra.GroupWithZero.Nat

namespace PortfolioPilot

namespace Words

/-- The sum of the words, in 64-bit arithmetic. -/
def wrapSum (xs : List UInt64) : UInt64 := xs.foldr (· + ·) 0

/-- The sum of the words, as a natural number. -/
def exactSum (xs : List UInt64) : Nat := (xs.map UInt64.toNat).sum

@[simp] theorem wrapSum_nil : wrapSum [] = 0 := rfl

@[simp] theorem wrapSum_cons (x : UInt64) (xs : List UInt64) :
    wrapSum (x :: xs) = x + wrapSum xs := rfl

@[simp] theorem exactSum_nil : exactSum [] = 0 := rfl

@[simp] theorem exactSum_cons (x : UInt64) (xs : List UInt64) :
    exactSum (x :: xs) = x.toNat + exactSum xs := by
  simp [exactSum]

theorem toNat_wrapSum (xs : List UInt64) : (wrapSum xs).toNat = exactSum xs % 2 ^ 64 := by
  induction xs with
  | nil => rfl
  | cons x xs ih =>
      rw [wrapSum_cons, exactSum_cons, UInt64.toNat_add, ih]
      omega

/-- A machine sum that passes a test is the exact sum exactly when the exact sum
fits a word. -/
theorem exactSum_eq_iff {xs : List UInt64} {n : UInt64} (h : wrapSum xs = n) :
    exactSum xs = n.toNat ↔ exactSum xs < 2 ^ 64 := by
  have hmod : n.toNat = exactSum xs % 2 ^ 64 := by rw [← h, toNat_wrapSum]
  have hlt := n.toNat_lt
  constructor
  · intro he
    rw [he]; exact hlt
  · intro hfits
    rw [hmod, Nat.mod_eq_of_lt hfits]

theorem le_exactSum {x : UInt64} {xs : List UInt64} (h : x ∈ xs) : x.toNat ≤ exactSum xs := by
  induction xs with
  | nil => exact absurd h List.not_mem_nil
  | cons y xs ih =>
      rw [exactSum_cons]
      rcases List.mem_cons.mp h with rfl | h
      · exact Nat.le_add_right _ _
      · exact Nat.le_trans (ih h) (Nat.le_add_left _ _)

end Words

end PortfolioPilot
