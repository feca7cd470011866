/-
# `Lib.Ledger` — balances, and payments out of and into them

A ledger gives each key of `κ` a natural-number balance.  Payments are pairs of
a key and an amount.  Taking a list of payments out goes one payment after
another and is refused when a balance does not cover one; it is the same as
asking, key by key, that the balance cover the total (`debitAll_eq_some`).
-/
import Mathlib.Algebra.BigOperators.Group.List.Basic
import Mathlib.Algebra.GroupWithZero.Nat
import Mathlib.Logic.Function.Basic

namespace PortfolioPilot

/-- A balance for each key. -/
abbrev Ledger (κ : Type) := κ → Nat

namespace Ledger

variable {κ : Type} [DecidableEq κ]

/-- What the payments `ps` move of `k`, in total. -/
def total (ps : List (κ × Nat)) (k : κ) : Nat :=
  (ps.map fun p => if p.1 = k then p.2 else 0).sum

@[simp] theorem total_nil (k : κ) : total ([] : List (κ × Nat)) k = 0 := rfl

@[simp] theorem total_cons (p : κ × Nat) (ps : List (κ × Nat)) (k : κ) :
    total (p :: ps) k = (if p.1 = k then p.2 else 0) + total ps k := by
  simp [total]

@[simp] theorem total_append (ps qs : List (κ × Nat)) (k : κ) :
    total (ps ++ qs) k = total ps k + total qs k := by
  simp [total]

/-- Nothing of `k` is moved exactly when every payment of `k` is zero. -/
theorem total_eq_zero {ps : List (κ × Nat)} {k : κ} :
    total ps k = 0 ↔ ∀ p ∈ ps, p.1 = k → p.2 = 0 := by
  rw [total, List.sum_eq_zero_iff_forall_eq_nat, List.forall_mem_map]
  refine forall₂_congr fun p _ => ?_
  by_cases hk : p.1 = k
  · simp [hk]
  · simp [hk]

/-- The ledger with the payments `ps` taken in. -/
def creditAll (b : Ledger κ) (ps : List (κ × Nat)) : Ledger κ :=
  fun k => b k + total ps k

/-- The ledger with the payments `ps` taken out, one after another. -/
def debitAll (b : Ledger κ) : List (κ × Nat) → Option (Ledger κ)
  | [] => some b
  | p :: ps =>
      if p.2 ≤ b p.1 then debitAll (Function.update b p.1 (b p.1 - p.2)) ps else none

/-- What is left after one payment, plus what that payment moved. -/
theorem update_debit_add {b : Ledger κ} {p : κ × Nat} (h : p.2 ≤ b p.1) (k : κ) :
    Function.update b p.1 (b p.1 - p.2) k + (if p.1 = k then p.2 else 0) = b k := by
  by_cases hk : p.1 = k
  · subst hk
    rw [Function.update_self, if_pos rfl]
    exact Nat.sub_add_cancel h
  · rw [Function.update_of_ne (Ne.symm hk), if_neg hk, Nat.add_zero]

/-- Payments go through with `b'` left exactly when `b'` and the totals add up
to the balances before. -/
theorem debitAll_eq_some {ps : List (κ × Nat)} :
    ∀ {b b' : Ledger κ}, b.debitAll ps = some b' ↔ ∀ k, b' k + total ps k = b k := by
  induction ps with
  | nil =>
      intro b b'
      simp only [debitAll, Option.some.injEq, total_nil, Nat.add_zero]
      exact ⟨fun h k => (congrFun h k).symm, fun h => funext fun k => (h k).symm⟩
  | cons p ps ih =>
      intro b b'
      by_cases hp : p.2 ≤ b p.1
      · simp only [debitAll, if_pos hp, ih, total_cons]
        constructor
        · intro h k
          have h₁ := h k
          have h₂ := update_debit_add hp k
          omega
        · intro h k
          have h₁ := h k
          have h₂ := update_debit_add hp k
          omega
      · simp only [debitAll, if_neg hp, total_cons]
        constructor
        · intro h; cases h
        · intro h
          have h₁ := h p.1
          rw [if_pos rfl] at h₁
          omega

/-- Payments are refused exactly when the balance of some key is below its total. -/
theorem debitAll_eq_none {ps : List (κ × Nat)} {b : Ledger κ} :
    b.debitAll ps = none ↔ ¬ ∀ k, total ps k ≤ b k := by
  constructor
  · intro h hle
    have hsome : b.debitAll ps = some fun k => b k - total ps k :=
      debitAll_eq_some.mpr fun k => Nat.sub_add_cancel (hle k)
    rw [h] at hsome
    cases hsome
  · intro h
    cases hd : b.debitAll ps with
    | none => rfl
    | some b' =>
        refine absurd (fun k => ?_) h
        rw [← debitAll_eq_some.mp hd k]
        exact Nat.le_add_left _ _

end Ledger

end PortfolioPilot
