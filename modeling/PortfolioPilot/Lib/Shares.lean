/-
# `Lib.Shares` — splitting an amount by parts of a whole, rounding down

`share A D p` is the part `p` of `D` of the amount `A`, rounded down.  When the
parts make up the whole, the shares never exceed the amount, and they fall short
of it by less than one unit per part; the shortfall of all `n` parts is at most
`n - 1`, since they cannot all lose almost a unit.
-/
import Mathlib.Algebra.BigOperators.Group.List.Basic
import Mathlib.Tactic.Ring

namespace PortfolioPilot

/-- The part `p` of `D` of the amount `A`, rounded down. -/
def share (A D p : Nat) : Nat := A * p / D

theorem share_mul_le (A D p : Nat) : share A D p * D ≤ A * p :=
  Nat.div_mul_le_self (A * p) D

theorem le_share_mul_add (A p : Nat) {D : Nat} (hD : 0 < D) :
    A * p ≤ share A D p * D + (D - 1) := by
  have h₁ := Nat.div_add_mod (A * p) D
  have h₂ := Nat.mod_lt (A * p) hD
  have h₃ : share A D p * D = D * (A * p / D) := Nat.mul_comm _ _
  omega

/-- A share of two amounts together is their two shares, and perhaps one unit more. -/
theorem share_add (A B p : Nat) {D : Nat} (hD : 0 < D) :
    share A D p + share B D p ≤ share (A + B) D p ∧
      share (A + B) D p ≤ share A D p + share B D p + 1 := by
  have hA := Nat.div_add_mod (A * p) D
  have hB := Nat.div_add_mod (B * p) D
  have hAmod := Nat.mod_lt (A * p) hD
  have hBmod := Nat.mod_lt (B * p) hD
  have hsum : (A + B) * p =
      (A * p % D + B * p % D) + D * (A * p / D + B * p / D) := by
    rw [Nat.add_mul, Nat.mul_add]
    omega
  have hdiv : share (A + B) D p =
      share A D p + share B D p + (A * p % D + B * p % D) / D := by
    rw [share, hsum, Nat.add_mul_div_left _ _ hD, Nat.add_comm]
    rfl
  have hcarry : (A * p % D + B * p % D) / D ≤ 1 :=
    Nat.lt_succ_iff.mp ((Nat.div_lt_iff_lt_mul hD).mpr (by omega))
  rw [hdiv]
  exact ⟨Nat.le_add_right _ _, Nat.add_le_add_left hcarry _⟩

section Sum

variable (A : Nat) {D : Nat}

/-- The shares of the parts `ps`, added up. -/
def shares (A D : Nat) (ps : List Nat) : Nat := (ps.map (share A D)).sum

theorem shares_mul_le (ps : List Nat) : shares A D ps * D ≤ A * ps.sum := by
  unfold shares
  induction ps with
  | nil => simp
  | cons p ps ih =>
      have hp := share_mul_le A D p
      simp only [List.map_cons, List.sum_cons, Nat.add_mul, Nat.mul_add]
      omega

theorem le_shares_mul_add (hD : 0 < D) (ps : List Nat) :
    A * ps.sum ≤ shares A D ps * D + ps.length * (D - 1) := by
  unfold shares
  induction ps with
  | nil => simp
  | cons p ps ih =>
      have hp := le_share_mul_add A p hD
      simp only [List.map_cons, List.sum_cons, List.length_cons, Nat.add_mul, Nat.mul_add,
        Nat.one_mul]
      omega

/-- The shares of a whole never exceed the amount. -/
theorem shares_le (hD : 0 < D) {ps : List Nat} (hs : ps.sum = D) : shares A D ps ≤ A := by
  have h := shares_mul_le A (D := D) ps
  rw [hs] at h
  exact Nat.le_of_mul_le_mul_right h hD

/-- The shares of a whole fall short of the amount by less than the number of parts. -/
theorem le_shares_add (hD : 0 < D) {ps : List Nat} (hs : ps.sum = D) :
    A ≤ shares A D ps + (ps.length - 1) := by
  have hne : 0 < ps.length := by
    cases ps with
    | nil => simp at hs; omega
    | cons _ _ => simp
  by_contra hlt
  have hlen : shares A D ps + ps.length ≤ A := by omega
  have hmul : (shares A D ps + ps.length) * D ≤ A * D := Nat.mul_le_mul_right D hlen
  have hbound := le_shares_mul_add A hD ps
  have hsplit : ps.length * D = ps.length * (D - 1) + ps.length := by
    conv_lhs => rw [← Nat.sub_add_cancel (show 1 ≤ D from hD), Nat.mul_add, Nat.mul_one]
  rw [hs] at hbound
  rw [Nat.add_mul] at hmul
  omega

end Sum

end PortfolioPilot
