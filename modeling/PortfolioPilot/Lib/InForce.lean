/-
# `Lib.InForce` — what the last write of a run left

A part of the state is a register of a run when some entries write it, as a function
`write` of the entry says, and every other step leaves it alone.  It then holds what the
last entry wrote that wrote at all, and its first value as long as none did (`InForce`,
`inForce_of_run`).
-/
import PortfolioPilot.Lib.Trace

namespace PortfolioPilot

namespace Trace

variable {S L V : Type} {Step : S → L → S → Prop} {s₀ s : S} {h : List (Entry S L)}
  {write : Entry S L → Option V} {v₀ v : V}

/-- `v` is what the last entry of `h` that writes has written, or `v₀`, and none writes. -/
inductive InForce (write : Entry S L → Option V) (v₀ : V) (h : List (Entry S L)) (v : V) : Prop
  | first : (∀ e ∈ h, write e = none) → v = v₀ → InForce write v₀ h v
  | written {h₁ h₂ : List (Entry S L)} {e : Entry S L} : h = h₁ ++ e :: h₂ → write e = some v →
      (∀ e' ∈ h₂, write e' = none) → InForce write v₀ h v

theorem InForce.skip (hf : InForce write v₀ h v) {e : Entry S L} (he : write e = none) :
    InForce write v₀ (h ++ [e]) v := by
  have hrest : ∀ h₂ : List (Entry S L), (∀ e' ∈ h₂, write e' = none) →
      ∀ e' ∈ h₂ ++ [e], write e' = none := fun h₂ h₂none =>
    List.forall_mem_append.mpr ⟨h₂none, List.forall_mem_singleton.mpr he⟩
  cases hf with
  | first hnone hv => exact .first (hrest h hnone) hv
  | @written h₁ h₂ e₁ hh hw hnone =>
      have hsplit : h ++ [e] = h₁ ++ e₁ :: (h₂ ++ [e]) := by
        rw [hh, List.append_assoc, List.cons_append]
      exact .written hsplit hw (hrest h₂ hnone)

theorem InForce.next {e : Entry S L} (he : write e = some v) : InForce write v₀ (h ++ [e]) v :=
  .written rfl he fun _ he' => absurd he' List.not_mem_nil

/-- What one more entry does to what is in force. -/
theorem InForce.step (hf : InForce write v₀ h v) (e : Entry S L) :
    InForce write v₀ (h ++ [e]) ((write e).getD v) := by
  cases he : write e with
  | none => exact hf.skip he
  | some v' => exact .next he

/-- The rule for a register: a step that leaves it as its entry says. -/
theorem inForce_of_run (read : S → V)
    (step : ∀ s l s', Step s l s' → read s' = (write ⟨s, l, s'⟩).getD (read s))
    (t : Trace Step s₀ h s) : InForce write (read s₀) h (read s) := by
  refine t.induct (P := fun _ => True) (I := fun h s => InForce write (read s₀) h (read s))
    (.first (fun _ he => absurd he List.not_mem_nil) rfl) ?_ (fun _ _ => trivial)
  intro h s l s' _ ih _ hs
  rw [step s l s' hs]
  exact ih.step _

end Trace

end PortfolioPilot
