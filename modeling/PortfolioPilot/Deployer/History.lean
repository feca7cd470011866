/-
# `Deployer.History` — the published lists are a log

The strategy table is written by `setStrategiesPerEpoch` only, at a key of the
current epoch that holds no list yet, and `last_strategy_epoch` is set to that
epoch in the same call.  So the table is append-only, and in epochs that do not
decrease the scalar cell and the table stay in step: the cell is the newest epoch
of the table (`history_append_only`).

Emptiness of the cell is the write-once guard; it is a guard because an accepted
list is never empty (`Publishable.ne_nil`).
-/
import Mathlib.Data.Set.Basic
import Mathlib.Order.Bounds.Defs
import PortfolioPilot.Deployer.Strategies

namespace PortfolioPilot

namespace Deployer

open Revert
open SmartAccount (maxRiskTolerance)

variable {X : Type} {C : Chain X} {w₀ w w' : World X} {h : List (Entry (World X) Label)}

/-! ## One state and a later one -/

theorem publications_append (h₁ h₂ : List (Entry (World X) Label)) :
    publications (committed (h₁ ++ h₂)) =
      publications (committed h₁) ++ publications (committed h₂) := by
  simp [publications, committed, List.filterMap_append]

/-- A list that was stored stays stored. -/
theorem stored_stays (hinit : Initial C w₀) {h₁ h₂ : List (Entry (World X) Label)} {m : World X}
    (t₁ : Run C w₀ h₁ m) (t : Run C w₀ (h₁ ++ h₂) w) {k : UInt64 × UInt64}
    (hk : m.deployer.strategies k ≠ []) :
    w.deployer.strategies k = m.deployer.strategies k := by
  obtain ⟨p, hp, rfl⟩ := List.mem_map.mp ((stored_iff hinit t₁ k).mp hk)
  have hp' : p ∈ publications (committed (h₁ ++ h₂)) := by
    rw [publications_append]
    exact List.mem_append_left _ hp
  rw [published_in_force hinit t hp', published_in_force hinit t₁ hp]

theorem EpochsOrdered.of_append {h₁ h₂ : List (Entry (World X) Label)}
    (hord : EpochsOrdered (h₁ ++ h₂)) : EpochsOrdered h₁ := by
  unfold EpochsOrdered committed at hord ⊢
  rw [List.filterMap_append, List.map_append] at hord
  exact (List.pairwise_append.mp hord).1

/-- The last epoch does not decrease. -/
theorem lastStrategyEpoch_mono (hinit : Initial C w₀) {h₁ h₂ : List (Entry (World X) Label)}
    {m : World X} (t₁ : Run C w₀ h₁ m) (t : Run C w₀ (h₁ ++ h₂) w)
    (hord : EpochsOrdered (h₁ ++ h₂)) :
    m.deployer.lastStrategyEpoch ≤ w.deployer.lastStrategyEpoch := by
  rw [(tables hinit t₁).2.1, (tables hinit t).2.1]
  obtain ⟨hmax, _⟩ := lastEpoch_max (publications_ordered hord)
  obtain ⟨_, hmem⟩ := lastEpoch_max (publications_ordered hord.of_append)
  by_cases hne : publications (committed h₁) = []
  · rw [hne]
    exact UInt64.zero_le
  · obtain ⟨p, hp, hlast⟩ := hmem hne
    rw [hlast]
    refine hmax p ?_
    rw [publications_append]
    exact List.mem_append_left _ hp

/-! ## The cell and the table -/

/-- The epochs under which some risk tolerance has a list. -/
def World.publishedEpochs (w : World X) : Set UInt64 :=
  {e | ∃ r, w.deployer.strategies (e, r) ≠ []}

theorem mem_publishedEpochs (hinit : Initial C w₀) (t : Run C w₀ h w) {e : UInt64} :
    e ∈ w.publishedEpochs ↔ ∃ p ∈ publications (committed h), p.1.1 = e := by
  constructor
  · intro he
    obtain ⟨r, hr⟩ := he
    obtain ⟨p, hp, hk⟩ := List.mem_map.mp ((stored_iff hinit t _).mp hr)
    exact ⟨p, hp, congrArg Prod.fst hk⟩
  · intro he
    obtain ⟨p, hp, rfl⟩ := he
    exact ⟨p.1.2, (stored_iff hinit t p.1).mpr (List.mem_map_of_mem hp)⟩

/-- The last epoch is the newest epoch of the table, or 0 when there is no list. -/
theorem lastStrategyEpoch_newest (hinit : Initial C w₀) (t : Run C w₀ h w)
    (hord : EpochsOrdered h) :
    IsGreatest w.publishedEpochs w.deployer.lastStrategyEpoch ∨
      (w.publishedEpochs = ∅ ∧ w.deployer.lastStrategyEpoch = 0) := by
  have hlast := (tables hinit t).2.1
  obtain ⟨hmax, hmem⟩ := lastEpoch_max (publications_ordered hord)
  by_cases hne : publications (committed h) = []
  · refine Or.inr ⟨Set.eq_empty_of_forall_notMem fun e he => ?_, ?_⟩
    · obtain ⟨p, hp, _⟩ := (mem_publishedEpochs hinit t).mp he
      rw [hne] at hp
      exact absurd hp List.not_mem_nil
    · rw [hlast, hne]
      rfl
  · obtain ⟨p, hp, hpe⟩ := hmem hne
    rw [hlast]
    refine Or.inl ⟨(mem_publishedEpochs hinit t).mpr ⟨p, hp, hpe.symm⟩, ?_⟩
    intro e he
    obtain ⟨q, hq, rfl⟩ := (mem_publishedEpochs hinit t).mp he
    exact hmax q hq

/-- A key that holds a list was published by an accepted call: its risk tolerance is
in range and its epoch is that of a block of the run. -/
theorem stored_key (hinit : Initial C w₀) (t : Run C w₀ h w) {k : UInt64 × UInt64}
    (hk : w.deployer.strategies k ≠ []) :
    k.2 ≤ maxRiskTolerance ∧ ∃ tx ∈ committed h, tx.epoch = k.1 := by
  obtain ⟨p, hp, rfl⟩ := List.mem_map.mp ((stored_iff hinit t k).mp hk)
  obtain ⟨tx, htx, r, tuples, _, rfl⟩ := mem_publications.mp hp
  exact ⟨(publishable_of_mem t hp).risk, tx, htx, rfl⟩

/-- **The history of strategies is append-only.**  In epochs that do not decrease, a
list once stored is stored unchanged in every later state and the last epoch never
goes back; the keys that hold a list have a risk tolerance in range and an epoch not
above the current one; the last epoch is the newest epoch with a list, or 0 if there
is none; and so a list that is served is of the newest epoch published. -/
theorem history_append_only (hinit : Initial C w₀) (t : Run C w₀ h w) (hord : EpochsOrdered h) :
    (∀ e ∈ h, (∀ k, e.pre.deployer.strategies k ≠ [] →
        w.deployer.strategies k = e.pre.deployer.strategies k) ∧
      e.pre.deployer.lastStrategyEpoch ≤ w.deployer.lastStrategyEpoch) ∧
    (∀ k, w.deployer.strategies k ≠ [] → k.2 ≤ maxRiskTolerance ∧
      ∀ now, (∀ tx ∈ committed h, tx.epoch ≤ now) → k.1 ≤ now) ∧
    (IsGreatest w.publishedEpochs w.deployer.lastStrategyEpoch ∨
      (w.publishedEpochs = ∅ ∧ w.deployer.lastStrategyEpoch = 0)) ∧
    (∀ r, w.served r ≠ [] →
      ((w.deployer.lastStrategyEpoch, r), w.served r) ∈ publications (committed h) ∧
      ∀ p ∈ publications (committed h), p.1.1 ≤ w.deployer.lastStrategyEpoch) := by
  refine ⟨?_, ?_, lastStrategyEpoch_newest hinit t hord, ?_⟩
  · intro e he
    obtain ⟨h₁, h₂, rfl, t₁, _, _⟩ := t.split_of_mem e he
    exact ⟨fun k hk => stored_stays hinit t₁ t hk, lastStrategyEpoch_mono hinit t₁ t hord⟩
  · intro k hk
    obtain ⟨hr, tx, htx, hepoch⟩ := stored_key hinit t hk
    refine ⟨hr, fun now hnow => ?_⟩
    rw [← hepoch]
    exact hnow tx htx
  · intro r hr
    obtain ⟨p, hp, hk⟩ := List.mem_map.mp ((stored_iff hinit t _).mp hr)
    have hserved : w.served r = p.2 := by
      rw [World.served, ← hk]
      exact published_in_force hinit t hp
    refine ⟨?_, ?_⟩
    · rw [hserved, ← hk]
      exact hp
    · rw [(tables hinit t).2.1]
      exact (lastEpoch_max (publications_ordered hord)).1

/-- Lists for two risk tolerances in two epochs. -/
theorem history_append_only_sample : ∃ h w, Run sampleChain sampleWorld h w ∧
    EpochsOrdered h ∧ w.deployer.lastStrategyEpoch = 2 ∧
    IsGreatest w.publishedEpochs w.deployer.lastStrategyEpoch := by
  have hc : check (send sampleChain (fun _ => true) [samplePublish 1 1, samplePublish 2 3])
      sampleWorld (fun w => decide (w.deployer.lastStrategyEpoch = 2)) = true := by
    decide +kernel
  obtain ⟨h, w, t, hlabels, _, hlast⟩ := run_of_check hc
  have hlast := of_decide_eq_true hlast
  have hord : EpochsOrdered h := by
    unfold EpochsOrdered
    rw [committed_of_labels hlabels]
    decide
  obtain ⟨_, _, hnewest, _⟩ := history_append_only sampleWorld_initial t hord
  refine ⟨h, w, t, hord, hlast, hnewest.resolve_right fun hnone => ?_⟩
  rw [hlast] at hnone
  exact absurd hnone.2 (by decide)

end Deployer

end PortfolioPilot
