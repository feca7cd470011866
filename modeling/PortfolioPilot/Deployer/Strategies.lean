/-
# `Deployer.Strategies` — the published strategies

What `setStrategiesPerEpoch` accepts and what is served afterwards, over whole
runs.  The lists of a run are its `publications`: each key `(epoch, risk)` is
published once (`publications_nodup`), so every published list is still in force.

Two things the checks do not give.  The percentages are added up in a `u64`, so
a list is well allocated only when its exact sum fits one (`allocation_iff`).
And the epoch of the last publication is shared by all risk tolerances, so a
list is served only until another tolerance is published in a later epoch
(`served_iff`).
-/
import PortfolioPilot.Deployer.Runs

namespace PortfolioPilot

namespace Deployer

open Revert
open SmartAccount (PositionType Strategy maxPercentage maxRiskTolerance)

variable {X : Type} {C : Chain X} {w₀ w w' : World X} {h : List (Entry (World X) Label)}

/-! ## The published lists -/

/-- The tables of a reachable deployer. -/
theorem tables (hinit : Initial C w₀) (t : Run C w₀ h w) :
    w.deployer.strategies = Cells.replay (fun _ => []) (publications (committed h)) ∧
      w.deployer.lastStrategyEpoch = lastEpoch (publications (committed h)) ∧
      w.deployer.farmStakingAddressForToken = setPairs (fun _ => none) (stakings (committed h)) := by
  obtain ⟨hs, he, hf, _⟩ := hinit.deployer
  rw [storage_refines t]
  exact tables_fold hs he hf (committed h)

/-- What an accepted list of tuples is made of. -/
structure Publishable (p : (UInt64 × UInt64) × List Strategy) : Prop where
  risk : p.1.2 ≤ maxRiskTolerance
  length : p.2.length ≤ maxStrategiesNo
  nonzero : ∀ step ∈ p.2, step.percentage ≠ 0
  total : Words.wrapSum (percentages p.2) = maxPercentage

theorem Accepted.publishable {epoch r : UInt64} {caller : Address} {tuples : List StrategyTuple}
    (h : Accepted w epoch caller r tuples) : Publishable ((epoch, r), stepsOf tuples) := by
  refine ⟨h.risk, ?_, ?_, h.total⟩
  · have hlen : (stepsOf tuples).length ≤ tuples.length := by
      rw [stepsOf, List.length_map]
      exact List.length_filter_le _ _
    exact Nat.le_trans hlen h.length
  · intro step hstep
    obtain ⟨t, ht, rfl⟩ := List.mem_map.mp hstep
    exact of_decide_eq_true (List.mem_filter.mp ht).2

/-- A total that passes the check is not the total of nothing. -/
theorem Publishable.ne_nil {p : (UInt64 × UInt64) × List Strategy} (h : Publishable p) :
    p.2 ≠ [] := by
  intro hnil
  have ht := h.total
  rw [hnil] at ht
  exact absurd ht (by decide)

/-- Around a committed transaction the run splits. -/
theorem split_committed (t : Run C w₀ h w) {tx : Transaction} (htx : tx ∈ committed h) :
    ∃ h₁ h₂ w₁ w₂, h = h₁ ++ ⟨w₁, .call tx, w₂⟩ :: h₂ ∧ Run C w₀ h₁ w₁ ∧
      w₁.isOwn tx.caller = false ∧ Effect C tx w₁ w₂ ∧ Run C w₂ h₂ w := by
  obtain ⟨⟨w₁, l, w₂⟩, he, hl⟩ := mem_committed.mp htx
  obtain ⟨h₁, h₂, hh, t₁, hs, t₂⟩ := t.split_of_mem _ he
  cases hl
  cases hs with
  | call hown hc => exact ⟨h₁, h₂, w₁, w₂, hh, t₁, hown, effect_of_commits hc, t₂⟩

/-- The guards that a committed publication passed. -/
theorem Effect.accepted {tx : Transaction} (h : Effect C tx w w') {r : UInt64}
    {tuples : List StrategyTuple} (hcall : tx.call = .setStrategiesPerEpoch r tuples) :
    Accepted w tx.epoch tx.caller r tuples := by
  cases h with
  | setStrategiesPerEpoch hcall' _ hacc =>
      rw [hcall] at hcall'
      cases hcall'
      exact hacc
  | quiet hcall' _ =>
      rw [hcall] at hcall'
      rcases hcall' with ⟨hcall', _⟩ | hcall'
      · cases hcall'
      · cases hcall'
  | _ hcall' => cases hcall.symm.trans hcall'

theorem mem_publications {txs : List Transaction} {p : (UInt64 × UInt64) × List Strategy} :
    p ∈ publications txs ↔ ∃ tx ∈ txs, ∃ r tuples, tx.call = .setStrategiesPerEpoch r tuples ∧
      p = ((tx.epoch, r), stepsOf tuples) := by
  rw [publications, List.mem_filterMap]
  refine exists_congr fun tx => and_congr_right fun _ => ?_
  unfold Transaction.publication
  cases tx.call with
  | setStrategiesPerEpoch r tuples => simp [eq_comm]
  | _ => simp

theorem publishable_of_mem (t : Run C w₀ h w) {p : (UInt64 × UInt64) × List Strategy}
    (hp : p ∈ publications (committed h)) : Publishable p := by
  obtain ⟨tx, htx, r, tuples, hcall, rfl⟩ := mem_publications.mp hp
  obtain ⟨_, _, w₁, _, _, _, _, heff, _⟩ := split_committed t htx
  exact (heff.accepted hcall).publishable

/-- The cells that hold a list are those that were published. -/
theorem stored_iff (hinit : Initial C w₀) (t : Run C w₀ h w) (k : UInt64 × UInt64) :
    w.deployer.strategies k ≠ [] ↔ k ∈ (publications (committed h)).map Prod.fst := by
  rw [(tables hinit t).1]
  exact Cells.replay_ne_iff fun p hp => (publishable_of_mem t hp).ne_nil

/-- No key is published twice. -/
theorem publications_nodup (hinit : Initial C w₀) (t : Run C w₀ h w) :
    ((publications (committed h)).map Prod.fst).Nodup := by
  refine t.induct (P := fun _ => True)
    (I := fun h _ => ((publications (committed h)).map Prod.fst).Nodup) List.nodup_nil ?_
    (fun _ _ => trivial)
  intro h w l w' t ih _ hs
  cases hs with
  | failed _ _ => simpa [committed, Label.committed] using ih
  | outside _ => simpa [committed, Label.committed] using ih
  | @call _ tx _ hc =>
      rw [committed_concat_call, publications_concat, List.map_append]
      cases hp : tx.publication with
      | none => simpa using ih
      | some p =>
          obtain ⟨_, htx, r, tuples, hcall, rfl⟩ := mem_publications.mp
            (show p ∈ publications [tx] by simp [publications, hp])
          cases List.mem_singleton.mp htx
          have hnew : (tx.epoch, r) ∉ (publications (committed h)).map Prod.fst := by
            intro hmem
            exact (stored_iff hinit t _).mpr hmem ((effect_of_commits hc).accepted hcall).vacant
          refine List.nodup_append.mpr ⟨ih, List.nodup_singleton _, ?_⟩
          intro a ha b hb hab
          rw [hab, List.mem_singleton.mp hb] at ha
          exact hnew ha

/-- Every published list is in force. -/
theorem published_in_force (hinit : Initial C w₀) (t : Run C w₀ h w)
    {p : (UInt64 × UInt64) × List Strategy} (hp : p ∈ publications (committed h)) :
    w.deployer.strategies p.1 = p.2 := by
  rw [(tables hinit t).1]
  exact Cells.replay_of_nodup (publications_nodup hinit t) hp

/-- What was published in the last epoch is served. -/
theorem served_of_committed (hinit : Initial C w₀) (t : Run C w₀ h w) {tx : Transaction}
    (htx : tx ∈ committed h) {r : UInt64} {tuples : List StrategyTuple}
    (hcall : tx.call = .setStrategiesPerEpoch r tuples)
    (hepoch : tx.epoch = w.deployer.lastStrategyEpoch) : w.served r = stepsOf tuples := by
  rw [World.served, ← hepoch]
  exact published_in_force hinit t (mem_publications.mpr ⟨tx, htx, r, tuples, hcall, rfl⟩)

/-- What is served was published in the last epoch. -/
theorem committed_of_served (hinit : Initial C w₀) (t : Run C w₀ h w) {r : UInt64}
    (hne : w.served r ≠ []) : ∃ tx ∈ committed h, ∃ tuples,
      tx.call = .setStrategiesPerEpoch r tuples ∧ tx.epoch = w.deployer.lastStrategyEpoch ∧
        w.served r = stepsOf tuples := by
  obtain ⟨p, hp, hk⟩ := List.mem_map.mp ((stored_iff hinit t _).mp hne)
  obtain ⟨tx, htx, r', tuples, hcall, rfl⟩ := mem_publications.mp hp
  obtain ⟨hepoch, rfl⟩ := Prod.mk.inj hk
  exact ⟨tx, htx, tuples, hcall, hepoch, served_of_committed hinit t htx hcall hepoch⟩

/-! ## Allocations -/

/-- A list that allocates the whole of a deposit. -/
structure WellAllocated (L : List Strategy) : Prop where
  ne_nil : L ≠ []
  length : L.length ≤ maxStrategiesNo
  each : ∀ step ∈ L, 1 ≤ step.percentage.toNat ∧ step.percentage.toNat ≤ maxPercentage.toNat
  total : Words.exactSum (percentages L) = maxPercentage.toNat

/-- The machine total of a published list is right, so the list is well
allocated exactly when the machine total is the exact one. -/
theorem Publishable.wellAllocated_iff {p : (UInt64 × UInt64) × List Strategy}
    (h : Publishable p) : WellAllocated p.2 ↔ Words.exactSum (percentages p.2) < 2 ^ 64 := by
  have hiff := Words.exactSum_eq_iff h.total
  constructor
  · intro hw
    exact hiff.mp hw.total
  · intro hfits
    have htotal := hiff.mpr hfits
    refine ⟨h.ne_nil, h.length, fun step hstep => ⟨?_, ?_⟩, htotal⟩
    · have hne : step.percentage.toNat ≠ 0 := fun h0 =>
        h.nonzero step hstep (UInt64.toNat_inj.mp h0)
      omega
    · rw [← htotal]
      exact Words.le_exactSum (List.mem_map_of_mem hstep)

/-- Skipped tuples add nothing to the exact sum. -/
theorem exactSum_stepsOf (tuples : List StrategyTuple) :
    Words.exactSum (percentages (stepsOf tuples)) = Words.exactSum (tuples.map Prod.fst) := by
  induction tuples with
  | nil => rfl
  | cons t tuples ih =>
      rw [List.map_cons, Words.exactSum_cons, ← ih]
      by_cases ht : t.1 = 0
      · have hskip : stepsOf (t :: tuples) = stepsOf tuples := by simp [stepsOf, ht]
        rw [hskip, ht]
        exact (Nat.zero_add _).symm
      · have hkeep : stepsOf (t :: tuples) = t.toStrategy :: stepsOf tuples := by
          simp [stepsOf, ht]
        rw [hkeep]
        exact Words.exactSum_cons _ _

/-- **Which runs keep every allocation whole.**  Each accepted call leaves a
list in force.  All lists stored are well allocated exactly when the percentages
of every accepted call, added up as natural numbers, stay below `2 ^ 64`. -/
theorem allocation_iff (hinit : Initial C w₀) (t : Run C w₀ h w) :
    (∀ p ∈ publications (committed h), w.deployer.strategies p.1 = p.2 ∧ p.2 ≠ []) ∧
    ((∀ k, w.deployer.strategies k ≠ [] → WellAllocated (w.deployer.strategies k)) ↔
      ∀ tx ∈ committed h, ∀ r tuples, tx.call = .setStrategiesPerEpoch r tuples →
        Words.exactSum (tuples.map Prod.fst) < 2 ^ 64) := by
  refine ⟨fun p hp => ⟨published_in_force hinit t hp, (publishable_of_mem t hp).ne_nil⟩, ?_⟩
  constructor
  · intro hall tx htx r tuples hcall
    have hp : ((tx.epoch, r), stepsOf tuples) ∈ publications (committed h) :=
      mem_publications.mpr ⟨tx, htx, r, tuples, hcall, rfl⟩
    have hpub := publishable_of_mem t hp
    have hforce := published_in_force hinit t hp
    have hw := hall (tx.epoch, r) (by rw [hforce]; exact hpub.ne_nil)
    rw [hforce] at hw
    rw [← exactSum_stepsOf]
    exact hpub.wellAllocated_iff.mp hw
  · intro hfits k hk
    obtain ⟨p, hp, rfl⟩ := List.mem_map.mp ((stored_iff hinit t k).mp hk)
    obtain ⟨tx, htx, r, tuples, hcall, hpe⟩ := mem_publications.mp hp
    have hfit := hfits tx htx r tuples hcall
    rw [published_in_force hinit t hp]
    refine (publishable_of_mem t hp).wellAllocated_iff.mpr ?_
    rw [hpe, exactSum_stepsOf]
    exact hfit

/-- An accepted call of the admin, as a step. -/
theorem publish_step (w : World X) (epoch r : UInt64) (tuples : List StrategyTuple)
    (hown : w.isOwn w.deployer.adminAddress = false)
    (hvacant : w.deployer.strategies (epoch, r) = [])
    (hlen : tuples.length ≤ maxStrategiesNo) (hr : r ≤ maxRiskTolerance)
    (htotal : Words.wrapSum (percentages (stepsOf tuples)) = maxPercentage) :
    Step C w (.call (sampleCall w.deployer.adminAddress epoch (.setStrategiesPerEpoch r tuples)))
      (w.store fun d => d.publish epoch r (stepsOf tuples)) :=
  step_of_effect hown (.setStrategiesPerEpoch rfl rfl ⟨rfl, hlen, hr, hvacant, htotal⟩)

/-- Two steps of `2 ^ 64 - 1` and `10001` pass the check. -/
theorem allocation_overflow : Initial sampleChain sampleWorld ∧
    ∃ h w, Run sampleChain sampleWorld h w ∧ w.deployer.strategies (1, 1) ≠ [] ∧
      ¬ WellAllocated (w.deployer.strategies (1, 1)) := by
  have hs := publish_step (C := sampleChain) sampleWorld 1 1
    [sampleTuple 18446744073709551615, sampleTuple 10001] rfl rfl (by decide) (by decide) (by decide)
  refine ⟨sampleWorld_initial, _, _, Trace.single hs, by decide, fun hw => ?_⟩
  exact absurd hw.total (by decide)

/-- Lists for two risk tolerances in two epochs: with a remainder, in one step, and in two. -/
def samplePublications : List Transaction :=
  [sampleCall sampleAdmin 1 (.setStrategiesPerEpoch 1
      [sampleTuple 3334, sampleTuple 3333, sampleTuple 3333]),
    samplePublish 1 2, samplePublish 2 2,
    sampleCall sampleAdmin 2 (.setStrategiesPerEpoch 1
      [(2500, .lp, 0xB, [77]), (7500, .farm, 0xC, [78])])]

theorem samplePublications_run : ∃ h w, Run sampleChain sampleWorld h w ∧
    committed h = samplePublications ∧
    [(1, 1), (1, 2), (2, 1), (2, 2)].map (fun k => (w.deployer.strategies k).length) =
      [3, 1, 2, 1] := by
  have hc : check (send sampleChain (fun _ => true) samplePublications) sampleWorld
      (fun w => decide ([(1, 1), (1, 2), (2, 1), (2, 2)].map
        (fun k => (w.deployer.strategies k).length) = [3, 1, 2, 1])) = true := by decide +kernel
  obtain ⟨h, w, t, hlabels, _, hq⟩ := run_of_check hc
  exact ⟨h, w, t, committed_of_labels hlabels, of_decide_eq_true hq⟩

theorem allocation_iff_sample : ∃ h w, Run sampleChain sampleWorld h w ∧
    [(1, 1), (1, 2), (2, 1), (2, 2)].map (fun k => (w.deployer.strategies k).length) =
      [3, 1, 2, 1] ∧
    ∀ k, w.deployer.strategies k ≠ [] → WellAllocated (w.deployer.strategies k) := by
  obtain ⟨h, w, t, htxs, hlengths⟩ := samplePublications_run
  refine ⟨h, w, t, hlengths, (allocation_iff sampleWorld_initial t).2.mpr ?_⟩
  intro tx htx r tuples hcall
  rw [htxs] at htx
  simp only [samplePublications, List.mem_cons, List.not_mem_nil, or_false] at htx
  rcases htx with rfl | rfl | rfl | rfl
  · cases hcall
    decide
  · cases hcall
    decide
  · cases hcall
    decide
  · cases hcall
    decide

/-! ## The list that is served -/

/-- The block epochs of the committed transactions do not decrease. -/
def EpochsOrdered (h : List (Entry (World X) Label)) : Prop :=
  ((committed h).map Transaction.epoch).Pairwise (· ≤ ·)

theorem epoch_of_publication {tx : Transaction} {p : (UInt64 × UInt64) × List Strategy}
    (h : tx.publication = some p) : p.1.1 = tx.epoch := by
  unfold Transaction.publication at h
  cases hcall : tx.call with
  | setStrategiesPerEpoch r tuples => rw [hcall] at h; cases h; rfl
  | _ => rw [hcall] at h; cases h

theorem publications_ordered (hord : EpochsOrdered h) :
    (publications (committed h)).Pairwise fun p q => p.1.1 ≤ q.1.1 := by
  refine List.pairwise_filterMap.mpr ((List.pairwise_map.mp hord).imp ?_)
  intro tx tx' hle p hp q hq
  rw [epoch_of_publication hp, epoch_of_publication hq]
  exact hle

/-- The latest publication for the risk tolerance `r`: its epoch and its list. -/
def latest (r : UInt64) (ps : List ((UInt64 × UInt64) × List Strategy)) :
    Option (UInt64 × List Strategy) :=
  (ps.reverse.find? fun p => p.1.2 = r).map fun p => (p.1.1, p.2)

theorem latest_eq_some {r e : UInt64} {L : List Strategy}
    {ps : List ((UInt64 × UInt64) × List Strategy)} (h : latest r ps = some (e, L)) :
    ∃ ps₁ ps₂, ps = ps₁ ++ ((e, r), L) :: ps₂ ∧ ∀ p ∈ ps₂, p.1.2 ≠ r := by
  obtain ⟨⟨⟨e', r'⟩, L'⟩, hfind, heq⟩ := Option.map_eq_some_iff.mp h
  cases heq
  obtain ⟨hr, as, bs, hrev, hnone⟩ := List.find?_eq_some_iff_append.mp hfind
  cases of_decide_eq_true hr
  refine ⟨bs.reverse, as.reverse, ?_, ?_⟩
  · rw [← List.reverse_reverse ps, hrev]
    simp
  · intro p hp hpr
    have hn := hnone p (List.mem_reverse.mp hp)
    simp [hpr] at hn

/-- In order of epochs, no publication for `r` is newer than the latest. -/
theorem le_latest {r e : UInt64} {L : List Strategy}
    {ps : List ((UInt64 × UInt64) × List Strategy)}
    (hord : ps.Pairwise fun p q => p.1.1 ≤ q.1.1) (h : latest r ps = some (e, L)) :
    ∀ q ∈ ps, q.1.2 = r → q.1.1 ≤ e := by
  intro q hq hqr
  obtain ⟨ps₁, ps₂, rfl, hnone⟩ := latest_eq_some h
  obtain ⟨_, _, hle⟩ := List.pairwise_append.mp hord
  rcases List.mem_append.mp hq with hq | hq
  · exact hle q hq _ List.mem_cons_self
  · rcases List.mem_cons.mp hq with hq | hq
    · rw [hq]
      exact UInt64.le_refl _
    · exact absurd hqr (hnone q hq)

/-- In order of epochs, the last epoch bounds the others and is one of them. -/
theorem lastEpoch_max {ps : List ((UInt64 × UInt64) × List Strategy)}
    (hord : ps.Pairwise fun p q => p.1.1 ≤ q.1.1) :
    (∀ p ∈ ps, p.1.1 ≤ lastEpoch ps) ∧ (ps ≠ [] → ∃ p ∈ ps, lastEpoch ps = p.1.1) := by
  induction ps using List.reverseRecOn with
  | nil => exact ⟨fun _ hp => absurd hp List.not_mem_nil, fun h => absurd rfl h⟩
  | append_singleton ps q _ =>
      have hlast : lastEpoch (ps ++ [q]) = q.1.1 := by simp [lastEpoch]
      rw [hlast]
      obtain ⟨_, _, hle⟩ := List.pairwise_append.mp hord
      refine ⟨fun p hp => ?_, fun _ => ⟨q, by simp, rfl⟩⟩
      rcases List.mem_append.mp hp with hp | hp
      · exact hle p hp q (List.mem_singleton_self q)
      · rw [List.mem_singleton.mp hp]
        exact UInt64.le_refl _

/-- **When the latest list of a risk tolerance is the one served.**  In epochs
that do not decrease, the lookup of `initializeSmartAccount` finds a list for
`r`, and it is the one published last for `r`, exactly when nothing has been
published, for any risk tolerance, in a later epoch. -/
theorem served_iff (hinit : Initial C w₀) (t : Run C w₀ h w) (hord : EpochsOrdered h)
    {r e : UInt64} {L : List Strategy} (hlatest : latest r (publications (committed h)) = some (e, L)) :
    (w.served r ≠ [] ∧ w.served r = L) ↔ ∀ p ∈ publications (committed h), p.1.1 ≤ e := by
  have hsorted := publications_ordered hord
  obtain ⟨hmax, hmem⟩ := lastEpoch_max hsorted
  have hserved : w.served r =
      w.deployer.strategies (lastEpoch (publications (committed h)), r) := by
    rw [World.served, (tables hinit t).2.1]
  have hin : ((e, r), L) ∈ publications (committed h) := by
    obtain ⟨ps₁, ps₂, hps, _⟩ := latest_eq_some hlatest
    rw [hps]
    simp
  constructor
  · intro hfound p hp
    -- the key served was published, so not after `L`
    have hkey : (lastEpoch (publications (committed h)), r) ∈
        (publications (committed h)).map Prod.fst := by
      refine (stored_iff hinit t _).mp ?_
      rw [← hserved]
      exact hfound.1
    obtain ⟨q, hq, hqe⟩ := List.mem_map.mp hkey
    have hle := le_latest hsorted hlatest q hq (by rw [hqe])
    rw [hqe] at hle
    exact UInt64.le_trans (hmax p hp) hle
  · intro hle
    have hlast : lastEpoch (publications (committed h)) = e := by
      obtain ⟨q, hq, hqe⟩ := hmem (List.ne_nil_of_mem hin)
      exact UInt64.le_antisymm (hqe ▸ hle q hq) (hmax _ hin)
    have hL := published_in_force hinit t hin
    rw [hserved, hlast, hL]
    exact ⟨(publishable_of_mem t hin).ne_nil, rfl⟩

/-- Without a list at the last epoch, `initializeSmartAccount` is undone. -/
theorem initialize_unavailable {tx : Transaction} {r : UInt64} {a : Address}
    (hcall : tx.call = .initializeSmartAccount r)
    (hu : w.deployer.userSmartAccount tx.caller = some a) (hnone : w.served r = []) :
    Reverts (dispatch C tx) w (.require "No strategies available") := by
  unfold dispatch
  simp only [hcall, receiveEgld, initializeSmartAccount, reverts_bind, commits_modify,
    commits_get, commits_demand, reverts_require]
  refine Or.inr ⟨⟨⟩, _, rfl, Or.inr ⟨_, _, ⟨rfl, rfl⟩, Or.inr ⟨a, _, ⟨hu, rfl⟩, Or.inl ⟨?_, trivial⟩⟩⟩⟩
  exact fun hne => hne hnone

/-- Risk tolerance 1 is published in epoch 1 and 2 in epoch 2: from then on there
is no list for 1. -/
theorem served_lost : Initial sampleChain sampleWorld ∧
    ∃ h w, Run sampleChain sampleWorld h w ∧ EpochsOrdered h ∧
      latest 1 (publications (committed h)) = some (1, stepsOf [sampleTuple 10000]) ∧
      w.served 1 = [] := by
  have t₁ := Trace.single (publish_step (C := sampleChain) sampleWorld 1 1 [sampleTuple 10000]
    rfl rfl (by decide) (by decide) (by decide))
  have t₂ := t₁.snoc (publish_step (C := sampleChain)
    (sampleWorld.store fun d => d.publish 1 1 (stepsOf [sampleTuple 10000])) 2 2
    [sampleTuple 10000] rfl rfl (by decide) (by decide) (by decide))
  refine ⟨sampleWorld_initial, _, _, t₂, ?_, rfl, rfl⟩
  unfold EpochsOrdered
  decide

/-- Both risk tolerances have their list of epoch 2. -/
theorem served_iff_sample : ∃ h w, Run sampleChain sampleWorld h w ∧
    (w.served 1 ≠ [] ∧
      w.served 1 = stepsOf [(2500, .lp, 0xB, [77]), (7500, .farm, 0xC, [78])]) ∧
    w.served 2 ≠ [] ∧ w.served 2 = stepsOf [sampleTuple 10000] := by
  obtain ⟨h, w, t, htxs, _⟩ := samplePublications_run
  have hord : EpochsOrdered h := by
    unfold EpochsOrdered
    rw [htxs]
    decide
  have hlast : ∀ p ∈ publications (committed h), p.1.1 ≤ 2 := by
    rw [htxs]
    decide
  refine ⟨h, w, t, ?_, ?_⟩
  · refine (served_iff sampleWorld_initial t hord (r := 1) (e := 2) ?_).mpr hlast
    rw [htxs]
    rfl
  · refine (served_iff sampleWorld_initial t hord (r := 2) (e := 2) ?_).mpr hlast
    rw [htxs]
    rfl

end Deployer

end PortfolioPilot
