/-
# `Deployer.Rounds` — a round of publications

A list is served only while no other risk tolerance is published in a later epoch
(`served_iff`), so an admin who publishes for one tolerance takes all the others out of
service.  What remains open to it is to publish for all of them in one epoch.  Such a
round goes through, in any order, exactly when each call is acceptable by itself, no
tolerance comes twice, and none of them has been published in this epoch before
(`round_iff`); and afterwards the tolerances published in this epoch have their lists, and
the others have none (`round_goes_through_iff`).
-/
import PortfolioPilot.Deployer.Strategies

namespace PortfolioPilot

namespace Deployer

open Revert
open SmartAccount (Strategy maxPercentage maxRiskTolerance)

variable {X : Type} {C : Chain X} {w₀ w w' : World X} {h : List (Entry (World X) Label)}
  {epoch : UInt64}

/-! ## One publication -/

/-- The arguments of `setStrategiesPerEpoch`. -/
abbrev Offer := UInt64 × List StrategyTuple

/-- The checks on the arguments alone. -/
structure Offer.Acceptable (o : Offer) : Prop where
  length : o.2.length ≤ maxStrategiesNo
  risk : o.1 ≤ maxRiskTolerance
  total : Words.wrapSum (percentages (stepsOf o.2)) = maxPercentage

instance (o : Offer) : Decidable o.Acceptable :=
  decidable_of_iff (o.2.length ≤ maxStrategiesNo ∧ o.1 ≤ maxRiskTolerance ∧
    Words.wrapSum (percentages (stepsOf o.2)) = maxPercentage)
    ⟨fun h => ⟨h.1, h.2.1, h.2.2⟩, fun h => ⟨h.length, h.risk, h.total⟩⟩

/-- The call of `admin` in a block of `epoch`. -/
def Offer.tx (admin : Address) (epoch : UInt64) (o : Offer) : Transaction where
  caller := admin
  value := 0
  epoch := epoch
  newAddress := 0
  call := .setStrategiesPerEpoch o.1 o.2

def World.publish (w : World X) (epoch : UInt64) (o : Offer) : World X :=
  w.store fun d => d.publish epoch o.1 (stepsOf o.2)

theorem Offer.Acceptable.ne_nil {o : Offer} (ho : o.Acceptable) : stepsOf o.2 ≠ [] := by
  intro hnil
  have htotal := ho.total
  rw [hnil] at htotal
  exact absurd htotal (by decide)

/-- A call of the admin is a step exactly when its arguments are acceptable and the cell is
empty. -/
theorem step_tx_iff (hown : w.isOwn w.deployer.adminAddress = false) {o : Offer} :
    Step C w (.call (o.tx w.deployer.adminAddress epoch)) w' ↔
      o.Acceptable ∧ w.deployer.strategies (epoch, o.1) = [] ∧ w' = w.publish epoch o := by
  constructor
  · intro hs
    cases hs with
    | call _ hc =>
        have he := effect_of_commits hc
        have hacc : Accepted w epoch w.deployer.adminAddress o.1 o.2 := he.accepted rfl
        cases he with
        | setStrategiesPerEpoch hcall _ _ =>
            cases hcall
            exact ⟨⟨hacc.length, hacc.risk, hacc.total⟩, hacc.vacant, rfl⟩
        | quiet hcall _ =>
            rcases hcall with ⟨hcall, _⟩ | hcall
            · cases hcall
            · cases hcall
        | _ hcall => cases hcall
  · intro h
    obtain ⟨ho, hvacant, rfl⟩ := h
    exact step_of_effect hown
      (.setStrategiesPerEpoch rfl rfl ⟨rfl, ho.length, ho.risk, hvacant, ho.total⟩)

/-! ## A round -/

/-- The world after a round. -/
def World.publishAll (w : World X) (epoch : UInt64) (offers : List Offer) : World X :=
  offers.foldl (fun w o => w.publish epoch o) w

/-- Each offer is acceptable, and none is for a cell that is taken by then. -/
structure Fits (w : World X) (epoch : UInt64) (offers : List Offer) : Prop where
  acceptable : ∀ o ∈ offers, o.Acceptable
  nodup : (offers.map Prod.fst).Nodup
  vacant : ∀ o ∈ offers, w.deployer.strategies (epoch, o.1) = []

/-- A publication takes its own cell, and leaves the other cells alone. -/
theorem fits_cons {o : Offer} {offers : List Offer} : Fits w epoch (o :: offers) ↔
    o.Acceptable ∧ w.deployer.strategies (epoch, o.1) = [] ∧
      Fits (w.publish epoch o) epoch offers := by
  have htaken : (w.publish epoch o).deployer.strategies (epoch, o.1) = stepsOf o.2 :=
    Function.update_self ..
  have hother : ∀ r, r ≠ o.1 → (w.publish epoch o).deployer.strategies (epoch, r) =
      w.deployer.strategies (epoch, r) := fun r hr =>
    Function.update_of_ne (fun hk => hr (congrArg Prod.snd hk)) ..
  constructor
  · intro hf
    obtain ⟨hnotin, hnodup⟩ := List.nodup_cons.mp hf.nodup
    refine ⟨hf.acceptable o List.mem_cons_self, hf.vacant o List.mem_cons_self,
      fun o' ho' => hf.acceptable o' (List.mem_cons_of_mem _ ho'), hnodup, fun o' ho' => ?_⟩
    have hne : o'.1 ≠ o.1 := fun heq => hnotin (List.mem_map.mpr ⟨o', ho', heq⟩)
    rw [hother _ hne]
    exact hf.vacant o' (List.mem_cons_of_mem _ ho')
  · intro h
    obtain ⟨ho, hvacant, hf⟩ := h
    have hne : ∀ o' ∈ offers, o'.1 ≠ o.1 := by
      intro o' ho' heq
      have hempty := hf.vacant o' ho'
      rw [heq, htaken] at hempty
      exact ho.ne_nil hempty
    refine ⟨List.forall_mem_cons.mpr ⟨ho, hf.acceptable⟩, ?_,
      List.forall_mem_cons.mpr ⟨hvacant, fun o' ho' => ?_⟩⟩
    · refine List.nodup_cons.mpr ⟨fun hin => ?_, hf.nodup⟩
      obtain ⟨o', ho', heq⟩ := List.mem_map.mp hin
      exact hne o' ho' heq
    · rw [← hother _ (hne o' ho')]
      exact hf.vacant o' ho'

/-- The calls of the admin for the offers, one after the other. -/
def roundLabels (admin : Address) (epoch : UInt64) (offers : List Offer) : List Label :=
  offers.map fun o => .call (o.tx admin epoch)

/-- A round goes through exactly when it fits, and to one world. -/
theorem round_iff {offers : List Offer} :
    ∀ {w : World X}, w.isOwn w.deployer.adminAddress = false →
      ((∃ h, Run C w h w' ∧ h.map Entry.label = roundLabels w.deployer.adminAddress epoch offers) ↔
        Fits w epoch offers ∧ w' = w.publishAll epoch offers) := by
  induction offers with
  | nil =>
      intro w _
      constructor
      · intro hrun
        obtain ⟨h, t, hl⟩ := hrun
        rw [List.map_eq_nil_iff.mp hl] at t
        refine ⟨⟨fun _ ho => ?_, List.nodup_nil, fun _ ho => ?_⟩, t.eq_of_nil⟩
        · exact absurd ho List.not_mem_nil
        · exact absurd ho List.not_mem_nil
      · intro h
        rw [h.2]
        exact ⟨[], .nil, rfl⟩
  | cons o offers ih =>
      intro w hown
      rw [roundLabels, List.map_cons, Trace.labels_cons, fits_cons]
      constructor
      · intro hrun
        obtain ⟨m, hs, hrest⟩ := hrun
        obtain ⟨ho, hvacant, rfl⟩ := (step_tx_iff hown).mp hs
        -- the admin is the same after a publication, and still outside
        obtain ⟨hf, hend⟩ := (ih (w := w.publish epoch o) hown).mp hrest
        exact ⟨⟨ho, hvacant, hf⟩, hend⟩
      · intro h
        obtain ⟨⟨ho, hvacant, hf⟩, hend⟩ := h
        exact ⟨_, (step_tx_iff hown).mpr ⟨ho, hvacant, rfl⟩,
          (ih (w := w.publish epoch o) hown).mpr ⟨hf, hend⟩⟩

/-- What a round writes. -/
def writes (epoch : UInt64) (offers : List Offer) : List ((UInt64 × UInt64) × List Strategy) :=
  offers.map fun o => ((epoch, o.1), stepsOf o.2)

theorem publishAll_strategies {offers : List Offer} : ∀ {w : World X},
    (w.publishAll epoch offers).deployer.strategies =
      Cells.replay w.deployer.strategies (writes epoch offers) := by
  induction offers with
  | nil =>
      intro w
      rfl
  | cons o offers ih =>
      intro w
      exact ih (w := w.publish epoch o)

theorem publishAll_lastStrategyEpoch {offers : List Offer} : ∀ {w : World X}, offers ≠ [] →
    (w.publishAll epoch offers).deployer.lastStrategyEpoch = epoch := by
  induction offers with
  | nil =>
      intro w hne
      exact absurd rfl hne
  | cons o offers ih =>
      intro w _
      cases offers with
      | nil => rfl
      | cons o' offers => exact ih (w := w.publish epoch o) (List.cons_ne_nil _ _)

/-- The lists served after a round: its own, and what was published in its epoch before. -/
theorem served_publishAll (w : World X) (epoch : UInt64) {offers : List Offer} (hne : offers ≠ [])
    (hnodup : (offers.map Prod.fst).Nodup) :
    (∀ o ∈ offers, (w.publishAll epoch offers).served o.1 = stepsOf o.2) ∧
      ∀ r, r ∉ offers.map Prod.fst →
        (w.publishAll epoch offers).served r = w.deployer.strategies (epoch, r) := by
  have hserved : ∀ r, (w.publishAll epoch offers).served r =
      Cells.replay w.deployer.strategies (writes epoch offers) (epoch, r) := by
    intro r
    rw [World.served, publishAll_lastStrategyEpoch hne, publishAll_strategies]
  have hkeys : (writes epoch offers).map Prod.fst =
      (offers.map Prod.fst).map fun r => (epoch, r) := by
    rw [writes, List.map_map, List.map_map]
    rfl
  constructor
  · intro o ho
    rw [hserved]
    refine Cells.replay_of_nodup ?_ (List.mem_map.mpr ⟨o, ho, rfl⟩)
    rw [hkeys]
    exact hnodup.map fun _ _ hk => congrArg Prod.snd hk
  · intro r hr
    rw [hserved]
    refine Cells.replay_of_notMem fun hin => hr ?_
    rw [hkeys] at hin
    obtain ⟨r', hr', heq⟩ := List.mem_map.mp hin
    cases heq
    exact hr'

/-! ## Rounds of a run -/

/-- **How an admin keeps the risk tolerances served.**  After any run, a round of
publications by the admin in one epoch, in the order given, goes through if and only if each
call has acceptable arguments, no risk tolerance comes twice, and none of them was published
in this epoch of the run before.  Then each of them is served the list just published for it,
and of the others exactly those that were already published in this epoch are served one. -/
theorem round_goes_through_iff (hinit : Initial C w₀) (t : Run C w₀ h w)
    (hown : w.isOwn w.deployer.adminAddress = false) (epoch : UInt64) {offers : List Offer}
    (hne : offers ≠ []) :
    ((∃ w' h', Run C w h' w' ∧
        h'.map Entry.label = roundLabels w.deployer.adminAddress epoch offers) ↔
      (∀ o ∈ offers, o.Acceptable) ∧ (offers.map Prod.fst).Nodup ∧
        ∀ o ∈ offers, (epoch, o.1) ∉ (publications (committed h)).map Prod.fst) ∧
    ∀ w' h', Run C w h' w' →
      h'.map Entry.label = roundLabels w.deployer.adminAddress epoch offers →
      (∀ o ∈ offers, w'.served o.1 = stepsOf o.2) ∧
        ∀ r, w'.served r ≠ [] ↔ r ∈ offers.map Prod.fst ∨
          (epoch, r) ∈ (publications (committed h)).map Prod.fst := by
  have hstored := stored_iff hinit t
  constructor
  · constructor
    · intro hrun
      obtain ⟨w', hrun⟩ := hrun
      obtain ⟨hf, _⟩ := (round_iff hown).mp hrun
      refine ⟨hf.acceptable, hf.nodup, fun o ho hin => ?_⟩
      exact (hstored _).mpr hin (hf.vacant o ho)
    · intro hfits
      obtain ⟨hacc, hnodup, hvacant⟩ := hfits
      refine ⟨_, (round_iff hown).mpr ⟨⟨hacc, hnodup, fun o ho => ?_⟩, rfl⟩⟩
      by_contra htaken
      exact hvacant o ho ((hstored _).mp htaken)
  · intro w' h' t' hlabels
    obtain ⟨hf, rfl⟩ := (round_iff hown).mp ⟨h', t', hlabels⟩
    obtain ⟨hround, hbefore⟩ := served_publishAll w epoch hne hf.nodup
    refine ⟨hround, fun r => ?_⟩
    by_cases hr : r ∈ offers.map Prod.fst
    · obtain ⟨o, ho, rfl⟩ := List.mem_map.mp hr
      refine ⟨fun _ => Or.inl hr, fun _ => ?_⟩
      rw [hround o ho]
      exact (hf.acceptable o ho).ne_nil
    · rw [hbefore r hr]
      exact ⟨fun hstore => Or.inr ((hstored _).mp hstore),
        fun hor => (hstored _).mpr (hor.resolve_left hr)⟩

/-- In epoch 1 the tolerance 1 is published; in epoch 2 the sample admin publishes for all six. -/
theorem round_goes_through_iff_sample : ∃ h w h' w', Run sampleChain sampleWorld h w ∧
    Run sampleChain w h' w' ∧ w.served 0 = [] ∧ ∀ r ≤ maxRiskTolerance, w'.served r ≠ [] := by
  let offers : List Offer := [0, 1, 2, 3, 4, 5].map fun r => (r, [sampleTuple 10000])
  have t := Trace.single (publish_step (C := sampleChain) sampleWorld 1 1 [sampleTuple 10000]
    rfl rfl (by decide) (by decide) (by decide))
  obtain ⟨hiff, hserved⟩ := round_goes_through_iff sampleWorld_initial t rfl 2
    (show offers ≠ [] by decide)
  obtain ⟨w', h', t', hlabels⟩ := hiff.mpr ⟨by decide, by decide, by decide⟩
  refine ⟨_, _, h', w', t, t', by decide, fun r hr => ?_⟩
  refine ((hserved w' h' t' hlabels).2 r).mpr (Or.inl ?_)
  -- the tolerances in range are the six
  have hle : r.toNat ≤ 5 := hr
  have hmem : r = 0 ∨ r = 1 ∨ r = 2 ∨ r = 3 ∨ r = 4 ∨ r = 5 := by
    simp only [← UInt64.toNat_inj, UInt64.reduceToNat]
    omega
  show r ∈ [0, 1, 2, 3, 4, 5]
  simpa using hmem

end Deployer

end PortfolioPilot
