/-
# `Deployer.Servable` — whether a served list can be executed

The lists are written by the admin and the staking addresses by the owner, and
`setStrategiesPerEpoch` looks at neither the contract addresses of its tuples nor
the staking table.  So a served list is executable exactly when the tuples of the
call that published it were, and every Staking token among them has since been
named by the owner (`servable_iff`).

A Staking step without an address cannot be repaired by the admin, whose list is
in force for the rest of its epoch, and until the owner names the token no
initialisation goes through (`initialize_stuck`).
-/
import PortfolioPilot.Deployer.Accounts
import PortfolioPilot.Deployer.Strategies

namespace PortfolioPilot

namespace Deployer

open Revert
open SmartAccount (Peers Processed ProcessedAll StakingAt Strategy)

variable {X : Type} {C : Chain X} {w₀ w w' : World X} {h : List (Entry (World X) Label)}

/-! ## The staking lookup of an account -/

/-- What an account of the deployer finds is the deployer's cell. -/
theorem stakingAt_iff {s : SmartAccount.State X} {t : TokenIdentifier}
    (hs : s.storage.smartAccountDeployerAddress = some w.self) :
    (∃ a, StakingAt (w.peers C) s t a) ↔ w.deployer.farmStakingAddressForToken t ≠ none := by
  have hcell : (w.peers C).farmStakingAddressForToken s.outside w.self t =
      w.deployer.farmStakingAddressForToken t := if_pos rfl
  rw [Option.ne_none_iff_exists']
  constructor
  · intro hfound
    obtain ⟨a, d, hd, ha⟩ := hfound
    cases hd.symm.trans hs
    exact ⟨a, hcell.symm.trans ha⟩
  · intro hfound
    obtain ⟨a, ha⟩ := hfound
    exact ⟨a, w.self, hs, hcell.trans ha⟩

/-- A committed loop found a staking address for each of its Staking steps. -/
theorem stakingAt_of_processed {P : Peers X} {A : Nat} {steps : List Strategy}
    {s s' : SmartAccount.State X} (hall : ProcessedAll P A steps s s') :
    ∀ step ∈ steps, step.positionType = .staking →
      ∃ s₁, s₁.storage = s.storage ∧ ∃ a, StakingAt P s₁ step.outputTokenId a := by
  induction hall with
  | nil =>
      intro step hstep
      exact absurd hstep List.not_mem_nil
  | cons hfirst _ ih =>
      intro step hstep ht
      rcases List.mem_cons.mp hstep with rfl | hstep
      · cases hfirst with
        | staking _ _ hx _ hfound _ _ => exact ⟨_, hx.frame.2.2.1, _, hfound⟩
        | esdt ht' _ _ _ => cases ht.symm.trans ht'
        | lp ht' _ _ => cases ht.symm.trans ht'
        | farm ht' _ _ _ _ _ => cases ht.symm.trans ht'
      · obtain ⟨p, ho⟩ := hfirst.opens
        obtain ⟨s₁, hstorage, hfound⟩ := ih step hstep ht
        exact ⟨s₁, hstorage.trans ho.storage, hfound⟩

/-! ## Executable lists -/

/-- The step can be executed with the deployer's own data. -/
def World.Executable (C : Chain X) (w : World X) (step : Strategy) : Prop :=
  C.isSmartContract step.contractAddress = true ∧
    (step.positionType = .staking →
      w.deployer.farmStakingAddressForToken step.outputTokenId ≠ none)

/-- The tuple of a call is executable once the tokens `named` have a staking address. -/
def StrategyTuple.Executable (C : Chain X) (named : List TokenIdentifier) (t : StrategyTuple) :
    Prop :=
  C.isSmartContract t.2.2.1 = true ∧ (t.2.1 = .staking → t.2.2.2 ∈ named)

/-- A token has a staking address once a committed batch has named it. -/
theorem staking_iff (hinit : Initial C w₀) (t : Run C w₀ h w) (token : TokenIdentifier) :
    w.deployer.farmStakingAddressForToken token ≠ none ↔
      token ∈ (stakings (committed h)).map Prod.fst := by
  rw [(tables hinit t).2.2]
  rw [setPairs, Cells.replay_ne_iff, List.map_map]
  · exact Iff.rfl
  · intro p hp
    obtain ⟨q, _, rfl⟩ := List.mem_map.mp hp
    exact Option.some_ne_none q.2

/-- The steps of a call are executable if its tuples with a percentage are. -/
theorem executable_stepsOf (hinit : Initial C w₀) (t : Run C w₀ h w) (tuples : List StrategyTuple) :
    (∀ step ∈ stepsOf tuples, w.Executable C step) ↔ ∀ t ∈ tuples, t.1 ≠ 0 →
      t.Executable C ((stakings (committed h)).map Prod.fst) := by
  have hstep : ∀ t : StrategyTuple, w.Executable C t.toStrategy ↔
      t.Executable C ((stakings (committed h)).map Prod.fst) := fun t =>
    and_congr Iff.rfl (imp_congr Iff.rfl (staking_iff hinit ‹_› t.2.2.2))
  rw [stepsOf, List.forall_mem_map]
  constructor
  · intro hall t ht hne
    exact (hstep t).mp (hall t (List.mem_filter.mpr ⟨ht, decide_eq_true hne⟩))
  · intro hall t ht
    obtain ⟨ht, hne⟩ := List.mem_filter.mp ht
    exact (hstep t).mpr (hall t ht (of_decide_eq_true hne))

/-- **When a served list can be executed.**  Every step of the list served for `r`
is executable with the deployer's own data exactly when, in the accepted call for
`r` in the epoch of the last publication, every tuple with a percentage has the
address of a contract, and the token of every Staking tuple has been named in an
accepted `setFarmStakingAddressForToken`. -/
theorem servable_iff (hinit : Initial C w₀) (t : Run C w₀ h w) (r : UInt64) :
    (w.served r ≠ [] → ∀ step ∈ w.served r, w.Executable C step) ↔
      ∀ tx ∈ committed h, tx.epoch = lastEpoch (publications (committed h)) →
        ∀ tuples, tx.call = .setStrategiesPerEpoch r tuples → ∀ t ∈ tuples, t.1 ≠ 0 →
          t.Executable C ((stakings (committed h)).map Prod.fst) := by
  have hlast := (tables hinit t).2.1
  constructor
  · intro hall tx htx hepoch tuples hcall
    have hserved := served_of_committed hinit t htx hcall (hepoch.trans hlast.symm)
    have hpub := publishable_of_mem t (mem_publications.mpr ⟨tx, htx, r, tuples, hcall, rfl⟩)
    rw [hserved] at hall
    exact (executable_stepsOf hinit t tuples).mp (hall hpub.ne_nil)
  · intro hall hne
    obtain ⟨tx, htx, tuples, hcall, hepoch, hserved⟩ := committed_of_served hinit t hne
    rw [hserved]
    exact (executable_stepsOf hinit t tuples).mpr
      (hall tx htx (hepoch.trans hlast) tuples hcall)

/-- While a served Staking step has no address, no account can be set up for `r`. -/
theorem initialize_stuck (hinit : Initial C w₀) (t : Run C w₀ h w)
    (hcode : ∀ e ∈ h, FromSmartAccount C e) {r : UInt64} {step : Strategy}
    (hstep : step ∈ w.served r) (ht : step.positionType = .staking)
    (hnone : w.deployer.farmStakingAddressForToken step.outputTokenId = none)
    {tx : Transaction} (hown : w.isOwn tx.caller = false)
    (hcall : tx.call = .initializeSmartAccount r) : ¬ Commits (dispatch C tx) w () w' := by
  intro hc
  have hw := sound_of_run hinit t hcode
  have hentry : FromSmartAccount C ⟨w, .call tx, w'⟩ := by
    intro tx' hl hdeploys
    cases hl
    rw [hcall] at hdeploys
    exact absurd hdeploys (by simp)
  cases (effect_of_commits hc).ordinary hw hown hentry with
  | storage _ hne _ => exact hne r hcall
  | deploySmartAccount hcall' => cases hcall.symm.trans hcall'
  | @initializeSmartAccount r' a account s hcall' _ _ ha hs =>
      cases hcall.symm.trans hcall'
      cases SmartAccount.setUp_of_commits hs with
      | @mk _ _ _ _ m _ _ _ hx _ _ _ _ hall =>
          obtain ⟨s₁, hstorage, hfound⟩ := stakingAt_of_processed hall step hstep ht
          refine (stakingAt_iff ?_).mp hfound hnone
          rw [hstorage]
          show m.storage.smartAccountDeployerAddress = some w.self
          rw [hx.frame.2.2.1]
          exact hw.deployer a account ha

/-- A list with a Staking step, published while no token has a staking address. -/
def sampleStaking : StrategyTuple := (10000, .staking, 0xA, [77])

/-- A step at an address that is no contract, and a Staking step without an address. -/
theorem unservable_published : Initial sampleChain sampleWorld ∧
    (∃ h w, Run sampleChain sampleWorld h w ∧ w.served 1 ≠ [] ∧
      ∃ step ∈ w.served 1, sampleChain.isSmartContract step.contractAddress = false) ∧
    (∃ h w, Run sampleChain sampleWorld h w ∧ w.served 1 ≠ [] ∧
      ∃ step ∈ w.served 1, step.positionType = .staking ∧
        w.deployer.farmStakingAddressForToken step.outputTokenId = none) := by
  refine ⟨sampleWorld_initial, ⟨_, _, Trace.single (publish_step (C := sampleChain) sampleWorld 1 1
    [(10000, .esdt, 0x1666, [77])] rfl rfl (by decide) (by decide) (by decide)), by decide, ?_⟩,
    ⟨_, _, Trace.single (publish_step (C := sampleChain) sampleWorld 1 1
    [sampleStaking] rfl rfl (by decide) (by decide) (by decide)), by decide, ?_⟩⟩
  · exact ⟨_, List.mem_singleton_self _, rfl⟩
  · exact ⟨_, List.mem_singleton_self _, rfl, rfl⟩

theorem servable_iff_sample : ∃ h w, Run sampleChain sampleWorld h w ∧ w.served 1 ≠ [] ∧
    ∀ step ∈ w.served 1, w.Executable sampleChain step := by
  have hc : check (send sampleChain (fun _ => true)
      [sampleCall sampleOwner 1 (.setFarmStakingAddressForToken [([77], 0xF)]),
        sampleCall sampleAdmin 1 (.setStrategiesPerEpoch 1 [sampleStaking])]) sampleWorld
      (fun w => decide (w.served 1 ≠ [])) = true := by decide +kernel
  obtain ⟨h, w, t, hlabels, _, hne⟩ := run_of_check hc
  refine ⟨h, w, t, of_decide_eq_true hne,
    (servable_iff sampleWorld_initial t 1).mpr ?_ (of_decide_eq_true hne)⟩
  rw [committed_of_labels hlabels]
  intro tx htx _ tuples hcall tuple htuple _
  rcases List.mem_pair.mp htx with rfl | rfl
  · cases hcall
  · cases hcall
    cases List.mem_singleton.mp htuple
    exact ⟨rfl, fun _ => by decide⟩

end Deployer

end PortfolioPilot
