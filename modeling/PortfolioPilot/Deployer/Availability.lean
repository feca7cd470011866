/-
# `Deployer.Availability` — when an initialisation goes through

`SmartAccount.Failures` says when a setup goes through from any state of an
account.  In a run of the deployer the guards of the account are met by
construction: it is owned by the deployer, the risk tolerance of a served list is
in range, and the wrapper is the deployer's.  So for a list whose percentages make
up the whole, an initialisation by a registered user depends on two things: the
staking addresses that the owner has set, and the third parties.

What the third parties are to an account is `World.peers`; what is assumed of them
carries over from the chain around (`honest_peers`, `trades_peers`).
-/
import PortfolioPilot.Deployer.Provenance
import PortfolioPilot.Deployer.Servable
import PortfolioPilot.SmartAccount.Failures

namespace PortfolioPilot

namespace Deployer

open Revert
open SmartAccount (Answered Arrives Honest Makes Standard Strategy Trades WegldAt maxPercentage
  maxRiskTolerance)

variable {X : Type} {C : Chain X} {w₀ w w' : World X} {h : List (Entry (World X) Label)}

/-! ## What an account may assume of the third parties -/

theorem honest_peers (hC : Honest C.peers) (w : World X) : Honest (w.peers C) where
  fixed := by
    intro o o' a c r h
    obtain ⟨_, hcall⟩ := peers_call h
    obtain ⟨hwrapper, hwegld⟩ := hC.fixed o o' a c r hcall
    constructor
    · intro d
      show (if d = w.self then _ else _) = if d = w.self then _ else _
      rw [hwrapper]
    · intro a
      show (if w.isOwn a then _ else _) = if w.isOwn a then _ else _
      rw [hwegld]
  wrap := by
    intro o o' a wrapper n r h
    have hown : w.isOwn wrapper = false := (peers_call h).1
    rw [peers_wrappedEgldTokenId hown]
    exact hC.wrap (peers_call h).2
  swap h := hC.swap (peers_call h).2
  add_liquidity h := hC.add_liquidity (peers_call h).2

theorem trades_peers (hC : ∀ pair, Trades C.peers pair) (w : World X) (pair : Address) :
    Trades (w.peers C) pair where
  distinct h := by
    have hown : w.isOwn pair = false := (peers_call h).1
    rw [(peers_tokens hown).1, (peers_tokens hown).2]
    exact (hC pair).distinct (peers_call h).2
  input h := by
    have hown : w.isOwn pair = false := (peers_call h).1
    rw [(peers_tokens hown).1, (peers_tokens hown).2]
    exact (hC pair).input (peers_call h).2
  output h hr := by
    have hown : w.isOwn pair = false := (peers_call h).1
    rw [(peers_tokens hown).1, (peers_tokens hown).2]
    exact (hC pair).output (peers_call h).2 hr

theorem standard_peers (hC : Standard C.peers) (w : World X) : Standard (w.peers C) where
  wegld_fixed h := (honest_peers hC.honest w).fixed _ _ _ _ _ h
  wrap h := (honest_peers hC.honest w).wrap h
  swap h := hC.swap (peers_call h).2
  swap_input := by
    intro o o' a pair input t m r h
    have hown : w.isOwn pair = false := (peers_call h).1
    rw [(peers_tokens hown).1, (peers_tokens hown).2]
    exact hC.swap_input (peers_call h).2
  add_liquidity h := hC.add_liquidity (peers_call h).2
  stake_farm h := hC.stake_farm (peers_call h).2
  enter_farm h := hC.enter_farm (peers_call h).2

/-- The token that the deployer's wrapper gives, as an account sees it. -/
def World.wegld (C : Chain X) (w : World X) : TokenIdentifier :=
  (w.peers C).wrappedEgldTokenId w.ext w.deployer.egldWrapperAddress

/-- It is WEGLD to every account of the deployer. -/
theorem wegldAt_enter {a : Address} {account : Account}
    (hd : account.storage.smartAccountDeployerAddress = some w.self) :
    WegldAt (w.peers C) (w.enter a account) (w.wegld C) :=
  ⟨w.self, w.deployer.egldWrapperAddress, hd, if_pos rfl, rfl⟩

/-! ## The run of an initialisation -/

/-- Past its guards, an initialisation is the setup of the account. -/
theorem dispatch_initialize_run {tx : Transaction} {r : UInt64} {a : Address}
    (hcall : tx.call = .initializeSmartAccount r)
    (hu : w.deployer.userSmartAccount tx.caller = some a) (hL : w.served r ≠ []) :
    (dispatch C tx).run w =
      (callAccount C w.self tx.value a (.setupSmartAccount r (w.served r))).run w := by
  have hreceive : Commits (receiveEgld tx.value) w () (w.receive tx.value) :=
    commits_modify.mpr rfl
  have hspend : Commits (modify fun w => w.spend tx.value : Exec X Unit) (w.receive tx.value) ()
      w := commits_modify.mpr (w.receive_spend tx.value).symm
  have hlist : Commits (require (w.served r ≠ []) (.require "No strategies available") :
      Exec X Unit) (w.receive tx.value) () (w.receive tx.value) :=
    commits_require.mpr ⟨hL, rfl⟩
  have hfunds : Commits (require (tx.value ≤ (w.receive tx.value).egld) .insufficientFunds :
      Exec X Unit) (w.receive tx.value) () (w.receive tx.value) :=
    commits_require.mpr ⟨Nat.le_add_left _ _, rfl⟩
  unfold dispatch
  rw [hcall]
  refine (run_bind_of_commits hreceive).trans ?_
  unfold initializeSmartAccount
  refine (run_bind_of_commits (commits_get.mpr ⟨rfl, rfl⟩)).trans ?_
  refine (run_bind_of_commits (commits_demand.mpr ⟨hu, rfl⟩)).trans ?_
  refine (run_bind_of_commits hlist).trans ?_
  refine (run_bind_of_commits hfunds).trans ?_
  exact run_bind_of_commits hspend

/-- It commits and is undone as the setup is. -/
theorem initialize_iff {tx : Transaction} {r : UInt64} {a : Address} {account : Account}
    (hcall : tx.call = .initializeSmartAccount r)
    (hu : w.deployer.userSmartAccount tx.caller = some a) (hL : w.served r ≠ [])
    (ha : w.accounts a = some account) (hcode : account.code = .smartAccount) :
    ((∃ w', Commits (dispatch C tx) w () w') ↔
      ∃ s, Commits (SmartAccount.setupSmartAccount (w.peers C) w.self tx.value r (w.served r))
        (w.enter a account) () s) ∧
    ∀ e, Reverts (dispatch C tx) w e ↔
      Reverts (SmartAccount.setupSmartAccount (w.peers C) w.self tx.value r (w.served r))
        (w.enter a account) e := by
  have hrun : (dispatch C tx).run w =
      (within (fun w => w.enter a account) (fun w s => w.leave a account s)
        (SmartAccount.setupSmartAccount (w.peers C) w.self tx.value r (w.served r))).run w := by
    refine (dispatch_initialize_run hcall hu hL).trans ?_
    refine (run_bind_of_commits (commits_get.mpr ⟨rfl, rfl⟩)).trans ?_
    refine (run_bind_of_commits (commits_demand.mpr ⟨ha, rfl⟩)).trans ?_
    rw [hcode]
    rfl
  unfold Commits Reverts
  rw [hrun]
  constructor
  · constructor
    · rintro ⟨w', hc⟩
      obtain ⟨s, hs, _⟩ := commits_within.mp hc
      exact ⟨s, hs⟩
    · rintro ⟨s, hs⟩
      exact ⟨_, commits_within.mpr ⟨s, hs, rfl⟩⟩
  · intro e
    exact reverts_within

/-! ## When it goes through -/

/-- The percentages of a well allocated list make up the whole. -/
theorem WellAllocated.sum {L : List Strategy} (hwell : WellAllocated L) :
    (L.map fun step => step.percentage.toNat).sum = maxPercentage.toNat := by
  rw [← hwell.total, Words.exactSum, percentages, List.map_map]
  rfl

/-- Whether the owner has set a staking address for each Staking step. -/
def World.Staked (w : World X) (L : List Strategy) : Prop :=
  ∀ step ∈ L, step.positionType = .staking →
    w.deployer.farmStakingAddressForToken step.outputTokenId ≠ none

/-- A setup that went through found all of them. -/
theorem staked_of_commits {a : Address} {account : Account} {value : Nat} {r : UInt64}
    {L : List Strategy} {s : SmartAccount.State X}
    (hd : account.storage.smartAccountDeployerAddress = some w.self)
    (hc : Commits (SmartAccount.setupSmartAccount (w.peers C) w.self value r L)
      (w.enter a account) () s) : w.Staked L := by
  intro step hstep ht
  cases SmartAccount.setUp_of_commits hc with
  | @mk _ _ _ _ m _ _ _ hx _ _ _ _ hall =>
      obtain ⟨s₁, hstorage, hfound⟩ := stakingAt_of_processed hall step hstep ht
      refine (stakingAt_iff ?_).mp hfound
      rw [hstorage]
      show m.storage.smartAccountDeployerAddress = some w.self
      rw [hx.frame.2.2.1]
      exact hd

/-- **Only the owner's staking table and third parties can keep an initialisation from going
through.**  In every run over the account template, with a wrapper and pairs that mint and
send what they say (`Honest`), each pair trading its two tokens (`Trades`): for a served list
whose percentages make up the whole, `initializeSmartAccount` by a registered user goes
through if and only if the owner has set a staking address for each Staking step of the list,
each call that the setup gets to is answered with values the account can use, and each Farm
step it gets to is at a farm with a pair.  When it is undone, it is by a refused call, an
answer that cannot be used or an empty cell; no guard of the deployer or the account can
refuse it, and no balance. -/
theorem initialization_goes_through_iff (hinit : Initial C w₀) (t : Run C w₀ h w)
    (hcode : ∀ e ∈ h, FromSmartAccount C e) (hC : Honest C.peers)
    (hT : ∀ pair, Trades C.peers pair) {tx : Transaction} {r : UInt64} {a : Address}
    {account : Account} (hcall : tx.call = .initializeSmartAccount r)
    (hu : w.deployer.userSmartAccount tx.caller = some a) (ha : w.accounts a = some account)
    (hwell : WellAllocated (w.served r)) :
    ((∃ w', Commits (dispatch C tx) w () w') ↔
      w.Staked (w.served r) ∧
      (∀ c t, Makes (w.peers C) tx.value r (w.served r) (w.enter a account) c t →
        Answered (w.peers C) t c) ∧
      ∀ step m, Arrives (w.peers C) tx.value r (w.served r) (w.enter a account) step m →
        step.positionType = .farm →
          ∃ pair, (w.peers C).pairContractAddress m.outside step.contractAddress = some pair) ∧
    ∀ e, Reverts (dispatch C tx) w e → SmartAccount.TxError.Foreign e := by
  have hw := sound_of_run hinit t hcode
  have hd := hw.deployer a account ha
  have hr := (served_published hinit t hwell.ne_nil).1
  have howner : w.self = (w.enter a account).owner := (hw.owner a account ha).symm
  have hsum := hwell.sum
  obtain ⟨hcommits, hreverts⟩ := initialize_iff (C := C) hcall hu hwell.ne_nil ha
    (hw.code a account ha)
  have hP := honest_peers hC w
  have hpairs := trades_peers hT w
  have hwegld := wegldAt_enter (C := C) (a := a) hd
  have hthrough := hcommits.trans (SmartAccount.commits_iff_answered hP hpairs hwegld hsum)
  refine ⟨⟨fun hgo => ?_, fun hgo => ?_⟩, fun e he => ?_⟩
  · obtain ⟨_, _, hcalls, hfound⟩ := hthrough.mp hgo
    obtain ⟨s, hs⟩ := hcommits.mp hgo
    exact ⟨staked_of_commits hd hs, hcalls, fun step m harrives => (hfound step m harrives).pair⟩
  · obtain ⟨hstaked, hcalls, hpaired⟩ := hgo
    refine hthrough.mpr ⟨howner, hr, hcalls, fun step m harrives => ?_⟩
    obtain ⟨hstep, hdeployer⟩ := harrives.frame
    refine ⟨hpaired step m harrives, fun ht _ _ _ s₁ _ hx _ => ?_⟩
    refine (stakingAt_iff ?_).mpr (hstaked step hstep ht)
    rw [hx.frame.2.2.1, hdeployer]
    exact hd
  · exact SmartAccount.foreign_of_reverts hP hpairs hwegld hsum howner hr ((hreverts e).mp he)

/-! ## A concrete initialisation -/

/-- The sample chain, with pairs that trade. -/
def tradingChain : Chain Unit := { sampleChain with peers := SmartAccount.tradingPeers Unit }

theorem tradingChain_initial : Initial tradingChain sampleWorld := by
  have hc : Commits (init tradingChain 50 sampleAdmin 0x7E 0xE)
      (World.fresh 0xD sampleOwner ()) () sampleWorld := by
    simp only [init, commits_bind, commits_require, commits_modify]
    exact ⟨(), _, ⟨by decide, rfl⟩, (), _, ⟨by decide, rfl⟩, rfl⟩
  exact .mk hc

instance (L : List Strategy) : Decidable (WellAllocated L) :=
  decidable_of_iff (L ≠ [] ∧ L.length ≤ maxStrategiesNo ∧
    (∀ step ∈ L, 1 ≤ step.percentage.toNat ∧ step.percentage.toNat ≤ maxPercentage.toNat) ∧
    Words.exactSum (percentages L) = maxPercentage.toNat)
    ⟨fun h => ⟨h.1, h.2.1, h.2.2.1, h.2.2.2⟩, fun h => ⟨h.ne_nil, h.length, h.each, h.total⟩⟩

/-- An account for the sample user, and a list of an ESDT and a Staking step. -/
def samplePrepare : List Transaction :=
  [sampleDeploy, sampleCall sampleOwner 1 (.setFarmStakingAddressForToken [([77], 0xF)]),
    sampleCall sampleAdmin 1 (.setStrategiesPerEpoch 1
      [(5000, .esdt, 0xA, [77]), (5000, .staking, 0xA, [77])])]

/-- The sample user puts 10000 into the two steps, and each call on the way is answered. -/
theorem initialization_goes_through_iff_sample : ∃ h w account, Run tradingChain sampleWorld h w ∧
    w.accounts 0xACC = some account ∧
    (∃ w', Commits (dispatch tradingChain (sampleInitialize 1 1 10000)) w () w') ∧
    ∀ c t, Makes (w.peers tradingChain) 10000 1 (w.served 1) (w.enter 0xACC account) c t →
      Answered (w.peers tradingChain) t c := by
  have hc : check (send tradingChain (fun e => decide (FromSmartAccount tradingChain e))
      samplePrepare) sampleWorld (fun w => decide (WellAllocated (w.served 1)) &&
        decide (w.deployer.userSmartAccount sampleUser = some 0xACC) &&
        check (dispatch tradingChain (sampleInitialize 1 1 10000)) w fun _ => true) = true := by
    decide +kernel
  obtain ⟨h, w, t, _, hcode, hq⟩ := run_of_check hc
  obtain ⟨hq, hgo⟩ := (Bool.and_eq_true _ _).mp hq
  obtain ⟨hwell, hu⟩ := (Bool.and_eq_true _ _).mp hq
  have hcode : ∀ e ∈ h, FromSmartAccount tradingChain e := fun e he =>
    of_decide_eq_true (hcode e he)
  obtain ⟨account, ha⟩ := (sound_of_run tradingChain_initial t hcode).registered _ _
    (of_decide_eq_true hu)
  obtain ⟨w', hgo, _⟩ := exists_of_check hgo
  obtain ⟨hiff, _⟩ := initialization_goes_through_iff tradingChain_initial t hcode
    SmartAccount.tradingPeers_honest SmartAccount.tradingPeers_trades
    (show (sampleInitialize 1 1 10000).call = .initializeSmartAccount 1 from rfl)
    (of_decide_eq_true hu) ha (of_decide_eq_true hwell)
  obtain ⟨_, hcalls, _⟩ := hiff.mp ⟨w', hgo⟩
  exact ⟨h, w, account, t, ha, ⟨w', hgo⟩, hcalls⟩

end Deployer

end PortfolioPilot
