/-
# `Deployer.Confinement` — whom the accounts deal with

The account contract trusts its caller for the addresses of its strategy, and the
deployer trusts its admin for them.  What that leaves to everybody else is nothing:
each call that an account has made was made while its own user had it initialised, and
went to the wrapper of `init` or, for a step of a list which an admin of the owner's had
published (`Listed`), to the pair or farm of the step, the pair that this farm names, or
the staking contract that the owner had set for the token of the step (`Contact`,
`calls_confined`).  The tokens that went along are WEGLD, no more than the share of the
step, and what the contract before it in the step has handed back (`Handed`).

The pairs, farms and staking contracts may do as they like.
-/
import PortfolioPilot.Deployer.Authority
import PortfolioPilot.SmartAccount.Contacts

namespace PortfolioPilot

namespace Deployer

open Revert
open SmartAccount (ContractCall Executes PoolAt Returned StepCall Strategy WegldAt investment sides
  swapMinAmount)

variable {X : Type} {C : Chain X} {w₀ w w' : World X} {h : List (Entry (World X) Label)}

/-! ## Addresses and where they are from -/

/-- The step is of a list that was published for `r`, by the admin that the owner had
appointed at the time. -/
def Listed (w₀ : World X) (h : List (Entry (World X) Label)) (r : UInt64) (step : Strategy) :
    Prop :=
  ∃ h₁ e h₂ tx tuples, h = h₁ ++ e :: h₂ ∧ e.label = .call tx ∧
    tx.call = .setStrategiesPerEpoch r tuples ∧ Appointed w₀ h₁ tx.caller ∧ step ∈ stepsOf tuples

/-- The owner had set the contract `a` for staking the token. -/
def SetByOwner (C : Chain X) (w₀ : World X) (h : List (Entry (World X) Label))
    (token : TokenIdentifier) (a : Address) : Prop :=
  C.isSmartContract a = true ∧ ∃ tx ∈ committed h, ∃ pairs, tx.caller = w₀.owner ∧
    tx.call = .setFarmStakingAddressForToken pairs ∧ (token, a) ∈ pairs

/-- Where a step trades: at the address that it gives, or, if that is a farm, at the pair
that the farm names. -/
inductive TradesAt (C : Chain X) (step : Strategy) (pair : Address) : Prop
  | itself : step.positionType ≠ .farm → step.contractAddress = pair → TradesAt C step pair
  | farm {x : X} : step.positionType = .farm →
      C.peers.pairContractAddress x step.contractAddress = some pair → TradesAt C step pair

/-- The token that the wrapper of `init` names, at some moment, as the one for EGLD. -/
def IsWegld (C : Chain X) (w₀ : World X) (token : TokenIdentifier) : Prop :=
  ∃ x, token = C.peers.wrappedEgldTokenId x w₀.deployer.egldWrapperAddress

/-- Called with `c` by some account, a third party has handed back `result`, in `x`. -/
def Handed (C : Chain X) (c : ContractCall) (x : X) (result : List EsdtTokenPayment) : Prop :=
  ∃ x₀ a ret, C.peers.call x₀ a c = some (x, ret) ∧ ret.result = result

/-- The calls that a deposit of `A` for the tolerance `r` may lead to, after the run `h`. -/
inductive Contact (C : Chain X) (w₀ : World X) (h : List (Entry (World X) Label)) (A : Nat)
    (r : UInt64) : ContractCall → Prop
  | wrap : Contact C w₀ h A r (.wrapEgld w₀.deployer.egldWrapperAddress A)
  | swap {step : Strategy} {pair : Address} {token : TokenIdentifier} {n : Nat} :
      Listed w₀ h r step → TradesAt C step pair → IsWegld C w₀ token → n ≤ investment A step →
      Contact C w₀ h A r
        (.swapTokensFixedInput pair ⟨token, 0, n⟩ step.outputTokenId swapMinAmount)
  /-- half of the share, and what the pair has given for the other half -/
  | addLiquidity {step : Strategy} {pair : Address} {token : TokenIdentifier}
      {out : EsdtTokenPayment} {x : X} :
      Listed w₀ h r step → TradesAt C step pair → IsWegld C w₀ token →
      Handed C (.swapTokensFixedInput pair ⟨token, 0, investment A step / 2⟩ step.outputTokenId
        swapMinAmount) x [out] →
      Contact C w₀ h A r (.addLiquidity pair
        (sides C.peers x pair token (investment A step / 2) out).1
        (sides C.peers x pair token (investment A step / 2) out).2 1 1)
  /-- what the pair has given for the share -/
  | stake {step : Strategy} {farmStaking : Address} {token : TokenIdentifier}
      {out : EsdtTokenPayment} {x : X} :
      Listed w₀ h r step → step.positionType = .staking →
      SetByOwner C w₀ h step.outputTokenId farmStaking → IsWegld C w₀ token →
      Handed C (.swapTokensFixedInput step.contractAddress ⟨token, 0, investment A step⟩
        step.outputTokenId swapMinAmount) x [out] →
      Contact C w₀ h A r (.stakeFarm farmStaking [out])
  /-- the LP tokens that the pair of the farm has given for such payments -/
  | enterFarm {step : Strategy} {pair : Address} {first second lp used₁ used₂ : EsdtTokenPayment}
      {x : X} :
      Listed w₀ h r step → step.positionType = .farm → TradesAt C step pair →
      Contact C w₀ h A r (.addLiquidity pair first second 1 1) →
      Handed C (.addLiquidity pair first second 1 1) x [lp, used₁, used₂] →
      Contact C w₀ h A r (.enterFarm step.contractAddress [lp])

/-! ## One step -/

/-- A list that is served was published by an admin of the owner's. -/
theorem listed_of_served (hinit : Initial C w₀) (t : Run C w₀ h w) {r : UInt64} {step : Strategy}
    (hstep : step ∈ w.served r) : Listed w₀ h r step := by
  obtain ⟨h₁, e, h₂, tx, tuples, hh, hl, hcall, _, hlist, happointed⟩ :=
    publisher_of_stored hinit t (k := (w.deployer.lastStrategyEpoch, r))
      (List.ne_nil_of_mem hstep)
  refine ⟨h₁, e, h₂, tx, tuples, hh, hl, hcall, happointed, ?_⟩
  rw [← hlist]
  exact hstep

/-- The pool of a step, as the world has it. -/
theorem tradesAt_of_pool {step : Strategy} {pair : Address} {m : SmartAccount.State X}
    (hpool : PoolAt (w.peers C) m step pair) : TradesAt C step pair := by
  cases hpool with
  | lp ht hpair =>
      refine .itself (fun hfarm => ?_) hpair
      rw [ht] at hfarm
      cases hfarm
  | farm ht hpair =>
      have hnamed : (if w.isOwn step.contractAddress then none
          else C.peers.pairContractAddress m.outside step.contractAddress) = some pair := hpair
      by_cases hown : w.isOwn step.contractAddress
      · rw [if_pos hown] at hnamed
        cases hnamed
      · rw [if_neg hown] at hnamed
        exact .farm ht hnamed

/-- A call that an account has made went to a third party, which has answered it. -/
theorem handed_of_executes {c : ContractCall} {m m' : SmartAccount.State X} {ret : Returned}
    {result : List EsdtTokenPayment} (hx : Executes (w.peers C) c m ret m')
    (hr : ret.result = result) : w.isOwn c.dest = false ∧ Handed C c m'.outside result := by
  obtain ⟨hown, hcall⟩ := peers_call hx.answer
  exact ⟨hown, _, _, ret, hcall, hr⟩

/-- At the pair of a third party an account reads the tokens that the pair names. -/
theorem sides_peers {pair : Address} (hown : w.isOwn pair = false) (x : X)
    (token : TokenIdentifier) (half : Nat) (out : EsdtTokenPayment) :
    sides (w.peers C) x pair token half out = sides C.peers x pair token half out := by
  obtain ⟨hfirst, hsecond⟩ := peers_tokens (C := C) (x := x) hown
  unfold sides
  rw [hfirst, hsecond]

/-- The wrapper that has wrapped a deposit is none of the contracts here. -/
theorem wrapper_outside {a : Address} {account : Account} {value : Nat} {r : UInt64}
    {L : List Strategy} {s : SmartAccount.State X}
    (hd : (w.enter a account).storage.smartAccountDeployerAddress = some w.self)
    (hs : Commits (SmartAccount.setupSmartAccount (w.peers C) w.self value r L)
      (w.enter a account) () s) : w.isOwn w.deployer.egldWrapperAddress = false := by
  cases SmartAccount.setUp_of_commits hs with
  | @mk _ wrapper _ _ _ _ hd' ha hx _ _ _ _ _ =>
      cases hd.symm.trans hd'
      have hwrapper : w.deployer.egldWrapperAddress = wrapper :=
        Option.some.inj ((if_pos rfl).symm.trans ha)
      rw [hwrapper]
      exact (handed_of_executes hx rfl).1

/-- What WEGLD is for an account of this deployer. -/
theorem isWegld_of_lookup (t : Run C w₀ h w) (hout : w.isOwn w.deployer.egldWrapperAddress = false)
    {m : SmartAccount.State X} {token : TokenIdentifier}
    (hd : m.storage.smartAccountDeployerAddress = some w.self)
    (hwegld : WegldAt (w.peers C) m token) : IsWegld C w₀ token := by
  obtain ⟨d', wrapper, hd', ha, rfl⟩ := hwegld
  cases hd.symm.trans hd'
  have hwrapper : w.deployer.egldWrapperAddress = wrapper :=
    Option.some.inj ((if_pos rfl).symm.trans ha)
  rw [hwrapper] at hout
  refine ⟨m.outside, ?_⟩
  rw [← (constants_of_run t).2, hwrapper]
  exact peers_wrappedEgldTokenId hout

/-- After its swap of half of the share, a step adds liquidity with the other half and what
it got. -/
theorem contact_addLiquidity {A : Nat} {r : UInt64} {step : Strategy} {pair : Address}
    {m m₁ : SmartAccount.State X} {token : TokenIdentifier} {ret : Returned}
    {out : EsdtTokenPayment} (hlisted : Listed w₀ h r step) (hpool : PoolAt (w.peers C) m step pair)
    (htoken : IsWegld C w₀ token)
    (hx : Executes (w.peers C) (.swapTokensFixedInput pair ⟨token, 0, investment A step / 2⟩
      step.outputTokenId swapMinAmount) m ret m₁) (hr : ret.result = [out]) :
    Contact C w₀ h A r (.addLiquidity pair
      (sides (w.peers C) m₁.outside pair token (investment A step / 2) out).1
      (sides (w.peers C) m₁.outside pair token (investment A step / 2) out).2 1 1) := by
  obtain ⟨hown, hout⟩ := handed_of_executes hx hr
  have hpair : w.isOwn pair = false := hown
  rw [sides_peers hpair]
  exact .addLiquidity hlisted (tradesAt_of_pool hpool) htoken hout

/-- What a step of the served list reaches is a contact. -/
theorem contact_of_step (hinit : Initial C w₀) (t : Run C w₀ h w)
    (hout : w.isOwn w.deployer.egldWrapperAddress = false) {A : Nat} {r : UInt64}
    {c : ContractCall} (hc : StepCall (w.peers C) A w.self (w.served r) c) :
    Contact C w₀ h A r c := by
  obtain ⟨step, hstep, m, n, hd, hreach⟩ := hc
  have hlisted := listed_of_served hinit t hstep
  cases hreach with
  | swap ht hwegld =>
      refine .swap hlisted (.itself (fun hfarm => ?_) rfl) (isWegld_of_lookup t hout hd hwegld)
        (Nat.le_refl _)
      rw [hfarm] at ht
      rcases ht with ht | ht <;> cases ht
  | @stake _ _ _ farmStaking _ ht hwegld hx hr hstaking =>
      obtain ⟨d', hd', ha⟩ := hstaking
      rw [hx.frame.2.2.1] at hd'
      cases hd.symm.trans hd'
      -- the deployer of the account is this one, so the address is from its table
      have htable : w.deployer.farmStakingAddressForToken step.outputTokenId = some farmStaking :=
        (if_pos rfl).symm.trans ha
      exact .stake hlisted ht (owner_of_staking hinit t htable) (isWegld_of_lookup t hout hd hwegld)
        (handed_of_executes hx hr).2
  | swapHalf hpool hwegld =>
      exact .swap hlisted (tradesAt_of_pool hpool) (isWegld_of_lookup t hout hd hwegld)
        (Nat.div_le_self _ _)
  | addLiquidity hpool hwegld hx hr =>
      exact contact_addLiquidity hlisted hpool (isWegld_of_lookup t hout hd hwegld) hx hr
  | enterFarm ht hpool hwegld hl =>
      cases hl with
      | mk hx₁ hr₁ hx₂ hr₂ _ _ =>
          have hadd := contact_addLiquidity hlisted hpool (isWegld_of_lookup t hout hd hwegld) hx₁ hr₁
          exact .enterFarm hlisted ht (tradesAt_of_pool hpool) hadd (handed_of_executes hx₂ hr₂).2

/-- The events that a committed transaction adds: the calls of an account are contacts, of
an initialisation by its user. -/
theorem Ordinary.contacts {tx : Transaction} (ho : Ordinary C tx w w') (hinit : Initial C w₀)
    (t : Run C w₀ h w) (hw : Sound w) :
    ∃ events, w'.log = w.log ++ events ∧ ∀ a c ret, .account a (.called c ret) ∈ events →
      ∃ r, tx.call = .initializeSmartAccount r ∧
        w.deployer.userSmartAccount tx.caller = some a ∧ Contact C w₀ h tx.value r c := by
  cases ho with
  | storage _ _ _ =>
      refine ⟨[], (List.append_nil _).symm, fun a c ret hmem => ?_⟩
      exact absurd hmem List.not_mem_nil
  | deploySmartAccount _ _ _ _ _ =>
      refine ⟨_, w.deployed_born_log _ _, fun a c ret hmem => ?_⟩
      cases List.mem_singleton.mp hmem
  | @initializeSmartAccount r b account s hcall hu _ hb hs =>
      have hd : (w.enter b account).storage.smartAccountDeployerAddress = some w.self :=
        hw.deployer b account hb
      obtain ⟨events, hlog, hcalls⟩ := (SmartAccount.setUp_of_commits hs).calls hd
      refine ⟨s.log.map (Event.account b), rfl, fun a c ret hmem => ?_⟩
      obtain ⟨e, he, heq⟩ := List.mem_map.mp hmem
      cases heq
      have hmem' : SmartAccount.Event.called c ret ∈ events := by
        rw [hlog] at he
        exact he
      refine ⟨r, hcall, hu, ?_⟩
      rcases hcalls c ret hmem' with ⟨wrapper, ha, rfl⟩ | hstep
      · have hwrapper : w.deployer.egldWrapperAddress = wrapper :=
          Option.some.inj ((if_pos rfl).symm.trans ha)
        rw [← hwrapper, (constants_of_run t).2]
        exact .wrap
      · exact contact_of_step hinit t (wrapper_outside hd hs) hstep

/-! ## Runs -/

/-- The call was made in an initialisation of the run `h`, by the user of the account. -/
def Ordered (C : Chain X) (w₀ : World X) (h : List (Entry (World X) Label)) (a : Address)
    (c : ContractCall) : Prop :=
  ∃ h₁ e h₂ tx r, h = h₁ ++ e :: h₂ ∧ e.label = .call tx ∧ tx.call = .initializeSmartAccount r ∧
    e.pre.deployer.userSmartAccount tx.caller = some a ∧ Contact C w₀ h₁ tx.value r c

theorem Ordered.later {a : Address} {c : ContractCall} (ho : Ordered C w₀ h a c)
    (e : Entry (World X) Label) : Ordered C w₀ (h ++ [e]) a c := by
  obtain ⟨h₁, e₁, h₂, tx, r, hh, hrest⟩ := ho
  refine ⟨h₁, e₁, h₂ ++ [e], tx, r, ?_, hrest⟩
  rw [hh, List.append_assoc, List.cons_append]

/-- **The calls of the accounts are confined.**  In every run over the account template, with
third parties that do as they like, each call in the log of an account was made in a
committed `initializeSmartAccount` of the user the account belongs to, and is one of five:
the wrapping of that deposit at the wrapper of `init`; a swap of WEGLD, no more than the share
of the step, at the pair where the step trades; an `add_liquidity` at that pair, with half of
the share and what the pair gave for the other half; the staking of a Staking step, at the
contract that the owner had set for its token, of what the pair gave for the share; and the
entry into the farm of a Farm step, with the LP tokens that such an `add_liquidity` gave.  The
step is of a list for the risk tolerance asked for, that was published earlier by the admin
whom the owner had then appointed. -/
theorem calls_confined (hinit : Initial C w₀) (t : Run C w₀ h w)
    (hcode : ∀ e ∈ h, FromSmartAccount C e) :
    ∀ a c ret, .account a (.called c ret) ∈ w.log → ∃ h₁ e h₂ tx r, h = h₁ ++ e :: h₂ ∧
      e.label = .call tx ∧ tx.call = .initializeSmartAccount r ∧
      e.pre.deployer.userSmartAccount tx.caller = some a ∧ Contact C w₀ h₁ tx.value r c := by
  have hstart : Sound w₀ ∧ ∀ a c ret, .account a (.called c ret) ∈ w₀.log →
      Ordered C w₀ [] a c := by
    refine ⟨hinit.sound, fun a c ret hmem => ?_⟩
    rw [hinit.blank.2.2] at hmem
    exact absurd hmem List.not_mem_nil
  refine (t.induct (P := FromSmartAccount C) (I := fun h w => Sound w ∧
    ∀ a c ret, .account a (.called c ret) ∈ w.log → Ordered C w₀ h a c) hstart ?_ hcode).2
  intro h w l w' t ih hc hs
  obtain ⟨hw, hcalls⟩ := ih
  refine ⟨hs.sound hw hc, fun a c ret hmem => ?_⟩
  have hold : .account a (.called c ret) ∈ w.log → Ordered C w₀ (h ++ [⟨w, l, w'⟩]) a c :=
    fun hmem => (hcalls a c ret hmem).later _
  cases hs with
  | @call _ tx hown hcommits =>
      obtain ⟨events, hlog, hnew⟩ :=
        ((effect_of_commits hcommits).ordinary hw hown hc).contacts hinit t hw
      rw [hlog] at hmem
      rcases List.mem_append.mp hmem with hmem | hmem
      · exact hold hmem
      · obtain ⟨r, hcall, hu, hcontact⟩ := hnew a c ret hmem
        exact ⟨h, _, [], tx, r, rfl, rfl, hcall, hu, hcontact⟩
  | failed _ _ => exact hold hmem
  | outside _ => exact hold hmem

/-- What the sample account stakes goes where the owner said. -/
theorem calls_confined_sample : ∃ h w, Run sampleChain sampleWorld h w ∧
    (∃ tokens ret, .account 0xACC (.called (.stakeFarm 0xF tokens) ret) ∈ w.log) ∧
    ∃ h₁ token, SetByOwner sampleChain sampleWorld h₁ token 0xF := by
  have hc : check (send sampleChain (fun e => decide (FromSmartAccount sampleChain e))
      [sampleCall sampleOwner 1 (.setFarmStakingAddressForToken [([77], 0xF)]),
        sampleCall sampleAdmin 1 (.setStrategiesPerEpoch 1 [(10000, .staking, 0xA, [77])]),
        sampleDeploy, sampleInitialize 1 1 10000]) sampleWorld
      (fun w => decide (.account 0xACC (.called (.stakeFarm 0xF [⟨[77], 0, 10000⟩])
        ⟨0, [⟨[70], 1, 1⟩, ⟨[82], 0, 0⟩], [⟨[70], 1, 1⟩, ⟨[82], 0, 0⟩]⟩) ∈ w.log)) = true := by
    decide +kernel
  obtain ⟨h, w, t, _, hall, hq⟩ := run_of_check hc
  have hmem := of_decide_eq_true hq
  obtain ⟨h₁, _, _, _, _, _, _, _, _, hcontact⟩ := calls_confined sampleWorld_initial t
    (fun e he => of_decide_eq_true (hall e he)) _ _ _ hmem
  refine ⟨h, w, t, ⟨_, _, hmem⟩, h₁, ?_⟩
  cases hcontact with
  | stake _ _ hset _ _ => exact ⟨_, hset⟩

end Deployer

end PortfolioPilot
