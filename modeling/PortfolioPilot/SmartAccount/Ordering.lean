/-
# `SmartAccount.Ordering` — the order of the steps does not matter

The steps of a strategy share one thing, the balances of the account, and each takes
from them an amount computed from the deposit alone.  When they call disjoint sets of
contracts, and contracts have no part in each other's state (`Separate`), a step does
from any state what it does from another in which its contracts are as they are there,
provided its part of the WEGLD is in reserve (`Processed.replay`).  `Twin` carries the
two executions side by side, call by call.

Two neighbours then change places (`commuting`), and `Commuting.runs_perm` does the
rest.  A step is run together with the position it hands over, so that the positions
are permuted with the steps.
-/
import PortfolioPilot.SmartAccount.Solvency

namespace PortfolioPilot

namespace SmartAccount

open Revert

/-! ## From what a step does to its run -/

section Converse

variable {σ : Type} {P : Peers σ} {s s' : State σ}

/-- The converse of `processed_of_commits`. -/
theorem commits_of_processed {A : Nat} {step : Strategy} (h : Processed P A step s s') :
    Commits (processPosition P A step) s () s' := by
  unfold processPosition
  cases h with
  | esdt ht hw hx hr =>
      rw [ht]
      simp only [processEsdtPosition, commits_bind, commits_getWegldTokenId, commits_callPairSwap,
        commits_saveUserPosition]
      exact ⟨_, _, ⟨hw, rfl⟩, _, _, ⟨_, hx, hr⟩, rfl⟩
  | staking ht hw hx₁ hr₁ hstaking hx₂ hr₂ =>
      obtain ⟨d, hd, ha⟩ := hstaking
      rw [ht]
      simp only [processStakingPosition, commits_bind, commits_getWegldTokenId,
        commits_callPairSwap, commits_getFarmStakingAddressMapper, commits_demand,
        commits_callFarmStakingStake, commits_saveUserPosition]
      exact ⟨_, _, ⟨hw, rfl⟩, _, _, ⟨_, hx₁, hr₁⟩, _, _, ⟨d, hd, rfl, rfl⟩, _, _, ⟨ha, rfl⟩,
        (_, _), _, ⟨_, hx₂, hr₂⟩, rfl⟩
  | @lp w lp s₂ ht hw hl =>
      have hadd : Commits (addedLiquidity P A step step.contractAddress) s lp s₂ :=
        commits_addedLiquidity.mpr ⟨w, hw, hl⟩
      rw [ht]
      show Commits (processLpPosition P A step) s () (s₂.save lp)
      rw [processLpPosition_eq, commits_bind]
      exact ⟨lp, s₂, hadd, commits_saveUserPosition.mpr rfl⟩
  | @farm w pair lp newFarm rewards r s₂ s₃ ht hw hpair hl hx hr =>
      have hadd : Commits (addedLiquidity P A step pair) s lp s₂ :=
        commits_addedLiquidity.mpr ⟨w, hw, hl⟩
      rw [ht]
      show (processFarmPosition P A step).run s = .ok ((), s₃.save newFarm)
      rw [processFarmPosition_run hpair]
      refine commits_bind.mpr ⟨lp, s₂, hadd, commits_bind.mpr ⟨⟨newFarm, rewards⟩, s₃, ?_, ?_⟩⟩
      · exact commits_callEnterFarm.mpr ⟨r, hx, hr⟩
      · exact commits_saveUserPosition.mpr rfl

theorem commits_of_processedAll {A : Nat} {steps : List Strategy}
    (h : ProcessedAll P A steps s s') : Commits (forM steps (processPosition P A)) s () s' := by
  induction h with
  | nil => exact commits_forM_nil.mpr rfl
  | cons hstep _ ih => exact commits_forM_cons.mpr ⟨_, commits_of_processed hstep, ih⟩

/-- The converse of `setUp_of_commits`. -/
theorem commits_of_setUp {caller : Address} {A : Nat} {r : UInt64} {L : List Strategy}
    (h : SetUp P caller A r L s s') : Commits (setupSmartAccount P caller A r L) s () s' := by
  cases h with
  | mk hc hd ha hx hret hw hL hr hall =>
      simp only [setupSmartAccount, receiveEgld, onlyOwner, commits_bind, commits_get,
        commits_modify, commits_require, commits_callWrapEgld, commits_getWegldTokenId]
      exact ⟨⟨⟩, _, rfl, ⟨⟩, _, ⟨_, _, ⟨rfl, rfl⟩, hc, rfl⟩, _, _, ⟨_, _, _, hd, ha, hx, hret⟩,
        _, _, ⟨hw, rfl⟩, ⟨⟩, _, ⟨rfl, rfl⟩, ⟨⟩, _, ⟨hL, rfl⟩, ⟨⟩, _, ⟨hr, rfl⟩, ⟨⟩, _, rfl,
        commits_of_processedAll hall⟩

end Converse

/-! ## Contracts with a state each -/

/-- The contracts that a step in `s` calls. -/
inductive Uses {σ : Type} (P : Peers σ) (s : State σ) (step : Strategy) : Address → Prop
  | contract : Uses P s step step.contractAddress
  | staking {a : Address} : step.positionType = .staking →
      StakingAt P s step.outputTokenId a → Uses P s step a
  | pair {a : Address} : step.positionType = .farm →
      P.pairContractAddress s.outside step.contractAddress = some a → Uses P s step a

/-- Third parties that are contracts of their own: each has a state of type `τ` at its
address. -/
structure Separate {τ : Type} (P : Peers (Address → τ)) : Prop where
  honest : Honest P
  trades : ∀ pair, Trades P pair
  /-- A call changes the state of the contract it calls, -/
  others : ∀ {o o' : Address → τ} {a : Address} {c : ContractCall} {r : Returned},
    P.call o a c = some (o', r) → ∀ b, b ≠ c.dest → o' b = o b
  /-- and depends on no other. -/
  depends : ∀ {o₁ o₂ o₁' : Address → τ} {a : Address} {c : ContractCall} {r : Returned},
    o₂ c.dest = o₁ c.dest → P.call o₁ a c = some (o₁', r) →
      ∃ o₂', P.call o₂ a c = some (o₂', r) ∧ o₂' c.dest = o₁' c.dest
  /-- The tokens of a pair are in its own state. -/
  tokens : ∀ {o₁ o₂ : Address → τ} {pair : Address}, o₂ pair = o₁ pair →
    P.firstTokenId o₂ pair = P.firstTokenId o₁ pair ∧
    P.secondTokenId o₂ pair = P.secondTokenId o₁ pair
  /-- No call changes the staking addresses of the deployer, -/
  stakings : ∀ {o o' : Address → τ} {a : Address} {c : ContractCall} {r : Returned},
    P.call o a c = some (o', r) →
      ∀ d t, P.farmStakingAddressForToken o' d t = P.farmStakingAddressForToken o d t
  /-- none the pair of a farm other than the contract it calls, -/
  pairs : ∀ {o o' : Address → τ} {a : Address} {c : ContractCall} {r : Returned},
    P.call o a c = some (o', r) →
      ∀ farm, farm ≠ c.dest → P.pairContractAddress o' farm = P.pairContractAddress o farm
  /-- and wrapping that of no farm. -/
  wrapping : ∀ {o o' : Address → τ} {a wrapper : Address} {n : Nat} {r : Returned},
    P.call o a (.wrapEgld wrapper n) = some (o', r) →
      ∀ farm, P.pairContractAddress o' farm = P.pairContractAddress o farm

/-! ## What no call changes -/

/-- The account finds the same WEGLD and the same staking addresses in `s` and in `t`. -/
structure Alike {σ : Type} (P : Peers σ) (s t : State σ) : Prop where
  deployer : t.storage.smartAccountDeployerAddress = s.storage.smartAccountDeployerAddress
  wrapper : ∀ d, P.egldWrapperAddress t.outside d = P.egldWrapperAddress s.outside d
  wegld : ∀ a, P.wrappedEgldTokenId t.outside a = P.wrappedEgldTokenId s.outside a
  staking : ∀ d token, P.farmStakingAddressForToken t.outside d token =
    P.farmStakingAddressForToken s.outside d token

/-- The contract of the step, if it is a farm, names the same pair in `s` and in `t`. -/
def SamePair {σ : Type} (P : Peers σ) (step : Strategy) (s t : State σ) : Prop :=
  P.pairContractAddress t.outside step.contractAddress =
    P.pairContractAddress s.outside step.contractAddress

section Alike

variable {σ : Type} {P : Peers σ} {s t u : State σ} {step : Strategy}

theorem Alike.symm (h : Alike P s t) : Alike P t s where
  deployer := h.deployer.symm
  wrapper d := (h.wrapper d).symm
  wegld a := (h.wegld a).symm
  staking d token := (h.staking d token).symm

theorem Alike.trans (h₁ : Alike P s t) (h₂ : Alike P t u) : Alike P s u where
  deployer := h₂.deployer.trans h₁.deployer
  wrapper d := (h₂.wrapper d).trans (h₁.wrapper d)
  wegld a := (h₂.wegld a).trans (h₁.wegld a)
  staking d token := (h₂.staking d token).trans (h₁.staking d token)

theorem Alike.wegldAt (h : Alike P s t) {w : TokenIdentifier} (hw : WegldAt P s w) :
    WegldAt P t w := by
  obtain ⟨d, a, hd, ha, rfl⟩ := hw
  exact ⟨d, a, h.deployer.trans hd, (h.wrapper d).trans ha, (h.wegld a).symm⟩

theorem Alike.stakingAt (h : Alike P s t) {token : TokenIdentifier} {a : Address}
    (ha : StakingAt P s token a) : StakingAt P t token a := by
  obtain ⟨d, hd, ha⟩ := ha
  exact ⟨d, h.deployer.trans hd, (h.staking d token).trans ha⟩

theorem Alike.uses (h : Alike P s t) (hpair : SamePair P step s t) {a : Address}
    (ha : Uses P s step a) : Uses P t step a := by
  cases ha with
  | contract => exact .contract
  | staking ht ha => exact .staking ht (h.stakingAt ha)
  | pair ht ha => exact .pair ht (hpair.trans ha)

end Alike

variable {τ : Type} {P : Peers (Address → τ)} {s s' t s₀ t₀ : State (Address → τ)}

theorem Executes.alike (hP : Separate P) {c : ContractCall} {r : Returned}
    (h : Executes P c s r s') : Alike P s s' := by
  obtain ⟨hwrapper, hwegld⟩ := hP.honest.fixed _ _ _ _ _ h.answer
  refine ⟨?_, hwrapper, hwegld, hP.stakings h.answer⟩
  rw [h.frame.2.2.1]

theorem alike_save (s : State (Address → τ)) (p : EsdtTokenPayment) : Alike P s (s.save p) :=
  ⟨rfl, fun _ => rfl, fun _ => rfl, fun _ _ => rfl⟩

theorem Processed.alike (hP : Separate P) {A : Nat} {step : Strategy}
    (h : Processed P A step s s') : Alike P s s' :=
  h.related .trans (fun _ hx => hx.alike hP) alike_save

/-! ## Two executions side by side -/

/-- The same calls, of contracts of `U`, have led from `s₀` to `s` and from `t₀` to `t`. -/
structure Twin (P : Peers (Address → τ)) (U : Address → Prop) (s₀ t₀ s t : State (Address → τ)) :
    Prop where
  self : t.self = s.self
  alike : Alike P s t
  used : ∀ a, U a → t.outside a = s.outside a
  others : ∀ a, ¬ U a → s.outside a = s₀.outside a ∧ t.outside a = t₀.outside a
  pairs : ∀ a, ¬ U a → P.pairContractAddress s.outside a = P.pairContractAddress s₀.outside a ∧
    P.pairContractAddress t.outside a = P.pairContractAddress t₀.outside a
  egld : t.egld + s₀.egld = s.egld + t₀.egld
  esdt : ∀ k, t.esdt k + s₀.esdt k = s.esdt k + t₀.esdt k
  log : ∃ events, s.log = s₀.log ++ events ∧ t.log = t₀.log ++ events

theorem Twin.start {U : Address → Prop} (hself : t.self = s.self) (halike : Alike P s t)
    (hused : ∀ a, U a → t.outside a = s.outside a) : Twin P U s t s t where
  self := hself
  alike := halike
  used := hused
  others _ _ := ⟨rfl, rfl⟩
  pairs _ _ := ⟨rfl, rfl⟩
  egld := Nat.add_comm _ _
  esdt _ := Nat.add_comm _ _
  log := ⟨[], (List.append_nil _).symm, (List.append_nil _).symm⟩

/-- A call that the one makes the other makes too, when it is funded. -/
theorem Twin.execute (hP : Separate P) {U : Address → Prop} (h : Twin P U s₀ t₀ s t)
    {c : ContractCall} {r : Returned} (hx : Executes P c s r s') (hU : U c.dest)
    (hf : Funded t c) : ∃ t', Executes P c t r t' ∧ Twin P U s₀ t₀ s' t' := by
  obtain ⟨o, hcall, hdest⟩ := hP.depends (h.used _ hU) hx.answer
  rw [← h.self] at hcall
  obtain ⟨esdt, hd⟩ : ∃ esdt, t.esdt.debitAll (c.payments.map EsdtTokenPayment.booked) =
      some esdt := by
    refine Option.ne_none_iff_exists'.mp fun hnone => ?_
    exact Ledger.debitAll_eq_none.mp hnone hf.2
  have hx' : Executes P c t r (t.after c esdt o r) :=
    commits_execute.mpr ⟨hf.1, esdt, o, hd, hcall, rfl⟩
  have hother : ∀ a, ¬ U a → a ≠ c.dest := by
    intro a ha hac
    rw [hac] at ha
    exact ha hU
  refine ⟨_, hx', ?_⟩
  constructor
  · rw [hx'.frame.1, hx.frame.1, h.self]
  · exact ((hx.alike hP).symm.trans h.alike).trans (hx'.alike hP)
  · intro a ha
    by_cases hac : a = c.dest
    · rw [hac]
      exact hdest
    · rw [hP.others hx.answer a hac, hP.others hx'.answer a hac, h.used a ha]
  · intro a ha
    rw [hP.others hx.answer a (hother a ha), hP.others hx'.answer a (hother a ha)]
    exact h.others a ha
  · intro a ha
    rw [hP.pairs hx.answer a (hother a ha), hP.pairs hx'.answer a (hother a ha)]
    exact h.pairs a ha
  · have hegld := hx.egld_add
    have hegld' := hx'.egld_add
    have hstart := h.egld
    omega
  · intro k
    have hbal := hx.balance k
    have hbal' := hx'.balance k
    have hstart := h.esdt k
    omega
  · obtain ⟨events, hlog, hlog'⟩ := h.log
    refine ⟨events ++ [.called c r], ?_, ?_⟩
    · rw [hx.frame.2.2.2, hlog, List.append_assoc]
    · rw [hx'.frame.2.2.2, hlog', List.append_assoc]

theorem Twin.save {U : Address → Prop} (h : Twin P U s₀ t₀ s t) (p : EsdtTokenPayment) :
    Twin P U s₀ t₀ (s.save p) (t.save p) := by
  obtain ⟨events, hlog, hlog'⟩ := h.log
  refine ⟨h.self, ((alike_save s p).symm.trans h.alike).trans (alike_save t p), h.used, h.others,
    h.pairs, h.egld, h.esdt, events ++ [.saved p], ?_, ?_⟩
  · show s.log ++ _ = _
    rw [hlog, List.append_assoc]
  · show t.log ++ _ = _
    rw [hlog', List.append_assoc]

/-- They open the same positions. -/
theorem Twin.opens {U : Address → Prop} (h : Twin P U s₀ t₀ s t) {ps qs : List EsdtTokenPayment}
    (hs : Opens s₀ s ps) (ht : Opens t₀ t qs) : qs = ps := by
  obtain ⟨events, hlog, hlog'⟩ := h.log
  obtain ⟨l, hl, rfl⟩ := hs.log
  obtain ⟨l', hl', rfl⟩ := ht.log
  rw [List.append_cancel_left (hl.symm.trans hlog), List.append_cancel_left (hl'.symm.trans hlog')]

/-! ## A step, run from another state -/

section Replay

variable {A : Nat} {step : Strategy} {w : TokenIdentifier}

theorem Reaches.funded {σ : Type} {P : Peers σ} {s t : State σ} (hP : Honest P)
    (hT : ∀ pair, Trades P pair) {c : ContractCall} (h : Reaches P A step s c t)
    (hw : WegldAt P s w) (hres : spent A step ≤ s.esdt (w, 0)) : Funded t c := by
  refine ⟨?_, fun k => h.covered hP hw hres (Or.inr hT)⟩
  rw [h.egld]
  exact Nat.zero_le _

theorem Liquidity.replay (hP : Separate P) {U : Address → Prop} {pair : Address}
    {lp : EsdtTokenPayment}
    (h : Liquidity P w (investment A step / 2) pair step.outputTokenId s lp s')
    (hU : U pair) (htwin : Twin P U s t s t) (hpool : PoolAt P t step pair) (hw : WegldAt P t w)
    (hres : spent A step ≤ t.esdt (w, 0)) :
    ∃ t', Liquidity P w (investment A step / 2) pair step.outputTokenId t lp t' ∧
      Twin P U s t s' t' := by
  cases h with
  | @mk s₁ r₁ r₂ out used₁ used₂ hx₁ hr₁ hx₂ hr₂ h₁ h₂ =>
      obtain ⟨t₁, hx₁', htwin₁⟩ := htwin.execute hP hx₁ hU
        ((Reaches.swapHalf hpool hw).funded hP.honest hP.trades hw hres)
      -- the pair has the same two tokens in both
      obtain ⟨hfirst, hsecond⟩ := hP.tokens (htwin₁.used pair hU)
      have hsides : sides P t₁.outside pair w (investment A step / 2) out =
          sides P s₁.outside pair w (investment A step / 2) out := by
        unfold sides
        rw [hfirst, hsecond]
      rw [← hsides] at hx₂ h₁ h₂
      obtain ⟨t₂, hx₂', htwin₂⟩ := htwin₁.execute hP hx₂ hU
        ((Reaches.addLiquidity hpool hw hx₁' hr₁).funded hP.honest hP.trades hw hres)
      exact ⟨t₂, .mk hx₁' hr₁ hx₂' hr₂ h₁ h₂, htwin₂⟩

/-- **A step does the same from any state in which its contracts are as they were**, and
its part of the WEGLD is in reserve. -/
theorem Processed.replay (hP : Separate P) (h : Processed P A step s s')
    (hself : t.self = s.self) (halike : Alike P s t) (hsame : SamePair P step s t)
    (hused : ∀ a, Uses P s step a → t.outside a = s.outside a) (hw : WegldAt P t w)
    (hres : spent A step ≤ t.esdt (w, 0)) :
    ∃ t', Processed P A step t t' ∧ Twin P (Uses P s step) s t s' t' := by
  have htwin : Twin P (Uses P s step) s t s t := .start hself halike hused
  cases h with
  | @esdt w' r out s₁ ht hw' hx hr =>
      cases (halike.wegldAt hw').unique hw
      obtain ⟨t₁, hx', htwin₁⟩ := htwin.execute hP hx .contract
        ((Reaches.swap (Or.inl ht) hw).funded hP.honest hP.trades hw hres)
      exact ⟨_, .esdt ht hw hx' hr, htwin₁.save out⟩
  | @staking w' r₁ r₂ out newFarm _ farmStaking s₁ s₂ ht hw' hx₁ hr₁ hstaking hx₂ hr₂ =>
      cases (halike.wegldAt hw').unique hw
      obtain ⟨t₁, hx₁', htwin₁⟩ := htwin.execute hP hx₁ .contract
        ((Reaches.swap (Or.inr ht) hw).funded hP.honest hP.trades hw hres)
      have hstaking' := htwin₁.alike.stakingAt hstaking
      obtain ⟨t₂, hx₂', htwin₂⟩ := htwin₁.execute hP hx₂
        (.staking ht ((hx₁.alike hP).symm.stakingAt hstaking))
        ((Reaches.stake ht hw hx₁' hr₁ hstaking').funded hP.honest hP.trades hw hres)
      exact ⟨_, .staking ht hw hx₁' hr₁ hstaking' hx₂' hr₂, htwin₂.save newFarm⟩
  | @lp w' lp s₂ ht hw' hl =>
      cases (halike.wegldAt hw').unique hw
      obtain ⟨t₂, hl', htwin₂⟩ := hl.replay hP .contract htwin (.lp ht rfl) hw hres
      exact ⟨_, .lp ht hw hl', htwin₂.save lp⟩
  | @farm w' pair lp newFarm _ r s₂ s₃ ht hw' hpair hl hx hr =>
      cases (halike.wegldAt hw').unique hw
      have hpair' : P.pairContractAddress t.outside step.contractAddress = some pair :=
        hsame.trans hpair
      obtain ⟨t₂, hl', htwin₂⟩ := hl.replay hP (.pair ht hpair) htwin (.farm ht hpair') hw hres
      obtain ⟨t₃, hx', htwin₃⟩ := htwin₂.execute hP hx .contract
        ((Reaches.enterFarm ht (.farm ht hpair') hw hl').funded hP.honest hP.trades hw hres)
      exact ⟨_, .farm ht hw hpair' hl' hx' hr, htwin₃.save newFarm⟩

end Replay

/-! ## Neighbours change places -/

/-- The same account with the same balances before the same contracts.  The log may differ,
and so may the stored strategy, which no step reads. -/
structure Same (s t : State (Address → τ)) : Prop where
  self : t.self = s.self
  deployer : t.storage.smartAccountDeployerAddress = s.storage.smartAccountDeployerAddress
  egld : t.egld = s.egld
  esdt : t.esdt = s.esdt
  outside : t.outside = s.outside

theorem Same.alike (h : Same s t) : Alike P s t := by
  refine ⟨h.deployer, fun d => ?_, fun a => ?_, fun d token => ?_⟩
  · rw [h.outside]
  · rw [h.outside]
  · rw [h.outside]

theorem Same.pair (h : Same s t) (step : Strategy) : SamePair P step s t := by
  unfold SamePair
  rw [h.outside]

/-- The steps `xs` call disjoint sets of contracts, and what they take is in reserve. -/
structure Ready (P : Peers (Address → τ)) (A : Nat) (w : TokenIdentifier)
    (xs : List (Strategy × EsdtTokenPayment)) (s : State (Address → τ)) : Prop where
  wegld : WegldAt P s w
  reserve : spentAll A (xs.map Prod.fst) ≤ s.esdt (w, 0)
  disjoint : xs.Pairwise fun x y => ∀ a, Uses P s x.1 a → ¬ Uses P s y.1 a

section Neighbours

variable {A : Nat} {w : TokenIdentifier} {x y : Strategy × EsdtTokenPayment}
  {xs ys : List (Strategy × EsdtTokenPayment)}

theorem Ready.perm (hp : xs.Perm ys) (h : Ready P A w xs s) : Ready P A w ys s where
  wegld := h.wegld
  reserve := by
    have hsum : spentAll A (ys.map Prod.fst) = spentAll A (xs.map Prod.fst) :=
      (((hp.map Prod.fst).map (spent A)).sum_eq).symm
    rw [hsum]
    exact h.reserve
  disjoint := hp.pairwise h.disjoint fun hxy a hy hx => hxy a hx hy

theorem Ready.of_alike {s t : State (Address → τ)} (h : Ready P A w xs s) (halike : Alike P s t)
    (hpairs : ∀ y ∈ ys, SamePair P y.1 s t)
    (hres : spentAll A (ys.map Prod.fst) ≤ t.esdt (w, 0)) (hsub : ys.Sublist xs) :
    Ready P A w ys t where
  wegld := halike.wegldAt h.wegld
  reserve := hres
  disjoint := (h.disjoint.sublist hsub).imp_of_mem fun hx hy hxy a ha hb =>
    hxy a (halike.symm.uses (hpairs _ hx).symm ha) (halike.symm.uses (hpairs _ hy).symm hb)

/-- A step is replayed, with its position, wherever its contracts are as they were. -/
theorem Takes.replay (hP : Separate P) (h : Takes P A x s s') (hself : t.self = s.self)
    (halike : Alike P s t) (hsame : SamePair P x.1 s t)
    (hused : ∀ a, Uses P s x.1 a → t.outside a = s.outside a)
    (hw : WegldAt P t w) (hres : spent A x.1 ≤ t.esdt (w, 0)) :
    ∃ t', Takes P A x t t' ∧ Twin P (Uses P s x.1) s t s' t' := by
  obtain ⟨t', hstep, htwin⟩ := h.1.replay hP hself halike hsame hused hw hres
  obtain ⟨p, hopens⟩ := hstep.opens
  have hp : [p] = [x.2] := htwin.opens h.2 hopens
  rw [hp] at hopens
  exact ⟨t', ⟨hstep, hopens⟩, htwin⟩

/-- A step leaves the contracts alone that it does not use: its run is its own twin. -/
theorem Takes.others (hP : Separate P) (hready : Ready P A w (x :: xs) s) (h : Takes P A x s s')
    {a : Address} (ha : ¬ Uses P s x.1 a) : s'.outside a = s.outside a ∧
      P.pairContractAddress s'.outside a = P.pairContractAddress s.outside a := by
  have hres := hready.reserve
  rw [List.map_cons, spentAll_cons] at hres
  obtain ⟨_, _, htwin⟩ := h.replay hP rfl ⟨rfl, fun _ => rfl, fun _ => rfl, fun _ _ => rfl⟩ rfl
    (fun _ _ => rfl) hready.wegld (by omega)
  exact ⟨(htwin.others a ha).1, (htwin.pairs a ha).1⟩

/-- So the steps to come find the same pairs. -/
theorem Takes.samePair (hP : Separate P) (hready : Ready P A w (x :: xs) s)
    (h : Takes P A x s s') (hy : y ∈ xs) : SamePair P y.1 s s' := by
  refine (h.others hP hready fun ha => ?_).2
  exact (List.pairwise_cons.mp hready.disjoint).1 y hy _ ha .contract

theorem Ready.step (hP : Separate P) (h : Ready P A w (x :: xs) s) (hx : Takes P A x s s') :
    Ready P A w xs s' := by
  have hleft := hx.1.reserve hP.honest h.wegld
  have hres := h.reserve
  rw [List.map_cons, spentAll_cons] at hres
  exact h.of_alike (hx.1.alike hP) (fun y hy => hx.samePair hP h hy) (by omega)
    (List.sublist_cons_self x xs)

/-- A step cannot tell states that are the same apart. -/
theorem Takes.follow (hP : Separate P) (hready : Ready P A w (x :: xs) s)
    (h : Takes P A x s s') (hsame : Same s t) : ∃ t', Takes P A x t t' ∧ Same s' t' := by
  have hres := hready.reserve
  rw [List.map_cons, spentAll_cons] at hres
  have halike : Alike P s t := hsame.alike
  obtain ⟨t', hstep, htwin⟩ := h.replay hP hsame.self halike (hsame.pair x.1)
    (fun a _ => congrFun hsame.outside a) (halike.wegldAt hready.wegld)
    (by rw [hsame.esdt]; omega)
  refine ⟨t', hstep, htwin.self, htwin.alike.deployer, ?_, ?_, ?_⟩
  · have hegld := htwin.egld
    rw [hsame.egld] at hegld
    omega
  · funext k
    have hesdt := htwin.esdt k
    rw [hsame.esdt] at hesdt
    omega
  · funext a
    by_cases ha : Uses P s x.1 a
    · exact htwin.used a ha
    · obtain ⟨hs, ht⟩ := htwin.others a ha
      rw [hs, ht, hsame.outside]

/-- **Neighbours change places.** -/
theorem Takes.swap (hP : Separate P) (hready : Ready P A w (x :: y :: xs) s)
    {m : State (Address → τ)} (hx : Takes P A x s m) (hy : Takes P A y m s') :
    ∃ m' s'', Takes P A y s m' ∧ Takes P A x m' s'' ∧ Same s' s'' := by
  have hres := hready.reserve
  rw [List.map_cons, List.map_cons, spentAll_cons, spentAll_cons] at hres
  have hxm := hx.1.alike hP
  have hpair : SamePair P y.1 s m := hx.samePair hP hready List.mem_cons_self
  have hdisjoint : ∀ a, Uses P s x.1 a → ¬ Uses P m y.1 a := fun a ha ha' =>
    (List.pairwise_cons.mp hready.disjoint).1 y List.mem_cons_self a ha
      (hxm.symm.uses hpair.symm ha')
  -- the run of `x` leaves the contracts of `y` alone
  have hleft : ∀ a, ¬ Uses P s x.1 a → m.outside a = s.outside a := fun a ha =>
    (hx.others hP hready ha).1
  obtain ⟨m', hy', htwin₁⟩ := hy.replay hP (t := s) hx.2.self.symm hxm.symm hpair.symm
    (fun a ha => (hleft a fun ha' => hdisjoint a ha' ha).symm) hready.wegld (by omega)
  -- and `y` those of `x`
  have hwm' := hy'.1.wegldAt hP.honest.fixed hready.wegld
  have hreserve := hy'.1.reserve hP.honest hready.wegld
  have hpair' : SamePair P x.1 s m' := (htwin₁.pairs _ (hdisjoint _ .contract)).2
  obtain ⟨s'', hx', htwin₂⟩ := hx.replay hP (t := m') hy'.2.self (hy'.1.alike hP) hpair'
    (fun a ha => (htwin₁.others a (hdisjoint a ha)).2) hwm' (by omega)
  refine ⟨m', s'', hy', hx', ?_, ?_, ?_, ?_, ?_⟩
  · rw [hx'.2.self, hy'.2.self, hy.2.self, hx.2.self]
  · rw [hx'.2.storage, hy'.2.storage, hy.2.storage, hx.2.storage]
  · have h₁ := htwin₁.egld
    have h₂ := htwin₂.egld
    omega
  · funext k
    have h₁ := htwin₁.esdt k
    have h₂ := htwin₂.esdt k
    omega
  · funext a
    by_cases ha : Uses P s x.1 a
    · rw [htwin₂.used a ha, (htwin₁.others a (hdisjoint a ha)).1]
    · rw [(htwin₂.others a ha).2]
      by_cases ha' : Uses P m y.1 a
      · exact htwin₁.used a ha'
      · obtain ⟨hs', hm'⟩ := htwin₁.others a ha'
        rw [hs', hm', hleft a ha]

/-- The steps of an allocation commute. -/
theorem commuting (hP : Separate P) (A : Nat) (w : TokenIdentifier) :
    Commuting (Takes P A) Same (Ready P A w) where
  refl _ := ⟨rfl, rfl, rfl, rfl, rfl⟩
  trans h₁ h₂ := ⟨h₂.self.trans h₁.self, h₂.deployer.trans h₁.deployer, h₂.egld.trans h₁.egld,
    h₂.esdt.trans h₁.esdt, h₂.outside.trans h₁.outside⟩
  perm hp h := h.perm hp
  step h hx := h.step hP hx
  same h hsame := h.of_alike hsame.alike (fun y _ => hsame.pair y.1)
    (by rw [hsame.esdt]; exact h.reserve) (List.Sublist.refl _)
  follow hready h hsame := h.follow hP hready hsame
  swap hready hx hy := hx.swap hP hready hy

end Neighbours

/-! ## The whole call, in another order -/

section Orders

variable {A : Nat} {r : UInt64} {L L' : List Strategy} {caller : Address}
  {xs : List (Strategy × EsdtTokenPayment)}

/-- The positions of a call are those of its loop. -/
theorem positions_newEvents {wrapper : Address} {ret : Returned} {s₁ : State (Address → τ)}
    {ps : List EsdtTokenPayment} (hx : Executes P (.wrapEgld wrapper A) (s.receive A) ret s₁)
    (ho : Opens (s₁.storeStrategy r L) s' ps) : positions (newEvents s s') = ps := by
  obtain ⟨events, hlog, hpos⟩ := ho.log
  have hnew : newEvents s s' = .called (.wrapEgld wrapper A) ret :: events := by
    rw [newEvents, hlog]
    show (s₁.log ++ events).drop s.log.length = _
    rw [hx.frame.2.2.2, List.append_assoc]
    exact List.drop_left
  rw [hnew, positions_called, hpos]

/-- What two calls of a strategy, in two orders, agree on.  Either hands over one position
for each of its steps. -/
structure SameOutcome (s : State (Address → τ)) (L L' : List Strategy)
    (s' s'' : State (Address → τ)) : Prop where
  esdt : s''.esdt = s'.esdt
  egld : s''.egld = s'.egld
  outside : s''.outside = s'.outside
  length : (positions (newEvents s s')).length = L.length
  length' : (positions (newEvents s s'')).length = L'.length
  positions : (L'.zip (positions (newEvents s s''))).Perm (L.zip (positions (newEvents s s')))

/-- A call that goes through in one order goes through in every order. -/
theorem SetUp.perm (hP : Separate P) (hperm : L.Perm L')
    (hsum : (L.map fun step => step.percentage.toNat).sum = maxPercentage.toNat)
    (hdisj : L.Pairwise fun x y => ∀ a, Uses P s x a → ¬ Uses P s y a)
    (h : SetUp P caller A r L s s') :
    ∃ s'', SetUp P caller A r L' s s'' ∧ SameOutcome s L L' s' s'' := by
  cases h with
  | @mk d wrapper ret wrapped s₁ hc hd ha hx hret hw₁ hL hr hall =>
      have hwrap : Commits (callWrapEgld P A) (s.receive A) wrapped s₁ :=
        commits_callWrapEgld.mpr ⟨d, wrapper, ret, hd, ha, hx, hret⟩
      obtain ⟨hwegld, hreserve⟩ := reserve_of_wrap hP.honest hwrap hw₁ ⟨d, wrapper, hd, ha, rfl⟩
      obtain ⟨xs, rfl, hruns⟩ := runs_of_processedAll hall
      have hfixed := hx.alike hP
      have halike : Alike P s (s₁.storeStrategy r (xs.map Prod.fst)) :=
        ⟨hfixed.deployer, hfixed.wrapper, hfixed.wegld, hfixed.staking⟩
      have hpair : ∀ step, SamePair P step s (s₁.storeStrategy r (xs.map Prod.fst)) :=
        fun step => hP.wrapping hx.answer step.contractAddress
      have hready : Ready P A (P.wrappedEgldTokenId s.outside wrapper) xs
          (s₁.storeStrategy r (xs.map Prod.fst)) := by
        refine ⟨hwegld, (spentAll_whole A hsum).1.trans hreserve, ?_⟩
        refine (List.pairwise_map.mp hdisj).imp fun hxy a hx hy => ?_
        exact hxy a (halike.symm.uses (hpair _).symm hx) (halike.symm.uses (hpair _).symm hy)
      obtain ⟨ys, hys, rfl⟩ := exists_perm_of_map hperm
      have hcommuting := commuting hP A (P.wrappedEgldTokenId s.outside wrapper)
      obtain ⟨u, hruns', hsame⟩ := hcommuting.runs_perm hys hready hruns
      -- the other call stores the strategy in the other order
      have hstored : Same (s₁.storeStrategy r (xs.map Prod.fst))
          (s₁.storeStrategy r (ys.map Prod.fst)) := ⟨rfl, rfl, rfl, rfl, rfl⟩
      obtain ⟨s'', hruns'', hsame'⟩ := hcommuting.runs_follow hruns' (hready.perm hys) hstored
      have hend : Same s' s'' := hcommuting.trans hsame hsame'
      obtain ⟨hall', hopens'⟩ := processedAll_of_runs hruns''
      have hL' : ys.map Prod.fst ≠ [] := by
        intro hnil
        rw [hnil] at hperm
        exact hL hperm.eq_nil
      have hzip : ∀ zs : List (Strategy × EsdtTokenPayment),
          (zs.map Prod.fst).zip (zs.map Prod.snd) = zs := fun zs => (List.zip_of_prod rfl rfl).symm
      have hlength : ∀ zs : List (Strategy × EsdtTokenPayment),
          (zs.map Prod.snd).length = (zs.map Prod.fst).length := fun zs => by
        rw [List.length_map, List.length_map]
      have hpos := positions_newEvents hx (processedAll_of_runs hruns).2
      have hpos' := positions_newEvents hx hopens'
      refine ⟨s'', .mk hc hd ha hx hret hw₁ hL' hr hall', hend.esdt, hend.egld, hend.outside,
        ?_, ?_, ?_⟩
      · rw [hpos]
        exact hlength xs
      · rw [hpos']
        exact hlength ys
      · rw [hpos, hpos', hzip, hzip]
        exact hys.symm

/-- **The order of a strategy does not matter.**  For percentages that make up the whole and
steps that call disjoint sets of contracts, `setupSmartAccount` of a deposit goes through
for a strategy if and only if it does for any permutation of it, and then leaves the same
balances and the same contracts, and each step the same position, one for each. -/
theorem order_irrelevant (hP : Separate P) (caller : Address) (A : Nat) (r : UInt64)
    (hperm : L.Perm L')
    (hsum : (L.map fun step => step.percentage.toNat).sum = maxPercentage.toNat)
    (hdisj : L.Pairwise fun x y => ∀ a, Uses P s x a → ¬ Uses P s y a) :
    ((∃ s', Commits (setupSmartAccount P caller A r L) s () s') ↔
      ∃ s'', Commits (setupSmartAccount P caller A r L') s () s'') ∧
    ∀ s' s'', Commits (setupSmartAccount P caller A r L) s () s' →
      Commits (setupSmartAccount P caller A r L') s () s'' → SameOutcome s L L' s' s'' := by
  have hsum' : (L'.map fun step => step.percentage.toNat).sum = maxPercentage.toNat := by
    rw [← hsum]
    exact ((hperm.map _).sum_eq).symm
  have hdisj' : L'.Pairwise fun x y => ∀ a, Uses P s x a → ¬ Uses P s y a :=
    hperm.pairwise hdisj fun hxy a hy hx => hxy a hx hy
  constructor
  · constructor
    · intro h
      obtain ⟨s', h⟩ := h
      obtain ⟨s'', h', _⟩ := (setUp_of_commits h).perm hP hperm hsum hdisj
      exact ⟨s'', commits_of_setUp h'⟩
    · intro h
      obtain ⟨s'', h⟩ := h
      obtain ⟨s', h', _⟩ := (setUp_of_commits h).perm hP hperm.symm hsum' hdisj'
      exact ⟨s', commits_of_setUp h'⟩
  · intro s' s'' h h''
    obtain ⟨u, hu, hsame⟩ := (setUp_of_commits h).perm hP hperm hsum hdisj
    -- a call has one outcome
    have hone := (commits_of_setUp hu).symm.trans h''
    cases hone
    exact hsame

end Orders

/-! ## Two orders -/

/-- Contracts whose state is the number of calls they have had, and is added to what a pair or
a farm gives out.  Otherwise they are the sample ones. -/
def countingPeers : Peers (Address → Nat) :=
  { tradingPeers (Address → Nat) with
    call := fun o _ c =>
      let n := o c.dest
      let o' := Function.update o c.dest (n + 1)
      match c with
      | .wrapEgld _ amount => some (o', ⟨0, [⟨[87], 0, amount⟩], []⟩)
      | .swapTokensFixedInput _ input tokenOut _ =>
          if (input.tokenIdentifier = [87] ∧ tokenOut = [77]) ∨
              (input.tokenIdentifier = [77] ∧ tokenOut = [87]) then
            some (o', ⟨0, [⟨tokenOut, 0, input.amount + n⟩], [⟨tokenOut, 0, input.amount + n⟩]⟩)
          else none
      | .addLiquidity _ first second _ _ =>
          some (o', ⟨0, [⟨[76], 0, first.amount + n⟩], [⟨[76], 0, first.amount + n⟩, first, second]⟩)
      | .stakeFarm _ _ | .enterFarm _ _ =>
          some (o', ⟨0, [⟨[70], 1, n + 1⟩], [⟨[70], 1, n + 1⟩, ⟨[82], 0, 0⟩]⟩) }

/-- A swap of the counting pairs that went through. -/
theorem countingPeers_swap {o o' : Address → Nat} {a pair : Address} {input : EsdtTokenPayment}
    {t : TokenIdentifier} {m : Nat} {r : Returned}
    (h : countingPeers.call o a (.swapTokensFixedInput pair input t m) = some (o', r)) :
    ((input.tokenIdentifier = [87] ∧ t = [77]) ∨ (input.tokenIdentifier = [77] ∧ t = [87])) ∧
      r.result = [⟨t, 0, input.amount + o pair⟩] ∧ r.transfers = r.result := by
  obtain ⟨hc, h⟩ := Option.ite_none_right_eq_some.mp h
  cases h
  exact ⟨hc, rfl, rfl⟩

/-- What a call does depends on the state of the contract called, and is counted there. -/
theorem countingPeers_call {o o' : Address → Nat} {a : Address} {c : ContractCall} {r : Returned}
    (h : countingPeers.call o a c = some (o', r)) :
    o' = Function.update o c.dest (o c.dest + 1) ∧ ∀ o₂, o₂ c.dest = o c.dest →
      countingPeers.call o₂ a c = some (Function.update o₂ c.dest (o₂ c.dest + 1), r) := by
  cases c with
  | swapTokensFixedInput pair input tokenOut m =>
      obtain ⟨hc, h⟩ := Option.ite_none_right_eq_some.mp h
      cases h
      refine ⟨rfl, fun o₂ ho => (if_pos hc).trans ?_⟩
      rw [ho]
  | _ =>
      cases h
      refine ⟨rfl, fun o₂ ho => ?_⟩
      show some _ = some _
      rw [ho]

theorem countingPeers_honest : Honest countingPeers where
  fixed := by
    intro o o' a c r _
    exact ⟨fun _ => rfl, fun _ => rfl⟩
  wrap h := by cases h; rfl
  swap h hr k := by
    obtain ⟨_, hres, htr⟩ := countingPeers_swap h
    rw [htr, hr, totalOf_cons]
    exact Nat.le_add_right _ _
  add_liquidity h hr k := by
    cases h; cases hr
    rw [totalOf_cons]
    exact Nat.le_add_right _ _

theorem countingPeers_separate : Separate countingPeers where
  honest := countingPeers_honest
  trades pair := by
    refine trades_of_order (fun h => ?_) fun _ => Or.inl ⟨rfl, rfl⟩
    obtain ⟨hin, hres, _⟩ := countingPeers_swap h
    exact ⟨hin, _, hres⟩
  others h b hb := by
    rw [(countingPeers_call h).1, Function.update_of_ne hb]
  depends := by
    intro o₁ o₂ o₁' a c r hdest h
    obtain ⟨rfl, hany⟩ := countingPeers_call h
    refine ⟨_, hany o₂ hdest, ?_⟩
    rw [Function.update_self, Function.update_self, hdest]
  tokens _ := ⟨rfl, rfl⟩
  stakings _ _ _ := rfl
  pairs _ _ _ := rfl
  wrapping _ _ := rfl

/-- The account at the counting contracts, some of which have been called before. -/
def countingState : State (Address → Nat) :=
  { sampleState with outside := fun a => if a = 0x4 ∨ a = 0x6 then 7 else 0 }

/-- A step of each kind, at contracts of its own. -/
def sampleSteps : List Strategy :=
  [⟨2500, .staking, 0x2, [77]⟩, ⟨2500, .farm, 0x4, [77]⟩, ⟨2500, .lp, 0x6, [77]⟩,
    ⟨2500, .esdt, 0x8, [77]⟩]

/-- The same steps in another order. -/
def reorderedSteps : List Strategy :=
  [⟨2500, .esdt, 0x8, [77]⟩, ⟨2500, .farm, 0x4, [77]⟩, ⟨2500, .lp, 0x6, [77]⟩,
    ⟨2500, .staking, 0x2, [77]⟩]

/-- The contracts that a step calls at the counting ones. -/
def footprint (step : Strategy) : List Address :=
  match step.positionType with
  | .staking => [step.contractAddress, 0xF]
  | .farm => [step.contractAddress, 0xA]
  | .esdt | .lp => [step.contractAddress]

theorem mem_footprint {s : State (Address → Nat)} {step : Strategy} {a : Address}
    (h : Uses countingPeers s step a) : a ∈ footprint step := by
  unfold footprint
  cases h with
  | contract => cases step.positionType <;> simp
  | staking ht ha =>
      obtain ⟨_, _, ha⟩ := ha
      rw [ht, ← Option.some.inj ha]
      exact List.mem_cons_of_mem _ List.mem_cons_self
  | pair ht ha =>
      rw [ht, ← Option.some.inj ha]
      exact List.mem_cons_of_mem _ List.mem_cons_self

theorem sampleSteps_disjoint : sampleSteps.Pairwise fun x y =>
    ∀ a, Uses countingPeers countingState x a → ¬ Uses countingPeers countingState y a := by
  have hdisjoint : sampleSteps.Pairwise fun x y =>
      (footprint x).any (fun a => (footprint y).contains a) = false := by
    decide +kernel
  refine hdisjoint.imp fun hxy a hx hy => ?_
  have hany := List.any_eq_false.mp hxy a (mem_footprint hx)
  exact hany (List.contains_iff_mem.mpr (mem_footprint hy))

/-- A step of each kind, in two orders. -/
theorem order_irrelevant_sample :
    ∃ s' s'', Commits (setupSmartAccount countingPeers 0xD 10003 1 sampleSteps) countingState ()
        s' ∧
      Commits (setupSmartAccount countingPeers 0xD 10003 1 reorderedSteps) countingState () s'' ∧
      SameOutcome countingState sampleSteps reorderedSteps s' s'' := by
  have h : check (setupSmartAccount countingPeers 0xD 10003 1 sampleSteps) countingState
      (fun _ => true) = true := by decide +kernel
  obtain ⟨s', hs, _⟩ := exists_of_check h
  have hperm : sampleSteps.Perm reorderedSteps := by decide
  obtain ⟨hiff, hsame⟩ := order_irrelevant countingPeers_separate 0xD 10003 1 hperm (by decide)
    sampleSteps_disjoint
  obtain ⟨s'', hs''⟩ := hiff.mp ⟨s', hs⟩
  exact ⟨s', s'', hs, hs'', hsame s' s'' hs hs''⟩

end SmartAccount

end PortfolioPilot
