/-
# `SmartAccount.Steps` — what a committed strategy step does

Said once, and used by every result about the account: a committed step is a
chain of calls of a fixed shape, ending with one position handed to
`save_user_position`.

    ESDT      swap                                     → the swap output
    Staking   swap, stake_farm [output]                → the new farm token
    LP        swap of half, add_liquidity              → the LP tokens
    Farm      swap of half, add_liquidity, enter_farm  → the new farm token

`Processed` has one constructor per kind, with the states between the calls, and
`SetUp` puts the whole of `setupSmartAccount` around them; the inversions
`processed_of_commits` and `setUp_of_commits` are the only proofs that open the
code.

A relation between states that calls and `save_user_position` keep holds between the
two ends of a step, and of the loop (`Processed.related`, `ProcessedAll.related`).
-/
import PortfolioPilot.Lib.Commuting
import PortfolioPilot.SmartAccount.Contract

namespace PortfolioPilot

namespace SmartAccount

open Revert

variable {σ : Type} {P : Peers σ} {s s' : State σ}

/-- The call `c` runs from `s` to `s'` and brings back `r`. -/
abbrev Executes (P : Peers σ) (c : ContractCall) (s : State σ) (r : Returned)
    (s' : State σ) : Prop :=
  Commits (execute P c) s r s'

/-- `get_wegld_token_id` from `s` reads `w`. -/
def WegldAt (P : Peers σ) (s : State σ) (w : TokenIdentifier) : Prop :=
  ∃ deployerSc wrapper, s.storage.smartAccountDeployerAddress = some deployerSc ∧
    P.egldWrapperAddress s.outside deployerSc = some wrapper ∧
    w = P.wrappedEgldTokenId s.outside wrapper

/-- The farm staking address an account in `s` finds for `t`. -/
def StakingAt (P : Peers σ) (s : State σ) (t : TokenIdentifier) (a : Address) : Prop :=
  ∃ deployerSc, s.storage.smartAccountDeployerAddress = some deployerSc ∧
    P.farmStakingAddressForToken s.outside deployerSc t = some a

/-- `investment_amount` of a step. -/
def investment (totalAmount : Nat) (step : Strategy) : Nat :=
  totalAmount * step.percentage.toNat / maxPercentage.toNat

/-- The two payments of `add_liquidity`: half of the investment on the WEGLD
side of the pair, the swap output on the other. -/
def sides (P : Peers σ) (o : σ) (pair : Address) (wegld : TokenIdentifier) (half : Nat)
    (out : EsdtTokenPayment) : EsdtTokenPayment × EsdtTokenPayment :=
  if P.firstTokenId o pair = wegld then
    (⟨P.firstTokenId o pair, 0, half⟩, out)
  else
    (out, ⟨P.secondTokenId o pair, 0, half⟩)

/-- The state once the position `p` has been handed to `save_user_position`. -/
def State.save (s : State σ) (p : EsdtTokenPayment) : State σ :=
  { s with log := s.log ++ [Event.saved p] }

/-! ## One call -/

theorem Executes.answer {c : ContractCall} {r : Returned} (h : Executes P c s r s') :
    P.call s.outside s.self c = some (s'.outside, r) := by
  obtain ⟨_, esdt, o, _, hc, rfl⟩ := commits_execute.mp h
  exact hc

theorem Executes.balance {c : ContractCall} {r : Returned} (h : Executes P c s r s')
    (k : TokenKey) : s'.esdt k + totalOf c.payments k = s.esdt k + totalOf r.transfers k := by
  obtain ⟨_, esdt, o, hd, _, rfl⟩ := commits_execute.mp h
  have hk := Ledger.debitAll_eq_some.mp hd k
  show esdt k + totalOf r.transfers k + totalOf c.payments k = _
  have hp : totalOf c.payments k = Ledger.total (c.payments.map EsdtTokenPayment.booked) k := rfl
  omega

theorem Executes.egld_add {c : ContractCall} {r : Returned} (h : Executes P c s r s') :
    s'.egld + c.egld = s.egld + r.egld := by
  obtain ⟨hle, esdt, o, _, _, rfl⟩ := commits_execute.mp h
  show s.egld - c.egld + r.egld + c.egld = _
  omega

/-! ## The actions -/

theorem commits_getWegldTokenId {w : TokenIdentifier} :
    Commits (getWegldTokenId P) s w s' ↔ WegldAt P s w ∧ s' = s := by
  simp only [getWegldTokenId, getEgldWrapperContractAddressMapper, WegldAt, commits_bind,
    commits_get, commits_demand, commits_pure]
  constructor
  · rintro ⟨_, _, ⟨_, _, ⟨rfl, rfl⟩, d, _, ⟨hd, rfl⟩, rfl, rfl⟩, a, _, ⟨ha, rfl⟩, _, _,
      ⟨rfl, rfl⟩, rfl, rfl⟩
    exact ⟨⟨d, a, hd, ha, rfl⟩, rfl⟩
  · rintro ⟨⟨d, a, hd, ha, rfl⟩, rfl⟩
    exact ⟨_, _, ⟨_, _, ⟨rfl, rfl⟩, d, _, ⟨hd, rfl⟩, rfl, rfl⟩, a, _, ⟨ha, rfl⟩, _, _,
      ⟨rfl, rfl⟩, rfl, rfl⟩

theorem commits_callWrapEgld {amount : Nat} {p : EsdtTokenPayment} :
    Commits (callWrapEgld P amount) s p s' ↔
      ∃ deployerSc wrapper r, s.storage.smartAccountDeployerAddress = some deployerSc ∧
        P.egldWrapperAddress s.outside deployerSc = some wrapper ∧
        Executes P (.wrapEgld wrapper amount) s r s' ∧ r.transfers = [p] := by
  simp only [callWrapEgld, getEgldWrapperContractAddressMapper, commits_bind, commits_get,
    commits_demand, commits_pure, oneOf_eq_some]
  constructor
  · rintro ⟨_, _, ⟨_, _, ⟨rfl, rfl⟩, d, _, ⟨hd, rfl⟩, rfl, rfl⟩, a, _, ⟨ha, rfl⟩, r, _, hx,
      hr, rfl⟩
    exact ⟨d, a, r, hd, ha, hx, hr⟩
  · rintro ⟨d, a, r, hd, ha, hx, hr⟩
    exact ⟨_, _, ⟨_, _, ⟨rfl, rfl⟩, d, _, ⟨hd, rfl⟩, rfl, rfl⟩, a, _, ⟨ha, rfl⟩, r, _, hx,
      hr, rfl⟩

theorem commits_callPairSwap {pair : Address} {input out : EsdtTokenPayment}
    {tokenOut : TokenIdentifier} :
    Commits (callPairSwap P pair input tokenOut) s out s' ↔
      ∃ r, Executes P (.swapTokensFixedInput pair input tokenOut swapMinAmount) s r s' ∧
        r.result = [out] := by
  simp [callPairSwap]

theorem commits_callPairAddLiquidity {args : PairAddLiqArgs} {x : PairAddLiqResult} :
    Commits (callPairAddLiquidity P args) s x s' ↔
      ∃ r lp used₁ used₂,
        Executes P (.addLiquidity args.pairAddress args.firstTokens args.secondTokens
          args.firstTokenMinAmountOut args.secondTokenMinAmountOut) s r s' ∧
        r.result = [lp, used₁, used₂] ∧
        used₁.amount ≤ args.firstTokens.amount ∧ used₂.amount ≤ args.secondTokens.amount ∧
        x = ⟨lp, ⟨used₁.tokenIdentifier, 0, args.firstTokens.amount - used₁.amount⟩,
          ⟨used₂.tokenIdentifier, 0, args.secondTokens.amount - used₂.amount⟩⟩ := by
  simp only [callPairAddLiquidity, commits_bind, commits_demand, threeOf_eq_some,
    commits_bigUintSub, commits_pure]
  constructor
  · rintro ⟨r, _, hx, ⟨lp, u₁, u₂⟩, _, ⟨hr, rfl⟩, _, _, ⟨h₁, rfl, rfl⟩, _, _, ⟨h₂, rfl, rfl⟩,
      rfl, rfl⟩
    exact ⟨r, lp, u₁, u₂, hx, hr, h₁, h₂, rfl⟩
  · rintro ⟨r, lp, u₁, u₂, hx, hr, h₁, h₂, rfl⟩
    exact ⟨r, _, hx, ⟨lp, u₁, u₂⟩, _, ⟨hr, rfl⟩, _, _, ⟨h₁, rfl, rfl⟩, _, _, ⟨h₂, rfl, rfl⟩,
      rfl, rfl⟩

theorem commits_callEnterFarm {farm : Address} {tokens : List EsdtTokenPayment}
    {x : EnterFarmResultWrapper} :
    Commits (callEnterFarm P farm tokens) s x s' ↔
      ∃ r, Executes P (.enterFarm farm tokens) s r s' ∧ r.result = [x.newFarmToken, x.rewards] := by
  simp only [callEnterFarm, commits_bind, commits_demand, twoOf_eq_some, commits_pure]
  constructor
  · rintro ⟨r, _, hx, y, _, ⟨hr, rfl⟩, rfl, rfl⟩
    exact ⟨r, hx, hr⟩
  · rintro ⟨r, hx, hr⟩
    exact ⟨r, _, hx, (x.newFarmToken, x.rewards), _, ⟨hr, rfl⟩, rfl, rfl⟩

theorem commits_callFarmStakingStake {farmStaking : Address} {tokens : List EsdtTokenPayment}
    {x : EsdtTokenPayment × EsdtTokenPayment} :
    Commits (callFarmStakingStake P farmStaking tokens) s x s' ↔
      ∃ r, Executes P (.stakeFarm farmStaking tokens) s r s' ∧ r.result = [x.1, x.2] := by
  simp [callFarmStakingStake]

theorem commits_getFarmPairContractAddressMapper {a : Address} {c : Option Address} :
    Commits (getFarmPairContractAddressMapper P a) s c s' ↔
      c = P.pairContractAddress s.outside a ∧ s' = s := by
  simp [getFarmPairContractAddressMapper, and_comm]

theorem commits_saveUserPosition {p : EsdtTokenPayment} {u : Unit} :
    Commits (saveUserPosition p) s u s' ↔ s' = s.save p := by
  simp [saveUserPosition, State.save]

/-! ## The steps -/

/-- `half` is swapped at `pair`, and both sides become liquidity of `pair`. -/
inductive Liquidity (P : Peers σ) (wegld : TokenIdentifier) (half : Nat) (pair : Address)
    (tokenOut : TokenIdentifier) (s : State σ) (lp : EsdtTokenPayment) (s₂ : State σ) : Prop
  | mk {s₁ : State σ} {r₁ r₂ : Returned} {out used₁ used₂ : EsdtTokenPayment} :
      Executes P (.swapTokensFixedInput pair ⟨wegld, 0, half⟩ tokenOut swapMinAmount) s r₁ s₁ →
      r₁.result = [out] →
      Executes P (.addLiquidity pair (sides P s₁.outside pair wegld half out).1
        (sides P s₁.outside pair wegld half out).2 1 1) s₁ r₂ s₂ →
      r₂.result = [lp, used₁, used₂] →
      used₁.amount ≤ (sides P s₁.outside pair wegld half out).1.amount →
      used₂.amount ≤ (sides P s₁.outside pair wegld half out).2.amount →
      Liquidity P wegld half pair tokenOut s lp s₂

/-- `Processed P A step s s'`: the step, of a deposit of `A`, takes `s` to `s'`. -/
inductive Processed (P : Peers σ) (A : Nat) (step : Strategy) (s : State σ) : State σ → Prop
  | esdt {w : TokenIdentifier} {r : Returned} {out : EsdtTokenPayment} {s₁ : State σ} :
      step.positionType = .esdt → WegldAt P s w →
      Executes P (.swapTokensFixedInput step.contractAddress ⟨w, 0, investment A step⟩
        step.outputTokenId swapMinAmount) s r s₁ →
      r.result = [out] →
      Processed P A step s (s₁.save out)
  | staking {w : TokenIdentifier} {r₁ r₂ : Returned} {out newFarm rewards : EsdtTokenPayment}
      {farmStaking : Address} {s₁ s₂ : State σ} :
      step.positionType = .staking → WegldAt P s w →
      Executes P (.swapTokensFixedInput step.contractAddress ⟨w, 0, investment A step⟩
        step.outputTokenId swapMinAmount) s r₁ s₁ →
      r₁.result = [out] →
      StakingAt P s₁ step.outputTokenId farmStaking →
      Executes P (.stakeFarm farmStaking [out]) s₁ r₂ s₂ →
      r₂.result = [newFarm, rewards] →
      Processed P A step s (s₂.save newFarm)
  | lp {w : TokenIdentifier} {lp : EsdtTokenPayment} {s₂ : State σ} :
      step.positionType = .lp → WegldAt P s w →
      Liquidity P w (investment A step / 2) step.contractAddress step.outputTokenId s lp s₂ →
      Processed P A step s (s₂.save lp)
  | farm {w : TokenIdentifier} {pair : Address} {lp newFarm rewards : EsdtTokenPayment}
      {r : Returned} {s₂ s₃ : State σ} :
      step.positionType = .farm → WegldAt P s w →
      P.pairContractAddress s.outside step.contractAddress = some pair →
      Liquidity P w (investment A step / 2) pair step.outputTokenId s lp s₂ →
      Executes P (.enterFarm step.contractAddress [lp]) s₂ r s₃ →
      r.result = [newFarm, rewards] →
      Processed P A step s (s₃.save newFarm)

theorem commits_getFarmStakingAddressMapper {t : TokenIdentifier} {c : Option Address} :
    Commits (getFarmStakingAddressMapper P t) s c s' ↔
      ∃ deployerSc, s.storage.smartAccountDeployerAddress = some deployerSc ∧
        c = P.farmStakingAddressForToken s.outside deployerSc t ∧ s' = s := by
  simp only [getFarmStakingAddressMapper, commits_bind, commits_get, commits_demand, commits_pure]
  constructor
  · rintro ⟨_, _, ⟨rfl, rfl⟩, d, _, ⟨hd, rfl⟩, rfl, rfl⟩
    exact ⟨d, hd, rfl, rfl⟩
  · rintro ⟨d, hd, rfl, rfl⟩
    exact ⟨_, _, ⟨rfl, rfl⟩, d, _, ⟨hd, rfl⟩, rfl, rfl⟩

/-! ### The liquidity of LP and Farm steps -/

/-- `half` WEGLD is swapped at `pair`, and both sides are added as liquidity. -/
def provideLiquidity (P : Peers σ) (wegldTokenId : TokenIdentifier) (half : Nat) (pair : Address)
    (outputTokenId : TokenIdentifier) : Exec σ PairAddLiqResult := do
  let out ← callPairSwap P pair ⟨wegldTokenId, 0, half⟩ outputTokenId
  let s ← get
  callPairAddLiquidity P {
    pairAddress := pair
    firstTokens := (sides P s.outside pair wegldTokenId half out).1
    secondTokens := (sides P s.outside pair wegldTokenId half out).2
    firstTokenMinAmountOut := 1
    secondTokenMinAmountOut := 1 }

/-- The LP tokens that a step of this percentage and output token gets at `pair`. -/
def addedLiquidity (P : Peers σ) (A : Nat) (step : Strategy) (pair : Address) :
    Exec σ EsdtTokenPayment := do
  let wegldTokenId ← getWegldTokenId P
  let x ← provideLiquidity P wegldTokenId (investment A step / 2) pair step.outputTokenId
  return x.lpTokens

theorem processLpPosition_eq (A : Nat) (step : Strategy) :
    processLpPosition P A step =
      addedLiquidity P A step step.contractAddress >>= saveUserPosition := by
  unfold processLpPosition addedLiquidity provideLiquidity getFirstTokenIdMapper
    getSecondTokenIdMapper
  simp only [bind_assoc, pure_bind]
  rfl

/-- A Farm step does at the pair of its farm what an LP step at that pair does, error
for error; then it enters the farm with the LP tokens. -/
theorem processFarmPosition_run {A : Nat} {step : Strategy} {pair : Address}
    (hpair : P.pairContractAddress s.outside step.contractAddress = some pair) :
    (processFarmPosition P A step).run s =
      (addedLiquidity P A step pair >>= fun lpTokens => do
        let enterFarmResult ← callEnterFarm P step.contractAddress [lpTokens]
        saveUserPosition enterFarmResult.newFarmToken).run s := by
  have hread : Commits (getFarmPairContractAddressMapper P step.contractAddress) s (some pair) s :=
    commits_getFarmPairContractAddressMapper.mpr ⟨hpair.symm, rfl⟩
  unfold processFarmPosition addedLiquidity
  simp only [bind_assoc, pure_bind]
  cases hw : (getWegldTokenId P).run s with
  | error e =>
      -- the WEGLD lookup comes first in both
      rw [StateT.run_bind, StateT.run_bind, hw]
      rfl
  | ok q =>
      obtain ⟨w, m⟩ := q
      obtain ⟨_, rfl⟩ := commits_getWegldTokenId.mp hw
      rw [run_bind_of_commits hw, run_bind_of_commits hw, run_bind_of_commits hread]
      unfold provideLiquidity getFirstTokenIdMapper getSecondTokenIdMapper
      simp only [bind_assoc, pure_bind, demand]
      rfl

/-- A Farm step at a farm without a pair stops after its WEGLD lookup. -/
theorem processFarmPosition_unpaired {A : Nat} {step : Strategy}
    (hpair : P.pairContractAddress s.outside step.contractAddress = none) :
    (processFarmPosition P A step).run s =
      (getWegldTokenId P >>= fun _ => throw TxError.storageDecode).run s := by
  have hread : Commits (getFarmPairContractAddressMapper P step.contractAddress) s none s :=
    commits_getFarmPairContractAddressMapper.mpr ⟨hpair.symm, rfl⟩
  unfold processFarmPosition
  cases hw : (getWegldTokenId P).run s with
  | error e =>
      rw [StateT.run_bind, StateT.run_bind, hw]
      rfl
  | ok q =>
      obtain ⟨w, m⟩ := q
      obtain ⟨_, rfl⟩ := commits_getWegldTokenId.mp hw
      rw [run_bind_of_commits hw, run_bind_of_commits hw, run_bind_of_commits hread]
      rfl

/-- The calls of the common part: a swap and an `add_liquidity` at the pair. -/
theorem commits_addedLiquidity {A : Nat} {step : Strategy} {pair : Address}
    {lpTokens : EsdtTokenPayment} :
    Commits (addedLiquidity P A step pair) s lpTokens s' ↔ ∃ w, WegldAt P s w ∧
      Liquidity P w (investment A step / 2) pair step.outputTokenId s lpTokens s' := by
  simp only [addedLiquidity, provideLiquidity, commits_bind, commits_getWegldTokenId,
    commits_callPairSwap, commits_get, commits_callPairAddLiquidity, commits_pure]
  constructor
  · rintro ⟨w, _, ⟨hw, rfl⟩, x, _, ⟨out, s₁, ⟨r₁, hx₁, hr₁⟩, _, _, ⟨rfl, rfl⟩,
      r₂, lp, used₁, used₂, hx₂, hr₂, h₁, h₂, rfl⟩, rfl, rfl⟩
    exact ⟨w, hw, .mk hx₁ hr₁ hx₂ hr₂ h₁ h₂⟩
  · rintro ⟨w, hw, ⟨hx₁, hr₁, hx₂, hr₂, h₁, h₂⟩⟩
    exact ⟨w, _, ⟨hw, rfl⟩, _, _, ⟨_, _, ⟨_, hx₁, hr₁⟩, _, _, ⟨rfl, rfl⟩,
      _, _, _, _, hx₂, hr₂, h₁, h₂, rfl⟩, rfl, rfl⟩

/-! ### The inversions -/

theorem processed_of_esdt {A : Nat} {step : Strategy} (ht : step.positionType = .esdt)
    (h : Commits (processEsdtPosition P A step) s () s') : Processed P A step s s' := by
  simp only [processEsdtPosition, commits_bind, commits_getWegldTokenId, commits_callPairSwap,
    commits_saveUserPosition] at h
  obtain ⟨w, _, ⟨hw, rfl⟩, out, s₁, ⟨r, hx, hr⟩, rfl⟩ := h
  exact .esdt ht hw hx hr

theorem processed_of_staking {A : Nat} {step : Strategy} (ht : step.positionType = .staking)
    (h : Commits (processStakingPosition P A step) s () s') : Processed P A step s s' := by
  simp only [processStakingPosition, commits_bind, commits_getWegldTokenId, commits_callPairSwap,
    commits_getFarmStakingAddressMapper, commits_demand, commits_callFarmStakingStake,
    commits_saveUserPosition] at h
  obtain ⟨w, _, ⟨hw, rfl⟩, out, s₁, ⟨r₁, hx₁, hr₁⟩, c, _, ⟨d, hd, rfl, rfl⟩, a, _, ⟨ha, rfl⟩,
    x, s₂, ⟨r₂, hx₂, hr₂⟩, rfl⟩ := h
  exact .staking ht hw hx₁ hr₁ ⟨d, hd, ha⟩ hx₂ hr₂

theorem processed_of_lp {A : Nat} {step : Strategy} (ht : step.positionType = .lp)
    (h : Commits (processLpPosition P A step) s () s') : Processed P A step s s' := by
  rw [processLpPosition_eq] at h
  obtain ⟨lp, s₂, hadd, hsave⟩ := commits_bind.mp h
  obtain ⟨w, hw, hl⟩ := commits_addedLiquidity.mp hadd
  rw [commits_saveUserPosition.mp hsave]
  exact .lp ht hw hl

theorem processed_of_farm {A : Nat} {step : Strategy} (ht : step.positionType = .farm)
    (h : Commits (processFarmPosition P A step) s () s') : Processed P A step s s' := by
  cases hpair : P.pairContractAddress s.outside step.contractAddress with
  | none =>
      have hnone := (processFarmPosition_unpaired hpair).symm.trans h
      obtain ⟨_, _, _, hthrow⟩ := commits_bind.mp hnone
      cases hthrow
  | some pair =>
      have hsome := (processFarmPosition_run hpair).symm.trans h
      obtain ⟨lp, s₂, hadd, hrest⟩ := commits_bind.mp hsome
      obtain ⟨w, hw, hl⟩ := commits_addedLiquidity.mp hadd
      obtain ⟨x, s₃, henter, hsave⟩ := commits_bind.mp hrest
      obtain ⟨r, hx, hr⟩ := commits_callEnterFarm.mp henter
      rw [commits_saveUserPosition.mp hsave]
      exact .farm ht hw hpair hl hx hr

/-- The inversion of one iteration of the loop. -/
theorem processed_of_commits {A : Nat} {step : Strategy}
    (h : Commits (processPosition P A step) s () s') : Processed P A step s s' := by
  unfold processPosition at h
  cases ht : step.positionType with
  | esdt => rw [ht] at h; exact processed_of_esdt ht h
  | staking => rw [ht] at h; exact processed_of_staking ht h
  | lp => rw [ht] at h; exact processed_of_lp ht h
  | farm => rw [ht] at h; exact processed_of_farm ht h

/-- The loop over the strategy. -/
inductive ProcessedAll (P : Peers σ) (A : Nat) : List Strategy → State σ → State σ → Prop
  | nil {s : State σ} : ProcessedAll P A [] s s
  | cons {step : Strategy} {steps : List Strategy} {s m s' : State σ} :
      Processed P A step s m → ProcessedAll P A steps m s' →
      ProcessedAll P A (step :: steps) s s'

theorem processedAll_of_commits {A : Nat} {steps : List Strategy} :
    ∀ {s s' : State σ}, Commits (forM steps (processPosition P A)) s () s' →
      ProcessedAll P A steps s s' := by
  induction steps with
  | nil =>
      intro s s' h
      rw [commits_forM_nil] at h
      subst h
      exact .nil
  | cons step steps ih =>
      intro s s' h
      obtain ⟨m, h₁, h₂⟩ := commits_forM_cons.mp h
      exact .cons (processed_of_commits h₁) (ih h₂)

/-! ## The whole call -/

/-- The state with the value of the call on the balance. -/
def State.receive (s : State σ) (value : Nat) : State σ :=
  { s with egld := s.egld + value }

/-- `SetUp P caller A r L s s'`: a committed `setupSmartAccount` of a deposit of
`A`, with risk tolerance `r` and strategy `L`. -/
inductive SetUp (P : Peers σ) (caller : Address) (A : Nat) (r : UInt64) (L : List Strategy)
    (s s' : State σ) : Prop
  | mk {deployerSc wrapper : Address} {ret : Returned} {wrapped : EsdtTokenPayment}
      {s₁ : State σ} :
      caller = s.owner →
      s.storage.smartAccountDeployerAddress = some deployerSc →
      P.egldWrapperAddress s.outside deployerSc = some wrapper →
      Executes P (.wrapEgld wrapper A) (s.receive A) ret s₁ →
      ret.transfers = [wrapped] →
      WegldAt P s₁ wrapped.tokenIdentifier →
      L ≠ [] → r ≤ maxRiskTolerance →
      ProcessedAll P A L (s₁.storeStrategy r L) s' →
      SetUp P caller A r L s s'

/-- The inversion of `setupSmartAccount`. -/
theorem setUp_of_commits {caller : Address} {A : Nat} {r : UInt64} {L : List Strategy}
    (h : Commits (setupSmartAccount P caller A r L) s () s') : SetUp P caller A r L s s' := by
  simp only [setupSmartAccount, receiveEgld, onlyOwner, commits_bind, commits_get, commits_modify,
    commits_require, commits_callWrapEgld, commits_getWegldTokenId] at h
  obtain ⟨_, _, rfl, _, _, ⟨_, _, ⟨rfl, rfl⟩, hc, rfl⟩, p, s₁, ⟨d, a, ret, hd, ha, hx, hret⟩,
    w, _, ⟨hw, rfl⟩, _, _, ⟨hp, rfl⟩, _, _, ⟨hL, rfl⟩, _, _, ⟨hr, rfl⟩, _, _, rfl, hall⟩ := h
  subst hp
  exact .mk hc hd ha hx hret hw hL hr (processedAll_of_commits hall)

/-! ## What a call leaves alone -/

/-- A call changes balances, the outside and the log. -/
theorem Executes.frame {c : ContractCall} {r : Returned} (h : Executes P c s r s') :
    s'.self = s.self ∧ s'.owner = s.owner ∧ s'.storage = s.storage ∧
      s'.log = s.log ++ [Event.called c r] := by
  obtain ⟨_, esdt, o, _, _, rfl⟩ := commits_execute.mp h
  exact ⟨rfl, rfl, rfl, rfl⟩

section Related

variable {R : State σ → State σ → Prop} {A : Nat}

theorem Liquidity.related (htrans : ∀ {s m s'}, R s m → R m s' → R s s')
    (hcall : ∀ {c r s s'}, c.egld = 0 → Executes P c s r s' → R s s') {w tokenOut : TokenIdentifier}
    {half : Nat} {pair : Address} {lp : EsdtTokenPayment}
    (h : Liquidity P w half pair tokenOut s lp s') : R s s' := by
  cases h with
  | mk hx₁ _ hx₂ _ _ _ => exact htrans (hcall rfl hx₁) (hcall rfl hx₂)

/-- A step is a chain of calls, which send no EGLD, and one position handed over. -/
theorem Processed.related (htrans : ∀ {s m s'}, R s m → R m s' → R s s')
    (hcall : ∀ {c r s s'}, c.egld = 0 → Executes P c s r s' → R s s')
    (hsave : ∀ s p, R s (State.save s p)) {step : Strategy} (h : Processed P A step s s') :
    R s s' := by
  cases h with
  | esdt _ _ hx _ => exact htrans (hcall rfl hx) (hsave _ _)
  | staking _ _ hx₁ _ _ hx₂ _ =>
      exact htrans (htrans (hcall rfl hx₁) (hcall rfl hx₂)) (hsave _ _)
  | lp _ _ hl => exact htrans (hl.related htrans hcall) (hsave _ _)
  | farm _ _ _ hl hx _ =>
      exact htrans (htrans (hl.related htrans hcall) (hcall rfl hx)) (hsave _ _)

theorem ProcessedAll.related (hrefl : ∀ s, R s s) (htrans : ∀ {s m s'}, R s m → R m s' → R s s')
    (hcall : ∀ {c r s s'}, c.egld = 0 → Executes P c s r s' → R s s')
    (hsave : ∀ s p, R s (State.save s p)) {steps : List Strategy}
    (h : ProcessedAll P A steps s s') : R s s' := by
  induction h with
  | nil => exact hrefl _
  | cons hstep _ ih => exact htrans (hstep.related htrans hcall hsave) ih

end Related

/-- The positions handed to `save_user_position` in a log, in order. -/
def positions (log : List Event) : List EsdtTokenPayment :=
  log.filterMap fun e => match e with
    | .saved p => some p
    | .called _ _ => none

@[simp] theorem positions_nil : positions [] = [] := rfl

@[simp] theorem positions_append (l₁ l₂ : List Event) :
    positions (l₁ ++ l₂) = positions l₁ ++ positions l₂ :=
  List.filterMap_append

@[simp] theorem positions_called (c : ContractCall) (r : Returned) (log : List Event) :
    positions (Event.called c r :: log) = positions log := rfl

@[simp] theorem positions_saved (p : EsdtTokenPayment) (log : List Event) :
    positions (Event.saved p :: log) = p :: positions log := rfl

/-- `s'` continues `s`: the same contract with the same storage, the log longer
by events that open exactly the positions `ps`. -/
structure Opens (s s' : State σ) (ps : List EsdtTokenPayment) : Prop where
  self : s'.self = s.self
  owner : s'.owner = s.owner
  storage : s'.storage = s.storage
  log : ∃ events, s'.log = s.log ++ events ∧ positions events = ps

theorem Opens.refl (s : State σ) : Opens s s [] :=
  ⟨rfl, rfl, rfl, [], (List.append_nil _).symm, rfl⟩

theorem Opens.trans {m : State σ} {ps qs : List EsdtTokenPayment} (h₁ : Opens s m ps)
    (h₂ : Opens m s' qs) : Opens s s' (ps ++ qs) := by
  obtain ⟨l₁, e₁, p₁⟩ := h₁.log
  obtain ⟨l₂, e₂, p₂⟩ := h₂.log
  refine ⟨h₂.self.trans h₁.self, h₂.owner.trans h₁.owner, h₂.storage.trans h₁.storage,
    l₁ ++ l₂, ?_, ?_⟩
  · rw [e₂, e₁, List.append_assoc]
  · rw [positions_append, p₁, p₂]

theorem Executes.opens {c : ContractCall} {r : Returned} (h : Executes P c s r s') :
    Opens s s' [] := by
  obtain ⟨hself, howner, hstorage, hlog⟩ := h.frame
  exact ⟨hself, howner, hstorage, _, hlog, rfl⟩

theorem opens_save (s : State σ) (p : EsdtTokenPayment) : Opens s (s.save p) [p] :=
  ⟨rfl, rfl, rfl, [Event.saved p], rfl, rfl⟩

theorem Liquidity.opens {w tokenOut : TokenIdentifier} {half : Nat} {pair : Address}
    {lp : EsdtTokenPayment} (h : Liquidity P w half pair tokenOut s lp s') : Opens s s' [] := by
  cases h with
  | mk hx₁ _ hx₂ _ _ _ => exact hx₁.opens.trans hx₂.opens

/-- A step opens one position and writes no cell of the account. -/
theorem Processed.opens {A : Nat} {step : Strategy} (h : Processed P A step s s') :
    ∃ p, Opens s s' [p] := by
  cases h with
  | esdt _ _ hx _ => exact ⟨_, hx.opens.trans (opens_save _ _)⟩
  | staking _ _ hx₁ _ _ hx₂ _ => exact ⟨_, (hx₁.opens.trans hx₂.opens).trans (opens_save _ _)⟩
  | lp _ _ hl => exact ⟨_, hl.opens.trans (opens_save _ _)⟩
  | farm _ _ _ hl hx _ => exact ⟨_, (hl.opens.trans hx.opens).trans (opens_save _ _)⟩

/-- A step of the loop, with the position it hands over. -/
def Takes (P : Peers σ) (A : Nat) (x : Strategy × EsdtTokenPayment) (s s' : State σ) : Prop :=
  Processed P A x.1 s s' ∧ Opens s s' [x.2]

/-- The loop over `steps` hands over the positions `ps`: each step runs from the state in
which the one before it ended, and hands over its own. -/
def Produces (P : Peers σ) (A : Nat) (steps : List Strategy) (ps : List EsdtTokenPayment)
    (s s' : State σ) : Prop :=
  ∃ xs, xs.map Prod.fst = steps ∧ xs.map Prod.snd = ps ∧ Runs (Takes P A) xs s s'

theorem Produces.length {A : Nat} {steps : List Strategy} {ps : List EsdtTokenPayment}
    (h : Produces P A steps ps s s') : ps.length = steps.length := by
  obtain ⟨xs, rfl, rfl, _⟩ := h
  rw [List.length_map, List.length_map]

theorem Produces.ne_nil {A : Nat} {steps : List Strategy} {ps : List EsdtTokenPayment}
    (h : Produces P A steps ps s s') (hsteps : steps ≠ []) : ps ≠ [] := by
  intro hps
  have hlength := h.length
  rw [hps] at hlength
  exact hsteps (List.eq_nil_of_length_eq_zero hlength.symm)

/-- The loop, with the positions it hands over. -/
theorem runs_of_processedAll {A : Nat} {steps : List Strategy} (h : ProcessedAll P A steps s s') :
    ∃ xs, xs.map Prod.fst = steps ∧ Runs (Takes P A) xs s s' := by
  induction h with
  | nil => exact ⟨[], rfl, .nil⟩
  | @cons step steps s m s' hstep _ ih =>
      obtain ⟨p, hp⟩ := hstep.opens
      obtain ⟨xs, hxs, hruns⟩ := ih
      refine ⟨(step, p) :: xs, ?_, .cons ⟨hstep, hp⟩ hruns⟩
      rw [List.map_cons, hxs]

theorem processedAll_of_runs {A : Nat} {xs : List (Strategy × EsdtTokenPayment)}
    (h : Runs (Takes P A) xs s s') :
    ProcessedAll P A (xs.map Prod.fst) s s' ∧ Opens s s' (xs.map Prod.snd) := by
  induction h with
  | nil => exact ⟨.nil, .refl _⟩
  | cons hstep _ ih =>
      obtain ⟨hrest, hopens⟩ := ih
      exact ⟨.cons hstep.1 hrest, hstep.2.trans hopens⟩

/-- The loop opens one position per step, in step order, and writes no cell. -/
theorem ProcessedAll.opens {A : Nat} {steps : List Strategy} (h : ProcessedAll P A steps s s') :
    ∃ ps, Opens s s' ps ∧ Produces P A steps ps s s' := by
  obtain ⟨xs, hxs, hruns⟩ := runs_of_processedAll h
  exact ⟨_, (processedAll_of_runs hruns).2, xs, hxs, rfl, hruns⟩

/-- The positions `ps` of a committed `setupSmartAccount`: once the deposit of `A` is wrapped
and the strategy `L` stored, its steps hand them over. -/
def Delivers (P : Peers σ) (A : Nat) (r : UInt64) (L : List Strategy)
    (ps : List EsdtTokenPayment) (s s' : State σ) : Prop :=
  ∃ wrapper ret s₁, Executes P (.wrapEgld wrapper A) (s.receive A) ret s₁ ∧
    Produces P A L ps (s₁.storeStrategy r L) s'

/-- What a committed `setupSmartAccount` does to the account itself: it stores
the risk tolerance and the strategy, writes no other cell, and opens one
position per step. -/
theorem SetUp.effect {caller : Address} {A : Nat} {r : UInt64} {L : List Strategy}
    (h : SetUp P caller A r L s s') :
    s'.self = s.self ∧ s'.owner = s.owner ∧
      s'.storage = { s.storage with userRiskTolerance := r, userStrategy := L } ∧
      ∃ events ps, s'.log = s.log ++ events ∧ positions events = ps ∧
        Delivers P A r L ps s s' := by
  cases h with
  | @mk _ wrapper ret _ s₁ _ _ _ hx _ _ _ _ hall =>
      obtain ⟨hself, howner, hstorage, hlog⟩ := hx.frame
      obtain ⟨ps, ho, hps⟩ := hall.opens
      obtain ⟨events, he, hpos⟩ := ho.log
      refine ⟨ho.self.trans hself, ho.owner.trans howner, ?_,
        [Event.called (.wrapEgld wrapper A) ret] ++ events, ps, ?_, ?_, wrapper, ret, s₁, hx, hps⟩
      · rw [ho.storage]
        show { s₁.storage with userRiskTolerance := r, userStrategy := L } = _
        rw [hstorage]; rfl
      · rw [he, ← List.append_assoc]
        exact congrArg (· ++ events) hlog
      · rw [positions_append, hpos]; rfl

/-! ## When the arguments are refused -/

/-- Any error but the one for the arguments of `setupSmartAccount`. -/
def Other (e : TxError) : Prop := e ≠ .require "No user strategy found"

@[simp] theorem other_iff {e : TxError} : Other e ↔ e ≠ .require "No user strategy found" := Iff.rfl

theorem raises_execute {c : ContractCall} : Raises Other (execute P c) := by
  refine .bind .get fun s => .bind (.require (by simp)) fun _ => .bind (.demand (by simp)) fun _ =>
    .bind (.demand (by simp)) fun _ => .bind .set fun _ => .pure

theorem raises_getEgldWrapperContractAddressMapper :
    Raises Other (getEgldWrapperContractAddressMapper P) := by
  exact .bind .get fun _ => .bind (.demand (by simp)) fun _ => .pure

theorem raises_getWegldTokenId : Raises Other (getWegldTokenId P) := by
  exact .bind raises_getEgldWrapperContractAddressMapper fun _ =>
    .bind (.demand (by simp)) fun _ => .bind .get fun _ => .pure

theorem raises_callWrapEgld {amount : Nat} : Raises Other (callWrapEgld P amount) := by
  refine .bind raises_getEgldWrapperContractAddressMapper fun _ => .bind (.demand (by simp)) fun _ =>
    .bind raises_execute fun _ => .demand ?_
  simp

theorem raises_callPairSwap {pair : Address} {input : EsdtTokenPayment} {t : TokenIdentifier} :
    Raises Other (callPairSwap P pair input t) := by
  exact .bind raises_execute fun _ => .demand (by simp)

theorem raises_bigUintSub {a b : Nat} : Raises Other (bigUintSub a b : Exec σ Nat) := by
  exact .bind (.require (by simp)) fun _ => .pure

theorem raises_callPairAddLiquidity {args : PairAddLiqArgs} :
    Raises Other (callPairAddLiquidity P args) := by
  exact .bind raises_execute fun _ => .bind (.demand (by simp)) fun _ =>
    .bind raises_bigUintSub fun _ => .bind raises_bigUintSub fun _ => .pure

theorem raises_saveUserPosition {p : EsdtTokenPayment} :
    Raises Other (saveUserPosition p : Exec σ Unit) := by
  exact .bind .get fun _ => .set

/-- No step is undone with the error for the arguments. -/
theorem raises_processPosition {A : Nat} {step : Strategy} :
    Raises Other (processPosition P A step) := by
  have hfirst : ∀ a, Raises Other (getFirstTokenIdMapper P a) := fun _ => .bind .get fun _ => .pure
  have hsecond : ∀ a, Raises Other (getSecondTokenIdMapper P a) := fun _ => .bind .get fun _ => .pure
  have hpair : ∀ a, Raises Other (getFarmPairContractAddressMapper P a) :=
    fun _ => .bind .get fun _ => .pure
  have hstaking : ∀ t, Raises Other (getFarmStakingAddressMapper P t) :=
    fun _ => .bind .get fun _ => .bind (.demand (by simp)) fun _ => .pure
  have hstake : ∀ a ts, Raises Other (callFarmStakingStake P a ts) :=
    fun _ _ => .bind raises_execute fun _ => .demand (by simp)
  have henter : ∀ a ts, Raises Other (callEnterFarm P a ts) :=
    fun _ _ => .bind raises_execute fun _ => .bind (.demand (by simp)) fun _ => .pure
  unfold processPosition
  cases step.positionType with
  | esdt =>
      exact .bind raises_getWegldTokenId fun _ => .bind raises_callPairSwap fun _ =>
        raises_saveUserPosition
  | staking =>
      exact .bind raises_getWegldTokenId fun _ => .bind raises_callPairSwap fun _ =>
        .bind (hstaking _) fun _ => .bind (.demand (by simp)) fun _ => .bind (hstake _ _) fun _ =>
        raises_saveUserPosition
  | lp =>
      exact .bind raises_getWegldTokenId fun _ => .bind raises_callPairSwap fun _ =>
        .bind (hfirst _) fun _ => .bind (hsecond _) fun _ =>
        .bind raises_callPairAddLiquidity fun _ => raises_saveUserPosition
  | farm =>
      exact .bind raises_getWegldTokenId fun _ => .bind (hpair _) fun _ =>
        .bind (.demand (by simp)) fun _ => .bind raises_callPairSwap fun _ =>
        .bind (hfirst _) fun _ => .bind (hsecond _) fun _ =>
        .bind raises_callPairAddLiquidity fun _ => .bind (henter _ _) fun _ =>
        raises_saveUserPosition

/-- With a strategy and a risk tolerance in range, the checks on the arguments pass. -/
theorem raises_setupSmartAccount {caller : Address} {A : Nat} {r : UInt64} {L : List Strategy}
    (hL : L ≠ []) (hr : r ≤ maxRiskTolerance) :
    Raises Other (setupSmartAccount P caller A r L) := by
  have hpass : ∀ {p : Prop} [Decidable p] {e : TxError}, p →
      Raises Other (require p e : Exec σ Unit) := by
    intro p _ e hp s e' h
    exact absurd hp (reverts_require.mp h).1
  refine .bind .modify fun _ => .bind (.bind .get fun _ => .require (by simp)) fun _ =>
    .bind raises_callWrapEgld fun _ => .bind raises_getWegldTokenId fun _ =>
    .bind (.require ?_) fun _ => .bind (hpass hL) fun _ => .bind (hpass hr) fun _ =>
    .bind .modify fun _ => .forM fun _ => raises_processPosition
  simp

end SmartAccount

end PortfolioPilot
