/-
# `SmartAccount.Failures` — when a setup is undone, and with which error

The counterpart of `SmartAccount.Steps`.  There a committed run is taken apart;
here a reverted one is.  A call can fail in three places: the account does not
hold what it sends, the third party refuses, or what it returns cannot be used
(`ContractCall.rejects`).  A step fails at one of its calls or at a lookup that
finds nothing (`Obstacle`), and a setup at one of its guards, at the wrapper, or
at a step (`Undone`).  All three are equivalences with the code, error for error.

With percentages that make up the whole and third parties that behave, most of
these cannot happen.  What is left is up to the third parties: a setup goes
through exactly when every call it makes is answered and every address it looks
up is there (`setup_goes_through_iff`).
-/
import PortfolioPilot.SmartAccount.Ordering

namespace PortfolioPilot

namespace SmartAccount

open Revert

variable {σ : Type} {P : Peers σ} {s s' t : State σ} {e : TxError}

/-! ## One call -/

/-- The error `e` if nothing was decoded. -/
def undecoded {α : Type} (o : Option α) (e : TxError) : Option TxError :=
  match o with
  | some _ => none
  | none => some e

@[simp] theorem undecoded_eq_some {α : Type} {o : Option α} {e e' : TxError} :
    undecoded o e = some e' ↔ o = none ∧ e' = e := by
  cases o with
  | none => simp [undecoded, eq_comm]
  | some a => simp [undecoded]

/-- The error of an `add_liquidity` of `first` and `second` that returned the values `o`. -/
def overused (first second : EsdtTokenPayment)
    (o : Option (EsdtTokenPayment × EsdtTokenPayment × EsdtTokenPayment)) : Option TxError :=
  match o with
  | none => some .resultDecode
  | some x =>
      if x.2.1.amount ≤ first.amount ∧ x.2.2.amount ≤ second.amount then none
      else some .subtraction

theorem overused_cases {first second : EsdtTokenPayment}
    {o : Option (EsdtTokenPayment × EsdtTokenPayment × EsdtTokenPayment)}
    (h : overused first second o = some e) : e = .resultDecode ∨ e = .subtraction := by
  cases o with
  | none => exact Or.inl (Option.some.inj h).symm
  | some x =>
      unfold overused at h
      by_cases hle : x.2.1.amount ≤ first.amount ∧ x.2.2.amount ≤ second.amount
      · simp [hle] at h
      · simp only [hle, if_false] at h
        exact Or.inr (Option.some.inj h).symm

/-- The error of a caller that cannot use what the call brought back. -/
def ContractCall.rejects (c : ContractCall) (r : Returned) : Option TxError :=
  match c with
  | .wrapEgld _ _ => undecoded (oneOf r.transfers) (.require "wrap_egld should output only 1 payment")
  | .swapTokensFixedInput .. => undecoded (oneOf r.result) .resultDecode
  | .addLiquidity _ first second _ _ => overused first second (threeOf r.result)
  | .stakeFarm _ _ => undecoded (twoOf r.result) .resultDecode
  | .enterFarm _ _ => undecoded (twoOf r.result) .resultDecode

/-- `Fails P s c e`: the call `c` from `s` is undone with error `e`. -/
inductive Fails (P : Peers σ) (s : State σ) (c : ContractCall) : TxError → Prop
  | unfunded : ¬ Funded s c → Fails P s c .insufficientFunds
  | refused : Funded s c → P.call s.outside s.self c = none → Fails P s c .executionFailed
  | rejected {r : Returned} {s' : State σ} {e : TxError} :
      Executes P c s r s' → c.rejects r = some e → Fails P s c e

/-- A funded call that is answered goes through. -/
theorem executes_of_answer {c : ContractCall} {o : σ} {r : Returned} (hf : Funded s c)
    (hcall : P.call s.outside s.self c = some (o, r)) :
    ∃ s', Executes P c s r s' := by
  obtain ⟨esdt, hd⟩ : ∃ esdt, s.esdt.debitAll (c.payments.map EsdtTokenPayment.booked) =
      some esdt :=
    Option.ne_none_iff_exists'.mp fun hnone => Ledger.debitAll_eq_none.mp hnone hf.2
  exact ⟨_, commits_execute.mpr ⟨hf.1, esdt, o, hd, hcall, rfl⟩⟩

theorem cause_of_execute {c : ContractCall} (h : Reverts (execute P c) s e) :
    (¬ Funded s c ∧ e = .insufficientFunds) ∨
      (Funded s c ∧ P.call s.outside s.self c = none ∧ e = .executionFailed) := by
  simp only [execute, reverts_bind, reverts_get, reverts_require, reverts_demand, reverts_set,
    reverts_pure, commits_get, commits_require, commits_demand, false_or] at h
  obtain ⟨_, _, ⟨rfl, rfl⟩, ⟨hegld, rfl⟩ | ⟨_, _, ⟨hegld, rfl⟩, ⟨hd, rfl⟩ | h⟩⟩ := h
  · exact Or.inl ⟨fun hf => hegld hf.1, rfl⟩
  · exact Or.inl ⟨fun hf => Ledger.debitAll_eq_none.mp hd hf.2, rfl⟩
  · obtain ⟨esdt, _, ⟨hd, rfl⟩, ⟨hcall, rfl⟩ | ⟨_, _, _, _, _, _, hfalse⟩⟩ := h
    · refine Or.inr ⟨⟨hegld, fun k => ?_⟩, hcall, rfl⟩
      rw [← Ledger.debitAll_eq_some.mp hd k]
      exact Nat.le_add_left _ _
    · exact absurd hfalse id

theorem reverts_execute_iff {c : ContractCall} :
    Reverts (execute P c) s e ↔ (¬ Funded s c ∧ e = .insufficientFunds) ∨
      (Funded s c ∧ P.call s.outside s.self c = none ∧ e = .executionFailed) := by
  refine ⟨cause_of_execute, fun h => ?_⟩
  rcases commits_or_reverts (execute P c) s with hc | hrev
  · -- what goes through is funded and answered
    obtain ⟨r, s', hx⟩ := hc
    have hx : Executes P c s r s' := hx
    rcases h with ⟨hunfunded, _⟩ | ⟨_, hnone, _⟩
    · exact absurd hx.funded hunfunded
    · cases hnone.symm.trans hx.answer
  · obtain ⟨e', hrev⟩ := hrev
    have hcause := cause_of_execute hrev
    rcases h with ⟨hunfunded, rfl⟩ | ⟨hf, hnone, rfl⟩
    · rcases hcause with ⟨_, rfl⟩ | ⟨hf, _⟩
      · exact hrev
      · exact absurd hf hunfunded
    · rcases hcause with ⟨hunfunded, _⟩ | ⟨_, _, rfl⟩
      · exact absurd hf hunfunded
      · exact hrev

/-- An action is a call and a reading of what came back. -/
theorem reverts_action {α : Type} {c : ContractCall} {f : Returned → Exec σ α}
    (hf : ∀ {r s e}, Reverts (f r) s e ↔ c.rejects r = some e) :
    Reverts (execute P c >>= f) s e ↔ Fails P s c e := by
  rw [reverts_bind, reverts_execute_iff]
  constructor
  · rintro ((⟨hunfunded, rfl⟩ | ⟨hfunded, hnone, rfl⟩) | ⟨r, s', hx, h⟩)
    · exact .unfunded hunfunded
    · exact .refused hfunded hnone
    · exact .rejected hx (hf.mp h)
  · intro h
    cases h with
    | unfunded hunfunded => exact Or.inl (Or.inl ⟨hunfunded, rfl⟩)
    | refused hfunded hnone => exact Or.inl (Or.inr ⟨hfunded, hnone, rfl⟩)
    | rejected hx h => exact Or.inr ⟨_, _, hx, hf.mpr h⟩

/-! ## The actions -/

theorem reverts_callPairSwap_iff {pair : Address} {input : EsdtTokenPayment}
    {tokenOut : TokenIdentifier} : Reverts (callPairSwap P pair input tokenOut) s e ↔
      Fails P s (.swapTokensFixedInput pair input tokenOut swapMinAmount) e := by
  refine reverts_action fun {r s e} => ?_
  rw [reverts_demand]
  exact undecoded_eq_some.symm

theorem reverts_callPairAddLiquidity_iff {args : PairAddLiqArgs} :
    Reverts (callPairAddLiquidity P args) s e ↔
      Fails P s (.addLiquidity args.pairAddress args.firstTokens args.secondTokens
        args.firstTokenMinAmountOut args.secondTokenMinAmountOut) e := by
  refine reverts_action fun {r s e} => ?_
  simp only [reverts_bind, reverts_demand, commits_demand, bigUintSub, reverts_require,
    commits_require, reverts_pure, ContractCall.rejects, overused]
  cases hr : threeOf r.result with
  | none => simp [eq_comm]
  | some x =>
      by_cases h₁ : x.2.1.amount ≤ args.firstTokens.amount
      · by_cases h₂ : x.2.2.amount ≤ args.secondTokens.amount
        · simp [h₁, h₂]
        · simp [h₁, h₂, Nat.lt_of_not_le h₂, eq_comm]
      · simp [h₁, Nat.lt_of_not_le h₁, eq_comm]

theorem reverts_callFarmStakingStake_iff {a : Address} {tokens : List EsdtTokenPayment} :
    Reverts (callFarmStakingStake P a tokens) s e ↔ Fails P s (.stakeFarm a tokens) e := by
  refine reverts_action fun {r s e} => ?_
  rw [reverts_demand]
  exact undecoded_eq_some.symm

theorem reverts_callEnterFarm_iff {farm : Address} {tokens : List EsdtTokenPayment} :
    Reverts (callEnterFarm P farm tokens) s e ↔ Fails P s (.enterFarm farm tokens) e := by
  refine reverts_action fun {r s e} => ?_
  simp only [reverts_bind, reverts_demand, commits_demand, reverts_pure, and_false, exists_false,
    or_false]
  exact undecoded_eq_some.symm

theorem reverts_getWegldTokenId_iff :
    Reverts (getWegldTokenId P) s e ↔ (∀ w, ¬ WegldAt P s w) ∧ e = .storageDecode := by
  simp only [getWegldTokenId, getEgldWrapperContractAddressMapper, reverts_bind, reverts_get,
    reverts_demand, reverts_pure, commits_bind, commits_get, commits_demand, commits_pure,
    and_false, exists_false, or_false, false_or]
  constructor
  · rintro (⟨_, _, ⟨rfl, rfl⟩, hd, rfl⟩ | ⟨_, _, ⟨_, _, ⟨rfl, rfl⟩, d, _, ⟨hd, rfl⟩, rfl, rfl⟩, ha,
      rfl⟩)
    · refine ⟨fun w hw => ?_, rfl⟩
      obtain ⟨d, a, hd', _⟩ := hw
      cases hd.symm.trans hd'
    · refine ⟨fun w hw => ?_, rfl⟩
      obtain ⟨d', a, hd', ha', _⟩ := hw
      cases hd.symm.trans hd'
      cases ha.symm.trans ha'
  · rintro ⟨hnone, rfl⟩
    cases hd : s.storage.smartAccountDeployerAddress with
    | none => exact Or.inl ⟨_, _, ⟨rfl, rfl⟩, hd, rfl⟩
    | some d =>
        cases ha : P.egldWrapperAddress s.outside d with
        | none => exact Or.inr ⟨_, _, ⟨_, _, ⟨rfl, rfl⟩, d, _, ⟨hd, rfl⟩, rfl, rfl⟩, ha, rfl⟩
        | some a => exact absurd ⟨d, a, hd, ha, rfl⟩ (hnone _)

theorem reverts_getFarmStakingAddress_iff {t : TokenIdentifier} {α : Type}
    {k : Address → Exec σ α} :
    Reverts (do
      let farmStakingMapper ← getFarmStakingAddressMapper P t
      let farmStakingAddress ← demand farmStakingMapper .storageDecode
      k farmStakingAddress) s e ↔
      ((∀ a, ¬ StakingAt P s t a) ∧ e = .storageDecode) ∨
        ∃ a, StakingAt P s t a ∧ Reverts (k a) s e := by
  simp only [getFarmStakingAddressMapper, reverts_bind, reverts_get, reverts_demand, reverts_pure,
    commits_bind, commits_get, commits_demand, commits_pure, and_false, exists_false, or_false,
    false_or]
  constructor
  · rintro (⟨_, _, ⟨rfl, rfl⟩, hd, rfl⟩ | ⟨_, _, ⟨_, _, ⟨rfl, rfl⟩, d, _, ⟨hd, rfl⟩, rfl, rfl⟩,
      ⟨ha, rfl⟩ | ⟨a, _, ⟨ha, rfl⟩, h⟩⟩)
    · refine Or.inl ⟨fun a ha => ?_, rfl⟩
      obtain ⟨d, hd', _⟩ := ha
      cases hd.symm.trans hd'
    · refine Or.inl ⟨fun a ha' => ?_, rfl⟩
      obtain ⟨d', hd', ha'⟩ := ha'
      cases hd.symm.trans hd'
      cases ha.symm.trans ha'
    · exact Or.inr ⟨a, ⟨d, hd, ha⟩, h⟩
  · rintro (⟨hnone, rfl⟩ | ⟨a, ⟨d, hd, ha⟩, h⟩)
    · cases hd : s.storage.smartAccountDeployerAddress with
      | none => exact Or.inl ⟨_, _, ⟨rfl, rfl⟩, hd, rfl⟩
      | some d =>
          refine Or.inr ⟨_, _, ⟨_, _, ⟨rfl, rfl⟩, d, _, ⟨hd, rfl⟩, rfl, rfl⟩, Or.inl ⟨?_, rfl⟩⟩
          exact Option.eq_none_iff_forall_ne_some.mpr fun a ha => hnone a ⟨d, hd, ha⟩
    · exact Or.inr ⟨_, _, ⟨_, _, ⟨rfl, rfl⟩, d, _, ⟨hd, rfl⟩, rfl, rfl⟩,
        Or.inr ⟨a, _, ⟨ha, rfl⟩, h⟩⟩

/-! ## The steps -/

/-- All steps start with the WEGLD lookup and a swap at a pair. -/
theorem reverts_swap_iff {α : Type} {pair : Address} {n : Nat} {tokenOut : TokenIdentifier}
    {k : TokenIdentifier → EsdtTokenPayment → Exec σ α} :
    Reverts (do
      let wegldTokenId ← getWegldTokenId P
      let out ← callPairSwap P pair ⟨wegldTokenId, 0, n⟩ tokenOut
      k wegldTokenId out) s e ↔
      ((∀ w, ¬ WegldAt P s w) ∧ e = .storageDecode) ∨ ∃ w, WegldAt P s w ∧
        (Fails P s (.swapTokensFixedInput pair ⟨w, 0, n⟩ tokenOut swapMinAmount) e ∨
          ∃ r out s₁, Executes P (.swapTokensFixedInput pair ⟨w, 0, n⟩ tokenOut swapMinAmount)
            s r s₁ ∧ r.result = [out] ∧ Reverts (k w out) s₁ e) := by
  simp only [reverts_bind, reverts_getWegldTokenId_iff, commits_getWegldTokenId,
    reverts_callPairSwap_iff, commits_callPairSwap]
  constructor
  · rintro (h | ⟨w, _, ⟨hw, rfl⟩, h | ⟨out, s₁, ⟨r, hx, hr⟩, h⟩⟩)
    · exact Or.inl h
    · exact Or.inr ⟨w, hw, Or.inl h⟩
    · exact Or.inr ⟨w, hw, Or.inr ⟨r, out, s₁, hx, hr, h⟩⟩
  · rintro (h | ⟨w, hw, h | ⟨r, out, s₁, hx, hr, h⟩⟩)
    · exact Or.inl h
    · exact Or.inr ⟨w, _, ⟨hw, rfl⟩, Or.inl h⟩
    · exact Or.inr ⟨w, _, ⟨hw, rfl⟩, Or.inr ⟨out, s₁, ⟨r, hx, hr⟩, h⟩⟩

/-- `Obstacle P A step s e`: the step, of a deposit of `A`, is undone from `s` with error `e`. -/
inductive Obstacle (P : Peers σ) (A : Nat) (step : Strategy) (s : State σ) : TxError → Prop
  | call {c : ContractCall} {t : State σ} {e : TxError} :
      Reaches P A step s c t → Fails P t c e → Obstacle P A step s e
  /-- no wrapper, so no WEGLD -/
  | wegld : (∀ w, ¬ WegldAt P s w) → Obstacle P A step s .storageDecode
  /-- a farm without a pair -/
  | unpaired {w : TokenIdentifier} : step.positionType = .farm → WegldAt P s w →
      P.pairContractAddress s.outside step.contractAddress = none →
      Obstacle P A step s .storageDecode
  /-- no staking address for the output of the swap -/
  | unstaked {w : TokenIdentifier} {r : Returned} {out : EsdtTokenPayment} {s₁ : State σ} :
      step.positionType = .staking → WegldAt P s w →
      Executes P (.swapTokensFixedInput step.contractAddress ⟨w, 0, investment A step⟩
        step.outputTokenId swapMinAmount) s r s₁ →
      r.result = [out] → (∀ a, ¬ StakingAt P s₁ step.outputTokenId a) →
      Obstacle P A step s .storageDecode

section Steps

variable {A : Nat} {step : Strategy}

theorem reverts_addedLiquidity_iff {pair : Address} :
    Reverts (addedLiquidity P A step pair) s e ↔
      ((∀ w, ¬ WegldAt P s w) ∧ e = .storageDecode) ∨ ∃ w, WegldAt P s w ∧
        (Fails P s (.swapTokensFixedInput pair ⟨w, 0, investment A step / 2⟩ step.outputTokenId
          swapMinAmount) e ∨
          ∃ r out s₁, Executes P (.swapTokensFixedInput pair ⟨w, 0, investment A step / 2⟩
            step.outputTokenId swapMinAmount) s r s₁ ∧ r.result = [out] ∧
            Fails P s₁ (.addLiquidity pair
              (sides P s₁.outside pair w (investment A step / 2) out).1
              (sides P s₁.outside pair w (investment A step / 2) out).2 1 1) e) := by
  unfold addedLiquidity provideLiquidity
  simp only [bind_assoc]
  rw [reverts_swap_iff]
  refine or_congr_right (exists_congr fun w => and_congr_right fun _ => or_congr_right ?_)
  refine exists_congr fun r => exists_congr fun out => exists_congr fun s₁ =>
    and_congr_right fun _ => and_congr_right fun _ => ?_
  simp only [reverts_bind, reverts_get, reverts_pure, commits_get, and_false, exists_false,
    or_false, false_or, reverts_callPairAddLiquidity_iff]
  constructor
  · rintro ⟨_, _, ⟨rfl, rfl⟩, h⟩
    exact h
  · intro h
    exact ⟨_, _, ⟨rfl, rfl⟩, h⟩

/-- The common part of LP and Farm steps. -/
theorem obstacle_of_addedLiquidity {pair : Address} (hpool : PoolAt P s step pair)
    (h : Reverts (addedLiquidity P A step pair) s e) : Obstacle P A step s e := by
  rcases reverts_addedLiquidity_iff.mp h with ⟨hnone, rfl⟩ | ⟨w, hw, h | ⟨r, out, s₁, hx, hr, h⟩⟩
  · exact .wegld hnone
  · exact .call (.swapHalf hpool hw) h
  · exact .call (.addLiquidity hpool hw hx hr) h

theorem obstacle_of_pool {pair : Address} (hpool : PoolAt P s step pair)
    (h : Reverts (processPosition P A step) s e) : Obstacle P A step s e := by
  unfold Reverts at h
  rw [hpool.run] at h
  rcases reverts_bind.mp h with h | ⟨lp, s₂, hadd, h⟩
  · exact obstacle_of_addedLiquidity hpool h
  · obtain ⟨w, hw, hl⟩ := commits_addedLiquidity.mp hadd
    unfold settle at h
    cases hpool with
    | lp ht _ =>
        rw [ht] at h
        exact absurd h reverts_saveUserPosition
    | farm ht hpair =>
        rw [ht] at h
        rcases reverts_bind.mp h with h | ⟨_, _, _, h⟩
        · exact .call (.enterFarm ht (.farm ht hpair) hw hl) (reverts_callEnterFarm_iff.mp h)
        · exact absurd h reverts_saveUserPosition

theorem obstacle_of_reverts (h : Reverts (processPosition P A step) s e) :
    Obstacle P A step s e := by
  cases ht : step.positionType with
  | esdt =>
      unfold processPosition at h
      rw [ht] at h
      rcases reverts_swap_iff.mp h with ⟨hnone, rfl⟩ | ⟨w, hw, h | ⟨_, _, _, _, _, h⟩⟩
      · exact .wegld hnone
      · exact .call (.swap (Or.inl ht) hw) h
      · exact absurd h reverts_saveUserPosition
  | staking =>
      unfold processPosition at h
      rw [ht] at h
      rcases reverts_swap_iff.mp h with ⟨hnone, rfl⟩ | ⟨w, hw, h | ⟨r, out, s₁, hx, hr, h⟩⟩
      · exact .wegld hnone
      · exact .call (.swap (Or.inr ht) hw) h
      · rcases reverts_getFarmStakingAddress_iff.mp h with ⟨hnone, rfl⟩ | ⟨a, ha, h⟩
        · exact .unstaked ht hw hx hr hnone
        · rcases reverts_bind.mp h with h | ⟨_, _, _, h⟩
          · exact .call (.stake ht hw hx hr ha) (reverts_callFarmStakingStake_iff.mp h)
          · exact absurd h reverts_saveUserPosition
  | lp => exact obstacle_of_pool (.lp ht rfl) h
  | farm =>
      cases hpair : P.pairContractAddress s.outside step.contractAddress with
      | some pair => exact obstacle_of_pool (.farm ht hpair) h
      | none =>
          unfold processPosition Reverts at h
          rw [ht] at h
          have hfarm : (processFarmPosition P A step).run s = .error e := h
          rw [processFarmPosition_unpaired hpair] at hfarm
          rcases reverts_bind.mp hfarm with hread | ⟨w, _, hread, hthrow⟩
          · obtain ⟨hnone, rfl⟩ := reverts_getWegldTokenId_iff.mp hread
            exact .wegld hnone
          · obtain ⟨hw, rfl⟩ := commits_getWegldTokenId.mp hread
            cases reverts_throw.mp hthrow
            exact .unpaired ht hw hpair

/-- Without WEGLD a step fails at once. -/
theorem reverts_of_no_wegld (hnone : ∀ w, ¬ WegldAt P s w) :
    Reverts (processPosition P A step) s .storageDecode := by
  have hread : Reverts (getWegldTokenId P) s .storageDecode :=
    reverts_getWegldTokenId_iff.mpr ⟨hnone, rfl⟩
  unfold processPosition
  cases step.positionType with
  | esdt => exact reverts_bind.mpr (Or.inl hread)
  | staking => exact reverts_bind.mpr (Or.inl hread)
  | lp => exact reverts_bind.mpr (Or.inl hread)
  | farm => exact reverts_bind.mpr (Or.inl hread)

/-- What fails at a call fails as a whole. -/
theorem reverts_of_call {c : ContractCall} (hreach : Reaches P A step s c t)
    (h : Fails P t c e) : Reverts (processPosition P A step) s e := by
  cases hreach with
  | swap ht hw =>
      unfold processPosition
      rcases ht with ht | ht
      · rw [ht]
        exact reverts_swap_iff.mpr (Or.inr ⟨_, hw, Or.inl h⟩)
      · rw [ht]
        exact reverts_swap_iff.mpr (Or.inr ⟨_, hw, Or.inl h⟩)
  | stake ht hw hx hr ha =>
      unfold processPosition
      rw [ht]
      refine reverts_swap_iff.mpr (Or.inr ⟨_, hw, Or.inr ⟨_, _, _, hx, hr, ?_⟩⟩)
      refine reverts_getFarmStakingAddress_iff.mpr (Or.inr ⟨_, ha, ?_⟩)
      exact reverts_bind.mpr (Or.inl (reverts_callFarmStakingStake_iff.mpr h))
  | swapHalf hpool hw =>
      unfold Reverts
      rw [hpool.run]
      refine reverts_bind.mpr (Or.inl ?_)
      exact reverts_addedLiquidity_iff.mpr (Or.inr ⟨_, hw, Or.inl h⟩)
  | addLiquidity hpool hw hx hr =>
      unfold Reverts
      rw [hpool.run]
      refine reverts_bind.mpr (Or.inl ?_)
      exact reverts_addedLiquidity_iff.mpr (Or.inr ⟨_, hw, Or.inr ⟨_, _, _, hx, hr, h⟩⟩)
  | enterFarm ht hpool hw hl =>
      unfold Reverts
      rw [hpool.run]
      refine reverts_bind.mpr (Or.inr ⟨_, _, commits_addedLiquidity.mpr ⟨_, hw, hl⟩, ?_⟩)
      unfold settle
      rw [ht]
      exact reverts_bind.mpr (Or.inl (reverts_callEnterFarm_iff.mpr h))

/-- A step is undone exactly at its obstacles. -/
theorem reverts_processPosition_iff :
    Reverts (processPosition P A step) s e ↔ Obstacle P A step s e := by
  refine ⟨obstacle_of_reverts, fun h => ?_⟩
  cases h with
  | call hreach h => exact reverts_of_call hreach h
  | wegld hnone => exact reverts_of_no_wegld hnone
  | @unpaired w ht hw hpair =>
      unfold processPosition Reverts
      rw [ht]
      show (processFarmPosition P A step).run s = .error .storageDecode
      rw [processFarmPosition_unpaired hpair]
      exact reverts_bind.mpr (Or.inr ⟨w, s, commits_getWegldTokenId.mpr ⟨hw, rfl⟩, rfl⟩)
  | unstaked ht hw hx hr hnone =>
      unfold processPosition
      rw [ht]
      refine reverts_swap_iff.mpr (Or.inr ⟨_, hw, Or.inr ⟨_, _, _, hx, hr, ?_⟩⟩)
      exact reverts_getFarmStakingAddress_iff.mpr (Or.inl ⟨hnone, rfl⟩)

end Steps

/-! ## The whole call -/

theorem wegldAt_iff : (∃ w, WegldAt P s w) ↔ ∃ deployerSc wrapper,
    s.storage.smartAccountDeployerAddress = some deployerSc ∧
      P.egldWrapperAddress s.outside deployerSc = some wrapper := by
  constructor
  · rintro ⟨w, d, a, hd, ha, _⟩
    exact ⟨d, a, hd, ha⟩
  · rintro ⟨d, a, hd, ha⟩
    exact ⟨_, d, a, hd, ha, rfl⟩

theorem reverts_callWrapEgld_iff {amount : Nat} :
    Reverts (callWrapEgld P amount) s e ↔ ((∀ w, ¬ WegldAt P s w) ∧ e = .storageDecode) ∨
      ∃ deployerSc wrapper, s.storage.smartAccountDeployerAddress = some deployerSc ∧
        P.egldWrapperAddress s.outside deployerSc = some wrapper ∧
        Fails P s (.wrapEgld wrapper amount) e := by
  have haction : ∀ wrapper, Reverts (execute P (.wrapEgld wrapper amount) >>= fun returned =>
      demand (oneOf returned.transfers) (.require "wrap_egld should output only 1 payment")) s e ↔
      Fails P s (.wrapEgld wrapper amount) e := by
    intro wrapper
    refine reverts_action fun {r s e} => ?_
    rw [reverts_demand]
    exact undecoded_eq_some.symm
  rw [← not_exists, wegldAt_iff]
  cases hd : s.storage.smartAccountDeployerAddress with
  | none =>
      have hrev : Reverts (callWrapEgld P amount) s .storageDecode := by
        unfold callWrapEgld getEgldWrapperContractAddressMapper
        simp [hd]
      constructor
      · intro h
        cases h.symm.trans hrev
        exact Or.inl ⟨by simp, rfl⟩
      · rintro (⟨_, rfl⟩ | ⟨d, _, hd', _⟩)
        · exact hrev
        · cases hd'
  | some d =>
      have hread : Commits (getEgldWrapperContractAddressMapper P) s
          (P.egldWrapperAddress s.outside d) s := by
        simp [getEgldWrapperContractAddressMapper, hd]
      have hrun : (callWrapEgld P amount).run s = _ := run_bind_of_commits hread
      unfold Reverts
      rw [hrun]
      cases ha : P.egldWrapperAddress s.outside d with
      | none =>
          constructor
          · intro h
            cases h
            exact Or.inl ⟨by simp [ha], rfl⟩
          · rintro (⟨_, rfl⟩ | ⟨d', _, hd', ha', _⟩)
            · rfl
            · cases hd'
              cases ha.symm.trans ha'
      | some a =>
          refine (haction a).trans ?_
          constructor
          · intro h
            exact Or.inr ⟨d, a, rfl, ha, h⟩
          · rintro (⟨hnone, _⟩ | ⟨d', a', hd', ha', h⟩)
            · exact absurd ⟨d, a, rfl, ha⟩ hnone
            · cases hd'
              cases ha.symm.trans ha'
              exact h

/-- `setupSmartAccount` from `s` gets to the step in `m`. -/
inductive Arrives (P : Peers σ) (A : Nat) (r : UInt64) (L : List Strategy) (s : State σ)
    (step : Strategy) (m : State σ) : Prop
  | mk {wrapped : EsdtTokenPayment} {s₁ : State σ} {done rest : List Strategy} :
      Commits (callWrapEgld P A) (s.receive A) wrapped s₁ →
      WegldAt P s₁ wrapped.tokenIdentifier →
      L = done ++ step :: rest → ProcessedAll P A done (s₁.storeStrategy r L) m →
      Arrives P A r L s step m

theorem Arrives.makes {A : Nat} {r : UInt64} {L : List Strategy} {step : Strategy} {m : State σ}
    {c : ContractCall} (h : Arrives P A r L s step m) (hreach : Reaches P A step m c t) :
    Makes P A r L s c t := by
  cases h with
  | mk hwrap hw hL hdone => exact .step hwrap hw hL hdone hreach

/-- `Undone P caller A r L s e`: `setupSmartAccount` is undone from `s` with error `e`. -/
inductive Undone (P : Peers σ) (caller : Address) (A : Nat) (r : UInt64) (L : List Strategy)
    (s : State σ) : TxError → Prop
  | owner : caller ≠ s.owner → Undone P caller A r L s .notOwner
  | wrapper : caller = s.owner → (∀ w, ¬ WegldAt P s w) → Undone P caller A r L s .storageDecode
  | wrap {deployerSc wrapper : Address} {e : TxError} : caller = s.owner →
      s.storage.smartAccountDeployerAddress = some deployerSc →
      P.egldWrapperAddress s.outside deployerSc = some wrapper →
      Fails P (s.receive A) (.wrapEgld wrapper A) e → Undone P caller A r L s e
  | wegld {wrapped : EsdtTokenPayment} {s₁ : State σ} : caller = s.owner →
      Commits (callWrapEgld P A) (s.receive A) wrapped s₁ → (∀ w, ¬ WegldAt P s₁ w) →
      Undone P caller A r L s .storageDecode
  | token {wrapped : EsdtTokenPayment} {s₁ : State σ} {w : TokenIdentifier} : caller = s.owner →
      Commits (callWrapEgld P A) (s.receive A) wrapped s₁ → WegldAt P s₁ w →
      wrapped.tokenIdentifier ≠ w → Undone P caller A r L s (.require "Invalid base token")
  | arguments {wrapped : EsdtTokenPayment} {s₁ : State σ} : caller = s.owner →
      Commits (callWrapEgld P A) (s.receive A) wrapped s₁ →
      WegldAt P s₁ wrapped.tokenIdentifier → ¬ (L ≠ [] ∧ r ≤ maxRiskTolerance) →
      Undone P caller A r L s (.require "No user strategy found")
  | step {step : Strategy} {m : State σ} {e : TxError} : caller = s.owner →
      L ≠ [] → r ≤ maxRiskTolerance → Arrives P A r L s step m → Obstacle P A step m e →
      Undone P caller A r L s e

theorem undone_of_reverts {caller : Address} {A : Nat} {r : UInt64} {L : List Strategy}
    (h : Reverts (setupSmartAccount P caller A r L) s e) : Undone P caller A r L s e := by
  simp only [setupSmartAccount, receiveEgld, onlyOwner, reverts_bind, reverts_modify,
    commits_modify, reverts_get, commits_get, reverts_require, commits_require, commits_bind,
    commits_getWegldTokenId, reverts_getWegldTokenId_iff, false_or] at h
  obtain ⟨_, _, rfl, h⟩ := h
  rcases h with ⟨_, _, ⟨rfl, rfl⟩, howner, rfl⟩ | ⟨_, _, ⟨_, _, ⟨rfl, rfl⟩, howner, rfl⟩, h⟩
  · exact .owner howner
  · rcases h with h | ⟨wrapped, s₁, hwrap, ⟨hnone, rfl⟩ | ⟨w, _, ⟨hw, rfl⟩, h⟩⟩
    · rcases reverts_callWrapEgld_iff.mp h with ⟨hnone, rfl⟩ | ⟨d, a, hd, ha, hfails⟩
      · exact .wrapper howner hnone
      · exact .wrap howner hd ha hfails
    · exact .wegld howner hwrap hnone
    · rcases h with ⟨htoken, rfl⟩ | ⟨_, _, ⟨htoken, rfl⟩, h⟩
      · exact .token howner hwrap hw htoken
      · rw [← htoken] at hw
        rcases h with ⟨hL, rfl⟩ | ⟨_, _, ⟨hL, rfl⟩, ⟨hr, rfl⟩ | ⟨_, _, ⟨hr, rfl⟩, _, _, rfl, h⟩⟩
        · exact .arguments howner hwrap hw fun hargs => hL hargs.1
        · exact .arguments howner hwrap hw fun hargs => hr hargs.2
        · obtain ⟨done, step, rest, m, hsplit, hdone, hstep⟩ := split_of_reverts_forM h
          exact .step howner hL hr (.mk hwrap hw hsplit (processedAll_of_commits hdone))
            (obstacle_of_reverts hstep)

section Whole

variable {caller : Address} {A : Nat} {r : UInt64} {L : List Strategy} {w : TokenIdentifier}

/-- The run up to the wrapper, and from there. -/
theorem reverts_of_owner (howner : caller = s.owner)
    (h : Reverts (callWrapEgld P A >>= fun wrappedPayment => do
      let wegldTokenId ← getWegldTokenId P
      require (wrappedPayment.tokenIdentifier = wegldTokenId) (.require "Invalid base token")
      require (L ≠ []) (.require "No user strategy found")
      require (r ≤ maxRiskTolerance) (.require "No user strategy found")
      modify (State.storeStrategy · r L)
      forM L (processPosition P A)) (s.receive A) e) :
    Reverts (setupSmartAccount P caller A r L) s e := by
  have hreceive : Commits (receiveEgld A) s () (s.receive A) := commits_modify.mpr rfl
  have hguard : Commits (onlyOwner caller) (s.receive A) () (s.receive A) := by
    simp only [onlyOwner, commits_bind, commits_get, commits_require]
    exact ⟨_, _, ⟨rfl, rfl⟩, howner, rfl⟩
  unfold setupSmartAccount
  exact reverts_bind.mpr (Or.inr ⟨(), _, hreceive, reverts_bind.mpr (Or.inr ⟨(), _, hguard, h⟩)⟩)

/-- A setup is undone exactly in these ways. -/
theorem reverts_setupSmartAccount_iff :
    Reverts (setupSmartAccount P caller A r L) s e ↔ Undone P caller A r L s e := by
  refine ⟨undone_of_reverts, fun h => ?_⟩
  cases h with
  | owner howner =>
      have hguard : Reverts (onlyOwner caller) (s.receive A) .notOwner :=
        reverts_bind.mpr (Or.inr ⟨_, _, commits_get.mpr ⟨rfl, rfl⟩,
          reverts_require.mpr ⟨howner, rfl⟩⟩)
      unfold setupSmartAccount
      exact reverts_bind.mpr (Or.inr ⟨(), _, commits_modify.mpr rfl,
        reverts_bind.mpr (Or.inl hguard)⟩)
  | wrapper howner hnone =>
      refine reverts_of_owner howner (reverts_bind.mpr (Or.inl ?_))
      exact reverts_callWrapEgld_iff.mpr (Or.inl ⟨hnone, rfl⟩)
  | wrap howner hd ha hfails =>
      refine reverts_of_owner howner (reverts_bind.mpr (Or.inl ?_))
      exact reverts_callWrapEgld_iff.mpr (Or.inr ⟨_, _, hd, ha, hfails⟩)
  | wegld howner hwrap hnone =>
      refine reverts_of_owner howner (reverts_bind.mpr (Or.inr ⟨_, _, hwrap, ?_⟩))
      exact reverts_bind.mpr (Or.inl (reverts_getWegldTokenId_iff.mpr ⟨hnone, rfl⟩))
  | token howner hwrap hw htoken =>
      refine reverts_of_owner howner (reverts_bind.mpr (Or.inr ⟨_, _, hwrap, ?_⟩))
      refine reverts_bind.mpr (Or.inr ⟨_, _, commits_getWegldTokenId.mpr ⟨hw, rfl⟩, ?_⟩)
      exact reverts_bind.mpr (Or.inl (reverts_require.mpr ⟨htoken, rfl⟩))
  | @arguments wrapped s₁ howner hwrap hw hargs =>
      refine reverts_of_owner howner (reverts_bind.mpr (Or.inr ⟨_, _, hwrap, ?_⟩))
      refine reverts_bind.mpr (Or.inr ⟨_, _, commits_getWegldTokenId.mpr ⟨hw, rfl⟩, ?_⟩)
      refine reverts_bind.mpr (Or.inr ⟨(), s₁, commits_require.mpr ⟨rfl, rfl⟩, ?_⟩)
      by_cases hL : L ≠ []
      · refine reverts_bind.mpr (Or.inr ⟨(), s₁, commits_require.mpr ⟨hL, rfl⟩, ?_⟩)
        have hr : ¬ r ≤ maxRiskTolerance := fun hr => hargs ⟨hL, hr⟩
        exact reverts_bind.mpr (Or.inl (reverts_require.mpr ⟨hr, rfl⟩))
      · exact reverts_bind.mpr (Or.inl (reverts_require.mpr ⟨hL, rfl⟩))
  | @step step m _ howner hL hr harrives hobstacle =>
      cases harrives with
      | @mk wrapped s₁ done rest hwrap hw hsplit hdone =>
          refine reverts_of_owner howner (reverts_bind.mpr (Or.inr ⟨_, _, hwrap, ?_⟩))
          refine reverts_bind.mpr (Or.inr ⟨_, _, commits_getWegldTokenId.mpr ⟨hw, rfl⟩, ?_⟩)
          refine reverts_bind.mpr (Or.inr ⟨(), s₁, commits_require.mpr ⟨rfl, rfl⟩, ?_⟩)
          refine reverts_bind.mpr (Or.inr ⟨(), s₁, commits_require.mpr ⟨hL, rfl⟩, ?_⟩)
          refine reverts_bind.mpr (Or.inr ⟨(), s₁, commits_require.mpr ⟨hr, rfl⟩, ?_⟩)
          refine reverts_bind.mpr (Or.inr ⟨⟨⟩, _, commits_modify.mpr rfl, ?_⟩)
          rw [hsplit] at hdone ⊢
          exact reverts_forM_of_split (reverts_processPosition_iff.mpr hobstacle)
            (commits_of_processedAll hdone)

/-! ## When a setup goes through -/

/-- The third party called by `c` from `t` answers, with values the account can use. -/
def Answered (P : Peers σ) (t : State σ) (c : ContractCall) : Prop :=
  ∃ o ret, P.call t.outside t.self c = some (o, ret) ∧ c.rejects ret = none

/-- The addresses that a step from `m` looks up are there: the pair of a farm, and the
staking contract of the token that the swap gave. -/
structure Found (P : Peers σ) (A : Nat) (step : Strategy) (m : State σ) : Prop where
  pair : step.positionType = .farm →
    ∃ a, P.pairContractAddress m.outside step.contractAddress = some a
  staking : step.positionType = .staking → ∀ w ret out s₁, WegldAt P m w →
    Executes P (.swapTokensFixedInput step.contractAddress ⟨w, 0, investment A step⟩
      step.outputTokenId swapMinAmount) m ret s₁ →
    ret.result = [out] → ∃ a, StakingAt P s₁ step.outputTokenId a

theorem not_fails_of_answered {c : ContractCall} (hf : Funded t c) (h : Answered P t c) :
    ¬ Fails P t c e := by
  intro hfails
  obtain ⟨o, ret, hcall, hok⟩ := h
  cases hfails with
  | unfunded hunfunded => exact hunfunded hf
  | refused _ hnone => cases hnone.symm.trans hcall
  | rejected hx hrejects =>
      cases hx.answer.symm.trans hcall
      cases hrejects.symm.trans hok

theorem fails_of_not_answered {c : ContractCall} (hf : Funded t c) (h : ¬ Answered P t c) :
    ∃ e, Fails P t c e := by
  cases hcall : P.call t.outside t.self c with
  | none => exact ⟨_, .refused hf hcall⟩
  | some x =>
      obtain ⟨s', hx⟩ := executes_of_answer hf hcall
      cases hrejects : c.rejects x.2 with
      | none => exact absurd ⟨x.1, x.2, hcall, hrejects⟩ h
      | some e => exact ⟨e, .rejected hx hrejects⟩

/-- Percentages that make up the whole are not of no steps. -/
theorem ne_nil_of_whole
    (hsum : (L.map fun step => step.percentage.toNat).sum = maxPercentage.toNat) : L ≠ [] := by
  rintro rfl
  cases hsum

/-- A step that the call gets to finds its part of the WEGLD in reserve. -/
theorem Arrives.reserve (hP : Honest P) {step : Strategy} {m : State σ}
    (h : Arrives P A r L s step m) (hw : WegldAt P s w)
    (hsum : (L.map fun step => step.percentage.toNat).sum = maxPercentage.toNat) :
    WegldAt P m w ∧ spent A step ≤ m.esdt (w, 0) := by
  cases h with
  | @mk wrapped s₁ done rest hwrap hw₁ hL hdone =>
      obtain ⟨hwegld, hreserve⟩ := reserve_of_wrap hP hwrap hw₁ hw
      obtain ⟨hm, hleft⟩ := hdone.reserve hP (w := w) hwegld
      have htotal := (spentAll_whole A hsum).1
      rw [hL, spentAll_append, spentAll_cons] at htotal
      have hstart : (s₁.storeStrategy r L).esdt (w, 0) = s₁.esdt (w, 0) := rfl
      exact ⟨hm, by omega⟩

/-- It is a step of the strategy, and the deployer is still the one of the account. -/
theorem Arrives.frame {step : Strategy} {m : State σ} (h : Arrives P A r L s step m) :
    step ∈ L ∧ m.storage.smartAccountDeployerAddress = s.storage.smartAccountDeployerAddress := by
  cases h with
  | @mk wrapped s₁ done rest hwrap _ hL hdone =>
      obtain ⟨d, wrapper, ret, _, _, hx, _⟩ := commits_callWrapEgld.mp hwrap
      obtain ⟨ps, ho, _⟩ := hdone.opens
      constructor
      · rw [hL]
        exact List.mem_append_right _ List.mem_cons_self
      · rw [ho.storage]
        show s₁.storage.smartAccountDeployerAddress = _
        rw [hx.frame.2.2.1]
        rfl

/-- Every call of an allocation is funded. -/
theorem Makes.funded (hP : Honest P) (hT : ∀ pair, Trades P pair) {c : ContractCall}
    (h : Makes P A r L s c t) (hw : WegldAt P s w)
    (hsum : (L.map fun step => step.percentage.toNat).sum = maxPercentage.toNat) : Funded t c :=
  ⟨h.egld, fun _ => h.covered hP hw hsum (Or.inr hT)⟩

/-- What the wrapper sends back is one payment of WEGLD. -/
theorem wrapped_of_commits (hP : Honest P) {wrapped : EsdtTokenPayment} {s₁ : State σ}
    (h : Commits (callWrapEgld P A) (s.receive A) wrapped s₁) (hw : WegldAt P s w) :
    wrapped.tokenIdentifier = w ∧ WegldAt P s₁ w := by
  obtain ⟨d, wrapper, ret, hd, ha, hx, hret⟩ := commits_callWrapEgld.mp h
  have hwegld : WegldAt P s₁ w := hx.wegldAt hP.fixed (s := s.receive A) hw
  refine ⟨?_, hwegld⟩
  have hmint := hP.wrap hx.answer
  rw [hret] at hmint
  rw [List.singleton_inj.mp hmint]
  have hhere : WegldAt P s (P.wrappedEgldTokenId s.outside wrapper) := ⟨d, wrapper, hd, ha, rfl⟩
  exact ((hP.fixed _ _ _ _ _ hx.answer).2 wrapper).trans (hhere.unique hw)

/-- An obstacle of a step that is in funds is a call without an answer or a lookup that finds
nothing. -/
theorem Obstacle.blame (hP : Honest P) (hT : ∀ pair, Trades P pair) {step : Strategy}
    {m : State σ} (h : Obstacle P A step m e) (hw : WegldAt P m w)
    (hres : spent A step ≤ m.esdt (w, 0)) :
    (∃ c t, Reaches P A step m c t ∧ Funded t c ∧ Fails P t c e) ∨
      (¬ Found P A step m ∧ e = .storageDecode) := by
  cases h with
  | call hreach hfails => exact Or.inl ⟨_, _, hreach, hreach.funded hP hT hw hres, hfails⟩
  | wegld hnone => exact absurd hw (hnone w)
  | unpaired ht _ hpair =>
      refine Or.inr ⟨fun hfound => ?_, rfl⟩
      obtain ⟨a, ha⟩ := hfound.pair ht
      cases hpair.symm.trans ha
  | unstaked ht hw' hx hr hnone =>
      refine Or.inr ⟨fun hfound => ?_, rfl⟩
      obtain ⟨a, ha⟩ := hfound.staking ht _ _ _ _ hw' hx hr
      exact hnone a ha

/-- What undoes a setup that has passed its guards. -/
theorem Undone.blame (hP : Honest P) (hT : ∀ pair, Trades P pair)
    (h : Undone P caller A r L s e) (howner : caller = s.owner) (hr : r ≤ maxRiskTolerance)
    (hw : WegldAt P s w)
    (hsum : (L.map fun step => step.percentage.toNat).sum = maxPercentage.toNat) :
    (∃ c t, Makes P A r L s c t ∧ Funded t c ∧ Fails P t c e) ∨
      ∃ step m, Arrives P A r L s step m ∧ ¬ Found P A step m ∧ e = .storageDecode := by
  cases h with
  | owner hne => exact absurd howner hne
  | wrapper _ hnone => exact absurd hw (hnone w)
  | wrap _ hd ha hfails =>
      have hmakes : Makes P A r L s _ _ := .wrap hd ha
      exact Or.inl ⟨_, _, hmakes, hmakes.funded hP hT hw hsum, hfails⟩
  | wegld _ hwrap hnone => exact absurd (wrapped_of_commits hP hwrap hw).2 (hnone w)
  | token _ hwrap hw' hne =>
      obtain ⟨htoken, hwegld⟩ := wrapped_of_commits hP hwrap hw
      exact absurd (htoken.trans (hwegld.unique hw')) hne
  | arguments _ _ _ hargs => exact absurd ⟨ne_nil_of_whole hsum, hr⟩ hargs
  | step _ _ _ harrives hobstacle =>
      obtain ⟨hm, hres⟩ := harrives.reserve hP hw hsum
      rcases hobstacle.blame hP hT hm hres with ⟨c, t, hreach, hf, hfails⟩ | ⟨hfound, he⟩
      · exact Or.inl ⟨c, t, harrives.makes hreach, hf, hfails⟩
      · exact Or.inr ⟨_, _, harrives, hfound, he⟩

/-- The errors of a caller: the wrapper has its own. -/
theorem rejects_cases {c : ContractCall} {ret : Returned} (h : c.rejects ret = some e) :
    (oneOf ret.transfers = none ∧ ∃ wrapper n, c = .wrapEgld wrapper n) ∨
      e = .resultDecode ∨ e = .subtraction := by
  cases c with
  | wrapEgld wrapper n => exact Or.inl ⟨(undecoded_eq_some.mp h).1, wrapper, n, rfl⟩
  | swapTokensFixedInput _ _ _ _ => exact Or.inr (Or.inl (undecoded_eq_some.mp h).2)
  | addLiquidity _ _ _ _ _ => exact Or.inr (overused_cases h)
  | stakeFarm _ _ => exact Or.inr (Or.inl (undecoded_eq_some.mp h).2)
  | enterFarm _ _ => exact Or.inr (Or.inl (undecoded_eq_some.mp h).2)

/-- The error of a call that was in funds names the third party. -/
theorem Fails.error (hP : Honest P) {c : ContractCall} (hf : Funded t c) (h : Fails P t c e) :
    e = .executionFailed ∨ e = .resultDecode ∨ e = .subtraction := by
  cases h with
  | unfunded hunfunded => exact absurd hf hunfunded
  | refused _ _ => exact Or.inl rfl
  | rejected hx hrejects =>
      rcases rejects_cases hrejects with ⟨hnone, wrapper, n, rfl⟩ | herror
      · rw [hP.wrap hx.answer] at hnone
        cases hnone
      · exact Or.inr herror

/-- A setup that is answered everywhere goes through, and only such a setup. -/
theorem commits_iff_answered (hP : Honest P) (hT : ∀ pair, Trades P pair) (hw : WegldAt P s w)
    (hsum : (L.map fun step => step.percentage.toNat).sum = maxPercentage.toNat) :
    (∃ s', Commits (setupSmartAccount P caller A r L) s () s') ↔
      caller = s.owner ∧ r ≤ maxRiskTolerance ∧
      (∀ c t, Makes P A r L s c t → Answered P t c) ∧
      ∀ step m, Arrives P A r L s step m → Found P A step m := by
  constructor
  · intro h
    obtain ⟨s', hc⟩ := h
    have hnot : ∀ e, ¬ Undone P caller A r L s e := fun e hundone =>
      not_commits_of_reverts (reverts_setupSmartAccount_iff.mpr hundone) hc
    obtain ⟨howner, _, _, _, _, _, hL, hr, _⟩ := setUp_of_commits hc
    refine ⟨howner, hr, fun c t hmakes => ?_, fun step m harrives => ?_⟩
    · by_contra hanswer
      obtain ⟨e, hfails⟩ := fails_of_not_answered (hmakes.funded hP hT hw hsum) hanswer
      cases hmakes with
      | wrap hd ha => exact hnot e (.wrap howner hd ha hfails)
      | step hwrap hw₁ hsplit hdone hreach =>
          exact hnot e (.step howner hL hr (.mk hwrap hw₁ hsplit hdone) (.call hreach hfails))
    · obtain ⟨hm, _⟩ := harrives.reserve hP hw hsum
      constructor
      · intro ht
        refine Option.ne_none_iff_exists'.mp fun hnone => ?_
        exact hnot _ (.step howner hL hr harrives (.unpaired ht hm hnone))
      · intro ht w' ret out s₁ hw' hx hret
        by_contra hnone
        exact hnot _ (.step howner hL hr harrives
          (.unstaked ht hw' hx hret fun a ha => hnone ⟨a, ha⟩))
  · intro h
    obtain ⟨howner, hr, hcalls, hfound⟩ := h
    rcases commits_or_reverts (setupSmartAccount P caller A r L) s with hc | hrev
    · obtain ⟨_, s', hc⟩ := hc
      exact ⟨s', hc⟩
    · obtain ⟨e, hrev⟩ := hrev
      exfalso
      rcases (undone_of_reverts hrev).blame hP hT howner hr hw hsum with
        ⟨c, t, hmakes, hf, hfails⟩ | ⟨step, m, harrives, hnot, _⟩
      · exact not_fails_of_answered hf (hcalls c t hmakes) hfails
      · exact hnot (hfound step m harrives)

/-- The errors that third parties and empty cells cause. -/
def TxError.Foreign (e : TxError) : Prop :=
  e = .executionFailed ∨ e = .resultDecode ∨ e = .subtraction ∨ e = .storageDecode

theorem foreign_of_reverts (hP : Honest P) (hT : ∀ pair, Trades P pair) (hw : WegldAt P s w)
    (hsum : (L.map fun step => step.percentage.toNat).sum = maxPercentage.toNat)
    (howner : caller = s.owner) (hr : r ≤ maxRiskTolerance)
    (h : Reverts (setupSmartAccount P caller A r L) s e) : TxError.Foreign e := by
  rcases (undone_of_reverts h).blame hP hT howner hr hw hsum with
    ⟨c, t, _, hf, hfails⟩ | ⟨_, _, _, _, rfl⟩
  · rcases hfails.error hP hf with he | he | he
    · exact Or.inl he
    · exact Or.inr (Or.inl he)
    · exact Or.inr (Or.inr (Or.inl he))
  · exact Or.inr (Or.inr (Or.inr rfl))

/-- **Only third parties can keep an allocation from going through.**  Take a wrapper and
pairs that mint and send what they say (`Honest`), each pair trading its two tokens
(`Trades`), and an account that can read the WEGLD identifier (`WegldAt`).  For percentages
that make up the whole, a setup by the owner with a risk tolerance in range goes through if
and only if each call it gets to is answered with values it can use, and each step it gets to
finds the addresses it looks up.  When it is undone, the error says so: a refused call, an
answer that cannot be used, or an empty cell, never a lack of funds or the wrong base token. -/
theorem setup_goes_through_iff (hP : Honest P) (hT : ∀ pair, Trades P pair) (caller : Address)
    (A : Nat) (r : UInt64) {L : List Strategy} (hw : WegldAt P s w)
    (hsum : (L.map fun step => step.percentage.toNat).sum = maxPercentage.toNat) :
    ((∃ s', Commits (setupSmartAccount P caller A r L) s () s') ↔
      caller = s.owner ∧ r ≤ maxRiskTolerance ∧
      (∀ c t, Makes P A r L s c t → Answered P t c) ∧
      ∀ step m, Arrives P A r L s step m → Found P A step m) ∧
    (caller = s.owner → r ≤ maxRiskTolerance →
      ∀ e, Reverts (setupSmartAccount P caller A r L) s e → TxError.Foreign e) :=
  ⟨commits_iff_answered hP hT hw hsum,
    fun howner hr _ h => foreign_of_reverts hP hT hw hsum howner hr h⟩

/-- The sample third parties answer every call of an allocation of one step of each kind. -/
theorem setup_goes_through_iff_sample :
    (∃ s', Commits (setupSmartAccount (tradingPeers Unit) 0xD 10003 1 sampleAllocation)
      sampleState () s') ∧
    ∀ c t, Makes (tradingPeers Unit) 10003 1 sampleAllocation sampleState c t →
      Answered (tradingPeers Unit) t c := by
  have h : check (setupSmartAccount (tradingPeers Unit) 0xD 10003 1 sampleAllocation) sampleState
      (fun _ => true) = true := by decide +kernel
  obtain ⟨s', hs, _⟩ := exists_of_check h
  obtain ⟨hiff, _⟩ := setup_goes_through_iff tradingPeers_honest tradingPeers_trades 0xD 10003 1
    (L := sampleAllocation) tradingPeers_wegldAt (by decide)
  obtain ⟨_, _, hcalls, _⟩ := hiff.mp ⟨s', hs⟩
  exact ⟨⟨s', hs⟩, hcalls⟩

end Whole

end SmartAccount

end PortfolioPilot
