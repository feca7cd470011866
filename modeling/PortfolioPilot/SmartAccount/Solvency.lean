/-
# `SmartAccount.Solvency` — every call of an allocation is covered

The amounts of all steps are computed from the deposit, none from what is left of
it, so that a call is covered is not local to its step: the steps before must have
left enough.  What carries the induction is the reserve: a step, whatever its pair
gives it, uses up at most `spent A step` of the WEGLD (`Processed.reserve`), and
percentages that make up the whole have `spentAll A L ≤ A`.

A call is looked at where it is made and not where it has succeeded, as `Reaches`
for one step and `Makes` for the whole of `setupSmartAccount`.  That these are all
the calls is `passes_of_commits` for the ones in the log, and `unfunded_of_reverts`
for the one a reverting run ends with.
-/
import PortfolioPilot.SmartAccount.Accounting
import PortfolioPilot.SmartAccount.Routing

namespace PortfolioPilot

namespace SmartAccount

open Revert

variable {σ : Type} {P : Peers σ} {s s' t : State σ}

/-! ## What solvency rests on -/

/-- The wrapper mints WEGLD 1:1, and a pair sends what it says it gives out.  It may send
more, and nothing is said of what staking and farming give. -/
structure Honest (P : Peers σ) : Prop where
  fixed : WegldFixed P
  wrap : ∀ {o o' : σ} {a wrapper : Address} {n : Nat} {r : Returned},
    P.call o a (.wrapEgld wrapper n) = some (o', r) →
      r.transfers = [⟨P.wrappedEgldTokenId o' wrapper, 0, n⟩]
  swap : ∀ {o o' : σ} {a pair : Address} {input out : EsdtTokenPayment} {t : TokenIdentifier}
    {m : Nat} {r : Returned}, P.call o a (.swapTokensFixedInput pair input t m) = some (o', r) →
      r.result = [out] → ∀ k, out.amountOf k ≤ totalOf r.transfers k
  add_liquidity : ∀ {o o' : σ} {a pair : Address} {first second lp used₁ used₂ : EsdtTokenPayment}
    {m n : Nat} {r : Returned}, P.call o a (.addLiquidity pair first second m n) = some (o', r) →
      r.result = [lp, used₁, used₂] → ∀ k, lp.amountOf k ≤ totalOf r.transfers k

theorem Standard.honest (hP : Standard P) : Honest P where
  fixed := hP.fixed
  wrap h := hP.wrap h
  swap h hr k := by
    rw [hP.swap h hr, totalOf_cons]
    exact Nat.le_add_right _ _
  add_liquidity h hr k := by
    rw [hP.add_liquidity h hr k, totalOf_cons]
    exact Nat.le_add_right _ _

/-- The account in `t` holds what the call `c` sends. -/
def Funded (t : State σ) (c : ContractCall) : Prop :=
  c.egld ≤ t.egld ∧ ∀ k, totalOf c.payments k ≤ t.esdt k

theorem Executes.funded {c : ContractCall} {r : Returned} (h : Executes P c s r s') :
    Funded s c := by
  obtain ⟨hegld, esdt, _, hd, _⟩ := commits_execute.mp h
  refine ⟨hegld, fun k => ?_⟩
  rw [← Ledger.debitAll_eq_some.mp hd k]
  exact Nat.le_add_left _ _

/-- A call that is refused for want of funds is one that is not funded. -/
theorem reverts_execute {c : ContractCall} (h : Reverts (execute P c) s .insufficientFunds) :
    ¬ Funded s c := by
  intro hf
  simp only [execute, reverts_bind, reverts_get, reverts_require, reverts_demand, reverts_set,
    reverts_pure, commits_get, commits_require, commits_demand, false_or] at h
  obtain ⟨_, _, ⟨rfl, rfl⟩, ⟨hegld, _⟩ | ⟨_, _, ⟨_, rfl⟩, ⟨hd, _⟩ | h⟩⟩ := h
  · exact hegld hf.1
  · exact Ledger.debitAll_eq_none.mp hd hf.2
  · obtain ⟨_, _, _, ⟨_, he⟩ | ⟨_, _, _, _, _, _, hfalse⟩⟩ := h
    · cases he
    · exact hfalse

/-- After a call the account holds what the call sent back. -/
theorem Executes.holds {c : ContractCall} {r : Returned} (h : Executes P c s r s')
    (k : TokenKey) : totalOf r.transfers k ≤ s'.esdt k := by
  have hb := h.balance k
  have hf := h.funded.2 k
  omega

/-- A call uses up at most its payment, and brings in at least any part of what it sends. -/
theorem Executes.nets {c : ContractCall} {r : Returned} (h : Executes P c s r s')
    {k : TokenKey} {n : Nat} (hn : n ≤ totalOf r.transfers k) :
    s.esdt k + n ≤ s'.esdt k + totalOf c.payments k := by
  have hb := h.balance k
  omega

/-! ## The reserve -/

/-- Of WEGLD the two payments of `add_liquidity` are at most the half and the swap output;
of every token they are, when WEGLD is one of the two tokens of the pair. -/
theorem sides_le {o : σ} {pair : Address} {w : TokenIdentifier} {half : Nat}
    {out : EsdtTokenPayment} {k : TokenKey}
    (hk : k = (w, 0) ∨ w = P.firstTokenId o pair ∨ w = P.secondTokenId o pair) :
    totalOf [(sides P o pair w half out).1, (sides P o pair w half out).2] k ≤
      (wegldPayment w half).amountOf k + out.amountOf k := by
  rw [totalOf_cons, totalOf_cons, totalOf_nil, Nat.add_zero]
  rcases hk with rfl | hw
  · rw [amountOf_wegldPayment_self]
    unfold sides
    by_cases hf : P.firstTokenId o pair = w
    · rw [if_pos hf, hf]
      exact Nat.le_of_eq (congrArg (· + _) (amountOf_wegldPayment_self w half))
    · rw [if_neg hf, Nat.add_comm half]
      refine Nat.add_le_add_left ?_ _
      show (if (P.secondTokenId o pair, (0 : UInt64)) = (w, 0) then half else 0) ≤ half
      by_cases hs : (P.secondTokenId o pair, (0 : UInt64)) = (w, 0)
      · rw [if_pos hs]
      · rw [if_neg hs]; exact Nat.zero_le _
  · exact Nat.le_of_eq (totalOf_sides hw half out k)

section Reserve

variable {A : Nat} {step : Strategy} {w : TokenIdentifier}

theorem Liquidity.reserve (hP : Honest P) {tokenOut : TokenIdentifier} {half : Nat}
    {pair : Address} {lp : EsdtTokenPayment} (h : Liquidity P w half pair tokenOut s lp s') :
    s.esdt (w, 0) + lp.amountOf (w, 0) ≤ s'.esdt (w, 0) + 2 * half := by
  cases h with
  | @mk s₁ r₁ r₂ out _ _ hx₁ hr₁ hx₂ hr₂ _ _ =>
      have h₁ := hx₁.nets (hP.swap hx₁.answer hr₁ (w, 0))
      have h₂ := hx₂.nets (hP.add_liquidity hx₂.answer hr₂ (w, 0))
      have hle : totalOf [(sides P s₁.outside pair w half out).1,
          (sides P s₁.outside pair w half out).2] (w, 0) ≤
          (wegldPayment w half).amountOf (w, 0) + out.amountOf (w, 0) := sides_le (Or.inl rfl)
      have hself := amountOf_wegldPayment_self w half
      simp only [ContractCall.payments, totalOf_cons, totalOf_nil, wegldPayment] at h₁ h₂ hle hself
      omega

/-- ESDT and Staking steps spend the whole of their investment, -/
theorem spent_whole (ht : step.positionType = .esdt ∨ step.positionType = .staking) :
    spent A step = investment A step := by
  unfold spent
  rcases ht with ht | ht
  · rw [ht]
  · rw [ht]

/-- and LP and Farm steps two halves of it. -/
theorem PoolAt.spent {pair : Address} (h : PoolAt P s step pair) :
    spent A step = 2 * (investment A step / 2) := by
  unfold SmartAccount.spent
  cases h with
  | lp ht _ => rw [ht]
  | farm ht _ => rw [ht]

/-- A step uses up at most its part of the WEGLD. -/
theorem Processed.reserve (hP : Honest P) (h : Processed P A step s s') (hw : WegldAt P s w) :
    s.esdt (w, 0) ≤ s'.esdt (w, 0) + spent A step := by
  have hself := amountOf_wegldPayment_self w (investment A step)
  cases h with
  | @esdt w' r out s₁ ht hw' hx _ =>
      cases hw'.unique hw
      have h₁ := hx.nets (Nat.zero_le _) (k := (w, 0))
      have hspent := spent_whole (A := A) (Or.inl ht)
      simp only [ContractCall.payments, totalOf_cons, totalOf_nil, wegldPayment] at h₁ hself
      show _ ≤ s₁.esdt _ + _
      omega
  | @staking w' r₁ r₂ out _ _ farmStaking s₁ s₂ ht hw' hx₁ hr₁ _ hx₂ _ =>
      cases hw'.unique hw
      have h₁ := hx₁.nets (hP.swap hx₁.answer hr₁ (w, 0))
      have h₂ := hx₂.nets (Nat.zero_le _) (k := (w, 0))
      have hspent := spent_whole (A := A) (Or.inr ht)
      simp only [ContractCall.payments, totalOf_cons, totalOf_nil, wegldPayment] at h₁ h₂ hself
      show _ ≤ s₂.esdt _ + _
      omega
  | @lp w' lp s₂ ht hw' hl =>
      cases hw'.unique hw
      have h₁ := hl.reserve hP
      have hspent := (PoolAt.lp (P := P) (s := s) ht rfl).spent (A := A)
      show _ ≤ s₂.esdt _ + _
      omega
  | @farm w' pair lp _ _ r s₂ s₃ ht hw' hpair hl hx _ =>
      cases hw'.unique hw
      have h₁ := hl.reserve hP
      have h₂ := hx.nets (Nat.zero_le _) (k := (w, 0))
      have hspent := (PoolAt.farm ht hpair).spent (A := A)
      simp only [ContractCall.payments, totalOf_cons, totalOf_nil] at h₂
      show _ ≤ s₃.esdt _ + _
      omega

theorem spentAll_cons (A : Nat) (step : Strategy) (L : List Strategy) :
    spentAll A (step :: L) = spent A step + spentAll A L := by
  simp [spentAll]

theorem spentAll_append (A : Nat) (L₁ L₂ : List Strategy) :
    spentAll A (L₁ ++ L₂) = spentAll A L₁ + spentAll A L₂ := by
  simp [spentAll]

/-- The steps of a strategy use up at most their parts of the WEGLD. -/
theorem ProcessedAll.reserve (hP : Honest P) {L : List Strategy} (h : ProcessedAll P A L s s')
    (hw : WegldAt P s w) : WegldAt P s' w ∧ s.esdt (w, 0) ≤ s'.esdt (w, 0) + spentAll A L := by
  induction h with
  | nil => exact ⟨hw, Nat.le_add_right _ _⟩
  | @cons step L s m s' hstep _ ih =>
      obtain ⟨hw', hrest⟩ := ih (hstep.wegldAt hP.fixed hw)
      have hfirst := hstep.reserve hP hw
      refine ⟨hw', ?_⟩
      rw [spentAll_cons]
      omega

/-! ## The calls of a step -/

/-- `Reaches P A step s c t`: a run of the step from `s` gets to the call `c`, in `t`. -/
inductive Reaches (P : Peers σ) (A : Nat) (step : Strategy) (s : State σ) :
    ContractCall → State σ → Prop
  /-- the swap of the whole investment -/
  | swap {w : TokenIdentifier} :
      step.positionType = .esdt ∨ step.positionType = .staking → WegldAt P s w →
      Reaches P A step s (.swapTokensFixedInput step.contractAddress ⟨w, 0, investment A step⟩
        step.outputTokenId swapMinAmount) s
  | stake {w : TokenIdentifier} {r : Returned} {out : EsdtTokenPayment} {farmStaking : Address}
      {s₁ : State σ} :
      step.positionType = .staking → WegldAt P s w →
      Executes P (.swapTokensFixedInput step.contractAddress ⟨w, 0, investment A step⟩
        step.outputTokenId swapMinAmount) s r s₁ →
      r.result = [out] → StakingAt P s₁ step.outputTokenId farmStaking →
      Reaches P A step s (.stakeFarm farmStaking [out]) s₁
  /-- the swap of half of the investment -/
  | swapHalf {w : TokenIdentifier} {pair : Address} : PoolAt P s step pair → WegldAt P s w →
      Reaches P A step s (.swapTokensFixedInput pair ⟨w, 0, investment A step / 2⟩
        step.outputTokenId swapMinAmount) s
  | addLiquidity {w : TokenIdentifier} {pair : Address} {r : Returned} {out : EsdtTokenPayment}
      {s₁ : State σ} : PoolAt P s step pair → WegldAt P s w →
      Executes P (.swapTokensFixedInput pair ⟨w, 0, investment A step / 2⟩
        step.outputTokenId swapMinAmount) s r s₁ →
      r.result = [out] →
      Reaches P A step s (.addLiquidity pair
        (sides P s₁.outside pair w (investment A step / 2) out).1
        (sides P s₁.outside pair w (investment A step / 2) out).2 1 1) s₁
  | enterFarm {w : TokenIdentifier} {pair : Address} {lp : EsdtTokenPayment} {s₂ : State σ} :
      step.positionType = .farm → PoolAt P s step pair → WegldAt P s w →
      Liquidity P w (investment A step / 2) pair step.outputTokenId s lp s₂ →
      Reaches P A step s (.enterFarm step.contractAddress [lp]) s₂

theorem wegldPayment_le {n : Nat} (hn : n ≤ s.esdt (w, 0)) (k : TokenKey) :
    (wegldPayment w n).amountOf k ≤ s.esdt k := by
  by_cases hk : k = (w, 0)
  · rw [hk, amountOf_wegldPayment_self]
    exact hn
  · rw [amountOf_wegldPayment_of_ne hk]
    exact Nat.zero_le _

/-- With its part of the WEGLD in reserve, no call of a step sends more than there is: of
WEGLD, whatever the pairs are, and of any token, when they trade two tokens. -/
theorem Reaches.covered (hP : Honest P) {c : ContractCall} (h : Reaches P A step s c t)
    (hw : WegldAt P s w) (hres : SmartAccount.spent A step ≤ s.esdt (w, 0)) {k : TokenKey}
    (hk : k = (w, 0) ∨ ∀ pair, Trades P pair) : totalOf c.payments k ≤ t.esdt k := by
  cases h with
  | @swap w' ht hw' =>
      cases hw'.unique hw
      rw [spent_whole ht] at hres
      exact wegldPayment_le hres k
  | @stake w' r out farmStaking _ _ _ hx hr _ =>
      have hout := hP.swap hx.answer hr k
      have hholds := hx.holds k
      exact hout.trans hholds
  | @swapHalf w' pair hpool hw' =>
      cases hw'.unique hw
      rw [hpool.spent] at hres
      exact wegldPayment_le (n := investment A step / 2) (by omega) k
  | @addLiquidity w' pair r out s₁ hpool hw' hx hr =>
      cases hw'.unique hw
      rw [hpool.spent] at hres
      have hside : k = (w, 0) ∨ w = P.firstTokenId t.outside pair ∨
          w = P.secondTokenId t.outside pair :=
        hk.imp_right fun hT => (hT pair).input hx.answer
      -- what is left after the swap is the other half and the output
      have hleft := hx.nets (hP.swap hx.answer hr k)
      have htwice := wegldPayment_le hres k
      rw [Nat.two_mul, amountOf_wegldPayment_add] at htwice
      have hsides : totalOf [_, _] k ≤ (wegldPayment w (investment A step / 2)).amountOf k +
          out.amountOf k := sides_le hside
      simp only [ContractCall.payments, totalOf_cons, totalOf_nil] at hleft hsides ⊢
      simp only [wegldPayment] at htwice hsides
      omega
  | @enterFarm w' pair lp _ _ _ _ hl =>
      cases hl with
      | mk _ _ hx hr _ _ =>
          have hlp := hP.add_liquidity hx.answer hr k
          have hholds := hx.holds k
          exact hlp.trans hholds

/-- The calls of a step send no EGLD. -/
theorem Reaches.egld {c : ContractCall} (h : Reaches P A step s c t) : c.egld = 0 := by
  cases h <;> rfl

end Reserve

/-! ## These are all its calls -/

theorem reverts_getWegldTokenId :
    ¬ Reverts (getWegldTokenId P) s .insufficientFunds := by
  simp [getWegldTokenId, getEgldWrapperContractAddressMapper]

theorem reverts_callPairSwap {pair : Address} {input : EsdtTokenPayment} {t : TokenIdentifier}
    (h : Reverts (callPairSwap P pair input t) s .insufficientFunds) :
    ¬ Funded s (.swapTokensFixedInput pair input t swapMinAmount) := by
  rcases reverts_bind.mp h with h | ⟨_, _, _, h⟩
  · exact reverts_execute h
  · cases (reverts_demand.mp h).2

theorem reverts_callPairAddLiquidity {args : PairAddLiqArgs}
    (h : Reverts (callPairAddLiquidity P args) s .insufficientFunds) :
    ¬ Funded s (.addLiquidity args.pairAddress args.firstTokens args.secondTokens
      args.firstTokenMinAmountOut args.secondTokenMinAmountOut) := by
  rcases reverts_bind.mp h with h | ⟨_, _, _, h⟩
  · exact reverts_execute h
  · simp [bigUintSub] at h

theorem reverts_callFarmStakingStake {a : Address} {tokens : List EsdtTokenPayment}
    (h : Reverts (callFarmStakingStake P a tokens) s .insufficientFunds) :
    ¬ Funded s (.stakeFarm a tokens) := by
  rcases reverts_bind.mp h with h | ⟨_, _, _, h⟩
  · exact reverts_execute h
  · cases (reverts_demand.mp h).2

theorem reverts_callEnterFarm {farm : Address} {tokens : List EsdtTokenPayment}
    (h : Reverts (callEnterFarm P farm tokens) s .insufficientFunds) :
    ¬ Funded s (.enterFarm farm tokens) := by
  rcases reverts_bind.mp h with h | ⟨_, _, _, h⟩
  · exact reverts_execute h
  · simp at h

theorem reverts_saveUserPosition {p : EsdtTokenPayment} {e : TxError} :
    ¬ Reverts (saveUserPosition p : Exec σ Unit) s e := by
  simp [saveUserPosition]

section Unfunded

variable {A : Nat} {step : Strategy}

/-- The common part of LP and Farm steps: it is undone for want of funds at its swap or at
its `add_liquidity`. -/
theorem unfunded_of_addedLiquidity {pair : Address} (hpool : PoolAt P s step pair)
    (hrev : Reverts (addedLiquidity P A step pair) s .insufficientFunds) :
    ∃ c t, Reaches P A step s c t ∧ ¬ Funded t c := by
  rcases reverts_bind.mp hrev with h | ⟨w, _, hread, hbody⟩
  · exact absurd h reverts_getWegldTokenId
  · obtain ⟨hw, rfl⟩ := commits_getWegldTokenId.mp hread
    rcases reverts_bind.mp hbody with hpay | ⟨_, _, _, h⟩
    · rcases reverts_bind.mp hpay with h | ⟨out, s₁, hswap, hadd⟩
      · exact ⟨_, _, .swapHalf hpool hw, reverts_callPairSwap h⟩
      · obtain ⟨r, hx, hr⟩ := commits_callPairSwap.mp hswap
        rcases reverts_bind.mp hadd with h | ⟨_, _, hget, h⟩
        · exact absurd h reverts_get
        · obtain ⟨rfl, rfl⟩ := commits_get.mp hget
          exact ⟨_, _, .addLiquidity hpool hw hx hr, reverts_callPairAddLiquidity h⟩
    · exact absurd h reverts_pure

/-- The common part of ESDT and Staking steps: it is undone for want of funds at its swap,
or what follows is. -/
theorem unfunded_of_swap (ht : step.positionType = .esdt ∨ step.positionType = .staking)
    {k : EsdtTokenPayment → Exec σ Unit}
    (hrev : Reverts (do
      let wegldTokenId ← getWegldTokenId P
      let out ← callPairSwap P step.contractAddress ⟨wegldTokenId, 0, investment A step⟩
        step.outputTokenId
      k out) s .insufficientFunds)
    (hk : ∀ {w r out s₁}, WegldAt P s w →
      Executes P (.swapTokensFixedInput step.contractAddress ⟨w, 0, investment A step⟩
        step.outputTokenId swapMinAmount) s r s₁ →
      r.result = [out] → Reverts (k out) s₁ .insufficientFunds →
      ∃ c t, Reaches P A step s c t ∧ ¬ Funded t c) :
    ∃ c t, Reaches P A step s c t ∧ ¬ Funded t c := by
  rcases reverts_bind.mp hrev with h | ⟨w, _, hread, hbody⟩
  · exact absurd h reverts_getWegldTokenId
  · obtain ⟨hw, rfl⟩ := commits_getWegldTokenId.mp hread
    rcases reverts_bind.mp hbody with h | ⟨out, s₁, hswap, hrest⟩
    · exact ⟨_, _, .swap ht hw, reverts_callPairSwap h⟩
    · obtain ⟨r, hx, hr⟩ := commits_callPairSwap.mp hswap
      exact hk hw hx hr hrest

/-- After its swap a Staking step is undone for want of funds only at its `stake_farm`. -/
theorem unfunded_of_stake {w : TokenIdentifier} {r : Returned} {out : EsdtTokenPayment}
    {s₁ : State σ} (ht : step.positionType = .staking) (hw : WegldAt P s w)
    (hx : Executes P (.swapTokensFixedInput step.contractAddress ⟨w, 0, investment A step⟩
      step.outputTokenId swapMinAmount) s r s₁) (hr : r.result = [out])
    (hrev : Reverts (do
      let farmStakingMapper ← getFarmStakingAddressMapper P step.outputTokenId
      let farmStakingAddress ← demand farmStakingMapper .storageDecode
      let farmStakingResult ← callFarmStakingStake P farmStakingAddress [out]
      saveUserPosition farmStakingResult.1) s₁ .insufficientFunds) :
    ∃ c t, Reaches P A step s c t ∧ ¬ Funded t c := by
  rcases reverts_bind.mp hrev with h | ⟨_, _, hread, hbody⟩
  · simp [getFarmStakingAddressMapper] at h
  · obtain ⟨d, hd, rfl, rfl⟩ := commits_getFarmStakingAddressMapper.mp hread
    rcases reverts_bind.mp hbody with h | ⟨a, _, ha, hstake⟩
    · cases (reverts_demand.mp h).2
    · obtain ⟨ha, rfl⟩ := commits_demand.mp ha
      rcases reverts_bind.mp hstake with h | ⟨_, _, _, h⟩
      · exact ⟨_, _, .stake ht hw hx hr ⟨d, hd, ha⟩, reverts_callFarmStakingStake h⟩
      · exact absurd h reverts_saveUserPosition

/-- A step that is undone for want of funds is undone at a call it reaches. -/
theorem unfunded_of_processPosition
    (hrev : Reverts (processPosition P A step) s .insufficientFunds) :
    ∃ c t, Reaches P A step s c t ∧ ¬ Funded t c := by
  unfold processPosition at hrev
  cases ht : step.positionType with
  | esdt =>
      rw [ht] at hrev
      exact unfunded_of_swap (Or.inl ht) hrev fun _ _ _ h => absurd h reverts_saveUserPosition
  | staking =>
      rw [ht] at hrev
      exact unfunded_of_swap (Or.inr ht) hrev fun hw hx hr h => unfunded_of_stake ht hw hx hr h
  | lp =>
      rw [ht] at hrev
      have hlp : Reverts (processLpPosition P A step) s .insufficientFunds := hrev
      rw [processLpPosition_eq] at hlp
      rcases reverts_bind.mp hlp with h | ⟨_, _, _, h⟩
      · exact unfunded_of_addedLiquidity (.lp ht rfl) h
      · exact absurd h reverts_saveUserPosition
  | farm =>
      rw [ht] at hrev
      have hfarm : Reverts (processFarmPosition P A step) s .insufficientFunds := hrev
      cases hpair : P.pairContractAddress s.outside step.contractAddress with
      | none =>
          unfold Reverts at hfarm
          rw [processFarmPosition_unpaired hpair] at hfarm
          rcases reverts_bind.mp hfarm with h | ⟨_, _, _, h⟩
          · exact absurd h reverts_getWegldTokenId
          · cases reverts_throw.mp h
      | some pair =>
          have hpool : PoolAt P s step pair := .farm ht hpair
          unfold Reverts at hfarm
          rw [processFarmPosition_run hpair] at hfarm
          rcases reverts_bind.mp hfarm with h | ⟨lp, s₂, hl, hrest⟩
          · exact unfunded_of_addedLiquidity hpool h
          · obtain ⟨w, hw, hl⟩ := commits_addedLiquidity.mp hl
            rcases reverts_bind.mp hrest with h | ⟨_, _, _, h⟩
            · exact ⟨_, _, .enterFarm ht hpool hw hl, reverts_callEnterFarm h⟩
            · exact absurd h reverts_saveUserPosition

end Unfunded

/-! ## The calls of a log -/

/-- What an event of the log sent. -/
def Event.paid : Event → List EsdtTokenPayment
  | .called c _ => c.payments
  | .saved _ => []

/-- The WEGLD that the calls of a log passed on. -/
def wegldPassed (w : TokenIdentifier) (log : List Event) : Nat :=
  totalOf (log.flatMap Event.paid) (w, 0)

@[simp] theorem wegldPassed_nil (w : TokenIdentifier) : wegldPassed w [] = 0 := rfl

@[simp] theorem wegldPassed_called (w : TokenIdentifier) (c : ContractCall) (r : Returned)
    (log : List Event) :
    wegldPassed w (.called c r :: log) = totalOf c.payments (w, 0) + wegldPassed w log :=
  totalOf_append _ _ _

@[simp] theorem wegldPassed_saved (w : TokenIdentifier) (p : EsdtTokenPayment) (log : List Event) :
    wegldPassed w (.saved p :: log) = wegldPassed w log := rfl

@[simp] theorem wegldPassed_append (w : TokenIdentifier) (l₁ l₂ : List Event) :
    wegldPassed w (l₁ ++ l₂) = wegldPassed w l₁ + wegldPassed w l₂ := by
  unfold wegldPassed
  rw [List.flatMap_append, totalOf_append]

theorem amountOf_of_ne {p : EsdtTokenPayment} {w : TokenIdentifier}
    (h : p.tokenIdentifier ≠ w) : p.amountOf (w, 0) = 0 :=
  if_neg fun hk => h (congrArg Prod.fst hk)

/-- The pairs are pairs: they trade two distinct tokens for each other, and give LP tokens
of a third kind for them. -/
structure Pairs (P : Peers σ) : Prop where
  trades : ∀ pair, Trades P pair
  lp_apart : ∀ {o o' : σ} {a pair : Address} {first second lp used₁ used₂ : EsdtTokenPayment}
    {m n : Nat} {r : Returned}, P.call o a (.addLiquidity pair first second m n) = some (o', r) →
      r.result = [lp, used₁, used₂] →
      lp.tokenIdentifier ≠ P.firstTokenId o pair ∧ lp.tokenIdentifier ≠ P.secondTokenId o pair

/-- The log grew by calls that are `made`, which passed on `n` WEGLD. -/
def Passes (w : TokenIdentifier) (made : ContractCall → Prop) (n : Nat) (s s' : State σ) : Prop :=
  ∃ events, s'.log = s.log ++ events ∧ (∀ c r, Event.called c r ∈ events → made c) ∧
    wegldPassed w events = n

section Calls

variable {A : Nat} {step : Strategy} {w : TokenIdentifier} {made : ContractCall → Prop}

theorem Executes.passes {c : ContractCall} {r : Returned} (h : Executes P c s r s')
    (hmade : made c) : Passes w made (totalOf c.payments (w, 0)) s s' := by
  refine ⟨[.called c r], h.frame.2.2.2, fun c' r' hmem => ?_, ?_⟩
  · cases List.mem_singleton.mp hmem
    exact hmade
  · rw [wegldPassed_called, wegldPassed_nil, Nat.add_zero]

theorem passes_save (s : State σ) (p : EsdtTokenPayment) : Passes w made 0 s (s.save p) := by
  refine ⟨[.saved p], rfl, fun c r hmem => ?_, rfl⟩
  cases List.mem_singleton.mp hmem

theorem Passes.trans {m : State σ} {n₁ n₂ : Nat} (h₁ : Passes w made n₁ s m)
    (h₂ : Passes w made n₂ m s') : Passes w made (n₁ + n₂) s s' := by
  obtain ⟨l₁, hlog₁, hmade₁, hsum₁⟩ := h₁
  obtain ⟨l₂, hlog₂, hmade₂, hsum₂⟩ := h₂
  refine ⟨l₁ ++ l₂, by rw [hlog₂, hlog₁, List.append_assoc], fun c r hmem => ?_, ?_⟩
  · rcases List.mem_append.mp hmem with hmem | hmem
    · exact hmade₁ c r hmem
    · exact hmade₂ c r hmem
  · rw [wegldPassed_append, hsum₁, hsum₂]

theorem Passes.imp {made' : ContractCall → Prop} {n : Nat} (h : Passes w made n s s')
    (himp : ∀ c, made c → made' c) : Passes w made' n s s' := by
  obtain ⟨events, hlog, hmade, hsum⟩ := h
  exact ⟨events, hlog, fun c r hmem => himp c (hmade c r hmem), hsum⟩

/-- The common part of LP and Farm steps passes on both halves of the investment, and what
comes of it is no WEGLD. -/
theorem Liquidity.passes {pair : Address} {lp : EsdtTokenPayment} (hpool : PoolAt P s step pair)
    (hw : WegldAt P s w)
    (h : Liquidity P w (investment A step / 2) pair step.outputTokenId s lp s') :
    ∃ n, Passes w (fun c => ∃ t, Reaches P A step s c t) n s s' ∧
      (Pairs P → n = spent A step ∧ lp.amountOf (w, 0) = 0) := by
  cases h with
  | @mk s₁ r₁ r₂ out used₁ used₂ hx₁ hr₁ hx₂ hr₂ _ _ =>
      refine ⟨_, (hx₁.passes ⟨_, .swapHalf hpool hw⟩).trans
        (hx₂.passes ⟨_, .addLiquidity hpool hw hx₁ hr₁⟩), fun hpairs => ?_⟩
      have hT := hpairs.trades pair
      have hout := amountOf_of_ne (hT.output hx₁.answer hr₁).2.1
      have hsides := totalOf_sides (hT.input hx₁.answer) (investment A step / 2) out (w, 0)
      have hhalf := amountOf_wegldPayment_self w (investment A step / 2)
      obtain ⟨hlp₁, hlp₂⟩ := hpairs.lp_apart hx₂.answer hr₂
      constructor
      · rw [hpool.spent]
        simp only [ContractCall.payments, totalOf_cons, totalOf_nil, wegldPayment]
          at hsides hhalf hout ⊢
        omega
      · have hside : w = P.firstTokenId s₁.outside pair ∨ w = P.secondTokenId s₁.outside pair :=
          hT.input hx₁.answer
        rcases hside with hfirst | hsecond
        · rw [← hfirst] at hlp₁
          exact amountOf_of_ne hlp₁
        · rw [← hsecond] at hlp₂
          exact amountOf_of_ne hlp₂

/-- The calls in the log of a step are calls it reaches, and pass on its part of the WEGLD. -/
theorem Processed.passes (h : Processed P A step s s') (hw : WegldAt P s w) :
    ∃ n, Passes w (fun c => ∃ t, Reaches P A step s c t) n s s' ∧ (Pairs P → n = spent A step) := by
  have hwhole := amountOf_wegldPayment_self w (investment A step)
  cases h with
  | @esdt w' r out s₁ ht hw' hx hr =>
      cases hw'.unique hw
      refine ⟨_, (hx.passes ⟨_, .swap (Or.inl ht) hw'⟩).trans (passes_save s₁ out), fun _ => ?_⟩
      rw [spent_whole (Or.inl ht)]
      exact hwhole
  | @staking w' r₁ r₂ out newFarm _ farmStaking s₁ s₂ ht hw' hx₁ hr₁ hstaking hx₂ hr₂ =>
      cases hw'.unique hw
      refine ⟨_, ((hx₁.passes ⟨_, .swap (Or.inr ht) hw'⟩).trans
        (hx₂.passes ⟨_, .stake ht hw' hx₁ hr₁ hstaking⟩)).trans (passes_save s₂ newFarm),
        fun hpairs => ?_⟩
      have hout := amountOf_of_ne ((hpairs.trades _).output hx₁.answer hr₁).2.1
      rw [spent_whole (Or.inr ht)]
      simp only [ContractCall.payments, totalOf_cons, totalOf_nil, wegldPayment] at hwhole hout ⊢
      omega
  | @lp w' lp s₂ ht hw' hl =>
      cases hw'.unique hw
      obtain ⟨n, hpass, hn⟩ := hl.passes (.lp ht rfl) hw'
      exact ⟨n, hpass.trans (passes_save s₂ lp), fun hpairs => (hn hpairs).1⟩
  | @farm w' pair lp newFarm _ r s₂ s₃ ht hw' hpair hl hx hr =>
      cases hw'.unique hw
      have hpool : PoolAt P s step pair := .farm ht hpair
      obtain ⟨n, hpass, hn⟩ := hl.passes hpool hw'
      refine ⟨_, (hpass.trans (hx.passes ⟨_, .enterFarm ht hpool hw' hl⟩)).trans
        (passes_save s₃ newFarm), fun hpairs => ?_⟩
      obtain ⟨hsteps, hlp⟩ := hn hpairs
      simp only [ContractCall.payments, totalOf_cons, totalOf_nil, hlp]
      exact hsteps

/-- The loop passes on the parts of its steps; what it makes is what its steps reach. -/
theorem ProcessedAll.passes (hP : WegldFixed P) {L : List Strategy} (h : ProcessedAll P A L s s') :
    WegldAt P s w → (∀ done step rest m c t, L = done ++ step :: rest → ProcessedAll P A done s m →
      Reaches P A step m c t → made c) →
    ∃ n, Passes w made n s s' ∧ (Pairs P → n = spentAll A L) := by
  induction h with
  | nil =>
      intro _ _
      refine ⟨0, ⟨[], (List.append_nil _).symm, fun c r hmem => ?_, rfl⟩, fun _ => rfl⟩
      exact absurd hmem List.not_mem_nil
  | @cons step L s m s' hstep _ ih =>
      intro hw hmade
      obtain ⟨n₁, hpass₁, hn₁⟩ := hstep.passes hw
      obtain ⟨n₂, hpass₂, hn₂⟩ := ih (hstep.wegldAt hP hw) fun done step' rest m' c t hL hdone =>
        hmade (step :: done) step' rest m' c t (by rw [hL]; rfl) (.cons hstep hdone)
      refine ⟨n₁ + n₂, (hpass₁.imp fun c hc => ?_).trans hpass₂, fun hpairs => ?_⟩
      · obtain ⟨t, hreach⟩ := hc
        exact hmade [] step L s c t rfl .nil hreach
      · rw [spentAll_cons, hn₁ hpairs, hn₂ hpairs]

end Calls

/-! ## The whole call -/

/-- `Makes P A r L s c t`: `setupSmartAccount` from `s` gets to the call `c`, in `t`. -/
inductive Makes (P : Peers σ) (A : Nat) (r : UInt64) (L : List Strategy) (s : State σ) :
    ContractCall → State σ → Prop
  | wrap {deployerSc wrapper : Address} :
      s.storage.smartAccountDeployerAddress = some deployerSc →
      P.egldWrapperAddress s.outside deployerSc = some wrapper →
      Makes P A r L s (.wrapEgld wrapper A) (s.receive A)
  /-- a call of a step, after the steps before it -/
  | step {wrapped : EsdtTokenPayment} {s₁ m t : State σ} {done rest : List Strategy}
      {step : Strategy} {c : ContractCall} :
      Commits (callWrapEgld P A) (s.receive A) wrapped s₁ →
      WegldAt P s₁ wrapped.tokenIdentifier →
      L = done ++ step :: rest → ProcessedAll P A done (s₁.storeStrategy r L) m →
      Reaches P A step m c t →
      Makes P A r L s c t

section Whole

variable {A : Nat} {r : UInt64} {L : List Strategy} {w : TokenIdentifier}

/-- The wrapper turns the deposit into the reserve of the loop. -/
theorem reserve_of_wrap (hP : Honest P) {wrapped : EsdtTokenPayment} {s₁ : State σ}
    (h : Commits (callWrapEgld P A) (s.receive A) wrapped s₁)
    (hw₁ : WegldAt P s₁ wrapped.tokenIdentifier) (hw : WegldAt P s w) :
    WegldAt P s₁ w ∧ A ≤ s₁.esdt (w, 0) := by
  obtain ⟨d, wrapper, ret, hd, ha, hx, hret⟩ := commits_callWrapEgld.mp h
  have hwegld : WegldAt P s₁ w := hx.wegldAt hP.fixed (s := s.receive A) hw
  have hww : wrapped.tokenIdentifier = w := hw₁.unique hwegld
  have hmint := hP.wrap hx.answer
  rw [hret] at hmint
  have hself : wrapped.amountOf (w, 0) = A := by
    rw [List.singleton_inj.mp hmint] at hww ⊢
    rw [← hww]
    exact amountOf_wegldPayment_self _ A
  have hholds := hx.holds (w, 0)
  rw [hret, totalOf_cons, totalOf_nil, hself] at hholds
  exact ⟨hwegld, hholds⟩

/-- No call of the allocation sends more than there is. -/
theorem Makes.covered (hP : Honest P) {c : ContractCall} (h : Makes P A r L s c t)
    (hw : WegldAt P s w) (hsum : (L.map fun step => step.percentage.toNat).sum = maxPercentage.toNat)
    {k : TokenKey} (hk : k = (w, 0) ∨ ∀ pair, Trades P pair) :
    totalOf c.payments k ≤ t.esdt k := by
  cases h with
  | wrap _ _ => exact Nat.zero_le _
  | @step wrapped s₁ m _ done rest step _ hwrap hw₁ hL hdone hreach =>
      obtain ⟨hwegld, hreserve⟩ := reserve_of_wrap hP hwrap hw₁ hw
      obtain ⟨hm, hleft⟩ := hdone.reserve hP (w := w) hwegld
      have htotal := (spentAll_whole A hsum).1
      rw [hL, spentAll_append, spentAll_cons] at htotal
      have hstart : (s₁.storeStrategy r L).esdt (w, 0) = s₁.esdt (w, 0) := rfl
      exact hreach.covered hP hm (by omega) hk

theorem Makes.egld {c : ContractCall} (h : Makes P A r L s c t) : c.egld ≤ t.egld := by
  cases h with
  | wrap _ _ => exact Nat.le_add_left _ _
  | step _ _ _ _ hreach =>
      rw [hreach.egld]
      exact Nat.zero_le _

theorem unfunded_of_callWrapEgld {r : UInt64} {L : List Strategy}
    (hrev : Reverts (callWrapEgld P A) (s.receive A) .insufficientFunds) :
    ∃ c t, Makes P A r L s c t ∧ ¬ Funded t c := by
  simp only [callWrapEgld, getEgldWrapperContractAddressMapper, reverts_bind, reverts_get,
    reverts_demand, reverts_pure, commits_bind, commits_get, commits_demand, commits_pure,
    false_or] at hrev
  obtain ⟨_, _, ⟨rfl, rfl⟩, ⟨_, h⟩ | ⟨_, _, _, hfalse⟩⟩ |
    ⟨_, _, ⟨_, _, ⟨rfl, rfl⟩, d, _, ⟨hd, rfl⟩, rfl, rfl⟩, ⟨_, h⟩ | ⟨a, _, ⟨ha, rfl⟩, h⟩⟩ := hrev
  · cases h
  · exact absurd hfalse id
  · cases h
  · rcases h with h | ⟨_, _, _, _, h⟩
    · exact ⟨_, _, .wrap hd ha, reverts_execute h⟩
    · cases h

/-- A call that is undone for want of funds is undone at a call that it makes. -/
theorem unfunded_of_reverts {caller : Address}
    (hrev : Reverts (setupSmartAccount P caller A r L) s .insufficientFunds) :
    ∃ c t, Makes P A r L s c t ∧ ¬ Funded t c := by
  simp only [setupSmartAccount, receiveEgld, onlyOwner, reverts_bind, reverts_modify,
    commits_modify, reverts_get, commits_get, reverts_require, commits_require, commits_bind,
    commits_getWegldTokenId, reverts_getWegldTokenId, false_or] at hrev
  obtain ⟨_, _, rfl, h⟩ := hrev
  rcases h with ⟨_, _, ⟨rfl, rfl⟩, _, h⟩ | ⟨_, _, ⟨_, _, ⟨rfl, rfl⟩, _, rfl⟩, h⟩
  · cases h
  · rcases h with h | ⟨wrapped, s₁, hwrap, w, _, ⟨hw, rfl⟩, h⟩
    · exact unfunded_of_callWrapEgld h
    · rcases h with ⟨_, h⟩ | ⟨_, _, ⟨htoken, rfl⟩, h⟩
      · cases h
      · rcases h with ⟨_, h⟩ | ⟨_, _, ⟨_, rfl⟩, h⟩
        · cases h
        · rcases h with ⟨_, h⟩ | ⟨_, _, ⟨_, rfl⟩, _, _, rfl, h⟩
          · cases h
          · obtain ⟨done, step, rest, m, hL, hdone, hstep⟩ := split_of_reverts_forM h
            obtain ⟨c, t, hreach, hunfunded⟩ := unfunded_of_processPosition hstep
            rw [← htoken] at hw
            exact ⟨c, t, .step hwrap hw hL (processedAll_of_commits hdone) hreach, hunfunded⟩

/-- The calls in the log of a committed call are calls that it makes, and pass on the parts
of the steps. -/
theorem passes_of_commits (hP : Honest P) {caller : Address} (hw : WegldAt P s w)
    (h : Commits (setupSmartAccount P caller A r L) s () s') :
    ∃ n, Passes w (fun c => ∃ t, Makes P A r L s c t) n s s' ∧ (Pairs P → n = spentAll A L) := by
  cases setUp_of_commits h with
  | @mk d wrapper ret wrapped s₁ _ hd ha hx hret hw₁ _ _ hall =>
      have hwrap : Commits (callWrapEgld P A) (s.receive A) wrapped s₁ :=
        commits_callWrapEgld.mpr ⟨d, wrapper, ret, hd, ha, hx, hret⟩
      obtain ⟨hwegld, _⟩ := reserve_of_wrap hP hwrap hw₁ hw
      have hmakes : ∀ done step rest m c t, L = done ++ step :: rest →
          ProcessedAll P A done (s₁.storeStrategy r L) m → Reaches P A step m c t →
          ∃ t, Makes P A r L s c t := fun done step rest m c t hL hdone hreach =>
        ⟨t, .step hwrap hw₁ hL hdone hreach⟩
      obtain ⟨n, hpass, hn⟩ := hall.passes hP.fixed (w := w) hwegld hmakes
      obtain ⟨events, hlog, hmade, hsum⟩ := hpass
      refine ⟨n, ⟨.called (.wrapEgld wrapper A) ret :: events, ?_, fun c r' hmem => ?_, ?_⟩, hn⟩
      · rw [hlog]
        show s₁.log ++ events = _
        rw [hx.frame.2.2.2, List.append_assoc]
        rfl
      · rcases List.mem_cons.mp hmem with he | hmem
        · cases he
          exact ⟨_, .wrap hd ha⟩
        · exact hmade c r' hmem
      · rw [wegldPassed_called, hsum]
        exact Nat.zero_add n

/-- **Allocation never overspends and leaves only dust.**  For percentages that make up the
whole, the parts of the steps add up to at most the deposit, and to at least the deposit
less the roundings of `n` shares and `m` halvings.  Every call is covered when it is made,
by the WEGLD balance whatever the pairs are, and by all balances when they are pairs, so
that no run is ever undone for want of funds.  The calls of a committed run are all among
these, and pass on exactly the parts of the steps. -/
theorem allocation_covered (hP : Honest P) (caller : Address) (A : Nat) (r : UInt64)
    {L : List Strategy} (hw : WegldAt P s w)
    (hsum : (L.map fun step => step.percentage.toNat).sum = maxPercentage.toNat) :
    (spentAll A L ≤ A ∧ A ≤ spentAll A L + ((L.length - 1) + liquiditySteps L)) ∧
    (∀ c t, Makes P A r L s c t → totalOf c.payments (w, 0) ≤ t.esdt (w, 0)) ∧
    (Pairs P → (∀ c t, Makes P A r L s c t → Funded t c) ∧
      ¬ Reverts (setupSmartAccount P caller A r L) s .insufficientFunds) ∧
    (∀ s', Commits (setupSmartAccount P caller A r L) s () s' →
      (∀ c ret, Event.called c ret ∈ newEvents s s' → ∃ t, Makes P A r L s c t) ∧
      (Pairs P → wegldPassed w (newEvents s s') = spentAll A L)) := by
  refine ⟨spentAll_whole A hsum, ?_, ?_, ?_⟩
  · intro c t hmakes
    exact hmakes.covered hP hw hsum (Or.inl rfl)
  · intro hpairs
    have hfunded : ∀ c t, Makes P A r L s c t → Funded t c := fun c t hmakes =>
      ⟨hmakes.egld, fun k => hmakes.covered hP hw hsum (Or.inr hpairs.trades)⟩
    refine ⟨hfunded, fun hrev => ?_⟩
    obtain ⟨c, t, hmakes, hunfunded⟩ := unfunded_of_reverts hrev
    exact hunfunded (hfunded c t hmakes)
  · intro s' hc
    obtain ⟨n, ⟨events, hlog, hmade, htotal⟩, hn⟩ := passes_of_commits hP hw hc
    have hnew : newEvents s s' = events := by rw [newEvents, hlog, List.drop_left]
    rw [hnew]
    refine ⟨hmade, fun hpairs => ?_⟩
    rw [htotal, hn hpairs]

end Whole

/-! ## A concrete allocation -/

theorem tradingPeers_honest : Honest (tradingPeers σ) where
  fixed := by
    intro o o' a c r _
    exact ⟨fun _ => rfl, fun _ => rfl⟩
  wrap h := by cases h; rfl
  swap h hr k := by
    obtain ⟨_, hres, htr⟩ := tradingPeers_swap h
    rw [htr, hr, totalOf_cons]
    exact Nat.le_add_right _ _
  add_liquidity h hr k := by
    cases h; cases hr
    rw [totalOf_cons]
    exact Nat.le_add_right _ _

theorem tradingPeers_pairs : Pairs (tradingPeers σ) where
  trades := tradingPeers_trades
  lp_apart h hr := by
    cases h; cases hr
    exact ⟨show ([76] : TokenIdentifier) ≠ [87] by decide,
      show ([76] : TokenIdentifier) ≠ [77] by decide⟩

theorem tradingPeers_wegldAt : WegldAt (tradingPeers Unit) sampleState [87] :=
  ⟨0xD, 0xE, rfl, rfl, rfl⟩

/-- One step of each kind. -/
def sampleAllocation : List Strategy :=
  [sampleStep .esdt 2500, sampleStep .staking 2500, sampleStep .lp 2500, sampleStep .farm 2500]

/-- From an account without WEGLD, of 10003 all but 3 is passed on. -/
theorem allocation_covered_sample :
    ∃ s', Commits (setupSmartAccount (tradingPeers Unit) 0xD 10003 1 sampleAllocation)
        sampleState () s' ∧
      wegldPassed [87] (newEvents sampleState s') = 10000 := by
  have h : check (setupSmartAccount (tradingPeers Unit) 0xD 10003 1 sampleAllocation) sampleState
      (fun _ => true) = true := by decide +kernel
  obtain ⟨s', hs, _⟩ := exists_of_check h
  obtain ⟨_, _, _, hlog⟩ := allocation_covered tradingPeers_honest 0xD 10003 1
    (L := sampleAllocation) tradingPeers_wegldAt (by decide)
  refine ⟨s', hs, ?_⟩
  rw [(hlog s' hs).2 tradingPeers_pairs]
  decide

end SmartAccount

end PortfolioPilot
