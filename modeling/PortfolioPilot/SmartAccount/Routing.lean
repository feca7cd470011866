/-
# `SmartAccount.Routing` — LP and Farm steps at a pair

The liquidity code is written out twice in the source, once for LP steps and once
for Farm steps.  Both are one computation, `pairCalls`, followed by what the step does
with the LP tokens, `settled`: an LP step records them, a Farm step enters the farm with
them and records the farm token (`PoolAt.run_calls`).  Both are spelled out down to
`execute`, so that what is sent with each call, made or refused, can be read off them;
of a step that commits it can be read off the log.

    swap half of the investment  →  out
    add_liquidity [first, second]  →  LP tokens
    LP: save them        Farm: enter_farm [LP tokens]  →  the farm token, save it

The `else` branch of either copy takes WEGLD to be the second token of the pair
without a check.  For a pair that trades its two tokens for each other (`Trades`) the
swap before it has checked: one of the two is WEGLD, and the other is what the swap
returned (`Trades.routed`).
-/
import PortfolioPilot.SmartAccount.Portfolio

namespace PortfolioPilot

namespace SmartAccount

open Revert

variable {σ : Type} {P : Peers σ} {s s' : State σ}

/-! ## Where a step adds its liquidity -/

/-- What a step does with its LP tokens. -/
def settle (P : Peers σ) (step : Strategy) (lpTokens : EsdtTokenPayment) : Exec σ Unit :=
  match step.positionType with
  | .farm => do
      let enterFarmResult ← callEnterFarm P step.contractAddress [lpTokens]
      saveUserPosition enterFarmResult.newFarmToken
  | .esdt | .staking | .lp => saveUserPosition lpTokens

/-- Where an LP or Farm step in `s` adds its liquidity. -/
inductive PoolAt (P : Peers σ) (s : State σ) (step : Strategy) (pair : Address) : Prop
  | lp : step.positionType = .lp → step.contractAddress = pair → PoolAt P s step pair
  | farm : step.positionType = .farm →
      P.pairContractAddress s.outside step.contractAddress = some pair → PoolAt P s step pair

theorem PoolAt.kind {step : Strategy} {pair : Address} (h : PoolAt P s step pair) :
    step.positionType = .lp ∨ step.positionType = .farm := by
  cases h with
  | lp ht _ => exact Or.inl ht
  | farm ht _ => exact Or.inr ht

theorem PoolAt.unique {step : Strategy} {pair pair' : Address} (h : PoolAt P s step pair)
    (h' : PoolAt P s step pair') : pair' = pair := by
  cases h with
  | lp ht hat =>
      cases h' with
      | lp _ hat' => exact hat'.symm.trans hat
      | farm ht' _ => cases ht.symm.trans ht'
  | farm ht hread =>
      cases h' with
      | lp ht' _ => cases ht.symm.trans ht'
      | farm _ hread' => exact Option.some.inj (hread'.symm.trans hread)

/-- The step, taken apart at its LP tokens. -/
theorem PoolAt.run {A : Nat} {step : Strategy} {pair : Address} (h : PoolAt P s step pair) :
    (processPosition P A step).run s =
      (addedLiquidity P A step pair >>= settle P step).run s := by
  unfold processPosition settle
  cases h with
  | lp ht hpair =>
      rw [ht, ← hpair]
      exact congrArg (fun x => StateT.run x s) (processLpPosition_eq A step)
  | farm ht hpair =>
      rw [ht]
      exact processFarmPosition_run hpair

/-! ## The calls, spelled out -/

/-- `add_liquidity` of `first` and `second` at `pair`, and what is asked of its answer. -/
def addedTo (P : Peers σ) (pair : Address) (first second : EsdtTokenPayment) :
    Exec σ EsdtTokenPayment := do
  let returned ← execute P (.addLiquidity pair first second 1 1)
  let x ← demand (threeOf returned.result) .resultDecode
  require (x.2.1.amount ≤ first.amount) .subtraction
  require (x.2.2.amount ≤ second.amount) .subtraction
  return x.1

/-- The two calls that a step makes at `pair`, for its LP tokens. -/
def pairCalls (P : Peers σ) (A : Nat) (step : Strategy) (pair : Address) :
    Exec σ EsdtTokenPayment := do
  let w ← getWegldTokenId P
  let returned ← execute P (.swapTokensFixedInput pair ⟨w, 0, investment A step / 2⟩
    step.outputTokenId swapMinAmount)
  let out ← demand (oneOf returned.result) .resultDecode
  let s ← get
  addedTo P pair (sides P s.outside pair w (investment A step / 2) out).1
    (sides P s.outside pair w (investment A step / 2) out).2

/-- `enter_farm` with the LP tokens and nothing else, for the new farm token. -/
def enteredInto (P : Peers σ) (farm : Address) (lpTokens : EsdtTokenPayment) :
    Exec σ EsdtTokenPayment := do
  let returned ← execute P (.enterFarm farm [lpTokens])
  let x ← demand (twoOf returned.result) .resultDecode
  return x.1

/-- What a step does with its LP tokens, down to what is recorded. -/
def settled (P : Peers σ) (step : Strategy) (lpTokens : EsdtTokenPayment) : Exec σ Unit :=
  match step.positionType with
  | .farm => do
      let newFarmToken ← enteredInto P step.contractAddress lpTokens
      modify (State.save · newFarmToken)
  | .esdt | .staking | .lp => modify (State.save · lpTokens)

theorem addedTo_eq {pair : Address} {first second : EsdtTokenPayment} :
    addedTo P pair first second =
      callPairAddLiquidity P ⟨pair, first, second, 1, 1⟩ >>= fun x => pure x.lpTokens := by
  unfold addedTo callPairAddLiquidity bigUintSub
  simp only [bind_assoc, pure_bind]

theorem pairCalls_eq {A : Nat} {step : Strategy} {pair : Address} :
    pairCalls P A step pair = addedLiquidity P A step pair := by
  unfold pairCalls addedLiquidity provideLiquidity callPairSwap
  simp only [addedTo_eq, bind_assoc]

theorem settled_eq {step : Strategy} : settled P step = settle P step := by
  funext lpTokens
  unfold settled settle enteredInto callEnterFarm
  cases step.positionType with
  | farm =>
      simp only [bind_assoc, pure_bind]
      rfl
  | _ => rfl

theorem commits_enteredInto {farm : Address} {lpTokens newFarm : EsdtTokenPayment} :
    Commits (enteredInto P farm lpTokens) s newFarm s' ↔ ∃ r rewards,
      Executes P (.enterFarm farm [lpTokens]) s r s' ∧ r.result = [newFarm, rewards] := by
  simp only [enteredInto, commits_bind, commits_demand, twoOf_eq_some, commits_pure]
  constructor
  · rintro ⟨r, _, hx, y, _, ⟨hr, rfl⟩, rfl, rfl⟩
    exact ⟨r, y.2, hx, hr⟩
  · rintro ⟨r, rewards, hx, hr⟩
    exact ⟨r, _, hx, (newFarm, rewards), _, ⟨hr, rfl⟩, rfl, rfl⟩

/-- An LP or Farm step, call by call. -/
theorem PoolAt.run_calls {A : Nat} {step : Strategy} {pair : Address} (h : PoolAt P s step pair) :
    (processPosition P A step).run s = (pairCalls P A step pair >>= settled P step).run s := by
  rw [h.run, pairCalls_eq, settled_eq]

/-- The LP tokens of a step, from the state after its swap on. -/
theorem pairCalls_run {A : Nat} {step : Strategy} {pair : Address} {w : TokenIdentifier}
    {r : Returned} {out : EsdtTokenPayment} {s₁ : State σ} (hw : WegldAt P s w)
    (hx : Executes P (.swapTokensFixedInput pair ⟨w, 0, investment A step / 2⟩ step.outputTokenId
      swapMinAmount) s r s₁) (hr : r.result = [out]) :
    (pairCalls P A step pair).run s =
      (addedTo P pair (sides P s₁.outside pair w (investment A step / 2) out).1
        (sides P s₁.outside pair w (investment A step / 2) out).2).run s₁ := by
  have hread : Commits (getWegldTokenId P) s w s := commits_getWegldTokenId.mpr ⟨hw, rfl⟩
  have hout : Commits (demand (oneOf r.result) TxError.resultDecode) s₁ out s₁ :=
    commits_demand.mpr ⟨oneOf_eq_some.mpr hr, rfl⟩
  unfold pairCalls
  rw [run_bind_of_commits hread, run_bind_of_commits hx, run_bind_of_commits hout]
  rfl

/-! ## The two payments -/

/-- The documented behaviour of a pair: it trades its two tokens, which are distinct.  A
swap succeeds only if its input is one of them, and it returns the other one, which is
the token requested. -/
structure Trades (P : Peers σ) (pair : Address) : Prop where
  distinct : ∀ {o o' : σ} {a : Address} {input : EsdtTokenPayment} {t : TokenIdentifier} {m : Nat}
    {r : Returned}, P.call o a (.swapTokensFixedInput pair input t m) = some (o', r) →
      P.firstTokenId o' pair ≠ P.secondTokenId o' pair
  input : ∀ {o o' : σ} {a : Address} {input : EsdtTokenPayment} {t : TokenIdentifier} {m : Nat}
    {r : Returned}, P.call o a (.swapTokensFixedInput pair input t m) = some (o', r) →
      input.tokenIdentifier = P.firstTokenId o' pair ∨
      input.tokenIdentifier = P.secondTokenId o' pair
  output : ∀ {o o' : σ} {a : Address} {input out : EsdtTokenPayment} {t : TokenIdentifier} {m : Nat}
    {r : Returned}, P.call o a (.swapTokensFixedInput pair input t m) = some (o', r) →
      r.result = [out] → out.tokenIdentifier = t ∧ out.tokenIdentifier ≠ input.tokenIdentifier ∧
      (out.tokenIdentifier = P.firstTokenId o' pair ∨
        out.tokenIdentifier = P.secondTokenId o' pair)

/-- The payments `first` and `second` are those of the pair's tokens, in its order: `half`
WEGLD on one side, the whole swap output on the other. -/
structure Routed (P : Peers σ) (o : σ) (pair : Address) (w : TokenIdentifier) (half : Nat)
    (out first second : EsdtTokenPayment) : Prop where
  first_token : first.tokenIdentifier = P.firstTokenId o pair
  second_token : second.tokenIdentifier = P.secondTokenId o pair
  distinct : first.tokenIdentifier ≠ second.tokenIdentifier
  amounts : (first = ⟨w, 0, half⟩ ∧ second = out) ∨ (first = out ∧ second = ⟨w, 0, half⟩)

/-- After a swap of WEGLD, both branches route right. -/
theorem Trades.routed {pair : Address} (hpair : Trades P pair) {o o' : σ} {a : Address}
    {w t : TokenIdentifier} {half m : Nat} {r : Returned} {out : EsdtTokenPayment}
    (hc : P.call o a (.swapTokensFixedInput pair ⟨w, 0, half⟩ t m) = some (o', r))
    (hr : r.result = [out]) :
    Routed P o' pair w half out (sides P o' pair w half out).1 (sides P o' pair w half out).2 := by
  have hdistinct := hpair.distinct hc
  obtain ⟨_, hother, hout⟩ := hpair.output hc hr
  have hwegld : w = P.firstTokenId o' pair ∨ w = P.secondTokenId o' pair := hpair.input hc
  unfold sides
  by_cases hf : P.firstTokenId o' pair = w
  · rw [if_pos hf]
    have hsecond : out.tokenIdentifier = P.secondTokenId o' pair :=
      hout.resolve_left fun h => hother (h.trans hf)
    refine ⟨rfl, hsecond, ?_, Or.inl ⟨by rw [hf], rfl⟩⟩
    rw [hsecond]
    exact hdistinct
  · rw [if_neg hf]
    have hs : w = P.secondTokenId o' pair := hwegld.resolve_left fun h => hf h.symm
    have hfirst : out.tokenIdentifier = P.firstTokenId o' pair :=
      hout.resolve_right fun h => hother (h.trans hs.symm)
    refine ⟨hfirst, rfl, ?_, Or.inr ⟨rfl, by rw [hs]⟩⟩
    rw [hfirst]
    exact hdistinct

/-- The calls of the contract at `a` that log `calls`: from `o` on, `half` WEGLD is swapped at
`pair`, then routed payments are added there, for the LP tokens `lp`. -/
inductive RoutedCalls (P : Peers σ) (a : Address) (w : TokenIdentifier) (half : Nat)
    (pair : Address) (tokenOut : TokenIdentifier) (lp : EsdtTokenPayment) (o : σ) :
    σ → List Event → Prop
  | mk {out first second : EsdtTokenPayment} {r₁ r₂ : Returned} {o₁ o₂ : σ} :
      P.call o a (.swapTokensFixedInput pair ⟨w, 0, half⟩ tokenOut swapMinAmount) = some (o₁, r₁) →
      r₁.result = [out] →
      Routed P o₁ pair w half out first second →
      P.call o₁ a (.addLiquidity pair first second 1 1) = some (o₂, r₂) →
      r₂.result.head? = some lp →
      RoutedCalls P a w half pair tokenOut lp o o₂
        [.called (.swapTokensFixedInput pair ⟨w, 0, half⟩ tokenOut swapMinAmount) r₁,
          .called (.addLiquidity pair first second 1 1) r₂]

/-- What a step logs after its calls at the pair: the LP tokens, recorded, or one `enter_farm`
with exactly these and the farm token that it returned, recorded. -/
inductive Settles (P : Peers σ) (a : Address) (step : Strategy) (lp : EsdtTokenPayment) (o : σ) :
    List Event → Prop
  | lp : step.positionType = .lp → Settles P a step lp o [.saved lp]
  | farm {r : Returned} {newFarm rewards : EsdtTokenPayment} {o' : σ} :
      step.positionType = .farm →
      P.call o a (.enterFarm step.contractAddress [lp]) = some (o', r) →
      r.result = [newFarm, rewards] →
      Settles P a step lp o [.called (.enterFarm step.contractAddress [lp]) r, .saved newFarm]

theorem Liquidity.routedCalls {w tokenOut : TokenIdentifier} {half : Nat} {pair : Address}
    {lp : EsdtTokenPayment} (hpair : Trades P pair) (h : Liquidity P w half pair tokenOut s lp s') :
    ∃ calls, RoutedCalls P s.self w half pair tokenOut lp s.outside s'.outside calls ∧
      s'.log = s.log ++ calls := by
  cases h with
  | @mk s₁ r₁ r₂ out _ _ hx₁ hr₁ hx₂ hr₂ _ _ =>
      have hanswer := hx₂.answer
      rw [hx₁.frame.1] at hanswer
      have hlp : r₂.result.head? = some lp := by
        rw [hr₂]
        rfl
      refine ⟨_, .mk hx₁.answer hr₁ (hpair.routed hx₁.answer hr₁) hanswer hlp, ?_⟩
      rw [hx₂.frame.2.2.2, hx₁.frame.2.2.2, List.append_assoc]
      rfl

theorem Liquidity.self {w tokenOut : TokenIdentifier} {half : Nat} {pair : Address}
    {lp : EsdtTokenPayment} (h : Liquidity P w half pair tokenOut s lp s') : s'.self = s.self :=
  h.related (R := fun s s' => s'.self = s.self) (fun h₁ h₂ => h₂.trans h₁) fun _ hx => hx.frame.1

/-- The log of an LP or Farm step. -/
theorem Processed.routed {A : Nat} {step : Strategy} {pair : Address}
    (h : Processed P A step s s') (hpool : PoolAt P s step pair) (hpair : Trades P pair) :
    ∃ w lp o calls ending, WegldAt P s w ∧
      RoutedCalls P s.self w (investment A step / 2) pair step.outputTokenId lp s.outside o calls ∧
      Settles P s.self step lp o ending ∧ s'.log = s.log ++ calls ++ ending := by
  cases h with
  | @lp w lp s₂ ht hw hl =>
      cases hpool.unique (.lp ht rfl)
      obtain ⟨calls, hcalls, hlog⟩ := hl.routedCalls hpair
      exact ⟨w, lp, _, calls, _, hw, hcalls, .lp ht, congrArg (· ++ [Event.saved lp]) hlog⟩
  | @farm w pair' lp newFarm rewards r s₂ s₃ ht hw hread hl hx hr =>
      cases hpool.unique (.farm ht hread)
      obtain ⟨calls, hcalls, hlog⟩ := hl.routedCalls hpair
      have hanswer := hx.answer
      rw [hl.self] at hanswer
      refine ⟨w, lp, _, calls, _, hw, hcalls, .farm ht hanswer hr, ?_⟩
      show s₃.log ++ [Event.saved newFarm] = _
      rw [hx.frame.2.2.2, hlog, List.append_assoc]
      rfl
  | esdt ht _ _ _ =>
      rcases hpool.kind with hkind | hkind <;> cases ht.symm.trans hkind
  | staking ht _ _ _ _ _ _ =>
      rcases hpool.kind with hkind | hkind <;> cases ht.symm.trans hkind

/-- After its swap, the rest of a step is an `add_liquidity` of routed payments, and what the
step does with the LP tokens. -/
theorem PoolAt.run_after_swap {A : Nat} {step : Strategy} {pair : Address}
    (h : PoolAt P s step pair) (hpair : Trades P pair) {w : TokenIdentifier} {r : Returned}
    {out : EsdtTokenPayment} {s₁ : State σ} (hw : WegldAt P s w)
    (hx : Executes P (.swapTokensFixedInput pair ⟨w, 0, investment A step / 2⟩ step.outputTokenId
      swapMinAmount) s r s₁) (hr : r.result = [out]) :
    ∃ first second, Routed P s₁.outside pair w (investment A step / 2) out first second ∧
      (processPosition P A step).run s =
        (addedTo P pair first second >>= settled P step).run s₁ := by
  refine ⟨_, _, hpair.routed hx.answer hr, ?_⟩
  rw [h.run_calls, StateT.run_bind, pairCalls_run hw hx hr, ← StateT.run_bind]

/-- A Farm step and an LP step at the pair of its farm, of the same percentage and output
token. -/
structure Copies (P : Peers σ) (s : State σ) (pair : Address) (farm lp : Strategy) : Prop where
  farm_type : farm.positionType = .farm
  farm_pair : P.pairContractAddress s.outside farm.contractAddress = some pair
  lp_type : lp.positionType = .lp
  lp_pair : lp.contractAddress = pair
  percentage : lp.percentage = farm.percentage
  output : lp.outputTokenId = farm.outputTokenId

theorem Copies.run_lp {A : Nat} {pair : Address} {farm lp : Strategy}
    (h : Copies P s pair farm lp) :
    (processPosition P A lp).run s = (do
      let lpTokens ← pairCalls P A farm pair
      modify (State.save · lpTokens)).run s := by
  have hsame : pairCalls P A lp pair = pairCalls P A farm pair := by
    unfold pairCalls investment
    rw [h.percentage, h.output]
  rw [(PoolAt.lp h.lp_type h.lp_pair).run_calls, hsame]
  unfold settled
  rw [h.lp_type]

theorem Copies.run_farm {A : Nat} {pair : Address} {farm lp : Strategy}
    (h : Copies P s pair farm lp) :
    (processPosition P A farm).run s = (do
      let lpTokens ← pairCalls P A farm pair
      let newFarmToken ← enteredInto P farm.contractAddress lpTokens
      modify (State.save · newFarmToken)).run s := by
  rw [(PoolAt.farm h.farm_type h.farm_pair).run_calls]
  unfold settled
  rw [h.farm_type]

/-- The calls of a step at its pair, in the log. -/
theorem Liquidity.log {w tokenOut : TokenIdentifier} {half : Nat} {pair : Address}
    {lp : EsdtTokenPayment} (h : Liquidity P w half pair tokenOut s lp s') :
    ∃ first second r₁ r₂, s'.log = s.log ++
      [.called (.swapTokensFixedInput pair ⟨w, 0, half⟩ tokenOut swapMinAmount) r₁,
        .called (.addLiquidity pair first second 1 1) r₂] := by
  cases h with
  | @mk s₁ r₁ r₂ out _ _ hx₁ _ hx₂ _ _ _ =>
      refine ⟨(sides P s₁.outside pair w half out).1, (sides P s₁.outside pair w half out).2,
        r₁, r₂, ?_⟩
      rw [hx₂.frame.2.2.2, hx₁.frame.2.2.2, List.append_assoc]
      rfl

/-- Where the Farm step goes through the LP step does, and their logs part at the LP tokens. -/
theorem Copies.log {A : Nat} {pair : Address} {farm lp : Strategy} (h : Copies P s pair farm lp)
    (hc : Commits (processPosition P A farm) s () s') :
    ∃ s'' w first second lpTokens newFarm rewards r₁ r₂ r,
      Commits (processPosition P A lp) s () s'' ∧
      s''.log = s.log ++
        [.called (.swapTokensFixedInput pair ⟨w, 0, investment A farm / 2⟩ farm.outputTokenId
            swapMinAmount) r₁,
          .called (.addLiquidity pair first second 1 1) r₂, .saved lpTokens] ∧
      s'.log = s.log ++
        [.called (.swapTokensFixedInput pair ⟨w, 0, investment A farm / 2⟩ farm.outputTokenId
            swapMinAmount) r₁,
          .called (.addLiquidity pair first second 1 1) r₂,
          .called (.enterFarm farm.contractAddress [lpTokens]) r, .saved newFarm] ∧
      r.result = [newFarm, rewards] := by
  have hfarm := h.run_farm.symm.trans hc
  obtain ⟨lpTokens, s₂, hcalls, hrest⟩ := commits_bind.mp hfarm
  obtain ⟨newFarm, s₃, henter, hsave⟩ := commits_bind.mp hrest
  obtain ⟨r, rewards, hx, hr⟩ := commits_enteredInto.mp henter
  have hlp : Commits (processPosition P A lp) s () (s₂.save lpTokens) :=
    h.run_lp.trans (commits_bind.mpr ⟨lpTokens, s₂, hcalls, commits_modify.mpr rfl⟩)
  rw [pairCalls_eq] at hcalls
  obtain ⟨w, _, hl⟩ := commits_addedLiquidity.mp hcalls
  obtain ⟨first, second, r₁, r₂, hlog⟩ := hl.log
  refine ⟨_, w, first, second, lpTokens, newFarm, rewards, r₁, r₂, r, hlp, ?_, ?_, hr⟩
  · show s₂.log ++ [Event.saved lpTokens] = _
    rw [hlog, List.append_assoc]
    rfl
  · rw [commits_modify.mp hsave]
    show s₃.log ++ [Event.saved newFarm] = _
    rw [hx.frame.2.2.2, hlog, List.append_assoc, List.append_assoc]
    rfl

/-- **LP and Farm steps are routed right, and the two copies agree.**  When the swap of an
LP or Farm step has succeeded, the rest of the step starts with an `add_liquidity` of
exactly two payments, of the first and the second token of the pair in this order: half
of the investment in WEGLD, and the whole swap output.  When the step commits, its log has
grown by these two calls at the pair and, for an LP step, the LP tokens recorded; for a
Farm step, by one `enter_farm` with exactly the LP tokens and the new farm token recorded.
In any state a Farm step and an LP step at the pair of its farm, of the same percentage and
output token, run the same calls at the pair up to the LP tokens, whether these go through
or not; and where the Farm step commits the LP step does too, with the same calls in its
log, and the logs differ in what follows the LP tokens. -/
theorem liquidity_routed (A : Nat) (s : State σ) (pair : Address) :
    (∀ step w r out s₁, PoolAt P s step pair → Trades P pair → WegldAt P s w →
      Executes P (.swapTokensFixedInput pair ⟨w, 0, investment A step / 2⟩ step.outputTokenId
        swapMinAmount) s r s₁ → r.result = [out] →
      ∃ first second, Routed P s₁.outside pair w (investment A step / 2) out first second ∧
        (processPosition P A step).run s =
          (addedTo P pair first second >>= settled P step).run s₁) ∧
    (∀ step s', PoolAt P s step pair → Trades P pair → Commits (processPosition P A step) s () s' →
      ∃ w lp o calls ending, WegldAt P s w ∧
        RoutedCalls P s.self w (investment A step / 2) pair step.outputTokenId lp s.outside o
          calls ∧
        Settles P s.self step lp o ending ∧ s'.log = s.log ++ calls ++ ending) ∧
    (∀ farm lp, Copies P s pair farm lp →
      (processPosition P A lp).run s = (do
        let lpTokens ← pairCalls P A farm pair
        modify (State.save · lpTokens)).run s ∧
      (processPosition P A farm).run s = (do
        let lpTokens ← pairCalls P A farm pair
        let newFarmToken ← enteredInto P farm.contractAddress lpTokens
        modify (State.save · newFarmToken)).run s ∧
      ∀ s', Commits (processPosition P A farm) s () s' →
        ∃ s'' w first second lpTokens newFarm rewards r₁ r₂ r,
          Commits (processPosition P A lp) s () s'' ∧
          s''.log = s.log ++
            [.called (.swapTokensFixedInput pair ⟨w, 0, investment A farm / 2⟩ farm.outputTokenId
                swapMinAmount) r₁,
              .called (.addLiquidity pair first second 1 1) r₂, .saved lpTokens] ∧
          s'.log = s.log ++
            [.called (.swapTokensFixedInput pair ⟨w, 0, investment A farm / 2⟩ farm.outputTokenId
                swapMinAmount) r₁,
              .called (.addLiquidity pair first second 1 1) r₂,
              .called (.enterFarm farm.contractAddress [lpTokens]) r, .saved newFarm] ∧
          r.result = [newFarm, rewards]) := by
  refine ⟨?_, ?_, ?_⟩
  · intro step w r out s₁ hpool hpair hw hx hr
    exact hpool.run_after_swap hpair hw hx hr
  · intro step s' hpool hpair hc
    exact (processed_of_commits hc).routed hpool hpair
  · intro farm lp hcopies
    exact ⟨hcopies.run_lp, hcopies.run_farm, fun s' hc => hcopies.log hc⟩

/-! ## Concrete pairs

Third parties of any state, which none of their calls changes.  A pair trades `W` and
`M`, one for as much of the other, and uses all it is sent for liquidity. -/

def tradingPeers (σ : Type) : Peers σ where
  egldWrapperAddress _ _ := some 0xE
  farmStakingAddressForToken _ _ _ := some 0xF
  wrappedEgldTokenId _ _ := [87]
  pairContractAddress _ _ := some 0xA
  firstTokenId _ _ := [87]
  secondTokenId _ _ := [77]
  call o _ c := match c with
    | .wrapEgld _ amount => some (o, ⟨0, [⟨[87], 0, amount⟩], []⟩)
    | .swapTokensFixedInput _ input tokenOut _ =>
        if (input.tokenIdentifier = [87] ∧ tokenOut = [77]) ∨
            (input.tokenIdentifier = [77] ∧ tokenOut = [87]) then
          some (o, ⟨0, [⟨tokenOut, 0, input.amount⟩], [⟨tokenOut, 0, input.amount⟩]⟩)
        else none
    | .addLiquidity _ first second _ _ =>
        some (o, ⟨0, [⟨[76], 0, first.amount⟩], [⟨[76], 0, first.amount⟩, first, second]⟩)
    | .stakeFarm _ _ | .enterFarm _ _ =>
        some (o, ⟨0, [⟨[70], 1, 1⟩], [⟨[70], 1, 1⟩, ⟨[82], 0, 0⟩]⟩)

/-- A swap of the sample pairs that went through. -/
theorem tradingPeers_swap {o o' : σ} {a pair : Address} {input : EsdtTokenPayment}
    {t : TokenIdentifier} {m : Nat} {r : Returned}
    (h : (tradingPeers σ).call o a (.swapTokensFixedInput pair input t m) = some (o', r)) :
    ((input.tokenIdentifier = [87] ∧ t = [77]) ∨ (input.tokenIdentifier = [77] ∧ t = [87])) ∧
      r.result = [⟨t, 0, input.amount⟩] ∧ r.transfers = r.result := by
  obtain ⟨hc, h⟩ := Option.ite_none_right_eq_some.mp h
  cases h
  exact ⟨hc, rfl, rfl⟩

/-- A pair that trades like these, for whatever amount, with the two tokens in either order. -/
theorem trades_of_order {P : Peers σ} {pair : Address}
    (hswap : ∀ {o o' : σ} {a : Address} {input : EsdtTokenPayment} {t : TokenIdentifier} {m : Nat}
      {r : Returned}, P.call o a (.swapTokensFixedInput pair input t m) = some (o', r) →
      ((input.tokenIdentifier = [87] ∧ t = [77]) ∨ (input.tokenIdentifier = [77] ∧ t = [87])) ∧
        ∃ n, r.result = [⟨t, 0, n⟩])
    (horder : ∀ o, (P.firstTokenId o pair = [87] ∧ P.secondTokenId o pair = [77]) ∨
      (P.firstTokenId o pair = [77] ∧ P.secondTokenId o pair = [87])) : Trades P pair := by
  -- the two tokens, whichever comes first
  have hone : ∀ o (t : TokenIdentifier), t = [87] ∨ t = [77] →
      t = P.firstTokenId o pair ∨ t = P.secondTokenId o pair := by
    intro o t ht
    rcases horder o with ⟨hfirst, hsecond⟩ | ⟨hfirst, hsecond⟩
    · rw [hfirst, hsecond]
      exact ht
    · rw [hfirst, hsecond]
      exact ht.symm
  constructor
  · intro _ o' _ _ _ _ _ _
    rcases horder o' with ⟨hfirst, hsecond⟩ | ⟨hfirst, hsecond⟩
    · rw [hfirst, hsecond]
      decide
    · rw [hfirst, hsecond]
      decide
  · intro _ o' _ _ _ _ _ h
    exact hone o' _ ((hswap h).1.imp And.left And.left)
  · intro _ o' _ _ _ _ _ _ h hr
    obtain ⟨hin, _, hres⟩ := hswap h
    cases List.singleton_inj.mp (hr.symm.trans hres)
    refine ⟨rfl, ?_, hone o' _ (hin.symm.imp And.right And.right)⟩
    rcases hin with ⟨hin, rfl⟩ | ⟨hin, rfl⟩
    · rw [hin]
      exact show ([77] : TokenIdentifier) ≠ [87] by decide
    · rw [hin]
      exact show ([87] : TokenIdentifier) ≠ [77] by decide

theorem tradingPeers_trades (pair : Address) : Trades (tradingPeers σ) pair := by
  refine trades_of_order (fun h => ?_) fun _ => Or.inl ⟨rfl, rfl⟩
  obtain ⟨hin, hres, _⟩ := tradingPeers_swap h
  exact ⟨hin, _, hres⟩

/-- The same pairs, with WEGLD as their second token. -/
def reversedPeers (σ : Type) : Peers σ :=
  { tradingPeers σ with
    firstTokenId := fun _ _ => [77]
    secondTokenId := fun _ _ => [87] }

theorem reversedPeers_trades (pair : Address) : Trades (reversedPeers σ) pair := by
  refine trades_of_order ?_ fun _ => Or.inr ⟨rfl, rfl⟩
  intro o o' a input t m r h
  have hcall : (tradingPeers σ).call o a (.swapTokensFixedInput pair input t m) = some (o', r) := h
  obtain ⟨hin, hres, _⟩ := tradingPeers_swap hcall
  exact ⟨hin, _, hres⟩

/-- An account whose deposit of 10000 is wrapped. -/
def wrappedState : State Unit := { sampleState with esdt := fun _ => 10000 }

/-- A Farm step of 10000 at a pair with WEGLD first and at one with WEGLD second: the swap, and
the log; and an LP step at the second. -/
theorem liquidity_routed_sample :
    (∃ s' w lp o calls ending,
      Commits (processPosition (tradingPeers Unit) 10000 (sampleStep .farm 10000)) wrappedState ()
        s' ∧
      RoutedCalls (tradingPeers Unit) 0xACC w 5000 0xA [77] lp () o calls ∧
      Settles (tradingPeers Unit) 0xACC (sampleStep .farm 10000) lp o ending ∧
      s'.log = calls ++ ending) ∧
    (∃ s' w lp o calls ending,
      Commits (processPosition (reversedPeers Unit) 10000 (sampleStep .farm 10000)) wrappedState ()
        s' ∧
      RoutedCalls (reversedPeers Unit) 0xACC w 5000 0xA [77] lp () o calls ∧
      Settles (reversedPeers Unit) 0xACC (sampleStep .farm 10000) lp o ending ∧
      s'.log = calls ++ ending) ∧
    (∃ r s₁ first second,
      Executes (reversedPeers Unit) (.swapTokensFixedInput 0xA ⟨[87], 0, 5000⟩ [77] swapMinAmount)
        wrappedState r s₁ ∧
      Routed (reversedPeers Unit) () 0xA [87] 5000 ⟨[77], 0, 5000⟩ first second ∧
      (processPosition (reversedPeers Unit) 10000 (sampleStep .lp 10000)).run wrappedState =
        (addedTo (reversedPeers Unit) 0xA first second >>=
          settled (reversedPeers Unit) (sampleStep .lp 10000)).run s₁) ∧
    ∃ s' s'' r newFarm lpTokens calls,
      Commits (processPosition (reversedPeers Unit) 10000 (sampleStep .farm 10000)) wrappedState ()
        s' ∧
      Commits (processPosition (reversedPeers Unit) 10000 (sampleStep .lp 10000)) wrappedState ()
        s'' ∧
      s''.log = calls ++ [.saved lpTokens] ∧
      s'.log = calls ++ [.called (.enterFarm 0xA [lpTokens]) r, .saved newFarm] := by
  have hfarm : check (processPosition (tradingPeers Unit) 10000 (sampleStep .farm 10000))
      wrappedState (fun _ => true) = true := by decide +kernel
  have hreversed : check (processPosition (reversedPeers Unit) 10000 (sampleStep .farm 10000))
      wrappedState (fun _ => true) = true := by decide +kernel
  obtain ⟨s', hs', _⟩ := exists_of_check hfarm
  obtain ⟨s'', hs'', _⟩ := exists_of_check hreversed
  refine ⟨?_, ?_, ?_, ?_⟩
  · obtain ⟨w, lp, o, calls, ending, _, hcalls, hsettles, hlog⟩ :=
      (liquidity_routed 10000 wrappedState 0xA).2.1 (sampleStep .farm 10000) s' (.farm rfl rfl)
        (tradingPeers_trades 0xA) hs'
    exact ⟨s', w, lp, o, calls, ending, hs', hcalls, hsettles, hlog⟩
  · obtain ⟨w, lp, o, calls, ending, _, hcalls, hsettles, hlog⟩ :=
      (liquidity_routed 10000 wrappedState 0xA).2.1 (sampleStep .farm 10000) s'' (.farm rfl rfl)
        (reversedPeers_trades 0xA) hs''
    exact ⟨s'', w, lp, o, calls, ending, hs'', hcalls, hsettles, hlog⟩
  · obtain ⟨r, s₁, hx, hr⟩ : ∃ r s₁, Executes (reversedPeers Unit)
        (.swapTokensFixedInput 0xA ⟨[87], 0, 5000⟩ [77] swapMinAmount) wrappedState r s₁ ∧
        r.result = [⟨[77], 0, 5000⟩] := ⟨_, _, rfl, rfl⟩
    obtain ⟨first, second, hrouted, hrun⟩ := (liquidity_routed 10000 wrappedState 0xA).1
      (sampleStep .lp 10000) [87] r _ s₁ (.lp rfl rfl) (reversedPeers_trades 0xA)
      ⟨0xD, 0xE, rfl, rfl, rfl⟩ hx hr
    exact ⟨r, s₁, first, second, hx, hrouted, hrun⟩
  · obtain ⟨u, w, first, second, lpTokens, newFarm, _, r₁, r₂, r, hlp, hlog, hlog', _⟩ :=
      ((liquidity_routed 10000 wrappedState 0xA).2.2 (sampleStep .farm 10000)
        (sampleStep .lp 10000) ⟨rfl, rfl, rfl, rfl, rfl, rfl⟩).2.2 s'' hs''
    exact ⟨s'', u, r, newFarm, lpTokens,
      [.called (.swapTokensFixedInput 0xA ⟨w, 0, 5000⟩ [77] swapMinAmount) r₁,
        .called (.addLiquidity 0xA first second 1 1) r₂], hs'', hlp, hlog, hlog'⟩

end SmartAccount

end PortfolioPilot
