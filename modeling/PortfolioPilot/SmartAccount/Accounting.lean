/-
# `SmartAccount.Accounting` — where the tokens of a deposit end up

The balance sheet of a committed call, token by token.  Over a call every balance
obeys

    after + spent  =  before + minted + positions + left over

where `minted` and `spent` concern WEGLD only: what the wrapper minted for the
deposit, and what the steps took of it.  `left over` is what the third parties
hand back beside the position of a step: the part of either payment that
`add_liquidity` does not use, and the rewards of `stake_farm` and `enter_farm`.
The account computes the first and receives the second, and records neither.

The law holds for third parties that behave as the wrapper, pair, farm and
staking contracts are documented to (`Standard`).
-/
import PortfolioPilot.Lib.Shares
import PortfolioPilot.SmartAccount.Portfolio

namespace PortfolioPilot

namespace SmartAccount

open Revert

variable {σ : Type} {P : Peers σ} {s s' : State σ}

/-! ## What the third parties do -/

/-- What is left of a payment of which `used` was used. -/
def rest (sent used : EsdtTokenPayment) : EsdtTokenPayment :=
  { sent with amount := sent.amount - used.amount }

/-- The documented behaviour of the third-party contracts. -/
structure Standard (P : Peers σ) : Prop where
  /-- The wrapper address and the token it wraps are set once, when the deployer
  and the wrapper are initialised. -/
  wegld_fixed : ∀ {o o' : σ} {a : Address} {c : ContractCall} {r : Returned},
    P.call o a c = some (o', r) →
      (∀ d, P.egldWrapperAddress o' d = P.egldWrapperAddress o d) ∧
      ∀ w, P.wrappedEgldTokenId o' w = P.wrappedEgldTokenId o w
  /-- The wrapper mints WEGLD 1:1. -/
  wrap : ∀ {o o' : σ} {a wrapper : Address} {n : Nat} {r : Returned},
    P.call o a (.wrapEgld wrapper n) = some (o', r) →
      r.transfers = [⟨P.wrappedEgldTokenId o' wrapper, 0, n⟩]
  /-- A swap keeps its whole input and sends back the one payment it returns. -/
  swap : ∀ {o o' : σ} {a pair : Address} {input out : EsdtTokenPayment}
    {t : TokenIdentifier} {m : Nat} {r : Returned},
    P.call o a (.swapTokensFixedInput pair input t m) = some (o', r) →
      r.result = [out] → r.transfers = [out]
  /-- A swap succeeds only if its input is one of the two tokens of the pair. -/
  swap_input : ∀ {o o' : σ} {a pair : Address} {input : EsdtTokenPayment}
    {t : TokenIdentifier} {m : Nat} {r : Returned},
    P.call o a (.swapTokensFixedInput pair input t m) = some (o', r) →
      input.tokenIdentifier = P.firstTokenId o' pair ∨
      input.tokenIdentifier = P.secondTokenId o' pair
  /-- `add_liquidity` sends back the LP tokens and what it did not use, and
  reports what it used. -/
  add_liquidity : ∀ {o o' : σ} {a pair : Address} {first second lp used₁ used₂ : EsdtTokenPayment}
    {m n : Nat} {r : Returned},
    P.call o a (.addLiquidity pair first second m n) = some (o', r) →
      r.result = [lp, used₁, used₂] →
      ∀ k, totalOf r.transfers k = totalOf [lp, rest first used₁, rest second used₂] k
  /-- `stake_farm` sends back a farm token and a rewards payment, and returns both. -/
  stake_farm : ∀ {o o' : σ} {a farmStaking : Address} {tokens : List EsdtTokenPayment}
    {newFarm rewards : EsdtTokenPayment} {r : Returned},
    P.call o a (.stakeFarm farmStaking tokens) = some (o', r) → r.result = [newFarm, rewards] →
      ∀ k, totalOf r.transfers k = totalOf [newFarm, rewards] k
  /-- `enter_farm` likewise. -/
  enter_farm : ∀ {o o' : σ} {a farm : Address} {tokens : List EsdtTokenPayment}
    {newFarm rewards : EsdtTokenPayment} {r : Returned},
    P.call o a (.enterFarm farm tokens) = some (o', r) → r.result = [newFarm, rewards] →
      ∀ k, totalOf r.transfers k = totalOf [newFarm, rewards] k

/-! ## What a call moves -/

/-- What a call brings back that no position stands for. -/
def Event.leftover : Event → List EsdtTokenPayment
  | .called (.addLiquidity _ first second _ _) ⟨_, _, [_, used₁, used₂]⟩ =>
      [rest first used₁, rest second used₂]
  | .called (.stakeFarm _ _) ⟨_, _, [_, rewards]⟩ => [rewards]
  | .called (.enterFarm _ _) ⟨_, _, [_, rewards]⟩ => [rewards]
  | _ => []

def leftovers (log : List Event) : List EsdtTokenPayment := log.flatMap Event.leftover

@[simp] theorem leftovers_append (l₁ l₂ : List Event) :
    leftovers (l₁ ++ l₂) = leftovers l₁ ++ leftovers l₂ :=
  List.flatMap_append

@[simp] theorem leftovers_nil : leftovers [] = [] := rfl

@[simp] theorem leftovers_cons (e : Event) (log : List Event) :
    leftovers (e :: log) = e.leftover ++ leftovers log := rfl

@[simp] theorem leftover_saved (p : EsdtTokenPayment) : (Event.saved p).leftover = [] := rfl

@[simp] theorem leftover_wrapEgld (wrapper : Address) (n : Nat) (r : Returned) :
    (Event.called (.wrapEgld wrapper n) r).leftover = [] := rfl

@[simp] theorem leftover_swap (pair : Address) (input : EsdtTokenPayment) (t : TokenIdentifier)
    (m : Nat) (r : Returned) :
    (Event.called (.swapTokensFixedInput pair input t m) r).leftover = [] := rfl

theorem leftover_addLiquidity {pair : Address} {first second lp used₁ used₂ : EsdtTokenPayment}
    {m n : Nat} {r : Returned} (h : r.result = [lp, used₁, used₂]) :
    (Event.called (.addLiquidity pair first second m n) r).leftover =
      [rest first used₁, rest second used₂] := by
  cases r with | mk _ _ _ => cases h; rfl

theorem leftover_stakeFarm {a : Address} {tokens : List EsdtTokenPayment}
    {newFarm rewards : EsdtTokenPayment} {r : Returned} (h : r.result = [newFarm, rewards]) :
    (Event.called (.stakeFarm a tokens) r).leftover = [rewards] := by
  cases r with | mk _ _ _ => cases h; rfl

theorem leftover_enterFarm {a : Address} {tokens : List EsdtTokenPayment}
    {newFarm rewards : EsdtTokenPayment} {r : Returned} (h : r.result = [newFarm, rewards]) :
    (Event.called (.enterFarm a tokens) r).leftover = [rewards] := by
  cases r with | mk _ _ _ => cases h; rfl

/-- What a step takes of the WEGLD of the deposit: its investment, or twice the
half of it. -/
def spent (A : Nat) (step : Strategy) : Nat :=
  match step.positionType with
  | .esdt | .staking => investment A step
  | .lp | .farm => 2 * (investment A step / 2)

theorem WegldAt.unique {w w' : TokenIdentifier} (h : WegldAt P s w) (h' : WegldAt P s w') :
    w = w' := by
  obtain ⟨d, a, hd, ha, rfl⟩ := h
  obtain ⟨d', a', hd', ha', rfl⟩ := h'
  have hdd : d = d' := Option.some.inj (hd.symm.trans hd')
  subst hdd
  have haa : a = a' := Option.some.inj (ha.symm.trans ha')
  subst haa; rfl

/-- No call changes the wrapper address or the token it wraps. -/
def WegldFixed (P : Peers σ) : Prop :=
  ∀ (o o' : σ) (a : Address) (c : ContractCall) (r : Returned), P.call o a c = some (o', r) →
    (∀ d, P.egldWrapperAddress o' d = P.egldWrapperAddress o d) ∧
    ∀ w, P.wrappedEgldTokenId o' w = P.wrappedEgldTokenId o w

theorem Standard.fixed (hP : Standard P) : WegldFixed P := by
  intro o o' a c r h
  exact hP.wegld_fixed h

/-- No call changes what WEGLD is. -/
theorem Executes.wegldAt (hP : WegldFixed P) {c : ContractCall} {r : Returned}
    {w : TokenIdentifier} (h : Executes P c s r s') (hw : WegldAt P s w) : WegldAt P s' w := by
  obtain ⟨d, a, hd, ha, rfl⟩ := hw
  obtain ⟨hwrapper, hid⟩ := hP _ _ _ _ _ h.answer
  refine ⟨d, a, ?_, ?_, (hid a).symm⟩
  · rw [h.frame.2.2.1]; exact hd
  · rw [hwrapper]; exact ha

/-! ## The balance sheet -/

/-- From `s` to `s'` the log grew by `events`, the account paid `paid` and
received `got`. -/
structure Moves (paid got : List EsdtTokenPayment) (s s' : State σ) (events : List Event) :
    Prop where
  log : s'.log = s.log ++ events
  balance : ∀ k, s'.esdt k + totalOf paid k = s.esdt k + totalOf got k

theorem Moves.trans {paid₁ got₁ paid₂ got₂ : List EsdtTokenPayment} {m : State σ}
    {l₁ l₂ : List Event} (h₁ : Moves paid₁ got₁ s m l₁) (h₂ : Moves paid₂ got₂ m s' l₂) :
    Moves (paid₁ ++ paid₂) (got₁ ++ got₂) s s' (l₁ ++ l₂) := by
  refine ⟨by rw [h₂.log, h₁.log, List.append_assoc], fun k => ?_⟩
  have e₁ := h₁.balance k
  have e₂ := h₂.balance k
  rw [totalOf_append, totalOf_append]
  omega

/-- What is paid and received counts only token by token. -/
theorem Moves.congr {paid got paid' got' : List EsdtTokenPayment} {events : List Event}
    (h : Moves paid got s s' events)
    (heq : ∀ k, totalOf paid k + totalOf got' k = totalOf paid' k + totalOf got k) :
    Moves paid' got' s s' events := by
  refine ⟨h.log, fun k => ?_⟩
  have e₁ := h.balance k
  have e₂ := heq k
  omega

theorem Executes.moves {c : ContractCall} {r : Returned} {got : List EsdtTokenPayment}
    (h : Executes P c s r s') (hgot : ∀ k, totalOf r.transfers k = totalOf got k) :
    Moves c.payments got s s' [Event.called c r] := by
  refine ⟨h.frame.2.2.2, fun k => ?_⟩
  rw [h.balance k, hgot k]

theorem moves_save (s : State σ) (p : EsdtTokenPayment) :
    Moves [] [] s (s.save p) [Event.saved p] :=
  ⟨rfl, fun _ => rfl⟩

/-- The WEGLD payment of `n` units. -/
def wegldPayment (w : TokenIdentifier) (n : Nat) : EsdtTokenPayment := ⟨w, 0, n⟩

theorem amountOf_wegldPayment_add (w : TokenIdentifier) (m n : Nat) (k : TokenKey) :
    (wegldPayment w (m + n)).amountOf k =
      (wegldPayment w m).amountOf k + (wegldPayment w n).amountOf k := by
  show (if (w, 0) = k then m + n else 0) = (if (w, 0) = k then m else 0) + if (w, 0) = k then n else 0
  by_cases hk : (w, 0) = k
  · rw [if_pos hk, if_pos hk, if_pos hk]
  · rw [if_neg hk, if_neg hk, if_neg hk]

/-- `n` of the token `w` were taken, and every balance grew by the positions and
the leftovers of the events. -/
def Books (w : TokenIdentifier) (n : Nat) (s s' : State σ) (events : List Event) : Prop :=
  Moves [wegldPayment w n] (positions events ++ leftovers events) s s' events

theorem Books.nil (w : TokenIdentifier) (s : State σ) : Books w 0 s s [] := by
  refine ⟨(List.append_nil _).symm, fun k => ?_⟩
  simp [leftovers, wegldPayment, EsdtTokenPayment.amountOf]

theorem Books.trans {w : TokenIdentifier} {m n : Nat} {t : State σ} {l₁ l₂ : List Event}
    (h₁ : Books w m s t l₁) (h₂ : Books w n t s' l₂) : Books w (m + n) s s' (l₁ ++ l₂) := by
  refine (Moves.trans h₁ h₂).congr fun k => ?_
  have e := amountOf_wegldPayment_add w m n k
  simp only [positions_append, leftovers_append, totalOf_append, totalOf_cons, totalOf_nil]
  omega

/-- The two payments of `add_liquidity` after a swap of WEGLD at the pair. -/
theorem totalOf_sides {o : σ} {pair : Address} {w : TokenIdentifier}
    (hw : w = P.firstTokenId o pair ∨ w = P.secondTokenId o pair) (half : Nat)
    (out : EsdtTokenPayment) (k : TokenKey) :
    (sides P o pair w half out).1.amountOf k + (sides P o pair w half out).2.amountOf k =
      (wegldPayment w half).amountOf k + out.amountOf k := by
  unfold sides
  by_cases hf : P.firstTokenId o pair = w
  · rw [if_pos hf, hf]; rfl
  · have hs : w = P.secondTokenId o pair := hw.resolve_left fun h => hf h.symm
    rw [if_neg hf, ← hs]
    exact Nat.add_comm _ _

/-- Half of an investment is swapped and half is paid in; the LP tokens and the
unused rest of either payment come back. -/
theorem Liquidity.moves (hP : Standard P) {w tokenOut : TokenIdentifier} {half : Nat}
    {pair : Address} {lp : EsdtTokenPayment}
    (h : Liquidity P w half pair tokenOut s lp s') :
    ∃ events, positions events = [] ∧
      Moves [wegldPayment w (2 * half)] (lp :: leftovers events) s s' events := by
  cases h with
  | @mk s₁ r₁ r₂ out used₁ used₂ hx₁ hr₁ hx₂ hr₂ _ _ =>
      have m₁ := hx₁.moves fun k => by rw [hP.swap hx₁.answer hr₁]
      have m₂ := hx₂.moves (hP.add_liquidity hx₂.answer hr₂)
      refine ⟨_, rfl, (m₁.trans m₂).congr fun k => ?_⟩
      have e₁ := totalOf_sides (hP.swap_input hx₁.answer) half out k
      have e₂ := amountOf_wegldPayment_add w half half k
      rw [← Nat.two_mul] at e₂
      simp [ContractCall.payments, leftover_addLiquidity hr₂]
      simp only [wegldPayment] at e₁ e₂ ⊢
      omega

/-- The balance sheet of one step. -/
theorem Processed.books (hP : Standard P) {A : Nat} {step : Strategy} {w : TokenIdentifier}
    (h : Processed P A step s s') (hw : WegldAt P s w) :
    ∃ events, Books w (spent A step) s s' events := by
  cases h with
  | @esdt w' r out s₁ ht hw' hx hr =>
      cases hw'.unique hw
      have m₁ := hx.moves fun k => by rw [hP.swap hx.answer hr]
      have hspent : spent A step = investment A step := by rw [spent, ht]
      refine ⟨_, (m₁.trans (moves_save _ _)).congr fun k => ?_⟩
      rw [hspent]
      simp [ContractCall.payments, wegldPayment]
  | @staking w' r₁ r₂ out newFarm rewards farmStaking s₁ s₂ ht hw' hx₁ hr₁ _ hx₂ hr₂ =>
      cases hw'.unique hw
      have m₁ := hx₁.moves fun k => by rw [hP.swap hx₁.answer hr₁]
      have m₂ := hx₂.moves (hP.stake_farm hx₂.answer hr₂)
      have hspent : spent A step = investment A step := by rw [spent, ht]
      refine ⟨_, ((m₁.trans m₂).trans (moves_save _ _)).congr fun k => ?_⟩
      rw [hspent]
      simp [ContractCall.payments, wegldPayment, leftover_stakeFarm hr₂]
      omega
  | @lp w' lp s₂ ht hw' hl =>
      cases hw'.unique hw
      obtain ⟨events, hpos, m⟩ := hl.moves hP
      have hspent : spent A step = 2 * (investment A step / 2) := by rw [spent, ht]
      refine ⟨_, (m.trans (moves_save _ _)).congr fun k => ?_⟩
      rw [hspent]
      simp [hpos]
  | @farm w' pair lp newFarm rewards r s₂ s₃ ht hw' _ hl hx hr =>
      cases hw'.unique hw
      obtain ⟨events, hpos, m⟩ := hl.moves hP
      have m₃ := hx.moves (hP.enter_farm hx.answer hr)
      have hspent : spent A step = 2 * (investment A step / 2) := by rw [spent, ht]
      refine ⟨_, ((m.trans m₃).trans (moves_save _ _)).congr fun k => ?_⟩
      rw [hspent]
      simp [hpos, ContractCall.payments, leftover_enterFarm hr]
      omega

/-- No step changes what WEGLD is. -/
theorem Processed.wegldAt (hP : WegldFixed P) {A : Nat} {step : Strategy} {w : TokenIdentifier}
    (h : Processed P A step s s') (hw : WegldAt P s w) : WegldAt P s' w :=
  h.related (R := fun s s' => WegldAt P s w → WegldAt P s' w) (fun h₁ h₂ hw => h₂ (h₁ hw))
    (fun _ hx => hx.wegldAt hP) (fun _ _ hw => hw) hw

/-- What the steps of a strategy take of the WEGLD of the deposit. -/
def spentAll (A : Nat) (steps : List Strategy) : Nat := (steps.map (spent A)).sum

/-- The balance sheet of the loop. -/
theorem ProcessedAll.books (hP : Standard P) {A : Nat} {steps : List Strategy}
    {w : TokenIdentifier} (h : ProcessedAll P A steps s s') (hw : WegldAt P s w) :
    ∃ events, Books w (spentAll A steps) s s' events := by
  induction h with
  | @nil s => exact ⟨[], .nil w s⟩
  | @cons step steps s m s' hstep _ ih =>
      obtain ⟨l₁, hb₁⟩ := hstep.books hP hw
      obtain ⟨l₂, hb₂⟩ := ih (hstep.wegldAt hP.fixed hw)
      have hsum : spentAll A (step :: steps) = spent A step + spentAll A steps := by
        simp [spentAll]
      rw [hsum]
      exact ⟨l₁ ++ l₂, hb₁.trans hb₂⟩

/-- The wrapper sends back as much of its token as it was sent EGLD. -/
theorem Executes.wrapped (hP : Standard P) {wrapper : Address} {A : Nat} {ret : Returned}
    {wrapped : EsdtTokenPayment} (h : Executes P (.wrapEgld wrapper A) s ret s')
    (hret : ret.transfers = [wrapped]) : wrapped = wegldPayment wrapped.tokenIdentifier A := by
  have hone := hP.wrap h.answer
  rw [hret] at hone
  rw [List.singleton_inj.mp hone]
  rfl

/-- What the log of a call gained. -/
def newEvents (s s' : State σ) : List Event := s'.log.drop s.log.length

/-- **The balance sheet of a committed call.**  The deposit was minted as WEGLD,
the steps took their part of it, and every balance grew by the positions and the
leftovers of the call. -/
theorem setup_balance (hP : Standard P) {caller : Address} {A : Nat} {r : UInt64}
    {L : List Strategy} {w : TokenIdentifier} (hw : WegldAt P s w)
    (h : Commits (setupSmartAccount P caller A r L) s () s') (k : TokenKey) :
    s'.esdt k + (wegldPayment w (spentAll A L)).amountOf k =
      s.esdt k + (wegldPayment w A).amountOf k + totalOf (positions (newEvents s s')) k +
        totalOf (leftovers (newEvents s s')) k := by
  cases setUp_of_commits h with
  | @mk d wrapper ret wrapped s₁ _ hd ha hx hret hw₁ _ _ hall =>
      have hw₁' : WegldAt P s₁ w := hx.wegldAt hP.fixed (s := s.receive A) hw
      have hww : wrapped.tokenIdentifier = w := hw₁.unique hw₁'
      have hmint : s₁.esdt k = s.esdt k + (wegldPayment w A).amountOf k := by
        have hb := hx.balance k
        rw [hret, hx.wrapped hP hret, hww] at hb
        exact hb
      obtain ⟨events, hb⟩ := hall.books hP (w := w) hw₁'
      have hlog : newEvents s s' = Event.called (.wrapEgld wrapper A) ret :: events := by
        rw [newEvents, hb.log]
        show (s₁.log ++ events).drop s.log.length = _
        rw [hx.frame.2.2.2, List.append_assoc]
        exact List.drop_left
      have e₁ : s'.esdt k + totalOf [wegldPayment w (spentAll A L)] k =
        s₁.esdt k + totalOf (positions events ++ leftovers events) k := hb.balance k
      rw [totalOf_cons, totalOf_nil, totalOf_append, hmint] at e₁
      rw [hlog, positions_called, leftovers_cons, leftover_wrapEgld, List.nil_append]
      omega

/-! ## The rounding remainder -/

/-- Whether a step halves its investment. -/
def halves (step : Strategy) : Bool :=
  match step.positionType with
  | .esdt | .staking => false
  | .lp | .farm => true

/-- The number of LP and Farm steps. -/
def liquiditySteps (L : List Strategy) : Nat := L.countP halves

theorem spent_bounds (A : Nat) (step : Strategy) :
    spent A step ≤ investment A step ∧
      investment A step ≤ spent A step + if halves step then 1 else 0 := by
  have hdiv := Nat.div_add_mod (investment A step) 2
  have hmod := Nat.mod_lt (investment A step) (show 0 < 2 by decide)
  unfold spent halves
  cases step.positionType with
  | esdt => exact ⟨Nat.le_refl _, Nat.le_refl _⟩
  | staking => exact ⟨Nat.le_refl _, Nat.le_refl _⟩
  | lp => simp only [if_true]; omega
  | farm => simp only [if_true]; omega

theorem spentAll_bounds (A : Nat) (L : List Strategy) :
    spentAll A L ≤ (L.map (investment A)).sum ∧
      (L.map (investment A)).sum ≤ spentAll A L + liquiditySteps L := by
  unfold spentAll liquiditySteps
  induction L with
  | nil => exact ⟨Nat.le_refl _, Nat.le_refl _⟩
  | cons step L ih =>
      obtain ⟨h₁, h₂⟩ := ih
      obtain ⟨h₃, h₄⟩ := spent_bounds A step
      rw [List.map_cons, List.map_cons, List.sum_cons, List.sum_cons, List.countP_cons]
      omega

/-- Percentages that make up the whole: the steps take all of the deposit but
the rounding of `n` shares and of `m` halvings, and never more than it. -/
theorem spentAll_whole (A : Nat) {L : List Strategy}
    (hsum : (L.map fun step => step.percentage.toNat).sum = maxPercentage.toNat) :
    spentAll A L ≤ A ∧ A ≤ spentAll A L + ((L.length - 1) + liquiditySteps L) := by
  have hD : 0 < maxPercentage.toNat := by decide
  have hinv : (L.map (investment A)).sum =
      shares A maxPercentage.toNat (L.map fun step => step.percentage.toNat) := by
    rw [shares, List.map_map]; rfl
  obtain ⟨h₁, h₂⟩ := spentAll_bounds A L
  have h₃ := shares_le A hD hsum
  have h₄ := le_shares_add A hD hsum
  rw [List.length_map] at h₄
  omega

/-! ## Which calls account for everything -/

/-- The increase of every balance is recorded, but for a rounding remainder of
the WEGLD. -/
structure Accounted (w : TokenIdentifier) (L : List Strategy) (s s' : State σ) : Prop where
  others : ∀ k, k ≠ (w, 0) →
    s'.esdt k = s.esdt k + totalOf (positions (newEvents s s')) k
  wegld_ge : s.esdt (w, 0) + totalOf (positions (newEvents s s')) (w, 0) ≤ s'.esdt (w, 0)
  wegld_le : s'.esdt (w, 0) ≤ s.esdt (w, 0) + totalOf (positions (newEvents s s')) (w, 0) +
    ((L.length - 1) + liquiditySteps L)

theorem amountOf_wegldPayment_self (w : TokenIdentifier) (n : Nat) :
    (wegldPayment w n).amountOf (w, 0) = n :=
  if_pos rfl

theorem amountOf_wegldPayment_of_ne {w : TokenIdentifier} {k : TokenKey} (hk : k ≠ (w, 0))
    (n : Nat) : (wegldPayment w n).amountOf k = 0 :=
  if_neg fun h => hk h.symm

/-- **Which calls account for everything.**  A committed call of a whole strategy
records what it gains exactly when the third parties hand back nothing beside
the positions, but for WEGLD that, with the rounding remainder of the deposit,
stays in the remainder allowed. -/
theorem accounted_iff (hP : Standard P) {caller : Address} {A : Nat} {r : UInt64}
    {L : List Strategy} {w : TokenIdentifier} (hw : WegldAt P s w)
    (hsum : (L.map fun step => step.percentage.toNat).sum = maxPercentage.toNat)
    (h : Commits (setupSmartAccount P caller A r L) s () s') :
    Accounted w L s s' ↔
      (∀ p ∈ leftovers (newEvents s s'), p.key ≠ (w, 0) → p.amount = 0) ∧
      A - spentAll A L + totalOf (leftovers (newEvents s s')) (w, 0) ≤
        (L.length - 1) + liquiditySteps L := by
  have hbal := setup_balance hP hw h
  obtain ⟨hle, _⟩ := spentAll_whole A hsum
  have hself := hbal (w, 0)
  rw [amountOf_wegldPayment_self, amountOf_wegldPayment_self] at hself
  have hother : ∀ k, k ≠ (w, 0) → s'.esdt k = s.esdt k +
      totalOf (positions (newEvents s s')) k + totalOf (leftovers (newEvents s s')) k := by
    intro k hk
    have hb := hbal k
    rw [amountOf_wegldPayment_of_ne hk, amountOf_wegldPayment_of_ne hk] at hb
    exact hb
  constructor
  · intro hacc
    refine ⟨fun p hp hk => ?_, ?_⟩
    · have hzero : totalOf (leftovers (newEvents s s')) p.key = 0 := by
        have h₁ := hother p.key hk
        have h₂ := hacc.others p.key hk
        omega
      exact totalOf_eq_zero.mp hzero p hp rfl
    · have hl := hacc.wegld_le
      omega
  · intro hcond
    obtain ⟨hnone, hbound⟩ := hcond
    refine ⟨fun k hk => ?_, ?_, ?_⟩
    · have hzero : totalOf (leftovers (newEvents s s')) k = 0 :=
        totalOf_eq_zero.mpr fun p hp hpk => hnone p hp (by rw [hpk]; exact hk)
      rw [hother k hk, hzero, Nat.add_zero]
    · omega
    · omega

/-! ## Two concrete calls -/

/-- The sample third parties behave as documented. -/
theorem samplePeers_standard (unused rewards : Nat) : Standard (samplePeers unused rewards) where
  wegld_fixed _ := ⟨fun _ => rfl, fun _ => rfl⟩
  wrap h := by cases h; rfl
  swap h hr := by
    obtain ⟨_, h⟩ := Option.ite_none_right_eq_some.mp h
    cases h; exact hr
  swap_input h := (Option.ite_none_right_eq_some.mp h).1
  add_liquidity h hr := by
    cases h; cases hr
    intro k
    simp [rest, EsdtTokenPayment.amountOf]
  stake_farm h hr := by cases h; cases hr; exact fun _ => rfl
  enter_farm h hr := by cases h; cases hr; exact fun _ => rfl

theorem sampleState_wegldAt (unused rewards : Nat) :
    WegldAt (samplePeers unused rewards) sampleState [87] :=
  ⟨0xD, 0xE, rfl, rfl, rfl⟩

/-- A one-step LP strategy at a pair that leaves 3 of the swapped token unused:
they stay on the account, and no position stands for them. -/
theorem deposit_unaccounted : Standard (samplePeers 3 0) ∧
    ∃ s, Commits (setupSmartAccount (samplePeers 3 0) 0xD 10000 1 [sampleStep .lp 10000])
      sampleState () s ∧ ¬ Accounted [87] [sampleStep .lp 10000] sampleState s := by
  have h : check (setupSmartAccount (samplePeers 3 0) 0xD 10000 1 [sampleStep .lp 10000])
      sampleState (fun s => decide (s.esdt ([77], 0) = 3 ∧
        positions s.log = [⟨[76], 0, 5000⟩])) = true := by decide +kernel
  obtain ⟨s, hs, hp⟩ := exists_of_check h
  obtain ⟨hbal, hpos⟩ := of_decide_eq_true hp
  refine ⟨samplePeers_standard 3 0, s, hs, fun hacc => ?_⟩
  have ho := hacc.others ([77], 0) (by decide)
  have hlog : positions (newEvents sampleState s) = [⟨[76], 0, 5000⟩] := hpos
  rw [hbal, hlog] at ho
  exact absurd ho (by decide)

/-- A strategy with a step of each kind that can leave something over. -/
def sampleLiquid : List Strategy :=
  [sampleStep .lp 2500, sampleStep .staking 2500, sampleStep .farm 5000]

/-- Of 10003 in an LP, a Staking and a Farm step everything is accounted for when nothing is
left unused and no rewards are paid, and not with rewards. -/
theorem accounted_iff_sample :
    (∃ s, Commits (setupSmartAccount (samplePeers 0 0) 0xD 10003 1 sampleLiquid) sampleState () s ∧
      (leftovers (newEvents sampleState s)).length = 6 ∧ Accounted [87] sampleLiquid sampleState s) ∧
    ∃ s, Commits (setupSmartAccount (samplePeers 0 5) 0xD 10003 1 sampleLiquid) sampleState () s ∧
      ¬ Accounted [87] sampleLiquid sampleState s := by
  have h : check (setupSmartAccount (samplePeers 0 0) 0xD 10003 1 sampleLiquid) sampleState
      (fun s => decide ((leftovers s.log).length = 6 ∧ (∀ p ∈ leftovers s.log, p.amount = 0))) =
        true := by decide +kernel
  have h' : check (setupSmartAccount (samplePeers 0 5) 0xD 10003 1 sampleLiquid) sampleState
      (fun s => decide (⟨[82], 0, 5⟩ ∈ leftovers s.log)) = true := by decide +kernel
  obtain ⟨s, hs, hp⟩ := exists_of_check h
  obtain ⟨s', hs', hp'⟩ := exists_of_check h'
  obtain ⟨hlength, hzero⟩ := of_decide_eq_true hp
  have hnone : ∀ p ∈ leftovers (newEvents sampleState s), p.amount = 0 := hzero
  have hreward : ⟨[82], 0, 5⟩ ∈ leftovers (newEvents sampleState s') := of_decide_eq_true hp'
  refine ⟨⟨s, hs, hlength, ?_⟩, s', hs', fun hacc => ?_⟩
  · refine (accounted_iff (samplePeers_standard 0 0) (sampleState_wegldAt 0 0) (by decide) hs).mpr
      ⟨fun p hp _ => hnone p hp, ?_⟩
    rw [totalOf_eq_zero.mpr fun p hp _ => hnone p hp]
    decide
  · have hcond := (accounted_iff (samplePeers_standard 0 5) (sampleState_wegldAt 0 5) (by decide)
      hs').mp hacc
    have hfive := hcond.1 _ hreward (by decide)
    cases hfive

end SmartAccount

end PortfolioPilot
