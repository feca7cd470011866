/-
# `SmartAccount.Portfolio` — the stored portfolio against the opened positions

`getUserPortfolio` is the view a user reads his positions from.  The positions a
call opens are those it hands to `save_user_position`, one per strategy step and
in step order (`SetUp.effect`).  The stored vector never receives them:
`save_user_position` pushes to a local copy, so no step of an account writes the
`userPortfolio` cell at all (`Step.portfolio`), and after any number of committed
calls the cell lacks every position opened since.
-/
import PortfolioPilot.Lib.Trace
import PortfolioPilot.SmartAccount.Steps

namespace PortfolioPilot

namespace SmartAccount

open Revert

variable {σ : Type} {P : Peers σ} {s₀ s s' : State σ}

/-! ## Runs of one account -/

inductive Action where
  | setup (caller : Address) (egldPayment : Nat) (riskTolerance : UInt64)
      (userStrategy : List Strategy)
  | upgrade
  | outside
  deriving DecidableEq, Repr

/-- One step of an account: a committed call, or a change of what is outside it
and of the tokens it is sent. -/
inductive Step (P : Peers σ) : State σ → Action → State σ → Prop
  | setup {s s' : State σ} {caller : Address} {A : Nat} {r : UInt64} {L : List Strategy} :
      Commits (setupSmartAccount P caller A r L) s () s' → Step P s (.setup caller A r L) s'
  | upgrade {s s' : State σ} : Commits upgrade s () s' → Step P s .upgrade s'
  | outside {s : State σ} (o : σ) (esdt : Ledger TokenKey) :
      Step P s .outside { s with outside := o, esdt }

/-- The positions handed to `save_user_position` in one step. -/
def opened (e : Entry (State σ) Action) : List EsdtTokenPayment :=
  positions (e.post.log.drop e.pre.log.length)

/-- The stored portfolio after the steps `h` is the one before them followed by
the positions they opened, in order. -/
def PortfolioComplete (s₀ : State σ) (h : List (Entry (State σ) Action)) (s : State σ) : Prop :=
  s.storage.userPortfolio = s₀.storage.userPortfolio ++ h.flatMap opened

/-! ## The portfolio cell -/

theorem SetUp.opened {caller : Address} {A : Nat} {r : UInt64} {L : List Strategy} {l : Action}
    (h : SetUp P caller A r L s s') : Delivers P A r L (opened ⟨s, l, s'⟩) s s' := by
  obtain ⟨_, _, _, events, ps, hlog, hpos, hps⟩ := h.effect
  have ho : SmartAccount.opened ⟨s, l, s'⟩ = ps := by
    show positions (s'.log.drop s.log.length) = ps
    rw [hlog, List.drop_left, hpos]
  rw [ho]; exact hps

/-- No step of an account writes its portfolio. -/
theorem Step.portfolio {l : Action} (h : Step P s l s') :
    s'.storage.userPortfolio = s.storage.userPortfolio := by
  cases h with
  | setup h => rw [(setUp_of_commits h).effect.2.2.1]
  | upgrade h => rw [(commits_pure.mp h).2]
  | outside _ _ => rfl

/-- A committed call opens a position per step of its strategy, so at least one. -/
theorem Step.opened_ne_nil {caller : Address} {A : Nat} {r : UInt64} {L : List Strategy}
    (h : Step P s (.setup caller A r L) s') :
    Delivers P A r L (opened ⟨s, .setup caller A r L, s'⟩) s s' ∧
      opened ⟨s, .setup caller A r L, s'⟩ ≠ [] := by
  cases h with
  | setup h =>
      have hs := setUp_of_commits h
      have hall := hs.opened (l := .setup caller A r L)
      refine ⟨hall, ?_⟩
      obtain ⟨_, _, _, _, hps⟩ := hall
      cases hs with
      | mk _ _ _ _ _ _ hL _ _ => exact hps.ne_nil hL

/-- Over a run, the portfolio is complete only if nothing was opened. -/
theorem portfolioComplete_iff {h : List (Entry (State σ) Action)}
    (t : Trace (Step P) s₀ h s) : PortfolioComplete s₀ h s ↔ h.flatMap opened = [] := by
  have hsame : s.storage.userPortfolio = s₀.storage.userPortfolio :=
    t.related (R := fun a b => b.storage.userPortfolio = a.storage.userPortfolio)
      (fun _ => rfl) (by intro a b c h₁ h₂; exact h₂.trans h₁) (fun _ _ _ hs => hs.portfolio)
  rw [PortfolioComplete, hsame]
  exact List.self_eq_append_right

/-- **The portfolio is never complete.**  Every committed call opens one
position per strategy step, in step order, each the position that the step hands over
in its place of the loop; and its stored portfolio afterwards is not the one before with
those positions appended, nor is it over a run with one such call or more. -/
theorem portfolio_never_complete {h : List (Entry (State σ) Action)}
    (t : Trace (Step P) s₀ h s) :
    (∀ e ∈ h, ∀ caller A r L, e.label = .setup caller A r L →
      Delivers P A r L (opened e) e.pre e.post ∧ ¬ PortfolioComplete e.pre [e] e.post) ∧
    ((∃ e ∈ h, ∃ caller A r L, e.label = .setup caller A r L) → ¬ PortfolioComplete s₀ h s) := by
  have hcall : ∀ e ∈ h, ∀ caller A r L, e.label = .setup caller A r L →
      Delivers P A r L (opened e) e.pre e.post ∧ opened e ≠ [] := by
    rintro ⟨pre, label, post⟩ he caller A r L hl
    obtain ⟨_, _, _, _, hs, _⟩ := t.split_of_mem _ he
    subst hl
    exact hs.opened_ne_nil
  constructor
  · intro e he caller A r L hl
    obtain ⟨hall, hne⟩ := hcall e he caller A r L hl
    obtain ⟨_, _, _, _, hs, _⟩ := t.split_of_mem e he
    refine ⟨hall, fun hc => hne ?_⟩
    have hnil := (portfolioComplete_iff (Trace.single hs)).mp hc
    simpa using hnil
  · rintro ⟨e, he, caller, A, r, L, hl⟩ hc
    have hnil := (portfolioComplete_iff t).mp hc
    exact (hcall e he caller A r L hl).2 (List.flatMap_eq_nil_iff.mp hnil e he)

/-! ## A concrete call

A closed set of third parties for the runs on fixed inputs here and in later
modules: the wrapper mints 1:1, a pair has the tokens `W` and `M` and swaps one
for as much of the other, `add_liquidity` leaves `unused` of the second payment,
and staking and farming pay `rewards` of a reward token. -/

def samplePeers (unused rewards : Nat) : Peers Unit where
  egldWrapperAddress _ _ := some 0xE
  farmStakingAddressForToken _ _ _ := some 0xF
  wrappedEgldTokenId _ _ := [87]
  pairContractAddress _ _ := some 0xA
  firstTokenId _ _ := [87]
  secondTokenId _ _ := [77]
  call _ _ c := match c with
    | .wrapEgld _ amount => some ((), ⟨0, [⟨[87], 0, amount⟩], []⟩)
    | .swapTokensFixedInput _ input tokenOut _ =>
        if input.tokenIdentifier = [87] ∨ input.tokenIdentifier = [77] then
          some ((), ⟨0, [⟨tokenOut, 0, input.amount⟩], [⟨tokenOut, 0, input.amount⟩]⟩)
        else none
    | .addLiquidity _ first second _ _ =>
        let used := second.amount - unused
        some ((), ⟨0, [⟨[76], 0, first.amount⟩, { second with amount := second.amount - used }],
          [⟨[76], 0, first.amount⟩, first, { second with amount := used }]⟩)
    | .stakeFarm _ _ | .enterFarm _ _ =>
        some ((), ⟨0, [⟨[70], 1, 1⟩, ⟨[82], 0, rewards⟩], [⟨[70], 1, 1⟩, ⟨[82], 0, rewards⟩]⟩)

/-- An account right after `init`, owned by the deployer at `0xD`. -/
def sampleState : State Unit where
  self := 0xACC
  owner := 0xD
  storage := { Storage.blank with smartAccountDeployerAddress := some 0xD }
  egld := 0
  esdt := fun _ => 0
  outside := ()
  log := []

def sampleStep (positionType : PositionType) (percentage : UInt64) : Strategy :=
  ⟨percentage, positionType, 0xA, [77]⟩

def sampleSetup : Action := .setup 0xD 10000 1 [sampleStep .esdt 10000]

theorem sampleSetup_step : ∃ s, Step (samplePeers 0 0) sampleState sampleSetup s ∧
    s.storage.userPortfolio = [] ∧ positions s.log = [⟨[77], 0, 10000⟩] := by
  have h : check (setupSmartAccount (samplePeers 0 0) 0xD 10000 1 [sampleStep .esdt 10000])
      sampleState (fun s => decide (s.storage.userPortfolio = [] ∧
        positions s.log = [⟨[77], 0, 10000⟩])) = true := by decide +kernel
  obtain ⟨s, hs, hp⟩ := exists_of_check h
  exact ⟨s, .setup hs, of_decide_eq_true hp⟩

/-- A deposit of 10000 in a one-step ESDT strategy: the swap output is handed to
`save_user_position`, and the stored portfolio is empty before and after. -/
theorem portfolio_lost : ∃ s, Step (samplePeers 0 0) sampleState sampleSetup s ∧
    ¬ PortfolioComplete sampleState [⟨sampleState, sampleSetup, s⟩] s := by
  obtain ⟨s, hs, hp, hpos⟩ := sampleSetup_step
  refine ⟨s, hs, fun hc => ?_⟩
  have hnil : positions s.log = [] := by
    simpa [opened, sampleState] using (portfolioComplete_iff (Trace.single hs)).mp hc
  rw [hpos] at hnil
  exact List.cons_ne_nil _ _ hnil

theorem portfolio_never_complete_sample :
    ∃ s, Trace (Step (samplePeers 0 0)) sampleState [⟨sampleState, sampleSetup, s⟩] s ∧
      ¬ PortfolioComplete sampleState [⟨sampleState, sampleSetup, s⟩] s := by
  obtain ⟨s, hs, _⟩ := sampleSetup_step
  exact ⟨s, .single hs, (portfolio_never_complete (Trace.single hs)).2
    ⟨_, List.mem_singleton_self _, _, _, _, _, rfl⟩⟩

end SmartAccount

end PortfolioPilot
