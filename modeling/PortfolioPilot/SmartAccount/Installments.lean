/-
# `SmartAccount.Installments` — one deposit, or the same in several

An account that is set up again with the same strategy invests again, so a deposit may come
in parts.  Every part rounds for itself: what the steps take of the parts is never more than
what they take of the whole (`le_spentAll_sum`), and falls short of it by at most one unit
for each step and one more for each halving, and that only once for every part after the
first (`spentAll_sum_le`).

Calls only count through what they pass on, so this is what the third parties get
(`installments_bounds`).
-/
import PortfolioPilot.SmartAccount.Solvency

namespace PortfolioPilot

namespace SmartAccount

open Revert

variable {σ : Type} {P : Peers σ} {s s' : State σ}

/-- What one step takes of two deposits, and of the two together. -/
theorem spent_add (A B : Nat) (step : Strategy) :
    spent A step + spent B step ≤ spent (A + B) step ∧
      spent (A + B) step ≤ spent A step + spent B step + (1 + if halves step then 1 else 0) := by
  have hshare : investment A step + investment B step ≤ investment (A + B) step ∧
      investment (A + B) step ≤ investment A step + investment B step + 1 :=
    share_add A B step.percentage.toNat (D := maxPercentage.toNat) (by decide)
  unfold spent halves
  cases step.positionType with
  | esdt => simp only; omega
  | staking => simp only; omega
  | lp => simp only [if_true]; omega
  | farm => simp only [if_true]; omega

theorem spentAll_add (A B : Nat) (L : List Strategy) :
    spentAll A L + spentAll B L ≤ spentAll (A + B) L ∧
      spentAll (A + B) L ≤ spentAll A L + spentAll B L + (L.length + liquiditySteps L) := by
  induction L with
  | nil => exact ⟨Nat.le_refl _, Nat.le_refl _⟩
  | cons step L ih =>
      have hstep := spent_add A B step
      have hcount : liquiditySteps (step :: L) =
          liquiditySteps L + if halves step then 1 else 0 := List.countP_cons
      rw [spentAll_cons, spentAll_cons, spentAll_cons, hcount, List.length_cons]
      omega

/-- What the steps take of the parts of a deposit, one after the other. -/
def spentParts (As : List Nat) (L : List Strategy) : Nat := (As.map fun A => spentAll A L).sum

theorem le_spentAll_sum (As : List Nat) (L : List Strategy) :
    spentParts As L ≤ spentAll As.sum L := by
  unfold spentParts
  induction As with
  | nil => exact Nat.zero_le _
  | cons A As ih =>
      obtain ⟨hle, _⟩ := spentAll_add A As.sum L
      rw [List.map_cons, List.sum_cons, List.sum_cons]
      omega

/-- Of nothing, nothing is taken. -/
theorem spentAll_zero (L : List Strategy) : spentAll 0 L = 0 := by
  induction L with
  | nil => rfl
  | cons step L ih =>
      have hzero : investment 0 step = 0 := by
        show 0 * _ / _ = 0
        rw [Nat.zero_mul, Nat.zero_div]
      have hspent : spent 0 step = 0 := by
        unfold spent
        rw [hzero]
        cases step.positionType <;> rfl
      rw [spentAll_cons, ih, hspent]

theorem spentAll_sum_le (As : List Nat) (L : List Strategy) :
    spentAll As.sum L ≤ spentParts As L + (As.length - 1) * (L.length + liquiditySteps L) := by
  unfold spentParts
  induction As with
  | nil =>
      rw [List.sum_nil, spentAll_zero]
      exact Nat.zero_le _
  | cons A As ih =>
      cases As with
      | nil => simp
      | cons B As =>
          obtain ⟨_, hle⟩ := spentAll_add A (B :: As).sum L
          have hlength : (A :: B :: As).length - 1 = ((B :: As).length - 1) + 1 := by simp
          have hsum : (A :: B :: As).sum = A + (B :: As).sum := List.sum_cons
          have hparts : ((A :: B :: As).map fun A => spentAll A L).sum =
              spentAll A L + ((B :: As).map fun A => spentAll A L).sum := List.sum_cons
          rw [hlength, Nat.add_mul, Nat.one_mul, hsum, hparts]
          omega

/-! ## Setups one after the other -/

/-- Committed setups with the strategy `L`, of the deposits `As` in this order. -/
inductive Installments (P : Peers σ) (caller : Address) (L : List Strategy) :
    List Nat → State σ → State σ → Prop
  | nil {s : State σ} : Installments P caller L [] s s
  | cons {A : Nat} {As : List Nat} {r : UInt64} {s m s' : State σ} :
      Commits (setupSmartAccount P caller A r L) s () m → Installments P caller L As m s' →
      Installments P caller L (A :: As) s s'

theorem ProcessedAll.wegldAt (hP : WegldFixed P) {A : Nat} {L : List Strategy} {w : TokenIdentifier}
    (h : ProcessedAll P A L s s') (hw : WegldAt P s w) : WegldAt P s' w :=
  h.related (R := fun s s' => WegldAt P s w → WegldAt P s' w) (fun _ hw => hw)
    (fun h₁ h₂ hw => h₂ (h₁ hw)) (fun _ hx => hx.wegldAt hP) (fun _ _ hw => hw) hw

/-- A setup does not change what WEGLD is. -/
theorem wegldAt_of_commits (hP : WegldFixed P) {caller : Address} {A : Nat} {r : UInt64}
    {L : List Strategy} {w : TokenIdentifier} (h : Commits (setupSmartAccount P caller A r L) s () s')
    (hw : WegldAt P s w) : WegldAt P s' w := by
  cases setUp_of_commits h with
  | @mk _ _ _ _ s₁ _ _ _ hx _ _ _ _ hall =>
      have hw₁ : WegldAt P s₁ w := hx.wegldAt hP (s := s.receive A) hw
      exact hall.wegldAt hP (s := s₁.storeStrategy r L) hw₁

/-- The WEGLD that a setup passes on. -/
theorem passed_of_commits (hP : Honest P) (hpairs : Pairs P) {caller : Address} {A : Nat} {r : UInt64}
    {L : List Strategy} {w : TokenIdentifier} (hw : WegldAt P s w)
    (h : Commits (setupSmartAccount P caller A r L) s () s') :
    ∃ events, s'.log = s.log ++ events ∧ wegldPassed w events = spentAll A L := by
  obtain ⟨n, ⟨events, hlog, _, hpassed⟩, hn⟩ := passes_of_commits hP hw h
  exact ⟨events, hlog, hpassed.trans (hn hpairs)⟩

/-- The WEGLD that the setups pass on, one after the other. -/
theorem Installments.passed (hP : Honest P) (hpairs : Pairs P) {caller : Address} {As : List Nat}
    {L : List Strategy} {w : TokenIdentifier} (h : Installments P caller L As s s') :
    WegldAt P s w → ∃ events, s'.log = s.log ++ events ∧ wegldPassed w events = spentParts As L := by
  induction h with
  | nil => exact fun _ => ⟨[], (List.append_nil _).symm, rfl⟩
  | cons hc _ ih =>
      intro hw
      obtain ⟨events₁, hlog₁, hpassed₁⟩ := passed_of_commits hP hpairs hw hc
      obtain ⟨events₂, hlog₂, hpassed₂⟩ := ih (wegldAt_of_commits hP.fixed hc hw)
      refine ⟨events₁ ++ events₂, ?_, ?_⟩
      · rw [hlog₂, hlog₁, List.append_assoc]
      · rw [wegldPassed_append, hpassed₁, hpassed₂, spentParts, spentParts, List.map_cons,
          List.sum_cons]

theorem newEvents_of_log {events : List Event} (hlog : s'.log = s.log ++ events) :
    newEvents s s' = events := by
  rw [newEvents, hlog, List.drop_left]

/-- **Investing in parts.**  Take any strategy list, of any length and any percentages, and
any deposits `As`.  If an account is set up with the list once for each deposit, and from the
same state could be set up with it once for their sum, then the single setup passes at least
as much WEGLD on to the third parties as the several, and at most one unit more for each step
and each halving, for every deposit after the first.  The wrapper and the pairs mint and send
what they say (`Honest`), a pair trades its two tokens and gives LP tokens of a third kind
(`Pairs`), and `w` is the WEGLD identifier that the account reads at the start (`WegldAt`). -/
theorem installments_bounds (hP : Honest P) (hpairs : Pairs P) {caller : Address} {As : List Nat}
    {r : UInt64} {L : List Strategy} {w : TokenIdentifier} {s'' : State σ} (hw : WegldAt P s w)
    (hparts : Installments P caller L As s s')
    (hwhole : Commits (setupSmartAccount P caller As.sum r L) s () s'') :
    wegldPassed w (newEvents s s') ≤ wegldPassed w (newEvents s s'') ∧
      wegldPassed w (newEvents s s'') ≤ wegldPassed w (newEvents s s') +
        (As.length - 1) * (L.length + liquiditySteps L) := by
  obtain ⟨events, hlog, hpassed⟩ := hparts.passed hP hpairs hw
  obtain ⟨events', hlog', hpassed'⟩ := passed_of_commits hP hpairs hw hwhole
  rw [newEvents_of_log hlog, newEvents_of_log hlog', hpassed, hpassed']
  exact ⟨le_spentAll_sum As L, spentAll_sum_le As L⟩

/-- Three deposits of a step of each kind, and the same at once. -/
theorem installments_bounds_sample : ∃ s' s'',
    Installments (tradingPeers Unit) 0xD sampleAllocation [1001, 1001, 1001] sampleState s' ∧
    Commits (setupSmartAccount (tradingPeers Unit) 0xD 3003 1 sampleAllocation) sampleState () s'' ∧
    wegldPassed [87] (newEvents sampleState s') ≤ wegldPassed [87] (newEvents sampleState s'') ∧
    wegldPassed [87] (newEvents sampleState s'') ≤
      wegldPassed [87] (newEvents sampleState s') + 12 := by
  let setup (A : Nat) := setupSmartAccount (tradingPeers Unit) 0xD A 1 sampleAllocation
  have hparts : check (do setup 1001; setup 1001; setup 1001) sampleState (fun _ => true) = true := by
    decide +kernel
  have hwhole : check (setup 3003) sampleState (fun _ => true) = true := by decide +kernel
  obtain ⟨s', hs', _⟩ := exists_of_check hparts
  obtain ⟨s'', hs'', _⟩ := exists_of_check hwhole
  simp only [commits_bind] at hs'
  obtain ⟨_, m₁, h₁, _, m₂, h₂, h₃⟩ := hs'
  have hseq : Installments (tradingPeers Unit) 0xD sampleAllocation [1001, 1001, 1001]
      sampleState s' := .cons h₁ (.cons h₂ (.cons h₃ .nil))
  obtain ⟨hle, hge⟩ := installments_bounds tradingPeers_honest tradingPeers_pairs
    tradingPeers_wegldAt hseq (r := 1) hs''
  exact ⟨s', s'', hseq, hs'', hle, hge⟩

end SmartAccount

end PortfolioPilot
