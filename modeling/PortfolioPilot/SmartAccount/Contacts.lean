/-
# `SmartAccount.Contacts` — whom a committed call has dealt with

Whatever the third parties answer, a committed `setupSmartAccount` has called the
wrapper once, and otherwise made only calls that a step of its list reaches
(`SetUp.calls`).  Unlike `passes_of_commits` this asks nothing of the third parties:
they may even change the token that WEGLD is while the loop runs.
-/
import PortfolioPilot.SmartAccount.Solvency

namespace PortfolioPilot

namespace SmartAccount

open Revert

variable {σ : Type} {P : Peers σ} {s s' : State σ} {A : Nat} {d : Address}

/-- The log grew by calls that are `made`, and the account knows the same deployer. -/
structure Calls (made : ContractCall → Prop) (s s' : State σ) : Prop where
  deployer : s'.storage.smartAccountDeployerAddress = s.storage.smartAccountDeployerAddress
  log : ∃ events, s'.log = s.log ++ events ∧ ∀ c r, Event.called c r ∈ events → made c

theorem Calls.refl {made : ContractCall → Prop} (s : State σ) : Calls made s s :=
  ⟨rfl, [], (List.append_nil _).symm, fun _ _ hmem => absurd hmem List.not_mem_nil⟩

theorem Calls.trans {made : ContractCall → Prop} {m : State σ} (h₁ : Calls made s m)
    (h₂ : Calls made m s') : Calls made s s' := by
  obtain ⟨l₁, hlog₁, hmade₁⟩ := h₁.log
  obtain ⟨l₂, hlog₂, hmade₂⟩ := h₂.log
  refine ⟨h₂.deployer.trans h₁.deployer, l₁ ++ l₂, ?_, fun c r hmem => ?_⟩
  · rw [hlog₂, hlog₁, List.append_assoc]
  · rcases List.mem_append.mp hmem with hmem | hmem
    · exact hmade₁ c r hmem
    · exact hmade₂ c r hmem

/-- A call that a step of `L` reaches in an account of the deployer `d`. -/
def StepCall (P : Peers σ) (A : Nat) (d : Address) (L : List Strategy) (c : ContractCall) : Prop :=
  ∃ step ∈ L, ∃ m t : State σ, m.storage.smartAccountDeployerAddress = some d ∧
    Reaches P A step m c t

/-- One step: its calls, and no write of the account. -/
theorem Processed.calls {L : List Strategy} {step : Strategy} (h : Processed P A step s s')
    (hL : step ∈ L) (hd : s.storage.smartAccountDeployerAddress = some d) :
    Calls (StepCall P A d L) s s' := by
  obtain ⟨_, hopens⟩ := h.opens
  -- each kind of step has looked up WEGLD
  have hwegld : ∃ w, WegldAt P s w := by
    cases h with
    | esdt _ hw _ _ => exact ⟨_, hw⟩
    | staking _ hw _ _ _ _ _ => exact ⟨_, hw⟩
    | lp _ hw _ => exact ⟨_, hw⟩
    | farm _ hw _ _ _ _ => exact ⟨_, hw⟩
  obtain ⟨w, hw⟩ := hwegld
  obtain ⟨_, ⟨events, hlog, hmade, _⟩, _⟩ := h.passes hw
  refine ⟨by rw [hopens.storage], events, hlog, fun c r hmem => ?_⟩
  obtain ⟨t, hreach⟩ := hmade c r hmem
  exact ⟨step, hL, s, t, hd, hreach⟩

theorem ProcessedAll.calls {L steps : List Strategy} (h : ProcessedAll P A steps s s') :
    (∀ step ∈ steps, step ∈ L) → s.storage.smartAccountDeployerAddress = some d →
      Calls (StepCall P A d L) s s' := by
  induction h with
  | nil =>
      intro _ _
      exact .refl _
  | cons hstep _ ih =>
      intro hsub hd
      have hcalls := hstep.calls (hsub _ List.mem_cons_self) hd
      exact hcalls.trans
        (ih (fun _ hmem => hsub _ (List.mem_cons_of_mem _ hmem)) (hcalls.deployer.trans hd))

/-- The calls of a whole run. -/
theorem SetUp.calls {caller : Address} {r : UInt64} {L : List Strategy}
    (h : SetUp P caller A r L s s') (hd : s.storage.smartAccountDeployerAddress = some d) :
    ∃ events, s'.log = s.log ++ events ∧ ∀ c ret, Event.called c ret ∈ events →
      (∃ wrapper, P.egldWrapperAddress s.outside d = some wrapper ∧ c = .wrapEgld wrapper A) ∨
      StepCall P A d L c := by
  cases h with
  | @mk _ wrapper ret _ s₁ _ hd' ha hx _ _ _ _ hall =>
      cases hd'.symm.trans hd
      obtain ⟨_, _, hstorage, hlog₁⟩ := hx.frame
      have hd₁ : (s₁.storeStrategy r L).storage.smartAccountDeployerAddress = some d := by
        show s₁.storage.smartAccountDeployerAddress = some d
        rw [hstorage]
        exact hd
      obtain ⟨events, hlog, hmade⟩ := (hall.calls (L := L) (fun _ hmem => hmem) hd₁).log
      refine ⟨.called (.wrapEgld wrapper A) ret :: events, ?_, fun c ret' hmem => ?_⟩
      · rw [hlog]
        show s₁.log ++ events = _
        rw [hlog₁, List.append_assoc]
        rfl
      · rcases List.mem_cons.mp hmem with he | hmem
        · cases he
          exact Or.inl ⟨wrapper, ha, rfl⟩
        · exact Or.inr (hmade c ret' hmem)

end SmartAccount

end PortfolioPilot
