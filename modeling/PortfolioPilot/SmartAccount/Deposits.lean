/-
# `SmartAccount.Deposits` — the EGLD of a deposit

A committed `setupSmartAccount` passes the EGLD it is sent on to the wrapper, all
of it and once; no step of the strategy sends any.  With third parties that
return only tokens, the EGLD of an account is the same before and after
(`SetUp.deposit`).
-/
import PortfolioPilot.SmartAccount.Steps

namespace PortfolioPilot

namespace SmartAccount

open Revert

variable {σ : Type} {P : Peers σ} {s s' : State σ}

/-- The third parties return no EGLD. -/
def Peers.TokensOnly (P : Peers σ) : Prop :=
  ∀ o a c o' r, P.call o a c = some (o', r) → r.egld = 0

/-- What an event sends to `dest`, in EGLD. -/
def Event.egldTo (dest : Address) : Event → Nat
  | .called c _ => if c.dest = dest then c.egld else 0
  | .saved _ => 0

/-- The EGLD that the calls of a log send to `dest`. -/
def egldTo (dest : Address) (log : List Event) : Nat := (log.map (Event.egldTo dest)).sum

@[simp] theorem egldTo_nil (dest : Address) : egldTo dest [] = 0 := rfl

@[simp] theorem egldTo_cons (dest : Address) (e : Event) (log : List Event) :
    egldTo dest (e :: log) = e.egldTo dest + egldTo dest log := List.sum_cons

@[simp] theorem egldTo_append (dest : Address) (l₁ l₂ : List Event) :
    egldTo dest (l₁ ++ l₂) = egldTo dest l₁ + egldTo dest l₂ := by
  rw [egldTo, List.map_append, List.sum_append]
  rfl

/-- `s'` continues `s` without EGLD leaving or reaching the account. -/
structure Still (s s' : State σ) : Prop where
  egld : s'.egld = s.egld
  log : ∃ events, s'.log = s.log ++ events ∧ ∀ dest, egldTo dest events = 0

theorem Still.refl (s : State σ) : Still s s := ⟨rfl, [], (List.append_nil _).symm, fun _ => rfl⟩

theorem Still.trans {m : State σ} (h₁ : Still s m) (h₂ : Still m s') : Still s s' := by
  obtain ⟨l₁, e₁, z₁⟩ := h₁.log
  obtain ⟨l₂, e₂, z₂⟩ := h₂.log
  refine ⟨h₂.egld.trans h₁.egld, l₁ ++ l₂, ?_, fun dest => ?_⟩
  · rw [e₂, e₁, List.append_assoc]
  · rw [egldTo_append, z₁, z₂]

theorem still_save (s : State σ) (p : EsdtTokenPayment) : Still s (s.save p) :=
  ⟨rfl, [Event.saved p], rfl, fun _ => rfl⟩

/-- A call takes the EGLD it sends along, and no more. -/
theorem Executes.egld (hP : P.TokensOnly) {c : ContractCall} {r : Returned}
    (h : Executes P c s r s') : s'.egld + c.egld = s.egld := by
  have hr := hP _ _ _ _ _ h.answer
  have hadd := h.egld_add
  omega

theorem Executes.still (hP : P.TokensOnly) {c : ContractCall} {r : Returned}
    (h : Executes P c s r s') (hc : c.egld = 0) : Still s s' := by
  have he := h.egld hP
  refine ⟨by omega, [.called c r], h.frame.2.2.2, fun dest => ?_⟩
  rw [egldTo_cons, egldTo_nil]
  show (if c.dest = dest then c.egld else 0) + 0 = 0
  rw [hc, ite_self]

/-- No step sends or receives EGLD. -/
theorem ProcessedAll.still (hP : P.TokensOnly) {A : Nat} {steps : List Strategy}
    (h : ProcessedAll P A steps s s') : Still s s' :=
  h.related .refl .trans (fun hc hx => hx.still hP hc) still_save

/-- The whole deposit is sent to the wrapper that the deployer names, and nothing
else is sent or kept. -/
theorem SetUp.deposit (hP : P.TokensOnly) {caller : Address} {A : Nat} {r : UInt64}
    {L : List Strategy} (h : SetUp P caller A r L s s') {deployerSc wrapper : Address}
    (hd : s.storage.smartAccountDeployerAddress = some deployerSc)
    (hw : P.egldWrapperAddress s.outside deployerSc = some wrapper) :
    s'.egld = s.egld ∧ ∃ events, s'.log = s.log ++ events ∧
      ∀ dest, egldTo dest events = if wrapper = dest then A else 0 := by
  cases h with
  | @mk _ _ ret _ s₁ _ hd' hw' hx _ _ _ _ hall =>
      cases hd'.symm.trans hd
      cases hw'.symm.trans hw
      have he : s₁.egld + A = s.egld + A := hx.egld hP
      have hrest := hall.still hP
      have hlog : s₁.log = s.log ++ [Event.called (.wrapEgld wrapper A) ret] := hx.frame.2.2.2
      obtain ⟨events, hevents, hzero⟩ := hrest.log
      refine ⟨hrest.egld.trans (Nat.add_right_cancel he),
        [Event.called (.wrapEgld wrapper A) ret] ++ events, ?_, fun dest => ?_⟩
      · rw [hevents, ← List.append_assoc, ← hlog]
        rfl
      · rw [egldTo_append, hzero, egldTo_cons, egldTo_nil]
        rfl

end SmartAccount

end PortfolioPilot
