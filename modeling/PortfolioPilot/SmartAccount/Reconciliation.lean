/-
# `SmartAccount.Reconciliation` — the log of a call against its balances

Whatever the third parties do, the balances of an account change by what its calls
send and by what they bring back, and both are in the log.  For tokens of every kind

    after + sent  =  before + brought

over a whole `setupSmartAccount` (`SetUp.booked`).  `setup_balance` says what the two
columns are made of, for third parties that keep to their documentation; here they need
not.

A relation between states that is kept by calls and by `save_user_position` holds
between the two ends of a step, and of the loop (`Processed.related`,
`ProcessedAll.related`).
-/
import PortfolioPilot.SmartAccount.Solvency

namespace PortfolioPilot

namespace SmartAccount

open Revert

variable {σ : Type} {P : Peers σ} {s s' : State σ} {A : Nat}

/-! ## The two columns -/

/-- What the call of an event brought back. -/
def Event.brought : Event → List EsdtTokenPayment
  | .called _ r => r.transfers
  | .saved _ => []

/-- The tokens `k` that the calls of a log sent. -/
def sent (log : List Event) (k : TokenKey) : Nat := totalOf (log.flatMap Event.paid) k

/-- The tokens `k` that they brought back. -/
def brought (log : List Event) (k : TokenKey) : Nat := totalOf (log.flatMap Event.brought) k

@[simp] theorem sent_append (l₁ l₂ : List Event) (k : TokenKey) :
    sent (l₁ ++ l₂) k = sent l₁ k + sent l₂ k := by
  unfold sent
  rw [List.flatMap_append, totalOf_append]

@[simp] theorem brought_append (l₁ l₂ : List Event) (k : TokenKey) :
    brought (l₁ ++ l₂) k = brought l₁ k + brought l₂ k := by
  unfold brought
  rw [List.flatMap_append, totalOf_append]

/-- The balances changed by what the log, which only grew, has in its two columns. -/
def Booked (s s' : State σ) : Prop :=
  ∃ events, s'.log = s.log ++ events ∧ ∀ k, s'.esdt k + sent events k = s.esdt k + brought events k

theorem Booked.refl (s : State σ) : Booked s s := ⟨[], (List.append_nil _).symm, fun _ => rfl⟩

theorem Booked.trans {m : State σ} (h₁ : Booked s m) (h₂ : Booked m s') : Booked s s' := by
  obtain ⟨l₁, hlog₁, hsum₁⟩ := h₁
  obtain ⟨l₂, hlog₂, hsum₂⟩ := h₂
  refine ⟨l₁ ++ l₂, by rw [hlog₂, hlog₁, List.append_assoc], fun k => ?_⟩
  have hfirst := hsum₁ k
  have hsecond := hsum₂ k
  rw [sent_append, brought_append]
  omega

theorem Executes.booked {c : ContractCall} {r : Returned} (h : Executes P c s r s') :
    Booked s s' := by
  refine ⟨[.called c r], h.frame.2.2.2, fun k => ?_⟩
  have hbalance := h.balance k
  simp only [sent, brought, List.flatMap_cons, List.flatMap_nil, List.append_nil, Event.paid,
    Event.brought]
  exact hbalance

theorem booked_save (s : State σ) (p : EsdtTokenPayment) : Booked s (s.save p) :=
  ⟨[.saved p], rfl, fun _ => rfl⟩

/-- The columns of a whole call. -/
theorem SetUp.booked {caller : Address} {r : UInt64} {L : List Strategy}
    (h : SetUp P caller A r L s s') : Booked s s' := by
  cases h with
  | @mk _ _ _ _ s₁ _ _ _ hx _ _ _ _ hall =>
      have hwrap : Booked (s.receive A) s₁ := hx.booked
      have hloop : Booked (s₁.storeStrategy r L) s' :=
        hall.related .refl .trans (fun _ => Executes.booked) booked_save
      -- the value received and the cells stored are neither balances nor log
      exact Booked.trans (s := s) (m := s₁) hwrap hloop

end SmartAccount

end PortfolioPilot
