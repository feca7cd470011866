/-
# `Deployer.Reconciliation` — the log of a run against the balances

Every token that an account has ever had is accounted for by the log of its calls and by
what reached it from outside: in every state of a run over the account template

    balance + sent  =  brought + received

for every address and every token, whatever the third parties answer
(`balances_reconciled`).  So no transaction moves a token of an account past its log,
a failed one and one of another user least of all, and a deployment starts from nothing.
-/
import PortfolioPilot.Deployer.Provenance
import PortfolioPilot.SmartAccount.Reconciliation

namespace PortfolioPilot

namespace Deployer

open Revert
open SmartAccount (brought sent)

variable {X : Type} {C : Chain X} {w₀ w w' : World X} {h : List (Entry (World X) Label)}

/-! ## The columns of an address -/

/-- What the address holds of the token, nothing if there is no account. -/
def World.balance (w : World X) (a : Address) (k : TokenKey) : Nat :=
  match w.accounts a with
  | some account => account.esdt k
  | none => 0

/-- The events of the account at `a`. -/
def World.logOf (w : World X) (a : Address) : List SmartAccount.Event :=
  w.log.filterMap (Event.of a)

/-- What an entry brings to the address from outside, or takes. -/
def received (a : Address) (k : TokenKey) (e : Entry (World X) Label) : Int :=
  match e.label with
  | .outside => e.post.balance a k - e.pre.balance a k
  | .call _ | .failed _ _ => 0

/-- All of it, over a run. -/
def receivedAll (a : Address) (k : TokenKey) (h : List (Entry (World X) Label)) : Int :=
  (h.map (received a k)).sum

theorem receivedAll_concat (a : Address) (k : TokenKey) (h : List (Entry (World X) Label))
    (e : Entry (World X) Label) :
    receivedAll a k (h ++ [e]) = receivedAll a k h + received a k e := by
  rw [receivedAll, List.map_append, List.sum_append, List.map_singleton, List.sum_singleton]
  rfl

theorem World.balance_some {a : Address} {account : Account} (ha : w.accounts a = some account)
    (k : TokenKey) : w.balance a k = account.esdt k := by
  rw [World.balance, ha]

theorem World.balance_none {a : Address} (ha : w.accounts a = none) (k : TokenKey) :
    w.balance a k = 0 := by
  rw [World.balance, ha]

theorem World.logOf_of_log {events : List Event} (hlog : w'.log = w.log ++ events) (a : Address) :
    w'.logOf a = w.logOf a ++ events.filterMap (Event.of a) := by
  rw [World.logOf, hlog, List.filterMap_append]
  rfl

/-! ## One step -/

/-- The balances changed by what the log of the address, which only grew, has in its columns. -/
def Reconciles (w w' : World X) (a : Address) : Prop :=
  ∃ events, w'.logOf a = w.logOf a ++ events ∧
    ∀ k, w'.balance a k + sent events k = w.balance a k + brought events k

theorem Reconciles.of_same {a : Address} (hlog : w'.logOf a = w.logOf a)
    (hbalance : ∀ k, w'.balance a k = w.balance a k) : Reconciles w w' a := by
  refine ⟨[], hlog.trans (List.append_nil _).symm, fun k => ?_⟩
  rw [hbalance]
  rfl

/-- The setup of one account, seen from any address. -/
theorem reconciles_of_setup {a b : Address} {account : Account} {value : Nat} {r : UInt64}
    {s : SmartAccount.State X} (hb : w.accounts b = some account)
    (hs : Commits (SmartAccount.setupSmartAccount (w.peers C) w.self value r (w.served r))
      (w.enter b account) () s) : Reconciles w (w.leave b account s) a := by
  have hlog : (w.leave b account s).logOf a = w.logOf a ++ if b = a then s.log else [] := by
    have hgrown : (w.leave b account s).log = w.log ++ s.log.map (Event.account b) := rfl
    rw [World.logOf_of_log hgrown, filterMap_of_account]
  by_cases hba : b = a
  · subst hba
    obtain ⟨events, hevents, hsum⟩ := (SmartAccount.setUp_of_commits hs).booked
    -- the account enters with an empty log of its own
    have hown : s.log = events := hevents
    rw [if_pos rfl] at hlog
    refine ⟨s.log, hlog, fun k => ?_⟩
    rw [World.balance_some (w.leave_self b account s), World.balance_some hb, hown]
    exact hsum k
  · rw [if_neg hba, List.append_nil] at hlog
    refine .of_same hlog fun k => ?_
    rw [World.balance, w.leave_other account s (Ne.symm hba)]
    rfl

theorem reconciles_of_deployment {a caller b : Address} (hfresh : w.accounts b = none) :
    Reconciles w (w.deployed caller b (w.newAccount .smartAccount) (w.born b)) a := by
  refine .of_same ?_ fun k => ?_
  · rw [World.logOf_of_log (w.deployed_born_log caller b)]
    exact List.append_nil _
  · by_cases hab : a = b
    · subst hab
      obtain ⟨n, ha⟩ := w.deployed_account caller a (w.newAccount .smartAccount) (w.born a)
      rw [World.balance_some ha, World.balance_none hfresh]
      rfl
    · cases ha : w.accounts a with
      | none =>
          have hnone := w.deployed_absent caller (w.newAccount .smartAccount) (w.born b) hab ha
          rw [World.balance_none hnone, World.balance_none ha]
      | some account =>
          obtain ⟨n, hkept⟩ := w.deployed_kept caller (w.newAccount .smartAccount) (w.born b)
            hfresh ha
          rw [World.balance_some hkept, World.balance_some ha]

theorem Ordinary.reconciles {tx : Transaction} (ho : Ordinary C tx w w') (a : Address) :
    Reconciles w w' a := by
  cases ho with
  | storage _ _ _ => exact .of_same rfl fun _ => rfl
  | deploySmartAccount _ _ _ _ hfresh => exact reconciles_of_deployment hfresh
  | initializeSmartAccount _ _ _ hb hs => exact reconciles_of_setup hb hs

/-! ## Runs -/

/-- The columns of an address agree, of every token. -/
def World.Reconciled (w : World X) (h : List (Entry (World X) Label)) (a : Address) : Prop :=
  ∀ k, (w.balance a k : Int) + sent (w.logOf a) k = brought (w.logOf a) k + receivedAll a k h

theorem World.Reconciled.step {l : Label} (hs : Step C w l w') (hw : Sound w)
    (hcode : FromSmartAccount C ⟨w, l, w'⟩) {a : Address} (hr : w.Reconciled h a) :
    w'.Reconciled (h ++ [⟨w, l, w'⟩]) a := by
  intro k
  have hold := hr k
  rw [receivedAll_concat]
  cases hs with
  | @call _ tx hown hc =>
      have hreceived : received a k ⟨w, .call tx, w'⟩ = 0 := rfl
      obtain ⟨events, hlog, hsum⟩ := ((effect_of_commits hc).ordinary hw hown hcode).reconciles a
      have hnew := hsum k
      rw [hlog, SmartAccount.sent_append, SmartAccount.brought_append, hreceived]
      omega
  | @failed tx error _ _ =>
      have hreceived : received a k ⟨w, .failed tx error, w⟩ = 0 := rfl
      rw [hreceived]
      omega
  | @outside ext accounts _ =>
      have hreceived : received a k ⟨w, .outside, { w with ext, accounts }⟩ =
          ({ w with ext, accounts } : World X).balance a k - w.balance a k := rfl
      have hlog : ({ w with ext, accounts } : World X).logOf a = w.logOf a := rfl
      rw [hreceived, hlog]
      omega

/-- **The balances agree with the log.**  In every state of a run over the account template,
with third parties that do as they like, what an address holds of a token and what the calls
of its account have sent of it make up what these calls have brought back and what has reached
the address from outside. -/
theorem balances_reconciled (hinit : Initial C w₀) (t : Run C w₀ h w)
    (hcode : ∀ e ∈ h, FromSmartAccount C e) (a : Address) (k : TokenKey) :
    (w.balance a k : Int) + sent (w.logOf a) k =
      brought (w.logOf a) k + receivedAll a k h := by
  have hstart : w₀.Reconciled [] a := by
    intro k
    have hlog : w₀.logOf a = [] := by
      rw [World.logOf, hinit.blank.2.2]
      rfl
    have hnone : w₀.accounts a = none := by
      rw [hinit.blank.1]
    rw [hlog, World.balance_none hnone]
    rfl
  refine (t.induct (P := FromSmartAccount C) (I := fun h w => Sound w ∧ w.Reconciled h a)
    ⟨hinit.sound, hstart⟩ ?_ hcode).2 k
  intro h w l w' _ ih hc hs
  exact ⟨hs.sound ih.1 hc, ih.2.step hs ih.1 hc⟩

/-- After a deposit of 10000 the sample account has what the swap brought back. -/
theorem balances_reconciled_sample : ∃ h w, Run sampleChain sampleWorld h w ∧
    w.balance 0xACC ([77], 0) = 10000 ∧ sent (w.logOf 0xACC) ([77], 0) = 0 ∧
    (10000 : Int) = brought (w.logOf 0xACC) ([77], 0) + receivedAll 0xACC ([77], 0) h := by
  have hc : check (send sampleChain (fun e => decide (FromSmartAccount sampleChain e))
      [samplePublish 1 1, sampleDeploy, sampleInitialize 1 1 10000]) sampleWorld
      (fun w => decide (w.balance 0xACC ([77], 0) = 10000 ∧
        sent (w.logOf 0xACC) ([77], 0) = 0)) = true := by decide +kernel
  obtain ⟨h, w, t, _, hall, hq⟩ := run_of_check hc
  obtain ⟨hbalance, hsent⟩ := of_decide_eq_true hq
  have hcolumns := balances_reconciled sampleWorld_initial t
    (fun e he => of_decide_eq_true (hall e he)) 0xACC ([77], 0)
  rw [hbalance, hsent] at hcolumns
  exact ⟨h, w, t, hbalance, hsent, hcolumns⟩

end Deployer

end PortfolioPilot
