/-
# `Deployer.Conservation` — where the EGLD goes

Two kinds of EGLD enter: the fee of `deploySmartAccount`, which the deployer pays
on to the admin, and the value of `initializeSmartAccount`, which the deployer
sends to the account and the account to the wrapper.  Nothing is kept on the way:
the deployer and its accounts hold no EGLD in any state of a run, the admins have
been paid one fee for each registered user, and the wrapper has been sent the sum
of the deposits (`egld_conserved`).

The admins are assumed to be outside (`AdminOutside`), and the third parties to
return only tokens (`Peers.TokensOnly`).
-/
import Mathlib.Data.BitVec
import Mathlib.Data.Set.Card
import PortfolioPilot.Deployer.Accounts
import PortfolioPilot.SmartAccount.Deposits

namespace PortfolioPilot

namespace Deployer

open Revert
open SmartAccount (egldTo)

variable {X : Type} {C : Chain X} {w₀ w w' : World X} {h : List (Entry (World X) Label)}

/-! ## What is counted -/

/-- The EGLD an account sends to `dest` with a call. -/
def Event.calledTo (dest : Address) : Event → Nat
  | .account _ e => e.egldTo dest
  | .directEgld _ _ => 0

/-- The EGLD the deployer pays out to `dest`. -/
def Event.paidTo (dest : Address) : Event → Nat
  | .account _ _ => 0
  | .directEgld d amount => if d = dest then amount else 0

/-- The EGLD sent to the wrapper so far. -/
def World.sentToWrapper (w : World X) : Nat :=
  (w.log.map (Event.calledTo w.deployer.egldWrapperAddress)).sum

/-- The EGLD paid to the admin in force, in one entry. -/
def paidToAdmin (e : Entry (World X) Label) : Nat :=
  ((e.post.log.drop e.pre.log.length).map (Event.paidTo e.pre.deployer.adminAddress)).sum

/-- The EGLD paid to admins over a run. -/
def paidToAdmins (h : List (Entry (World X) Label)) : Nat := (h.map paidToAdmin).sum

/-- The users with an account. -/
def World.users (w : World X) : Set Address := {u | w.deployer.userSmartAccount u ≠ none}

instance : Finite Address := Finite.of_equiv _ BitVec.equivFin.symm.toEquiv

/-- The payment of an initialisation. -/
def Transaction.deposit (tx : Transaction) : Nat :=
  match tx.call with
  | .initializeSmartAccount _ => tx.value
  | _ => 0

theorem Transaction.deposit_initialize {tx : Transaction} {r : UInt64}
    (hcall : tx.call = .initializeSmartAccount r) : tx.deposit = tx.value := by
  rw [Transaction.deposit, hcall]

theorem Transaction.deposit_other {tx : Transaction}
    (hne : ∀ r, tx.call ≠ .initializeSmartAccount r) : tx.deposit = 0 := by
  rw [Transaction.deposit]
  cases hcall : tx.call with
  | initializeSmartAccount r => exact absurd hcall (hne r)
  | _ => rfl

def deposits (txs : List Transaction) : Nat := (txs.map Transaction.deposit).sum

/-- The admin is neither the deployer nor an account. -/
def World.AdminOutside (w : World X) : Prop :=
  w.deployer.adminAddress ≠ w.self ∧ w.accounts w.deployer.adminAddress = none

instance (w : World X) : Decidable w.AdminOutside :=
  match ha : w.accounts w.deployer.adminAddress with
  | none => decidable_of_iff (w.deployer.adminAddress ≠ w.self) ⟨fun h => ⟨h, ha⟩, fun h => h.1⟩
  | some _ => isFalse fun h => nomatch ha.symm.trans h.2

/-! ## What one step does -/

/-- From `w` to `w'` no EGLD stays behind; `opened` users register, each for one fee
paid to the admin, and `deposit` is sent to the wrapper. -/
structure Passes (w w' : World X) (opened deposit : Nat) : Prop where
  egld : w'.egld = w.egld
  accounts : (∀ a account, w.accounts a = some account → account.egld = 0) →
    ∀ a account, w'.accounts a = some account → account.egld = 0
  users : w'.users.ncard = w.users.ncard + opened
  fee : w'.deployer.smartAccountOpenFee = w.deployer.smartAccountOpenFee
  wrapper : w'.deployer.egldWrapperAddress = w.deployer.egldWrapperAddress
  log : ∃ events, w'.log = w.log ++ events ∧
    (events.map (Event.paidTo w.deployer.adminAddress)).sum =
      w.deployer.smartAccountOpenFee * opened ∧
    (events.map (Event.calledTo w.deployer.egldWrapperAddress)).sum = deposit

/-- No endpoint writes the fee or the wrapper. -/
theorem Effect.constants {tx : Transaction} (he : Effect C tx w w') :
    w'.deployer.smartAccountOpenFee = w.deployer.smartAccountOpenFee ∧
      w'.deployer.egldWrapperAddress = w.deployer.egldWrapperAddress := by
  rw [he.deployer]
  unfold Transaction.write
  cases tx.call with
  | _ => exact ⟨rfl, rfl⟩

theorem World.credit_outside (w : World X) {dest : Address} (amount : Nat) (hself : dest ≠ w.self)
    (hnone : w.accounts dest = none) : w.credit dest amount = w := by
  rw [World.credit, if_neg hself, hnone]

/-- A deployment whose fee is paid to an admin outside. -/
theorem World.deployed_outside {caller a : Address} {account : Account}
    {s : SmartAccount.State X} (hout : (w.deployed caller a account s).AdminOutside) :
    (w.deployed caller a account s).egld = w.egld ∧
      (w.deployed caller a account s).accounts = (w.leave a account s).accounts := by
  let registered := (w.leave a account s).store fun d =>
    { d with userSmartAccount := Function.update d.userSmartAccount caller (some a) }
  obtain ⟨hself, hnone⟩ := hout
  obtain ⟨hid, _, hdeployer⟩ := w.deployed_frame caller a account s
  rw [hid, hdeployer] at hself
  rw [hdeployer] at hnone
  have hnone' : registered.accounts w.deployer.adminAddress = none := by
    rcases registered.credit_accounts w.deployer.adminAddress w.deployer.smartAccountOpenFee
      w.deployer.adminAddress with heq | ⟨account', _, heq⟩
    · exact heq.symm.trans hnone
    · cases heq.symm.trans hnone
  have hcredit : registered.credit w.deployer.adminAddress w.deployer.smartAccountOpenFee =
      registered := registered.credit_outside _ hself hnone'
  constructor
  · show (registered.credit _ _).egld = registered.egld
    rw [hcredit]
  · show (registered.credit _ _).accounts = registered.accounts
    rw [hcredit]

theorem World.users_deployed {caller a : Address} {account : Account} {s : SmartAccount.State X} :
    (w.deployed caller a account s).users = insert caller w.users := by
  ext u
  show (w.deployed caller a account s).deployer.userSmartAccount u ≠ none ↔ _
  rw [(w.deployed_frame caller a account s).2.2, Set.mem_insert_iff]
  show Function.update w.deployer.userSmartAccount caller (some a) u ≠ none ↔ _
  by_cases hu : u = caller
  · subst hu
    simp
  · rw [Function.update_of_ne hu]
    exact ⟨fun hne => Or.inr hne, fun hor => hor.resolve_left hu⟩

/-- The events of an account pay no admin, and send what its calls send. -/
theorem sum_account (a dest : Address) (log : List SmartAccount.Event) :
    ((log.map (Event.account a)).map (Event.paidTo dest)).sum = 0 ∧
      ((log.map (Event.account a)).map (Event.calledTo dest)).sum = egldTo dest log := by
  constructor
  · rw [List.map_map]
    exact List.sum_eq_zero fun n hn => by
      obtain ⟨e, _, rfl⟩ := List.mem_map.mp hn
      rfl
  · rw [List.map_map]
    rfl

/-- A committed transaction in a sound world. -/
theorem Ordinary.passes {tx : Transaction} (ho : Ordinary C tx w w') (he : Effect C tx w w')
    (hw : Sound w) (hout : w'.AdminOutside) (hC : C.peers.TokensOnly) :
    ∃ n, Passes w w' n tx.deposit := by
  obtain ⟨hfee, hwrapper⟩ := he.constants
  cases ho with
  | @storage d hdeploy hinit hreg =>
      have hdeposit : tx.deposit = 0 := Transaction.deposit_other hinit
      have husers : (w.store fun _ => d).users = w.users := by
        unfold World.users
        show {u | d.userSmartAccount u ≠ none} = _
        rw [hreg]
      refine ⟨0, rfl, fun hacc => hacc, ?_, hfee, hwrapper, [], (List.append_nil _).symm, rfl, ?_⟩
      · rw [husers, Nat.add_zero]
      · exact hdeposit.symm
  | deploySmartAccount hcall _ hnone _ _ =>
      obtain ⟨hegld, haccounts⟩ := World.deployed_outside hout
      have hdeposit : tx.deposit = 0 := Transaction.deposit_other fun r => by simp [hcall]
      refine ⟨1, hegld, ?_, ?_, hfee, hwrapper, [.directEgld w.deployer.adminAddress
        w.deployer.smartAccountOpenFee], ?_, ?_, ?_⟩
      · intro hacc b account hb
        rw [haccounts] at hb
        rcases World.leave_cases hb with ⟨_, rfl⟩ | ⟨_, hb⟩
        · rfl
        · exact hacc b account hb
      · rw [World.users_deployed]
        exact Set.ncard_insert_of_notMem fun hu => hu hnone
      · exact w.deployed_born_log _ _
      · show (if _ = _ then _ else 0) + 0 = _
        rw [if_pos rfl, Nat.mul_one, Nat.add_zero]
      · exact hdeposit.symm
  | @initializeSmartAccount r a account s hcall hu hL ha hs =>
      have hP : (w.peers C).TokensOnly := by
        intro x b c x' ret hc
        by_cases hown : w.isOwn c.dest
        · rw [show (w.peers C).call x b c = none from if_pos hown] at hc
          cases hc
        · rw [show (w.peers C).call x b c = C.peers.call x b c from if_neg hown] at hc
          exact hC _ _ _ _ _ hc
      have hd : (w.enter a account).storage.smartAccountDeployerAddress = some w.self :=
        hw.deployer a account ha
      have hnamed : (w.peers C).egldWrapperAddress (w.enter a account).outside w.self =
          some w.deployer.egldWrapperAddress := if_pos rfl
      obtain ⟨hegld, events, hlog, hsent⟩ :=
        (SmartAccount.setUp_of_commits hs).deposit hP hd hnamed
      have hdeposit : tx.deposit = tx.value := Transaction.deposit_initialize hcall
      refine ⟨0, rfl, ?_, rfl, hfee, hwrapper, s.log.map (Event.account a), rfl, ?_, ?_⟩
      · intro hacc b account' hb
        rcases World.leave_cases hb with ⟨_, rfl⟩ | ⟨_, hb⟩
        · exact hegld.trans (hacc a account ha)
        · exact hacc b account' hb
      · exact (sum_account a _ s.log).1
      · rw [(sum_account a _ s.log).2, hlog, hdeposit]
        show egldTo _ ([] ++ events) = _
        rw [List.nil_append, hsent, if_pos rfl]

/-- The deposit of a label. -/
def Label.deposit (l : Label) : Nat := deposits l.committed.toList

theorem deposits_snoc (h : List (Entry (World X) Label)) (e : Entry (World X) Label) :
    deposits (committed (h ++ [e])) = deposits (committed h) + e.label.deposit := by
  rw [committed_concat, deposits, List.map_append, List.sum_append]
  rfl

theorem Step.passes {l : Label} (hs : Step C w l w') (hw : Sound w)
    (hcode : FromSmartAccount C ⟨w, l, w'⟩) (hout : w'.AdminOutside) (hC : C.peers.TokensOnly) :
    ∃ n, Passes w w' n l.deposit := by
  cases hs with
  | call hown hc =>
      have he := effect_of_commits hc
      exact (he.ordinary hw hown hcode).passes he hw hout hC
  | failed _ _ =>
      exact ⟨0, rfl, fun hacc => hacc, rfl, rfl, rfl, [], (List.append_nil _).symm, rfl, rfl⟩
  | outside htouch =>
      refine ⟨0, rfl, ?_, rfl, rfl, rfl, [], (List.append_nil _).symm, rfl, rfl⟩
      intro hacc a account' ha'
      obtain ⟨account, ha, _, _, hsame⟩ := (htouch a).of_after ha'
      rw [(hsame (hw.code a account ha)).2]
      exact hacc a account ha

/-! ## Runs -/

structure Conserved (h : List (Entry (World X) Label)) (w : World X) : Prop where
  /-- The deployer holds nothing. -/
  egld : w.egld = 0
  /-- No account does. -/
  accounts : ∀ a account, w.accounts a = some account → account.egld = 0
  /-- One fee a user has been paid to the admins. -/
  admins : paidToAdmins h = w.deployer.smartAccountOpenFee * w.users.ncard
  /-- Every deposit has been sent to the wrapper. -/
  wrapper : w.sentToWrapper = deposits (committed h)

theorem Conserved.step {l : Label} {n : Nat} (hh : Conserved h w) (hp : Passes w w' n l.deposit) :
    Conserved (h ++ [⟨w, l, w'⟩]) w' := by
  obtain ⟨events, hlog, hpaid, hsent⟩ := hp.log
  refine ⟨hp.egld.trans hh.egld, hp.accounts hh.accounts, ?_, ?_⟩
  · have hentry : paidToAdmin ⟨w, l, w'⟩ = w.deployer.smartAccountOpenFee * n := by
      rw [paidToAdmin, hlog, List.drop_left, hpaid]
    have hsum : paidToAdmins (h ++ [⟨w, l, w'⟩]) = paidToAdmins h + paidToAdmin ⟨w, l, w'⟩ := by
      rw [paidToAdmins, List.map_append, List.sum_append, List.map_singleton, List.sum_singleton]
      rfl
    rw [hsum, hentry, hh.admins, hp.fee, hp.users, Nat.mul_add]
  · have hsum : w'.sentToWrapper = w.sentToWrapper + l.deposit := by
      rw [World.sentToWrapper, hp.wrapper, hlog, List.map_append, List.sum_append, hsent]
      rfl
    rw [hsum, hh.wrapper, deposits_snoc]

end Deployer

end PortfolioPilot
