/-
# `Deployer.Views` — what a user sees, and what it depends on

A user sees the address he is registered for, what his account stores, and the lists that
are published (`UserView`).  Over the account template this is a machine of its own, run by
the committed transactions alone (`UserView.after`, `view_refines`): publications move the
lists on, and of the other transactions only his own deployment and his own initialisations
do anything at all.

So the transactions of the other users, the failed ones, the third parties and the whole
chain around can be taken out, or replaced by others, and he sees the same
(`views_agree`).
-/
import PortfolioPilot.Deployer.Accounts

namespace PortfolioPilot

namespace Deployer

open Revert
open SmartAccount (Strategy)

variable {X : Type} {C : Chain X} {w₀ w w' : World X} {h : List (Entry (World X) Label)}

/-! ## The machine of one user -/

structure UserView where
  account : Option (Address × SmartAccount.Storage)
  strategies : UInt64 × UInt64 → List Strategy
  lastStrategyEpoch : UInt64

/-- What the user sees before anything has happened. -/
def UserView.initial : UserView := ⟨none, fun _ => [], 0⟩

/-- The list an initialisation would be served. -/
def UserView.served (v : UserView) (r : UInt64) : List Strategy :=
  v.strategies (v.lastStrategyEpoch, r)

/-- What `u` sees after a committed transaction, at a deployer with the address `self`. -/
def UserView.after (self u : Address) (v : UserView) (tx : Transaction) : UserView :=
  match tx.call with
  | .setStrategiesPerEpoch r tuples =>
      { v with
        strategies := Function.update v.strategies (tx.epoch, r) (stepsOf tuples)
        lastStrategyEpoch := tx.epoch }
  | .deploySmartAccount =>
      if tx.caller = u then
        { v with account := some (tx.newAddress,
            { SmartAccount.Storage.blank with smartAccountDeployerAddress := some self }) }
      else v
  | .initializeSmartAccount r =>
      if tx.caller = u then
        { v with account := v.account.map fun a =>
            (a.1, { a.2 with userRiskTolerance := r, userStrategy := v.served r }) }
      else v
  | _ => v

/-- Whether the transaction is one that `u` can see the effect of. -/
def Transaction.concerns (u : Address) (tx : Transaction) : Bool :=
  match tx.call with
  | .setStrategiesPerEpoch _ _ => true
  | .deploySmartAccount | .initializeSmartAccount _ => decide (tx.caller = u)
  | _ => false

theorem UserView.after_of_not_concerns {self u : Address} {tx : Transaction}
    (hnot : tx.concerns u = false) (v : UserView) : v.after self u tx = v := by
  unfold Transaction.concerns at hnot
  unfold UserView.after
  cases hcall : tx.call with
  | setStrategiesPerEpoch r tuples =>
      rw [hcall] at hnot
      cases hnot
  | deploySmartAccount =>
      rw [hcall] at hnot
      exact if_neg (of_decide_eq_false hnot)
  | initializeSmartAccount r =>
      rw [hcall] at hnot
      exact if_neg (of_decide_eq_false hnot)
  | _ => rfl

/-- Only his own deployment and initialisations change the account a user sees. -/
theorem UserView.after_account_of_ne {self u : Address} {tx : Transaction} {v : UserView}
    (hne : tx.caller = u →
      tx.call ≠ .deploySmartAccount ∧ ∀ r, tx.call ≠ .initializeSmartAccount r) :
    (v.after self u tx).account = v.account := by
  unfold UserView.after
  by_cases hcaller : tx.caller = u
  · obtain ⟨hdeploy, hinit⟩ := hne hcaller
    cases hcall : tx.call with
    | deploySmartAccount => exact absurd hcall hdeploy
    | initializeSmartAccount r => exact absurd hcall (hinit r)
    | _ => rfl
  · cases tx.call with
    | _ => simp [hcaller]

/-- The other transactions can be taken out. -/
theorem UserView.foldl_concerns (self u : Address) (v : UserView) (txs : List Transaction) :
    txs.foldl (UserView.after self u) v =
      (txs.filter (Transaction.concerns u)).foldl (UserView.after self u) v := by
  rw [List.foldl_filter]
  congr 1
  funext v tx
  cases hc : tx.concerns u with
  | true => rfl
  | false => exact after_of_not_concerns hc v

/-! ## What the user sees of a world -/

/-- The account that `u` is registered for, with what it stores. -/
def World.accountOf (w : World X) (u : Address) : Option (Address × SmartAccount.Storage) :=
  (w.deployer.userSmartAccount u).bind fun a => (w.accounts a).map fun account => (a, account.storage)

def World.view (w : World X) (u : Address) : UserView where
  account := w.accountOf u
  strategies := w.deployer.strategies
  lastStrategyEpoch := w.deployer.lastStrategyEpoch

theorem World.accountOf_eq {u a : Address} {account : Account}
    (hu : w.deployer.userSmartAccount u = some a) (ha : w.accounts a = some account) :
    w.accountOf u = some (a, account.storage) := by
  unfold World.accountOf
  rw [hu, Option.bind_some, ha]
  rfl

theorem World.accountOf_none {u : Address} (hu : w.deployer.userSmartAccount u = none) :
    w.accountOf u = none := by
  unfold World.accountOf
  rw [hu, Option.bind_none]

theorem Initial.view (hinit : Initial C w) (u : Address) : w.view u = UserView.initial := by
  obtain ⟨hstrategies, hlast, _, hreg⟩ := hinit.deployer
  unfold World.view UserView.initial
  rw [World.accountOf_none (by rw [hreg]), hstrategies, hlast]

/-- Whoever is left untouched sees the same account. -/
theorem Untouched.accountOf {u : Address} (hsame : Untouched u w w') (hw : Wired w) :
    w'.accountOf u = w.accountOf u := by
  cases hu : w.deployer.userSmartAccount u with
  | none => rw [World.accountOf_none hu, World.accountOf_none (hsame.registry.trans hu)]
  | some a =>
      obtain ⟨account, ha⟩ := hw.registered u a hu
      obtain ⟨account', ha', hstorage, _⟩ := hsame.account a account hu ha
      rw [World.accountOf_eq hu ha, World.accountOf_eq (hsame.registry.trans hu) ha', hstorage]

/-- What a committed transaction does to the account of `u`. -/
theorem Ordinary.accountOf {tx : Transaction} (ho : Ordinary C tx w w') (hw : Sound w)
    (u : Address) : w'.accountOf u = ((w.view u).after w.self u tx).account := by
  by_cases hcaller : tx.caller = u
  · subst hcaller
    cases ho with
    | @storage d hdeploy hinit hreg =>
        have hsame : (w.store fun _ => d).accountOf tx.caller = w.accountOf tx.caller := by
          unfold World.accountOf
          rw [World.store_deployer, hreg]
          rfl
        rw [hsame, UserView.after_account_of_ne fun _ => ⟨hdeploy, hinit⟩]
        rfl
    | deploySmartAccount hcall =>
        obtain ⟨n, hacc⟩ := w.deployed_account tx.caller tx.newAddress (w.newAccount .smartAccount)
          (w.born tx.newAddress)
        rw [World.accountOf_eq (w.deployed_registered _ _ _ _) hacc]
        simp only [UserView.after, hcall, if_true]
        rfl
    | @initializeSmartAccount r a account s hcall hu _ ha hs =>
        have hold : (w.view tx.caller).account = some (a, account.storage) :=
          World.accountOf_eq hu ha
        have hreg : (w.leave a account s).deployer.userSmartAccount tx.caller = some a := hu
        rw [World.accountOf_eq hreg (w.leave_self a account s)]
        simp only [UserView.after, hcall, if_true, hold, Option.map_some]
        rw [setup_account hs]
        rfl
  · rw [(ho.untouched hw hcaller).accountOf hw.toWired,
      UserView.after_account_of_ne fun hself => absurd hself hcaller]
    rfl

/-- What a committed transaction does to the lists. -/
theorem Effect.lists {tx : Transaction} (he : Effect C tx w w') (u : Address) :
    w'.deployer.strategies = ((w.view u).after w.self u tx).strategies ∧
      w'.deployer.lastStrategyEpoch = ((w.view u).after w.self u tx).lastStrategyEpoch := by
  rw [he.deployer]
  unfold Transaction.write UserView.after
  cases tx.call with
  | deploySmartAccount => by_cases hcaller : tx.caller = u <;> simp [hcaller, World.view]
  | initializeSmartAccount r => by_cases hcaller : tx.caller = u <;> simp [hcaller, World.view]
  | _ => exact ⟨rfl, rfl⟩

theorem Effect.view {tx : Transaction} (he : Effect C tx w w') (hw : Sound w)
    (ho : Ordinary C tx w w') (u : Address) :
    w'.view u = (w.view u).after w.self u tx := by
  obtain ⟨hstrategies, hlast⟩ := he.lists u
  unfold World.view at hstrategies hlast ⊢
  rw [ho.accountOf hw u, hstrategies, hlast]
  rfl

/-! ## Runs -/

theorem Effect.self {tx : Transaction} (he : Effect C tx w w') : w'.self = w.self := by
  cases he.shape with
  | storage _ => rfl
  | deployed _ _ _ _ => exact (w.deployed_frame _ _ _ _).1
  | ran _ _ => rfl

/-- **Refinement, for one user.**  What a user sees at the end of a run over the account
template is what his machine shows after its committed transactions. -/
theorem view_refines (hinit : Initial C w₀) (t : Run C w₀ h w)
    (hcode : ∀ e ∈ h, FromSmartAccount C e) (u : Address) :
    w.view u = (committed h).foldl (UserView.after w₀.self u) UserView.initial := by
  refine (t.induct (P := FromSmartAccount C) (I := fun h w => Sound w ∧ w.self = w₀.self ∧
    w.view u = (committed h).foldl (UserView.after w₀.self u) UserView.initial)
    ⟨hinit.sound, rfl, hinit.view u⟩ ?_ hcode).2.2
  intro h w l w' _ ih hcode hs
  obtain ⟨hw, hself, hview⟩ := ih
  refine ⟨hs.sound hw hcode, ?_⟩
  cases hs with
  | call hown hc =>
      have he := effect_of_commits hc
      refine ⟨he.self.trans hself, ?_⟩
      rw [committed_concat_call, List.foldl_append, ← hview,
        he.view hw (he.ordinary hw hown hcode) u, hself]
      rfl
  | failed _ _ => exact ⟨hself, by simpa [committed, Label.committed] using hview⟩
  | outside htouch =>
      have hsame := (Step.outside htouch).untouched hw hcode (u := u) fun tx hl => by cases hl
      have hacc := hsame.accountOf hw.toWired
      refine ⟨hself, ?_⟩
      rw [committed_concat]
      show World.view _ u = _
      unfold World.view at hview ⊢
      rw [hacc]
      simpa [Label.committed] using hview

/-- **Noninterference between users.**  Take two runs over the account template, of any two
chains, whose committed transactions agree once those that do not concern `u` are taken
out.  Then `u` sees the same at their ends: the same account with the same risk tolerance,
strategy and portfolio stored in it, the same published lists, and so the same list for his
next initialisation.  Nothing that other users do, that fails, or that happens outside makes
a difference. -/
theorem views_agree {X₁ X₂ : Type} {C₁ : Chain X₁} {C₂ : Chain X₂} {w₁ w₁' : World X₁}
    {w₂ w₂' : World X₂} {h₁ : List (Entry (World X₁) Label)} {h₂ : List (Entry (World X₂) Label)}
    (hinit₁ : Initial C₁ w₁) (hinit₂ : Initial C₂ w₂) (hself : w₁.self = w₂.self)
    (t₁ : Run C₁ w₁ h₁ w₁') (hcode₁ : ∀ e ∈ h₁, FromSmartAccount C₁ e)
    (t₂ : Run C₂ w₂ h₂ w₂') (hcode₂ : ∀ e ∈ h₂, FromSmartAccount C₂ e) (u : Address)
    (hagree : (committed h₁).filter (Transaction.concerns u) =
      (committed h₂).filter (Transaction.concerns u)) :
    w₁'.view u = w₂'.view u ∧ ∀ r, w₁'.served r = w₂'.served r := by
  have hview : w₁'.view u = w₂'.view u := by
    calc w₁'.view u
        = (committed h₁).foldl (UserView.after w₁.self u) .initial :=
          view_refines hinit₁ t₁ hcode₁ u
      _ = ((committed h₁).filter (Transaction.concerns u)).foldl (UserView.after w₁.self u)
            .initial := UserView.foldl_concerns _ _ _ _
      _ = ((committed h₂).filter (Transaction.concerns u)).foldl (UserView.after w₂.self u)
            .initial := by rw [hagree, hself]
      _ = (committed h₂).foldl (UserView.after w₂.self u) .initial :=
          (UserView.foldl_concerns _ _ _ _).symm
      _ = w₂'.view u := (view_refines hinit₂ t₂ hcode₂ u).symm
  exact ⟨hview, fun r => congrArg (fun v => v.served r) hview⟩

/-- Another user deploys and invests in one of two runs. -/
theorem views_agree_sample : ∃ h₁ w₁ h₂ w₂, Run sampleChain sampleWorld h₁ w₁ ∧
    Run sampleChain sampleWorld h₂ w₂ ∧ (committed h₁).length = 5 ∧ (committed h₂).length = 3 ∧
    w₁.view sampleUser = w₂.view sampleUser := by
  let other : Address := 0x1004
  let deployOther : Transaction := { sampleDeploy with caller := other, newAddress := 0xACD }
  let initializeOther : Transaction := { sampleInitialize 1 1 700 with caller := other }
  let txs₁ := [samplePublish 1 1, deployOther, sampleDeploy, initializeOther,
    sampleInitialize 1 1 10000]
  let txs₂ := [samplePublish 1 1, sampleDeploy, sampleInitialize 1 1 10000]
  have hc₁ : check (send sampleChain (fun e => decide (FromSmartAccount sampleChain e)) txs₁)
      sampleWorld (fun _ => true) = true := by decide +kernel
  have hc₂ : check (send sampleChain (fun e => decide (FromSmartAccount sampleChain e)) txs₂)
      sampleWorld (fun _ => true) = true := by decide +kernel
  obtain ⟨h₁, w₁, t₁, hlabels₁, hcode₁, _⟩ := run_of_check hc₁
  obtain ⟨h₂, w₂, t₂, hlabels₂, hcode₂, _⟩ := run_of_check hc₂
  have htxs₁ := committed_of_labels hlabels₁
  have htxs₂ := committed_of_labels hlabels₂
  refine ⟨h₁, w₁, h₂, w₂, t₁, t₂, by rw [htxs₁]; rfl, by rw [htxs₂]; rfl, ?_⟩
  refine (views_agree sampleWorld_initial sampleWorld_initial rfl
    t₁ (fun e he => of_decide_eq_true (hcode₁ e he))
    t₂ (fun e he => of_decide_eq_true (hcode₂ e he)) sampleUser ?_).1
  rw [htxs₁, htxs₂]
  decide +kernel

end Deployer

end PortfolioPilot
