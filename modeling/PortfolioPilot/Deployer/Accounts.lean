/-
# `Deployer.Accounts` — one account per user, and nobody else's

With the account contract as the template, a deployer's world is `Sound`: every
account runs the account code and points back to the deployer.  In such a world a
transaction can do only three things to the accounts (`Ordinary`): nothing, a
deployment at a fresh address, or a `setupSmartAccount` of the caller's own
account by the deployer.  A direct call of an account fails its `only_owner`, an
upgrade replaces the code by itself.
-/
import PortfolioPilot.Deployer.Registry

namespace PortfolioPilot

namespace Deployer

open Revert
open SmartAccount (Strategy)

variable {X : Type} {C : Chain X} {w₀ w w' : World X} {h : List (Entry (World X) Label)}

/-! ## The invariant -/

/-- Every account is an account contract of this deployer. -/
structure Sound (w : World X) : Prop extends Wired w where
  code : ∀ a account, w.accounts a = some account → account.code = .smartAccount
  deployer : ∀ a account, w.accounts a = some account →
    account.storage.smartAccountDeployerAddress = some w.self

/-- The account at `a`, if there is one, runs the account code. -/
def World.Genuine (w : World X) (a : Address) : Prop :=
  ∀ account, w.accounts a = some account → account.code = .smartAccount

theorem Initial.sound (hinit : Initial C w) : Sound w := by
  refine ⟨hinit.wired, fun a account ha => ?_, fun a account ha => ?_⟩
  · rw [hinit.blank.1] at ha
    cases ha
  · rw [hinit.blank.1] at ha
    cases ha

/-- What a deployment or an upgrade of this entry copies is the account contract. -/
def FromSmartAccount (C : Chain X) (e : Entry (World X) Label) : Prop :=
  ∀ tx, e.label = .call tx → (tx.call = .deploySmartAccount ∨ tx.call = .upgradeSmartAccount) →
    e.pre.codeAt C e.pre.deployer.smartAccountTemplateAddress = some .smartAccount

instance (C : Chain X) (e : Entry (World X) Label) : Decidable (FromSmartAccount C e) :=
  match e with
  | ⟨w, .call tx, _⟩ =>
      decidable_of_iff ((tx.call = .deploySmartAccount ∨ tx.call = .upgradeSmartAccount) →
        w.codeAt C w.deployer.smartAccountTemplateAddress = some .smartAccount)
        ⟨fun h _ hl => by cases hl; exact h, fun h => h tx rfl⟩
  | ⟨_, .failed _ _, _⟩ => isTrue nofun
  | ⟨_, .outside, _⟩ => isTrue nofun

/-! ## What a transaction does to the accounts -/

/-- A new account after its `init`. -/
def World.born (w : World X) (a : Address) : SmartAccount.State X :=
  { w.enter a (w.newAccount .smartAccount) with
    storage := { SmartAccount.Storage.blank with smartAccountDeployerAddress := some w.self } }

/-- The `init` of an account makes no call, so a deployment logs its fee only. -/
theorem World.deployed_born_log (w : World X) (caller a : Address) :
    (w.deployed caller a (w.newAccount .smartAccount) (w.born a)).log =
      w.log ++ [.directEgld w.deployer.adminAddress w.deployer.smartAccountOpenFee] := by
  rw [w.deployed_log]
  show w.log ++ [] ++ _ = _
  rw [List.append_nil]

/-- What a committed transaction does in a sound world. -/
inductive Ordinary (C : Chain X) (tx : Transaction) (w : World X) : World X → Prop
  | storage {d : Storage} :
      tx.call ≠ .deploySmartAccount → (∀ r, tx.call ≠ .initializeSmartAccount r) →
      d.userSmartAccount = w.deployer.userSmartAccount →
      Ordinary C tx w (w.store fun _ => d)
  | deploySmartAccount :
      tx.call = .deploySmartAccount → tx.value = w.deployer.smartAccountOpenFee →
      w.deployer.userSmartAccount tx.caller = none →
      tx.newAddress ≠ w.self → w.accounts tx.newAddress = none →
      Ordinary C tx w
        (w.deployed tx.caller tx.newAddress (w.newAccount .smartAccount) (w.born tx.newAddress))
  | initializeSmartAccount {r : UInt64} {a : Address} {account : Account}
      {s : SmartAccount.State X} :
      tx.call = .initializeSmartAccount r →
      w.deployer.userSmartAccount tx.caller = some a → w.served r ≠ [] →
      w.accounts a = some account →
      Commits (SmartAccount.setupSmartAccount (w.peers C) w.self tx.value r (w.served r))
        (w.enter a account) () s →
      Ordinary C tx w (w.leave a account s)

/-- An account put back as it was. -/
theorem World.leave_enter {a : Address} {account : Account} (ha : w.accounts a = some account) :
    w.leave a account (w.enter a account) = w := by
  have hupd : Function.update w.accounts a (some account) = w.accounts := by
    rw [← ha]
    exact Function.update_eq_self a w.accounts
  unfold World.leave World.enter
  simp [hupd]

/-- An account refuses a setup that is sent to it directly: the caller would have to
be the deployer, which sends no transactions. -/
theorem Wired.refuses_setup (hw : Wired w) {caller a : Address} (hown : w.isOwn caller = false)
    {account : Account} (ha : w.accounts a = some account) (hcode : account.code = .smartAccount)
    {value : Nat} {r : UInt64} {L : List Strategy} {s : SmartAccount.State X} :
    ¬ Runs C w caller value a account (.setupSmartAccount r L) s := by
  intro hs
  cases SmartAccount.setUp_of_commits ((runs_setup hcode).mp hs) with
  | mk hcaller =>
      have hself : caller = w.self := hcaller.trans (hw.owner a account ha)
      rw [hself] at hown
      simp [World.isOwn] at hown

theorem Effect.ordinary {tx : Transaction} (h : Effect C tx w w') (hw : Sound w)
    (hown : w.isOwn tx.caller = false) (hcode : FromSmartAccount C ⟨w, .call tx, w'⟩) :
    Ordinary C tx w w' := by
  cases h with
  | updateSmartAccountTemplate hcall _ _ =>
      exact .storage (by simp [hcall]) (fun r => by simp [hcall]) rfl
  | @deploySmartAccount code s hcall hfee hnone hself hfresh hc hs =>
      cases hc.symm.trans (hcode tx rfl (Or.inl hcall))
      rw [(runs_init rfl).mp hs]
      exact .deploySmartAccount hcall hfee hnone hself hfresh
  | @upgradeSmartAccount a account code s hcall _ _ ha _ hc hs =>
      cases hc.symm.trans (hcode tx rfl (Or.inr hcall))
      have hsame : { account with code := Code.smartAccount } = account := by
        rw [← hw.code a account ha]
      rw [(runs_upgrade rfl).mp hs, hsame, World.leave_enter ha]
      exact .storage (d := w.deployer) (by simp [hcall])
        (fun r => by simp [hcall]) rfl
  | @initializeSmartAccount r a account s hcall hu hL ha hs =>
      exact .initializeSmartAccount hcall hu hL ha ((runs_setup (hw.code a account ha)).mp hs)
  | setFarmStakingAddressForToken hcall _ _ _ =>
      exact .storage (by simp [hcall]) (fun r => by simp [hcall]) rfl
  | setAdminAddress hcall _ _ _ =>
      exact .storage (by simp [hcall]) (fun r => by simp [hcall]) rfl
  | setStrategiesPerEpoch hcall _ _ =>
      exact .storage (by simp [hcall]) (fun r => by simp [hcall]) rfl
  | quiet hcall _ =>
      refine .storage (d := w.deployer) ?_ ?_ rfl
      · rcases hcall with ⟨hcall, _⟩ | hcall
        · simp [hcall]
        · simp [hcall]
      · intro r
        rcases hcall with ⟨hcall, _⟩ | hcall
        · simp [hcall]
        · simp [hcall]
  | @setupSmartAccount a r L account s _ ha hs =>
      exact absurd hs (hw.refuses_setup hown ha (hw.code a account ha))

/-- What a setup leaves of an account: its code, its owner and its deployer. -/
theorem setup_account {caller a : Address} {value : Nat} {r : UInt64} {L : List Strategy}
    {account : Account} {s : SmartAccount.State X}
    (h : Commits (SmartAccount.setupSmartAccount (w.peers C) caller value r L)
      (w.enter a account) () s) :
    s.storage = { account.storage with userRiskTolerance := r, userStrategy := L } :=
  (SmartAccount.setUp_of_commits h).effect.2.2.1

/-- A committed transaction keeps a world sound. -/
theorem Ordinary.sound {tx : Transaction} (ho : Ordinary C tx w w') (he : Effect C tx w w')
    (hw : Sound w) : Sound w' := by
  have hwired := he.shape.wired hw.toWired
  cases ho with
  | storage _ _ _ => exact ⟨hwired, hw.code, hw.deployer⟩
  | deploySmartAccount _ _ _ _ hfresh =>
      refine ⟨hwired, ?_, ?_⟩
      · intro b account' hb
        rcases World.deployed_cases hfresh hb with ⟨_, n, rfl⟩ | ⟨_, account, n, ha, rfl⟩
        · rfl
        · exact hw.code b account ha
      · intro b account' hb
        rw [(w.deployed_frame _ _ _ _).1]
        rcases World.deployed_cases hfresh hb with ⟨_, n, rfl⟩ | ⟨_, account, n, ha, rfl⟩
        · rfl
        · exact hw.deployer b account ha
  | @initializeSmartAccount r a account s _ _ _ ha hs =>
      refine ⟨hwired, ?_, ?_⟩
      · intro b account' hb
        rcases World.leave_cases hb with ⟨_, rfl⟩ | ⟨_, hb⟩
        · exact hw.code a account ha
        · exact hw.code b account' hb
      · intro b account' hb
        rcases World.leave_cases hb with ⟨_, rfl⟩ | ⟨_, hb⟩
        · show s.storage.smartAccountDeployerAddress = some w.self
          rw [setup_account hs]
          exact hw.deployer a account ha
        · exact hw.deployer b account' hb

/-! ## Runs -/

theorem Step.sound {l : Label} (hs : Step C w l w') (hw : Sound w)
    (hcode : FromSmartAccount C ⟨w, l, w'⟩) : Sound w' := by
  have hwired := hs.wired hw.toWired
  cases hs with
  | call hown hc =>
      have he := effect_of_commits hc
      exact (he.ordinary hw hown hcode).sound he hw
  | failed _ _ => exact hw
  | outside htouch =>
      refine ⟨hwired, ?_, ?_⟩
      · intro a account' ha
        obtain ⟨account, hacc, hc, _, _⟩ := (htouch a).of_after ha
        exact hc.trans (hw.code a account hacc)
      · intro a account' ha
        obtain ⟨account, hacc, _, _, hsame⟩ := (htouch a).of_after ha
        rw [(hsame (hw.code a account hacc)).1]
        exact hw.deployer a account hacc

/-- Every state of a run is sound. -/
theorem sound_of_run (hinit : Initial C w₀) (t : Run C w₀ h w)
    (hcode : ∀ e ∈ h, FromSmartAccount C e) : Sound w :=
  t.induct (P := FromSmartAccount C) (I := fun _ w => Sound w) hinit.sound
    (fun _ _ _ _ _ hw hc hs => hs.sound hw hc) hcode

/-- The steps of a run, each from a sound state. -/
theorem sound_entry (hinit : Initial C w₀) (t : Run C w₀ h w)
    (hcode : ∀ e ∈ h, FromSmartAccount C e) {e : Entry (World X) Label} (he : e ∈ h) :
    Sound e.pre ∧ Step C e.pre e.label e.post ∧ FromSmartAccount C e := by
  obtain ⟨h₁, h₂, hh, t₁, hs, _⟩ := t.split_of_mem e he
  refine ⟨sound_of_run hinit t₁ fun e' he' => hcode e' ?_, hs, hcode e he⟩
  rw [hh]
  exact List.mem_append_left _ he'

/-- With the account contract as the template, every account runs the account code. -/
theorem genuine_of_run (hinit : Initial C w₀) (t : Run C w₀ h w)
    (hcode : ∀ e ∈ h, FromSmartAccount C e) (a : Address) : ∀ e ∈ h, e.post.Genuine a := by
  intro e he
  obtain ⟨hpre, hs, hc⟩ := sound_entry hinit t hcode he
  exact (hs.sound hpre hc).code a

/-- The registry of a user and the code and storage of his account are the same. -/
structure Untouched (u : Address) (w w' : World X) : Prop where
  registry : w'.deployer.userSmartAccount u = w.deployer.userSmartAccount u
  account : ∀ a account, w.deployer.userSmartAccount u = some a → w.accounts a = some account →
    ∃ account', w'.accounts a = some account' ∧ account'.storage = account.storage ∧
      account'.code = account.code

theorem Ordinary.untouched {tx : Transaction} (h : Ordinary C tx w w') (hw : Sound w) {u : Address}
    (hu : tx.caller ≠ u) : Untouched u w w' := by
  cases h with
  | storage _ _ hreg => exact ⟨congrFun hreg u, fun a account _ ha => ⟨account, ha, rfl, rfl⟩⟩
  | deploySmartAccount _ _ _ _ hfresh =>
      constructor
      · rw [(w.deployed_frame _ _ _ _).2.2]
        exact Function.update_of_ne hu.symm ..
      · intro a account _ ha
        obtain ⟨n, ha'⟩ := w.deployed_kept tx.caller (w.newAccount .smartAccount)
          (w.born tx.newAddress) hfresh ha
        exact ⟨_, ha', rfl, rfl⟩
  | @initializeSmartAccount r b account s _ hb _ _ _ =>
      refine ⟨rfl, fun a account' ha hacc => ?_⟩
      have hne : a ≠ b := by
        intro hab
        exact hu (hw.injective _ _ b hb (by rw [← hab]; exact ha))
      exact ⟨account', (w.leave_other account s hne).trans hacc, rfl, rfl⟩

/-- Only a call of the user himself touches his account. -/
theorem Step.untouched {l : Label} (h : Step C w l w') (hw : Sound w)
    (hcode : FromSmartAccount C ⟨w, l, w'⟩) {u : Address}
    (hother : ∀ tx, l = .call tx → tx.caller ≠ u) : Untouched u w w' := by
  cases h with
  | call hown hc =>
      exact ((effect_of_commits hc).ordinary hw hown hcode).untouched hw (hother _ rfl)
  | failed _ _ => exact ⟨rfl, fun a account _ ha => ⟨account, ha, rfl, rfl⟩⟩
  | outside htouch =>
      refine ⟨rfl, fun a account _ ha => ?_⟩
      obtain ⟨account', ha', hcode', _, hsame⟩ := (htouch a).of_before ha
      exact ⟨account', ha', (hsame (hw.code a account ha)).1, hcode'⟩

/-- **One account per user, isolated from all other users.**  In every run over
the account template the registry is injective and written once; a registered
account is owned by the deployer and points back to it; and no step but a call
of the user himself changes his registration, or the storage or code of his
account. -/
theorem accounts_isolated (hinit : Initial C w₀) (t : Run C w₀ h w)
    (hcode : ∀ e ∈ h, FromSmartAccount C e) :
    (∀ u u' a, w.deployer.userSmartAccount u = some a →
      w.deployer.userSmartAccount u' = some a → u = u') ∧
    (∀ u a, w.deployer.userSmartAccount u = some a → ∃ account, w.accounts a = some account ∧
      account.owner = w.self ∧ account.storage.smartAccountDeployerAddress = some w.self) ∧
    (∀ e ∈ h, ∀ u a, e.pre.deployer.userSmartAccount u = some a →
      e.post.deployer.userSmartAccount u = some a) ∧
    (∀ e ∈ h, ∀ u, (∀ tx, e.label = .call tx → tx.caller ≠ u) → Untouched u e.pre e.post) := by
  have hw := sound_of_run hinit t hcode
  refine ⟨hw.injective, ?_, ?_, ?_⟩
  · intro u a hu
    obtain ⟨account, ha⟩ := hw.registered u a hu
    exact ⟨account, ha, hw.owner a account ha, hw.deployer a account ha⟩
  · intro e he u a hu
    obtain ⟨_, hs, _⟩ := sound_entry hinit t hcode he
    exact hs.write_once hu
  · intro e he u hother
    obtain ⟨hpre, hs, hc⟩ := sound_entry hinit t hcode he
    exact hs.untouched hpre hc hother

def sampleOther : Address := 0x1004

/-- Another user deploys an account at `0xACD` and initialises it. -/
def sampleOtherCalls : List Transaction :=
  [{ sampleDeploy with caller := sampleOther, newAddress := 0xACD },
    { sampleInitialize 1 1 500 with caller := sampleOther }]

/-- A direct call of the account of the sample user. -/
def sampleIntrusion : Transaction :=
  sampleCall sampleOther 1 (.setupSmartAccount 0xACC 1 [⟨10000, .esdt, 0xA, [77]⟩])

/-- Another user deploys an account, initialises it and calls that of the sample user: the
last call is undone, and nothing of the sample user's has changed since his deployment. -/
theorem accounts_isolated_sample : ∃ h w error, Run sampleChain sampleWorld h w ∧
    h.map Entry.label = [.call (samplePublish 1 1), .call sampleDeploy] ++
      sampleOtherCalls.map Label.call ++ [.failed sampleIntrusion error] ∧
    w.deployer.userSmartAccount sampleUser = some 0xACC ∧
    w.deployer.userSmartAccount sampleOther = some 0xACD ∧
    (∃ account, w.accounts 0xACC = some account ∧ account.owner = w.self ∧
      account.storage.smartAccountDeployerAddress = some w.self) ∧
    ∀ e ∈ h, e.label ≠ .call sampleDeploy → Untouched sampleUser e.pre e.post := by
  have hc : check (send sampleChain (fun e => decide (FromSmartAccount sampleChain e))
      ([samplePublish 1 1, sampleDeploy] ++ sampleOtherCalls)) sampleWorld (fun w =>
        decide (w.isOwn sampleOther = false ∧
          check (dispatch sampleChain sampleIntrusion) w (fun _ => true) = false ∧
          w.deployer.userSmartAccount sampleUser = some 0xACC ∧
          w.deployer.userSmartAccount sampleOther = some 0xACD)) = true := by
    decide +kernel
  obtain ⟨h, w, t, hlabels, hcode, hq⟩ := run_of_check hc
  obtain ⟨hown, hundone, huser, hother⟩ := of_decide_eq_true hq
  obtain ⟨error, hrev⟩ := reverts_of_check hundone
  let failure : Entry (World Unit) Label := ⟨w, .failed sampleIntrusion error, w⟩
  have t' : Run sampleChain sampleWorld (h ++ [failure]) w := t.snoc (.failed hown hrev)
  have hall : ∀ e ∈ h ++ [failure], FromSmartAccount sampleChain e := by
    intro e he
    rcases List.mem_append.mp he with he | he
    · exact of_decide_eq_true (hcode e he)
    · cases List.mem_singleton.mp he
      intro tx hl
      cases hl
  obtain ⟨_, hregistered, _, huntouched⟩ := accounts_isolated sampleWorld_initial t' hall
  have hlabels' : (h ++ [failure]).map Entry.label =
      [.call (samplePublish 1 1), .call sampleDeploy] ++ sampleOtherCalls.map Label.call ++
        [.failed sampleIntrusion error] := by
    rw [List.map_append, hlabels]
    rfl
  refine ⟨_, w, error, t', hlabels', huser, hother, hregistered _ _ huser, ?_⟩
  intro e he hdeploy
  refine huntouched e he sampleUser fun tx hl => ?_
  -- the deployment is the only transaction of the sample user
  have hmem : e.label ∈ (h ++ [failure]).map Entry.label := List.mem_map_of_mem he
  rw [hlabels', hl] at hmem
  rw [hl] at hdeploy
  simp only [sampleOtherCalls, List.map_cons, List.map_nil, List.mem_append, List.mem_cons,
    List.not_mem_nil, or_false, reduceCtorEq, Label.call.injEq] at hmem hdeploy
  rcases hmem with (rfl | rfl) | rfl | rfl
  · decide
  · exact absurd rfl hdeploy
  · decide
  · decide

end Deployer

end PortfolioPilot
