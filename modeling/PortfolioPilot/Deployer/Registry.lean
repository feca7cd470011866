/-
# `Deployer.Registry` — the registry of users and the accounts on the chain

Whatever code the template has, the registry and the accounts fit together: the
registered addresses are those of the accounts, one user each, and every account
is owned by the deployer (`Wired`).  A committed transaction has one of three
shapes (`Shape`): it leaves the accounts alone, it deploys one at a fresh address,
or one of them runs.
-/
import PortfolioPilot.Deployer.Runs

namespace PortfolioPilot

namespace Deployer

variable {X : Type} {C : Chain X} {w₀ w w' : World X} {h : List (Entry (World X) Label)}

/-! ## The invariant -/

structure Wired (w : World X) : Prop where
  owner : ∀ a account, w.accounts a = some account → account.owner = w.self
  /-- The registry points to accounts. -/
  registered : ∀ u a, w.deployer.userSmartAccount u = some a → ∃ account, w.accounts a = some account
  /-- Every account is registered. -/
  user : ∀ a account, w.accounts a = some account → ∃ u, w.deployer.userSmartAccount u = some a
  injective : ∀ u u' a, w.deployer.userSmartAccount u = some a →
    w.deployer.userSmartAccount u' = some a → u = u'
  /-- The deployer is no account. -/
  self : w.accounts w.self = none

theorem Initial.wired (hinit : Initial C w) : Wired w := by
  obtain ⟨hacc, _, _⟩ := hinit.blank
  obtain ⟨_, _, _, hreg⟩ := hinit.deployer
  have hnone : ∀ a account, w.accounts a ≠ some account := by
    intro a account ha
    rw [hacc] at ha
    cases ha
  have hempty : ∀ u a, w.deployer.userSmartAccount u ≠ some a := by
    intro u a hu
    rw [hreg] at hu
    cases hu
  refine ⟨?_, ?_, ?_, ?_, by rw [hacc]⟩
  · intro a account ha
    exact absurd ha (hnone a account)
  · intro u a hu
    exact absurd hu (hempty u a)
  · intro a account ha
    exact absurd ha (hnone a account)
  · intro u u' a hu
    exact absurd hu (hempty u a)

/-! ## After a deployment -/

/-- The accounts after a deployment: the new one, and the others as they were
but for EGLD that the fee may have added. -/
theorem World.deployed_cases {caller a b : Address} {account account' : Account}
    {s : SmartAccount.State X} (hfresh : w.accounts a = none)
    (hb : (w.deployed caller a account s).accounts b = some account') :
    (b = a ∧ ∃ n, account' = { account with storage := s.storage, egld := n, esdt := s.esdt }) ∨
      (b ≠ a ∧ ∃ old n, w.accounts b = some old ∧ account' = { old with egld := n }) := by
  by_cases hba : b = a
  · subst hba
    obtain ⟨n, hacc⟩ := w.deployed_account caller b account s
    cases hacc.symm.trans hb
    exact Or.inl ⟨rfl, n, rfl⟩
  · cases ha : w.accounts b with
    | none => cases (w.deployed_absent caller account s hba ha).symm.trans hb
    | some old =>
        obtain ⟨n, hacc⟩ := w.deployed_kept caller account s hfresh ha
        cases hacc.symm.trans hb
        exact Or.inr ⟨hba, old, n, rfl, rfl⟩

/-- The registry after a deployment. -/
theorem World.deployed_registry {caller a u b : Address} {account : Account}
    {s : SmartAccount.State X} :
    (w.deployed caller a account s).deployer.userSmartAccount u = some b ↔
      (u = caller ∧ b = a) ∨ (u ≠ caller ∧ w.deployer.userSmartAccount u = some b) := by
  rw [(w.deployed_frame caller a account s).2.2]
  show Function.update w.deployer.userSmartAccount caller (some a) u = some b ↔ _
  by_cases hu : u = caller
  · subst hu
    rw [Function.update_self]
    simp [eq_comm]
  · rw [Function.update_of_ne hu]
    simp [hu]

/-! ## The shape of a transaction -/

inductive Shape (w : World X) : World X → Prop
  | storage {d : Storage} : d.userSmartAccount = w.deployer.userSmartAccount →
      Shape w (w.store fun _ => d)
  | deployed {caller a : Address} {account : Account} {s : SmartAccount.State X} :
      w.deployer.userSmartAccount caller = none → a ≠ w.self → w.accounts a = none →
      account.owner = w.self → Shape w (w.deployed caller a account s)
  | ran {a : Address} {account account' : Account} {s : SmartAccount.State X} :
      w.accounts a = some account → account'.owner = account.owner →
      Shape w (w.leave a account' s)

theorem Effect.shape {tx : Transaction} (he : Effect C tx w w') : Shape w w' := by
  cases he with
  | updateSmartAccountTemplate => exact .storage rfl
  | deploySmartAccount _ _ hnone hself hfresh _ _ => exact .deployed hnone hself hfresh rfl
  | upgradeSmartAccount _ _ _ ha _ _ _ => exact .ran ha rfl
  | initializeSmartAccount _ _ _ ha _ => exact .ran ha rfl
  | setFarmStakingAddressForToken => exact .storage rfl
  | setAdminAddress => exact .storage rfl
  | setStrategiesPerEpoch => exact .storage rfl
  | quiet => exact .storage (d := w.deployer) rfl
  | setupSmartAccount _ ha _ => exact .ran ha rfl

theorem Shape.wired (hs : Shape w w') (hw : Wired w) : Wired w' := by
  cases hs with
  | storage hreg =>
      refine ⟨hw.owner, ?_, ?_, ?_, hw.self⟩
      · intro u a hu
        exact hw.registered u a (by rw [← hreg]; exact hu)
      · intro a account ha
        obtain ⟨u, hu⟩ := hw.user a account ha
        exact ⟨u, by rw [← hu]; exact congrFun hreg u⟩
      · intro u u' a hu hu'
        exact hw.injective u u' a (by rw [← hreg]; exact hu) (by rw [← hreg]; exact hu')
  | @deployed caller a account s hnone hself hfresh howner =>
      have hid := (w.deployed_frame caller a account s).1
      -- nobody is registered for the new address yet
      have hunused : ∀ u, w.deployer.userSmartAccount u ≠ some a := by
        intro u hu
        obtain ⟨old, ha⟩ := hw.registered u _ hu
        rw [hfresh] at ha
        cases ha
      refine ⟨?_, ?_, ?_, ?_, ?_⟩
      · intro b account' hb
        rw [hid]
        rcases World.deployed_cases hfresh hb with ⟨_, n, rfl⟩ | ⟨_, old, n, ha, rfl⟩
        · exact howner
        · exact hw.owner b old ha
      · intro u b hu
        rcases World.deployed_registry.mp hu with ⟨_, rfl⟩ | ⟨_, hu⟩
        · obtain ⟨n, ha⟩ := w.deployed_account caller b account s
          exact ⟨_, ha⟩
        · obtain ⟨old, ha⟩ := hw.registered u b hu
          obtain ⟨n, ha'⟩ := w.deployed_kept caller account s hfresh ha
          exact ⟨_, ha'⟩
      · intro b account' hb
        rcases World.deployed_cases hfresh hb with ⟨rfl, _⟩ | ⟨_, old, n, ha, rfl⟩
        · exact ⟨caller, w.deployed_registered _ _ _ _⟩
        · obtain ⟨u, hu⟩ := hw.user b old ha
          refine ⟨u, World.deployed_registry.mpr (Or.inr ⟨?_, hu⟩)⟩
          rintro rfl
          rw [hnone] at hu
          cases hu
      · intro u u' b hu hu'
        rcases World.deployed_registry.mp hu with ⟨rfl, rfl⟩ | ⟨_, hold⟩
        · rcases World.deployed_registry.mp hu' with ⟨rfl, _⟩ | ⟨_, hold'⟩
          · rfl
          · exact absurd hold' (hunused u')
        · rcases World.deployed_registry.mp hu' with ⟨_, rfl⟩ | ⟨_, hold'⟩
          · exact absurd hold (hunused u)
          · exact hw.injective u u' b hold hold'
      · rw [hid]
        exact w.deployed_absent _ _ _ hself.symm hw.self
  | @ran a account account' s ha howner =>
      have hne : w.self ≠ a := by
        intro hself
        rw [← hself, hw.self] at ha
        cases ha
      refine ⟨?_, ?_, ?_, hw.injective, ?_⟩
      · intro b old hb
        rcases World.leave_cases hb with ⟨_, rfl⟩ | ⟨_, hb⟩
        · exact howner.trans (hw.owner a account ha)
        · exact hw.owner b old hb
      · intro u b hu
        obtain ⟨old, hb⟩ := hw.registered u b hu
        by_cases hba : b = a
        · subst hba
          exact ⟨_, w.leave_self b account' s⟩
        · exact ⟨old, (w.leave_other account' s hba).trans hb⟩
      · intro b old hb
        rcases World.leave_cases hb with ⟨rfl, _⟩ | ⟨_, hb⟩
        · exact hw.user b account ha
        · exact hw.user b old hb
      · exact (w.leave_other account' s hne).trans hw.self

/-- A user's entry, once set, stays. -/
theorem Shape.write_once (hs : Shape w w') {u a : Address}
    (hu : w.deployer.userSmartAccount u = some a) :
    w'.deployer.userSmartAccount u = some a := by
  cases hs with
  | storage hreg => exact (congrFun hreg u).trans hu
  | deployed hnone _ _ _ =>
      refine World.deployed_registry.mpr (Or.inr ⟨?_, hu⟩)
      rintro rfl
      rw [hnone] at hu
      cases hu
  | ran _ _ => exact hu

/-! ## Steps and runs -/

/-- What of an account nothing outside can change. -/
def Account.Same (account account' : Account) : Prop :=
  account'.code = account.code ∧ account'.owner = account.owner ∧
    (account.code = .smartAccount →
      account'.storage = account.storage ∧ account'.egld = account.egld)

theorem Touched.of_after {o o' : Option Account} {account' : Account} (ht : Touched o o')
    (ho : o' = some account') : ∃ account, o = some account ∧ account.Same account' := by
  subst ho
  cases o with
  | none => exact absurd ht id
  | some account => exact ⟨account, rfl, ht⟩

theorem Touched.of_before {o o' : Option Account} {account : Account} (ht : Touched o o')
    (ho : o = some account) : ∃ account', o' = some account' ∧ account.Same account' := by
  subst ho
  cases o' with
  | none => exact absurd ht id
  | some account' => exact ⟨account', rfl, ht⟩

theorem Touched.of_none {o o' : Option Account} (ht : Touched o o') (ho : o = none) : o' = none := by
  subst ho
  cases o' with
  | none => rfl
  | some _ => exact absurd ht id

theorem Step.wired {l : Label} (hs : Step C w l w') (hw : Wired w) : Wired w' := by
  cases hs with
  | call _ hc => exact (effect_of_commits hc).shape.wired hw
  | failed _ _ => exact hw
  | outside htouch =>
      refine ⟨?_, ?_, ?_, hw.injective, (htouch _).of_none hw.self⟩
      · intro a account' ha
        obtain ⟨account, hacc, _, ho, _⟩ := (htouch a).of_after ha
        exact ho.trans (hw.owner a account hacc)
      · intro u a hu
        obtain ⟨account, ha⟩ := hw.registered u a hu
        obtain ⟨account', ha', _⟩ := (htouch a).of_before ha
        exact ⟨account', ha'⟩
      · intro a account' ha
        obtain ⟨account, hacc, _⟩ := (htouch a).of_after ha
        exact hw.user a account hacc

theorem Step.write_once {l : Label} (hs : Step C w l w') {u a : Address}
    (hu : w.deployer.userSmartAccount u = some a) :
    w'.deployer.userSmartAccount u = some a := by
  cases hs with
  | call _ hc => exact (effect_of_commits hc).shape.write_once hu
  | failed _ _ => exact hu
  | outside _ => exact hu

/-- Every state of a run is wired. -/
theorem wired_of_run (hinit : Initial C w₀) (t : Run C w₀ h w) : Wired w :=
  t.invariant hinit.wired fun _ _ _ hw hs => hs.wired hw

end Deployer

end PortfolioPilot
