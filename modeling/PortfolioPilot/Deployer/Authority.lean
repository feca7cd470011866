/-
# `Deployer.Authority` — whose decision the configuration and the code of an account are

What the deployer and its accounts run on was decided by somebody, and a run knows by
whom.  Three registers of a run say it: the template address, which anyone sets, the
admin address, which the owner sets, and the code at an address, which a deployment or an
upgrade copies from the template.

So the code of an account is what its own user asked for last, from the template that was
then in force (`code_provenance`), whatever code that is and whatever it does.  And the
rest of the configuration leads back to the owner: he appoints the admins, only an
appointed admin publishes a strategy, and the owner sets the staking addresses
(`authority`).
-/
import PortfolioPilot.Lib.InForce
import PortfolioPilot.Deployer.Conservation
import PortfolioPilot.Deployer.Strategies

namespace PortfolioPilot

namespace Deployer

open Revert Trace
open SmartAccount (Strategy)

variable {X : Type} {C : Chain X} {w₀ w w' : World X} {h : List (Entry (World X) Label)}

/-! ## Registers of the deployer's storage -/

/-- What the entry writes, if it is a committed transaction that writes. -/
def wrote {V : Type} (f : Transaction → Option V) (e : Entry (World X) Label) : Option V :=
  e.label.committed.bind f

/-- The template that a transaction sets. -/
def Transaction.template (tx : Transaction) : Option Address :=
  match tx.call with
  | .updateSmartAccountTemplate smartAccountTemplateAddress => some smartAccountTemplateAddress
  | _ => none

/-- The admin that a transaction appoints. -/
def Transaction.admin (tx : Transaction) : Option Address :=
  match tx.call with
  | .setAdminAddress adminAddress => some adminAddress
  | _ => none

theorem Transaction.admin_eq_some {tx : Transaction} {a : Address} :
    tx.admin = some a ↔ tx.call = .setAdminAddress a := by
  unfold Transaction.admin
  cases tx.call with
  | setAdminAddress b => simp
  | _ => simp

theorem wrote_eq_some {V : Type} {f : Transaction → Option V} {e : Entry (World X) Label} {v : V} :
    wrote f e = some v ↔ ∃ tx, e.label = .call tx ∧ f tx = some v := by
  unfold wrote
  cases e.label with
  | call tx => simp [Label.committed]
  | failed tx error => simp [Label.committed]
  | outside => simp [Label.committed]

/-- A field of the storage that transactions write as `f` says. -/
theorem register_inForce {V : Type} (read : Storage → V) {f : Transaction → Option V}
    (hf : ∀ tx d, read (Transaction.write tx d) = (f tx).getD (read d)) (t : Run C w₀ h w) :
    InForce (wrote f) (read w₀.deployer) h (read w.deployer) := by
  refine inForce_of_run (fun w => read w.deployer) ?_ t
  intro w l w' hs
  cases hs with
  | call _ hc =>
      show read w'.deployer = _
      rw [(effect_of_commits hc).deployer]
      exact hf _ _
  | failed _ _ => rfl
  | outside _ => rfl

theorem template_inForce (t : Run C w₀ h w) :
    InForce (wrote Transaction.template) w₀.deployer.smartAccountTemplateAddress h
      w.deployer.smartAccountTemplateAddress := by
  refine register_inForce Storage.smartAccountTemplateAddress (fun tx d => ?_) t
  unfold Transaction.write Transaction.template
  cases tx.call with
  | updateSmartAccountTemplate a => rfl
  | _ => rfl

theorem admin_inForce (t : Run C w₀ h w) :
    InForce (wrote Transaction.admin) w₀.deployer.adminAddress h w.deployer.adminAddress := by
  refine register_inForce Storage.adminAddress (fun tx d => ?_) t
  unfold Transaction.write Transaction.admin
  cases tx.call with
  | setAdminAddress a => rfl
  | _ => rfl

/-! ## The code at an address -/

/-- Whether the transaction puts code at `a`: the deployment of an account there, or the
upgrade of the account that its caller has there. -/
def World.Installs (w : World X) (a : Address) (tx : Transaction) : Prop :=
  (tx.call = .deploySmartAccount ∧ tx.newAddress = a) ∨
    (tx.call = .upgradeSmartAccount ∧ w.deployer.userSmartAccount tx.caller = some a)

instance (w : World X) (a : Address) (tx : Transaction) : Decidable (w.Installs a tx) :=
  inferInstanceAs (Decidable (_ ∨ _))

/-- The code that the entry puts at `a`. -/
def installed (C : Chain X) (a : Address) (e : Entry (World X) Label) : Option (Option Code) :=
  match e.label with
  | .call tx =>
      if e.pre.Installs a tx then some (e.pre.codeAt C e.pre.deployer.smartAccountTemplateAddress)
      else none
  | .failed _ _ | .outside => none

/-- The code of the account at `a`, if there is one. -/
def World.code (w : World X) (a : Address) : Option Code := (w.accounts a).map Account.code

theorem World.code_leave (w : World X) (a b : Address) (account : Account)
    (s : SmartAccount.State X) :
    (w.leave a account s).code b = if a = b then some account.code else w.code b := by
  unfold World.code
  by_cases hab : a = b
  · subst hab
    rw [w.leave_self, if_pos rfl]
    rfl
  · rw [w.leave_other account s (Ne.symm hab), if_neg hab]

/-- An account that has run its code still has it. -/
theorem World.code_leave_same {a : Address} {account : Account} (ha : w.accounts a = some account)
    (s : SmartAccount.State X) (b : Address) : (w.leave a account s).code b = w.code b := by
  rw [World.code_leave]
  by_cases hab : a = b
  · subst hab
    rw [if_pos rfl, World.code, ha]
    rfl
  · rw [if_neg hab]

theorem World.code_deployed {caller a : Address} (account : Account) (s : SmartAccount.State X)
    (hfresh : w.accounts a = none) (b : Address) :
    (w.deployed caller a account s).code b = if a = b then some account.code else w.code b := by
  by_cases hab : a = b
  · subst hab
    obtain ⟨n, hacc⟩ := w.deployed_account caller a account s
    rw [if_pos rfl, World.code, hacc]
    rfl
  · rw [if_neg hab]
    unfold World.code
    cases hacc : w.accounts b with
    | none => rw [w.deployed_absent caller account s (Ne.symm hab) hacc]
    | some account' =>
        obtain ⟨n, hacc'⟩ := w.deployed_kept caller account s hfresh hacc
        rw [hacc']
        rfl

theorem installed_of {tx : Transaction} {a : Address} (hi : w.Installs a tx) :
    installed C a ⟨w, .call tx, w'⟩ =
      some (w.codeAt C w.deployer.smartAccountTemplateAddress) := if_pos hi

/-- A transaction that puts no code at `a`. -/
theorem installed_of_not {tx : Transaction} {a : Address} (hnot : ¬ w.Installs a tx) :
    installed C a ⟨w, .call tx, w'⟩ = none := if_neg hnot

/-- What a committed transaction does to the code at `a`. -/
theorem Effect.code_at {tx : Transaction} (he : Effect C tx w w') (a : Address) :
    w'.code a = (installed C a ⟨w, .call tx, w'⟩).getD (w.code a) := by
  -- neither a deployment nor an upgrade
  have hquiet : tx.call ≠ .deploySmartAccount → tx.call ≠ .upgradeSmartAccount →
      installed C a ⟨w, .call tx, w'⟩ = none := by
    intro hdeploy hupgrade
    refine installed_of_not fun hi => ?_
    rcases hi with ⟨hcall, _⟩ | ⟨hcall, _⟩
    · exact hdeploy hcall
    · exact hupgrade hcall
  cases he with
  | deploySmartAccount hcall _ _ _ hfresh hcode _ =>
      rw [World.code_deployed _ _ hfresh]
      by_cases ha : tx.newAddress = a
      · rw [if_pos ha, installed_of (Or.inl ⟨hcall, ha⟩), hcode]
        rfl
      · have hnot : ¬ w.Installs a tx := by
          intro hi
          rcases hi with ⟨_, hnew⟩ | ⟨hcall', _⟩
          · exact ha hnew
          · cases hcall.symm.trans hcall'
        rw [if_neg ha, installed_of_not hnot]
        rfl
  | @upgradeSmartAccount b _ _ _ hcall _ hu _ _ hcode _ =>
      rw [World.code_leave]
      by_cases hba : b = a
      · subst hba
        rw [if_pos rfl, installed_of (Or.inr ⟨hcall, hu⟩), hcode]
        rfl
      · have hnot : ¬ w.Installs a tx := by
          intro hi
          rcases hi with ⟨hcall', _⟩ | ⟨_, hu'⟩
          · cases hcall.symm.trans hcall'
          · cases hu.symm.trans hu'
            exact hba rfl
        rw [if_neg hba, installed_of_not hnot]
        rfl
  | initializeSmartAccount hcall _ _ hb _ =>
      rw [hquiet (by simp [hcall]) (by simp [hcall]), World.code_leave_same hb]
      rfl
  | setupSmartAccount hcall hb _ =>
      rw [hquiet (by simp [hcall]) (by simp [hcall]), World.code_leave_same hb]
      rfl
  | quiet hcall =>
      have hother : tx.call ≠ .deploySmartAccount ∧ tx.call ≠ .upgradeSmartAccount := by
        rcases hcall with ⟨hcall, _⟩ | hcall
        · simp [hcall]
        · simp [hcall]
      rw [hquiet hother.1 hother.2]
      rfl
  | _ hcall =>
      rw [hquiet (by simp [hcall]) (by simp [hcall])]
      rfl

/-- Nothing outside changes the code of an account, whatever the account runs. -/
theorem Touched.code {o o' : Option Account} (ht : Touched o o') :
    o'.map Account.code = o.map Account.code := by
  cases o with
  | none =>
      cases o' with
      | none => rfl
      | some account' => exact absurd ht id
  | some account =>
      cases o' with
      | none => exact absurd ht id
      | some account' => exact congrArg some ht.1

theorem code_inForce (t : Run C w₀ h w) (a : Address) :
    InForce (installed C a) (w₀.code a) h (w.code a) := by
  refine inForce_of_run (fun w => w.code a) ?_ t
  intro w l w' hs
  cases hs with
  | call _ hc => exact (effect_of_commits hc).code_at a
  | failed _ _ => rfl
  | outside htouch => exact (htouch a).code

theorem registered_of_run (t : Run C w₀ h w) {u a : Address}
    (hu : w₀.deployer.userSmartAccount u = some a) : w.deployer.userSmartAccount u = some a :=
  t.invariant (I := fun w => w.deployer.userSmartAccount u = some a) hu
    fun _ _ _ hu hs => hs.write_once hu

/-- Whoever has code put at `a` is registered for `a` from then on. -/
theorem Effect.registers {tx : Transaction} (he : Effect C tx w w') {a : Address}
    (hi : w.Installs a tx) : w'.deployer.userSmartAccount tx.caller = some a := by
  rcases hi with ⟨hcall, rfl⟩ | ⟨_, hu⟩
  · rw [he.deployer, Transaction.write, hcall]
    exact Function.update_self ..
  · exact he.shape.write_once hu

/-- Of a user who has an account, a committed deployment or upgrade puts code there: the
deployment would have found its caller registered. -/
theorem Effect.installs {tx : Transaction} (he : Effect C tx w w') {a : Address}
    (hu : w.deployer.userSmartAccount tx.caller = some a)
    (hcall : tx.call = .deploySmartAccount ∨ tx.call = .upgradeSmartAccount) :
    w.Installs a tx := by
  rcases hcall with hcall | hcall
  · exfalso
    cases he with
    | deploySmartAccount _ _ hfree => cases hfree.symm.trans hu
    | quiet hother =>
        rcases hother with ⟨hother, _⟩ | hother
        · cases hcall.symm.trans hother
        · cases hcall.symm.trans hother
    | _ hother => cases hcall.symm.trans hother
  · exact Or.inr ⟨hcall, hu⟩

/-- The template that is in force holds the code that an entry puts somewhere. -/
theorem installed_eq_some {a : Address} {e : Entry (World X) Label} {c : Option Code} :
    installed C a e = some c ↔ ∃ tx, e.label = .call tx ∧ e.pre.Installs a tx ∧
      e.pre.codeAt C e.pre.deployer.smartAccountTemplateAddress = c := by
  unfold installed
  cases e.label with
  | call tx => simp
  | failed tx error => simp
  | outside => simp

/-- **Whose code an account runs.**  In every run, whatever the templates are, the code of
an account is the one that its user got with his own last committed `deploySmartAccount` or
`upgradeSmartAccount`: the code that the template in force at that moment then held, which
is the one of the last committed `updateSmartAccountTemplate` before it, or of `init`.  No
other transaction, no other user and nothing outside changes it.  Third parties and the code
of other templates are taken not to call back into the deployer (`Deployer.Types`). -/
theorem code_provenance (hinit : Initial C w₀) (t : Run C w₀ h w) :
    ∀ a account, w.accounts a = some account → ∃ u h₁ e h₂ tx template,
      w.deployer.userSmartAccount u = some a ∧ h = h₁ ++ e :: h₂ ∧ e.label = .call tx ∧
      tx.caller = u ∧ (tx.call = .deploySmartAccount ∨ tx.call = .upgradeSmartAccount) ∧
      InForce (wrote Transaction.template) w₀.deployer.smartAccountTemplateAddress h₁ template ∧
      e.pre.codeAt C template = some account.code ∧
      ∀ e' ∈ h₂, ∀ tx', e'.label = .call tx' → tx'.caller = u →
        tx'.call ≠ .deploySmartAccount ∧ tx'.call ≠ .upgradeSmartAccount := by
  intro a account ha
  have hcode : w.code a = some account.code := congrArg (Option.map Account.code) ha
  have hforce := code_inForce t a
  rw [hcode] at hforce
  cases hforce with
  | first _ hfirst =>
      -- there is no account at the start
      rw [World.code, hinit.blank.1] at hfirst
      cases hfirst
  | @written h₁ h₂ e hh hw hnone =>
      obtain ⟨t₁, hs⟩ := t.prefix_of_append hh
      have t₂ := t.suffix_of_append hh
      obtain ⟨tx, hl, hi, htemplate⟩ := installed_eq_some.mp hw
      rw [hl] at hs
      cases hs with
      | call _ hc =>
          have hu := (effect_of_commits hc).registers hi
          refine ⟨tx.caller, h₁, e, h₂, tx, _, registered_of_run t₂ hu, hh, hl, rfl,
            hi.imp And.left And.left, template_inForce t₁, htemplate, ?_⟩
          intro e' he' tx' hl' hcaller
          obtain ⟨k₁, k₂, hk, tk, hs', _⟩ := t₂.split_of_mem e' he'
          have hu' := registered_of_run tk hu
          rw [← hcaller] at hu'
          rw [hl'] at hs'
          refine not_or.mp fun hcall => ?_
          cases hs' with
          | call _ hc' =>
              have hi' := (effect_of_commits hc').installs hu' hcall
              have hsome : installed C a e' = some _ :=
                installed_eq_some.mpr ⟨tx', hl', hi', rfl⟩
              cases (hnone e' he').symm.trans hsome

/-- A user deploys, somebody sets another template, and the account keeps its code. -/
theorem code_provenance_sample : ∃ h w account, Run sampleChain sampleWorld h w ∧
    w.accounts 0xACC = some account ∧ w.deployer.smartAccountTemplateAddress = 0x66 ∧
    ∃ h₁ e h₂ template, h = h₁ ++ e :: h₂ ∧
      InForce (wrote Transaction.template) 0x7E h₁ template ∧
      e.pre.codeAt sampleChain template = some account.code := by
  have hc : check (send sampleChain (fun _ => true)
      [sampleDeploy, sampleCall sampleUser 1 (.updateSmartAccountTemplate 0x66)]) sampleWorld
      (fun w => (w.accounts 0xACC).isSome &&
        decide (w.deployer.smartAccountTemplateAddress = 0x66)) = true := by decide +kernel
  obtain ⟨h, w, t, _, _, hq⟩ := run_of_check hc
  obtain ⟨hacc, htemplate⟩ := (Bool.and_eq_true _ _).mp hq
  obtain ⟨account, ha⟩ := Option.isSome_iff_exists.mp hacc
  obtain ⟨_, h₁, e, h₂, _, template, _, hh, _, _, _, hforce, hcode, _⟩ :=
    code_provenance sampleWorld_initial t _ account ha
  exact ⟨h, w, account, t, ha, of_decide_eq_true htemplate, h₁, e, h₂, template, hh, hforce, hcode⟩

/-! ## The owner and the admins -/

theorem Effect.owner {tx : Transaction} (he : Effect C tx w w') : w'.owner = w.owner := by
  cases he.shape with
  | storage _ => rfl
  | deployed _ _ _ _ => exact (w.deployed_frame _ _ _ _).2.1
  | ran _ _ => rfl

/-- The owner of the deployer stays its owner. -/
theorem owner_of_run (t : Run C w₀ h w) : w.owner = w₀.owner := by
  refine t.invariant (I := fun w => w.owner = w₀.owner) rfl fun w l w' howner hs => ?_
  cases hs with
  | call _ hc => exact (effect_of_commits hc).owner.trans howner
  | failed _ _ => exact howner
  | outside _ => exact howner

/-- No endpoint writes the open fee or the address of the wrapper. -/
theorem constants_of_run (t : Run C w₀ h w) :
    w.deployer.smartAccountOpenFee = w₀.deployer.smartAccountOpenFee ∧
      w.deployer.egldWrapperAddress = w₀.deployer.egldWrapperAddress := by
  refine t.invariant (I := fun w => w.deployer.smartAccountOpenFee =
    w₀.deployer.smartAccountOpenFee ∧ w.deployer.egldWrapperAddress =
      w₀.deployer.egldWrapperAddress) ⟨rfl, rfl⟩ fun w l w' hsame hs => ?_
  cases hs with
  | call _ hc =>
      obtain ⟨hfee, hwrapper⟩ := (effect_of_commits hc).constants
      exact ⟨hfee.trans hsame.1, hwrapper.trans hsame.2⟩
  | failed _ _ => exact hsame
  | outside _ => exact hsame

/-- The transactions of the owner alone: what they ask of their caller. -/
theorem Effect.by_owner {tx : Transaction} (he : Effect C tx w w') :
    (∀ a, tx.call = .setAdminAddress a → tx.caller = w.owner ∧ a ≠ 0) ∧
      ∀ pairs, tx.call = .setFarmStakingAddressForToken pairs →
        tx.caller = w.owner ∧ ∀ p ∈ pairs, C.isSmartContract p.2 = true := by
  cases he with
  | setAdminAddress hcall _ howner hne =>
      refine ⟨fun a ha => ?_, fun pairs hp => ?_⟩
      · cases hcall.symm.trans ha
        exact ⟨howner, hne⟩
      · cases hcall.symm.trans hp
  | setFarmStakingAddressForToken hcall _ howner hall =>
      refine ⟨fun a ha => ?_, fun pairs hp => ?_⟩
      · cases hcall.symm.trans ha
      · cases hcall.symm.trans hp
        exact ⟨howner, hall⟩
  | quiet hcall =>
      rcases hcall with ⟨hcall, _⟩ | hcall
      · exact ⟨fun a ha => (by cases hcall.symm.trans ha), fun p hp => (by cases hcall.symm.trans hp)⟩
      · exact ⟨fun a ha => (by cases hcall.symm.trans ha), fun p hp => (by cases hcall.symm.trans hp)⟩
  | _ hcall =>
      exact ⟨fun a ha => (by cases hcall.symm.trans ha), fun p hp => (by cases hcall.symm.trans hp)⟩

/-- `a` is the admin that the owner of `w₀` appointed last, or still the one of `init`. -/
inductive Appointed (w₀ : World X) (h : List (Entry (World X) Label)) (a : Address) : Prop
  | init : (∀ tx ∈ committed h, ∀ b, tx.call ≠ .setAdminAddress b) →
      a = w₀.deployer.adminAddress → Appointed w₀ h a
  | owner {h₁ h₂ : List (Entry (World X) Label)} {e : Entry (World X) Label} {tx : Transaction} :
      h = h₁ ++ e :: h₂ → e.label = .call tx → tx.caller = w₀.owner →
      tx.call = .setAdminAddress a → (∀ tx' ∈ committed h₂, ∀ b, tx'.call ≠ .setAdminAddress b) →
      Appointed w₀ h a

/-- The admin is who the owner says it is. -/
theorem appointed_of_run (t : Run C w₀ h w) : Appointed w₀ h w.deployer.adminAddress := by
  -- an entry that writes no admin is no appointment
  have hquiet : ∀ h' : List (Entry (World X) Label), (∀ e ∈ h', wrote Transaction.admin e = none) →
      ∀ tx ∈ committed h', ∀ b, tx.call ≠ .setAdminAddress b := by
    intro h' hnone tx htx b hcall
    obtain ⟨e, he, hl⟩ := mem_committed.mp htx
    have hsome : wrote Transaction.admin e = some b :=
      wrote_eq_some.mpr ⟨tx, hl, Transaction.admin_eq_some.mpr hcall⟩
    rw [hnone e he] at hsome
    cases hsome
  cases admin_inForce t with
  | first hnone ha => exact .init (hquiet h hnone) ha
  | @written h₁ h₂ e hh hw hnone =>
      obtain ⟨tx, hl, hadmin⟩ := wrote_eq_some.mp hw
      have hcall := Transaction.admin_eq_some.mp hadmin
      obtain ⟨t₁, hs⟩ := t.prefix_of_append hh
      rw [hl] at hs
      cases hs with
      | call _ hc =>
          have howner := ((effect_of_commits hc).by_owner.1 _ hcall).1
          exact .owner hh hl (howner.trans (owner_of_run t₁)) hcall (hquiet h₂ hnone)

/-- A list in the table was published by the admin that the owner had appointed. -/
theorem publisher_of_stored (hinit : Initial C w₀) (t : Run C w₀ h w) {k : UInt64 × UInt64}
    (hk : w.deployer.strategies k ≠ []) : ∃ h₁ e h₂ tx tuples, h = h₁ ++ e :: h₂ ∧
      e.label = .call tx ∧ tx.call = .setStrategiesPerEpoch k.2 tuples ∧ tx.epoch = k.1 ∧
      w.deployer.strategies k = stepsOf tuples ∧ Appointed w₀ h₁ tx.caller := by
  obtain ⟨p, hp, rfl⟩ := List.mem_map.mp ((stored_iff hinit t k).mp hk)
  have hforce := published_in_force hinit t hp
  obtain ⟨tx, htx, r, tuples, hcall, rfl⟩ := mem_publications.mp hp
  obtain ⟨h₁, h₂, w₁, w₂, hh, t₁, _, heff, _⟩ := split_committed t htx
  refine ⟨h₁, _, h₂, tx, tuples, hh, rfl, hcall, rfl, hforce, ?_⟩
  rw [(heff.accepted hcall).admin]
  exact appointed_of_run t₁

/-- An address in the staking table was put there by the owner. -/
theorem owner_of_staking (hinit : Initial C w₀) (t : Run C w₀ h w) {token : TokenIdentifier}
    {a : Address} (ha : w.deployer.farmStakingAddressForToken token = some a) :
    C.isSmartContract a = true ∧ ∃ tx ∈ committed h, ∃ pairs, tx.caller = w₀.owner ∧
      tx.call = .setFarmStakingAddressForToken pairs ∧ (token, a) ∈ pairs := by
  rw [(tables hinit t).2.2] at ha
  -- the cell holds one of the pairs that were written to it
  have hwritten : token ∈ ((stakings (committed h)).map fun p => (p.1, some p.2)).map Prod.fst := by
    by_contra hnot
    rw [setPairs, Cells.replay_of_notMem hnot] at ha
    cases ha
  have hmem := Cells.replay_mem (f := fun _ => none) hwritten
  rw [setPairs] at ha
  rw [ha] at hmem
  obtain ⟨⟨token', a'⟩, hpair, heq⟩ := List.mem_map.mp hmem
  cases heq
  obtain ⟨tx, htx, hin⟩ := List.mem_flatMap.mp hpair
  obtain ⟨h₁, h₂, w₁, w₂, _, t₁, _, heff, _⟩ := split_committed t htx
  unfold Transaction.stakings at hin
  cases hcall : tx.call with
  | setFarmStakingAddressForToken pairs =>
      rw [hcall] at hin
      obtain ⟨howner, hall⟩ := heff.by_owner.2 pairs hcall
      exact ⟨hall _ hin, tx, htx, pairs, howner.trans (owner_of_run t₁), hcall, hin⟩
  | _ =>
      rw [hcall] at hin
      exact absurd hin List.not_mem_nil

/-- **The configuration leads back to the owner.**  In every run the owner, the open fee and
the wrapper's address never change; the admin is the one that the owner appointed last, or
still the one of `init`; every list in the strategies table is that of a committed
publication by the admin who was so appointed at the time; and every address in the staking
table is a contract that the owner put there.  That the owner stays is so because no endpoint
changes him and the steps of a run hold no `ChangeOwnerAddress` (`Deployer.Runs`). -/
theorem authority (hinit : Initial C w₀) (t : Run C w₀ h w) :
    (w.owner = w₀.owner ∧ w.deployer.smartAccountOpenFee = w₀.deployer.smartAccountOpenFee ∧
      w.deployer.egldWrapperAddress = w₀.deployer.egldWrapperAddress) ∧
    Appointed w₀ h w.deployer.adminAddress ∧
    (∀ k, w.deployer.strategies k ≠ [] → ∃ h₁ e h₂ tx tuples, h = h₁ ++ e :: h₂ ∧
      e.label = .call tx ∧ tx.call = .setStrategiesPerEpoch k.2 tuples ∧ tx.epoch = k.1 ∧
      w.deployer.strategies k = stepsOf tuples ∧ Appointed w₀ h₁ tx.caller) ∧
    ∀ token a, w.deployer.farmStakingAddressForToken token = some a →
      C.isSmartContract a = true ∧ ∃ tx ∈ committed h, ∃ pairs, tx.caller = w₀.owner ∧
        tx.call = .setFarmStakingAddressForToken pairs ∧ (token, a) ∈ pairs := by
  refine ⟨⟨owner_of_run t, constants_of_run t⟩, appointed_of_run t, ?_, ?_⟩
  · intro k hk
    exact publisher_of_stored hinit t hk
  · intro token a ha
    exact owner_of_staking hinit t ha

/-- The owner appoints another admin, who publishes a list. -/
theorem authority_sample : ∃ h w, Run sampleChain sampleWorld h w ∧
    w.deployer.strategies (1, 1) ≠ [] ∧ ∃ h₁ e h₂ tx, h = h₁ ++ e :: h₂ ∧ e.label = .call tx ∧
      tx.caller = sampleUser ∧ Appointed sampleWorld h₁ tx.caller := by
  have hc : check (send sampleChain (fun _ => true)
      [sampleCall sampleOwner 1 (.setAdminAddress sampleUser),
        sampleCall sampleUser 1 (.setStrategiesPerEpoch 1 [sampleTuple 10000])]) sampleWorld
      (fun w => decide (w.deployer.strategies (1, 1) ≠ [])) = true := by decide +kernel
  obtain ⟨h, w, t, hlabels, _, hq⟩ := run_of_check hc
  have hne := of_decide_eq_true hq
  obtain ⟨_, _, hpublished, _⟩ := authority sampleWorld_initial t
  obtain ⟨h₁, e, h₂, tx, tuples, hh, hl, hcall, _, _, happointed⟩ := hpublished _ hne
  refine ⟨h, w, t, hne, h₁, e, h₂, tx, hh, hl, ?_, happointed⟩
  -- of the two calls only one is a publication
  have hmem : e.label ∈ h.map Entry.label := List.mem_map_of_mem (by rw [hh]; simp)
  rw [hlabels, hl] at hmem
  simp only [List.map_cons, List.map_nil, List.mem_cons, List.not_mem_nil, or_false] at hmem
  rcases hmem with hmem | hmem
  · cases hmem
    cases hcall
  · cases hmem
    rfl

end Deployer

end PortfolioPilot
