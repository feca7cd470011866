/-
# `Deployer.Configuration` — who can change the shared configuration

The configuration is the deployer's storage without the registry of users.  Its
setters are guarded by `only_owner` or by the admin check of
`setStrategiesPerEpoch`, with one exception: `updateSmartAccountTemplate` has no
guard.  So a transaction of anyone else keeps the configuration exactly when it
is not a call of that endpoint with another template (`configuration_integrity`),
and in a run in which nobody else calls it every account gets a template that
the owner or an admin chose last.

As everywhere here, third parties and code that is not the account's do not call back
into the deployer while they answer a call (`Deployer.Types`).
-/
import PortfolioPilot.Deployer.Runs

namespace PortfolioPilot

namespace Deployer

open Revert

variable {X : Type} {C : Chain X} {w₀ w w' : World X} {h : List (Entry (World X) Label)}

/-- The storage without the registry. -/
def Storage.config (d : Storage) : Storage := { d with userSmartAccount := fun _ => none }

/-- The owner of the contract or the admin in force. -/
def World.Privileged (w : World X) (caller : Address) : Prop :=
  caller = w.owner ∨ caller = w.deployer.adminAddress

instance (w : World X) (caller : Address) : Decidable (w.Privileged caller) :=
  inferInstanceAs (Decidable (_ ∨ _))

/-- A transaction of anyone else can only change the template, by calling
`updateSmartAccountTemplate`. -/
theorem Effect.config {tx : Transaction} (h : Effect C tx w w')
    (hpriv : ¬ w.Privileged tx.caller) :
    w'.deployer.config = w.deployer.config ↔
      ∀ t, tx.call = .updateSmartAccountTemplate t →
        t = w.deployer.smartAccountTemplateAddress := by
  have hsame : (∀ t, tx.call ≠ .updateSmartAccountTemplate t) →
      w'.deployer.config = w.deployer.config → (w'.deployer.config = w.deployer.config ↔
        ∀ t, tx.call = .updateSmartAccountTemplate t →
          t = w.deployer.smartAccountTemplateAddress) := by
    intro hne heq
    exact ⟨fun _ t ht => absurd ht (hne t), fun _ => heq⟩
  cases h with
  | @updateSmartAccountTemplate t hcall _ _ =>
      constructor
      · intro heq t' ht'
        cases hcall.symm.trans ht'
        exact congrArg Storage.smartAccountTemplateAddress heq
      · intro hall
        rw [hall t hcall]
        rfl
  | @deploySmartAccount code s hcall =>
      refine hsame (fun t => by simp [hcall]) ?_
      rw [(World.deployed_frame _ _ _ _ _).2.2]
      rfl
  | upgradeSmartAccount hcall => exact hsame (fun t => by simp [hcall]) rfl
  | initializeSmartAccount hcall => exact hsame (fun t => by simp [hcall]) rfl
  | setupSmartAccount hcall => exact hsame (fun t => by simp [hcall]) rfl
  | quiet hcall =>
      refine hsame (fun t => ?_) rfl
      rcases hcall with ⟨hcall, _⟩ | hcall
      · simp [hcall]
      · simp [hcall]
  | setFarmStakingAddressForToken _ _ hcaller => exact absurd (Or.inl hcaller) hpriv
  | setAdminAddress _ _ hcaller => exact absurd (Or.inl hcaller) hpriv
  | setStrategiesPerEpoch _ _ hacc => exact absurd (Or.inr hacc.admin) hpriv

/-! ## The template over a run -/

/-- The template after the transaction, as far as the owner and the admin choose it. -/
def World.choose (w : World X) (tx : Transaction) (t : Address) : Address :=
  match tx.call with
  | .updateSmartAccountTemplate t' => if w.Privileged tx.caller then t' else t
  | _ => t

def choose (t : Address) (e : Entry (World X) Label) : Address :=
  match e.label with
  | .call tx => e.pre.choose tx t
  | .failed _ _ | .outside => t

/-- The template last chosen by the owner or an admin, `t₀` at first. -/
def chosenTemplate (t₀ : Address) (h : List (Entry (World X) Label)) : Address :=
  h.foldl choose t₀

/-- Only the owner or an admin changes the template in this entry. -/
def TemplateGuarded (e : Entry (World X) Label) : Prop :=
  ∀ tx t, e.label = .call tx → tx.call = .updateSmartAccountTemplate t → e.pre.Privileged tx.caller

/-- What a transaction does to the template. -/
theorem Effect.template {tx : Transaction} (h : Effect C tx w w')
    (hg : TemplateGuarded ⟨w, .call tx, w'⟩) :
    w'.deployer.smartAccountTemplateAddress =
      w.choose tx w.deployer.smartAccountTemplateAddress := by
  rw [h.deployer]
  unfold World.choose Transaction.write
  cases hcall : tx.call with
  | updateSmartAccountTemplate t =>
      show t = if w.Privileged tx.caller then t else _
      rw [if_pos (hg tx t rfl hcall)]
  | _ => rfl

theorem template_chosen (t : Run C w₀ h w) (hg : ∀ e ∈ h, TemplateGuarded e) :
    w.deployer.smartAccountTemplateAddress =
      chosenTemplate w₀.deployer.smartAccountTemplateAddress h := by
  refine t.induct (P := TemplateGuarded) (I := fun h w => w.deployer.smartAccountTemplateAddress =
    chosenTemplate w₀.deployer.smartAccountTemplateAddress h) rfl ?_ hg
  intro h w l w' _ ih hg hs
  unfold chosenTemplate at ih ⊢
  rw [List.foldl_append, ← ih]
  cases hs with
  | call _ hc => exact (effect_of_commits hc).template hg
  | failed _ _ => rfl
  | outside _ => rfl

/-- The account that a deployment or an upgrade leaves has the code of the template. -/
theorem Effect.code {tx : Transaction} (h : Effect C tx w w')
    (hcall : tx.call = .deploySmartAccount ∨ tx.call = .upgradeSmartAccount) :
    ∃ a account, w'.deployer.userSmartAccount tx.caller = some a ∧
      w'.accounts a = some account ∧
      w.codeAt C w.deployer.smartAccountTemplateAddress = some account.code := by
  rcases hcall with hcall | hcall
  · cases h with
    | @deploySmartAccount code s _ _ _ _ _ hcode _ =>
        obtain ⟨n, hacc⟩ := w.deployed_account tx.caller tx.newAddress (w.newAccount code) s
        exact ⟨_, _, w.deployed_registered _ _ _ _, hacc, hcode⟩
    | quiet hc => rcases hc with ⟨hc, _⟩ | hc <;> cases hcall.symm.trans hc
    | _ hc => cases hcall.symm.trans hc
  · cases h with
    | @upgradeSmartAccount a account code s _ _ hu _ _ hcode _ =>
        exact ⟨a, _, hu, Function.update_self .., hcode⟩
    | quiet hc => rcases hc with ⟨hc, _⟩ | hc <;> cases hcall.symm.trans hc
    | _ hc => cases hcall.symm.trans hc

/-- **Which calls leave the configuration alone, and whose templates accounts
get.**  A committed call of neither the owner nor the admin keeps the
configuration exactly when it does not set another template.  In a run in which
nobody else sets the template, every deployment and every upgrade gives the
account the code of the template that the owner or an admin chose last.  Third parties and
the code of other templates are taken not to call back into the deployer (`Deployer.Types`). -/
theorem configuration_integrity (t : Run C w₀ h w) :
    (∀ e ∈ h, ∀ tx, e.label = .call tx → ¬ e.pre.Privileged tx.caller →
      (e.post.deployer.config = e.pre.deployer.config ↔
        ∀ t, tx.call = .updateSmartAccountTemplate t →
          t = e.pre.deployer.smartAccountTemplateAddress)) ∧
    ((∀ e ∈ h, TemplateGuarded e) → ∀ h₁ e h₂, h = h₁ ++ e :: h₂ → ∀ tx, e.label = .call tx →
      (tx.call = .deploySmartAccount ∨ tx.call = .upgradeSmartAccount) →
      ∃ a account, e.post.deployer.userSmartAccount tx.caller = some a ∧
        e.post.accounts a = some account ∧
        e.pre.codeAt C (chosenTemplate w₀.deployer.smartAccountTemplateAddress h₁) =
          some account.code) := by
  constructor
  · intro e he tx hl hpriv
    obtain ⟨_, _, _, _, hs, _⟩ := t.split_of_mem e he
    rw [hl] at hs
    cases hs with
    | call _ hc => exact (effect_of_commits hc).config hpriv
  · intro hg h₁ e h₂ hh tx hl hcall
    obtain ⟨t₁, hs⟩ := t.prefix_of_append hh
    have hchosen := template_chosen t₁ fun e' he' => hg e' (by rw [hh]; simp [he'])
    rw [hl] at hs
    cases hs with
    | call _ hc =>
        rw [← hchosen]
        exact (effect_of_commits hc).code hcall

/-! ## A template of a stranger, and one of the admin -/

def sampleStranger : Address := 0x1666

/-- The world with `0x66` as the template. -/
def otherTemplate : World Unit :=
  sampleWorld.store fun d => { d with smartAccountTemplateAddress := 0x66 }

/-- Somebody sets the template `0x66`, and the next user gets its code. -/
theorem otherTemplate_run (caller : Address) (hown : sampleWorld.isOwn caller = false) :
    ∃ w, Run sampleChain sampleWorld
      [⟨sampleWorld, .call (sampleCall caller 1 (.updateSmartAccountTemplate 0x66)), otherTemplate⟩,
        ⟨otherTemplate, .call sampleDeploy, w⟩] w ∧
      (w.accounts 0xACC).map Account.code = some (.other 0) := by
  have hs₁ : Step sampleChain sampleWorld
      (.call (sampleCall caller 1 (.updateSmartAccountTemplate 0x66))) otherTemplate :=
    step_of_effect hown (.updateSmartAccountTemplate rfl rfl rfl)
  have hs₂ : Step sampleChain otherTemplate (.call sampleDeploy) (otherTemplate.deployed sampleUser
      0xACC (otherTemplate.newAccount (.other 0))
      (otherTemplate.enter 0xACC (otherTemplate.newAccount (.other 0)))) := by
    refine step_of_effect rfl (.deploySmartAccount rfl rfl rfl (by decide) rfl rfl ?_)
    exact commits_pure.mpr ⟨rfl, rfl⟩
  refine ⟨_, (Trace.single hs₁).snoc hs₂, ?_⟩
  obtain ⟨n, hacc⟩ := otherTemplate.deployed_account sampleUser 0xACC
    (otherTemplate.newAccount (.other 0))
    (otherTemplate.enter 0xACC (otherTemplate.newAccount (.other 0)))
  rw [hacc]
  rfl

/-- A stranger sets the template `0x66`, and the next user gets its code. -/
theorem template_hijacked : Initial sampleChain sampleWorld ∧
    ∃ w₁ w₂, Run sampleChain sampleWorld
      [⟨sampleWorld, .call (sampleCall sampleStranger 1 (.updateSmartAccountTemplate 0x66)), w₁⟩,
        ⟨w₁, .call sampleDeploy, w₂⟩] w₂ ∧
      ¬ sampleWorld.Privileged sampleStranger ∧
      w₁.deployer.config ≠ sampleWorld.deployer.config ∧
      (w₂.accounts 0xACC).map Account.code = some (.other 0) := by
  obtain ⟨w, t, hcode⟩ := otherTemplate_run sampleStranger rfl
  refine ⟨sampleWorld_initial, otherTemplate, w, t, by decide, ?_, hcode⟩
  intro heq
  have ht := congrArg Storage.smartAccountTemplateAddress heq
  exact absurd ht (by decide)

/-- The admin sets the template `0x66`: the configuration is then as he left it, and the next
user has its code. -/
theorem configuration_integrity_sample : ∃ h e w, Run sampleChain sampleWorld (h ++ [e]) w ∧
    e.label = .call sampleDeploy ∧ e.post.deployer.config = e.pre.deployer.config ∧
    chosenTemplate 0x7E h = 0x66 ∧
    ∃ a account, e.post.deployer.userSmartAccount sampleUser = some a ∧
      e.post.accounts a = some account ∧ some (.other 0) = some account.code := by
  obtain ⟨w, t, _⟩ := otherTemplate_run sampleAdmin rfl
  obtain ⟨hconfig, htemplate⟩ := configuration_integrity t
  refine ⟨[_], _, w, t, rfl, ?_, rfl, ?_⟩
  · have hpriv : ¬ otherTemplate.Privileged sampleUser := by decide
    refine (hconfig _ (List.mem_cons_of_mem _ List.mem_cons_self) sampleDeploy rfl hpriv).mpr ?_
    intro t ht
    cases ht
  · refine htemplate ?_ [_] _ [] rfl sampleDeploy rfl (Or.inl rfl)
    intro e he tx t hl hcall
    rcases List.mem_cons.mp he with he | he
    · cases he
      cases hl
      exact Or.inr rfl
    · cases List.mem_singleton.mp he
      cases hl
      cases hcall

end Deployer

end PortfolioPilot
