/-
# `Deployer.Provenance` — where a stored strategy comes from, and what it describes

The strategy an account stores is the list its latest `initializeSmartAccount`
was served, and that list is what an admin published (`strategy_provenance`).
The positions the account has opened are those of all its initialisations, so
the stored strategy describes them only while there has been one at most
(`positions_iff`).

Both follow from what one step does to one account (`AccountChange`).
-/
import PortfolioPilot.Deployer.Accounts
import PortfolioPilot.Deployer.Strategies

namespace PortfolioPilot

namespace Deployer

open Revert
open SmartAccount (Delivers Strategy maxRiskTolerance)

variable {X : Type} {C : Chain X} {w₀ w w' : World X} {h : List (Entry (World X) Label)}

/-! ## The log of one account -/

/-- The event, if it is one of the account at `a`. -/
def Event.of (a : Address) : Event → Option SmartAccount.Event
  | .account b e => if b = a then some e else none
  | .directEgld _ _ => none

/-- The positions opened for the account at `a` so far. -/
def World.positionsOf (w : World X) (a : Address) : List EsdtTokenPayment :=
  SmartAccount.positions (w.log.filterMap (Event.of a))

theorem filterMap_of_account (a b : Address) (log : List SmartAccount.Event) :
    (log.map (Event.account b)).filterMap (Event.of a) = if b = a then log else [] := by
  rw [List.filterMap_map]
  by_cases hb : b = a
  · rw [if_pos hb]
    have hsome : Event.of a ∘ Event.account b = some := by
      funext e
      exact if_pos hb
    rw [hsome, List.filterMap_some]
  · rw [if_neg hb]
    have hnone : Event.of a ∘ Event.account b = fun _ => none := by
      funext e
      exact if_neg hb
    rw [hnone, List.filterMap_none]

/-- The log longer by `events`. -/
theorem World.positionsOf_of_log {events : List Event} (hlog : w'.log = w.log ++ events)
    (a : Address) : w'.positionsOf a =
      w.positionsOf a ++ SmartAccount.positions (events.filterMap (Event.of a)) := by
  unfold World.positionsOf
  rw [hlog, List.filterMap_append, SmartAccount.positions_append]

theorem World.positionsOf_leave (a b : Address) (account : Account) (s : SmartAccount.State X) :
    (w.leave b account s).positionsOf a =
      w.positionsOf a ++ SmartAccount.positions (if b = a then s.log else []) := by
  have hlog : (w.leave b account s).log = w.log ++ s.log.map (Event.account b) := rfl
  rw [World.positionsOf_of_log hlog, filterMap_of_account]

theorem World.positionsOf_deployed (a b caller : Address) (account : Account)
    (s : SmartAccount.State X) : (w.deployed caller b account s).positionsOf a =
      w.positionsOf a ++ SmartAccount.positions (if b = a then s.log else []) := by
  have hlog := w.deployed_log caller b account s
  rw [List.append_assoc] at hlog
  rw [World.positionsOf_of_log hlog, List.filterMap_append, filterMap_of_account]
  show w.positionsOf a ++ SmartAccount.positions (_ ++ []) = _
  rw [List.append_nil]

/-- Whether the entry is a committed initialisation of the account at `a`. -/
def initializes (a : Address) (e : Entry (World X) Label) : Bool :=
  match e.label with
  | .call tx =>
      match tx.call with
      | .initializeSmartAccount _ => decide (e.pre.deployer.userSmartAccount tx.caller = some a)
      | _ => false
  | .failed _ _ | .outside => false

theorem initializes_iff {a : Address} {e : Entry (World X) Label} :
    initializes a e = true ↔ ∃ tx r, e.label = .call tx ∧ tx.call = .initializeSmartAccount r ∧
      e.pre.deployer.userSmartAccount tx.caller = some a := by
  unfold initializes
  cases hl : e.label with
  | call tx =>
      cases hcall : tx.call with
      | initializeSmartAccount r => simp [hcall]
      | _ => simp [hcall]
  | failed tx err => simp
  | outside => simp

/-! ## What a step does to one account -/

/-- What a step from `w` to `w'` does to the account at `a`. -/
inductive AccountChange (C : Chain X) (w : World X) (l : Label) (w' : World X) (a : Address) : Prop
  | absent : w.accounts a = none → w'.accounts a = none → initializes a ⟨w, l, w'⟩ = false →
      w'.positionsOf a = w.positionsOf a → AccountChange C w l w' a
  | born {account' : Account} : w.accounts a = none → w'.accounts a = some account' →
      account'.storage.userStrategy = [] → initializes a ⟨w, l, w'⟩ = false →
      w'.positionsOf a = w.positionsOf a → AccountChange C w l w' a
  | kept {account account' : Account} : w.accounts a = some account →
      w'.accounts a = some account' → account'.storage = account.storage →
      initializes a ⟨w, l, w'⟩ = false → w'.positionsOf a = w.positionsOf a →
      AccountChange C w l w' a
  | initialized {tx : Transaction} {r : UInt64} {account account' : Account}
      {s : SmartAccount.State X} :
      l = .call tx → tx.call = .initializeSmartAccount r →
      w.deployer.userSmartAccount tx.caller = some a → w.served r ≠ [] →
      w.accounts a = some account → w'.accounts a = some account' →
      Commits (SmartAccount.setupSmartAccount (w.peers C) w.self tx.value r (w.served r))
        (w.enter a account) () s →
      account'.storage = s.storage →
      w'.positionsOf a = w.positionsOf a ++ SmartAccount.positions s.log →
      AccountChange C w l w' a

theorem not_initializes {a : Address} {tx : Transaction}
    (hne : ∀ r, tx.call ≠ .initializeSmartAccount r) :
    initializes a ⟨w, .call tx, w'⟩ = false := by
  rw [Bool.eq_false_iff]
  intro hi
  obtain ⟨_, r, hl, hcall, _⟩ := initializes_iff.mp hi
  cases hl
  exact hne r hcall

/-- A step with the same log and storage for every account changes none. -/
theorem AccountChange.of_same {l : Label} {a : Address}
    (hacc : ∀ account, w.accounts a = some account → ∃ account', w'.accounts a = some account' ∧
      account'.storage = account.storage)
    (hnone : w.accounts a = none → w'.accounts a = none)
    (hi : initializes a ⟨w, l, w'⟩ = false) (hpos : w'.positionsOf a = w.positionsOf a) :
    AccountChange C w l w' a := by
  cases ha : w.accounts a with
  | none => exact .absent ha (hnone ha) hi hpos
  | some account =>
      obtain ⟨account', ha', hs⟩ := hacc account ha
      exact .kept ha ha' hs hi hpos

theorem AccountChange.of_store {tx : Transaction} {f : Storage → Storage} {a : Address}
    (hne : ∀ r, tx.call ≠ .initializeSmartAccount r) :
    AccountChange C w (.call tx) (w.store f) a :=
  .of_same (fun account ha => ⟨account, ha, rfl⟩) (fun ha => ha) (not_initializes hne) rfl

/-- Another account ran. -/
theorem AccountChange.of_other {l : Label} {a b : Address} {account : Account}
    {s : SmartAccount.State X} (hba : a ≠ b)
    (hi : initializes a ⟨w, l, w.leave b account s⟩ = false) :
    AccountChange C w l (w.leave b account s) a := by
  refine .of_same (fun account' ha => ?_) (fun ha => ?_) hi ?_
  · exact ⟨account', (w.leave_other account s hba).trans ha, rfl⟩
  · exact (w.leave_other account s hba).trans ha
  · rw [World.positionsOf_leave, if_neg hba.symm]
    exact List.append_nil _

/-- A committed transaction, for an account that runs the account code before and after. -/
theorem Effect.change {tx : Transaction} (he : Effect C tx w w') (hw : Wired w)
    (hown : w.isOwn tx.caller = false) {a : Address} (hpre : w.Genuine a) (hpost : w'.Genuine a) :
    AccountChange C w (.call tx) w' a := by
  cases he with
  | updateSmartAccountTemplate hcall _ _ => exact .of_store fun r => by simp [hcall]
  | setFarmStakingAddressForToken hcall _ _ _ => exact .of_store fun r => by simp [hcall]
  | setAdminAddress hcall _ _ _ => exact .of_store fun r => by simp [hcall]
  | setStrategiesPerEpoch hcall _ _ => exact .of_store fun r => by simp [hcall]
  | quiet hcall _ =>
      refine .of_store (f := fun d => d) fun r => ?_
      rcases hcall with ⟨hcall, _⟩ | hcall
      · simp [hcall]
      · simp [hcall]
  | @deploySmartAccount code s hcall _ _ _ hfresh _ hs =>
      have hi : initializes a ⟨w, .call tx, w.deployed tx.caller tx.newAddress (w.newAccount code) s⟩ =
        false := not_initializes fun r => by simp [hcall]
      have hpos := w.positionsOf_deployed a tx.newAddress tx.caller (w.newAccount code) s
      by_cases hnew : a = tx.newAddress
      · subst hnew
        obtain ⟨n, ha'⟩ := w.deployed_account tx.caller tx.newAddress (w.newAccount code) s
        cases hpost _ ha'
        cases (runs_init rfl).mp hs
        rw [if_pos rfl] at hpos
        exact .born hfresh ha' rfl hi (hpos.trans (List.append_nil _))
      · rw [if_neg (Ne.symm hnew)] at hpos
        refine .of_same (fun account ha => ?_) (fun ha => ?_) hi (hpos.trans (List.append_nil _))
        · obtain ⟨n, ha'⟩ := w.deployed_kept tx.caller (w.newAccount code) s hfresh ha
          exact ⟨_, ha', rfl⟩
        · exact w.deployed_absent _ _ _ hnew ha
  | @upgradeSmartAccount b account code s hcall _ _ ha _ _ hs =>
      have hi : initializes a ⟨w, .call tx, w.leave b { account with code } s⟩ = false :=
        not_initializes fun r => by simp [hcall]
      by_cases hba : a = b
      · subst hba
        have hleave := w.leave_self a { account with code } s
        cases hpost _ hleave
        cases (runs_upgrade rfl).mp hs
        refine .kept ha hleave rfl hi ?_
        rw [World.positionsOf_leave, if_pos rfl]
        exact List.append_nil _
      · exact .of_other hba hi
  | @initializeSmartAccount r b account s hcall hu hL ha hs =>
      by_cases hba : a = b
      · subst hba
        have hpos := w.positionsOf_leave a a account s
        rw [if_pos rfl] at hpos
        exact .initialized rfl hcall hu hL ha (w.leave_self a account s)
          ((runs_setup (hpre account ha)).mp hs) rfl hpos
      · refine .of_other hba ?_
        rw [Bool.eq_false_iff]
        intro hi
        obtain ⟨_, _, hl, _, hu'⟩ := initializes_iff.mp hi
        cases hl
        exact hba (Option.some.inj (hu'.symm.trans hu))
  | @setupSmartAccount b r L account s hcall ha hs =>
      by_cases hba : a = b
      · subst hba
        exact absurd hs (hw.refuses_setup hown ha (hpre account ha))
      · exact .of_other hba (not_initializes fun r => by simp [hcall])

theorem Step.change {l : Label} (hs : Step C w l w') (hw : Wired w) {a : Address}
    (hpre : w.Genuine a) (hpost : w'.Genuine a) : AccountChange C w l w' a := by
  cases hs with
  | call hown hc => exact (effect_of_commits hc).change hw hown hpre hpost
  | failed _ _ => exact .of_same (fun account ha => ⟨account, ha, rfl⟩) (fun ha => ha) rfl rfl
  | outside htouch =>
      refine .of_same (fun account ha => ?_) (fun ha => ?_) rfl rfl
      · obtain ⟨account', ha', _, _, hsame⟩ := (htouch a).of_before ha
        exact ⟨account', ha', (hsame (hpre account ha)).1⟩
      · exact (htouch a).of_none ha

/-- The run rule for one account that runs the account code throughout. -/
theorem account_induct {a : Address} {I : List (Entry (World X) Label) → World X → Prop}
    (hinit : Initial C w₀) (t : Run C w₀ h w) (hcode : ∀ e ∈ h, e.post.Genuine a)
    (start : I [] w₀)
    (step : ∀ h w l w', Run C w₀ h w → I h w → AccountChange C w l w' a →
      I (h ++ [⟨w, l, w'⟩]) w') : I h w := by
  have hfirst : w₀.Genuine a := by
    intro account ha
    rw [hinit.blank.1] at ha
    cases ha
  refine (t.induct (P := fun e => e.post.Genuine a) (I := fun h w => w.Genuine a ∧ I h w)
    ⟨hfirst, start⟩ ?_ hcode).2
  intro h w l w' t ih hpost hs
  exact ⟨hpost, step h w l w' t ih.2 (hs.change (wired_of_run hinit t) ih.1 hpost)⟩

/-! ## Where a stored strategy comes from -/

/-- `storage` is what the last initialisation of the account at `a` in `h` stored:
the risk tolerance of the call and the list it was served. -/
def LastInitialized (a : Address) (h : List (Entry (World X) Label))
    (storage : SmartAccount.Storage) : Prop :=
  ∃ (h₁ h₂ : List (Entry (World X) Label)) (e : Entry (World X) Label) (tx : Transaction)
    (r : UInt64), h = h₁ ++ e :: h₂ ∧ e.label = .call tx ∧
    tx.call = .initializeSmartAccount r ∧ e.pre.deployer.userSmartAccount tx.caller = some a ∧
    (∀ e' ∈ h₂, initializes a e' = false) ∧ e.pre.served r ≠ [] ∧
    storage.userStrategy = e.pre.served r ∧ storage.userRiskTolerance = r

theorem LastInitialized.extend {a : Address} {storage storage' : SmartAccount.Storage}
    (hl : LastInitialized a h storage) {e : Entry (World X) Label} (he : initializes a e = false)
    (hs : storage' = storage) : LastInitialized a (h ++ [e]) storage' := by
  obtain ⟨h₁, h₂, e₁, tx, r, rfl, hlabel, hcall, hu, hnone, hne, hL, hr⟩ := hl
  refine ⟨h₁, h₂ ++ [e], e₁, tx, r, by simp, hlabel, hcall, hu, ?_, hne, ?_, ?_⟩
  · exact List.forall_mem_append.mpr ⟨hnone, List.forall_mem_singleton.mpr he⟩
  · rw [hs]; exact hL
  · rw [hs]; exact hr

/-- An account without a strategy, or with the list last served to it. -/
theorem last_initialized (hinit : Initial C w₀) (t : Run C w₀ h w) {a : Address}
    (hcode : ∀ e ∈ h, e.post.Genuine a) : ∀ account, w.accounts a = some account →
      account.storage.userStrategy = [] ∨ LastInitialized a h account.storage := by
  refine account_induct (I := fun h w => ∀ account, w.accounts a = some account →
    account.storage.userStrategy = [] ∨ LastInitialized a h account.storage) hinit t hcode ?_ ?_
  · intro account ha
    rw [hinit.blank.1] at ha
    cases ha
  · intro h w l w' _ ih hc account' ha'
    cases hc with
    | absent _ hnone _ _ =>
        rw [hnone] at ha'
        cases ha'
    | born _ hborn hempty _ _ =>
        cases hborn.symm.trans ha'
        exact Or.inl hempty
    | @kept account _ ha hkept hsame hi _ =>
        cases hkept.symm.trans ha'
        rcases ih account ha with hempty | hlast
        · rw [hsame]
          exact Or.inl hempty
        · exact Or.inr (hlast.extend hi hsame)
    | @initialized tx r account _ s hl hcall hu hL ha hinitialized hcom hsame _ =>
        cases hinitialized.symm.trans ha'
        have hstorage := setup_account hcom
        refine Or.inr ⟨h, [], _, tx, r, rfl, hl, hcall, hu, fun _ he =>
          absurd he List.not_mem_nil, hL, ?_, ?_⟩
        · rw [hsame, hstorage]
        · rw [hsame, hstorage]

/-- A list that is served was published by the admin of its time, under the last
epoch. -/
theorem served_published (hinit : Initial C w₀) (t : Run C w₀ h w) {r : UInt64}
    (hL : w.served r ≠ []) : r ≤ maxRiskTolerance ∧ (w.served r).length ≤ maxStrategiesNo ∧
      ∃ (h₁ h₂ : List (Entry (World X) Label)) (e : Entry (World X) Label) (tx : Transaction)
        (tuples : List StrategyTuple), h = h₁ ++ e :: h₂ ∧ e.label = .call tx ∧
        tx.call = .setStrategiesPerEpoch r tuples ∧ tx.caller = e.pre.deployer.adminAddress ∧
        tx.epoch = w.deployer.lastStrategyEpoch ∧ w.served r = stepsOf tuples := by
  obtain ⟨tx, htx, tuples, hcall, hepoch, hserved⟩ := committed_of_served hinit t hL
  have hpub := publishable_of_mem t (mem_publications.mpr ⟨tx, htx, r, tuples, hcall, rfl⟩)
  obtain ⟨h₁, h₂, w₁, w₂, hh, _, _, heff, _⟩ := split_committed t htx
  rw [hserved]
  exact ⟨hpub.risk, hpub.length, h₁, h₂, _, tx, tuples, hh, rfl, hcall, (heff.accepted hcall).admin,
    hepoch, rfl⟩

/-- A call of an account is undone by the code of the account, if it is found. -/
theorem reverts_callAccount {caller a : Address} {value : Nat} {c : AccountCall} {e : TxError}
    (h : Reverts (callAccount C caller value a c) w e) (he : e ≠ .executionFailed) :
    ∃ account, w.accounts a = some account ∧
      Reverts (c.body C w account.code caller value) (w.enter a account) e := by
  rcases reverts_bind.mp h with h₁ | ⟨_, _, hget, h₁⟩
  · exact absurd h₁ reverts_get
  · obtain ⟨rfl, rfl⟩ := commits_get.mp hget
    rcases reverts_bind.mp h₁ with h₂ | ⟨account, _, hfound, h₂⟩
    · exact absurd (reverts_demand.mp h₂).2 he
    · obtain ⟨ha, rfl⟩ := commits_demand.mp hfound
      have hcode := reverts_within.mp h₂
      exact ⟨account, ha, hcode⟩

/-- An initialisation has one check with the error text of the account's checks: that of
the account. -/
theorem refused_by_account {tx : Transaction} {r : UInt64}
    (hcall : tx.call = .initializeSmartAccount r)
    (hrev : Reverts (dispatch C tx) w (.require "No user strategy found")) :
    ∃ b account, w.accounts b = some account ∧
      Reverts ((AccountCall.setupSmartAccount r (w.served r)).body C w account.code w.self tx.value)
        (w.enter b account) (.require "No user strategy found") := by
  have hbody : Reverts (receiveEgld tx.value >>= fun _ =>
      initializeSmartAccount C tx.caller tx.value r) w (.require "No user strategy found") := by
    unfold dispatch at hrev
    rw [hcall] at hrev
    exact hrev
  rcases reverts_bind.mp hbody with h₁ | ⟨_, _, hreceive, h₁⟩
  · exact absurd h₁ reverts_modify
  · obtain rfl := commits_modify.mp hreceive
    rcases reverts_bind.mp h₁ with h₂ | ⟨_, _, hget, h₂⟩
    · exact absurd h₂ reverts_get
    · obtain ⟨rfl, rfl⟩ := commits_get.mp hget
      rcases reverts_bind.mp h₂ with h₃ | ⟨b, _, hmapper, h₃⟩
      · have htext := (reverts_demand.mp h₃).2
        simp at htext
      · obtain ⟨_, rfl⟩ := commits_demand.mp hmapper
        rcases reverts_bind.mp h₃ with h₄ | ⟨_, _, hstrategies, h₄⟩
        · have htext := (reverts_require.mp h₄).2
          simp at htext
        · obtain ⟨_, rfl⟩ := commits_require.mp hstrategies
          rcases reverts_bind.mp h₄ with h₅ | ⟨_, _, hfunds, h₅⟩
          · cases (reverts_require.mp h₅).2
          · obtain ⟨_, rfl⟩ := commits_require.mp hfunds
            rcases reverts_bind.mp h₅ with h₆ | ⟨_, _, hspend, h₆⟩
            · exact absurd h₆ reverts_modify
            · obtain rfl := commits_modify.mp hspend
              rw [World.receive_spend] at h₆
              obtain ⟨account, ha, hs⟩ := reverts_callAccount h₆ TxError.noConfusion
              exact ⟨b, account, ha, hs⟩

/-- The two validators agree: what `initializeSmartAccount` forwards passes the
checks of `setupSmartAccount` on its arguments. -/
theorem initialize_not_refused (hinit : Initial C w₀) (t : Run C w₀ h w)
    (hcode : ∀ e ∈ h, FromSmartAccount C e) {tx : Transaction} {r : UInt64}
    (hcall : tx.call = .initializeSmartAccount r) (hL : w.served r ≠ []) :
    ¬ Reverts (dispatch C tx) w (.require "No user strategy found") := by
  intro hrev
  have hr := (served_published hinit t hL).1
  obtain ⟨b, account, ha, hs⟩ := refused_by_account hcall hrev
  rw [(sound_of_run hinit t hcode).code b account ha] at hs
  exact SmartAccount.raises_setupSmartAccount hL hr hs rfl

/-- **Provenance of a stored strategy.**  In every state of a run over the account
template, an account that stores a strategy stores the list that an admin
published for its risk tolerance, in the epoch that was the last one when the
account was last initialised.  And an initialisation that the deployer lets pass
is not refused by the account for its arguments. -/
theorem strategy_provenance (hinit : Initial C w₀) (t : Run C w₀ h w)
    (hcode : ∀ e ∈ h, FromSmartAccount C e) :
    (∀ a account, w.accounts a = some account → account.storage.userStrategy ≠ [] →
      account.storage.userRiskTolerance ≤ maxRiskTolerance ∧
      ∃ (h₁ h₂ : List (Entry (World X) Label)) (e : Entry (World X) Label) (tx : Transaction),
        h = h₁ ++ e :: h₂ ∧ e.label = .call tx ∧
        tx.call = .initializeSmartAccount account.storage.userRiskTolerance ∧
        e.pre.deployer.userSmartAccount tx.caller = some a ∧
        (∀ e' ∈ h₂, initializes a e' = false) ∧
        ∃ (h₃ h₄ : List (Entry (World X) Label)) (e' : Entry (World X) Label) (tx' : Transaction)
          (tuples : List StrategyTuple), h₁ = h₃ ++ e' :: h₄ ∧ e'.label = .call tx' ∧
          tx'.call = .setStrategiesPerEpoch account.storage.userRiskTolerance tuples ∧
          tx'.caller = e'.pre.deployer.adminAddress ∧
          tx'.epoch = e.pre.deployer.lastStrategyEpoch ∧
          account.storage.userStrategy = stepsOf tuples) ∧
    (∀ tx r, tx.call = .initializeSmartAccount r → w.served r ≠ [] →
      r ≤ maxRiskTolerance ∧
        ¬ Reverts (dispatch C tx) w (.require "No user strategy found")) := by
  constructor
  · intro a account ha hne
    rcases last_initialized hinit t (genuine_of_run hinit t hcode a) account ha with hempty | hlast
    · exact absurd hempty hne
    · obtain ⟨h₁, h₂, e, tx, r, hh, hl, hcall, hu, hnone, hL, hstrategy, hrisk⟩ := hlast
      obtain ⟨t₁, _⟩ := t.prefix_of_append hh
      obtain ⟨hr, _, h₃, h₄, e', tx', tuples, hh₁, hl', hcall', hadmin, hepoch, hserved⟩ :=
        served_published hinit t₁ hL
      rw [hstrategy, hrisk]
      exact ⟨hr, h₁, h₂, e, tx, hh, hl, hcall, hu, hnone, h₃, h₄, e', tx', tuples, hh₁, hl', hcall',
        hadmin, hepoch, hserved⟩
  · intro tx r hcall hL
    exact ⟨(served_published hinit t hL).1, initialize_not_refused hinit t hcode hcall hL⟩

/-- The list for risk tolerance 1 is published, and an account set up with it. -/
theorem strategy_provenance_sample : ∃ h w account, Run sampleChain sampleWorld h w ∧
    w.accounts 0xACC = some account ∧ account.storage.userStrategy ≠ [] ∧
    account.storage.userRiskTolerance ≤ maxRiskTolerance ∧
    ∃ e ∈ h, ∃ tx tuples, e.label = .call tx ∧
      tx.call = .setStrategiesPerEpoch account.storage.userRiskTolerance tuples ∧
      tx.caller = e.pre.deployer.adminAddress ∧ account.storage.userStrategy = stepsOf tuples := by
  have hc : check (send sampleChain (fun e => decide (FromSmartAccount sampleChain e))
      [samplePublish 1 1, sampleDeploy, sampleInitialize 1 1 10000]) sampleWorld
      (fun w => (w.accounts 0xACC).any fun account => decide (account.storage.userStrategy ≠ [])) =
        true := by decide +kernel
  obtain ⟨h, w, t, _, hcode, hq⟩ := run_of_check hc
  obtain ⟨account, ha, hany⟩ := (Option.any_eq_true _ _).mp hq
  have hne : account.storage.userStrategy ≠ [] := of_decide_eq_true hany
  obtain ⟨hr, h₁, _, _, _, rfl, _, _, _, _, h₃, h₄, e, tx, tuples, rfl, hl, hcall, hadmin, _, hL⟩ :=
    (strategy_provenance sampleWorld_initial t fun e he => of_decide_eq_true (hcode e he)).1
      _ account ha hne
  exact ⟨_, w, account, t, ha, hne, hr, e, by simp, tx, tuples, hl, hcall, hadmin, hL⟩

/-! ## What a stored strategy describes -/

/-- The positions `ps` are those of the steps `L` in one initialisation of the account at `a`:
in the call that it made of the account, each step handed over its own position, from the
state in which the step before it had ended.  Or there are no steps and no positions. -/
inductive Opened (C : Chain X) (a : Address) (h : List (Entry (World X) Label)) :
    List Strategy → List EsdtTokenPayment → Prop
  | nothing : Opened C a h [] []
  | initialized {e : Entry (World X) Label} {tx : Transaction} {r : UInt64} {account : Account}
      {s : SmartAccount.State X} {L : List Strategy} {ps : List EsdtTokenPayment} :
      e ∈ h → e.label = .call tx → tx.call = .initializeSmartAccount r →
      e.pre.deployer.userSmartAccount tx.caller = some a → e.pre.accounts a = some account →
      Commits (SmartAccount.setupSmartAccount (e.pre.peers C) e.pre.self tx.value r L)
        (e.pre.enter a account) () s →
      Delivers (e.pre.peers C) tx.value r L ps (e.pre.enter a account) s →
      Opened C a h L ps

theorem Opened.extend {a : Address} {L : List Strategy} {ps : List EsdtTokenPayment}
    (ho : Opened C a h L ps) (h' : List (Entry (World X) Label)) : Opened C a (h ++ h') L ps := by
  cases ho with
  | nothing => exact .nothing
  | initialized he hl hcall hu ha hcom hps =>
      exact .initialized (List.mem_append_left _ he) hl hcall hu ha hcom hps

/-- One position for each step. -/
theorem Opened.length {a : Address} {L : List Strategy} {ps : List EsdtTokenPayment}
    (ho : Opened C a h L ps) : ps.length = L.length := by
  cases ho with
  | nothing => rfl
  | initialized _ _ _ _ _ _ hps =>
      obtain ⟨_, _, _, _, hproduces⟩ := hps
      exact hproduces.length

/-- After the initialisations of the account at `a` in `h`, `old` are the positions
of all but the last one and `new` are those of the last, which the stored strategy
`L` describes. -/
structure Held (C : Chain X) (a : Address) (h : List (Entry (World X) Label))
    (L : List Strategy) (old new : List EsdtTokenPayment) : Prop where
  describes : Opened C a h L new
  length : L.length ≤ maxStrategiesNo
  before : h.countP (initializes a) = 0 → new = [] ∧ old = []
  after : 0 < h.countP (initializes a) → new ≠ []
  old_iff : old = [] ↔ h.countP (initializes a) ≤ 1

/-- An entry that does not initialise the account. -/
theorem Held.skip {a : Address} {L : List Strategy} {old new : List EsdtTokenPayment}
    (hh : Held C a h L old new) {e : Entry (World X) Label} (he : initializes a e = false) :
    Held C a (h ++ [e]) L old new := by
  have hcount : (h ++ [e]).countP (initializes a) = h.countP (initializes a) := by
    rw [List.countP_append, List.countP_singleton, he]
    rfl
  refine ⟨hh.describes.extend [e], hh.length, ?_, ?_, ?_⟩
  · rw [hcount]
    exact hh.before
  · rw [hcount]
    exact hh.after
  · rw [hcount]
    exact hh.old_iff

/-- An entry that does. -/
theorem Held.next {a : Address} {L L' : List Strategy} {old new new' : List EsdtTokenPayment}
    (hh : Held C a h L old new) {e : Entry (World X) Label} (he : initializes a e = true)
    (hd : Opened C a (h ++ [e]) L' new')
    (hlen : L'.length ≤ maxStrategiesNo) (hne : L' ≠ []) :
    Held C a (h ++ [e]) L' (old ++ new) new' := by
  have hcount : (h ++ [e]).countP (initializes a) = h.countP (initializes a) + 1 := by
    rw [List.countP_append, List.countP_singleton, he]
    rfl
  refine ⟨hd, hlen, ?_, ?_, ?_⟩
  · intro h0
    omega
  · intro _ hnil
    have hlength := hd.length
    rw [hnil] at hlength
    exact hne (List.eq_nil_of_length_eq_zero hlength.symm)
  · rw [hcount]
    constructor
    · intro hnil
      have hnew := (List.append_eq_nil_iff.mp hnil).2
      have hn : ¬ 0 < h.countP (initializes a) := fun hpos => hh.after hpos hnew
      omega
    · intro hn
      obtain ⟨hnew, hold⟩ := hh.before (by omega)
      rw [hnew, hold]
      rfl

/-- One initialisation at most, and the positions are those of the stored strategy. -/
theorem Held.iff {a : Address} {L : List Strategy} {old new : List EsdtTokenPayment}
    (hh : Held C a h L old new) : (Opened C a h L (old ++ new) ∧
      (old ++ new).length ≤ maxStrategiesNo) ↔ h.countP (initializes a) ≤ 1 := by
  have hlen := hh.describes.length
  constructor
  · intro hall
    have hlen' := hall.1.length
    rw [List.length_append] at hlen'
    refine hh.old_iff.mp (List.eq_nil_of_length_eq_zero ?_)
    omega
  · intro hn
    rw [hh.old_iff.mpr hn, List.nil_append]
    exact ⟨hh.describes, by rw [hlen]; exact hh.length⟩

/-- With a second initialisation, there are more positions than steps. -/
theorem Held.exceeds {a : Address} {L : List Strategy} {old new : List EsdtTokenPayment}
    (hh : Held C a h L old new) (hn : 1 < h.countP (initializes a)) :
    L.length < (old ++ new).length := by
  have hlen := hh.describes.length
  have hold : 0 < old.length := by
    refine List.length_pos_of_ne_nil fun hnil => ?_
    have hle := hh.old_iff.mp hnil
    omega
  rw [List.length_append]
  omega

/-- The account at `a` holds the positions of its initialisations. -/
structure HeldAt (C : Chain X) (a : Address) (h : List (Entry (World X) Label)) (w : World X) :
    Prop where
  absent : w.accounts a = none → w.positionsOf a = [] ∧ h.countP (initializes a) = 0
  held : ∀ account, w.accounts a = some account → ∃ old new, w.positionsOf a = old ++ new ∧
    Held C a h account.storage.userStrategy old new

theorem HeldAt.step (hinit : Initial C w₀) (t : Run C w₀ h w) {l : Label} {a : Address}
    (hh : HeldAt C a h w) (hc : AccountChange C w l w' a) :
    HeldAt C a (h ++ [⟨w, l, w'⟩]) w' := by
  have hzero : initializes a ⟨w, l, w'⟩ = false → h.countP (initializes a) = 0 →
      List.countP (initializes a) (h ++ [⟨w, l, w'⟩]) = 0 := by
    intro hi h0
    rw [List.countP_append, List.countP_singleton, hi, h0]
    rfl
  cases hc with
  | absent ha ha' hi hpos =>
      obtain ⟨hnil, h0⟩ := hh.absent ha
      refine ⟨fun _ => ⟨hpos.trans hnil, hzero hi h0⟩, fun account hacc => ?_⟩
      rw [ha'] at hacc
      cases hacc
  | born ha ha' hempty hi hpos =>
      obtain ⟨hnil, h0⟩ := hh.absent ha
      refine ⟨fun hnone => ?_, fun account hacc => ⟨[], [], hpos.trans hnil, ?_⟩⟩
      · rw [ha'] at hnone
        cases hnone
      · cases ha'.symm.trans hacc
        have h0' := hzero hi h0
        rw [hempty]
        refine ⟨.nothing, by decide, fun _ => ⟨rfl, rfl⟩, ?_, ?_⟩
        · intro hpos
          omega
        · exact ⟨fun _ => by omega, fun _ => rfl⟩
  | @kept account _ ha ha' hsame hi hpos =>
      refine ⟨fun hnone => ?_, fun account' hacc => ?_⟩
      · rw [ha'] at hnone
        cases hnone
      · cases ha'.symm.trans hacc
        obtain ⟨old, new, hold, hheld⟩ := hh.held account ha
        rw [hsame]
        exact ⟨old, new, hpos.trans hold, hheld.skip hi⟩
  | @initialized tx r account _ s hl hcall hu hL ha ha' hcom hsame hpos =>
      have hi : initializes a ⟨w, l, w'⟩ = true := initializes_iff.mpr ⟨tx, r, hl, hcall, hu⟩
      refine ⟨fun hnone => ?_, fun account' hacc => ?_⟩
      · rw [ha'] at hnone
        cases hnone
      · cases ha'.symm.trans hacc
        obtain ⟨old, new, hold, hheld⟩ := hh.held account ha
        obtain ⟨_, _, _, events, ps, hlog, hpositions, hps⟩ :=
          (SmartAccount.setUp_of_commits hcom).effect
        have hnew : SmartAccount.positions s.log = ps := by
          rw [hlog]
          exact hpositions
        refine ⟨old ++ new, ps, by rw [hpos, hold, hnew], ?_⟩
        rw [hsame, setup_account hcom]
        have hopened : Opened C a (h ++ [⟨w, l, w'⟩]) (w.served r) ps :=
          .initialized (List.mem_append_right _ (List.mem_singleton_self _)) hl hcall hu ha hcom hps
        exact hheld.next hi hopened (served_published hinit t hL).2.1 hL

theorem held_of_run (hinit : Initial C w₀) (t : Run C w₀ h w) {a : Address}
    (hcode : ∀ e ∈ h, e.post.Genuine a) : HeldAt C a h w := by
  have hstart : HeldAt C a [] w₀ := by
    refine ⟨fun _ => ?_, fun account ha => ?_⟩
    · unfold World.positionsOf
      rw [hinit.blank.2.2]
      exact ⟨rfl, rfl⟩
    · rw [hinit.blank.1] at ha
      cases ha
  exact account_induct (I := HeldAt C a) hinit t hcode hstart
    fun _ _ _ _ t ih hc => ih.step hinit t hc

/-- **When the stored strategy describes the positions.**  The positions opened for
an account that runs the account code throughout are one for each step of its
stored strategy, in order and of that step's own run, and so five at most, exactly while
the account has been initialised at most once.  After a second time there are more
positions than steps. -/
theorem positions_iff (hinit : Initial C w₀) (t : Run C w₀ h w) {a : Address}
    (hcode : ∀ e ∈ h, e.post.Genuine a) {account : Account} (ha : w.accounts a = some account) :
    ((Opened C a h account.storage.userStrategy (w.positionsOf a) ∧
      (w.positionsOf a).length ≤ maxStrategiesNo) ↔ h.countP (initializes a) ≤ 1) ∧
    (1 < h.countP (initializes a) →
      account.storage.userStrategy.length < (w.positionsOf a).length) := by
  obtain ⟨old, new, hpos, hheld⟩ := (held_of_run hinit t hcode).held account ha
  rw [hpos]
  exact ⟨hheld.iff, hheld.exceeds⟩

/-- Two initialisations of one account with a strategy of three steps: six positions. -/
theorem positions_exceed : Initial sampleChain sampleWorld ∧
    ∃ h w account, Run sampleChain sampleWorld h w ∧
      (∀ e ∈ h, FromSmartAccount sampleChain e) ∧ w.accounts 0xACC = some account ∧
      account.storage.userStrategy.length = 3 ∧ (w.positionsOf 0xACC).length = 6 ∧
      ¬ Opened sampleChain 0xACC h account.storage.userStrategy (w.positionsOf 0xACC) ∧
      ¬ (w.positionsOf 0xACC).length ≤ maxStrategiesNo := by
  have hc : check (send sampleChain (fun e => decide (FromSmartAccount sampleChain e))
      [sampleCall sampleAdmin 1 (.setStrategiesPerEpoch 1
        [sampleTuple 3334, sampleTuple 3333, sampleTuple 3333]),
        sampleDeploy, sampleInitialize 1 1 10000, sampleInitialize 1 1 10000])
      sampleWorld (fun w => (w.accounts 0xACC).any fun account =>
        decide (account.storage.userStrategy.length = 3 ∧ (w.positionsOf 0xACC).length = 6)) =
        true := by decide +kernel
  obtain ⟨h, w, t, _, hcode, hq⟩ := run_of_check hc
  obtain ⟨account, ha, hany⟩ := (Option.any_eq_true _ _).mp hq
  obtain ⟨hthree, hsix⟩ := of_decide_eq_true hany
  refine ⟨sampleWorld_initial, h, w, account, t, fun e he => of_decide_eq_true (hcode e he), ha,
    hthree, hsix, ?_, ?_⟩
  · intro hall
    have hlen := hall.length
    omega
  · rw [hsix]
    decide

theorem positions_iff_sample : ∃ h w account, Run sampleChain sampleWorld h w ∧
    w.accounts 0xACC = some account ∧
    Opened sampleChain 0xACC h account.storage.userStrategy (w.positionsOf 0xACC) := by
  have hc : check (send sampleChain (fun e => decide (FromSmartAccount sampleChain e))
      [samplePublish 1 1, sampleDeploy, sampleInitialize 1 1 10000]) sampleWorld
      (fun w => (w.accounts 0xACC).isSome) = true := by decide +kernel
  obtain ⟨h, w, t, hlabels, hcode, hq⟩ := run_of_check hc
  obtain ⟨account, ha⟩ := Option.isSome_iff_exists.mp hq
  -- only the last of the three labels is an initialisation
  have hcount : h.countP (initializes 0xACC) ≤
      (h.map Entry.label).countP (· = .call (sampleInitialize 1 1 10000)) := by
    rw [List.countP_map]
    refine List.countP_mono_left fun e he hi => ?_
    obtain ⟨tx, r, hl, hcall, _⟩ := initializes_iff.mp hi
    have hmem : e.label ∈ h.map Entry.label := List.mem_map_of_mem he
    rw [hlabels, hl] at hmem
    simp only [List.map_cons, List.map_nil, List.mem_cons, List.not_mem_nil, or_false] at hmem
    rcases hmem with hmem | hmem | hmem
    · cases hmem
      cases hcall
    · cases hmem
      cases hcall
    · exact decide_eq_true (hl.trans hmem)
  rw [hlabels] at hcount
  have hgenuine := genuine_of_run sampleWorld_initial t
    (fun e he => of_decide_eq_true (hcode e he)) 0xACC
  exact ⟨h, w, account, t, ha, ((positions_iff sampleWorld_initial t hgenuine ha).1.mpr
    (Nat.le_trans hcount (by decide))).1⟩

end Deployer

end PortfolioPilot
