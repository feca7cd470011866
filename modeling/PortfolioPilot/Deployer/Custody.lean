/-
# `Deployer.Custody` — what an account holds, it keeps

Neither contract has an endpoint that lets go of a token: a setup sends on what it
has just wrapped or been given, and the functions that leave a farm or a pool are
called by no endpoint.  So the accounts are one-way.  A setup of a list whose
percentages make up the whole takes from the balances at most the deposit that it
has just added, and what it records as positions stays (`setup_balance`); no other
step of a run touches a balance.

Hence an account always holds every position ever recorded for it, and nobody,
its user included, gets any of it out (`positions_backed`).
-/
import PortfolioPilot.Deployer.Availability

namespace PortfolioPilot

namespace Deployer

open Revert
open SmartAccount (Standard WegldAt maxPercentage newEvents positions spentAll)

variable {X : Type} {C : Chain X} {w₀ w w' : World X} {h : List (Entry (World X) Label)}

/-! ## One step -/

/-- What is asked of a step: the template is the account contract, tokens are not taken
from an account behind its back, and an initialisation is of a whole list. -/
structure Custodial (C : Chain X) (e : Entry (World X) Label) : Prop where
  template : FromSmartAccount C e
  additive : e.label = .outside → ∀ a account account', e.pre.accounts a = some account →
    e.post.accounts a = some account' → ∀ k, account.esdt k ≤ account'.esdt k
  whole : ∀ tx r, e.label = .call tx → tx.call = .initializeSmartAccount r →
    WellAllocated (e.pre.served r)

/-- The account at `a`, if there is one, stays, and gains all the positions that are
recorded for it. -/
def Gains (w w' : World X) (a : Address) : Prop :=
  ∀ account, w.accounts a = some account → ∃ account' ps, w'.accounts a = some account' ∧
    w'.positionsOf a = w.positionsOf a ++ ps ∧
    ∀ k, account.esdt k + totalOf ps k ≤ account'.esdt k

theorem Gains.of_same {a : Address} (hpos : w'.positionsOf a = w.positionsOf a)
    (hacc : ∀ account, w.accounts a = some account → ∃ account', w'.accounts a = some account' ∧
      ∀ k, account.esdt k ≤ account'.esdt k) : Gains w w' a := by
  intro account ha
  obtain ⟨account', ha', hle⟩ := hacc account ha
  refine ⟨account', [], ha', ?_, hle⟩
  rw [hpos, List.append_nil]

/-- A setup of a whole list gains its positions. -/
theorem gains_of_setup (hC : Standard C.peers) {a : Address} {account : Account} {value : Nat}
    {r : UInt64} {s : SmartAccount.State X} (ha : w.accounts a = some account)
    (hd : account.storage.smartAccountDeployerAddress = some w.self)
    (hwell : WellAllocated (w.served r))
    (hs : Commits (SmartAccount.setupSmartAccount (w.peers C) w.self value r (w.served r))
      (w.enter a account) () s) : Gains w (w.leave a account s) a := by
  intro account' ha'
  cases ha.symm.trans ha'
  have hnew : newEvents (w.enter a account) s = s.log := rfl
  have hsum : ((w.served r).map fun step => step.percentage.toNat).sum = maxPercentage.toNat :=
    hwell.sum
  refine ⟨_, positions s.log, w.leave_self a account s, ?_, fun k => ?_⟩
  · rw [World.positionsOf_leave, if_pos rfl]
  · have hbalance := SmartAccount.setup_balance (standard_peers hC w) (wegldAt_enter hd) hs k
    have hspent := (SmartAccount.spentAll_whole value hsum).1
    obtain ⟨rest, hrest⟩ := Nat.exists_eq_add_of_le hspent
    have hdeposit := SmartAccount.amountOf_wegldPayment_add (w.wegld C)
      (spentAll value (w.served r)) rest k
    rw [← hrest] at hdeposit
    rw [hnew] at hbalance
    show account.esdt k + _ ≤ s.esdt k
    have hstart : (w.enter a account).esdt k = account.esdt k := rfl
    omega

theorem Ordinary.gains (hC : Standard C.peers) {tx : Transaction} (ho : Ordinary C tx w w')
    (hw : Sound w) (hcustodial : Custodial C ⟨w, .call tx, w'⟩) (a : Address) : Gains w w' a := by
  cases ho with
  | storage _ _ _ => exact .of_same rfl fun account ha => ⟨account, ha, fun _ => Nat.le_refl _⟩
  | deploySmartAccount _ _ _ _ hfresh =>
      intro account ha
      have hne : tx.newAddress ≠ a := by
        intro hnew
        rw [← hnew, hfresh] at ha
        cases ha
      obtain ⟨n, ha'⟩ := w.deployed_kept tx.caller (w.newAccount .smartAccount)
        (w.born tx.newAddress) hfresh ha
      refine ⟨_, [], ha', ?_, fun _ => Nat.le_refl _⟩
      rw [World.positionsOf_deployed, if_neg hne]
      rfl
  | @initializeSmartAccount r b account s hcall _ _ hb hs =>
      by_cases hab : a = b
      · subst hab
        exact gains_of_setup hC hb (hw.deployer a account hb)
          (hcustodial.whole tx r rfl hcall) hs
      · refine .of_same ?_ fun account' ha => ?_
        · rw [World.positionsOf_leave, if_neg (Ne.symm hab)]
          exact List.append_nil _
        · exact ⟨account', (w.leave_other account s hab).trans ha, fun _ => Nat.le_refl _⟩

theorem Step.gains (hC : Standard C.peers) {l : Label} (hs : Step C w l w') (hw : Sound w)
    (hcustodial : Custodial C ⟨w, l, w'⟩) (a : Address) : Gains w w' a := by
  cases hs with
  | call hown hc =>
      exact ((effect_of_commits hc).ordinary hw hown hcustodial.template).gains hC hw hcustodial a
  | failed _ _ => exact .of_same rfl fun account ha => ⟨account, ha, fun _ => Nat.le_refl _⟩
  | outside htouch =>
      refine .of_same rfl fun account ha => ?_
      obtain ⟨account', ha', _⟩ := (htouch a).of_before ha
      exact ⟨account', ha', hcustodial.additive rfl a account account' ha ha'⟩

/-- No step loses an account or any of its tokens. -/
theorem Gains.keeps {a : Address} (hg : Gains w w' a) {account : Account}
    (ha : w.accounts a = some account) :
    ∃ account', w'.accounts a = some account' ∧ ∀ k, account.esdt k ≤ account'.esdt k := by
  obtain ⟨account', ps, ha', _, hle⟩ := hg account ha
  exact ⟨account', ha', fun k => Nat.le_trans (Nat.le_add_right _ _) (hle k)⟩

/-! ## Runs -/

/-- Along a run from a sound state every account stays, and keeps what it has. -/
theorem keeps_of_run (hC : Standard C.peers) (hw : Sound w₀) (t : Run C w₀ h w)
    (hh : ∀ e ∈ h, Custodial C e) {a : Address} {account : Account}
    (ha : w₀.accounts a = some account) :
    ∃ account', w.accounts a = some account' ∧ ∀ k, account.esdt k ≤ account'.esdt k := by
  refine (t.induct (P := Custodial C) (I := fun _ w => Sound w ∧ ∃ account',
    w.accounts a = some account' ∧ ∀ k, account.esdt k ≤ account'.esdt k)
    ⟨hw, account, ha, fun _ => Nat.le_refl _⟩ ?_ hh).2
  intro h w l w' _ ih hcustodial hs
  obtain ⟨hw, account₁, ha₁, hle₁⟩ := ih
  obtain ⟨account₂, ha₂, hle₂⟩ := (hs.gains hC hw hcustodial a).keeps ha₁
  exact ⟨hs.sound hw hcustodial.template, account₂, ha₂, fun k => Nat.le_trans (hle₁ k) (hle₂ k)⟩

/-- An account that is not there has no positions; one that is there holds all of its. -/
def World.Backed (w : World X) (a : Address) : Prop :=
  (w.accounts a = none → w.positionsOf a = []) ∧
    ∀ account, w.accounts a = some account → ∀ k, totalOf (w.positionsOf a) k ≤ account.esdt k

theorem World.Backed.step (hC : Standard C.peers) {l : Label} (hs : Step C w l w') (hw : Sound w)
    (hcustodial : Custodial C ⟨w, l, w'⟩) {a : Address} (hb : w.Backed a) : w'.Backed a := by
  have hw' := hs.sound hw hcustodial.template
  cases ha : w.accounts a with
  | some account =>
      obtain ⟨account', ps, ha', hpos, hle⟩ := hs.gains hC hw hcustodial a account ha
      refine ⟨fun hnone => ?_, fun account₂ ha₂ k => ?_⟩
      · cases ha'.symm.trans hnone
      · cases ha'.symm.trans ha₂
        have hold := hb.2 account ha k
        have hgain := hle k
        rw [hpos, totalOf_append]
        omega
  | none =>
      -- what a step does at an empty address records nothing for it
      have hnil : w'.positionsOf a = [] := by
        cases hs.change hw.toWired (a := a) (hw.code a) (hw'.code a) with
        | absent _ _ _ hpos => exact hpos.trans (hb.1 ha)
        | born _ _ _ _ hpos => exact hpos.trans (hb.1 ha)
        | kept ha₁ => cases ha.symm.trans ha₁
        | initialized _ _ _ _ ha₁ => cases ha.symm.trans ha₁
      rw [World.Backed, hnil]
      exact ⟨fun _ => rfl, fun _ _ k => Nat.zero_le _⟩

theorem backed_of_run (hC : Standard C.peers) (hinit : Initial C w₀) (t : Run C w₀ h w)
    (hh : ∀ e ∈ h, Custodial C e) (a : Address) : w.Backed a := by
  have hstart : w₀.Backed a := by
    refine ⟨fun _ => ?_, fun account ha => ?_⟩
    · unfold World.positionsOf
      rw [hinit.blank.2.2]
      rfl
    · rw [hinit.blank.1] at ha
      cases ha
  refine (t.induct (P := Custodial C) (I := fun _ w => Sound w ∧ w.Backed a)
    ⟨hinit.sound, hstart⟩ ?_ hh).2
  intro h w l w' _ ih hcustodial hs
  exact ⟨hs.sound ih.1 hcustodial.template, ih.2.step hC hs ih.1 hcustodial⟩

/-- **Positions are backed, and stay.**  In every run over the account template that
initialises with whole lists, and in which nothing outside takes tokens from an account,
an account once deployed is never lost, its balance of no token ever decreases, and it
always holds all the positions ever recorded for it, token by token. -/
theorem positions_backed (hC : Standard C.peers) (hinit : Initial C w₀) (t : Run C w₀ h w)
    (hh : ∀ e ∈ h, Custodial C e) :
    (∀ e ∈ h, ∀ a account, e.pre.accounts a = some account →
      ∃ account', w.accounts a = some account' ∧ ∀ k, account.esdt k ≤ account'.esdt k) ∧
    ∀ a account, w.accounts a = some account → ∀ k, totalOf (w.positionsOf a) k ≤ account.esdt k := by
  refine ⟨fun e he a account ha => ?_, fun a => (backed_of_run hC hinit t hh a).2⟩
  obtain ⟨h₁, h₂, hsplit, t₁, hs, t₂⟩ := t.split_of_mem e he
  have htemplate : ∀ e' ∈ h₁, FromSmartAccount C e' := fun e' he' => by
    refine (hh e' ?_).template
    rw [hsplit]
    exact List.mem_append_left _ he'
  have hrest : Run C e.pre (⟨e.pre, e.label, e.post⟩ :: h₂) w := (Trace.single hs).append t₂
  refine keeps_of_run hC (sound_of_run hinit t₁ htemplate) hrest (fun e' he' => hh e' ?_) ha
  rw [hsplit]
  exact List.mem_append_right _ he'

/-- Whether the entry, if it is an initialisation, is of a whole list. -/
def allocates (e : Entry (World X) Label) : Bool :=
  match e.label with
  | .call tx =>
      match tx.call with
      | .initializeSmartAccount r => decide (WellAllocated (e.pre.served r))
      | _ => true
  | .failed _ _ | .outside => true

theorem custodial_of_checks {e : Entry (World X) Label} (hcode : FromSmartAccount C e)
    (hlabel : e.label ≠ .outside) (hwhole : allocates e = true) : Custodial C e where
  template := hcode
  additive hout := absurd hout hlabel
  whole tx r hl hcall := by
    unfold allocates at hwhole
    rw [hl] at hwhole
    simp only [hcall] at hwhole
    exact of_decide_eq_true hwhole

/-- Two initialisations, and both positions still there. -/
theorem positions_backed_sample : ∃ h w account, Run sampleChain sampleWorld h w ∧
    w.accounts 0xACC = some account ∧ (w.positionsOf 0xACC).length = 2 ∧
    ∀ k, totalOf (w.positionsOf 0xACC) k ≤ account.esdt k := by
  have hc : check (send sampleChain
      (fun e => decide (FromSmartAccount sampleChain e) && allocates e)
      [samplePublish 1 1, sampleDeploy, sampleInitialize 1 1 10000, sampleInitialize 1 1 500])
      sampleWorld (fun w => (w.accounts 0xACC).isSome &&
        decide ((w.positionsOf 0xACC).length = 2)) = true := by decide +kernel
  obtain ⟨h, w, t, hlabels, hentries, hq⟩ := run_of_check hc
  obtain ⟨hacc, htwo⟩ := (Bool.and_eq_true _ _).mp hq
  obtain ⟨account, ha⟩ := Option.isSome_iff_exists.mp hacc
  have hcustodial : ∀ e ∈ h, Custodial sampleChain e := by
    intro e he
    obtain ⟨hcode, hwhole⟩ := (Bool.and_eq_true _ _).mp (hentries e he)
    refine custodial_of_checks (of_decide_eq_true hcode) (fun hout => ?_) hwhole
    have hmem : e.label ∈ h.map Entry.label := List.mem_map_of_mem he
    rw [hlabels, hout] at hmem
    obtain ⟨_, _, hcall⟩ := List.mem_map.mp hmem
    cases hcall
  obtain ⟨_, hbacked⟩ := positions_backed (SmartAccount.samplePeers_standard 0 0)
    sampleWorld_initial t hcustodial
  exact ⟨h, w, account, t, ha, of_decide_eq_true htwo, hbacked _ account ha⟩

end Deployer

end PortfolioPilot
