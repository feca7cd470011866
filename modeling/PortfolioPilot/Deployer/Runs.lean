/-
# `Deployer.Runs` — runs of the deployer and its accounts, and the storage they leave

A step of a run is a committed transaction, a transaction that is undone, or
something that happens outside.  The deployer and an account that runs the
account code never send transactions, so the caller is anyone else.  No step hands the
deployer over to another owner (`ChangeOwnerAddress` of the chain), so in a run the owner
stays the one that deployed it.

**The abstract deployer.**  What a committed transaction writes is a function of
the transaction alone (`Transaction.write`), and the storage of a run is the fold
of the writes of its committed transactions (`storage_refines`).  Two of the
tables are therefore replays of what was written to them:

    strategies                   the lists of `publications`, a cell written once
    farmStakingAddressForToken   the pairs of `stakings`, the last write in force

and `last_strategy_epoch` is the epoch of the last publication.
-/
import PortfolioPilot.Lib.Trace
import PortfolioPilot.Deployer.Steps
import PortfolioPilot.SmartAccount.Portfolio

namespace PortfolioPilot

namespace Deployer

open Revert
open SmartAccount (Strategy maxPercentage maxRiskTolerance)

variable {X : Type} {C : Chain X} {w₀ w w' : World X}

/-! ## Runs -/

inductive Label where
  | call (tx : Transaction)
  | failed (tx : Transaction) (error : TxError)
  | outside
  deriving DecidableEq, Repr

/-- What can happen to an account from outside: tokens reach it; foreign code
may change everything that is the account's own. -/
def Touched : Option Account → Option Account → Prop
  | some account, some account' =>
      account'.code = account.code ∧ account'.owner = account.owner ∧
        (account.code = .smartAccount →
          account'.storage = account.storage ∧ account'.egld = account.egld)
  | none, none => True
  | _, _ => False

inductive Step (C : Chain X) : World X → Label → World X → Prop
  | call {w w' : World X} {tx : Transaction} :
      w.isOwn tx.caller = false → Commits (dispatch C tx) w () w' → Step C w (.call tx) w'
  | failed {w : World X} {tx : Transaction} {e : TxError} :
      w.isOwn tx.caller = false → Reverts (dispatch C tx) w e → Step C w (.failed tx e) w
  | outside {w : World X} {ext : X} {accounts : Address → Option Account} :
      (∀ a, Touched (w.accounts a) (accounts a)) →
      Step C w .outside { w with ext, accounts }

/-- A deployer that has just been put on the chain. -/
def World.fresh (self owner : Address) (ext : X) : World X where
  self := self
  owner := owner
  deployer := .blank
  egld := 0
  accounts _ := none
  ext := ext
  log := []

/-- The world after `init`. -/
inductive Initial (C : Chain X) (w : World X) : Prop
  | mk {self owner adminAddress template wrapper : Address} {ext : X} {fee : Nat} :
      Commits (init C fee adminAddress template wrapper) (World.fresh self owner ext) () w →
      Initial C w

/-- A run, with the steps it took. -/
abbrev Run (C : Chain X) (w₀ : World X) (h : List (Entry (World X) Label)) (w : World X) : Prop :=
  Trace (Step C) w₀ h w

def Label.committed : Label → Option Transaction
  | .call tx => some tx
  | .failed _ _ | .outside => none

/-- The committed transactions of a run, in order. -/
def committed (h : List (Entry (World X) Label)) : List Transaction :=
  h.filterMap fun e => e.label.committed

theorem committed_concat (h : List (Entry (World X) Label)) (e : Entry (World X) Label) :
    committed (h ++ [e]) = committed h ++ e.label.committed.toList := by
  unfold committed
  rw [List.filterMap_append]
  cases hl : e.label.committed with
  | none => simp [hl]
  | some tx => simp [hl]

theorem committed_concat_call (h : List (Entry (World X) Label)) (w w' : World X)
    (tx : Transaction) : committed (h ++ [⟨w, .call tx, w'⟩]) = committed h ++ [tx] :=
  committed_concat h _

theorem mem_committed {h : List (Entry (World X) Label)} {tx : Transaction} :
    tx ∈ committed h ↔ ∃ e ∈ h, e.label = .call tx := by
  unfold committed
  rw [List.mem_filterMap]
  refine exists_congr fun e => and_congr_right fun _ => ?_
  cases e.label with
  | call t => simp [Label.committed]
  | failed t err => simp [Label.committed]
  | outside => simp [Label.committed]

/-! ## The abstract deployer -/

/-- What a committed transaction writes. -/
def Transaction.write (tx : Transaction) (d : Storage) : Storage :=
  match tx.call with
  | .updateSmartAccountTemplate smartAccountTemplateAddress => { d with smartAccountTemplateAddress }
  | .deploySmartAccount =>
      { d with userSmartAccount := Function.update d.userSmartAccount tx.caller (some tx.newAddress) }
  | .setFarmStakingAddressForToken pairs =>
      { d with farmStakingAddressForToken := setPairs d.farmStakingAddressForToken pairs }
  | .setAdminAddress adminAddress => { d with adminAddress }
  | .setStrategiesPerEpoch r tuples => d.publish tx.epoch r (stepsOf tuples)
  | .upgradeSmartAccount | .initializeSmartAccount _ | .upgrade | .view | .setupSmartAccount .. => d

theorem Effect.deployer {tx : Transaction} (h : Effect C tx w w') :
    w'.deployer = tx.write w.deployer := by
  cases h with
  | updateSmartAccountTemplate hcall => simp [Transaction.write, hcall]
  | deploySmartAccount hcall =>
      rw [(World.deployed_frame _ _ _ _ _).2.2, Transaction.write, hcall]
  | upgradeSmartAccount hcall => rw [Transaction.write, hcall]; rfl
  | initializeSmartAccount hcall => rw [Transaction.write, hcall]; rfl
  | setFarmStakingAddressForToken hcall => simp [Transaction.write, hcall]
  | setAdminAddress hcall => simp [Transaction.write, hcall]
  | setStrategiesPerEpoch hcall => simp [Transaction.write, hcall]
  | quiet hcall =>
      rcases hcall with ⟨hcall, _⟩ | hcall
      · rw [Transaction.write, hcall]
      · rw [Transaction.write, hcall]
  | setupSmartAccount hcall => rw [Transaction.write, hcall]; rfl

/-- **Refinement.**  The storage of a run is the fold of what its committed
transactions write. -/
theorem storage_refines {h : List (Entry (World X) Label)} (t : Run C w₀ h w) :
    w.deployer = (committed h).foldl (fun d tx => tx.write d) w₀.deployer := by
  refine t.induct (P := fun _ => True)
    (I := fun h w => w.deployer = (committed h).foldl (fun d tx => tx.write d) w₀.deployer)
    rfl ?_ (fun _ _ => trivial)
  intro h w l w' _ ih _ hs
  cases hs with
  | call _ hc =>
      rw [committed_concat_call, List.foldl_append, ← ih]
      exact (effect_of_commits hc).deployer
  | failed _ _ => simpa [committed, Label.committed] using ih
  | outside _ => simpa [committed, Label.committed] using ih

theorem Initial.deployer (h : Initial C w) :
    (w.deployer.strategies = fun _ => []) ∧ w.deployer.lastStrategyEpoch = 0 ∧
      (w.deployer.farmStakingAddressForToken = fun _ => none) ∧
      (w.deployer.userSmartAccount = fun _ => none) := by
  cases h with
  | mk hc =>
      simp only [init, commits_bind, commits_require, commits_modify] at hc
      obtain ⟨_, _, ⟨_, rfl⟩, _, _, ⟨_, rfl⟩, rfl⟩ := hc
      exact ⟨rfl, rfl, rfl, rfl⟩

theorem Initial.blank (h : Initial C w) :
    (w.accounts = fun _ => none) ∧ w.egld = 0 ∧ w.log = [] := by
  cases h with
  | mk hc =>
      simp only [init, commits_bind, commits_require, commits_modify] at hc
      obtain ⟨_, _, ⟨_, rfl⟩, _, _, ⟨_, rfl⟩, rfl⟩ := hc
      exact ⟨rfl, rfl, rfl⟩

/-! ## What was written to the tables -/

/-- The key and the list that a committed transaction publishes. -/
def Transaction.publication (tx : Transaction) : Option ((UInt64 × UInt64) × List Strategy) :=
  match tx.call with
  | .setStrategiesPerEpoch r tuples => some ((tx.epoch, r), stepsOf tuples)
  | _ => none

def publications (txs : List Transaction) : List ((UInt64 × UInt64) × List Strategy) :=
  txs.filterMap Transaction.publication

theorem publications_concat (txs : List Transaction) (tx : Transaction) :
    publications (txs ++ [tx]) = publications txs ++ tx.publication.toList := by
  unfold publications
  rw [List.filterMap_append]
  cases hp : tx.publication with
  | none => simp [hp]
  | some p => simp [hp]

/-- The staking addresses that a committed transaction sets. -/
def Transaction.stakings (tx : Transaction) : List (TokenIdentifier × Address) :=
  match tx.call with
  | .setFarmStakingAddressForToken pairs => pairs
  | _ => []

def stakings (txs : List Transaction) : List (TokenIdentifier × Address) :=
  txs.flatMap Transaction.stakings

/-- The epoch of the last publication, 0 if there is none. -/
def lastEpoch (ps : List ((UInt64 × UInt64) × List Strategy)) : UInt64 :=
  ps.foldl (fun _ p => p.1.1) 0

/-- What one transaction writes to the tables. -/
theorem Transaction.write_tables (tx : Transaction) (d : Storage) :
    (tx.write d).strategies = Cells.replay d.strategies tx.publication.toList ∧
      (tx.write d).lastStrategyEpoch =
        tx.publication.toList.foldl (fun _ p => p.1.1) d.lastStrategyEpoch ∧
      (tx.write d).farmStakingAddressForToken =
        setPairs d.farmStakingAddressForToken tx.stakings := by
  unfold Transaction.write Transaction.publication Transaction.stakings
  cases tx.call with
  | setStrategiesPerEpoch r tuples => exact ⟨rfl, rfl, rfl⟩
  | _ => exact ⟨rfl, rfl, rfl⟩

/-- The tables that a sequence of transactions leaves are replays of what it
writes to them. -/
theorem tables_fold {d₀ : Storage} (hs : d₀.strategies = fun _ => [])
    (he : d₀.lastStrategyEpoch = 0) (hf : d₀.farmStakingAddressForToken = fun _ => none)
    (txs : List Transaction) :
    let d := txs.foldl (fun d tx => tx.write d) d₀
    d.strategies = Cells.replay (fun _ => []) (publications txs) ∧
      d.lastStrategyEpoch = lastEpoch (publications txs) ∧
      d.farmStakingAddressForToken = setPairs (fun _ => none) (stakings txs) := by
  induction txs using List.reverseRecOn with
  | nil => exact ⟨hs, he, hf⟩
  | append_singleton txs tx ih =>
      obtain ⟨ih₁, ih₂, ih₃⟩ := ih
      have hq : stakings (txs ++ [tx]) = stakings txs ++ tx.stakings := by simp [stakings]
      simp only [List.foldl_append, List.foldl_cons, List.foldl_nil]
      obtain ⟨h₁, h₂, h₃⟩ := tx.write_tables (txs.foldl (fun d tx => tx.write d) d₀)
      rw [publications_concat, hq, h₁, h₂, h₃, ih₁, ih₂, ih₃]
      refine ⟨(Cells.replay_append _ _ _).symm, ?_, ?_⟩
      · unfold lastEpoch
        rw [List.foldl_append]
      · unfold setPairs
        rw [List.map_append, Cells.replay_append]

/-! ## Runs that can be computed -/

/-- The transactions, sent one after the other by callers of the world outside,
as long as every entry of the run passes `p`. -/
def send (C : Chain X) (p : Entry (World X) Label → Bool) (txs : List Transaction) : Exec X Unit :=
  forM txs fun tx => do
    let w ← get
    require (w.isOwn tx.caller = false) .executionFailed
    dispatch C tx
    let w' ← get
    require (p ⟨w, .call tx, w'⟩ = true) .executionFailed

/-- What was sent to the end is a run. -/
theorem run_of_send {p : Entry (World X) Label → Bool} {txs : List Transaction} :
    ∀ {w : World X}, Commits (send C p txs) w () w' → ∃ h, Run C w h w' ∧
      h.map Entry.label = txs.map Label.call ∧ ∀ e ∈ h, p e = true := by
  induction txs with
  | nil =>
      intro w hs
      rw [send, commits_forM_nil] at hs
      subst hs
      exact ⟨[], .nil, rfl, fun _ he => absurd he List.not_mem_nil⟩
  | cons tx txs ih =>
      intro w hs
      rw [send, commits_forM_cons] at hs
      obtain ⟨m, hx, hrest⟩ := hs
      simp only [commits_bind, commits_get, commits_require] at hx
      obtain ⟨_, _, ⟨rfl, rfl⟩, _, _, ⟨hown, rfl⟩, _, _, hc, _, _, ⟨rfl, rfl⟩, hp, rfl⟩ := hx
      obtain ⟨h, t, hlabels, hall⟩ := ih hrest
      refine ⟨_, (Trace.single (Step.call hown hc)).append t, ?_, ?_⟩
      · exact congrArg (Label.call tx :: ·) hlabels
      · intro e he
        rcases List.mem_cons.mp he with rfl | he
        · exact hp
        · exact hall e he

theorem committed_of_labels {h : List (Entry (World X) Label)} {txs : List Transaction}
    (hl : h.map Entry.label = txs.map Label.call) : committed h = txs := by
  have hmap : committed h = (h.map Entry.label).filterMap Label.committed := by
    rw [List.filterMap_map]
    rfl
  have hsome : Label.committed ∘ Label.call = some := rfl
  rw [hmap, hl, List.filterMap_map, hsome, List.filterMap_some]

/-- A run whose entries pass `p`, and whose end passes `q`. -/
theorem run_of_check {p : Entry (World X) Label → Bool} {q : World X → Bool}
    {txs : List Transaction} (hc : check (send C p txs) w q = true) :
    ∃ h w', Run C w h w' ∧ h.map Entry.label = txs.map Label.call ∧
      (∀ e ∈ h, p e = true) ∧ q w' = true := by
  obtain ⟨w', hs, hq⟩ := exists_of_check hc
  obtain ⟨h, t, hlabels, hall⟩ := run_of_send hs
  exact ⟨h, w', t, hlabels, hall, hq⟩

/-! ## A concrete chain

The third parties are those of `samplePeers`; addresses below `0x1000`
are contracts, `0x7E` is the template, `0x66` a contract with code of its own. -/

def sampleChain : Chain Unit where
  isSmartContract a := decide (a.toNat < 0x1000)
  codeAt _ a := if a = 0x7E then some .smartAccount else if a = 0x66 then some (.other 0) else none
  peers := SmartAccount.samplePeers 0 0
  foreign _ _ _ _ := pure ()

def sampleOwner : Address := 0x1001
def sampleAdmin : Address := 0x1002
def sampleUser : Address := 0x1003

/-- A deployer at `0xD` right after `init`. -/
def sampleWorld : World Unit where
  self := 0xD
  owner := sampleOwner
  deployer := { Storage.blank with
    smartAccountOpenFee := 50
    adminAddress := sampleAdmin
    smartAccountTemplateAddress := 0x7E
    egldWrapperAddress := 0xE }
  egld := 0
  accounts _ := none
  ext := ()
  log := []

theorem sampleWorld_initial : Initial sampleChain sampleWorld := by
  have hc : Commits (init sampleChain 50 sampleAdmin 0x7E 0xE)
      (World.fresh 0xD sampleOwner ()) () sampleWorld := by
    simp only [init, commits_bind, commits_require, commits_modify]
    exact ⟨(), _, ⟨by decide, rfl⟩, (), _, ⟨by decide, rfl⟩, rfl⟩
  exact .mk hc

/-- A call in epoch `epoch` without value. -/
def sampleCall (caller : Address) (epoch : UInt64) (call : Call) : Transaction where
  caller := caller
  value := 0
  epoch := epoch
  newAddress := 0
  call := call

/-- The tuple of an ESDT step at the pair `0xA`. -/
def sampleTuple (percentage : UInt64) : StrategyTuple := (percentage, .esdt, 0xA, [77])

def samplePublish (epoch r : UInt64) : Transaction :=
  sampleCall sampleAdmin epoch (.setStrategiesPerEpoch r [sampleTuple 10000])

/-- The deployment of an account at `0xACC` for the sample user. -/
def sampleDeploy : Transaction where
  caller := sampleUser
  value := 50
  epoch := 1
  newAddress := 0xACC
  call := .deploySmartAccount

def sampleInitialize (epoch r : UInt64) (value : Nat) : Transaction :=
  { sampleCall sampleUser epoch (.initializeSmartAccount r) with value }

theorem step_of_effect {tx : Transaction} (hown : w.isOwn tx.caller = false)
    (h : Effect C tx w w') : Step C w (.call tx) w' :=
  .call hown (commits_of_effect h)

end Deployer

end PortfolioPilot
