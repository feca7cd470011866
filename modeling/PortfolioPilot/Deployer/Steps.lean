/-
# `Deployer.Steps` — what a committed transaction does to the world

`Effect C tx w w'` has one constructor for each call, with the guards that were
passed and the world that results; `effect_of_commits` is the inversion of
`dispatch` and, with the lemmas before it, the only place that opens the code of
the endpoints.  Every invariant of the later modules is a case analysis of
`Effect`.

The EGLD of a payable call is received and sent on, so it does not show in the
balance of the deployer at the end (`receive_spend`).
-/
import PortfolioPilot.Lib.Cells
import PortfolioPilot.Lib.Words
import PortfolioPilot.Deployer.Contract
import PortfolioPilot.SmartAccount.Steps

namespace PortfolioPilot

namespace Deployer

open Revert
open SmartAccount (PositionType Strategy maxPercentage maxRiskTolerance)

variable {X : Type} {C : Chain X} {w w' : World X}

/-! ## The loop of `set_strategies_per_epoch` -/

def StrategyTuple.toStrategy (t : StrategyTuple) : Strategy :=
  ⟨t.1, t.2.1, t.2.2.1, t.2.2.2⟩

/-- The tuples with a percentage, in their order. -/
def stepsOf (tuples : List StrategyTuple) : List Strategy :=
  (tuples.filter fun t => t.1 ≠ 0).map StrategyTuple.toStrategy

def percentages (steps : List Strategy) : List UInt64 := steps.map (·.percentage)

theorem foldl_collect (tuples : List StrategyTuple) :
    ∀ acc : List Strategy × UInt64, tuples.foldl collect acc =
      (acc.1 ++ stepsOf tuples, acc.2 + Words.wrapSum (percentages (stepsOf tuples))) := by
  induction tuples with
  | nil =>
      intro acc
      simp [stepsOf, percentages]
  | cons t tuples ih =>
      intro acc
      rw [List.foldl_cons, ih]
      by_cases ht : t.1 = 0
      · simp [collect, stepsOf, ht]
      · simp [collect, stepsOf, percentages, StrategyTuple.toStrategy, ht, UInt64.add_assoc]

/-! ## Updates of the world -/

namespace World

@[simp] theorem store_deployer (f : Storage → Storage) : (w.store f).deployer = f w.deployer := rfl

theorem receive_spend (w : World X) (value : Nat) : (w.receive value).spend value = w := by
  cases w
  simp [receive, spend]

/-- What a transfer of EGLD leaves alone. -/
theorem credit_frame (w : World X) (dest : Address) (amount : Nat) :
    (w.credit dest amount).self = w.self ∧ (w.credit dest amount).owner = w.owner ∧
      (w.credit dest amount).deployer = w.deployer ∧ (w.credit dest amount).ext = w.ext ∧
      (w.credit dest amount).log = w.log := by
  unfold credit
  by_cases hd : dest = w.self
  · rw [if_pos hd]; exact ⟨rfl, rfl, rfl, rfl, rfl⟩
  · rw [if_neg hd]
    cases w.accounts dest with
    | none => exact ⟨rfl, rfl, rfl, rfl, rfl⟩
    | some account => exact ⟨rfl, rfl, rfl, rfl, rfl⟩

/-- A transfer of EGLD changes nothing of an account but its EGLD. -/
theorem credit_accounts (w : World X) (dest : Address) (amount : Nat) (a : Address) :
    (w.credit dest amount).accounts a = w.accounts a ∨
      ∃ account, w.accounts a = some account ∧
        (w.credit dest amount).accounts a = some { account with egld := account.egld + amount } := by
  unfold credit
  by_cases hd : dest = w.self
  · rw [if_pos hd]; exact Or.inl rfl
  · rw [if_neg hd]
    cases hacc : w.accounts dest with
    | none => exact Or.inl rfl
    | some account =>
        by_cases ha : a = dest
        · subst ha
          exact Or.inr ⟨account, hacc, by simp [put]⟩
        · exact Or.inl (by simp [put, ha])

end World

/-! ## What an account sees of the chain around -/

/-- A call that is answered is one of the chain around. -/
theorem peers_call {x : X} {a : Address} {c : SmartAccount.ContractCall}
    {y : X × SmartAccount.Returned} (h : (w.peers C).call x a c = some y) :
    w.isOwn c.dest = false ∧ C.peers.call x a c = some y := by
  by_cases hown : w.isOwn c.dest = true
  · rw [show (w.peers C).call x a c = none from if_pos hown] at h
    cases h
  · rw [show (w.peers C).call x a c = C.peers.call x a c from if_neg hown] at h
    exact ⟨Bool.eq_false_iff.mpr hown, h⟩

theorem peers_wrappedEgldTokenId {x : X} {a : Address} (hown : w.isOwn a = false) :
    (w.peers C).wrappedEgldTokenId x a = C.peers.wrappedEgldTokenId x a := by
  show (if w.isOwn a then [] else _) = _
  rw [hown]
  rfl

theorem peers_tokens {x : X} {a : Address} (hown : w.isOwn a = false) :
    (w.peers C).firstTokenId x a = C.peers.firstTokenId x a ∧
      (w.peers C).secondTokenId x a = C.peers.secondTokenId x a := by
  constructor
  · show (if w.isOwn a then [] else _) = _
    rw [hown]
    rfl
  · show (if w.isOwn a then [] else _) = _
    rw [hown]
    rfl

/-! ## Calls of accounts -/

/-- The account at `a` runs the call `c`, with `account` there, and ends in `s`. -/
def Runs (C : Chain X) (w : World X) (caller : Address) (value : Nat) (a : Address)
    (account : Account) (c : AccountCall) (s : SmartAccount.State X) : Prop :=
  Commits (c.body C w account.code caller value) (w.enter a account) () s

section SmartAccountCode

variable {caller a : Address} {value : Nat} {account : Account} {s : SmartAccount.State X}

/-- What the account code does on `init`. -/
theorem runs_init (hcode : account.code = .smartAccount) {d : Address} :
    Runs C w caller value a account (.init d) s ↔ s = { w.enter a account with
      storage := { account.storage with smartAccountDeployerAddress := some d } } := by
  rw [Runs, hcode]
  exact commits_modify

theorem runs_upgrade (hcode : account.code = .smartAccount) :
    Runs C w caller value a account .upgrade s ↔ s = w.enter a account := by
  rw [Runs, hcode]
  exact commits_pure.trans (and_iff_right rfl)

theorem runs_setup (hcode : account.code = .smartAccount) {r : UInt64} {L : List Strategy} :
    Runs C w caller value a account (.setupSmartAccount r L) s ↔
      Commits (SmartAccount.setupSmartAccount (w.peers C) caller value r L)
        (w.enter a account) () s := by
  rw [Runs, hcode]
  exact Iff.rfl

end SmartAccountCode

theorem commits_callAccount {caller a : Address} {value : Nat} {c : AccountCall} :
    Commits (callAccount C caller value a c) w () w' ↔
      ∃ account s, w.accounts a = some account ∧ Runs C w caller value a account c s ∧
        w' = w.leave a account s := by
  simp only [callAccount, commits_bind, commits_get, commits_demand, commits_within]
  constructor
  · rintro ⟨_, _, ⟨rfl, rfl⟩, account, _, ⟨ha, rfl⟩, s, hs, rfl⟩
    exact ⟨account, s, ha, hs, rfl⟩
  · rintro ⟨account, s, ha, hs, rfl⟩
    exact ⟨_, _, ⟨rfl, rfl⟩, account, _, ⟨ha, rfl⟩, s, hs, rfl⟩

theorem World.put_leave (w : World X) (a : Address) (account account' : Account)
    (s : SmartAccount.State X) : (w.put a account).leave a account' s = w.leave a account' s := by
  unfold World.leave World.put
  simp [Function.update_idem]

/-- The account that ran, and the others, after its run. -/
theorem World.leave_self (w : World X) (a : Address) (account : Account)
    (s : SmartAccount.State X) : (w.leave a account s).accounts a =
      some { account with storage := s.storage, egld := s.egld, esdt := s.esdt } :=
  Function.update_self ..

theorem World.leave_other (w : World X) {a b : Address} (account : Account)
    (s : SmartAccount.State X) (hb : b ≠ a) : (w.leave a account s).accounts b = w.accounts b :=
  Function.update_of_ne hb ..

theorem World.leave_cases {a b : Address} {account account' : Account} {s : SmartAccount.State X}
    (hb : (w.leave a account s).accounts b = some account') :
    (b = a ∧ account' = { account with storage := s.storage, egld := s.egld, esdt := s.esdt }) ∨
      (b ≠ a ∧ w.accounts b = some account') := by
  by_cases hba : b = a
  · subst hba
    exact Or.inl ⟨rfl, Option.some.inj (hb.symm.trans (w.leave_self b account s))⟩
  · exact Or.inr ⟨hba, (w.leave_other account s hba).symm.trans hb⟩

/-- A new account that has run `init`, or the account at `a` with its code replaced. -/
theorem commits_put_callAccount {caller a : Address} {value : Nat} {c : AccountCall}
    {account : Account} :
    Commits (callAccount C caller value a c) (w.put a account) () w' ↔
      ∃ s, Runs C (w.put a account) caller value a account c s ∧ w' = w.leave a account s := by
  rw [commits_callAccount]
  constructor
  · rintro ⟨account', s, ha, hs, rfl⟩
    have hacc : account = account' := by simpa [World.put] using ha
    subst hacc
    exact ⟨s, hs, w.put_leave a account account s⟩
  · rintro ⟨s, hs, rfl⟩
    exact ⟨account, s, by simp [World.put], hs, (w.put_leave a account account s).symm⟩

theorem commits_directEgld {dest : Address} {amount : Nat} {u : Unit} :
    Commits (directEgld dest amount) w u w' ↔
      amount ≤ w.egld ∧ w' = ((w.spend amount).credit dest amount).record (.directEgld dest amount) := by
  simp [directEgld]

/-- An account as it is put on the chain, before `init`. -/
def World.newAccount (w : World X) (code : Code) : Account where
  owner := w.self
  code := code
  storage := .blank
  egld := 0
  esdt _ := 0

theorem commits_deployFromSource {a template d : Address} {u : Unit} :
    Commits (deployFromSource C a template d) w u w' ↔
      a ≠ w.self ∧ w.accounts a = none ∧ ∃ code s, w.codeAt C template = some code ∧
        Runs C (w.put a (w.newAccount code)) w.self 0 a (w.newAccount code) (.init d) s ∧
        w' = w.leave a (w.newAccount code) s := by
  simp only [deployFromSource, commits_bind, commits_get, commits_require, commits_demand,
    commits_set, Option.isNone_iff_eq_none]
  constructor
  · rintro ⟨_, _, ⟨rfl, rfl⟩, _, _, ⟨⟨hself, hnone⟩, rfl⟩, code, _, ⟨hcode, rfl⟩, _, _, rfl, hc⟩
    obtain ⟨s, hs, rfl⟩ := commits_put_callAccount.mp hc
    exact ⟨hself, hnone, code, s, hcode, hs, rfl⟩
  · rintro ⟨hself, hnone, code, s, hcode, hs, rfl⟩
    exact ⟨_, _, ⟨rfl, rfl⟩, (), _, ⟨⟨hself, hnone⟩, rfl⟩, code, _, ⟨hcode, rfl⟩, ⟨⟩, _, rfl,
      commits_put_callAccount.mpr ⟨s, hs, rfl⟩⟩

theorem commits_upgradeFromSourceContract {a template : Address} :
    Commits (upgradeFromSourceContract C a template) w () w' ↔
      ∃ account code s, w.accounts a = some account ∧ account.owner = w.self ∧
        w.codeAt C template = some code ∧
        Runs C (w.put a { account with code }) w.self 0 a { account with code } .upgrade s ∧
        w' = w.leave a { account with code } s := by
  simp only [upgradeFromSourceContract, commits_bind, commits_get, commits_require,
    commits_demand, commits_set]
  constructor
  · rintro ⟨_, _, ⟨rfl, rfl⟩, account, _, ⟨ha, rfl⟩, _, _, ⟨howner, rfl⟩, code, _, ⟨hcode, rfl⟩,
      _, _, rfl, hc⟩
    obtain ⟨s, hs, rfl⟩ := commits_put_callAccount.mp hc
    exact ⟨account, code, s, ha, howner, hcode, hs, rfl⟩
  · rintro ⟨account, code, s, ha, howner, hcode, hs, rfl⟩
    exact ⟨_, _, ⟨rfl, rfl⟩, account, _, ⟨ha, rfl⟩, (), _, ⟨howner, rfl⟩, code, _, ⟨hcode, rfl⟩,
      ⟨⟩, _, rfl, commits_put_callAccount.mpr ⟨s, hs, rfl⟩⟩

/-! ## Endpoints -/

/-- The world after `deploySmartAccount` has put an account at `a`: the account
is registered and the fee paid out. -/
def World.deployed (w : World X) (caller a : Address) (account : Account)
    (s : SmartAccount.State X) : World X :=
  let registered := (w.leave a account s).store fun d =>
    { d with userSmartAccount := Function.update d.userSmartAccount caller (some a) }
  (registered.credit w.deployer.adminAddress w.deployer.smartAccountOpenFee).record
    (.directEgld w.deployer.adminAddress w.deployer.smartAccountOpenFee)

theorem World.deployed_frame (w : World X) (caller a : Address) (account : Account)
    (s : SmartAccount.State X) : (w.deployed caller a account s).self = w.self ∧
      (w.deployed caller a account s).owner = w.owner ∧
      (w.deployed caller a account s).deployer = { w.deployer with
        userSmartAccount := Function.update w.deployer.userSmartAccount caller (some a) } := by
  obtain ⟨hself, howner, hdeployer, _, _⟩ := World.credit_frame ((w.leave a account s).store
    fun d => { d with userSmartAccount := Function.update d.userSmartAccount caller (some a) })
    w.deployer.adminAddress w.deployer.smartAccountOpenFee
  exact ⟨hself, howner, hdeployer⟩

theorem World.deployed_log (w : World X) (caller a : Address) (account : Account)
    (s : SmartAccount.State X) : (w.deployed caller a account s).log =
      w.log ++ s.log.map (Event.account a) ++
        [.directEgld w.deployer.adminAddress w.deployer.smartAccountOpenFee] := by
  obtain ⟨_, _, _, _, hlog⟩ := World.credit_frame ((w.leave a account s).store
    fun d => { d with userSmartAccount := Function.update d.userSmartAccount caller (some a) })
    w.deployer.adminAddress w.deployer.smartAccountOpenFee
  exact congrArg (· ++ [Event.directEgld _ _]) hlog

theorem World.deployed_registered (w : World X) (caller a : Address) (account : Account)
    (s : SmartAccount.State X) :
    (w.deployed caller a account s).deployer.userSmartAccount caller = some a := by
  rw [(World.deployed_frame w caller a account s).2.2]
  exact Function.update_self ..

/-- The account a deployment leaves, but for EGLD that the fee may have added. -/
theorem World.deployed_account (w : World X) (caller a : Address) (account : Account)
    (s : SmartAccount.State X) : ∃ n, (w.deployed caller a account s).accounts a =
      some { account with storage := s.storage, egld := n, esdt := s.esdt } := by
  let registered := (w.leave a account s).store fun d =>
    { d with userSmartAccount := Function.update d.userSmartAccount caller (some a) }
  have hacc : registered.accounts a = some { account with
      storage := s.storage, egld := s.egld, esdt := s.esdt } := w.leave_self a account s
  rcases World.credit_accounts registered w.deployer.adminAddress w.deployer.smartAccountOpenFee a
    with heq | ⟨account', ha, heq⟩
  · exact ⟨_, heq.trans hacc⟩
  · cases hacc.symm.trans ha
    exact ⟨_, heq⟩

/-- An account that was there is left alone, but for EGLD that the fee may have added. -/
theorem World.deployed_kept (w : World X) (caller : Address) {a b : Address} (account : Account)
    (s : SmartAccount.State X) {account' : Account} (hfresh : w.accounts a = none)
    (hb : w.accounts b = some account') :
    ∃ n, (w.deployed caller a account s).accounts b = some { account' with egld := n } := by
  let registered := (w.leave a account s).store fun d =>
    { d with userSmartAccount := Function.update d.userSmartAccount caller (some a) }
  have hne : b ≠ a := by
    intro hba
    rw [hba, hfresh] at hb
    cases hb
  have hacc : registered.accounts b = some account' := (w.leave_other account s hne).trans hb
  rcases World.credit_accounts registered w.deployer.adminAddress w.deployer.smartAccountOpenFee b
    with heq | ⟨_, ha, heq⟩
  · exact ⟨_, heq.trans hacc⟩
  · cases hacc.symm.trans ha
    exact ⟨_, heq⟩

/-- Nothing else appears. -/
theorem World.deployed_absent (w : World X) (caller : Address) {a b : Address} (account : Account)
    (s : SmartAccount.State X) (hne : b ≠ a) (hb : w.accounts b = none) :
    (w.deployed caller a account s).accounts b = none := by
  let registered := (w.leave a account s).store fun d =>
    { d with userSmartAccount := Function.update d.userSmartAccount caller (some a) }
  have hacc : registered.accounts b = none := (w.leave_other account s hne).trans hb
  rcases World.credit_accounts registered w.deployer.adminAddress w.deployer.smartAccountOpenFee b
    with heq | ⟨_, ha, _⟩
  · exact heq.trans hacc
  · cases hacc.symm.trans ha

/-- The table of staking addresses after the pairs have been set, one by one. -/
def setPairs (f : TokenIdentifier → Option Address) (pairs : List (TokenIdentifier × Address)) :
    TokenIdentifier → Option Address :=
  Cells.replay f (pairs.map fun p => (p.1, some p.2))

theorem commits_setFarmStakingAddresses {pairs : List (TokenIdentifier × Address)} :
    ∀ {w : World X}, Commits (forM pairs (setFarmStakingAddress C)) w () w' ↔
      (∀ p ∈ pairs, C.isSmartContract p.2 = true) ∧ w' = w.store fun d =>
        { d with farmStakingAddressForToken := setPairs d.farmStakingAddressForToken pairs } := by
  induction pairs with
  | nil =>
      intro w
      simp [World.store, setPairs]
  | cons p pairs ih =>
      intro w
      simp only [commits_forM_cons, setFarmStakingAddress, commits_bind, commits_require,
        commits_modify, ih, List.forall_mem_cons]
      constructor
      · rintro ⟨_, ⟨_, _, ⟨hp, rfl⟩, rfl⟩, hall, rfl⟩
        exact ⟨⟨hp, hall⟩, rfl⟩
      · rintro ⟨⟨hp, hall⟩, rfl⟩
        exact ⟨_, ⟨(), _, ⟨hp, rfl⟩, rfl⟩, hall, rfl⟩

/-- What `setStrategiesPerEpoch` checks of its arguments. -/
structure Accepted (w : World X) (epoch : UInt64) (caller : Address) (r : UInt64)
    (tuples : List StrategyTuple) : Prop where
  admin : caller = w.deployer.adminAddress
  length : tuples.length ≤ maxStrategiesNo
  risk : r ≤ maxRiskTolerance
  vacant : w.deployer.strategies (epoch, r) = []
  total : Words.wrapSum (percentages (stepsOf tuples)) = maxPercentage

/-- The strategies table and the epoch cell after an accepted call. -/
def Storage.publish (d : Storage) (epoch r : UInt64) (steps : List Strategy) : Storage :=
  { d with
    strategies := Function.update d.strategies (epoch, r) steps
    lastStrategyEpoch := epoch }

theorem commits_setStrategiesPerEpoch {epoch r : UInt64} {caller : Address}
    {tuples : List StrategyTuple} :
    Commits (setStrategiesPerEpoch epoch caller r tuples) w () w' ↔
      Accepted w epoch caller r tuples ∧
        w' = w.store fun d => d.publish epoch r (stepsOf tuples) := by
  simp only [setStrategiesPerEpoch, commits_bind, commits_get, commits_require, commits_modify,
    foldl_collect, List.nil_append, UInt64.zero_add]
  constructor
  · rintro ⟨_, _, ⟨rfl, rfl⟩, _, _, ⟨h₁, rfl⟩, _, _, ⟨h₂, rfl⟩, _, _, ⟨h₃, rfl⟩, _, _, ⟨h₄, rfl⟩,
      _, _, ⟨h₅, rfl⟩, rfl⟩
    exact ⟨⟨h₁, h₂, h₃, h₄, h₅⟩, rfl⟩
  · rintro ⟨⟨h₁, h₂, h₃, h₄, h₅⟩, rfl⟩
    exact ⟨_, _, ⟨rfl, rfl⟩, (), _, ⟨h₁, rfl⟩, (), _, ⟨h₂, rfl⟩, (), _, ⟨h₃, rfl⟩, (), _, ⟨h₄, rfl⟩,
      (), _, ⟨h₅, rfl⟩, rfl⟩

/-- `init` and `upgrade` see nothing of the world but the state around it. -/
theorem runs_congr {caller a : Address} {value : Nat} {account : Account} {c : AccountCall}
    {s : SmartAccount.State X} (hc : ∀ r L, c ≠ .setupSmartAccount r L) (he : w.ext = w'.ext) :
    Runs C w caller value a account c s ↔ Runs C w' caller value a account c s := by
  have hbody : c.body C w account.code caller value = c.body C w' account.code caller value := by
    unfold AccountCall.body
    cases account.code with
    | other n => rfl
    | smartAccount =>
        cases c with
        | init d => rfl
        | upgrade => rfl
        | setupSmartAccount r L => exact absurd rfl (hc r L)
  have henter : w.enter a account = w'.enter a account := by
    rw [World.enter, World.enter, he]
  rw [Runs, Runs, hbody, henter]

theorem commits_deploySmartAccount {caller a b : Address} {value : Nat} :
    Commits (deploySmartAccount C caller value a) (w.receive value) b w' ↔
      value = w.deployer.smartAccountOpenFee ∧ w.deployer.userSmartAccount caller = none ∧
      a ≠ w.self ∧ w.accounts a = none ∧ b = a ∧
      ∃ code s, w.codeAt C w.deployer.smartAccountTemplateAddress = some code ∧
        Runs C w w.self 0 a (w.newAccount code) (.init w.self) s ∧
        w' = w.deployed caller a (w.newAccount code) s := by
  have hspend : ∀ account (s : SmartAccount.State X) f,
      (((w.receive value).leave a account s).store f).spend value = (w.leave a account s).store f := by
    intro account s f
    cases w
    simp [World.receive, World.leave, World.store, World.spend]
  simp only [deploySmartAccount, commits_bind, commits_get, commits_require, commits_modify,
    commits_deployFromSource, commits_directEgld, commits_pure, Option.isNone_iff_eq_none]
  constructor
  · rintro ⟨_, _, ⟨rfl, rfl⟩, _, _, ⟨hfee, rfl⟩, _, _, ⟨hnone, rfl⟩, _, _,
      ⟨hself, hfresh, code, s, hcode, hs, rfl⟩, _, _, rfl, _, _, ⟨rfl, rfl⟩, _, _, ⟨_, rfl⟩, rfl, rfl⟩
    have hfee' : value = w.deployer.smartAccountOpenFee := hfee
    refine ⟨hfee', hnone, hself, hfresh, rfl, code, s, hcode, ?_, ?_⟩
    · refine (runs_congr ?_ ?_).mp hs
      · intro r L hc; cases hc
      · rfl
    · rw [hspend]
      rw [World.deployed, ← hfee']
      rfl
  · rintro ⟨hfee, hnone, hself, hfresh, rfl, code, s, hcode, hs, rfl⟩
    refine ⟨_, _, ⟨rfl, rfl⟩, (), _, ⟨hfee, rfl⟩, (), _, ⟨hnone, rfl⟩, (), _,
      ⟨hself, hfresh, code, s, hcode, ?_, rfl⟩, ⟨⟩, _, rfl, _, _, ⟨rfl, rfl⟩, (), _,
      ⟨?_, rfl⟩, rfl, ?_⟩
    · refine (runs_congr ?_ ?_).mp hs
      · intro r L hc; cases hc
      · rfl
    · exact Nat.le_add_left _ _
    · rw [hspend]
      rw [World.deployed, ← hfee]
      rfl

theorem commits_upgradeSmartAccount {caller : Address} :
    Commits (upgradeSmartAccount C caller) w () w' ↔
      ∃ a account code s, w.deployer.userSmartAccount caller = some a ∧
        w.accounts a = some account ∧ account.owner = w.self ∧
        w.codeAt C w.deployer.smartAccountTemplateAddress = some code ∧
        Runs C w w.self 0 a { account with code } .upgrade s ∧
        w' = w.leave a { account with code } s := by
  have hruns : ∀ a (account : Account) s, Runs C (w.put a account) w.self 0 a account .upgrade s ↔
      Runs C w w.self 0 a account .upgrade s := by
    intro a account s
    refine runs_congr ?_ ?_
    · intro r L hc; cases hc
    · rfl
  simp only [upgradeSmartAccount, commits_bind, commits_get, commits_demand,
    commits_upgradeFromSourceContract]
  constructor
  · rintro ⟨_, _, ⟨rfl, rfl⟩, a, _, ⟨hu, rfl⟩, account, code, s, ha, howner, hcode, hs, rfl⟩
    exact ⟨a, account, code, s, hu, ha, howner, hcode, (hruns _ _ _).mp hs, rfl⟩
  · rintro ⟨a, account, code, s, hu, ha, howner, hcode, hs, rfl⟩
    exact ⟨_, _, ⟨rfl, rfl⟩, a, _, ⟨hu, rfl⟩, account, code, s, ha, howner, hcode,
      (hruns _ _ _).mpr hs, rfl⟩

/-- The list `initializeSmartAccount` of risk tolerance `r` forwards. -/
def World.served (w : World X) (r : UInt64) : List Strategy :=
  w.deployer.strategies (w.deployer.lastStrategyEpoch, r)

theorem commits_initializeSmartAccount {caller : Address} {value : Nat} {r : UInt64} :
    Commits (initializeSmartAccount C caller value r) (w.receive value) () w' ↔
      ∃ a account s, w.deployer.userSmartAccount caller = some a ∧ w.served r ≠ [] ∧
        w.accounts a = some account ∧
        Runs C w w.self value a account (.setupSmartAccount r (w.served r)) s ∧
        w' = w.leave a account s := by
  simp only [initializeSmartAccount, commits_bind, commits_get, commits_require, commits_demand,
    commits_modify, commits_callAccount]
  constructor
  · rintro ⟨_, _, ⟨rfl, rfl⟩, a, _, ⟨hu, rfl⟩, _, _, ⟨hL, rfl⟩, _, _, ⟨_, rfl⟩, _, _, rfl,
      account, s, ha, hs, rfl⟩
    rw [World.receive_spend] at ha hs ⊢
    exact ⟨a, account, s, hu, hL, ha, hs, rfl⟩
  · rintro ⟨a, account, s, hu, hL, ha, hs, rfl⟩
    refine ⟨_, _, ⟨rfl, rfl⟩, a, _, ⟨hu, rfl⟩, (), _, ⟨hL, rfl⟩, (), _, ⟨?_, rfl⟩, ⟨⟩, _, rfl, ?_⟩
    · exact Nat.le_add_left _ _
    · rw [World.receive_spend]
      exact ⟨account, s, ha, hs, rfl⟩

/-! ## Transactions -/

/-- `Effect C tx w w'`: the guards of a committed transaction, and the world it
leads to. -/
inductive Effect (C : Chain X) (tx : Transaction) (w : World X) : World X → Prop
  | updateSmartAccountTemplate {t : Address} :
      tx.call = .updateSmartAccountTemplate t → tx.value = 0 → C.isSmartContract t = true →
      Effect C tx w (w.store fun d => { d with smartAccountTemplateAddress := t })
  | deploySmartAccount {code : Code} {s : SmartAccount.State X} :
      tx.call = .deploySmartAccount → tx.value = w.deployer.smartAccountOpenFee →
      w.deployer.userSmartAccount tx.caller = none →
      tx.newAddress ≠ w.self → w.accounts tx.newAddress = none →
      w.codeAt C w.deployer.smartAccountTemplateAddress = some code →
      Runs C w w.self 0 tx.newAddress (w.newAccount code) (.init w.self) s →
      Effect C tx w (w.deployed tx.caller tx.newAddress (w.newAccount code) s)
  | upgradeSmartAccount {a : Address} {account : Account} {code : Code}
      {s : SmartAccount.State X} :
      tx.call = .upgradeSmartAccount → tx.value = 0 →
      w.deployer.userSmartAccount tx.caller = some a →
      w.accounts a = some account → account.owner = w.self →
      w.codeAt C w.deployer.smartAccountTemplateAddress = some code →
      Runs C w w.self 0 a { account with code } .upgrade s →
      Effect C tx w (w.leave a { account with code } s)
  | initializeSmartAccount {r : UInt64} {a : Address} {account : Account}
      {s : SmartAccount.State X} :
      tx.call = .initializeSmartAccount r →
      w.deployer.userSmartAccount tx.caller = some a → w.served r ≠ [] →
      w.accounts a = some account →
      Runs C w w.self tx.value a account (.setupSmartAccount r (w.served r)) s →
      Effect C tx w (w.leave a account s)
  | setFarmStakingAddressForToken {pairs : List (TokenIdentifier × Address)} :
      tx.call = .setFarmStakingAddressForToken pairs → tx.value = 0 → tx.caller = w.owner →
      (∀ p ∈ pairs, C.isSmartContract p.2 = true) →
      Effect C tx w (w.store fun d =>
        { d with farmStakingAddressForToken := setPairs d.farmStakingAddressForToken pairs })
  | setAdminAddress {adminAddress : Address} :
      tx.call = .setAdminAddress adminAddress → tx.value = 0 → tx.caller = w.owner →
      adminAddress ≠ 0 →
      Effect C tx w (w.store fun d => { d with adminAddress })
  | setStrategiesPerEpoch {r : UInt64} {tuples : List StrategyTuple} :
      tx.call = .setStrategiesPerEpoch r tuples → tx.value = 0 →
      Accepted w tx.epoch tx.caller r tuples →
      Effect C tx w (w.store fun d => d.publish tx.epoch r (stepsOf tuples))
  | quiet : (tx.call = .upgrade ∧ tx.caller = w.owner) ∨ tx.call = .view → tx.value = 0 →
      Effect C tx w w
  | setupSmartAccount {a : Address} {r : UInt64} {L : List Strategy} {account : Account}
      {s : SmartAccount.State X} :
      tx.call = .setupSmartAccount a r L → w.accounts a = some account →
      Runs C w tx.caller tx.value a account (.setupSmartAccount r L) s →
      Effect C tx w (w.leave a account s)

/-- The inversion of `dispatch`. -/
theorem effect_of_commits {tx : Transaction} (h : Commits (dispatch C tx) w () w') :
    Effect C tx w w' := by
  unfold dispatch at h
  cases hcall : tx.call with
  | updateSmartAccountTemplate t =>
      simp only [hcall, notPayable, updateSmartAccountTemplate, commits_bind, commits_require,
        commits_modify] at h
      obtain ⟨_, _, ⟨hv, rfl⟩, _, _, ⟨hsc, rfl⟩, rfl⟩ := h
      exact .updateSmartAccountTemplate hcall hv hsc
  | deploySmartAccount =>
      simp only [hcall, receiveEgld, commits_bind, commits_modify, commits_pure] at h
      obtain ⟨_, _, rfl, b, m, hd, _, rfl⟩ := h
      obtain ⟨hfee, hnone, hself, hfresh, _, code, s, hcode, hs, rfl⟩ :=
        commits_deploySmartAccount.mp hd
      exact .deploySmartAccount hcall hfee hnone hself hfresh hcode hs
  | upgradeSmartAccount =>
      simp only [hcall, notPayable, commits_bind, commits_require,
        commits_upgradeSmartAccount] at h
      obtain ⟨_, _, ⟨hv, rfl⟩, a, account, code, s, hu, ha, howner, hcode, hs, rfl⟩ := h
      exact .upgradeSmartAccount hcall hv hu ha howner hcode hs
  | initializeSmartAccount r =>
      simp only [hcall, receiveEgld, commits_bind, commits_modify] at h
      obtain ⟨_, _, rfl, hi⟩ := h
      obtain ⟨a, account, s, hu, hL, ha, hs, rfl⟩ := commits_initializeSmartAccount.mp hi
      exact .initializeSmartAccount hcall hu hL ha hs
  | setFarmStakingAddressForToken pairs =>
      simp only [hcall, notPayable, setFarmStakingAddressForToken, onlyOwner, commits_bind,
        commits_get, commits_require, commits_setFarmStakingAddresses] at h
      obtain ⟨_, _, ⟨hv, rfl⟩, _, _, ⟨_, _, ⟨rfl, rfl⟩, ho, rfl⟩, hall, rfl⟩ := h
      exact .setFarmStakingAddressForToken hcall hv ho hall
  | setAdminAddress a =>
      simp only [hcall, notPayable, setAdminAddress, onlyOwner, commits_bind, commits_get,
        commits_require, commits_modify] at h
      obtain ⟨_, _, ⟨hv, rfl⟩, _, _, ⟨_, _, ⟨rfl, rfl⟩, ho, rfl⟩, _, _, ⟨hne, rfl⟩, rfl⟩ := h
      exact .setAdminAddress hcall hv ho hne
  | setStrategiesPerEpoch r tuples =>
      simp only [hcall, notPayable, commits_bind, commits_require,
        commits_setStrategiesPerEpoch] at h
      obtain ⟨_, _, ⟨hv, rfl⟩, hacc, rfl⟩ := h
      exact .setStrategiesPerEpoch hcall hv hacc
  | upgrade =>
      simp only [hcall, notPayable, onlyOwner, upgrade, commits_bind, commits_get,
        commits_require, commits_pure] at h
      obtain ⟨_, _, ⟨hv, rfl⟩, _, _, ⟨_, _, ⟨rfl, rfl⟩, ho, rfl⟩, _, rfl⟩ := h
      exact .quiet (Or.inl ⟨hcall, ho⟩) hv
  | view =>
      simp only [hcall, notPayable, commits_require] at h
      obtain ⟨hv, rfl⟩ := h
      exact .quiet (Or.inr hcall) hv
  | setupSmartAccount a r L =>
      simp only [hcall, commits_callAccount] at h
      obtain ⟨account, s, ha, hs, rfl⟩ := h
      exact .setupSmartAccount hcall ha hs

/-- Nothing more is asked of a transaction than the guards of its effect. -/
theorem commits_of_effect {tx : Transaction} (h : Effect C tx w w') :
    Commits (dispatch C tx) w () w' := by
  unfold dispatch
  cases h with
  | updateSmartAccountTemplate hcall hv hsc =>
      simp only [hcall, notPayable, updateSmartAccountTemplate, commits_bind, commits_require,
        commits_modify]
      exact ⟨(), _, ⟨hv, rfl⟩, (), _, ⟨hsc, rfl⟩, rfl⟩
  | deploySmartAccount hcall hfee hnone hself hfresh hcode hs =>
      simp only [hcall, receiveEgld, commits_bind, commits_modify, commits_pure]
      exact ⟨⟨⟩, _, rfl, _, _, commits_deploySmartAccount.mpr
        ⟨hfee, hnone, hself, hfresh, rfl, _, _, hcode, hs, rfl⟩, trivial, rfl⟩
  | upgradeSmartAccount hcall hv hu ha howner hcode hs =>
      simp only [hcall, notPayable, commits_bind, commits_require, commits_upgradeSmartAccount]
      exact ⟨(), _, ⟨hv, rfl⟩, _, _, _, _, hu, ha, howner, hcode, hs, rfl⟩
  | initializeSmartAccount hcall hu hL ha hs =>
      simp only [hcall, receiveEgld, commits_bind, commits_modify]
      exact ⟨⟨⟩, _, rfl, commits_initializeSmartAccount.mpr ⟨_, _, _, hu, hL, ha, hs, rfl⟩⟩
  | setFarmStakingAddressForToken hcall hv ho hall =>
      simp only [hcall, notPayable, setFarmStakingAddressForToken, onlyOwner, commits_bind,
        commits_get, commits_require, commits_setFarmStakingAddresses]
      exact ⟨(), _, ⟨hv, rfl⟩, (), _, ⟨_, _, ⟨rfl, rfl⟩, ho, rfl⟩, hall, rfl⟩
  | setAdminAddress hcall hv ho hne =>
      simp only [hcall, notPayable, setAdminAddress, onlyOwner, commits_bind, commits_get,
        commits_require, commits_modify]
      exact ⟨(), _, ⟨hv, rfl⟩, (), _, ⟨_, _, ⟨rfl, rfl⟩, ho, rfl⟩, (), _, ⟨hne, rfl⟩, rfl⟩
  | setStrategiesPerEpoch hcall hv hacc =>
      simp only [hcall, notPayable, commits_bind, commits_require, commits_setStrategiesPerEpoch]
      exact ⟨(), _, ⟨hv, rfl⟩, hacc, rfl⟩
  | quiet hcall hv =>
      rcases hcall with ⟨hcall, ho⟩ | hcall
      · simp only [hcall, notPayable, onlyOwner, upgrade, commits_bind, commits_get,
          commits_require, commits_pure]
        exact ⟨(), _, ⟨hv, rfl⟩, (), _, ⟨_, _, ⟨rfl, rfl⟩, ho, rfl⟩, trivial, rfl⟩
      · simp only [hcall, notPayable, commits_require]
        exact ⟨hv, trivial⟩
  | setupSmartAccount hcall ha hs =>
      simp only [hcall, commits_callAccount]
      exact ⟨_, _, ha, hs, rfl⟩

end Deployer

end PortfolioPilot
