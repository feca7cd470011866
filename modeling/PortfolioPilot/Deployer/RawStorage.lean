/-
# `Deployer.RawStorage` — the deployer's storage as bytes under keys

On the chain there are no named cells: a mapper of either contract is a key, the bytes
of its name followed by the encodings of its arguments, and a value is a byte string,
empty when nothing is stored.  The deployer gets its keys from its mappers
(`Cell.key`); an account puts together the keys of the two deployer cells it reads by
hand, from constants of its own.

Distinct mappers with arguments have distinct keys (`Cell.key_injective`).  So what a run
leaves under the keys is the deployer's storage, cell by cell (`raw_refines`), and the
account reads the cell it means (`account_reads`).
-/
import PortfolioPilot.Deployer.Accounts
import PortfolioPilot.Deployer.Strategies
import PortfolioPilot.Lib.Bytes

namespace PortfolioPilot

namespace Deployer

open Revert
open Bytes
open SmartAccount (PositionType Strategy)

/-! ## Mappers and their keys -/

/-- The storage mappers of `lib.rs`, `config.rs` and `strategies.rs`. -/
inductive Mapper where
  | userSmartAccount
  | adminAddress
  | smartAccountOpenFee
  | smartAccountTemplateAddress
  | farmStakingAddressForToken
  | egldWrapperAddress
  | strategies
  | lastStrategyEpoch
  deriving DecidableEq, Repr

/-- The name in `#[storage_mapper(..)]`. -/
def Mapper.name : Mapper → Bytes
  | .userSmartAccount => ascii "userSmartAccount"
  | .adminAddress => ascii "adminAddress"
  | .smartAccountOpenFee => ascii "smartAccountOpenFee"
  | .smartAccountTemplateAddress => ascii "smartAccountTemplateAddress"
  | .farmStakingAddressForToken => ascii "farmStakingAddressForToken"
  | .egldWrapperAddress => ascii "egldWrapperAddress"
  | .strategies => ascii "strategies"
  | .lastStrategyEpoch => ascii "lastStrategyEpoch"

theorem Mapper.name_prefixFree : PrefixFree Mapper.name := by
  intro m m' h
  revert h
  cases m <;> cases m' <;> decide

/-- A mapper with its arguments. -/
inductive Cell where
  | userSmartAccount (user : Address)
  | adminAddress
  | smartAccountOpenFee
  | smartAccountTemplateAddress
  | farmStakingAddressForToken (tokenId : TokenIdentifier)
  | egldWrapperAddress
  | strategies (epoch riskTolerance : UInt64)
  | lastStrategyEpoch
  deriving DecidableEq, Repr

def Cell.mapper : Cell → Mapper
  | .userSmartAccount _ => .userSmartAccount
  | .adminAddress => .adminAddress
  | .smartAccountOpenFee => .smartAccountOpenFee
  | .smartAccountTemplateAddress => .smartAccountTemplateAddress
  | .farmStakingAddressForToken _ => .farmStakingAddressForToken
  | .egldWrapperAddress => .egldWrapperAddress
  | .strategies _ _ => .strategies
  | .lastStrategyEpoch => .lastStrategyEpoch

/-! ### Nested encodings -/

def nestedU64 (n : UInt64) : Bytes := bigEndian 8 n.toNat

def nestedAddress (a : Address) : Bytes := bigEndian 32 a.toNat

def nestedTokenIdentifier (t : TokenIdentifier) : Bytes := framed t

theorem nestedU64_injective {m n : UInt64} (h : nestedU64 m = nestedU64 n) : m = n :=
  UInt64.toNat_inj.mp (bigEndian_injective m.toNat_lt n.toNat_lt h)

theorem nestedAddress_injective {a b : Address} (h : nestedAddress a = nestedAddress b) : a = b :=
  BitVec.eq_of_toNat_eq (bigEndian_injective a.isLt b.isLt h)

/-- The arguments of a mapper, one after the other. -/
def Cell.args : Cell → Bytes
  | .userSmartAccount user => nestedAddress user
  | .farmStakingAddressForToken tokenId => nestedTokenIdentifier tokenId
  | .strategies epoch riskTolerance => nestedU64 epoch ++ nestedU64 riskTolerance
  | .adminAddress | .smartAccountOpenFee | .smartAccountTemplateAddress | .egldWrapperAddress
  | .lastStrategyEpoch => []

/-- The raw storage key. -/
def Cell.key (c : Cell) : Bytes := c.mapper.name ++ c.args

theorem Cell.eq_of_args {c c' : Cell} (hm : c.mapper = c'.mapper) (ha : c.args = c'.args) :
    c = c' := by
  cases c with
  | userSmartAccount user =>
      cases c' with
      | userSmartAccount user' => rw [nestedAddress_injective ha]
      | _ => cases hm
  | farmStakingAddressForToken tokenId =>
      cases c' with
      | farmStakingAddressForToken tokenId' => rw [framed_injective ha]
      | _ => cases hm
  | strategies epoch riskTolerance =>
      cases c' with
      | strategies epoch' riskTolerance' =>
          have hlength : (nestedU64 epoch).length = (nestedU64 epoch').length := by
            rw [nestedU64, nestedU64, length_bigEndian, length_bigEndian]
          obtain ⟨he, hr⟩ := List.append_inj ha hlength
          rw [nestedU64_injective he, nestedU64_injective hr]
      | _ => cases hm
  | adminAddress => cases c' <;> first | rfl | cases hm
  | smartAccountOpenFee => cases c' <;> first | rfl | cases hm
  | smartAccountTemplateAddress => cases c' <;> first | rfl | cases hm
  | egldWrapperAddress => cases c' <;> first | rfl | cases hm
  | lastStrategyEpoch => cases c' <;> first | rfl | cases hm

/-- **Distinct mappers with arguments have distinct raw keys.** -/
theorem Cell.key_injective : Function.Injective Cell.key := by
  intro c c' h
  obtain ⟨hm, ha⟩ := Mapper.name_prefixFree.append_inj h
  exact Cell.eq_of_args hm ha

/-! ## Values -/

def nestedPositionType : PositionType → Bytes
  | .esdt => [0]
  | .staking => [1]
  | .lp => [2]
  | .farm => [3]

def nestedStrategy (s : Strategy) : Bytes :=
  nestedU64 s.percentage ++ nestedPositionType s.positionType ++ nestedAddress s.contractAddress ++
    nestedTokenIdentifier s.outputTokenId

/-- A `ManagedVec` is stored as its items, one after the other. -/
def topStrategies (strategies : List Strategy) : Bytes := strategies.flatMap nestedStrategy

/-- An address cell, which may be empty. -/
def topAddress : Option Address → Bytes
  | some a => nestedAddress a
  | none => []

/-- The value of a cell as it is stored. -/
def Storage.bytes (d : Storage) : Cell → Bytes
  | .userSmartAccount user => topAddress (d.userSmartAccount user)
  | .adminAddress => nestedAddress d.adminAddress
  | .smartAccountOpenFee => shortest d.smartAccountOpenFee
  | .smartAccountTemplateAddress => nestedAddress d.smartAccountTemplateAddress
  | .farmStakingAddressForToken tokenId => topAddress (d.farmStakingAddressForToken tokenId)
  | .egldWrapperAddress => nestedAddress d.egldWrapperAddress
  | .strategies epoch riskTolerance => topStrategies (d.strategies (epoch, riskTolerance))
  | .lastStrategyEpoch => shortest d.lastStrategyEpoch.toNat

/-! ## What is set -/

/-- The `set`s of `init`, in order. -/
def initSets (smartAccountOpenFee : Nat) (adminAddress smartAccountTemplateAddress
    egldWrapperAddress : Address) : List (Cell × Bytes) :=
  [(.smartAccountOpenFee, shortest smartAccountOpenFee),
    (.adminAddress, nestedAddress adminAddress),
    (.smartAccountTemplateAddress, nestedAddress smartAccountTemplateAddress),
    (.egldWrapperAddress, nestedAddress egldWrapperAddress)]

/-- The `set`s of a committed transaction, in order. -/
def Transaction.sets (tx : Transaction) : List (Cell × Bytes) :=
  match tx.call with
  | .updateSmartAccountTemplate smartAccountTemplateAddress =>
      [(.smartAccountTemplateAddress, nestedAddress smartAccountTemplateAddress)]
  | .deploySmartAccount => [(.userSmartAccount tx.caller, nestedAddress tx.newAddress)]
  | .setFarmStakingAddressForToken pairs =>
      pairs.map fun p => (.farmStakingAddressForToken p.1, nestedAddress p.2)
  | .setAdminAddress adminAddress => [(.adminAddress, nestedAddress adminAddress)]
  | .setStrategiesPerEpoch r tuples =>
      [(.strategies tx.epoch r, topStrategies (stepsOf tuples)),
        (.lastStrategyEpoch, shortest tx.epoch.toNat)]
  | .upgradeSmartAccount | .initializeSmartAccount _ | .upgrade | .view | .setupSmartAccount .. => []

/-- One `set`, seen in the values of all cells. -/
theorem Storage.bytes_set {d d' : Storage} {c : Cell} {v : Bytes} (hset : d'.bytes c = v)
    (hrest : ∀ c', c' ≠ c → d'.bytes c' = d.bytes c') :
    d'.bytes = Function.update d.bytes c v :=
  Function.eq_update_iff.mpr ⟨hset, hrest⟩

/-- One `set` of a mapper with an argument: the entry `k` of its table becomes `v`. -/
theorem bytes_setKeyed {K V : Type} [DecidableEq K] (cell : K → Cell) (encode : V → Bytes)
    {d d' : Storage} {f : K → V} {k : K} {v : V} (hbefore : ∀ k, d.bytes (cell k) = encode (f k))
    (hafter : ∀ k', d'.bytes (cell k') = encode (Function.update f k v k'))
    (hrest : ∀ c, (∀ k, c ≠ cell k) → d'.bytes c = d.bytes c) :
    d'.bytes = Function.update d.bytes (cell k) (encode v) := by
  refine Storage.bytes_set ?_ fun c hc => ?_
  · rw [hafter, Function.update_self]
  · by_cases hcell : ∃ k', c = cell k'
    · obtain ⟨k', rfl⟩ := hcell
      have hne : k' ≠ k := by
        intro hk
        rw [hk] at hc
        exact hc rfl
      rw [hafter, Function.update_of_ne hne, hbefore]
    · exact hrest c fun k' hk => hcell ⟨k', hk⟩

theorem bytes_setUser (d : Storage) (user a : Address) :
    Storage.bytes { d with userSmartAccount := Function.update d.userSmartAccount user (some a) } =
      Function.update d.bytes (.userSmartAccount user) (nestedAddress a) := by
  refine bytes_setKeyed Cell.userSmartAccount topAddress (f := d.userSmartAccount) (k := user)
    (v := some a) (fun _ => rfl) (fun _ => rfl) fun c hc => ?_
  cases c with
  | userSmartAccount user => exact absurd rfl (hc user)
  | _ => rfl

theorem bytes_setStaking (d : Storage) (tokenId : TokenIdentifier) (a : Address) :
    Storage.bytes { d with
      farmStakingAddressForToken :=
        Function.update d.farmStakingAddressForToken tokenId (some a) } =
      Function.update d.bytes (.farmStakingAddressForToken tokenId) (nestedAddress a) := by
  refine bytes_setKeyed Cell.farmStakingAddressForToken topAddress
    (f := d.farmStakingAddressForToken) (k := tokenId) (v := some a) (fun _ => rfl) (fun _ => rfl)
    fun c hc => ?_
  cases c with
  | farmStakingAddressForToken tokenId => exact absurd rfl (hc tokenId)
  | _ => rfl

theorem bytes_setStrategies (d : Storage) (epoch r : UInt64) (strategies : List Strategy) :
    Storage.bytes { d with strategies := Function.update d.strategies (epoch, r) strategies } =
      Function.update d.bytes (.strategies epoch r) (topStrategies strategies) := by
  refine bytes_setKeyed (fun k : UInt64 × UInt64 => Cell.strategies k.1 k.2) topStrategies
    (f := d.strategies) (k := (epoch, r)) (v := strategies) (fun _ => rfl) (fun _ => rfl)
    fun c hc => ?_
  cases c with
  | strategies epoch r => exact absurd rfl (hc (epoch, r))
  | _ => rfl

theorem bytes_setPairs (pairs : List (TokenIdentifier × Address)) :
    ∀ d : Storage, Storage.bytes { d with
      farmStakingAddressForToken := setPairs d.farmStakingAddressForToken pairs } =
      Cells.replay d.bytes
        (pairs.map fun p => (.farmStakingAddressForToken p.1, nestedAddress p.2)) := by
  induction pairs with
  | nil =>
      intro d
      rfl
  | cons p pairs ih =>
      intro d
      rw [List.map_cons, Cells.replay_cons, ← bytes_setStaking]
      exact ih { d with
        farmStakingAddressForToken := Function.update d.farmStakingAddressForToken p.1 (some p.2) }

/-- What a committed transaction writes to the storage is what it sets. -/
theorem Transaction.write_bytes (tx : Transaction) (d : Storage) :
    (tx.write d).bytes = Cells.replay d.bytes tx.sets := by
  unfold Transaction.write Transaction.sets
  cases tx.call with
  | updateSmartAccountTemplate a =>
      refine Storage.bytes_set rfl fun c hc => ?_
      cases c with
      | smartAccountTemplateAddress => exact absurd rfl hc
      | _ => rfl
  | deploySmartAccount => exact bytes_setUser d tx.caller tx.newAddress
  | setFarmStakingAddressForToken pairs => exact bytes_setPairs pairs d
  | setAdminAddress a =>
      refine Storage.bytes_set rfl fun c hc => ?_
      cases c with
      | adminAddress => exact absurd rfl hc
      | _ => rfl
  | setStrategiesPerEpoch r tuples =>
      -- the list first, then the epoch
      rw [Cells.replay_cons, ← bytes_setStrategies]
      refine Storage.bytes_set rfl fun c hc => ?_
      cases c with
      | lastStrategyEpoch => exact absurd rfl hc
      | _ => rfl
  | upgradeSmartAccount => rfl
  | initializeSmartAccount r => rfl
  | upgrade => rfl
  | view => rfl
  | setupSmartAccount account r strategies => rfl

/-! ## The raw storage of a run -/

/-- The value under each key, empty where nothing is stored. -/
abbrev Raw := Bytes → Bytes

/-- The storage after the `set`s of `sets`, in order. -/
def Raw.after (raw : Raw) (sets : List (Cell × Bytes)) : Raw :=
  Cells.replay raw (sets.map fun s => (s.1.key, s.2))

/-- What a deployer has stored that was set up by `init` and has since served `txs`. -/
def rawStorage (smartAccountOpenFee : Nat) (adminAddress smartAccountTemplateAddress
    egldWrapperAddress : Address) (txs : List Transaction) : Raw :=
  Raw.after (fun _ => []) (initSets smartAccountOpenFee adminAddress smartAccountTemplateAddress
    egldWrapperAddress ++ txs.flatMap Transaction.sets)

section Run

variable {X : Type} {C : Chain X} {w₀ w : World X} {h : List (Entry (World X) Label)}
  {self owner adminAddress template wrapper : Address} {ext : X} {fee : Nat}

theorem init_bytes
    (hinit : Commits (init C fee adminAddress template wrapper) (World.fresh self owner ext) () w₀) :
    w₀.deployer.bytes = Cells.replay (fun _ => []) (initSets fee adminAddress template wrapper) := by
  simp only [init, commits_bind, commits_require, commits_modify] at hinit
  obtain ⟨_, _, ⟨_, rfl⟩, _, _, ⟨_, rfl⟩, rfl⟩ := hinit
  funext c
  cases c with
  | lastStrategyEpoch =>
      show shortest 0 = []
      simp [shortest]
  | _ => rfl

theorem foldl_write_bytes (txs : List Transaction) :
    ∀ d : Storage, (txs.foldl (fun d tx => tx.write d) d).bytes =
      Cells.replay d.bytes (txs.flatMap Transaction.sets) := by
  induction txs with
  | nil =>
      intro d
      rfl
  | cons tx txs ih =>
      intro d
      rw [List.foldl_cons, ih, tx.write_bytes, List.flatMap_cons, Cells.replay_append]

/-- **Refinement.**  Under the key of every cell is what the deployer has stored in it. -/
theorem raw_refines
    (hinit : Commits (init C fee adminAddress template wrapper) (World.fresh self owner ext) () w₀)
    (t : Run C w₀ h w) (c : Cell) :
    rawStorage fee adminAddress template wrapper (committed h) c.key = w.deployer.bytes c := by
  rw [storage_refines t, foldl_write_bytes, init_bytes hinit, ← Cells.replay_append]
  exact Cells.replay_map Cell.key_injective _ c _

/-! ## What the account reads -/

/-- `FARM_STAKING_ADDRESS_STORAGE_KEY` of `farm_staking_actions.rs` -/
def farmStakingAddressStorageKey : Bytes := ascii "farmStakingAddressForToken"

/-- `EGLD_WRAPPER_STORAGE_KEY` of `egld_wrapper_actions.rs` -/
def egldWrapperStorageKey : Bytes := ascii "egldWrapperAddress"

/-- `StorageKey::append_item` of a token identifier. -/
def appendItem (storageKey : Bytes) (tokenId : TokenIdentifier) : Bytes :=
  storageKey ++ nestedTokenIdentifier tokenId

/-- The key of `get_farm_staking_address_mapper`. -/
def farmStakingKey (tokenId : TokenIdentifier) : Bytes :=
  appendItem farmStakingAddressStorageKey tokenId

/-- A `SingleValueMapper<ManagedAddress>` read: an empty value, like any other that is not
32 bytes long, does not decode. -/
def readAddress (raw : Raw) (key : Bytes) : Option Address :=
  if (raw key).length = 32 then some (BitVec.ofNat 256 (number (raw key))) else none

theorem readAddress_of_topAddress {raw : Raw} {key : Bytes} {a : Option Address}
    (h : raw key = topAddress a) : readAddress raw key = a := by
  unfold readAddress
  rw [h]
  cases a with
  | none => rfl
  | some a =>
      have hlength : (nestedAddress a).length = 32 := length_bigEndian 32 a.toNat
      have hnumber : number (nestedAddress a) = a.toNat := number_bigEndian a.isLt
      show (if (nestedAddress a).length = 32 then
        some (BitVec.ofNat 256 (number (nestedAddress a))) else none) = some a
      rw [if_pos hlength, hnumber, BitVec.ofNat_toNat, BitVec.setWidth_eq]

/-- The staking address of the last pair that names the token. -/
def lastNaming (tokenId : TokenIdentifier) (pairs : List (TokenIdentifier × Address)) :
    Option Address :=
  (pairs.reverse.find? fun p => p.1 = tokenId).map Prod.snd

/-- The staking address of the last pair that names the token, in the latest batch that
does. -/
def latestStaking (tokenId : TokenIdentifier) (txs : List Transaction) : Option Address :=
  txs.reverse.findSome? fun tx => lastNaming tokenId tx.stakings

theorem setPairs_eq (f : TokenIdentifier → Option Address) (tokenId : TokenIdentifier)
    (pairs : List (TokenIdentifier × Address)) :
    setPairs f pairs tokenId = (lastNaming tokenId pairs).or (f tokenId) := by
  induction pairs using List.reverseRecOn with
  | nil => rfl
  | append_singleton pairs p ih =>
      unfold setPairs lastNaming at ih ⊢
      rw [List.map_append, List.map_singleton, Cells.replay_concat, List.reverse_concat,
        List.find?_cons]
      by_cases hp : p.1 = tokenId
      · rw [hp, Function.update_self]
        simp
      · rw [Function.update_of_ne (Ne.symm hp), ih]
        simp [hp]

theorem setPairs_stakings (tokenId : TokenIdentifier) (txs : List Transaction) :
    setPairs (fun _ => none) (stakings txs) tokenId = latestStaking tokenId txs := by
  induction txs using List.reverseRecOn with
  | nil => rfl
  | append_singleton txs tx ih =>
      have hstakings : stakings (txs ++ [tx]) = stakings txs ++ tx.stakings := by simp [stakings]
      have hsplit : setPairs (fun _ => none) (stakings txs ++ tx.stakings) =
          setPairs (setPairs (fun _ => none) (stakings txs)) tx.stakings := by
        unfold setPairs
        rw [List.map_append, Cells.replay_append]
      rw [hstakings, hsplit, setPairs_eq, ih]
      unfold latestStaking
      rw [List.reverse_concat, List.findSome?_cons]
      cases lastNaming tokenId tx.stakings with
      | none => rfl
      | some a => rfl

/-- A `set` elsewhere does not change what is read. -/
theorem readAddress_after {raw : Raw} {c c' : Cell} (hc : c ≠ c') (v : Bytes) :
    readAddress (raw.after [(c, v)]) c'.key = readAddress raw c'.key := by
  have hkey : c'.key ≠ c.key := fun h => hc (Cell.key_injective h).symm
  have hsame : raw.after [(c, v)] c'.key = raw c'.key := by
    show Function.update raw c.key v c'.key = raw c'.key
    rw [Function.update_of_ne hkey]
  unfold readAddress
  rw [hsame]

/-- What an account of this deployer obtains through its two hand-built mappers are the
deployer's cells. -/
theorem commits_reads {s : SmartAccount.State X}
    (hd : s.storage.smartAccountDeployerAddress = some w.self) (tokenId : TokenIdentifier) :
    Commits (SmartAccount.getFarmStakingAddressMapper (w.peers C) tokenId) s
        (w.deployer.farmStakingAddressForToken tokenId) s ∧
      Commits (SmartAccount.getEgldWrapperContractAddressMapper (w.peers C)) s
        (some w.deployer.egldWrapperAddress) s := by
  constructor
  · exact SmartAccount.commits_getFarmStakingAddressMapper.mpr ⟨w.self, hd, (if_pos rfl).symm, rfl⟩
  · simp only [SmartAccount.getEgldWrapperContractAddressMapper, commits_bind, commits_get,
      commits_demand, commits_pure]
    exact ⟨_, _, ⟨rfl, rfl⟩, w.self, _, ⟨hd, rfl⟩, (if_pos rfl).symm, rfl⟩

/-- **The account reads what the deployer wrote.**  In every run, what an account finds
under the key it puts together for a token is the staking address of the last pair that
names the token in the latest accepted batch that does, and nothing when there is none;
under its other key it finds the wrapper address of the deployer.  Both are the reads of
the account's model, and what its two mappers return when an account that the deployer has
deployed from the account template runs them.  A `set` of any other mapper, or with other
arguments, changes neither, since distinct mappers with arguments have distinct keys. -/
theorem account_reads
    (hinit : Commits (init C fee adminAddress template wrapper) (World.fresh self owner ext) () w₀)
    (t : Run C w₀ h w) (tokenId : TokenIdentifier) :
    let raw := rawStorage fee adminAddress template wrapper (committed h)
    (readAddress raw (farmStakingKey tokenId) = latestStaking tokenId (committed h) ∧
      readAddress raw (farmStakingKey tokenId) =
        (w.peers C).farmStakingAddressForToken w.ext w.self tokenId) ∧
    (readAddress raw egldWrapperStorageKey = some w.deployer.egldWrapperAddress ∧
      readAddress raw egldWrapperStorageKey = (w.peers C).egldWrapperAddress w.ext w.self) ∧
    ((∀ e ∈ h, FromSmartAccount C e) → ∀ a account, w.accounts a = some account →
      Commits (SmartAccount.getFarmStakingAddressMapper (w.peers C) tokenId) (w.enter a account)
          (readAddress raw (farmStakingKey tokenId)) (w.enter a account) ∧
        Commits (SmartAccount.getEgldWrapperContractAddressMapper (w.peers C)) (w.enter a account)
          (readAddress raw egldWrapperStorageKey) (w.enter a account)) ∧
    (∀ c, raw c.key = w.deployer.bytes c) ∧
    (∀ c c' : Cell, c.key = c'.key → c = c') ∧
    (∀ (before : Raw) (c : Cell) (v : Bytes),
      (c ≠ .farmStakingAddressForToken tokenId →
        readAddress (before.after [(c, v)]) (farmStakingKey tokenId) =
          readAddress before (farmStakingKey tokenId)) ∧
      (c ≠ .egldWrapperAddress →
        readAddress (before.after [(c, v)]) egldWrapperStorageKey =
          readAddress before egldWrapperStorageKey)) := by
  intro raw
  have hrefines : ∀ c, raw c.key = w.deployer.bytes c := raw_refines hinit t
  -- the two keys are those of the deployer's mappers
  have hstakingKey : farmStakingKey tokenId = (Cell.farmStakingAddressForToken tokenId).key := rfl
  have hwrapperKey : egldWrapperStorageKey = Cell.egldWrapperAddress.key :=
    (List.append_nil _).symm
  have hstaking : readAddress raw (farmStakingKey tokenId) =
      w.deployer.farmStakingAddressForToken tokenId :=
    readAddress_of_topAddress (hrefines (.farmStakingAddressForToken tokenId))
  have hwrapper : readAddress raw egldWrapperStorageKey = some w.deployer.egldWrapperAddress := by
    rw [hwrapperKey]
    exact readAddress_of_topAddress (hrefines .egldWrapperAddress)
  refine ⟨⟨?_, ?_⟩, ⟨hwrapper, ?_⟩, ?_, hrefines, fun _ _ h => Cell.key_injective h, ?_⟩
  · rw [hstaking, (tables (.mk hinit) t).2.2, setPairs_stakings]
  · rw [hstaking]
    exact (if_pos rfl).symm
  · rw [hwrapper]
    exact (if_pos rfl).symm
  · intro hcode a account ha
    rw [hstaking, hwrapper]
    exact commits_reads ((sound_of_run (.mk hinit) t hcode).deployer a account ha) tokenId
  · intro before c v
    rw [hstakingKey, hwrapperKey]
    exact ⟨fun hc => readAddress_after hc v, fun hc => readAddress_after hc v⟩

end Run

/-- Two batches, the second of which names `M` twice, and a publication after them; an account
finds the last address. -/
theorem account_reads_sample : ∃ h w account, Run sampleChain sampleWorld h w ∧
    readAddress (rawStorage 50 sampleAdmin 0x7E 0xE (committed h)) (farmStakingKey [77]) =
      some 0x3 ∧
    w.accounts 0xACC = some account ∧
    Commits (SmartAccount.getFarmStakingAddressMapper (w.peers sampleChain) [77])
      (w.enter 0xACC account) (some 0x3) (w.enter 0xACC account) := by
  have hc : check (send sampleChain (fun e => decide (FromSmartAccount sampleChain e))
      [sampleCall sampleOwner 1 (.setFarmStakingAddressForToken [([77], 0x1)]), sampleDeploy,
        sampleCall sampleOwner 1 (.setFarmStakingAddressForToken [([77], 0x2), ([78], 0x4),
          ([77], 0x3)]),
        samplePublish 2 1]) sampleWorld (fun w => (w.accounts 0xACC).isSome) = true := by
    decide +kernel
  obtain ⟨h, w, t, hlabels, hcode, hq⟩ := run_of_check hc
  obtain ⟨account, ha⟩ := Option.isSome_iff_exists.mp hq
  have hinit : Commits (init sampleChain 50 sampleAdmin 0x7E 0xE)
      (World.fresh 0xD sampleOwner ()) () sampleWorld := by
    simp only [init, commits_bind, commits_require, commits_modify]
    exact ⟨(), _, ⟨by decide, rfl⟩, (), _, ⟨by decide, rfl⟩, rfl⟩
  obtain ⟨⟨hread, _⟩, _, haccount, _⟩ := account_reads hinit t [77]
  have hlast : readAddress (rawStorage 50 sampleAdmin 0x7E 0xE (committed h))
      (farmStakingKey [77]) = some 0x3 := by
    rw [hread, committed_of_labels hlabels]
    decide
  have hreads := (haccount (fun e he => of_decide_eq_true (hcode e he)) _ account ha).1
  rw [hlast] at hreads
  exact ⟨h, w, account, t, hlast, ha, hreads⟩

end Deployer

end PortfolioPilot
