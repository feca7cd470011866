/-
# `Deployer.Decoding` — the deployer's storage, read back from its bytes

What the endpoints and the views of the deployer work with is what `get` makes of the bytes
under a key.  The values are put together by a codec (`strategyCodec` for the records of
`strategies`), so they can be read back: in every state of a run the bytes under the keys
give the deployer's storage again, cell by cell, and no other storage (`storage_read_back`).

The one thing that does not fit is a token identifier of `2 ^ 32` bytes or more, whose
length the four bytes in front of it cannot hold.
-/
import PortfolioPilot.Lib.Codec
import PortfolioPilot.Deployer.RawStorage

namespace PortfolioPilot

namespace Deployer

open Revert
open Bytes
open SmartAccount (PositionType Strategy)

/-! ## The codec of a strategy -/

def codeOf : PositionType → Nat
  | .esdt => 0
  | .staking => 1
  | .lp => 2
  | .farm => 3

def ofCode : Nat → Option PositionType
  | 0 => some .esdt
  | 1 => some .staking
  | 2 => some .lp
  | 3 => some .farm
  | _ => none

theorem ofCode_eq_some {n : Nat} {p : PositionType} (h : ofCode n = some p) : codeOf p = n := by
  unfold ofCode at h
  split at h <;> cases h <;> rfl

def positionTypeCodec : Codec PositionType :=
  (Codec.fixed 1).along codeOf ofCode (fun p => by cases p <;> rfl) (fun _ _ => ofCode_eq_some)

def u64Codec : Codec UInt64 :=
  (Codec.fixed 8).along UInt64.toNat (fun n => if n < 2 ^ 64 then some (UInt64.ofNat n) else none)
    (fun n => by rw [if_pos n.toNat_lt, UInt64.ofNat_toNat])
    (fun n m h => by
      by_cases hn : n < 2 ^ 64
      · rw [if_pos hn] at h
        cases h
        exact UInt64.toNat_ofNat_of_lt' hn
      · rw [if_neg hn] at h
        cases h)

def addressCodec : Codec Address :=
  (Codec.fixed 32).along BitVec.toNat
    (fun n => if n < 2 ^ 256 then some (BitVec.ofNat 256 n) else none)
    (fun a => by rw [if_pos a.isLt, BitVec.ofNat_toNat, BitVec.setWidth_eq])
    (fun n a h => by
      by_cases hn : n < 2 ^ 256
      · rw [if_pos hn] at h
        cases h
        rw [BitVec.toNat_ofNat, Nat.mod_eq_of_lt hn]
      · rw [if_neg hn] at h
        cases h)

/-- The fields of a `Strategy`, in the order of the struct. -/
def strategyCodec : Codec Strategy :=
  (((u64Codec.pair positionTypeCodec).pair addressCodec).pair Codec.bytes).along
    (fun s => (((s.percentage, s.positionType), s.contractAddress), s.outputTokenId))
    (fun p => some ⟨p.1.1.1, p.1.1.2, p.1.2, p.2⟩) (fun _ => rfl)
    (fun p s h => by
      cases h
      rfl)

/-- What the codec writes is the nested encoding. -/
theorem strategyCodec_write (s : Strategy) : strategyCodec.write s = nestedStrategy s := by
  have hposition : bigEndian 1 (codeOf s.positionType) = nestedPositionType s.positionType := by
    cases s.positionType <;> rfl
  show ((nestedU64 s.percentage ++ bigEndian 1 (codeOf s.positionType)) ++
    nestedAddress s.contractAddress) ++ framed s.outputTokenId = _
  rw [hposition]
  rfl

theorem strategyCodec_writeAll (L : List Strategy) : strategyCodec.writeAll L = topStrategies L := by
  unfold Codec.writeAll topStrategies
  congr 1
  funext s
  exact strategyCodec_write s

theorem strategyCodec_ne (s : Strategy) : strategyCodec.write s ≠ [] := by
  intro hnil
  have hlength := congrArg List.length hnil
  rw [strategyCodec_write, nestedStrategy] at hlength
  simp [nestedAddress] at hlength

/-- Only the length of the token identifier can be too big. -/
theorem strategyCodec_fits {s : Strategy} :
    strategyCodec.Fits s ↔ s.outputTokenId.length < 2 ^ 32 := by
  have hcode : codeOf s.positionType < 256 ^ 1 := by cases s.positionType <;> decide
  constructor
  · intro h
    exact h.2
  · intro h
    exact ⟨⟨⟨s.percentage.toNat_lt, hcode⟩, s.contractAddress.isLt⟩, h⟩

/-! ## `get` -/

/-- A `SingleValueMapper<BigUint>` read. -/
def readBigUint (raw : Raw) (key : Bytes) : Nat := number (raw key)

/-- A `SingleValueMapper<u64>` read: more than eight bytes do not decode. -/
def readU64 (raw : Raw) (key : Bytes) : Option UInt64 :=
  if (raw key).length ≤ 8 then some (UInt64.ofNat (number (raw key))) else none

/-- A `SingleValueMapper<ManagedVec<Strategy>>` read. -/
def readStrategies (raw : Raw) (key : Bytes) : Option (List Strategy) :=
  strategyCodec.readAll (raw key)

/-- Every mapper reads what `d` has in its cell, and no read fails but that of an address that
is not there. -/
structure Reads (raw : Raw) (d : Storage) : Prop where
  smartAccountOpenFee : readBigUint raw Cell.smartAccountOpenFee.key = d.smartAccountOpenFee
  adminAddress : readAddress raw Cell.adminAddress.key = some d.adminAddress
  smartAccountTemplateAddress :
    readAddress raw Cell.smartAccountTemplateAddress.key = some d.smartAccountTemplateAddress
  egldWrapperAddress : readAddress raw Cell.egldWrapperAddress.key = some d.egldWrapperAddress
  farmStakingAddressForToken : ∀ tokenId, readAddress raw
    (Cell.farmStakingAddressForToken tokenId).key = d.farmStakingAddressForToken tokenId
  userSmartAccount : ∀ user, readAddress raw (Cell.userSmartAccount user).key =
    d.userSmartAccount user
  strategies : ∀ epoch r, readStrategies raw (Cell.strategies epoch r).key =
    some (d.strategies (epoch, r))
  lastStrategyEpoch : readU64 raw Cell.lastStrategyEpoch.key = some d.lastStrategyEpoch

/-- The bytes determine the storage. -/
theorem Reads.unique {raw : Raw} {d d' : Storage} (h : Reads raw d) (h' : Reads raw d') : d = d' := by
  have hstrategies : d.strategies = d'.strategies := by
    funext k
    exact Option.some.inj ((h.strategies k.1 k.2).symm.trans (h'.strategies k.1 k.2))
  have hfee := h.smartAccountOpenFee.symm.trans h'.smartAccountOpenFee
  have hadmin := Option.some.inj (h.adminAddress.symm.trans h'.adminAddress)
  have htemplate := Option.some.inj
    (h.smartAccountTemplateAddress.symm.trans h'.smartAccountTemplateAddress)
  have hwrapper := Option.some.inj (h.egldWrapperAddress.symm.trans h'.egldWrapperAddress)
  have hlast := Option.some.inj (h.lastStrategyEpoch.symm.trans h'.lastStrategyEpoch)
  have hstaking : d.farmStakingAddressForToken = d'.farmStakingAddressForToken := by
    funext tokenId
    exact (h.farmStakingAddressForToken tokenId).symm.trans (h'.farmStakingAddressForToken tokenId)
  have hregistry : d.userSmartAccount = d'.userSmartAccount := by
    funext user
    exact (h.userSmartAccount user).symm.trans (h'.userSmartAccount user)
  cases d
  cases d'
  simp only at hstrategies hfee hadmin htemplate hwrapper hlast hstaking hregistry
  subst hstrategies hfee hadmin htemplate hwrapper hlast hstaking hregistry
  rfl

/-- The token identifiers of the stored lists are not too long to be stored. -/
def Storage.Fits (d : Storage) : Prop :=
  ∀ k, ∀ s ∈ d.strategies k, s.outputTokenId.length < 2 ^ 32

/-- What is stored as the bytes of a storage whose lists fit is read back. -/
theorem reads_of_bytes {raw : Raw} {d : Storage} (hraw : ∀ c : Cell, raw c.key = d.bytes c)
    (hfits : d.Fits) : Reads raw d where
  smartAccountOpenFee := by
    unfold readBigUint
    rw [hraw]
    exact number_shortest _
  adminAddress := readAddress_of_topAddress (hraw .adminAddress)
  smartAccountTemplateAddress := readAddress_of_topAddress (hraw .smartAccountTemplateAddress)
  egldWrapperAddress := readAddress_of_topAddress (hraw .egldWrapperAddress)
  farmStakingAddressForToken tokenId :=
    readAddress_of_topAddress (hraw (.farmStakingAddressForToken tokenId))
  userSmartAccount user := readAddress_of_topAddress (hraw (.userSmartAccount user))
  strategies epoch r := by
    have hbytes : raw (Cell.strategies epoch r).key =
        strategyCodec.writeAll (d.strategies (epoch, r)) := by
      rw [hraw, strategyCodec_writeAll]
      rfl
    unfold readStrategies
    rw [hbytes]
    exact strategyCodec.readAll_writeAll strategyCodec_ne fun s hs =>
      strategyCodec_fits.mpr (hfits _ s hs)
  lastStrategyEpoch := by
    have hbytes : raw Cell.lastStrategyEpoch.key = shortest d.lastStrategyEpoch.toNat :=
      hraw .lastStrategyEpoch
    have hlength : (shortest d.lastStrategyEpoch.toNat).length ≤ 8 :=
      length_shortest_le d.lastStrategyEpoch.toNat_lt
    unfold readU64
    rw [hbytes, if_pos hlength, number_shortest, UInt64.ofNat_toNat]

/-- Storages whose lists fit differ in the bytes of some cell. -/
theorem Storage.bytes_injective {d d' : Storage} (hfits : d.Fits) (hfits' : d'.Fits)
    (h : d.bytes = d'.bytes) : d = d' := by
  -- some raw storage has these bytes under the keys
  obtain ⟨raw, hraw⟩ : ∃ raw : Raw, ∀ c : Cell, raw c.key = d.bytes c :=
    ⟨Function.extend Cell.key d.bytes fun _ => [], Cell.key_injective.extend_apply d.bytes _⟩
  have hraw' : ∀ c : Cell, raw c.key = d'.bytes c := fun c => (hraw c).trans (congrFun h c)
  exact (reads_of_bytes hraw hfits).unique (reads_of_bytes hraw' hfits')

/-! ## Runs -/

section Run

variable {X : Type} {C : Chain X} {w₀ w : World X} {h : List (Entry (World X) Label)}
  {self owner adminAddress template wrapper : Address} {ext : X} {fee : Nat}

/-- The token identifiers of a publication are not too long to be stored. -/
def Transaction.Fits (tx : Transaction) : Prop :=
  ∀ r tuples, tx.call = .setStrategiesPerEpoch r tuples → ∀ t ∈ tuples, t.2.2.2.length < 2 ^ 32

/-- A stored step has the token identifier of one of the published tuples. -/
theorem fits_of_run (hinit : Initial C w₀) (t : Run C w₀ h w)
    (hfits : ∀ tx ∈ committed h, tx.Fits) : w.deployer.Fits := by
  intro k s hs
  have hne : w.deployer.strategies k ≠ [] := List.ne_nil_of_mem hs
  obtain ⟨p, hp, rfl⟩ := List.mem_map.mp ((stored_iff hinit t k).mp hne)
  rw [published_in_force hinit t hp] at hs
  obtain ⟨tx, htx, r, tuples, hcall, rfl⟩ := mem_publications.mp hp
  obtain ⟨tuple, htuple, rfl⟩ := List.mem_map.mp hs
  exact hfits tx htx r tuples hcall tuple (List.mem_filter.mp htuple).1

/-- **The storage is in the bytes.**  In every run whose published token identifiers are
shorter than `2 ^ 32` bytes, each mapper of the deployer reads back, from the bytes under its
raw key, what the run has stored in its cell; no other storage whose identifiers are as short
has the same bytes in every cell, nor do these bytes read as another; and where bytes read as
a list of strategies, they are the ones that are written for that list. -/
theorem storage_read_back
    (hinit : Commits (init C fee adminAddress template wrapper) (World.fresh self owner ext) () w₀)
    (t : Run C w₀ h w) (hfits : ∀ tx ∈ committed h, tx.Fits) :
    let raw := rawStorage fee adminAddress template wrapper (committed h)
    Reads raw w.deployer ∧ (∀ d, Reads raw d → d = w.deployer) ∧
      (∀ d : Storage, d.Fits → (∀ c, d.bytes c = w.deployer.bytes c) → d = w.deployer) ∧
      ∀ (raw' : Raw) key L, readStrategies raw' key = some L → raw' key = topStrategies L := by
  intro raw
  have hshort := fits_of_run (.mk hinit) t hfits
  have hreads : Reads raw w.deployer := reads_of_bytes (raw_refines hinit t) hshort
  refine ⟨hreads, fun d hd => hd.unique hreads, fun d hd hbytes => ?_, fun raw' key L hL => ?_⟩
  · exact Storage.bytes_injective hd hshort (funext hbytes)
  · rw [(strategyCodec.writeAll_readAll hL).2, strategyCodec_writeAll]

end Run

/-- A published list is read back from the bytes. -/
theorem storage_read_back_sample : ∃ h w, Run sampleChain sampleWorld h w ∧
    readStrategies (rawStorage 50 sampleAdmin 0x7E 0xE (committed h)) (Cell.strategies 1 1).key =
      some [⟨10000, .esdt, 0xA, [77]⟩] := by
  have hc : check (send sampleChain (fun _ => true) [samplePublish 1 1]) sampleWorld
      (fun w => decide (w.deployer.strategies (1, 1) = [⟨10000, .esdt, 0xA, [77]⟩])) = true := by
    decide +kernel
  obtain ⟨h, w, t, hlabels, _, hq⟩ := run_of_check hc
  have hinit : Commits (init sampleChain 50 sampleAdmin 0x7E 0xE)
      (World.fresh 0xD sampleOwner ()) () sampleWorld := by
    simp only [init, commits_bind, commits_require, commits_modify]
    exact ⟨(), _, ⟨by decide, rfl⟩, (), _, ⟨by decide, rfl⟩, rfl⟩
  have hfits : ∀ tx ∈ committed h, tx.Fits := by
    intro tx htx r tuples hcall tuple htuple
    rw [committed_of_labels hlabels] at htx
    cases List.mem_singleton.mp htx
    cases hcall
    cases List.mem_singleton.mp htuple
    decide
  obtain ⟨hreads, _⟩ := storage_read_back hinit t hfits
  exact ⟨h, w, t, (hreads.strategies 1 1).trans (congrArg some (of_decide_eq_true hq))⟩

end Deployer

end PortfolioPilot
