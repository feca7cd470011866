/-
# `Lib.Bytes` — byte strings that can be told apart and read back

Numbers are written in a fixed number of bytes (`bigEndian`) or in as few as they need
(`shortest`).  Two ways of putting byte strings behind each other lose nothing: behind a
name, when no name is the beginning of another (`PrefixFree.append_inj`), and behind its
own length (`framed_injective`), whatever its length.
-/
import Mathlib.Data.Nat.Digits.Lemmas

namespace PortfolioPilot

abbrev Bytes := List UInt8

namespace Bytes

/-- The bytes of an ASCII string. -/
def ascii (s : String) : Bytes := s.toList.map fun c => UInt8.ofNat c.toNat

/-- The number `n` in `width` bytes, the most significant byte first.  A number that does
not fit is cut off. -/
def bigEndian : Nat → Nat → Bytes
  | 0, _ => []
  | width + 1, n => bigEndian width (n / 256) ++ [UInt8.ofNat n]

/-- The number `n` without leading zero bytes; 0 is the empty string. -/
def shortest (n : Nat) : Bytes := (Nat.digits 256 n).reverse.map UInt8.ofNat

/-- The number that a byte string stands for. -/
def number (bs : Bytes) : Nat := bs.foldl (fun n b => n * 256 + b.toNat) 0

/-- A byte string behind its length, in four bytes. -/
def framed (bs : Bytes) : Bytes := bigEndian 4 bs.length ++ bs

@[simp] theorem length_bigEndian (width n : Nat) : (bigEndian width n).length = width := by
  induction width generalizing n with
  | zero => rfl
  | succ width ih => rw [bigEndian, List.length_append, ih]; rfl

theorem number_concat (bs : Bytes) (b : UInt8) : number (bs ++ [b]) = number bs * 256 + b.toNat := by
  rw [number, List.foldl_append]
  rfl

/-- What fits is read back. -/
theorem number_bigEndian {width n : Nat} : n < 256 ^ width → number (bigEndian width n) = n := by
  induction width generalizing n with
  | zero =>
      intro h
      rw [Nat.pow_zero, Nat.lt_one_iff] at h
      rw [h]
      rfl
  | succ width ih =>
      intro h
      have hdiv : n / 256 < 256 ^ width := by
        rw [Nat.div_lt_iff_lt_mul (by decide)]
        exact h
      have hlow : (UInt8.ofNat n).toNat = n % 256 := UInt8.toNat_ofNat'
      have hsplit := Nat.div_add_mod n 256
      rw [bigEndian, number_concat, ih hdiv, hlow]
      omega

theorem bigEndian_injective {width m n : Nat} (hm : m < 256 ^ width) (hn : n < 256 ^ width)
    (h : bigEndian width m = bigEndian width n) : m = n := by
  rw [← number_bigEndian hm, h, number_bigEndian hn]

/-- A byte string of the right width is the number it stands for, written in that width. -/
theorem bigEndian_number {width : Nat} :
    ∀ {bs : Bytes}, bs.length = width → number bs < 256 ^ width ∧ bigEndian width (number bs) = bs := by
  induction width with
  | zero =>
      intro bs h
      rw [List.eq_nil_of_length_eq_zero h]
      exact ⟨by decide, rfl⟩
  | succ width ih =>
      intro bs h
      rcases List.eq_nil_or_concat bs with rfl | ⟨bs, b, rfl⟩
      · cases h
      · rw [List.concat_eq_append, List.length_append, List.length_singleton] at h
        obtain ⟨hlt, hback⟩ := ih (Nat.succ_inj.mp h)
        have hb : b.toNat < 256 := b.toNat_lt
        have hdiv : (number bs * 256 + b.toNat) / 256 = number bs := by omega
        have hlow : UInt8.ofNat (number bs * 256 + b.toNat) = b := by
          apply UInt8.toNat_inj.mp
          rw [UInt8.toNat_ofNat']
          omega
        rw [List.concat_eq_append, number_concat, bigEndian, hdiv, hlow, hback]
        refine ⟨?_, rfl⟩
        rw [Nat.pow_succ]
        omega

theorem number_ofDigits {ds : List Nat} (hds : ∀ d ∈ ds, d < 256) :
    number (ds.reverse.map UInt8.ofNat) = Nat.ofDigits 256 ds := by
  induction ds with
  | nil => rfl
  | cons d ds ih =>
      have hd : (UInt8.ofNat d).toNat = d := by
        rw [UInt8.toNat_ofNat']
        exact Nat.mod_eq_of_lt (hds d List.mem_cons_self)
      rw [List.reverse_cons, List.map_append, List.map_singleton, number_concat,
        ih fun d' hd' => hds d' (List.mem_cons_of_mem d hd'), Nat.ofDigits_cons, hd]
      show _ = d + 256 * _
      omega

/-- A number in as few bytes as it needs is read back. -/
theorem number_shortest (n : Nat) : number (shortest n) = n := by
  rw [shortest, number_ofDigits fun d hd => Nat.digits_lt_base (by decide) hd, Nat.ofDigits_digits]

theorem length_shortest_le {width n : Nat} (h : n < 256 ^ width) : (shortest n).length ≤ width := by
  rw [shortest, List.length_map, List.length_reverse]
  exact (Nat.digits_length_le_iff (by decide) n).mpr h

/-- The two lengths take up the same room, so what follows them is the same. -/
theorem framed_injective {as bs : Bytes} (h : framed as = framed bs) : as = bs := by
  have hlength : (bigEndian 4 as.length).length = (bigEndian 4 bs.length).length := by
    rw [length_bigEndian, length_bigEndian]
  exact (List.append_inj h hlength).2

section PrefixFree

variable {ι : Type} {name : ι → Bytes}

/-- No name is the beginning of another. -/
def PrefixFree (name : ι → Bytes) : Prop := ∀ i j, name i <+: name j → i = j

/-- Behind names of which none begins another, both parts can be read back. -/
theorem PrefixFree.append_inj (hname : PrefixFree name) {i j : ι} {as bs : Bytes}
    (h : name i ++ as = name j ++ bs) : i = j ∧ as = bs := by
  have hi : name i <+: name j ++ bs := by
    rw [← h]
    exact List.prefix_append _ _
  have hij : i = j := by
    rcases List.prefix_or_prefix_of_prefix hi (List.prefix_append (name j) bs) with hp | hp
    · exact hname i j hp
    · exact (hname j i hp).symm
  subst hij
  exact ⟨rfl, List.append_cancel_left h⟩

end PrefixFree

end Bytes

end PortfolioPilot
