/-
# `Lib.Codec` — values written one after the other

A codec writes a value in front of whatever follows, and reads it off again.  Its two laws
say that nothing is lost and that there is no second spelling: what was written is read
back, and what is read was written (`Codec.read_write`, `Codec.write_read`).  The laws come
with the codec, so those of a record follow from those of its fields.

A list is written without its length, to the end of the byte string, and read until nothing
is left (`Codec.readAll`).
-/
import PortfolioPilot.Lib.Bytes

namespace PortfolioPilot

open Bytes

/-- A way of writing the values that fit in front of others. -/
structure Codec (α : Type) where
  write : α → Bytes
  read : Bytes → Option (α × Bytes)
  Fits : α → Prop
  read_write : ∀ a rest, Fits a → read (write a ++ rest) = some (a, rest)
  write_read : ∀ bs a rest, read bs = some (a, rest) → Fits a ∧ bs = write a ++ rest

namespace Codec

variable {α β : Type}

/-- Numbers in a fixed number of bytes. -/
def fixed (width : Nat) : Codec Nat where
  write n := bigEndian width n
  read bs := if width ≤ bs.length then some (number (bs.take width), bs.drop width) else none
  Fits n := n < 256 ^ width
  read_write n rest hn := by
    have hlength : (bigEndian width n).length = width := length_bigEndian width n
    have hle : width ≤ (bigEndian width n ++ rest).length := by
      rw [List.length_append, hlength]
      exact Nat.le_add_right _ _
    rw [if_pos hle, List.take_left' hlength, List.drop_left' hlength, number_bigEndian hn]
  write_read bs n rest h := by
    by_cases hle : width ≤ bs.length
    · rw [if_pos hle] at h
      cases h
      have hlength : (bs.take width).length = width := List.length_take_of_le hle
      obtain ⟨hfits, hback⟩ := bigEndian_number hlength
      rw [hback]
      exact ⟨hfits, (List.take_append_drop width bs).symm⟩
    · rw [if_neg hle] at h
      cases h

/-- Two values, one behind the other. -/
def pair (c : Codec α) (d : Codec β) : Codec (α × β) where
  write p := c.write p.1 ++ d.write p.2
  read bs := do
    let (a, rest) ← c.read bs
    let (b, rest) ← d.read rest
    return ((a, b), rest)
  Fits p := c.Fits p.1 ∧ d.Fits p.2
  read_write p rest hp := by
    rw [List.append_assoc, c.read_write _ _ hp.1]
    show (d.read (d.write p.2 ++ rest)).bind _ = _
    rw [d.read_write _ _ hp.2]
    rfl
  write_read bs p rest h := by
    obtain ⟨⟨a, rest₁⟩, ha, h₁⟩ := Option.bind_eq_some_iff.mp h
    obtain ⟨⟨b, rest₂⟩, hb, h₂⟩ := Option.bind_eq_some_iff.mp h₁
    cases h₂
    obtain ⟨hfa, rfl⟩ := c.write_read _ _ _ ha
    obtain ⟨hfb, rfl⟩ := d.write_read _ _ _ hb
    exact ⟨⟨hfa, hfb⟩, (List.append_assoc _ _ _).symm⟩

/-- Values written as others; not every one of these need stand for a value. -/
def along (c : Codec α) (out : β → α) (back : α → Option β) (hback : ∀ b, back (out b) = some b)
    (hout : ∀ a b, back a = some b → out b = a) : Codec β where
  write b := c.write (out b)
  read bs := do
    let (a, rest) ← c.read bs
    let b ← back a
    return (b, rest)
  Fits b := c.Fits (out b)
  read_write b rest hb := by
    rw [c.read_write _ _ hb]
    show (back (out b)).bind _ = _
    rw [hback]
    rfl
  write_read bs b rest h := by
    obtain ⟨⟨a, rest₁⟩, ha, h₁⟩ := Option.bind_eq_some_iff.mp h
    obtain ⟨b', hb, h₂⟩ := Option.bind_eq_some_iff.mp h₁
    cases h₂
    rw [hout a b hb]
    exact c.write_read _ _ _ ha

/-- A byte string behind its length, in four bytes. -/
def bytes : Codec Bytes where
  write bs := framed bs
  read bs := do
    let (n, rest) ← (fixed 4).read bs
    if n ≤ rest.length then return (rest.take n, rest.drop n) else none
  Fits bs := bs.length < 256 ^ 4
  read_write bs rest hbs := by
    rw [framed, List.append_assoc]
    show ((fixed 4).read ((fixed 4).write bs.length ++ (bs ++ rest))).bind _ = _
    rw [(fixed 4).read_write _ _ hbs]
    show (if bs.length ≤ (bs ++ rest).length then _ else none) = _
    rw [if_pos (by rw [List.length_append]; exact Nat.le_add_right _ _), List.take_left' rfl,
      List.drop_left' rfl]
    rfl
  write_read bs as rest h := by
    obtain ⟨⟨n, rest₁⟩, hn, h₁⟩ := Option.bind_eq_some_iff.mp h
    obtain ⟨hfits, rfl⟩ := (fixed 4).write_read _ _ _ hn
    dsimp only at h₁
    by_cases hle : n ≤ rest₁.length
    · rw [if_pos hle] at h₁
      cases h₁
      have hlength : (rest₁.take n).length = n := List.length_take_of_le hle
      rw [framed, hlength, List.append_assoc, List.take_append_drop]
      exact ⟨hfits, rfl⟩
    · rw [if_neg hle] at h₁
      cases h₁

/-! ## Lists to the end -/

def writeAll (c : Codec α) (as : List α) : Bytes := as.flatMap c.write

/-- At most `fuel` values, until nothing is left. -/
def readUpTo (c : Codec α) : Nat → Bytes → Option (List α)
  | _, [] => some []
  | 0, _ :: _ => none
  | fuel + 1, b :: bs => do
      let (a, rest) ← c.read (b :: bs)
      let as ← c.readUpTo fuel rest
      return a :: as

/-- Every value takes a byte at least, so the length is enough. -/
def readAll (c : Codec α) (bs : Bytes) : Option (List α) := c.readUpTo bs.length bs

theorem readUpTo_writeAll (c : Codec α) (hne : ∀ a, c.write a ≠ []) {as : List α} :
    (∀ a ∈ as, c.Fits a) → ∀ {fuel : Nat}, (c.writeAll as).length ≤ fuel →
      c.readUpTo fuel (c.writeAll as) = some as := by
  induction as with
  | nil =>
      intro _ fuel _
      cases fuel <;> rfl
  | cons a as ih =>
      intro hfits fuel hfuel
      rw [writeAll, List.flatMap_cons] at hfuel ⊢
      have hpos : 0 < (c.write a).length := List.length_pos_iff.mpr (hne a)
      rw [List.length_append] at hfuel
      obtain ⟨fuel, rfl⟩ : ∃ n, fuel = n + 1 := Nat.exists_eq_succ_of_ne_zero (by omega)
      have hread := c.read_write a (as.flatMap c.write) (hfits a List.mem_cons_self)
      have hle : (c.writeAll as).length ≤ fuel := by
        rw [writeAll]
        omega
      have hrest := ih (fun a' ha' => hfits a' (List.mem_cons_of_mem a ha')) hle
      cases hbs : c.write a ++ as.flatMap c.write with
      | nil => exact absurd (List.append_eq_nil_iff.mp hbs).1 (hne a)
      | cons b bs =>
          rw [hbs] at hread
          rw [readUpTo, hread]
          show ((c.readUpTo fuel (c.writeAll as)).bind fun as => some (a :: as)) = _
          rw [hrest]
          rfl

/-- **Nothing is lost.**  A list of values that fit is read back. -/
theorem readAll_writeAll (c : Codec α) (hne : ∀ a, c.write a ≠ []) {as : List α}
    (hfits : ∀ a ∈ as, c.Fits a) : c.readAll (c.writeAll as) = some as :=
  c.readUpTo_writeAll hne hfits (Nat.le_refl _)

theorem writeAll_readUpTo (c : Codec α) {fuel : Nat} :
    ∀ {bs : Bytes} {as : List α}, c.readUpTo fuel bs = some as →
      (∀ a ∈ as, c.Fits a) ∧ bs = c.writeAll as := by
  induction fuel with
  | zero =>
      intro bs as h
      cases bs with
      | nil =>
          cases h
          exact ⟨fun _ ha => absurd ha List.not_mem_nil, rfl⟩
      | cons b bs => cases h
  | succ fuel ih =>
      intro bs as h
      cases bs with
      | nil =>
          cases h
          exact ⟨fun _ ha => absurd ha List.not_mem_nil, rfl⟩
      | cons b bs =>
          obtain ⟨⟨a, rest⟩, ha, h₁⟩ := Option.bind_eq_some_iff.mp h
          obtain ⟨as', has, h₂⟩ := Option.bind_eq_some_iff.mp h₁
          cases h₂
          obtain ⟨hfa, hbs⟩ := c.write_read _ _ _ ha
          obtain ⟨hfas, hrest⟩ := ih has
          refine ⟨List.forall_mem_cons.mpr ⟨hfa, hfas⟩, ?_⟩
          rw [hbs, hrest, writeAll, writeAll, List.flatMap_cons]

/-- **There is no second spelling.**  What reads as a list is that list as it is written. -/
theorem writeAll_readAll (c : Codec α) {bs : Bytes} {as : List α} (h : c.readAll bs = some as) :
    (∀ a ∈ as, c.Fits a) ∧ bs = c.writeAll as := c.writeAll_readUpTo h

end Codec

end PortfolioPilot
