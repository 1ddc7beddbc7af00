import Mathlib.Data.List.Basic
import Mathlib.Algebra.Group.Nat.Basic

/-!
The record area as the rows see it through memory pointers, and the
little-endian codec of the unsafe serializer. A write is modelled pointwise
over the written range, so that every frame fact is a fact about index ranges.
-/

namespace BitcoinDatabase

/-- The bytes of the mapped record area, addressed from the manager's first record. -/
abbrev Memory := Nat → UInt8

/-- The serializer writing `bytes` forward from `offset`. -/
def writeBytes (memory : Memory) (offset : Nat) (bytes : List UInt8) : Memory :=
  fun i => if offset ≤ i then (bytes[i - offset]?).getD (memory i) else memory i

def readBytes (memory : Memory) (offset length : Nat) : List UInt8 :=
  (List.range length).map fun i => memory (offset + i)

section Frame

variable {memory : Memory} {offset i : Nat} {bytes : List UInt8}

theorem writeBytes_apply_outside (h : i < offset ∨ offset + bytes.length ≤ i) :
    writeBytes memory offset bytes i = memory i := by
  unfold writeBytes
  split
  · rw [List.getElem?_eq_none (by omega), Option.getD_none]
  · rfl

theorem writeBytes_apply_inside (h₁ : offset ≤ i) (h₂ : i < offset + bytes.length) :
    writeBytes memory offset bytes i = bytes.get ⟨i - offset, by omega⟩ := by
  simp only [writeBytes, if_pos h₁, List.getElem?_eq_getElem (show i - offset < bytes.length by omega),
    Option.getD_some, List.get_eq_getElem]

@[simp] theorem length_readBytes (memory : Memory) (offset length : Nat) :
    (readBytes memory offset length).length = length := by
  simp [readBytes]

theorem getElem_readBytes (memory : Memory) (offset length j : Nat)
    (h : j < (readBytes memory offset length).length) :
    (readBytes memory offset length)[j] = memory (offset + j) := by
  simp [readBytes]

theorem readBytes_congr {memory' : Memory} {length : Nat}
    (h : ∀ j, offset ≤ j → j < offset + length → memory j = memory' j) :
    readBytes memory offset length = readBytes memory' offset length := by
  apply List.ext_getElem (by simp)
  intro j h₁ h₂
  rw [getElem_readBytes, getElem_readBytes]
  exact h _ (by omega) (by simp at h₁; omega)

theorem readBytes_writeBytes_self (memory : Memory) (offset : Nat) (bytes : List UInt8) :
    readBytes (writeBytes memory offset bytes) offset bytes.length = bytes := by
  apply List.ext_getElem (by simp)
  intro j h₁ h₂
  rw [getElem_readBytes, writeBytes_apply_inside (by omega) (by omega)]
  simp

theorem readBytes_writeBytes_of_length {length : Nat} (h : bytes.length = length) :
    readBytes (writeBytes memory offset bytes) offset length = bytes :=
  h ▸ readBytes_writeBytes_self memory offset bytes

theorem readBytes_writeBytes_of_disjoint {offset' length : Nat}
    (h : offset' + length ≤ offset ∨ offset + bytes.length ≤ offset') :
    readBytes (writeBytes memory offset bytes) offset' length = readBytes memory offset' length :=
  readBytes_congr fun _ _ _ => writeBytes_apply_outside (by omega)

theorem writeBytes_writeBytes_of_le {bytes' : List UInt8} (h : bytes.length ≤ bytes'.length) :
    writeBytes (writeBytes memory offset bytes) offset bytes' = writeBytes memory offset bytes' := by
  funext i
  by_cases hi : offset ≤ i ∧ i < offset + bytes'.length
  · rw [writeBytes_apply_inside hi.1 hi.2, writeBytes_apply_inside hi.1 hi.2]
  · have h₁ : i < offset ∨ offset + bytes'.length ≤ i := by omega
    have h₂ : i < offset ∨ offset + bytes.length ≤ i := by omega
    rw [writeBytes_apply_outside h₁, writeBytes_apply_outside h₂, writeBytes_apply_outside h₁]

end Frame

/-- write_little_endian: the low `width` bytes of `value`, least significant first. -/
def toLittleEndian : Nat → Nat → List UInt8
  | 0, _ => []
  | width + 1, value => UInt8.ofNat value :: toLittleEndian width (value / 256)

/-- from_little_endian_unsafe: the unsigned value of bytes stored least significant first. -/
def fromLittleEndian : List UInt8 → Nat
  | [] => 0
  | byte :: bytes => byte.toNat + 256 * fromLittleEndian bytes

@[simp] theorem length_toLittleEndian (width value : Nat) :
    (toLittleEndian width value).length = width := by
  induction width generalizing value with
  | zero => rfl
  | succ width ih => simp [toLittleEndian, ih]

theorem fromLittleEndian_toLittleEndian (width value : Nat) :
    fromLittleEndian (toLittleEndian width value) = value % 256 ^ width := by
  induction width generalizing value with
  | zero => simp [toLittleEndian, fromLittleEndian, Nat.mod_one]
  | succ width ih =>
      have hbyte : (UInt8.ofNat value).toNat = value % 256 := by
        simp [UInt8.toNat, UInt8.ofNat]
      rw [toLittleEndian, fromLittleEndian, ih, hbyte, Nat.pow_succ', Nat.mod_mul]

end BitcoinDatabase
