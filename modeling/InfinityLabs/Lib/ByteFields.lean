import Mathlib.Algebra.Group.Nat.Defs
import Mathlib.Data.List.Basic
import Mathlib.Tactic.Common

/-!
# Records on a device

A device is a number of bytes.  A read yields the bytes from an offset on, and fewer of them near
the end.  The fields of a record are little-endian numbers; a field of what was read is a
field of the device.
-/

namespace InfinityLabs
namespace Lib

/-- The bytes of a device; only those below its size count. -/
structure Device where
  size : Nat
  byte : Nat → UInt8

/-- The value of bytes, the lowest first. -/
def littleEndian : List UInt8 → Nat
  | [] => 0
  | b :: bytes => b.toNat + 256 * littleEndian bytes

/-- A number in so many bytes, the lowest first. -/
def toLittleEndian : Nat → Nat → List UInt8
  | 0, _ => []
  | width + 1, n => UInt8.ofNat n :: toLittleEndian width (n / 256)

/-- The field of `width` bytes at an offset of a record. -/
def fieldAt (bytes : List UInt8) (offset width : Nat) : Nat :=
  littleEndian ((bytes.drop offset).take width)

namespace Device

/-- Up to `n` bytes from an offset on. -/
def pread (device : Device) (n offset : Nat) : List UInt8 :=
  (List.range (min n (device.size - offset))).map fun i => device.byte (offset + i)

/-- The field of `width` bytes at an offset of the device. -/
def field (device : Device) (offset width : Nat) : Nat :=
  littleEndian ((List.range width).map fun i => device.byte (offset + i))

end Device

theorem littleEndian_lt (bytes : List UInt8) : littleEndian bytes < 256 ^ bytes.length := by
  induction bytes with
  | nil => simp [littleEndian]
  | cons b bytes ih =>
      have hb : b.toNat < 256 := b.toNat_lt
      rw [List.length_cons, Nat.pow_succ, littleEndian]
      omega

@[simp] theorem length_toLittleEndian (width n : Nat) :
    (toLittleEndian width n).length = width := by
  induction width generalizing n with
  | zero => rfl
  | succ width ih => rw [toLittleEndian, List.length_cons, ih]

/-- The bytes of a number that they have room for have its value. -/
theorem littleEndian_toLittleEndian {width n : Nat} (h : n < 256 ^ width) :
    littleEndian (toLittleEndian width n) = n := by
  induction width generalizing n with
  | zero =>
      rw [Nat.pow_zero] at h
      rw [toLittleEndian, littleEndian]
      omega
  | succ width ih =>
      rw [Nat.pow_succ] at h
      have hrest := ih (Nat.div_lt_of_lt_mul (by rwa [Nat.mul_comm] at h) : n / 256 < 256 ^ width)
      have hdiv := Nat.mod_add_div n 256
      rw [toLittleEndian, littleEndian, hrest, UInt8.toNat_ofNat']
      change n % 256 + 256 * (n / 256) = n
      exact hdiv

/-- A field behind others is read at the sum of their widths. -/
theorem fieldAt_append {front field back : List UInt8} {offset width : Nat}
    (hoffset : front.length = offset) (hwidth : field.length = width) :
    fieldAt (front ++ (field ++ back)) offset width = littleEndian field := by
  rw [fieldAt, List.drop_left' hoffset, List.take_left' hwidth]

/-- A field is bounded by its width. -/
theorem fieldAt_lt (bytes : List UInt8) (offset width : Nat) :
    fieldAt bytes offset width < 256 ^ width := by
  have hlt := littleEndian_lt ((bytes.drop offset).take width)
  have hle : ((bytes.drop offset).take width).length ≤ width := List.length_take_le _ _
  exact Nat.lt_of_lt_of_le hlt (Nat.pow_le_pow_right (by decide) hle)

namespace Device

variable {device : Device} {n offset : Nat}

theorem length_pread : (device.pread n offset).length = min n (device.size - offset) := by
  simp [pread]

/-- A read inside the device is complete. -/
theorem pread_eq (h : offset + n ≤ device.size) :
    device.pread n offset = (List.range n).map fun i => device.byte (offset + i) := by
  rw [pread, Nat.min_eq_left (by omega)]

/-- A read is complete only inside the device. -/
theorem length_pread_eq_iff (hn : 0 < n) :
    (device.pread n offset).length = n ↔ offset + n ≤ device.size := by
  rw [length_pread]
  omega

/-- A field of a record that was read. -/
theorem fieldAt_pread (h : offset + n ≤ device.size) {start width : Nat}
    (hfield : start + width ≤ n) :
    fieldAt (device.pread n offset) start width = device.field (offset + start) width := by
  rw [fieldAt, field, pread_eq h]
  congr 1
  apply List.ext_getElem
  · simp
    omega
  · intro i hi hi'
    simp [Nat.add_assoc]

end Device

end Lib
end InfinityLabs
