import Mathlib.Tactic.Ring
import Mathlib.Data.Nat.ModEq

/-!
# Little-endian fields of a byte array

Structures overlaid on a disk block are read and written through fixed-width little-endian fields.
A byte array is a function of the offset; `getLE` reads the `len`-byte field at an offset and
`putLE` overwrites it. A field reads back what was put, and putting one field leaves every disjoint
field alone.
-/

namespace Xv6

/-- The content of a disk block, by byte offset. -/
abbrev Block := Nat → UInt8

/-- The little-endian number in the `len` bytes at `off`. -/
def getLE (b : Block) (off : Nat) : Nat → Nat
  | 0 => 0
  | len + 1 => (b off).toNat + 256 * getLE b (off + 1) len

/-- Store the low `len` bytes of `v` at `off`. -/
def putLE (b : Block) (off len v : Nat) : Block := fun i =>
  if off ≤ i ∧ i < off + len then UInt8.ofNat (v / 256 ^ (i - off)) else b i

theorem getLE_congr {b b' : Block} {off len : Nat}
    (h : ∀ i, off ≤ i → i < off + len → b i = b' i) : getLE b off len = getLE b' off len := by
  induction len generalizing off with
  | zero => rfl
  | succ len ih =>
    rw [getLE, getLE, h off (by omega) (by omega), ih fun i hi hlt => h i (by omega) (by omega)]

theorem getLE_of_digits {b : Block} {off len v : Nat}
    (h : ∀ k < len, b (off + k) = UInt8.ofNat (v / 256 ^ k)) :
    getLE b off len = v % 256 ^ len := by
  induction len generalizing off v with
  | zero => simp [getLE, Nat.mod_one]
  | succ len ih =>
    have hhead : (b off).toNat = v % 256 := by
      have := h 0 (by omega)
      simp only [Nat.add_zero, pow_zero, Nat.div_one] at this
      rw [this]
      simp
    have htail : getLE b (off + 1) len = v / 256 % 256 ^ len := by
      apply ih
      intro k hk
      have := h (k + 1) (by omega)
      rw [show off + 1 + k = off + (k + 1) by omega, this, Nat.div_div_eq_div_mul, pow_succ,
        Nat.mul_comm]
    rw [getLE, hhead, htail, pow_succ, Nat.mul_comm (256 ^ len) 256, Nat.mod_mul]

/-- A field reads back what was put into it. -/
theorem getLE_putLE_self (b : Block) (off len v : Nat) :
    getLE (putLE b off len v) off len = v % 256 ^ len := by
  apply getLE_of_digits
  intro k hk
  simp only [putLE]
  rw [if_pos ⟨by omega, by omega⟩, Nat.add_sub_cancel_left]

/-- Putting a field leaves a disjoint field alone. -/
theorem getLE_putLE_disjoint {b : Block} {off len off' len' v : Nat}
    (h : off' + len' ≤ off ∨ off + len ≤ off') :
    getLE (putLE b off len v) off' len' = getLE b off' len' := by
  apply getLE_congr
  intro i hi hlt
  simp only [putLE]
  rw [if_neg (by omega)]

end Xv6
