import Mathlib.Data.BitVec

/-!
# Wrapping counters

A counter of 32 bits that only counts up is the number of its increments modulo `2 ^ 32`. Two such
counters that stay close are compared and subtracted like their numbers, and an index into a buffer
whose size divides `2 ^ 32` does not depend on how often the counter has wrapped.
-/

namespace Xv6

theorem ofNat_eq_iff {a b : Nat} (hle : a ≤ b) (hlt : b < a + 2 ^ 32) :
    BitVec.ofNat 32 a = BitVec.ofNat 32 b ↔ a = b := by
  constructor
  · intro h
    have h' := congrArg BitVec.toNat h
    simp only [BitVec.toNat_ofNat] at h'
    omega
  · rintro rfl
    rfl

theorem toNat_ofNat_sub {a b : Nat} (hle : a ≤ b) (hlt : b < a + 2 ^ 32) :
    (BitVec.ofNat 32 b - BitVec.ofNat 32 a).toNat = b - a := by
  rw [BitVec.toNat_sub, BitVec.toNat_ofNat, BitVec.toNat_ofNat]
  omega

theorem ofNat_sub_one {a : Nat} (hpos : 0 < a) :
    BitVec.ofNat 32 a - 1 = BitVec.ofNat 32 (a - 1) := by
  apply BitVec.eq_of_toNat_eq
  rw [BitVec.toNat_sub, BitVec.toNat_ofNat, BitVec.toNat_ofNat]
  change (2 ^ 32 - 1 + a % 2 ^ 32) % 2 ^ 32 = (a - 1) % 2 ^ 32
  omega

theorem slot_of_dvd {size : Nat} (hdvd : size ∣ 2 ^ 32) (k : Nat) :
    (BitVec.ofNat 32 k).toNat % size = k % size := by
  rw [BitVec.toNat_ofNat]
  exact Nat.mod_mod_of_dvd k hdvd

end Xv6
