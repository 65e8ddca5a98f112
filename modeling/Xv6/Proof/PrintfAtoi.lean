import Mathlib.Tactic.IntervalCases
import Xv6.Printf

/-!
# Printed numbers are read back
-/

namespace Xv6.Ulib

theorem atoiLoop_digit {d : Nat} (hd : d < 10) (n : Nat) (s : List UInt8) :
    atoiLoop (BitVec.ofNat 32 n) (digits.getD d 0 :: s) =
      atoiLoop (BitVec.ofNat 32 (n * 10 + d)) s := by
  have hchar : digits.getD d 0 = UInt8.ofNat (48 + d) ∧ 48 ≤ UInt8.ofNat (48 + d) ∧
      UInt8.ofNat (48 + d) ≤ 57 := by
    interval_cases d <;> decide
  rw [atoiLoop, hchar.1, if_pos hchar.2]
  congr 1
  apply BitVec.eq_of_toNat_eq
  simp
  omega

theorem digitLoop_spec (room : Nat) : ∀ k x, 0 < k → k ≤ room → x < 10 ^ k →
    ∃ ds, digitLoop 10 room x = some ds ∧ ds.length ≤ k ∧
      ∀ s, atoiLoop 0 (ds.reverse ++ s) = atoiLoop (BitVec.ofNat 32 x) s := by
  induction room with
  | zero =>
    intro k x hk hroom
    omega
  | succ room ih =>
    intro k x hk hroom hx
    rw [digitLoop]
    split
    · rename_i hsmall
      refine ⟨_, rfl, hk, fun s => ?_⟩
      have hlast := atoiLoop_digit (Nat.mod_lt x (by decide)) 0 s
      rwa [show 0 * 10 + x % 10 = x by omega] at hlast
    · rename_i hlarge
      have hk1 : k - 1 ≠ 0 := by
        intro hzero
        rw [show k = 1 by omega] at hx
        omega
      have hpow : 10 ^ k = 10 ^ (k - 1) * 10 := by
        rw [← Nat.pow_succ, Nat.succ_eq_add_one, Nat.sub_add_cancel hk]
      obtain ⟨ds, hds, hlen, hread⟩ := ih (k - 1) (x / 10) (by omega) (by omega) (by omega)
      refine ⟨_, by rw [hds, Option.map_some], by rw [List.length_cons]; omega, fun s => ?_⟩
      rw [List.reverse_cons, List.append_assoc, hread, List.singleton_append,
        atoiLoop_digit (Nat.mod_lt x (by decide)), show x / 10 * 10 + x % 10 = x by omega]

/-- `%d` never overruns `buf`, and `atoi` reads what it has printed, after the sign of a negative
number. -/
theorem atoi_printint (xx : BitVec 32) : ∃ out, printint xx 10 true = some out ∧ out.length ≤ 11 ∧
    if xx.msb then ∃ ds, out = 45 :: ds ∧ atoi ds = -xx else atoi out = xx := by
  have hlt : ∀ x : BitVec 32, x.toNat < 10 ^ 10 := fun x => by omega
  obtain ⟨ds, hds, hlen, hread⟩ :=
    digitLoop_spec 16 10 _ (by decide) (by decide) (hlt (if xx.msb then -xx else xx))
  have hatoi := hread []
  rw [List.append_nil, BitVec.ofNat_toNat, BitVec.setWidth_eq] at hatoi
  cases hneg : xx.msb with
  | true =>
    simp only [hneg, if_true] at hds hatoi
    refine ⟨45 :: ds.reverse, ?_, ?_, ds.reverse, rfl, hatoi⟩
    swap
    · rw [List.length_cons, List.length_reverse]
      omega
    simp only [printint, hneg, Bool.and_true, if_true, hds, Option.bind_some]
    rw [if_pos (by omega)]
  | false =>
    simp only [hneg, Bool.false_eq_true, if_false] at hds hatoi
    refine ⟨ds.reverse, ?_, by rw [List.length_reverse]; omega, hatoi⟩
    simp only [printint, hneg, Bool.and_false, Bool.false_eq_true, if_false, hds,
      Option.bind_some]

end Xv6.Ulib
