import Xv6.Copyout
import Xv6.Proof.Booted
import Xv6.Proof.FaultContents

/-!
# Bytes in pages of words

Memory is made of words, and `memmove` writes bytes. A page is read here byte by byte: what was
written is read back, in bytes or in words, and the rest is as before.
-/

namespace Xv6

theorem getLsbD_getByte (w : Word) {k i : Nat} (hi : i < 8) :
    (w.getByte k).getLsbD i = w.getLsbD (8 * k + i) := by
  simp only [Word.getByte, BitVec.getLsbD_extractLsb', hi, decide_true, Bool.true_and]

theorem getLsbD_byteMask (m : Nat) : (255#32).getLsbD m = decide (m < 8) := by
  rw [show 255#32 = BitVec.ofNat 32 (2 ^ 8 - 1) from rfl, BitVec.getLsbD_ofNat,
    Nat.testBit_two_pow_sub_one]
  by_cases hm : m < 8
  · simp [hm, show m < 32 by omega]
  · simp [hm]

theorem getLsbD_setByte (w : Word) {k m : Nat} (hm : m < 32) (b : BitVec 8) :
    (w.setByte k b).getLsbD m =
      if 8 * k ≤ m ∧ m < 8 * k + 8 then b.getLsbD (m - 8 * k) else w.getLsbD m := by
  have hmask : ((0xFF : Word) <<< (8 * k)).getLsbD m = decide (8 * k ≤ m ∧ m < 8 * k + 8) := by
    rw [BitVec.getLsbD_shiftLeft, show (0xFF : Word) = 255#32 from rfl, getLsbD_byteMask]
    by_cases hlow : m < 8 * k
    · simp [hlow, show ¬8 * k ≤ m by omega]
    · simp [hlow, hm, show 8 * k ≤ m by omega]
      omega
  have hbyte : (b.setWidth 32 <<< (8 * k)).getLsbD m =
      (decide (8 * k ≤ m ∧ m < 8 * k + 8) && b.getLsbD (m - 8 * k)) := by
    rw [BitVec.getLsbD_shiftLeft, BitVec.getLsbD_setWidth]
    by_cases hlow : m < 8 * k
    · simp [hlow, show ¬8 * k ≤ m by omega]
    · by_cases hhigh : m < 8 * k + 8
      · simp [hlow, hm, hhigh, show 8 * k ≤ m by omega, show m - 8 * k < 32 by omega]
      · simp [hhigh, BitVec.getLsbD_of_ge b (m - 8 * k) (by omega)]
  rw [Word.setByte, BitVec.getLsbD_or, BitVec.getLsbD_and, BitVec.getLsbD_not, hmask, hbyte]
  by_cases hin : 8 * k ≤ m ∧ m < 8 * k + 8
  · simp [hin]
  · simp [hin, hm]

theorem getByte_setByte (w : Word) {k l : Nat} (hl : l < 4) (b : BitVec 8) :
    (w.setByte k b).getByte l = if l = k then b else w.getByte l := by
  apply BitVec.eq_of_getLsbD_eq
  intro i hi
  rw [getLsbD_getByte _ hi, getLsbD_setByte _ (by omega)]
  by_cases hlk : l = k
  · rw [if_pos hlk, if_pos (by omega), hlk, Nat.add_sub_cancel_left]
  · rw [if_neg hlk, if_neg (by omega), getLsbD_getByte _ hi]

theorem eq_of_getByte_eq {w w' : Word} (h : ∀ k < 4, w.getByte k = w'.getByte k) :
    w = w' := by
  apply BitVec.eq_of_getLsbD_eq
  intro i hi
  have hmod : i % 8 < 8 := Nat.mod_lt _ (by decide)
  rw [← Nat.div_add_mod i 8, ← getLsbD_getByte w hmod, h (i / 8) (by omega),
    getLsbD_getByte w' hmod]

def Machine.pageByte (s : Machine) (page x : Nat) : BitVec 8 :=
  (s.word page (x / 4)).getByte (x % 4)

theorem pageByte_putByte (s : Machine) (page off x : Nat) (b : BitVec 8) :
    (s.putByte page off b).pageByte page x = if x = off then b else s.pageByte page x := by
  rw [Machine.pageByte, Machine.putByte]
  by_cases hword : x / 4 = off / 4
  · rw [hword, Machine.setWord_word_self, getByte_setByte _ (Nat.mod_lt _ (by decide))]
    by_cases hx : x = off
    · rw [if_pos hx, if_pos (by rw [hx])]
    · rw [if_neg hx, if_neg (by omega), Machine.pageByte, hword]
  · rw [Machine.setWord_word_index _ _ _ _ hword, if_neg (by rintro rfl; exact hword rfl)]
    rfl

theorem pageByte_putBytes_of_notMem {page x : Nat} (bytes : List (BitVec 8)) {off : Nat}
    {s : Machine} (hx : x < off ∨ off + bytes.length ≤ x) :
    (s.putBytes page off bytes).pageByte page x = s.pageByte page x := by
  induction bytes generalizing s off with
  | nil => rfl
  | cons b rest ih =>
    rw [List.length_cons] at hx
    rw [Machine.putBytes, ih (by omega), pageByte_putByte, if_neg (by omega)]

theorem pageByte_putBytes {page : Nat} {bytes : List (BitVec 8)} {off j : Nat} {b : BitVec 8}
    {s : Machine} (hj : bytes[j]? = some b) :
    (s.putBytes page off bytes).pageByte page (off + j) = b := by
  induction bytes generalizing s off j with
  | nil => cases hj
  | cons c rest ih =>
    rw [Machine.putBytes]
    cases j with
    | zero =>
      cases hj
      rw [pageByte_putBytes_of_notMem rest (by omega), pageByte_putByte,
        if_pos (Nat.add_zero _)]
    | succ j =>
      rw [show off + (j + 1) = off + 1 + j by omega]
      exact ih hj

theorem putBytes_same (s : Machine) (page : Nat) (bytes : List (BitVec 8)) (off : Nat) :
    (s.putBytes page off bytes).proc = s.proc ∧ (s.putBytes page off bytes).kend = s.kend ∧
      (s.putBytes page off bytes).free = s.free := by
  induction bytes generalizing s off with
  | nil => exact ⟨rfl, rfl, rfl⟩
  | cons b rest ih => exact ih (s.putByte page off b) (off + 1)

theorem word_putBytes_of_notMem {s : Machine} {page off x : Nat} (bytes : List (BitVec 8))
    (hx : 4 * x + 4 ≤ off ∨ off + bytes.length ≤ 4 * x) :
    (s.putBytes page off bytes).word page x = s.word page x := by
  apply eq_of_getByte_eq
  intro k hk
  have hbyte : (s.putBytes page off bytes).pageByte page (4 * x + k) = _ :=
    pageByte_putBytes_of_notMem bytes (by omega)
  rw [Machine.pageByte, Machine.pageByte, show (4 * x + k) / 4 = x by omega,
    show (4 * x + k) % 4 = k by omega] at hbyte
  exact hbyte

theorem putBytes_word_of_ne {page g : Nat} (hg : g ≠ page) (bytes : List (BitVec 8)) (off : Nat)
    (s : Machine) : (s.putBytes page off bytes).word g = s.word g := by
  induction bytes generalizing off s with
  | nil => rfl
  | cons b rest ih =>
    rw [Machine.putBytes, ih, Machine.putByte, Machine.setWord_word_of_ne _ _ _ hg]

theorem run_uva2ka {s : Machine} {d va : Nat} (cur : Fin nproc)
    (hpresent : (s.word d (pdx va)).present = true) :
    (uva2ka cur d va).run s =
      .ok (if (s.word (pteAddr (s.word d (pdx va))) (ptx va)).present &&
          (s.word (pteAddr (s.word d (pdx va))) (ptx va)).user
        then some (pteAddr (s.word (pteAddr (s.word d (pdx va))) (ptx va))) else none, s) := by
  have hptr : walkPtr s d va = some (pteAddr (s.word d (pdx va)), ptx va) := if_pos hpresent
  rw [uva2ka, Kernel.run_bind_of_ok (run_walkpgdir s d va), Kernel.run_get_bind, hptr]
  dsimp only [Machine.loadPte]
  split_ifs <;> rfl

end Xv6
