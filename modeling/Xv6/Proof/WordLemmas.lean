import Xv6.Machine

/-!
# Bits of page-table entries

An entry is a page number above twelve flag bits. Setting or clearing flags keeps the page number,
and the entries the kernel builds decode to what they were built from.
-/

namespace Xv6

theorem pteAddr_congr {w w' : Word} (h : ∀ i, 12 ≤ i → w'.getLsbD i = w.getLsbD i) :
    pteAddr w' = pteAddr w := by
  have hshift : w' >>> 12 = w >>> 12 := by
    apply BitVec.eq_of_getLsbD_eq
    intro i _
    rw [BitVec.getLsbD_ushiftRight, BitVec.getLsbD_ushiftRight]
    exact h (12 + i) (by omega)
  rw [pteAddr, pteAddr, hshift]

theorem getLsbD_of_flags {flags : Word} (h : flags.toNat < 2 ^ 12) {i : Nat} (hi : 12 ≤ i) :
    flags.getLsbD i = false := by
  apply Nat.testBit_lt_two_pow
  exact lt_of_lt_of_le h (Nat.pow_le_pow_right (by decide) hi)

theorem pteAddr_or {w flags : Word} (h : flags.toNat < 2 ^ 12) :
    pteAddr (w ||| flags) = pteAddr w := by
  apply pteAddr_congr
  intro i hi
  rw [BitVec.getLsbD_or, getLsbD_of_flags h hi, Bool.or_false]

theorem pteAddr_and_not {w flags : Word} (h : flags.toNat < 2 ^ 12) :
    pteAddr (w &&& ~~~flags) = pteAddr w := by
  apply pteAddr_congr
  intro i hi
  by_cases hlt : i < 32
  · rw [BitVec.getLsbD_and, BitVec.getLsbD_not, getLsbD_of_flags h hi]
    simp [hlt]
  · rw [BitVec.getLsbD_of_ge _ _ (by omega), BitVec.getLsbD_of_ge _ _ (by omega)]

theorem pteAddr_mkEntry {page : Nat} {flags : Word} (hpage : page < 2 ^ 20)
    (h : flags.toNat < 2 ^ 12) : pteAddr (mkEntry page flags) = page := by
  rw [mkEntry, pteAddr_or h, pteAddr, BitVec.toNat_ushiftRight, BitVec.toNat_ofNat,
    Nat.shiftRight_eq_div_pow, pgSize, Nat.mod_eq_of_lt (by omega)]
  omega

theorem getLsbD_mkEntry {page i : Nat} {flags : Word} (hi : i < 12) :
    (mkEntry page flags).getLsbD i = flags.getLsbD i := by
  have hlow : (page * pgSize).testBit i = false := by
    rw [show page * pgSize = 2 ^ 12 * page by rw [pgSize]; omega, Nat.testBit_two_pow_mul]
    simp
    omega
  rw [mkEntry, BitVec.getLsbD_or, BitVec.getLsbD_ofNat, hlow, Bool.and_false, Bool.false_or]

section Flags

variable (w : Word)

@[simp]
theorem pteAddr_setW : pteAddr (w ||| pteW) = pteAddr w := pteAddr_or (by decide)

@[simp]
theorem pteAddr_clearW : pteAddr (w &&& ~~~pteW) = pteAddr w := pteAddr_and_not (by decide)

@[simp]
theorem pteAddr_clearU : pteAddr (w &&& ~~~pteU) = pteAddr w := pteAddr_and_not (by decide)

@[simp]
theorem pteAddr_setA : pteAddr (w ||| pteA) = pteAddr w := pteAddr_or (by decide)

@[simp]
theorem pteAddr_setD : pteAddr (w ||| pteD) = pteAddr w := pteAddr_or (by decide)

@[simp]
theorem present_setW : Word.present (w ||| pteW) = Word.present w := by
  simp [Word.present, pteW]

@[simp]
theorem present_clearW : Word.present (w &&& ~~~pteW) = Word.present w := by
  simp [Word.present, pteW]

@[simp]
theorem present_clearU : Word.present (w &&& ~~~pteU) = Word.present w := by
  simp [Word.present, pteU]

@[simp]
theorem present_setA : Word.present (w ||| pteA) = Word.present w := by
  simp [Word.present, pteA]

@[simp]
theorem present_setD : Word.present (w ||| pteD) = Word.present w := by
  simp [Word.present, pteD]

@[simp]
theorem user_setW : Word.user (w ||| pteW) = Word.user w := by
  simp [Word.user, pteW]

@[simp]
theorem user_clearW : Word.user (w &&& ~~~pteW) = Word.user w := by
  simp [Word.user, pteW]

@[simp]
theorem user_setA : Word.user (w ||| pteA) = Word.user w := by
  simp [Word.user, pteA]

@[simp]
theorem user_setD : Word.user (w ||| pteD) = Word.user w := by
  simp [Word.user, pteD]

@[simp]
theorem writable_setW : Word.writable (w ||| pteW) = true := by
  simp [Word.writable, pteW]

@[simp]
theorem writable_clearW : Word.writable (w &&& ~~~pteW) = false := by
  simp [Word.writable, pteW]

@[simp]
theorem present_zero : Word.present 0#32 = false := by simp [Word.present]

end Flags

section Entry

variable {page : Nat}

@[simp]
theorem present_mkEntry : Word.present (mkEntry page (pteW ||| pteU ||| pteP)) = true := by
  rw [Word.present, getLsbD_mkEntry (by decide)]
  decide

@[simp]
theorem writable_mkEntry : Word.writable (mkEntry page (pteW ||| pteU ||| pteP)) = true := by
  rw [Word.writable, getLsbD_mkEntry (by decide)]
  decide

@[simp]
theorem user_mkEntry : Word.user (mkEntry page (pteW ||| pteU ||| pteP)) = true := by
  rw [Word.user, getLsbD_mkEntry (by decide)]
  decide

theorem mkEntry_or_pteW :
    mkEntry page (pteW ||| pteU ||| pteP) ||| pteW = mkEntry page (pteW ||| pteU ||| pteP) := by
  rw [mkEntry, BitVec.or_assoc]
  congr 1

theorem pteAddr_mkEntry_user (hpage : page < 2 ^ 20) :
    pteAddr (mkEntry page (pteW ||| pteU ||| pteP)) = page :=
  pteAddr_mkEntry hpage (by decide)

end Entry

end Xv6
