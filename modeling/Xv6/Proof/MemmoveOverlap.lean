import Xv6.Memmove

/-!
# Overlapping regions

The kernel's `memmove` chooses its direction, and the bytes it reads are never ones it has already
written. The loop of `ulib.c` always goes up: when the destination starts inside the source, every
byte past the start of the destination is read after it was overwritten.
-/

namespace Xv6

variable {mem mem' : ByteMem} {dst src : Word} {n i j : Nat}

def NoWrap (p : Word) (n : Nat) : Prop := p.toNat + n ≤ 2 ^ 32

structure Moved (mem mem' : ByteMem) (dst src : Word) (n : Nat) : Prop where
  copied : ∀ i < n, mem' (dst + BitVec.ofNat 32 i) = mem (src + BitVec.ofNat 32 i)
  frame : ∀ a : Word, a.toNat < dst.toNat ∨ dst.toNat + n ≤ a.toNat → mem' a = mem a

theorem toNat_offset {p : Word} (hp : NoWrap p n) (hi : i < n) :
    (p + BitVec.ofNat 32 i).toNat = p.toNat + i := by
  unfold NoWrap at hp
  rw [BitVec.toNat_add, BitVec.toNat_ofNat, Nat.mod_eq_of_lt (show i < 2 ^ 32 by omega)]
  exact Nat.mod_eq_of_lt (by omega)

theorem offset_eq_offset {p q : Word} (hp : NoWrap p n) (hi : i < n) (hq : NoWrap q n) (hj : j < n)
    (heq : p.toNat + i = q.toNat + j) : p + BitVec.ofNat 32 i = q + BitVec.ofNat 32 j := by
  apply BitVec.eq_of_toNat_eq
  rw [toNat_offset hp hi, toNat_offset hq hj]
  exact heq

theorem offset_succ (p : Word) (i : Nat) :
    p + BitVec.ofNat 32 (i + 1) = p + 1 + BitVec.ofNat 32 i := by
  rw [Nat.add_comm i 1, BitVec.ofNat_add, ← BitVec.add_assoc]
  rfl

theorem offset_succ_sub_one (p : Word) (i : Nat) :
    p + BitVec.ofNat 32 (i + 1) - 1 = p + BitVec.ofNat 32 i := by
  rw [BitVec.ofNat_add, ← BitVec.add_assoc]
  exact BitVec.add_sub_cancel ..

theorem copyUp_succ (n : Nat) (dst src : Word) (mem : ByteMem) :
    copyUp (n + 1) dst src mem =
      Function.update (copyUp n dst src mem) (dst + BitVec.ofNat 32 n)
        (copyUp n dst src mem (src + BitVec.ofNat 32 n)) := by
  induction n generalizing dst src mem with
  | zero => simp [copyUp]
  | succ n ih =>
    rw [copyUp, ih, offset_succ, offset_succ]
    rfl

theorem copyUp_of_outside (hdst : NoWrap dst n) {a : Word}
    (ha : a.toNat < dst.toNat ∨ dst.toNat + n ≤ a.toNat) : copyUp n dst src mem a = mem a := by
  induction n with
  | zero => rfl
  | succ n ih =>
    have hlast : (dst + BitVec.ofNat 32 n).toNat = dst.toNat + n :=
      toNat_offset hdst (Nat.lt_succ_self n)
    have hne : a ≠ dst + BitVec.ofNat 32 n := by
      intro heq
      rw [← heq] at hlast
      omega
    rw [copyUp_succ, Function.update_of_ne hne]
    exact ih (Nat.le_of_succ_le hdst) (by omega)

theorem copyUp_offset (hdst : NoWrap dst n) (hi : i < n) :
    copyUp n dst src mem (dst + BitVec.ofNat 32 i) =
      copyUp i dst src mem (src + BitVec.ofNat 32 i) := by
  induction n with
  | zero => exact absurd hi (Nat.not_lt_zero i)
  | succ n ih =>
    rw [copyUp_succ]
    rcases Nat.lt_succ_iff_lt_or_eq.mp hi with hlt | rfl
    · have hne : dst + BitVec.ofNat 32 i ≠ dst + BitVec.ofNat 32 n := by
        intro heq
        have hnat := congrArg BitVec.toNat heq
        rw [toNat_offset hdst hi, toNat_offset hdst (Nat.lt_succ_self n)] at hnat
        omega
      rw [Function.update_of_ne hne]
      exact ih (Nat.le_of_succ_le hdst) hlt
    · exact Function.update_self ..

theorem copyUp_reread (hdst : NoWrap dst n) (hsrc : NoWrap src n) (hij : i < j) (hj : j < n)
    (heq : src.toNat + j = dst.toNat + i) :
    copyUp n dst src mem (dst + BitVec.ofNat 32 j) =
      copyUp n dst src mem (dst + BitVec.ofNat 32 i) := by
  have hdst_j : NoWrap dst j := (Nat.add_le_add_left hj.le _).trans hdst
  rw [copyUp_offset hdst hj, copyUp_offset hdst (hij.trans hj),
    offset_eq_offset hsrc hj hdst (hij.trans hj) heq, copyUp_offset hdst_j hij]

theorem copyUp_moved (hdst : NoWrap dst n) (hsrc : NoWrap src n)
    (hread : ∀ i j, i < j → j < n → src.toNat + j = dst.toNat + i →
      mem (src + BitVec.ofNat 32 i) = mem (src + BitVec.ofNat 32 j)) :
    Moved mem (copyUp n dst src mem) dst src n := by
  refine ⟨?_, fun a ha => copyUp_of_outside hdst ha⟩
  intro j
  induction j using Nat.strong_induction_on with
  | _ j ih =>
    intro hj
    by_cases hinside : dst.toNat ≤ src.toNat + j ∧ src.toNat + j < dst.toNat + j
    · obtain ⟨i, hi⟩ := Nat.exists_eq_add_of_le hinside.1
      have hij : i < j := by omega
      calc copyUp n dst src mem (dst + BitVec.ofNat 32 j)
          = copyUp n dst src mem (dst + BitVec.ofNat 32 i) := copyUp_reread hdst hsrc hij hj hi
        _ = mem (src + BitVec.ofNat 32 i) := ih i hij (hij.trans hj)
        _ = mem (src + BitVec.ofNat 32 j) := hread i j hij hj hi
    · have hread_at : (src + BitVec.ofNat 32 j).toNat = src.toNat + j := toNat_offset hsrc hj
      rw [copyUp_offset hdst hj]
      apply copyUp_of_outside ((Nat.add_le_add_left hj.le _).trans hdst)
      omega

theorem eq_of_copyUp_moved (hdst : NoWrap dst n) (hsrc : NoWrap src n)
    (hmoved : Moved mem (copyUp n dst src mem) dst src n) (hlt : src.toNat < dst.toNat)
    (hi : dst.toNat + i < src.toNat + n) :
    mem (dst + BitVec.ofNat 32 i) = mem (src + BitVec.ofNat 32 i) := by
  obtain ⟨k, hk⟩ := Nat.exists_eq_add_of_lt hlt
  have hij : i < i + (k + 1) := by omega
  have hj : i + (k + 1) < n := by omega
  have heq : src.toNat + (i + (k + 1)) = dst.toNat + i := by omega
  calc mem (dst + BitVec.ofNat 32 i)
      = mem (src + BitVec.ofNat 32 (i + (k + 1))) := by
        rw [offset_eq_offset hsrc hj hdst (hij.trans hj) heq]
    _ = copyUp n dst src mem (dst + BitVec.ofNat 32 (i + (k + 1))) :=
        (hmoved.copied _ hj).symm
    _ = copyUp n dst src mem (dst + BitVec.ofNat 32 i) := copyUp_reread hdst hsrc hij hj heq
    _ = mem (src + BitVec.ofNat 32 i) := hmoved.copied i (hij.trans hj)

theorem copyDown_succ (n : Nat) (dst src : Word) (mem : ByteMem) :
    copyDown (n + 1) (dst + BitVec.ofNat 32 (n + 1)) (src + BitVec.ofNat 32 (n + 1)) mem =
      copyDown n (dst + BitVec.ofNat 32 n) (src + BitVec.ofNat 32 n)
        (Function.update mem (dst + BitVec.ofNat 32 n) (mem (src + BitVec.ofNat 32 n))) := by
  rw [copyDown, offset_succ_sub_one, offset_succ_sub_one]

theorem copyDown_moved (hdst : NoWrap dst n) (hsrc : NoWrap src n)
    (hle : src.toNat ≤ dst.toNat) :
    Moved mem (copyDown n (dst + BitVec.ofNat 32 n) (src + BitVec.ofNat 32 n) mem) dst src n := by
  induction n generalizing mem with
  | zero => exact ⟨fun i hi => absurd hi (Nat.not_lt_zero i), fun _ _ => rfl⟩
  | succ n ih =>
    have hlast : (dst + BitVec.ofNat 32 n).toNat = dst.toNat + n :=
      toNat_offset hdst (Nat.lt_succ_self n)
    rw [copyDown_succ]
    generalize hmem1 : Function.update mem (dst + BitVec.ofNat 32 n)
      (mem (src + BitVec.ofNat 32 n)) = mem1
    have hmoved : Moved mem1 _ dst src n :=
      ih (Nat.le_of_succ_le hdst) (Nat.le_of_succ_le hsrc)
    have hother : ∀ a : Word, a.toNat ≠ dst.toNat + n → mem1 a = mem a := by
      intro a ha
      rw [← hmem1]
      apply Function.update_of_ne
      intro heq
      exact ha (heq ▸ hlast)
    constructor
    · intro i hi
      rcases Nat.lt_succ_iff_lt_or_eq.mp hi with hlt | rfl
      · rw [hmoved.copied i hlt]
        apply hother
        rw [toNat_offset hsrc hi]
        omega
      · rw [hmoved.frame _ (.inr hlast.ge), ← hmem1]
        exact Function.update_self ..
    · intro a ha
      rw [hmoved.frame a (by omega)]
      exact hother a (by omega)

theorem memmove_moved {n : Word} (hdst : NoWrap dst n.toNat) (hsrc : NoWrap src n.toNat) :
    Moved mem (memmove dst src n mem).2 dst src n.toNat := by
  have hn : BitVec.ofNat 32 n.toNat = n := by simp
  unfold memmove
  split
  case isTrue hcond =>
    have hmoved := @copyDown_moved mem dst src n.toNat hdst hsrc (Nat.le_of_lt hcond.1)
    rwa [hn] at hmoved
  case isFalse hcond =>
    apply copyUp_moved hdst hsrc
    intro i j hij hj heq
    -- A byte overwritten before it is read makes both comparisons hold. The sum does not wrap:
    -- the destination ends later than the source does.
    refine absurd ⟨BitVec.lt_def.mpr (by omega), BitVec.lt_def.mpr ?_⟩ hcond
    unfold NoWrap at hdst
    rw [BitVec.toNat_add, Nat.mod_eq_of_lt (by omega)]
    omega

/-- The overlap of a destination that starts inside the source already holds what is moved there. -/
def OverlapFixed (mem : ByteMem) (dst src : Word) (n : Nat) : Prop :=
  src.toNat < dst.toNat → ∀ i, dst.toNat + i < src.toNat + n →
    mem (dst + BitVec.ofNat 32 i) = mem (src + BitVec.ofNat 32 i)

theorem copyUp_moved_iff (hdst : NoWrap dst n) (hsrc : NoWrap src n) :
    Moved mem (copyUp n dst src mem) dst src n ↔ OverlapFixed mem dst src n := by
  constructor
  · intro hmoved hlt i hi
    exact eq_of_copyUp_moved hdst hsrc hmoved hlt hi
  · intro hfixed
    apply copyUp_moved hdst hsrc
    intro i j hij hj heq
    rw [offset_eq_offset hsrc hj hdst (hij.trans hj) heq]
    exact (hfixed (by omega) i (by omega)).symm

/-- The kernel's `memmove` is safe for every overlap. The one of the user library is exactly when
the destination does not start inside the source, or the bytes of the overlap are already there. -/
theorem memmove_overlap (mem : ByteMem) (dst src n : Word) :
    (NoWrap dst n.toNat → NoWrap src n.toNat →
      Moved mem (memmove dst src n mem).2 dst src n.toNat) ∧
    (NoWrap dst n.toInt.toNat → NoWrap src n.toInt.toNat →
      (Moved mem (Ulib.memmove dst src n mem).2 dst src n.toInt.toNat ↔
        OverlapFixed mem dst src n.toInt.toNat)) :=
  ⟨memmove_moved, copyUp_moved_iff⟩

def twoBytes : ByteMem := fun a => if a = 0 then 7 else if a = 1 then 8 else 0

theorem memmove_overlap_twoBytes :
    Moved twoBytes (memmove 1 0 2 twoBytes).2 1 0 2 ∧
      Moved twoBytes (Ulib.memmove 0 1 2 twoBytes).2 0 1 2 := by
  have hzero : NoWrap 0 2 := by
    unfold NoWrap
    decide
  have hone : NoWrap 1 2 := by
    unfold NoWrap
    decide
  constructor
  · exact (memmove_overlap twoBytes 1 0 2).1 hone hzero
  · apply ((memmove_overlap twoBytes 0 1 2).2 hzero hone).mpr
    intro hlt
    exact absurd hlt (by decide)

/-- Two bytes moved up by one place: the second is overwritten before it is read. -/
theorem ulib_memmove_loses_byte :
    NoWrap 1 2 ∧ NoWrap 0 2 ∧ (memmove 1 0 2 twoBytes).2 2 = 8 ∧
      (Ulib.memmove 1 0 2 twoBytes).2 2 = 7 ∧
      ¬ Moved twoBytes (Ulib.memmove 1 0 2 twoBytes).2 1 0 2 := by
  have hlost : (Ulib.memmove 1 0 2 twoBytes).2 2 = 7 := by decide
  refine ⟨by unfold NoWrap; decide, by unfold NoWrap; decide, by decide, hlost, ?_⟩
  intro hmoved
  have hsecond : (Ulib.memmove 1 0 2 twoBytes).2 2 = 8 := hmoved.copied 1 (by decide)
  rw [hlost] at hsecond
  exact absurd hsecond (by decide)

end Xv6
