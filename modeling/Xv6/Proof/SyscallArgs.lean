import Xv6.Syscall

/-!
# What the kernel touches through user pointers

The checks of `argint` and `argptr` keep every access inside the process as long as the length is
not negative. `sys_read` passes a negative length on, and `readi` takes it as a large unsigned one,
which only the size of the file cuts down.
-/

namespace Xv6

def Touch.Within {α : Type} (t : Touch α) (sz : Word) : Prop := ∀ x ∈ t.log, x < sz

namespace Touch

variable {α β : Type} {sz : Word}

theorem within_pure (a : α) : (pure a : Touch α).Within sz := by
  intro x hx
  cases hx

theorem within_fail : (fail : Touch α).Within sz := by
  intro x hx
  cases hx

theorem val_bind_eq_some {x : Touch α} {f : α → Touch β} {b : β} :
    (x >>= f).val = some b ↔ ∃ a, x.val = some a ∧ (f a).val = some b := by
  obtain ⟨log, val⟩ := x
  cases val with
  | none => simp [Bind.bind]
  | some a => simp [Bind.bind]

theorem within_bind {x : Touch α} {f : α → Touch β} :
    (x >>= f).Within sz ↔ x.Within sz ∧ ∀ a, x.val = some a → (f a).Within sz := by
  obtain ⟨log, val⟩ := x
  cases val with
  | none => simp [Within, Bind.bind]
  | some a => simp [Within, Bind.bind, or_imp, forall_and]

theorem within_bytes {p : Word} {n : Nat} (hsz : sz.toNat ≤ kernBase) (hp : p < sz) :
    (bytes p n).Within sz ↔ p.toNat + n ≤ sz.toNat := by
  have hp' : p.toNat < sz.toNat := hp
  simp only [kernBase] at hsz
  constructor
  · intro h
    by_contra hout
    have hmem : p + BitVec.ofNat 32 (sz.toNat - p.toNat) ∈ (bytes p n).log :=
      List.mem_map_of_mem (List.mem_range.mpr (by omega))
    have hlt : (p + BitVec.ofNat 32 (sz.toNat - p.toNat)).toNat < sz.toNat := h _ hmem
    rw [BitVec.toNat_add, BitVec.toNat_ofNat] at hlt
    omega
  · intro h x hx
    obtain ⟨k, hk, rfl⟩ := List.mem_map.mp hx
    rw [List.mem_range] at hk
    change (p + BitVec.ofNat 32 k).toNat < sz.toNat
    rw [BitVec.toNat_add, BitVec.toNat_ofNat]
    omega

theorem within_fields {p : Word} {offsets : List Nat} {size : Nat} (hsz : sz.toNat ≤ kernBase)
    (hp : p.toNat + size ≤ sz.toNat) (hoff : ∀ k ∈ offsets, k < size) :
    (fields p offsets).Within sz := by
  simp only [kernBase] at hsz
  intro x hx
  obtain ⟨k, hk, rfl⟩ := List.mem_map.mp hx
  have hlt := hoff k hk
  change (p + BitVec.ofNat 32 k).toNat < sz.toNat
  rw [BitVec.toNat_add, BitVec.toNat_ofNat]
  omega

end Touch

namespace UserProc

open Touch

variable {u : UserProc}

theorem fetchint_within (addr : Word) : (u.fetchint addr).Within u.sz := by
  have hsz := u.sz_le
  rw [fetchint]
  split
  · exact within_fail
  · rename_i hok
    rw [not_or] at hok
    have h1 : addr.toNat < u.sz.toNat := Nat.not_le.mp hok.1
    have h2 : (addr + 4).toNat ≤ u.sz.toNat := Nat.not_lt.mp hok.2
    rw [within_bind]
    refine ⟨(within_bytes hsz h1).mpr ?_, fun _ _ => within_pure _⟩
    simp only [kernBase] at hsz
    rw [BitVec.toNat_add, show (4 : Word).toNat = 4 from rfl] at h2
    omega

theorem fetchstrScan_within (s : Word) (left : Nat) (h : s.toNat + left = u.sz.toNat) :
    (u.fetchstrScan s left).Within u.sz := by
  have hsz := u.sz_le
  induction left generalizing s with
  | zero => exact within_fail
  | succ left ih =>
    have hs : s < u.sz := by
      change s.toNat < u.sz.toNat
      omega
    rw [fetchstrScan, within_bind]
    refine ⟨(within_bytes hsz hs).mpr (by omega), fun _ _ => ?_⟩
    split
    · exact within_pure _
    · apply ih
      simp only [kernBase] at hsz
      rw [BitVec.toNat_add, show (1 : Word).toNat = 1 from rfl]
      omega

theorem fetchstr_within (addr : Word) : (u.fetchstr addr).Within u.sz := by
  rw [fetchstr]
  split
  · exact within_fail
  · rename_i hok
    have h1 : addr.toNat < u.sz.toNat := Nat.not_le.mp hok
    exact fetchstrScan_within addr _ (by omega)

theorem argint_within (n : Nat) : (u.argint n).Within u.sz := fetchint_within _

theorem argstr_within (n : Nat) : (u.argstr n).Within u.sz := by
  rw [argstr, within_bind]
  exact ⟨argint_within n, fun addr _ => fetchstr_within addr⟩

theorem argfd_within (n : Nat) : (u.argfd n).Within u.sz := by
  rw [argfd, within_bind]
  refine ⟨argint_within n, fun fd _ => ?_⟩
  split
  · exact within_fail
  · split
    · exact within_fail
    · exact within_pure _

theorem argptr_within (n : Nat) (size : Word) : (u.argptr n size).Within u.sz := by
  rw [argptr, within_bind]
  refine ⟨argint_within n, fun i _ => ?_⟩
  split
  · exact within_fail
  · exact within_pure _

theorem argptr_some {n : Nat} {size p : Word} (h : (u.argptr n size).val = some p) :
    p < u.sz ∧ (p + size).toNat ≤ u.sz.toNat := by
  rw [argptr, val_bind_eq_some] at h
  obtain ⟨i, -, h⟩ := h
  split at h
  · cases h
  · rename_i hok
    rw [not_or] at hok
    obtain rfl : i = p := Option.some.inj h
    exact ⟨Nat.not_le.mp hok.1, Nat.not_lt.mp hok.2⟩

theorem argptr_some_nonneg {n : Nat} {size p : Word} (h : (u.argptr n size).val = some p)
    (hsize : 0 ≤ size.toInt) : p < u.sz ∧ p.toNat + size.toNat ≤ u.sz.toNat := by
  have hsz := u.sz_le
  obtain ⟨h1, h2⟩ := argptr_some h
  refine ⟨h1, ?_⟩
  have h1' : p.toNat < u.sz.toNat := h1
  simp only [kernBase] at hsz
  rw [BitVec.toInt_eq_toNat_cond] at hsize
  rw [BitVec.toNat_add] at h2
  split at hsize <;> omega

theorem bytes_within_le {p : Word} {n m : Nat} (hp : p < u.sz ∧ p.toNat + n ≤ u.sz.toNat)
    (hm : m ≤ n) : (bytes p m).Within u.sz :=
  (within_bytes u.sz_le hp.1).mpr (by omega)

theorem transfer_within {k : Nat} {n p : Word} (hp : (u.argptr k n).val = some p) (avail : Nat) :
    (bytes p (min avail n.toInt.toNat)).Within u.sz := by
  by_cases hn : 0 ≤ n.toInt
  · refine bytes_within_le (argptr_some_nonneg hp hn) ?_
    rw [BitVec.toInt_eq_toNat_cond] at hn ⊢
    split at hn <;> omega
  · have hzero : n.toInt.toNat = 0 := by omega
    rw [hzero, Nat.min_zero]
    exact (within_bytes u.sz_le (argptr_some hp).1).mpr (argptr_some hp).1.le

theorem filewriteLoop_within {addr off : Word} {n : Nat} (hp : addr.toNat + n ≤ u.sz.toNat)
    (fuel i : Nat) : (filewriteLoop addr off n fuel i).Within u.sz := by
  have hsz := u.sz_le
  simp only [kernBase] at hsz
  induction fuel generalizing i with
  | zero => exact within_pure _
  | succ fuel ih =>
    rw [filewriteLoop]
    split
    · rename_i hi
      dsimp only
      split
      · exact within_fail
      · rw [within_bind]
        refine ⟨?_, fun _ _ => ih _⟩
        have hnat : (addr + BitVec.ofNat 32 i).toNat = addr.toNat + i := by
          rw [BitVec.toNat_add, BitVec.toNat_ofNat]
          omega
        have hlt : addr + BitVec.ofNat 32 i < u.sz := by
          change (addr + BitVec.ofNat 32 i).toNat < u.sz.toNat
          omega
        refine (within_bytes u.sz_le hlt).mpr ?_
        rw [hnat]
        omega
    · exact within_pure _

theorem filewrite_within {k : Nat} {n p : Word} (hp : (u.argptr k n).val = some p) (f : FileView) :
    (filewrite f p n).Within u.sz := by
  rw [filewrite]
  split
  · exact within_fail
  · cases f.kind with
    | pipe avail => exact transfer_within hp avail
    | device avail => exact transfer_within hp avail
    | data off size =>
      dsimp only
      split
      · exact within_fail
      · apply filewriteLoop_within
        by_cases hn : 0 ≤ n.toInt
        · have hle := (argptr_some_nonneg hp hn).2
          rw [BitVec.toInt_eq_toNat_cond] at hn ⊢
          split at hn <;> omega
        · have hlt : p.toNat < u.sz.toNat := (argptr_some hp).1
          omega

theorem sysWrite_within : u.sysWrite.Within u.sz := by
  rw [sysWrite, within_bind]
  refine ⟨argfd_within 0, fun f _ => ?_⟩
  rw [within_bind]
  refine ⟨argint_within 2, fun n _ => ?_⟩
  rw [within_bind]
  exact ⟨argptr_within 1 n, fun p hp => filewrite_within hp f⟩

theorem sysFstat_within : u.sysFstat.Within u.sz := by
  rw [sysFstat, within_bind]
  refine ⟨argfd_within 0, fun f _ => ?_⟩
  rw [within_bind]
  refine ⟨argptr_within 1 _, fun st hst => ?_⟩
  have hstat : (fields st statFields).Within u.sz :=
    within_fields u.sz_le (argptr_some_nonneg hst (by decide)).2 (by decide)
  rw [filestat]
  cases f.kind with
  | pipe avail => exact within_fail
  | device avail => exact hstat
  | data off size => exact hstat

theorem sysPipe_within (fds : Bool) : (u.sysPipe fds).Within u.sz := by
  rw [sysPipe, within_bind]
  refine ⟨argptr_within 0 8, fun fd hfd => ?_⟩
  cases fds with
  | false => exact within_fail
  | true => exact bytes_within_le (argptr_some_nonneg hfd (by decide)) le_rfl

theorem execArgs_within (uargv : Word) (left i : Nat) :
    (u.execArgs uargv left i).Within u.sz := by
  induction left generalizing i with
  | zero => exact within_fail
  | succ left ih =>
    rw [execArgs, within_bind]
    refine ⟨fetchint_within _, fun uarg _ => ?_⟩
    split
    · exact within_pure _
    · rw [within_bind]
      exact ⟨fetchstr_within uarg, fun _ _ => ih _⟩

theorem sysExec_within : u.sysExec.Within u.sz := by
  rw [sysExec, within_bind]
  refine ⟨argstr_within 0, fun _ _ => ?_⟩
  rw [within_bind]
  exact ⟨argint_within 1, fun uargv _ => execArgs_within uargv maxarg 0⟩

/-- `readi` accepts a negative length as a large unsigned one unless the offset is past the end or
the sum wraps. The part of the file it then moves has to fit between the pointer and the end of the
process. -/
def TailFits (u : UserProc) (off size n p : Word) : Prop :=
  n.toInt < 0 → off ≤ size → off ≤ off + n →
    p.toNat + min (size - off).toNat n.toNat ≤ u.sz.toNat

/-- Every read of a file that the argument checks let through has a length that is not negative, or
the part of the file it moves fits. -/
def ReadFits (u : UserProc) : Prop :=
  ∀ f n p off size, (u.argfd 0).val = some f → (u.argint 2).val = some n →
    (u.argptr 1 n).val = some p → f.readable = true → f.kind = .data off size →
    u.TailFits off size n p

theorem readi_eq_bytes {dst off size n : Word} (h1 : off ≤ size) (h2 : off ≤ off + n) :
    readi dst off size n = bytes dst (min (size - off).toNat n.toNat) := by
  have h1' : off.toNat ≤ size.toNat := h1
  have h2' : off.toNat ≤ (off + n).toNat := h2
  have hguard : ¬(size < off ∨ off + n < off) := by
    rw [not_or, BitVec.not_lt, BitVec.not_lt]
    exact ⟨h1, h2⟩
  have hsub : (size - off).toNat = size.toNat - off.toNat := BitVec.toNat_sub_of_le h1
  rw [readi, if_neg hguard]
  rw [BitVec.toNat_add] at h2'
  split
  · rename_i hclip
    have hclip' : size.toNat < (off + n).toNat := hclip
    rw [BitVec.toNat_add] at hclip'
    rw [Nat.min_eq_left (by omega)]
  · rename_i hclip
    have hclip' : (off + n).toNat ≤ size.toNat := Nat.not_lt.mp hclip
    rw [BitVec.toNat_add] at hclip'
    rw [Nat.min_eq_right (by omega)]

theorem readi_within_iff {k : Nat} {n p off size : Word} (hp : (u.argptr k n).val = some p) :
    (readi p off size n).Within u.sz ↔ u.TailFits off size n p := by
  by_cases h1 : off ≤ size
  · by_cases h2 : off ≤ off + n
    · rw [readi_eq_bytes h1 h2, within_bytes u.sz_le (argptr_some hp).1]
      by_cases hn : n.toInt < 0
      · exact ⟨fun h _ _ _ => h, fun h => h hn h1 h2⟩
      · have hle := (argptr_some_nonneg hp (Int.not_lt.mp hn)).2
        exact ⟨fun _ hneg => absurd hneg hn, fun _ => by omega⟩
    · rw [readi, if_pos (.inr (BitVec.not_le.mp h2))]
      exact ⟨fun _ _ _ h => absurd h h2, fun _ => within_fail⟩
  · rw [readi, if_pos (.inl (BitVec.not_le.mp h1))]
    exact ⟨fun _ _ h => absurd h h1, fun _ => within_fail⟩

theorem fileread_within_iff {k : Nat} {n p : Word} (hp : (u.argptr k n).val = some p)
    (f : FileView) : (fileread f p n).Within u.sz ↔
      ∀ off size, f.readable = true → f.kind = .data off size → u.TailFits off size n p := by
  rw [fileread]
  cases hr : f.readable with
  | false => exact ⟨fun _ _ _ h => (nomatch h), fun _ => within_fail⟩
  | true =>
    rw [if_neg (by decide)]
    cases hk : f.kind with
    | pipe avail => exact ⟨fun _ _ _ _ h => (nomatch h), fun _ => transfer_within hp avail⟩
    | device avail => exact ⟨fun _ _ _ _ h => (nomatch h), fun _ => transfer_within hp avail⟩
    | data off size =>
      constructor
      · rintro h off' size' - heq
        cases heq
        exact (readi_within_iff hp).mp h
      · intro h
        exact (readi_within_iff hp).mpr (h off size rfl rfl)

theorem sysRead_within_iff : u.sysRead.Within u.sz ↔ u.ReadFits := by
  simp only [sysRead, within_bind, argfd_within, argint_within, argptr_within, true_and]
  constructor
  · intro h f n p off size hf hn hp
    exact (fileread_within_iff hp f).mp (h f hf n hn p hp) off size
  · intro h f hf n hn p hp
    exact (fileread_within_iff hp f).mpr fun off size => h f n p off size hf hn hp

structure PointersChecked (u : UserProc) (fds : Bool) : Prop where
  read : u.sysRead.Within u.sz
  write : u.sysWrite.Within u.sz
  fstat : u.sysFstat.Within u.sz
  pipe : (u.sysPipe fds).Within u.sz
  exec : u.sysExec.Within u.sz
  argint : ∀ n, (u.argint n).Within u.sz
  argstr : ∀ n, (u.argstr n).Within u.sz

/-- The checks protect the kernel exactly when no read of a file slips a negative length past them.
-/
theorem syscall_pointers_iff (u : UserProc) (fds : Bool) : u.PointersChecked fds ↔ u.ReadFits := by
  constructor
  · intro h
    exact sysRead_within_iff.mp h.read
  · intro h
    exact ⟨sysRead_within_iff.mpr h, sysWrite_within, sysFstat_within, sysPipe_within fds,
      sysExec_within, argint_within, argstr_within⟩

/-- A process of one page that reads its file of 100 bytes, with length -1, into its last 16 bytes.
-/
def negativeRead : UserProc where
  sz := 0x1000
  sz_le := by decide
  esp := 0x100
  mem addr :=
    -- fd 0 at 0x104, the pointer 0xff0 at 0x108, the length 0xffffffff at 0x10c
    if addr = 0x108 then 0xf0
    else if addr = 0x109 then 0x0f
    else if 0x10c ≤ addr ∧ addr < 0x110 then 0xff
    else 0
  ofile fd := if fd = 0 then some ⟨true, false, .data 0 100⟩ else none

/-- The kernel writes the file past the end of the process. -/
theorem syscall_pointers_negativeRead :
    negativeRead.sysRead.val = some () ∧ 0x1000 ∈ negativeRead.sysRead.log ∧
      ¬(0x1000 : Word) < negativeRead.sz ∧ ¬negativeRead.PointersChecked true := by
  have hmem : 0x1000 ∈ negativeRead.sysRead.log := by decide
  have hout : ¬(0x1000 : Word) < negativeRead.sz := by decide
  exact ⟨by decide, hmem, hout, fun h => hout (h.read _ hmem)⟩

end UserProc

end Xv6
