import Xv6.Trap
import Xv6.Proof.Booted
import Xv6.Proof.FaultContents

/-!
# Which page faults are served

`trap` looks at the write bit of the error code in `proc->tf` and compares the address with
`proc->sz`. For a fault in user mode `proc->tf` is the frame of the fault itself; for a fault in the
kernel it is the frame of the system call, whose error code is 0.
-/

namespace Xv6

def CowServable (s : Machine) (cur : Fin nproc) (va : Nat) : Prop :=
  match isshared s cur va with
  | some .nothing => (s.pde cur (va / pgSize / 1024)).present = true
  | some .frame => s.mapped cur (va / pgSize) ∧ 1 ≤ s.free.length
  | some .table => s.mapped cur (va / pgSize) ∧ 2 ≤ s.free.length
  | _ => False

section Serve

variable {s s' : Machine} {cur : Fin nproc}

theorem Reach.trapCOW_ok {va : Nat} (hR : Reach s cur (va / pgSize)) (hva : va < kernBase)
    (h : CowServable s cur va) : ∃ s', (trapCOW cur va).run s = .ok ((), s') := by
  simp only [CowServable] at h
  simp only [trapCOW, copypage, Kernel.run_get_bind]
  cases hlevel : isshared s cur va with
  | none => simp [hlevel] at h
  | some level =>
    cases level with
    | directory => simp [hlevel] at h
    | nothing =>
      simp only [hlevel] at h
      exact ⟨_, run_setptew s cur hva h⟩
    | frame =>
      simp only [hlevel] at h
      obtain ⟨hmap, hlen⟩ := h
      obtain ⟨f, rest, hfree⟩ := List.exists_cons_of_length_pos hlen
      have hentry := hR.withFrame_entry hmap hfree
      exact ⟨_, (Kernel.run_bind_of_ok (hR.run_copyFrame _ hva hmap hfree)).trans
        (run_setptew _ cur hva (by rw [hentry.1]; exact hmap.1))⟩
    | table =>
      simp only [hlevel] at h
      obtain ⟨hmap, hlen⟩ := h
      obtain ⟨t, l, hfree⟩ := List.exists_cons_of_length_pos (Nat.zero_lt_of_lt hlen)
      obtain ⟨f, rest, rfl⟩ := List.exists_cons_of_length_pos
        (l := l) (by rw [hfree, List.length_cons] at hlen; omega)
      have hR1 := hR.withTable hmap.1 hfree
      obtain ⟨hpde, hpte⟩ := hR.withTable_entry hfree
      have hmap1 : (s.withTable cur (va / pgSize / 1024) t (f :: rest)).mapped cur
          (va / pgSize) := ⟨by rw [hpde, present_mkEntry], by rw [hpte]; exact hmap.2⟩
      have hentry := hR1.withFrame_entry hmap1 (Eq.refl (f :: rest))
      exact ⟨_, (Kernel.run_bind_of_ok (hR.run_copyTable hva hmap.1 hfree)).trans
        ((Kernel.run_bind_of_ok (hR1.run_copyFrame _ hva hmap1 rfl)).trans
          (run_setptew _ cur hva (by rw [hentry.1]; exact hmap1.1)))⟩

theorem Reach.trapCOW_ok_iff {va : Nat} (hR : Reach s cur (va / pgSize)) (hva : va < kernBase) :
    (∃ s', (trapCOW cur va).run s = .ok ((), s')) ↔ CowServable s cur va := by
  refine ⟨?_, hR.trapCOW_ok hva⟩
  rintro ⟨s', h⟩
  cases hR.copypage_spec hva h with
  | nothing hlevel hpres => simp only [CowServable, hlevel, hpres]
  | frame hlevel hmap hfree => simp [CowServable, hlevel, hmap, hfree]
  | table hlevel hmap hfree => simp [CowServable, hlevel, hmap, hfree]

theorem Copied.proc_eq {va : Nat} (h : Copied s cur va s') :
    s'.proc = s.proc ∧ s'.initproc = s.initproc := by
  cases h <;> exact ⟨rfl, rfl⟩

end Serve

def PageFault.onUserPage (f : PageFault) (s : Machine) (cur : Fin nproc) : Prop :=
  f.write = true ∧ f.addr < (s.proc cur).sz ∧ (s.pte cur (f.addr / pgSize)).user = true

structure FaultHandled (s : Machine) (cur : Fin nproc) (f : PageFault) (junk : Word) : Prop where
  cow : f.onUserPage s cur →
    faultAction (procTf f.frame (f.older junk)) (s.proc cur).sz f.addr = .cow
  killed : f.user = true → ¬f.onUserPage s cur →
    ∃ s', (f.service cur junk).run s = .ok (.exited, s') ∧ (s'.proc cur).killed = true
  served : f.user = true → ∃ r, (f.service cur junk).run s = .ok r

/-- The faults that are handled as they should be. A store is looked at only if it comes from user
mode and lies at or below `sz`; and whatever kills init brings the system down. -/
def FaultServable (s : Machine) (cur : Fin nproc) (f : PageFault) : Prop :=
  if f.user then
    if f.write then
      f.addr ≤ (s.proc cur).sz ∧ CowServable s cur f.addr ∧
        ((s.proc cur).killed = true → cur ≠ s.initproc) ∧
        (f.onUserPage s cur ∨ (s.proc cur).killed = true)
    else cur ≠ s.initproc
  else ¬f.onUserPage s cur

theorem procTf_user {f : PageFault} (h : f.user = true) (junk : Word) :
    procTf f.frame (f.older junk) = f.frame := by
  simp [PageFault.older, h, procTf]

theorem err_write (f : PageFault) : f.frame.err &&& pteW ≠ 0 ↔ f.write = true := by
  obtain ⟨user, write, protection, addr⟩ := f
  cases user <;> cases write <;> cases protection <;>
    simp [PageFault.frame, TrapFrame.push, hasErrorCode, PageFault.err, tPgflt, pteW]

theorem faultAction_kernel {f : PageFault} (h : f.user = false) (junk : Word) (sz : Nat) :
    faultAction (procTf f.frame (f.older junk)) sz f.addr = .unexpected := by
  simp [PageFault.older, h, procTf, TrapFrame.push, hasErrorCode, tSyscall, faultAction]

theorem faultAction_user {f : PageFault} (h : f.user = true) (junk : Word) (sz : Nat) :
    faultAction (procTf f.frame (f.older junk)) sz f.addr =
      if f.write then (if f.addr ≤ sz then .cow else .outside) else .unexpected := by
  rw [procTf_user h, faultAction]
  simp only [err_write]

theorem service_user {s : Machine} {cur : Fin nproc} {f : PageFault} (h : f.user = true)
    (junk : Word) :
    (f.service cur junk).run s =
      ((pageFault cur f.frame f.frame f.addr).run s).bind fun r =>
        if (r.2.proc cur).killed then
          ((exit cur).run r.2).bind fun r' => .ok (.exited, r'.2)
        else .ok (.returned, r.2) := by
  have hcs : f.frame.cs % 4 = dplUser := by
    simp [PageFault.frame, TrapFrame.push, h, segUcode, dplUser]
  have hno : f.frame.trapno = tPgflt := rfl
  rw [PageFault.service, trap, if_pos hno, procTf_user h, Kernel.run_bind]
  cases (pageFault cur f.frame f.frame f.addr).run s with
  | error msg => rfl
  | ok r =>
    simp only [Except.bind, Kernel.run_get_bind, hcs, and_true]
    split
    · rw [Kernel.run_bind]
      cases (exit cur).run r.2 <;> rfl
    · rfl

def Machine.killed (s : Machine) (cur : Fin nproc) : Machine :=
  s.setProc cur { s.proc cur with killed := true }

theorem service_kernel {s : Machine} {cur : Fin nproc} {f : PageFault} (h : f.user = false)
    (junk : Word) : (f.service cur junk).run s = .error "trap" := by
  have hcs : f.frame.cs % 4 = 0 := by simp [PageFault.frame, TrapFrame.push, h, segKcode]
  have hno : f.frame.trapno = tPgflt := rfl
  rw [PageFault.service, trap, if_pos hno, Kernel.run_bind]
  simp only [pageFault, Kernel.run_get_bind, faultAction_kernel h, unexpectedTrap, if_pos hcs,
    Kernel.run_panic]

section User

variable {s : Machine} {cur : Fin nproc} {f : PageFault}

theorem service_read (huser : f.user = true) (hwrite : f.write = false) (junk : Word) :
    (f.service cur junk).run s =
      ((exit cur).run (s.killed cur)).bind fun r => .ok (.exited, r.2) := by
  have haction : faultAction f.frame (s.proc cur).sz f.addr = .unexpected := by
    rw [← procTf_user huser 0, faultAction_user huser, hwrite]
    rfl
  have hcs : f.frame.cs % 4 ≠ 0 := by
    simp [PageFault.frame, TrapFrame.push, huser, segUcode, dplUser]
  rw [service_user huser]
  simp only [pageFault, Kernel.run_get_bind, haction, unexpectedTrap, if_neg hcs, modifyProc,
    Kernel.run_modify, Except.bind, Machine.setProc_proc_self, if_pos]
  rfl

theorem service_outside (huser : f.user = true) (hwrite : f.write = true)
    (haddr : (s.proc cur).sz < f.addr) (junk : Word) :
    ¬∃ r, (f.service cur junk).run s = .ok r := by
  have haction : faultAction f.frame (s.proc cur).sz f.addr = .outside := by
    rw [← procTf_user huser 0, faultAction_user huser, hwrite, if_pos rfl,
      if_neg (Nat.not_le.mpr haddr)]
  rw [service_user huser]
  simp only [pageFault, Kernel.run_get_bind, haction, Kernel.run_panic, Except.bind, reduceCtorEq,
    exists_false, not_false_eq_true]

theorem service_cow (huser : f.user = true) (hwrite : f.write = true)
    (haddr : f.addr ≤ (s.proc cur).sz) (junk : Word) :
    (f.service cur junk).run s =
      ((trapCOW cur f.addr).run s).bind fun r =>
        if (r.2.proc cur).killed then
          ((exit cur).run r.2).bind fun r' => .ok (.exited, r'.2)
        else .ok (.returned, r.2) := by
  have haction : faultAction f.frame (s.proc cur).sz f.addr = .cow := by
    rw [← procTf_user huser 0, faultAction_user huser, hwrite, if_pos rfl, if_pos haddr]
  rw [service_user huser]
  simp only [pageFault, Kernel.run_get_bind, haction]

theorem faultHandled_kernel (huser : f.user = false) (junk : Word) :
    FaultHandled s cur f junk ↔ FaultServable s cur f := by
  rw [FaultServable, huser, if_neg (by simp)]
  constructor
  · intro h hpage
    have := h.cow hpage
    rw [faultAction_kernel huser] at this
    cases this
  · intro h
    refine ⟨fun hpage => absurd hpage h, ?_, ?_⟩
    · rw [huser]
      simp
    · rw [huser]
      simp

theorem faultHandled_read (huser : f.user = true) (hwrite : f.write = false) (junk : Word) :
    FaultHandled s cur f junk ↔ FaultServable s cur f := by
  have hpage : ¬f.onUserPage s cur := by simp [PageFault.onUserPage, hwrite]
  rw [FaultServable, huser, if_pos rfl, hwrite, if_neg (by simp)]
  constructor
  · intro h hinit
    obtain ⟨r, hr⟩ := h.served huser
    rw [service_read huser hwrite, run_exit_init (s := s.killed cur) hinit] at hr
    cases hr
  · intro hinit
    have hrun : (f.service cur junk).run s =
        .ok (.exited, (s.killed cur).exited cur) := by
      rw [service_read huser hwrite, run_exit (s := s.killed cur) hinit]
      rfl
    refine ⟨fun h => absurd h hpage, fun _ _ => ⟨_, hrun, ?_⟩, fun _ => ⟨_, hrun⟩⟩
    rw [Machine.exited_killed, Machine.killed, Machine.setProc_proc_self]

theorem faultHandled_outside (huser : f.user = true) (hwrite : f.write = true)
    (haddr : (s.proc cur).sz < f.addr) (junk : Word) :
    FaultHandled s cur f junk ↔ FaultServable s cur f := by
  rw [FaultServable, huser, if_pos rfl, hwrite, if_pos rfl]
  constructor
  · intro h
    exact absurd (h.served huser) (service_outside huser hwrite haddr junk)
  · rintro ⟨hle, -⟩
    exact absurd hle (Nat.not_le.mpr haddr)

theorem faultHandled_cow (hR : Reach s cur (f.addr / pgSize)) (hva : f.addr < kernBase)
    (huser : f.user = true) (hwrite : f.write = true) (haddr : f.addr ≤ (s.proc cur).sz)
    (junk : Word) : FaultHandled s cur f junk ↔ FaultServable s cur f := by
  rw [FaultServable, huser, if_pos rfl, hwrite, if_pos rfl]
  have hiff := hR.trapCOW_ok_iff hva
  have hrun : (f.service cur junk).run s = _ := service_cow huser hwrite haddr junk
  constructor
  · intro h
    obtain ⟨r, hr⟩ := h.served huser
    rw [hrun] at hr
    cases hcow : (trapCOW cur f.addr).run s with
    | error msg =>
      rw [hcow] at hr
      cases hr
    | ok r1 =>
      obtain ⟨_, s1⟩ := r1
      obtain ⟨hproc, hinit⟩ := (hR.copypage_spec hva hcow).proc_eq
      simp only [hcow, Except.bind, hproc] at hr hrun
      refine ⟨haddr, hiff.mp ⟨s1, hcow⟩, ?_, ?_⟩
      · intro hkilled heq
        rw [if_pos hkilled, run_exit_init (by rw [hinit]; exact heq)] at hr
        cases hr
      · by_contra hno
        rw [not_or] at hno
        obtain ⟨s', hexited, -⟩ := h.killed huser hno.1
        rw [hrun, if_neg hno.2] at hexited
        cases hexited
  · rintro ⟨-, hserv, hkilled, hpage⟩
    obtain ⟨s1, hcow⟩ := hiff.mpr hserv
    obtain ⟨hproc, hinit⟩ := (hR.copypage_spec hva hcow).proc_eq
    simp only [hcow, Except.bind, hproc] at hrun
    have hexit : (s.proc cur).killed = true →
        (f.service cur junk).run s = .ok (.exited, s1.exited cur) := by
      intro hk
      rw [hrun, if_pos hk, run_exit (by rw [hinit]; exact hkilled hk)]
    refine ⟨?_, ?_, ?_⟩
    · intro _
      rw [faultAction_user huser, hwrite, if_pos rfl, if_pos haddr]
    · intro _ hno
      have hk := hpage.resolve_left hno
      refine ⟨_, hexit hk, ?_⟩
      rw [Machine.exited_killed, hproc, hk]
    · intro _
      by_cases hk : (s.proc cur).killed = true
      · exact ⟨_, hexit hk⟩
      · exact ⟨_, by rw [hrun, if_neg hk]⟩

end User

/-- **Page-fault dispatch.** A fault is dispatched as it should be exactly when it is servable,
whatever the process has mapped. -/
theorem pageFault_handled_iff {s : Machine} {kind : Nat → PageKind} {H : Fin nproc → Prop}
    {cur : Fin nproc} (hS : Sorted s kind H) (hcur : H cur) (hsz : (s.proc cur).sz < kernBase)
    (f : PageFault) (junk : Word) : FaultHandled s cur f junk ↔ FaultServable s cur f := by
  cases huser : f.user with
  | false => exact faultHandled_kernel huser junk
  | true =>
    cases hwrite : f.write with
    | false => exact faultHandled_read huser hwrite junk
    | true =>
      by_cases haddr : f.addr ≤ (s.proc cur).sz
      · have hva : f.addr < kernBase := by omega
        exact faultHandled_cow (hS.reach hcur (page_lt_of_lt_kernBase hva)) hva huser hwrite haddr
          junk
      · exact faultHandled_outside huser hwrite (by omega) junk

def storeFault (va : Nat) : PageFault :=
  { user := true, write := true, protection := true, addr := va }

/-- A store to a page whose table is shared is handed to `trapCOW`, which serves it. -/
theorem pageFault_handled_sharedTable :
    (storeFault 5).onUserPage sharedTable 0 ∧ isshared sharedTable 0 5 = some .table ∧
      FaultHandled sharedTable 0 (storeFault 5) 0 := by
  have hpage : (storeFault 5).onUserPage sharedTable 0 := ⟨rfl, by decide, by decide⟩
  have hlevel : isshared sharedTable 0 5 = some .table := by decide
  refine ⟨hpage, hlevel, (pageFault_handled_iff sharedTable_sorted (by decide) (by decide) _ 0).mpr
    ⟨by decide, ?_, by decide, .inl hpage⟩⟩
  rw [CowServable, show (storeFault 5).addr = 5 from rfl, hlevel]
  exact ⟨⟨by decide, by decide +kernel⟩, by decide⟩

def kernelStore (va : Nat) : PageFault :=
  { user := false, write := true, protection := true, addr := va }

def wildStore (va : Nat) : PageFault :=
  { user := true, write := true, protection := false, addr := va }

/-- A system call that stores through a user pointer at address 0, and a user program that stores
one byte past its end, both bring the system down. -/
theorem pageFault_unhandled :
    (∀ a < 2, (booted 2 4).mapped 2 a) ∧ (kernelStore 0).onUserPage (booted 2 4) 2 ∧
    ∀ junk, ((kernelStore 0).service 2 junk).run (booted 2 4) = .error "trap" ∧
      (¬∃ r, ((wildStore (2 * pgSize + 1)).service 2 junk).run (booted 2 4) = .ok r) ∧
      ¬FaultHandled (booted 2 4) 2 (kernelStore 0) junk ∧
      ¬FaultHandled (booted 2 4) 2 (wildStore (2 * pgSize + 1)) junk := by
  have hp : (2 : Fin nproc).val < 3 := by decide
  have hsz : ((booted 2 4).proc 2).sz = 2 * pgSize := (booted_proc hp).1
  have hpage : (kernelStore 0).onUserPage (booted 2 4) 2 := by
    refine ⟨rfl, ?_, ?_⟩
    · rw [hsz]
      decide
    · change ((booted 2 4).pte 2 0).user = true
      rw [booted_pte hp (by decide), if_pos (by decide)]
      exact user_mkEntry
  have hout : ∀ junk,
      ¬∃ r, ((wildStore (2 * pgSize + 1)).service 2 junk).run (booted 2 4) = .ok r :=
    service_outside rfl rfl (by rw [hsz]; exact Nat.lt_succ_self _)
  have hmapped : ∀ a < 2, (booted 2 4).mapped 2 a := fun a ha =>
    ((booted_layout (by decide) (by decide) (by decide)).space 2 hp |>.mapped_iff (by omega)).mpr
      (by rw [Machine.pages, hsz]; exact ha)
  exact ⟨hmapped, hpage, fun junk => ⟨service_kernel rfl junk, hout junk,
    fun h => (faultHandled_kernel rfl junk).mp h hpage, fun h => hout junk (h.served rfl)⟩⟩

end Xv6
