import Mathlib.Data.List.Basic
import Xv6.Lib.Counter
import Xv6.Pipe

/-!
# A pipe is a lossless queue

The counters are compared with the numbers of bytes ever stored and ever taken: they are these
numbers modulo `2 ^ 32`, and since the size of the buffer divides `2 ^ 32` the slot of a byte
depends only on its number. The bytes stored and not yet taken are in their slots.
-/

namespace Xv6

def PipeTask.bytes : PipeTask → List Byte
  | .write addr _ i => (List.range i).map addr
  | _ => []

def PipeTask.copied : PipeTask → List Byte
  | .copy _ buf => buf
  | _ => []

namespace PipePc

def bytes : PipePc → List Byte
  | .idle => []
  | .acquiring t | .locked t | .asleep _ t => t.bytes

def copied : PipePc → List Byte
  | .locked t => t.copied
  | _ => []

def task : PipePc → Option PipeTask
  | .idle => none
  | .acquiring t | .locked t | .asleep _ t => some t

def parked : PipePc → Option PipeTask
  | .acquiring t | .asleep _ t => some t
  | _ => none

end PipePc

section Fields

variable {ι : Type} [DecidableEq ι] (s : PipeSys ι) (p : ι) (pc : PipePc) (c : PipeChan)
  (addr : Nat → Byte) (i : Nat)

@[simp]
theorem PipeSys.setPc_done : (s.setPc p pc).done = s.done := rfl

@[simp]
theorem PipeSys.setPc_returned : (s.setPc p pc).returned = s.returned := rfl

omit [DecidableEq ι] in
@[simp]
theorem PipeSys.wakeup_done : (s.wakeup c).done = s.done := rfl

omit [DecidableEq ι] in
@[simp]
theorem PipeSys.wakeup_returned : (s.wakeup c).returned = s.returned := rfl

@[simp]
theorem PipeSys.finishWrite_returned : (s.finishWrite p addr i).returned = s.returned := rfl

@[simp]
theorem PipeSys.finishWrite_done_self :
    (s.finishWrite p addr i).done p = s.done p ++ (List.range i).map addr := by
  simp [PipeSys.finishWrite]

theorem PipeSys.finishWrite_done_of_ne {q : ι} (h : q ≠ p) :
    (s.finishWrite p addr i).done q = s.done q := by
  simp [PipeSys.finishWrite, Function.update_of_ne h]

end Fields

section Wake

variable (c : PipeChan) (pc : PipePc)

@[simp]
theorem bytes_wakePc : (PipeSys.wakePc c pc).bytes = pc.bytes := by
  cases pc with
  | asleep c' t =>
    simp only [PipeSys.wakePc]
    split <;> rfl
  | _ => rfl

@[simp]
theorem copied_wakePc : (PipeSys.wakePc c pc).copied = pc.copied := by
  cases pc with
  | asleep c' t =>
    simp only [PipeSys.wakePc]
    split <;> rfl
  | _ => rfl

@[simp]
theorem parked_wakePc : (PipeSys.wakePc c pc).parked = pc.parked := by
  cases pc with
  | asleep c' t =>
    simp only [PipeSys.wakePc]
    split <;> rfl
  | _ => rfl

@[simp]
theorem task_wakePc : (PipeSys.wakePc c pc).task = pc.task := by
  cases pc with
  | asleep c' t =>
    simp only [PipeSys.wakePc]
    split <;> rfl
  | _ => rfl

theorem wakePc_eq_locked {t : PipeTask} : PipeSys.wakePc c pc = .locked t ↔ pc = .locked t := by
  cases pc with
  | asleep c' t' =>
    simp only [PipeSys.wakePc]
    split <;> simp
  | _ => rfl

theorem bytes_roused : pc.roused.bytes = pc.bytes := by cases pc <;> rfl

theorem copied_roused : pc.roused.copied = pc.copied := by cases pc <;> rfl

theorem parked_roused : pc.roused.parked = pc.parked := by cases pc <;> rfl

theorem task_roused : pc.roused.task = pc.task := by cases pc <;> rfl

theorem roused_eq_locked {t : PipeTask} : pc.roused = .locked t ↔ pc = .locked t := by
  cases pc <;> simp [PipePc.roused]

end Wake

def PipeSys.copied {ι : Type} (s : PipeSys ι) : List Byte :=
  match s.lock with
  | none => []
  | some p => (s.pc p).copied

structure PipeInv {ι : Type} [DecidableEq ι] (s : PipeSys ι) (taken : Nat) : Prop where
  locked : ∀ p t, s.pc p = .locked t → s.lock = some p
  parked : ∀ p t, (s.pc p).parked = some t → ∀ n buf, t ≠ .copy n buf
  nread : s.pipe.nread = BitVec.ofNat 32 taken
  nwrite : s.pipe.nwrite = BitVec.ofNat 32 s.written.length
  le : taken ≤ s.written.length
  room : s.written.length ≤ taken + pipeSize
  slot : ∀ k b, taken ≤ k → (s.written.map Prod.snd)[k]? = some b →
    s.pipe.data (k % pipeSize) = b
  took : s.returned.flatten ++ s.copied = (s.written.map Prod.snd).take taken
  order : ∀ p, (s.written.filter fun e => e.1 = p).map Prod.snd = s.done p ++ (s.pc p).bytes
  waited : ∀ p n, s.pc p = .locked (.copy n []) → s.pipe.empty = true → s.pipe.writeopen = false
  stored : ∀ p addr n i, (s.pc p).task = some (.write addr n i) → i ≤ n.toNat

theorem pipeInv_init {ι : Type} [DecidableEq ι] (data : Nat → Byte) :
    PipeInv (PipeSys.init data : PipeSys ι) 0 where
  locked p t h := by cases h
  parked p t h := by cases h
  nread := rfl
  nwrite := rfl
  le := le_rfl
  room := Nat.zero_le _
  slot k b _ h := by simp [PipeSys.init] at h
  took := by simp [PipeSys.init, PipeSys.copied]
  order p := by simp [PipeSys.init, PipePc.bytes]
  waited p n h := by cases h
  stored p addr n i h := by cases h

section Counters

variable {ι : Type} [DecidableEq ι] {s : PipeSys ι} {taken : Nat}

theorem slot_eq (k : Nat) : (BitVec.ofNat 32 k).toNat % pipeSize = k % pipeSize :=
  slot_of_dvd ⟨2 ^ 23, by decide⟩ k

theorem PipeInv.empty_iff (h : PipeInv s taken) :
    s.pipe.empty = true ↔ taken = s.written.length := by
  have hroom := h.room
  simp only [pipeSize] at hroom
  rw [Pipe.empty, decide_eq_true_eq, h.nread, h.nwrite]
  exact ofNat_eq_iff h.le (by omega)

theorem PipeInv.full_iff (h : PipeInv s taken) :
    s.pipe.full = true ↔ s.written.length = taken + pipeSize := by
  have hroom := h.room
  have hle := h.le
  simp only [pipeSize] at hroom
  rw [Pipe.full, decide_eq_true_eq, h.nread, h.nwrite, ← BitVec.ofNat_add]
  refine ofNat_eq_iff hroom ?_
  simp only [pipeSize]
  omega

theorem PipeInv.count (h : PipeInv s taken) :
    (s.pipe.nwrite - s.pipe.nread).toNat = s.written.length - taken := by
  have hroom := h.room
  have hle := h.le
  simp only [pipeSize] at hroom
  rw [h.nread, h.nwrite]
  exact toNat_ofNat_sub hle (by omega)

end Counters

section Steps

variable {ι : Type} [DecidableEq ι] {s : PipeSys ι} {taken : Nat} {p : ι}

omit [DecidableEq ι] in
theorem PipeSys.copied_eq {t : PipeTask} (hlock : s.lock = some p) (hpc : s.pc p = .locked t) :
    s.copied = t.copied := by
  simp only [PipeSys.copied, hlock, hpc, PipePc.copied]

theorem PipeInv.wakeup (h : PipeInv s taken) (c : PipeChan) : PipeInv (s.wakeup c) taken where
  locked q t hq := h.locked q t ((wakePc_eq_locked c _).mp hq)
  parked q t hq := h.parked q t (by rwa [PipeSys.wakeup, parked_wakePc] at hq)
  nread := h.nread
  nwrite := h.nwrite
  le := h.le
  room := h.room
  slot := h.slot
  took := by
    have hcopied : (s.wakeup c).copied = s.copied := by
      simp only [PipeSys.copied, PipeSys.wakeup]
      split <;> simp
    rw [hcopied]
    exact h.took
  order q := by
    rw [PipeSys.wakeup, bytes_wakePc]
    exact h.order q
  waited q n hq := h.waited q n ((wakePc_eq_locked c _).mp hq)
  stored q addr n i hq := h.stored q addr n i (by rwa [PipeSys.wakeup, task_wakePc] at hq)

theorem PipeInv.eq_of_locked (h : PipeInv s taken) {q : ι} {t t' : PipeTask}
    (hpc : s.pc p = .locked t) (hq : s.pc q = .locked t') : q = p := by
  have hlock := h.locked q t' hq
  rw [h.locked p t hpc] at hlock
  exact (Option.some.inj hlock).symm

theorem PipeInv.move (h : PipeInv s taken) {q : ι} {pc : PipePc} {lock : Option ι}
    (killed : ι → Bool) {done : ι → List Byte} {returned : List (List Byte)}
    (hlock : ∀ t, pc = .locked t → lock = some q)
    (hother : ∀ r ≠ q, ∀ t, s.pc r = .locked t → lock = s.lock)
    (hparked : ∀ t, pc.parked = some t → ∀ n buf, t ≠ .copy n buf)
    (hcopied : returned.flatten ++ PipeSys.copied { s.setPc q pc with lock := lock } =
      s.returned.flatten ++ s.copied)
    (hbytes : done q ++ pc.bytes = s.done q ++ (s.pc q).bytes)
    (hdone : ∀ r ≠ q, done r = s.done r)
    (hwaited : ∀ n, pc = .locked (.copy n []) → s.pipe.empty = true → s.pipe.writeopen = false)
    (hstored : ∀ addr n i, pc.task = some (.write addr n i) → i ≤ n.toNat) :
    PipeInv { s.setPc q pc with
      lock := lock, killed := killed, done := done, returned := returned } taken := by
  have hself : (s.setPc q pc).pc q = pc := Function.update_self ..
  have hne : ∀ r ≠ q, (s.setPc q pc).pc r = s.pc r := fun r hr => Function.update_of_ne hr ..
  refine ⟨?_, ?_, h.nread, h.nwrite, h.le, h.room, h.slot, hcopied.trans h.took, ?_, ?_, ?_⟩
  · intro r t hr
    change (s.setPc q pc).pc r = _ at hr
    by_cases hrq : r = q
    · rw [hrq, hself] at hr
      rw [hrq]
      exact hlock t hr
    · rw [hne r hrq] at hr
      exact (hother r hrq t hr).trans (h.locked r t hr)
  · intro r t hr
    change ((s.setPc q pc).pc r).parked = _ at hr
    by_cases hrq : r = q
    · rw [hrq, hself] at hr
      exact hparked t hr
    · rw [hne r hrq] at hr
      exact h.parked r t hr
  · intro r
    change _ = done r ++ ((s.setPc q pc).pc r).bytes
    by_cases hrq : r = q
    · rw [hrq, hself, hbytes]
      exact h.order q
    · rw [hne r hrq, hdone r hrq]
      exact h.order r
  · intro r n hr
    change (s.setPc q pc).pc r = _ at hr
    by_cases hrq : r = q
    · rw [hrq, hself] at hr
      exact hwaited n hr
    · rw [hne r hrq] at hr
      exact h.waited r n hr
  · intro r addr n i hr
    change ((s.setPc q pc).pc r).task = _ at hr
    by_cases hrq : r = q
    · rw [hrq, hself] at hr
      exact hstored addr n i hr
    · rw [hne r hrq] at hr
      exact h.stored r addr n i hr

theorem PipeSys.copied_setPc {q : ι} {pc : PipePc} (hpc : pc.copied = (s.pc q).copied) :
    PipeSys.copied { s.setPc q pc with lock := s.lock } = s.copied := by
  simp only [PipeSys.copied]
  cases hlock : s.lock with
  | none => rfl
  | some r =>
    by_cases hr : r = q
    · simp [PipeSys.setPc, hr, hpc]
    · simp [PipeSys.setPc, Function.update_of_ne hr]

theorem PipeInv.leave (h : PipeInv s taken) {t : PipeTask} (hpc : s.pc p = .locked t)
    {pc : PipePc} (hpc' : ∀ t', pc ≠ .locked t')
    (hcopy : ∀ n buf, pc.parked = some (.copy n buf) → False) {done : ι → List Byte}
    (hdone : done p ++ pc.bytes = s.done p ++ t.bytes) (hother : ∀ q ≠ p, done q = s.done q)
    {returned : List (List Byte)} (hret : returned.flatten = s.returned.flatten ++ t.copied)
    (hstored : ∀ addr n i, pc.task = some (.write addr n i) → i ≤ n.toNat) :
    PipeInv { s.unlock p pc with done := done, returned := returned } taken := by
  refine h.move s.killed (fun t' ht => absurd ht (hpc' t'))
    (fun r hr t' ht => absurd (h.eq_of_locked hpc ht) hr) (fun t' ht n buf heq => ?_) ?_ ?_ hother
    (fun n hn => absurd hn (hpc' _)) hstored
  · exact hcopy n buf (heq ▸ ht)
  · rw [PipeSys.copied_eq (h.locked p t hpc) hpc]
    exact (List.append_nil _).trans hret
  · rw [hpc]
    exact hdone

theorem PipeInv.setPc (h : PipeInv s taken) {t t' : PipeTask} (hpc : s.pc p = .locked t)
    (hbytes : t'.bytes = t.bytes) (hcopied : t'.copied = t.copied)
    (hwaited : ∀ n, t' = .copy n [] → s.pipe.empty = true → s.pipe.writeopen = false)
    (hstored : ∀ addr n i, t' = .write addr n i → i ≤ n.toNat) :
    PipeInv (s.setPc p (.locked t')) taken := by
  refine h.move s.killed (fun _ _ => h.locked p t hpc) (fun _ _ _ _ => rfl)
    (by simp [PipePc.parked]) (congrArg _ (PipeSys.copied_setPc ?_)) ?_ (fun _ _ => rfl) ?_ ?_
  · rw [hpc]
    exact hcopied
  · rw [hpc]
    exact congrArg _ hbytes
  · exact fun n hn => hwaited n (PipePc.locked.inj hn)
  · exact fun addr n i ht => hstored addr n i (Option.some.inj ht)

/-! What holds of the processes when the one at the lock goes on. -/

theorem PipeInv.only_locked (h : PipeInv s taken) {t t' t'' : PipeTask} {q : ι}
    (hpc : s.pc p = .locked t) (hq : (s.setPc p (.locked t')).pc q = .locked t'') : t'' = t' := by
  by_cases hqp : q = p
  · simpa [PipeSys.setPc, hqp, eq_comm] using hq
  · exact absurd (h.eq_of_locked hpc (by simpa [PipeSys.setPc, Function.update_of_ne hqp] using hq))
      hqp

theorem PipeInv.locked_setPc (h : PipeInv s taken) {t t' t'' : PipeTask} {q : ι}
    (hpc : s.pc p = .locked t) (hq : (s.setPc p (.locked t')).pc q = .locked t'') :
    s.lock = some q := by
  by_cases hqp : q = p
  · rw [hqp]
    exact h.locked p t hpc
  · exact h.locked q t'' (by simpa [PipeSys.setPc, Function.update_of_ne hqp] using hq)

theorem PipeInv.parked_setPc (h : PipeInv s taken) {t' t'' : PipeTask} {q : ι}
    (hq : ((s.setPc p (.locked t')).pc q).parked = some t'') : ∀ n buf, t'' ≠ .copy n buf := by
  by_cases hqp : q = p
  · simp [PipeSys.setPc, hqp, PipePc.parked] at hq
  · exact h.parked q t'' (by simpa [PipeSys.setPc, Function.update_of_ne hqp] using hq)

theorem PipeInv.put (h : PipeInv s taken) {addr : Nat → Byte} {n : Int} {i : Nat}
    (hpc : s.pc p = .locked (.write addr n i)) (hi : (i : Int) < n)
    (hfull : ¬s.pipe.full = true) :
    PipeInv { s.setPc p (.locked (.write addr n (i + 1))) with
      pipe := s.pipe.put (addr i), written := s.written ++ [(p, addr i)] } taken where
  locked _ _ hq := h.locked_setPc hpc hq
  parked _ _ hq := h.parked_setPc hq
  nread := h.nread
  nwrite := by
    simp only [Pipe.put, h.nwrite, List.length_append, List.length_cons, List.length_nil]
    exact (BitVec.ofNat_add _ 1).symm
  le := by
    rw [List.length_append]
    exact h.le.trans (Nat.le_add_right _ _)
  room := by
    have hroom := h.room
    rw [h.full_iff] at hfull
    simp only [List.length_append, List.length_cons, List.length_nil]
    omega
  slot k b hk hb := by
    have hroom := h.room
    rw [h.full_iff] at hfull
    rw [List.map_append, List.getElem?_append] at hb
    simp only [Pipe.put, h.nwrite, slot_eq]
    split at hb
    · rename_i hlt
      rw [List.length_map] at hlt
      -- the new byte's slot is not that of a byte still in the buffer
      rw [Function.update_of_ne]
      · exact h.slot k b hk hb
      · intro heq
        simp only [pipeSize] at *
        omega
    · rename_i hge
      rw [List.length_map] at hge hb
      have hk' : k - s.written.length = 0 := by
        by_contra hne
        rw [List.getElem?_eq_none (by simp; omega)] at hb
        cases hb
      obtain rfl : k = s.written.length := by omega
      rw [hk'] at hb
      simp only [List.map_cons, List.map_nil, List.getElem?_cons_zero, Option.some.injEq] at hb
      rw [Function.update_self, hb]
  took := by
    have htook := h.took
    rw [PipeSys.copied_eq (h.locked p _ hpc) hpc] at htook
    refine (congrArg (_ ++ ·)
      (PipeSys.copied_eq (p := p) (t := .write addr n (i + 1)) ?_ ?_)).trans ?_
    · exact h.locked p _ hpc
    · simp [PipeSys.setPc]
    rw [List.map_append, List.take_append_of_le_length (by rw [List.length_map]; exact h.le)]
    exact htook
  order q := by
    by_cases hqp : q = p
    · have horder := h.order p
      rw [hpc] at horder
      rw [hqp, List.filter_append, List.map_append, horder]
      simp [PipeSys.setPc, PipePc.bytes, PipeTask.bytes, List.range_succ]
    · rw [List.filter_append, List.map_append, h.order q]
      simp [PipeSys.setPc, Function.update_of_ne hqp, Ne.symm hqp]
  waited _ _ hq := absurd (h.only_locked hpc hq) (by simp)
  stored q addr' n' i' hq := by
    by_cases hqp : q = p
    · simp only [PipeSys.setPc, hqp, Function.update_self, PipePc.task, Option.some.injEq,
        PipeTask.write.injEq] at hq
      omega
    · exact h.stored q addr' n' i' (by simpa [PipeSys.setPc, Function.update_of_ne hqp] using hq)

theorem PipeInv.advance (h : PipeInv s taken) {n : Int} {buf : List Byte}
    (hpc : s.pc p = .locked (.copy n buf)) (hempty : ¬s.pipe.empty = true) :
    PipeInv { s.setPc p (.locked (.copy n (buf ++ [s.pipe.next]))) with
      pipe := s.pipe.advance } (taken + 1) where
  locked _ _ hq := h.locked_setPc hpc hq
  parked _ _ hq := h.parked_setPc hq
  nread := by
    simp only [Pipe.advance, h.nread]
    exact (BitVec.ofNat_add _ 1).symm
  nwrite := h.nwrite
  le := by
    have hle := h.le
    rw [h.empty_iff] at hempty
    change taken + 1 ≤ s.written.length
    omega
  room := by
    have hroom := h.room
    change s.written.length ≤ taken + 1 + pipeSize
    omega
  slot k b hk hb := h.slot k b (by omega) hb
  took := by
    have hle := h.le
    rw [h.empty_iff] at hempty
    have hlt : taken < (s.written.map Prod.snd).length := by
      rw [List.length_map]
      omega
    have hnext : (s.written.map Prod.snd)[taken] = s.pipe.next := by
      rw [Pipe.next, h.nread, slot_eq]
      exact (h.slot taken _ le_rfl (List.getElem?_eq_getElem hlt)).symm
    have htook := h.took
    rw [PipeSys.copied_eq (h.locked p _ hpc) hpc] at htook
    refine (congrArg (_ ++ ·)
      (PipeSys.copied_eq (p := p) (t := .copy n (buf ++ [s.pipe.next])) ?_ ?_)).trans ?_
    · exact h.locked p _ hpc
    · simp [PipeSys.setPc]
    change s.returned.flatten ++ (buf ++ [s.pipe.next]) = (s.written.map Prod.snd).take (taken + 1)
    rw [List.take_succ_eq_append_getElem hlt, hnext, ← htook, List.append_assoc]
    rfl
  order q := by
    by_cases hqp : q = p
    · have horder := h.order p
      rw [hpc] at horder
      rw [hqp]
      simpa [PipeSys.setPc, PipePc.bytes, PipeTask.bytes] using horder
    · simpa [PipeSys.setPc, Function.update_of_ne hqp] using h.order q
  waited _ _ hq := absurd (h.only_locked hpc hq) (by simp)
  stored q addr' n' i' hq := by
    by_cases hqp : q = p
    · simp [PipeSys.setPc, hqp, PipePc.task] at hq
    · exact h.stored q addr' n' i' (by simpa [PipeSys.setPc, Function.update_of_ne hqp] using hq)

theorem PipeInv.closeEnd (h : PipeInv s taken) {pipe : Pipe} (hdata : pipe.data = s.pipe.data)
    (hnread : pipe.nread = s.pipe.nread) (hnwrite : pipe.nwrite = s.pipe.nwrite)
    (hopen : pipe.writeopen = true → s.pipe.writeopen = true) :
    PipeInv { s with pipe := pipe } taken where
  locked := h.locked
  parked := h.parked
  nread := hnread.trans h.nread
  nwrite := hnwrite.trans h.nwrite
  le := h.le
  room := h.room
  slot k b hk hb := by
    change pipe.data _ = b
    rw [hdata]
    exact h.slot k b hk hb
  took := h.took
  order := h.order
  waited q n hq hempty := by
    have hempty' : s.pipe.empty = true := by
      rw [Pipe.empty, ← hnread, ← hnwrite]
      exact hempty
    have hclosed := h.waited q n hq hempty'
    by_contra hne
    rw [hopen (by simpa using hne)] at hclosed
    cases hclosed
  stored := h.stored

theorem PipeInv.stepWrite (h : PipeInv s taken) {addr : Nat → Byte} {n : Int} {i : Nat}
    (hpc : s.pc p = .locked (.write addr n i)) : PipeInv (s.stepWrite p addr n i) taken := by
  have hstored := h.stored p addr n i (by rw [hpc]; rfl)
  rw [PipeSys.stepWrite]
  split
  · rename_i hi
    split
    · split
      · exact h.leave hpc (by simp) (by simp [PipePc.parked])
          (by simp [PipePc.bytes, PipeTask.bytes])
          (fun q hq => s.finishWrite_done_of_ne p addr i hq) (by simp [PipeTask.copied])
          (by simp [PipePc.task])
      · have hw := h.wakeup .nread
        exact hw.leave ((wakePc_eq_locked .nread _).mpr hpc) (by simp) (by simp [PipePc.parked])
          (by simp [PipePc.bytes]) (fun _ _ => rfl)
          (by simp [PipeTask.copied])
          (by
            simp only [PipePc.task, Option.some.injEq, PipeTask.write.injEq]
            rintro addr' n' i' ⟨-, rfl, rfl⟩
            exact hstored)
    · rename_i hfull
      exact h.put hpc hi hfull
  · have hw := h.wakeup .nread
    exact hw.leave ((wakePc_eq_locked .nread _).mpr hpc) (by simp) (by simp [PipePc.parked])
      (by simp [PipePc.bytes, PipeTask.bytes])
      (fun q hq => s.finishWrite_done_of_ne p addr i hq)
      (by simp [PipeTask.copied]) (by simp [PipePc.task])

theorem PipeInv.stepWait (h : PipeInv s taken) {n : Int} (hpc : s.pc p = .locked (.wait n)) :
    PipeInv (s.stepWait p n) taken := by
  rw [PipeSys.stepWait]
  split
  · split
    · exact h.leave hpc (by simp) (by simp [PipePc.parked]) (by simp [PipePc.bytes, PipeTask.bytes])
        (fun _ _ => rfl) (by simp [PipeTask.copied]) (by simp [PipePc.task])
    · exact h.leave hpc (by simp) (by simp [PipePc.parked]) (by simp [PipePc.bytes])
        (fun _ _ => rfl) (by simp [PipeTask.copied]) (by simp [PipePc.task])
  · rename_i hgo
    refine h.setPc hpc rfl rfl (fun m _ hempty => ?_) (by simp)
    simpa [hempty] using hgo

theorem PipeInv.stepCopy (h : PipeInv s taken) {n : Int} {buf : List Byte}
    (hpc : s.pc p = .locked (.copy n buf)) : ∃ taken', PipeInv (s.stepCopy p n buf) taken' := by
  rw [PipeSys.stepCopy]
  split
  · rename_i hgo
    exact ⟨taken + 1, h.advance hpc (by simpa using hgo.2)⟩
  · have hw := h.wakeup .nwrite
    exact ⟨taken, hw.leave ((wakePc_eq_locked .nwrite _).mpr hpc) (by simp)
      (by simp [PipePc.parked]) (by simp [PipePc.bytes, PipeTask.bytes]) (fun _ _ => rfl)
      (by simp [PipeTask.copied]) (by simp [PipePc.task])⟩

theorem PipeInv.stepClose (h : PipeInv s taken) {writable : Bool}
    (hpc : s.pc p = .locked (.close writable)) : PipeInv (s.stepClose p writable) taken := by
  have hleave : ∀ {s : PipeSys ι} {c : PipeChan}, PipeInv s taken →
      s.pc p = .locked (.close writable) → PipeInv ((s.wakeup c).unlock p .idle) taken := by
    intro s c h hpc
    exact (h.wakeup c).leave ((wakePc_eq_locked c _).mpr hpc) (by simp) (by simp [PipePc.parked])
      (by simp [PipePc.bytes, PipeTask.bytes]) (fun _ _ => rfl) (by simp [PipeTask.copied])
      (by simp [PipePc.task])
  rw [PipeSys.stepClose]
  split
  · exact hleave (h.closeEnd rfl rfl rfl (by simp)) hpc
  · exact hleave (h.closeEnd rfl rfl rfl id) hpc

theorem PipeInv.call (h : PipeInv s taken) {t : PipeTask} (hpc : s.pc p = .idle)
    (hbytes : t.bytes = []) (hcopy : ∀ n buf, t ≠ .copy n buf)
    (hstored : ∀ addr n i, t = .write addr n i → i ≤ n.toNat) :
    PipeInv (s.setPc p (.acquiring t)) taken := by
  refine h.move s.killed (by simp) (fun _ _ _ _ => rfl) ?_
    (congrArg _ (PipeSys.copied_setPc (by rw [hpc]; rfl))) ?_ (fun _ _ => rfl) (by simp) ?_
  · rintro t' ⟨⟩
    exact hcopy
  · rw [hpc]
    exact congrArg _ hbytes
  · rintro addr n i ⟨⟩
    exact hstored addr n i rfl

theorem PipeInv.acquire (h : PipeInv s taken) {t : PipeTask} (hpc : s.pc p = .acquiring t)
    (hlock : s.lock = none) : PipeInv { s.setPc p (.locked t) with lock := some p } taken := by
  have hcopy := h.parked p t (by rw [hpc]; rfl)
  refine h.move s.killed (fun _ _ => rfl) ?_ (by simp [PipePc.parked]) (congrArg _ ?_) ?_
    (fun _ _ => rfl) ?_ ?_
  · intro r _ t' hr
    have hr' := h.locked r t' hr
    rw [hlock] at hr'
    cases hr'
  · have hcopied : t.copied = [] := by
      cases t with
      | copy n buf => exact absurd rfl (hcopy n buf)
      | _ => rfl
    simp [PipeSys.copied, hlock, PipeSys.setPc, PipePc.copied, hcopied]
  · rw [hpc]
    rfl
  · rintro n ⟨⟩
    exact absurd rfl (hcopy n [])
  · intro addr n i ht
    exact h.stored p addr n i (by rw [hpc]; exact ht)

theorem PipeInv.kill (h : PipeInv s taken) (p : ι) (killed : ι → Bool) :
    PipeInv { s.setPc p (s.pc p).roused with killed := killed } taken := by
  refine h.move killed (fun t ht => ?_) (fun _ _ _ _ => rfl) (fun t ht => ?_)
    (congrArg _ (PipeSys.copied_setPc (copied_roused _))) (congrArg _ (bytes_roused _))
    (fun _ _ => rfl) (fun n hn => ?_) (fun addr n i ht => ?_)
  · exact h.locked p t ((roused_eq_locked _).mp ht)
  · exact h.parked p t (by rwa [parked_roused] at ht)
  · exact h.waited p n ((roused_eq_locked _).mp hn)
  · exact h.stored p addr n i (by rwa [task_roused] at ht)

theorem PipeInv.exec (h : PipeInv s taken) {e : PipeEvent ι} {s' : PipeSys ι}
    (hstep : PipeStep s e s') : ∃ taken', PipeInv s' taken' := by
  rw [PipeStep] at hstep
  cases e with
  | callWrite p addr n =>
    cases hpc : s.pc p <;> simp only [PipeSys.exec, hpc, reduceCtorEq, Option.some.injEq] at hstep
    subst hstep
    refine ⟨taken, h.call hpc rfl (by simp) ?_⟩
    rintro addr' n' i ⟨⟩
    exact Nat.zero_le _
  | callRead p n =>
    cases hpc : s.pc p <;> simp only [PipeSys.exec, hpc, reduceCtorEq, Option.some.injEq] at hstep
    subst hstep
    exact ⟨taken, h.call hpc rfl (by simp) (by simp)⟩
  | callClose p writable =>
    cases hpc : s.pc p <;> simp only [PipeSys.exec, hpc, reduceCtorEq, Option.some.injEq] at hstep
    subst hstep
    exact ⟨taken, h.call hpc rfl (by simp) (by simp)⟩
  | acquire p =>
    cases hpc : s.pc p <;> cases hlock : s.lock <;>
      simp only [PipeSys.exec, hpc, hlock, reduceCtorEq, Option.some.injEq] at hstep
    subst hstep
    exact ⟨taken, h.acquire hpc hlock⟩
  | step p =>
    cases hpc : s.pc p <;> simp only [PipeSys.exec, hpc, reduceCtorEq, Option.some.injEq] at hstep
    subst hstep
    rename_i t
    cases t with
    | write addr n i => exact ⟨taken, h.stepWrite hpc⟩
    | wait n => exact ⟨taken, h.stepWait hpc⟩
    | copy n buf => exact h.stepCopy hpc
    | close writable => exact ⟨taken, h.stepClose hpc⟩
  | kill p =>
    simp only [PipeSys.exec, Option.some.injEq] at hstep
    subst hstep
    exact ⟨taken, h.kill p _⟩

end Steps

theorem pipe_run_inv {ι : Type} [DecidableEq ι] {data : Nat → Byte} {es : List (PipeEvent ι)}
    {s : PipeSys ι} (hrun : Run PipeStep (PipeSys.init data) es s) : ∃ taken, PipeInv s taken :=
  Run.invariant (fun s => ∃ taken, PipeInv s taken)
    (fun _ _ _ ⟨_, h⟩ hstep => h.exec hstep) ⟨0, pipeInv_init data⟩ hrun

def Pipe.contents (p : Pipe) : List Byte :=
  (List.range (p.nwrite - p.nread).toNat).map fun k => p.data ((p.nread.toNat + k) % pipeSize)

structure PipeFifo {ι : Type} [DecidableEq ι] (s : PipeSys ι) : Prop where
  bound : (s.pipe.nwrite - s.pipe.nread).toNat ≤ pipeSize
  fifo : s.returned.flatten <+: s.written.map Prod.snd
  lossless : s.returned.flatten ++ s.copied ++ s.pipe.contents = s.written.map Prod.snd
  order : ∀ p, (s.written.filter fun e => e.1 = p).map Prod.snd = s.done p ++ (s.pc p).bytes
  wrote : ∀ p addr n i, s.pc p = .locked (.write addr n i) → s.result p (.write addr n i) = some n →
    i = n.toNat
  eof : ∀ p n buf, 0 < n → s.pc p = .locked (.copy n buf) → s.result p (.copy n buf) = some 0 →
    s.pipe.contents = [] ∧ s.pipe.writeopen = false

theorem PipeInv.contents {ι : Type} [DecidableEq ι] {s : PipeSys ι} {taken : Nat}
    (h : PipeInv s taken) : s.pipe.contents = (s.written.map Prod.snd).drop taken := by
  have hle := h.le
  apply List.ext_getElem?
  intro k
  rw [Pipe.contents, List.getElem?_map, h.count, List.getElem?_drop]
  by_cases hk : taken + k < s.written.length
  · obtain ⟨b, hget⟩ : ∃ b, (s.written.map Prod.snd)[taken + k]? = some b :=
      ⟨_, List.getElem?_eq_getElem (by rw [List.length_map]; exact hk)⟩
    have hslot : (s.pipe.nread.toNat + k) % pipeSize = (taken + k) % pipeSize := by
      rw [Nat.add_mod, h.nread, slot_eq, ← Nat.add_mod]
    rw [List.getElem?_range (by omega), Option.map_some, hslot, hget,
      h.slot (taken + k) _ (Nat.le_add_right _ _) hget]
  · rw [List.getElem?_eq_none (by rw [List.length_range]; omega),
      List.getElem?_eq_none (by rw [List.length_map]; omega)]
    rfl

/-- **Pipes are lossless queues.** In every state that the readers, writers and closers of one pipe
can reach. -/
theorem pipe_fifo {ι : Type} [DecidableEq ι] {data : Nat → Byte} {es : List (PipeEvent ι)}
    {s : PipeSys ι} (hrun : Run PipeStep (PipeSys.init data) es s) : PipeFifo s := by
  obtain ⟨taken, h⟩ := pipe_run_inv hrun
  have hroom := h.room
  refine ⟨?_, ?_, ?_, h.order, ?_, ?_⟩
  · rw [h.count]
    omega
  · exact (List.prefix_append _ s.copied).trans (h.took ▸ List.take_prefix taken _)
  · rw [h.took, h.contents, List.take_append_drop]
  · intro p addr n i hpc hres
    have hstored := h.stored p addr n i (by rw [hpc]; rfl)
    simp only [PipeSys.result] at hres
    split at hres
    · rename_i hlt
      split at hres
      · simp only [Option.some.injEq] at hres
        omega
      · cases hres
    · omega
  · intro p n buf hn hpc hres
    simp only [PipeSys.result] at hres
    split at hres
    · cases hres
    · rename_i hstop
      have hbuf : buf = [] := by
        simp only [Option.some.injEq, Nat.cast_eq_zero, List.length_eq_zero_iff] at hres
        exact hres
      subst hbuf
      have hempty : s.pipe.empty = true := by
        by_contra hne
        exact hstop ⟨by simpa using hn, by simpa using hne⟩
      refine ⟨?_, h.waited p n hpc hempty⟩
      rw [h.contents, List.drop_eq_nil_of_le]
      rw [List.length_map, ← h.empty_iff.mp hempty]

def writeRead : List (PipeEvent Bool) :=
  [.callWrite true (fun i => BitVec.ofNat 8 (i + 7)) 2, .callRead false 5, .acquire false,
    .step false, .acquire true, .step true, .step true, .step true, .acquire false, .step false,
    .step false, .step false, .step false]

theorem pipe_fifo_writeRead :
    ∃ s, Run PipeStep (PipeSys.init fun _ => 0) writeRead s ∧ s.returned = [[7, 8]] ∧
      PipeFifo s := by
  have hexec : (execAll PipeSys.exec (PipeSys.init fun _ => 0) writeRead).map PipeSys.returned =
      some [[7, 8]] := by decide
  obtain ⟨s, hrun, hret⟩ := exists_run_of_execAll (fun _ _ _ (h : PipeStep _ _ _) => h) _ hexec
  exact ⟨s, hrun, hret, pipe_fifo hrun⟩

end Xv6
