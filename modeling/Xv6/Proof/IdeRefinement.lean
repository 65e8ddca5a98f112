import Mathlib.Tactic
import Xv6.Ide

/-!
# `ide.c` does what `memide.c` does

The queue holds the buffers whose requests are not finished, in the order of the calls, and the
drive works for its head. So the buffers and the disk change as if the calls of the memory disk's
`iderw` were made one after another in queue order.
-/

namespace Xv6

variable {n : Nat}

def Memide.serve (m : Memide n) (b : Fin n) : Memide n :=
  { m with
    memdisk := if (m.buf b).dirty then Function.update m.memdisk (m.buf b).sector (m.buf b).data
      else m.memdisk
    buf := Function.update m.buf b (Ide.finish (m.memdisk (m.buf b).sector) (m.buf b)) }

structure Memide.Accepts (m : Memide n) (b : Fin n) : Prop where
  busy : (m.buf b).busy = true
  work : (m.buf b).dirty = true ∨ (m.buf b).valid = false
  dev : (m.buf b).dev = 1
  sector : (m.buf b).sector < m.disksize

theorem Memide.run_iderw {m : Memide n} {b : Fin n} (h : m.Accepts b) :
    (iderw b).run m = .ok ((), m.serve b) := by
  cases hd : (m.buf b).dirty with
  | false =>
    have hv : (m.buf b).valid = false := h.work.resolve_left (by simp [hd])
    simp [iderw, Kernel.run_bind, h.busy, hv, h.dev, Nat.not_le.mpr h.sector, hd, serve,
      Ide.finish]
  | true =>
    simp [iderw, Kernel.run_bind, h.busy, h.dev, Nat.not_le.mpr h.sector, hd, serve, Ide.finish]

def Memide.iderws (bs : List (Fin n)) : Kernel (Memide n) Unit := Kernel.forEach bs iderw

def Memide.serveAll (m : Memide n) (bs : List (Fin n)) : Memide n := bs.foldl serve m

theorem Memide.serve_buf_of_ne (m : Memide n) {b c : Fin n} (h : c ≠ b) :
    (m.serve b).buf c = m.buf c :=
  Function.update_of_ne h ..

theorem Memide.Accepts.serve {m : Memide n} {b c : Fin n} (h : m.Accepts c) (hne : c ≠ b) :
    (m.serve b).Accepts c := by
  obtain ⟨hbusy, hwork, hdev, hsector⟩ := h
  constructor <;> rw [m.serve_buf_of_ne hne] <;> assumption

theorem Memide.run_iderws {m : Memide n} {bs : List (Fin n)} (hnodup : bs.Nodup)
    (h : ∀ b ∈ bs, m.Accepts b) : (iderws bs).run m = .ok ((), m.serveAll bs) := by
  induction bs generalizing m with
  | nil => rfl
  | cons b bs ih =>
    obtain ⟨hb, hnodup⟩ := List.nodup_cons.mp hnodup
    have hrest : ∀ c ∈ bs, (m.serve b).Accepts c := fun c hc =>
      (h c (List.mem_cons_of_mem b hc)).serve fun heq => hb (heq ▸ hc)
    rw [iderws, Kernel.forEach, Kernel.run_bind_of_ok (run_iderw (h b List.mem_cons_self))]
    exact ih hnodup hrest

theorem Memide.serveAll_snoc (m : Memide n) (bs : List (Fin n)) (b : Fin n) :
    m.serveAll (bs ++ [b]) = (m.serveAll bs).serve b := by
  rw [serveAll, List.foldl_append]
  rfl

theorem Memide.serveAll_buf_of_notMem (m : Memide n) {bs : List (Fin n)} {c : Fin n}
    (h : c ∉ bs) : (m.serveAll bs).buf c = m.buf c := by
  induction bs generalizing m with
  | nil => rfl
  | cons b bs ih =>
    obtain ⟨hne, hrest⟩ := not_or.mp (mt List.mem_cons.mpr h)
    exact (ih (m.serve b) hrest).trans (m.serve_buf_of_ne hne)

theorem Memide.serveAll_flags_of_mem (m : Memide n) {bs : List (Fin n)} {c : Fin n}
    (h : c ∈ bs) :
    (((m.serveAll bs).buf c).valid && !((m.serveAll bs).buf c).dirty) = true := by
  induction bs generalizing m with
  | nil => exact absurd h List.not_mem_nil
  | cons b bs ih =>
    by_cases hc : c ∈ bs
    · exact ih (m.serve b) hc
    · obtain rfl : c = b := (List.mem_cons.mp h).resolve_right hc
      have hbuf : (m.serveAll (c :: bs)).buf c = (m.serve c).buf c :=
        serveAll_buf_of_notMem (m.serve c) hc
      have hself : (m.serve c).buf c = Ide.finish (m.memdisk (m.buf c).sector) (m.buf c) :=
        Function.update_self ..
      rw [hbuf, hself]
      rfl

namespace Ide

def mem (disksize : Nat) (s : Ide n) : Memide n :=
  { memdisk := s.disk 1, disksize := disksize, buf := s.buf }

structure Start (disksize : Nat) (s : Ide n) : Prop where
  idequeue : s.idequeue = none
  cmd : s.cmd = none
  irq : s.irq = false
  pc : ∀ b, s.pc b = .start
  queued : s.queued = []
  served : s.served = []
  started : s.started = []
  havedisk1 : s.havedisk1 = true
  fits : disksize ≤ 2 ^ 28
  request : ∀ b, (s.mem disksize).Accepts b

/-- The requests the drive has finished: those of the served buffers, and the one whose interrupt
is pending. -/
def finished (s : Ide n) : List (Fin n) :=
  s.queued.take (s.served.length + if s.irq then 1 else 0)

structure Refines (disksize : Nat) (s0 s : Ide n) : Prop where
  once : s.queued.Nodup
  called : ∀ b, b ∈ s.queued ↔ s.pc b ≠ .start
  fifo : ∃ waiting, s.queued = s.served ++ waiting ∧ Chain s.qnext s.idequeue waiting
  started : s.started = (s.queued.take (s.served.length + 1)).map fun b => (b, some b)
  returned : ∀ b, s.pc b = .returned → b ∈ s.served
  buffers : ∃ m, (Memide.iderws s.served).run (s0.mem disksize) = .ok ((), m) ∧ s.buf = m.buf
  disk : ∃ m, (Memide.iderws s.finished).run (s0.mem disksize) = .ok ((), m) ∧
    s.disk = Function.update s0.disk 1 m.memdisk
  noPanic : ∀ e, s.Enabled e → ∃ s', IdeStep s e s'
  noStall : (∀ e, s.Enabled e → ∃ b, e = .kill b) →
    s.served = s.queued ∧ ∀ b, s.pc b = .returned

/-- What the controller is doing for the head of the queue. -/
inductive Working (s : Ide n) : List (Fin n) → Prop
  | idle (hcmd : s.cmd = none) (hirq : s.irq = false) : Working s []
  | busy {b : Fin n} {rest : List (Fin n)} (hcmd : s.cmd = some (cmdOf (s.buf b)))
      (hirq : s.irq = false) : Working s (b :: rest)
  | done {b : Fin n} {rest : List (Fin n)} (hcmd : s.cmd = none) (hirq : s.irq = true) :
      Working s (b :: rest)

theorem Working.append {s s' : Ide n} {a : Fin n} {rest more : List (Fin n)}
    (h : Working s (a :: rest)) (hcmd : s'.cmd = s.cmd) (hirq : s'.irq = s.irq)
    (hbuf : s'.buf = s.buf) : Working s' (a :: rest ++ more) := by
  cases h with
  | busy hc hi => exact .busy (by rw [hcmd, hc, hbuf]) (hirq.trans hi)
  | done hc hi => exact .done (hcmd.trans hc) (hirq.trans hi)

def Placed (s : Ide n) (waiting : List (Fin n)) (b : Fin n) : IdePc → Prop
  | .start => b ∉ s.queued
  | .sleeping => b ∈ waiting
  | .woken => b ∈ s.queued
  | .returned => b ∈ s.served

structure Inv (disksize : Nat) (s0 s : Ide n) (waiting : List (Fin n)) : Prop where
  havedisk1 : s.havedisk1 = true
  chain : Chain s.qnext s.idequeue waiting
  queued : s.queued = s.served ++ waiting
  nodup : s.queued.Nodup
  placed : ∀ b, Placed s waiting b (s.pc b)
  started : s.started = (s.queued.take (s.served.length + 1)).map fun b => (b, some b)
  working : Working s waiting
  buf : s.buf = ((s0.mem disksize).serveAll s.served).buf
  disk : s.disk = Function.update s0.disk 1 ((s0.mem disksize).serveAll s.finished).memdisk
  port : s.irq = true → ∀ b ∈ waiting.head?, (s.buf b).dirty = false →
    s.port = ((s0.mem disksize).serveAll s.served).memdisk (s.buf b).sector

variable {disksize : Nat} {s0 s : Ide n} {waiting : List (Fin n)} {b : Fin n}

theorem Start.inv (h : Start disksize s) : Inv disksize s s [] := by
  refine ⟨h.havedisk1, h.idequeue, ?_, ?_, fun b => ?_, ?_, .idle h.cmd h.irq, ?_, ?_, ?_⟩
  · rw [h.queued, h.served]
    rfl
  · rw [h.queued]
    exact List.nodup_nil
  · rw [h.pc b, Placed, h.queued]
    exact List.not_mem_nil
  · rw [h.started, h.queued]
    rfl
  · rw [h.served]
    rfl
  · rw [finished, h.queued, List.take_nil]
    exact (Function.update_eq_self 1 s.disk).symm
  · rw [h.irq]
    exact fun hirq => absurd hirq Bool.false_ne_true

theorem lba_of_lt {sector : Nat} (h : sector < 2 ^ 28) : lba sector = sector := by
  unfold lba
  omega

theorem Inv.notMem_served (hinv : Inv disksize s0 s waiting) (hb : b ∈ waiting) :
    b ∉ s.served := by
  have hnodup := hinv.nodup
  rw [hinv.queued] at hnodup
  exact fun hmem => List.disjoint_of_nodup_append hnodup hmem hb

theorem Inv.waiting_nodup (hinv : Inv disksize s0 s waiting) : waiting.Nodup := by
  have hnodup := hinv.nodup
  rw [hinv.queued] at hnodup
  exact hnodup.of_append_right

theorem Inv.buf_eq (hinv : Inv disksize s0 s waiting) (hb : b ∉ s.served) :
    s.buf b = s0.buf b := by
  rw [hinv.buf]
  exact Memide.serveAll_buf_of_notMem _ hb

theorem Inv.flags_of_notMem (hinv : Inv disksize s0 s waiting) (hstart : Start disksize s0)
    (hb : b ∉ s.served) : ((s.buf b).valid && !(s.buf b).dirty) = false := by
  rw [hinv.buf_eq hb]
  rcases (hstart.request b).work with hd | hv
  · have hd' : (s0.buf b).dirty = true := hd
    simp [hd']
  · have hv' : (s0.buf b).valid = false := hv
    simp [hv']

theorem Inv.flags_of_mem (hinv : Inv disksize s0 s waiting) (hb : b ∈ s.served) :
    ((s.buf b).valid && !(s.buf b).dirty) = true := by
  rw [hinv.buf]
  exact Memide.serveAll_flags_of_mem _ hb

theorem run_append (hchain : Chain s.qnext s.idequeue waiting) (hnodup : waiting.Nodup)
    (hb : b ∉ waiting) :
    ∃ qnext, (append b).run s = .ok ((),
        { s with qnext := qnext, idequeue := (waiting ++ [b]).head?, queued := s.queued ++ [b] }) ∧
      Chain qnext (waiting ++ [b]).head? (waiting ++ [b]) := by
  have hchain' := hchain.update_of_notMem hb none
  have hnone : Function.update s.qnext b none b = none := Function.update_self ..
  cases waiting with
  | nil =>
    have hhead : s.idequeue = none := hchain
    refine ⟨Function.update s.qnext b none, ?_, rfl, hnone⟩
    simp [append, Kernel.run_bind, hhead]
  | cons a l =>
    have hfuel : l.length < n := by
      have := hnodup.length_le_card
      rw [Fintype.card_fin, List.length_cons] at this
      omega
    refine ⟨_, ?_, hchain.1 ▸ hchain'.snoc hnodup hb hnone⟩
    simp [append, Kernel.run_bind, hchain.1, hchain'.2.chainEnd_eq hfuel]

theorem run_idestart (hcmd : s.cmd = none) : (idestart (some b)).run s = .ok ((), { s with
    cmd := some (cmdOf (s.buf b)), started := s.started ++ [(b, s.idequeue)] }) := by
  simp [idestart, idewait, Kernel.run_bind, hcmd]

theorem run_waitRequest (flags : Bool) (hflags : ((s.buf b).valid && !(s.buf b).dirty) = flags) :
    (waitRequest b).run s = .ok ((), { s with
      pc := Function.update s.pc b (if flags then .returned else .sleeping) }) := by
  rw [waitRequest, Kernel.run_modify, hflags]

theorem Inv.run_iderw (hinv : Inv disksize s0 s waiting) (hstart : Start disksize s0)
    (hb : b ∉ s.served) : (iderw b).run s = (do
      append b
      let s ← Kernel.get
      if s.idequeue = some b then idestart (some b)
      waitRequest b).run s := by
  have hbusy : (s.buf b).busy = true := by
    rw [hinv.buf_eq hb]
    exact (hstart.request b).busy
  rw [iderw, Kernel.run_bind_of_ok (Kernel.run_get s)]
  simp only [hbusy, hinv.flags_of_notMem hstart hb, hinv.havedisk1, Bool.not_true,
    Bool.false_eq_true, and_false, if_false]

theorem Inv.called (hinv : Inv disksize s0 s waiting) (hb : b ∉ s.queued) (s' : Ide n)
    (hs' : s'.buf = s.buf ∧ s'.havedisk1 = s.havedisk1 ∧ s'.disk = s.disk ∧ s'.port = s.port ∧
      s'.irq = s.irq ∧ s'.served = s.served ∧ s'.queued = s.queued ++ [b] ∧
      s'.pc = Function.update s.pc b .sleeping)
    (hchain : Chain s'.qnext s'.idequeue (waiting ++ [b]))
    (hstarted : s'.started = (s'.queued.take (s'.served.length + 1)).map fun b => (b, some b))
    (hworking : Working s' (waiting ++ [b])) : Inv disksize s0 s' (waiting ++ [b]) := by
  obtain ⟨hbuf, hhave, hdisk, hport, hirq, hserved, hqueued, hpc⟩ := hs'
  have hq := hinv.queued
  refine ⟨hhave ▸ hinv.havedisk1, hchain, ?_, ?_, fun c => ?_, hstarted, hworking, ?_, ?_, ?_⟩
  · rw [hqueued, hserved, hq, List.append_assoc]
  · rw [hqueued]
    exact hinv.nodup.append (List.nodup_singleton b) (by simpa using hb)
  · rw [hpc]
    by_cases hc : c = b
    · subst hc
      rw [Function.update_self]
      exact List.mem_append_right _ List.mem_cons_self
    · rw [Function.update_of_ne hc]
      have hold := hinv.placed c
      cases hcpc : s.pc c with
      | start =>
        rw [hcpc] at hold
        rw [Placed, hqueued, List.mem_append, List.mem_singleton]
        exact not_or.mpr ⟨hold, hc⟩
      | sleeping =>
        rw [hcpc] at hold
        exact List.mem_append_left _ hold
      | woken =>
        rw [hcpc] at hold
        rw [Placed, hqueued]
        exact List.mem_append_left _ hold
      | returned =>
        rw [hcpc] at hold
        rw [Placed, hserved]
        exact hold
  · rw [hbuf, hserved]
    exact hinv.buf
  · -- the request is behind those the drive has finished
    have hfinished : s'.finished = s.finished := by
      have hlen : s.served.length + (if s.irq then 1 else 0) ≤ s.queued.length := by
        rw [hq, List.length_append]
        cases hinv.working with
        | idle hcmd hirq => simp [hirq]
        | busy hcmd hirq => simp [hirq]
        | done hcmd hirq => simp [hirq]
      rw [finished, finished, hqueued, hserved, hirq]
      exact List.take_append_of_le_length hlen
    rw [hdisk, hfinished]
    exact hinv.disk
  · intro hirq' c hc
    rw [hirq] at hirq'
    rw [hbuf, hport, hserved]
    refine hinv.port hirq' c ?_
    cases hinv.working with
    | idle hcmd hirq => rw [hirq] at hirq'; cases hirq'
    | busy hcmd hirq => exact hc
    | done hcmd hirq => exact hc

theorem Inv.call (hinv : Inv disksize s0 s waiting) (hstart : Start disksize s0)
    (hpc : s.pc b = .start) :
    ∃ s' waiting', (iderw b).run s = .ok ((), s') ∧ Inv disksize s0 s' waiting' := by
  have hb : b ∉ s.queued := by
    have := hinv.placed b
    rwa [hpc] at this
  have hb' := hb
  rw [hinv.queued, List.mem_append] at hb'
  obtain ⟨hserved, hwaiting⟩ := not_or.mp hb'
  have hflags := hinv.flags_of_notMem hstart hserved
  obtain ⟨qnext, hrun, hchain⟩ := run_append hinv.chain hinv.waiting_nodup hwaiting
  rw [hinv.run_iderw hstart hserved, Kernel.run_bind_of_ok hrun,
    Kernel.run_bind_of_ok (Kernel.run_get _)]
  have hq := hinv.queued
  have hstarted := hinv.started
  cases waiting with
  | nil =>
    -- the queue was empty: the drive starts at once
    obtain ⟨hcmd, hirq⟩ := hinv.working
    rw [List.append_nil] at hq
    refine ⟨_, _, ?_, hinv.called hb { s with
      qnext := qnext, idequeue := some b, queued := s.queued ++ [b],
      cmd := some (cmdOf (s.buf b)), started := s.started ++ [(b, some b)],
      pc := Function.update s.pc b .sleeping } ⟨rfl, rfl, rfl, rfl, rfl, rfl, rfl, rfl⟩ hchain
      ?_ (.busy rfl hirq)⟩
    · simp only [List.nil_append, List.head?_cons, if_true]
      rw [Kernel.run_bind_of_ok (run_idestart (by exact hcmd))]
      exact run_waitRequest false hflags
    · rw [hstarted, hq, List.take_of_length_le (by simp), List.take_of_length_le (by simp)]
      simp
  | cons a rest =>
    have hne : a ≠ b := fun heq => hwaiting (heq ▸ List.mem_cons_self)
    refine ⟨_, _, ?_, hinv.called hb { s with
      qnext := qnext, idequeue := some a, queued := s.queued ++ [b],
      pc := Function.update s.pc b .sleeping } ⟨rfl, rfl, rfl, rfl, rfl, rfl, rfl, rfl⟩ hchain
      ?_ (hinv.working.append rfl rfl rfl)⟩
    · simp only [List.cons_append, List.head?_cons, Option.some.injEq, hne, if_false]
      exact run_waitRequest false hflags
    · rw [hstarted, hq]
      simp [List.take_append]

theorem Inv.finished_of_irq {a : Fin n} {rest : List (Fin n)}
    (hinv : Inv disksize s0 s (a :: rest)) :
    s.finished = if s.irq then s.served ++ [a] else s.served := by
  rw [finished, hinv.queued]
  cases s.irq <;> simp [List.take_append]

theorem Inv.cmdOf_eq (hinv : Inv disksize s0 s waiting) (hstart : Start disksize s0)
    (hb : b ∉ s.served) : cmdOf (s.buf b) =
      { dev := 1, sector := (s.buf b).sector,
        data := if (s.buf b).dirty then some (s.buf b).data else none } := by
  have hdev : (s0.buf b).dev = 1 := (hstart.request b).dev
  have hsector : (s0.buf b).sector < disksize := (hstart.request b).sector
  rw [cmdOf, hinv.buf_eq hb, hdev, lba_of_lt (lt_of_lt_of_le hsector hstart.fits)]

theorem write_update (disk : Disk) (mem : Nat → Block) (sector : Nat) (data : Block) :
    Disk.write (Function.update disk 1 mem) ⟨1, sector, data⟩ =
      Function.update disk 1 (Function.update mem sector data) := by
  funext d k
  by_cases hd : d = 1
  · subst hd
    by_cases hk : k = sector
    · subst hk
      simp [Disk.write]
    · simp [Disk.write, hk]
  · simp [Disk.write, hd]

theorem Inv.complete {cmd : IdeCmd} (hinv : Inv disksize s0 s waiting)
    (hstart : Start disksize s0) (hcmd : s.cmd = some cmd) :
    ∃ s', (complete cmd).run s = .ok ((), s') ∧ Inv disksize s0 s' waiting := by
  cases hinv.working with
  | idle hnone => rw [hnone] at hcmd; cases hcmd
  | done hnone => rw [hnone] at hcmd; cases hcmd
  | @busy a rest hbusy hirq =>
    have ha : a ∉ s.served := hinv.notMem_served List.mem_cons_self
    have hfinished : s.finished = s.served := by simp [hinv.finished_of_irq, hirq]
    have hdisk := hinv.disk
    have hbuf : s.buf a = ((s0.mem disksize).serveAll s.served).buf a := by rw [hinv.buf]
    obtain rfl : cmdOf (s.buf a) = cmd := Option.some.inj (hbusy.symm.trans hcmd)
    rw [hinv.cmdOf_eq hstart ha]
    cases hd : (s.buf a).dirty with
    | true =>
      refine ⟨_, rfl, ?_⟩
      obtain ⟨h1, h2, h3, h4, h5, h6, -, h8, h9, -⟩ := hinv
      refine ⟨h1, h2, h3, h4, h5, h6, .done rfl rfl, h8, ?_, ?_⟩
      · have hnext : Ide.finished { s with
            disk := s.disk.write ⟨1, (s.buf a).sector, (s.buf a).data⟩
            cmd := none, irq := true } = s.served ++ [a] := by
          simp [finished, h3, List.take_append]
        rw [if_pos rfl]
        dsimp only
        rw [hnext, Memide.serveAll_snoc, hdisk, hfinished, write_update, hbuf]
        rw [hbuf] at hd
        simp only [Memide.serve, hd, if_true]
      · intro _ c hc hcd
        obtain rfl : a = c := Option.some.inj hc
        exact absurd (hd.symm.trans hcd) (by decide)
    | false =>
      refine ⟨_, rfl, ?_⟩
      obtain ⟨h1, h2, h3, h4, h5, h6, -, h8, h9, -⟩ := hinv
      refine ⟨h1, h2, h3, h4, h5, h6, .done rfl rfl, h8, ?_, ?_⟩
      · have hnext : Ide.finished { s with
            port := s.disk 1 (s.buf a).sector, cmd := none, irq := true } =
            s.served ++ [a] := by
          simp [finished, h3, List.take_append]
        rw [if_neg Bool.false_ne_true]
        dsimp only
        rw [hnext, Memide.serveAll_snoc, hdisk, hfinished]
        rw [hbuf] at hd
        simp only [Memide.serve, hd, Bool.false_eq_true, if_false]
      · intro _ c hc hcd
        obtain rfl : a = c := Option.some.inj hc
        rw [if_neg Bool.false_ne_true]
        dsimp only
        rw [hdisk, hfinished, Function.update_self]

theorem Inv.serve {a : Fin n} {rest : List (Fin n)} (hinv : Inv disksize s0 s (a :: rest))
    (hirq : s.irq = true) (s' : Ide n)
    (hs' : s'.havedisk1 = s.havedisk1 ∧ s'.qnext = s.qnext ∧ s'.idequeue = s.qnext a ∧
      s'.buf = Function.update s.buf a (finish s.port (s.buf a)) ∧ s'.disk = s.disk ∧
      s'.irq = false ∧ s'.pc = wakeup a s.pc ∧ s'.queued = s.queued ∧
      s'.served = s.served ++ [a])
    (hstarted : s'.started = s.started ++ rest.head?.toList.map fun b => (b, some b))
    (hworking : Working s' rest) : Inv disksize s0 s' rest := by
  obtain ⟨hhave, hqnext, hhead, hbuf, hdisk, hirq', hpc, hqueued, hserved⟩ := hs'
  have hq := hinv.queued
  have ha : a ∉ s.served := hinv.notMem_served List.mem_cons_self
  have hold : ((s0.mem disksize).serveAll s.served).buf a = s.buf a := by rw [hinv.buf]
  refine ⟨hhave ▸ hinv.havedisk1, ?_, ?_, hqueued ▸ hinv.nodup, fun c => ?_, ?_, hworking, ?_, ?_,
    ?_⟩
  · rw [hqnext, hhead]
    exact hinv.chain.2
  · rw [hqueued, hserved, hq, List.append_assoc]
    rfl
  · have hplaced := hinv.placed c
    have hmem : c ∈ s.served ++ [a] ↔ c ∈ s.served ∨ c = a := by simp
    rw [hpc, wakeup]
    by_cases hc : c = a
    · subst hc
      have hcq : c ∈ s.queued := by
        rw [hq]
        exact List.mem_append_right _ List.mem_cons_self
      split
      · rw [Function.update_self, Placed, hqueued]
        exact hcq
      · rename_i hne
        cases hcpc : s.pc c with
        | start =>
          rw [hcpc] at hplaced
          exact absurd hcq hplaced
        | sleeping => exact absurd hcpc hne
        | woken => rw [Placed, hqueued]; exact hcq
        | returned => rw [hcpc] at hplaced; exact absurd hplaced ha
    · have hsame : (if s.pc a = .sleeping then Function.update s.pc a .woken else s.pc) c =
          s.pc c := by
        split
        · exact Function.update_of_ne hc ..
        · rfl
      rw [hsame]
      cases hcpc : s.pc c with
      | start => rw [hcpc] at hplaced; rw [Placed, hqueued]; exact hplaced
      | sleeping =>
        rw [hcpc] at hplaced
        exact (List.mem_cons.mp hplaced).resolve_left hc
      | woken => rw [hcpc] at hplaced; rw [Placed, hqueued]; exact hplaced
      | returned =>
        rw [hcpc] at hplaced
        rw [Placed, hserved]
        exact List.mem_append_left _ hplaced
  · rw [hstarted, hinv.started, hqueued, hserved, hq, List.length_append, Nat.add_assoc,
      List.take_length_add_append, List.take_length_add_append]
    cases rest <;> simp
  · rw [hbuf, hserved, Memide.serveAll_snoc, Memide.serve, ← hinv.buf]
    congr 1
    cases hd : (s.buf a).dirty with
    | true => simp [finish, hd]
    | false => simp [finish, hd, hinv.port hirq a rfl hd]
  · have hfinished : s'.finished = s.finished := by
      rw [finished, finished, hqueued, hserved, hirq, hirq', List.length_append]
      rfl
    rw [hdisk, hfinished]
    exact hinv.disk
  · rw [hirq']
    exact fun h => absurd h Bool.false_ne_true

theorem Inv.interrupt (hinv : Inv disksize s0 s waiting) (hirq : s.irq = true) :
    ∃ s' waiting', (exec .interrupt).run s = .ok ((), s') ∧ Inv disksize s0 s' waiting' := by
  cases hinv.working with
  | idle _ hno => rw [hno] at hirq; cases hirq
  | busy _ hno => rw [hno] at hirq; cases hirq
  | @done a rest hcmd =>
    have hhead : s.idequeue = some a := hinv.chain.1
    have hnext : s.qnext a = rest.head? := hinv.chain.2.head_eq
    cases rest with
    | nil =>
      refine ⟨_, [], ?_, hinv.serve hirq { s with
        irq := false, idequeue := s.qnext a,
        buf := Function.update s.buf a (finish s.port (s.buf a)), pc := wakeup a s.pc,
        served := s.served ++ [a] } ⟨rfl, rfl, rfl, rfl, rfl, rfl, rfl, rfl, rfl⟩ ?_
        (.idle hcmd rfl)⟩
      · simp [exec, ideintr, Kernel.run_bind, hhead, hnext]
      · simp
    | cons c rest =>
      have hca : c ≠ a := fun heq =>
        (List.nodup_cons.mp hinv.waiting_nodup).1 (heq ▸ List.mem_cons_self)
      refine ⟨_, c :: rest, ?_, hinv.serve hirq { s with
        irq := false, idequeue := s.qnext a,
        buf := Function.update s.buf a (finish s.port (s.buf a)), pc := wakeup a s.pc,
        served := s.served ++ [a], cmd := some (cmdOf (s.buf c)),
        started := s.started ++ [(c, some c)] } ⟨rfl, rfl, rfl, rfl, rfl, rfl, rfl, rfl, rfl⟩
        rfl (.busy ?_ rfl)⟩
      · simp [exec, ideintr, Kernel.run_bind, hhead, hnext, idestart, idewait, hcmd, hca]
      · simp [hca]

theorem Inv.setPc (hinv : Inv disksize s0 s waiting) (pc : IdePc)
    (hplaced : Placed s waiting b pc) :
    Inv disksize s0 { s with pc := Function.update s.pc b pc } waiting := by
  obtain ⟨h1, h2, h3, h4, h5, h6, h7, h8, h9, h10⟩ := hinv
  refine ⟨h1, h2, h3, h4, fun c => ?_, h6, ?_, h8, h9, h10⟩
  · dsimp only
    by_cases hc : c = b
    · subst hc
      rw [Function.update_self]
      exact hplaced
    · rw [Function.update_of_ne hc]
      exact h5 c
  · cases h7 with
    | idle hcmd hirq => exact .idle hcmd hirq
    | busy hcmd hirq => exact .busy hcmd hirq
    | done hcmd hirq => exact .done hcmd hirq

theorem Inv.resume (hinv : Inv disksize s0 s waiting) (hstart : Start disksize s0)
    (hpc : s.pc b = .woken) :
    ∃ s', (waitRequest b).run s = .ok ((), s') ∧ Inv disksize s0 s' waiting := by
  have hqueued : b ∈ s.queued := by
    have := hinv.placed b
    rwa [hpc] at this
  rw [hinv.queued, List.mem_append] at hqueued
  by_cases hb : b ∈ s.served
  · exact ⟨_, run_waitRequest true (hinv.flags_of_mem hb), hinv.setPc .returned hb⟩
  · exact ⟨_, run_waitRequest false (hinv.flags_of_notMem hstart hb),
      hinv.setPc .sleeping (hqueued.resolve_left hb)⟩

theorem Inv.step (hinv : Inv disksize s0 s waiting) (hstart : Start disksize s0) {e : IdeEvent n}
    (he : s.Enabled e) :
    ∃ s' waiting', (exec e).run s = .ok ((), s') ∧ Inv disksize s0 s' waiting' := by
  cases e with
  | call b => exact hinv.call hstart he
  | resume b =>
    obtain ⟨s', hrun, hinv'⟩ := hinv.resume hstart he
    exact ⟨s', waiting, hrun, hinv'⟩
  | kill b =>
    have hwaiting : b ∈ waiting := by
      have := hinv.placed b
      rwa [show s.pc b = .sleeping from he] at this
    refine ⟨_, waiting, rfl, hinv.setPc .woken ?_⟩
    rw [Placed, hinv.queued]
    exact List.mem_append_right _ hwaiting
  | complete =>
    obtain ⟨cmd, hcmd⟩ := Option.isSome_iff_exists.mp he
    obtain ⟨s', hrun, hinv'⟩ := hinv.complete hstart hcmd
    refine ⟨s', waiting, ?_, hinv'⟩
    rw [exec, Kernel.run_bind_of_ok (Kernel.run_get s), hcmd]
    exact hrun
  | interrupt => exact hinv.interrupt he

theorem Inv.refines (hinv : Inv disksize s0 s waiting) (hstart : Start disksize s0) :
    Refines disksize s0 s := by
  have hq := hinv.queued
  have hrun : ∀ bs, bs <+: s.queued → (Memide.iderws bs).run (s0.mem disksize) =
      .ok ((), (s0.mem disksize).serveAll bs) := fun bs hbs =>
    Memide.run_iderws (hinv.nodup.sublist hbs.sublist) fun b _ => hstart.request b
  refine ⟨hinv.nodup, fun b => ?_, ⟨waiting, hq, hinv.chain⟩, hinv.started, fun b hb => ?_,
    ⟨_, hrun _ ⟨waiting, hq.symm⟩, hinv.buf⟩, ⟨_, hrun _ (List.take_prefix ..), hinv.disk⟩,
    fun e he => ?_, fun hrest => ?_⟩
  · have hplaced := hinv.placed b
    rw [hq]
    cases hpc : s.pc b with
    | start =>
      rw [hpc, Placed, hq] at hplaced
      simp [hplaced]
    | sleeping =>
      rw [hpc, Placed] at hplaced
      simp [hplaced]
    | woken =>
      rw [hpc, Placed, hq] at hplaced
      simp [hplaced]
    | returned =>
      rw [hpc, Placed] at hplaced
      simp [hplaced]
  · have hplaced := hinv.placed b
    rwa [hb] at hplaced
  · obtain ⟨s', -, hrun, -⟩ := hinv.step hstart he
    exact ⟨s', he, hrun⟩
  · -- nothing but `kill` can happen: the drive is idle, so the queue is empty
    have hno : ∀ e, (∀ b, e ≠ .kill b) → ¬s.Enabled e := fun e hne he => by
      obtain ⟨b, hb⟩ := hrest e he
      exact hne b hb
    cases hinv.working with
    | busy hcmd => exact absurd (by simp [Enabled, hcmd]) (hno .complete (by simp))
    | done hcmd hirq => exact absurd hirq (hno .interrupt (by simp))
    | idle hcmd hirq =>
      refine ⟨by simp [hq], fun b => ?_⟩
      have hplaced := hinv.placed b
      cases hpc : s.pc b with
      | start => exact absurd hpc (hno (.call b) (by simp))
      | sleeping => rw [hpc] at hplaced; exact absurd hplaced List.not_mem_nil
      | woken => exact absurd hpc (hno (.resume b) (by simp))
      | returned => rfl

/-- In every interleaving of the calls with the drive and its interrupts. -/
theorem ide_refines_memide (disksize : Nat) (s0 s : Ide n) (hstart : Start disksize s0)
    (events : List (IdeEvent n)) (hrun : Run IdeStep s0 events s) : Refines disksize s0 s := by
  have hinv : ∃ waiting, Inv disksize s0 s waiting := by
    refine Run.invariant (fun s => ∃ waiting, Inv disksize s0 s waiting) ?_ ⟨[], hstart.inv⟩ hrun
    rintro s e s' ⟨waiting, hinv⟩ ⟨he, hexec⟩
    obtain ⟨s1, waiting', hexec', hinv'⟩ := hinv.step hstart he
    obtain rfl : s1 = s' := congrArg Prod.snd (Except.ok.inj (hexec'.symm.trans hexec))
    exact ⟨waiting', hinv'⟩
  obtain ⟨waiting, hinv⟩ := hinv
  exact hinv.refines hstart

def writeAndRead {n : Nat} (writer : Fin n) : Ide n where
  buf b :=
    { busy := true, valid := false, dirty := b = writer, dev := 1, sector := 3,
      data := fun _ => if b = writer then 7 else 0 }
  qnext _ := none
  idequeue := none
  havedisk1 := true
  pc _ := .start
  disk _ _ _ := 0
  cmd := none
  port _ := 0
  irq := false
  queued := []
  served := []
  started := []

def writeAndReadRun {n : Nat} (writer reader : Fin n) : List (IdeEvent n) :=
  [.call writer, .call reader, .complete, .interrupt, .kill reader, .resume reader,
    .resume writer, .complete, .interrupt, .resume reader]

theorem ide_refines_memide_writeAndRead : ∃ s : Ide 2,
    Run IdeStep (writeAndRead 0) (writeAndReadRun 0 1) s ∧
      (s.served = [0, 1] ∧ s.pc 1 = .returned ∧ (s.buf 1).data 0 = 7) ∧
      Refines 8 (writeAndRead 0) s := by
  have hstart : Start 8 (writeAndRead (0 : Fin 2)) := by
    refine ⟨rfl, rfl, rfl, fun _ => rfl, rfl, rfl, rfl, rfl, by decide, fun b => ?_⟩
    refine ⟨rfl, .inr rfl, rfl, ?_⟩
    show 3 < 8
    decide
  have hexec : (execAll (fun (s : Ide 2) e => if s.Enabled e then
      match (exec e).run s with
      | .ok (_, s') => some s'
      | .error _ => none
      else none) (writeAndRead 0) (writeAndReadRun 0 1)).map
      (fun s => (s.served, s.pc 1, (s.buf 1).data 0)) = some ([0, 1], .returned, 7) := by
    decide
  have hstep : ∀ (s : Ide 2) e s', (if s.Enabled e then
      match (exec e).run s with
      | .ok (_, s') => some s'
      | .error _ => none
      else none) = some s' → IdeStep s e s' := by
    intro s e s' h
    obtain ⟨he, h⟩ := Option.ite_none_right_eq_some.mp h
    split at h
    · rename_i s1 hrun
      cases h
      exact ⟨he, hrun⟩
    · cases h
  obtain ⟨s, hrun, hs⟩ := exists_run_of_execAll hstep _ hexec
  simp only [Prod.mk.injEq] at hs
  exact ⟨s, hrun, hs, ide_refines_memide 8 _ s hstart _ hrun⟩

end Ide

end Xv6
