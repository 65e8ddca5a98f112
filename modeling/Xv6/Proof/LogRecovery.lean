import Xv6.Proof.LogCrash

/-!
# Recovery runs

Recovery starts on a machine that just booted, so no buffer is held or dirty and every fetch
succeeds. It installs what the header commits, erases the header, and may itself be stopped and
restarted any number of times.
-/

namespace Xv6

def Calm (s : Store) : Prop := ∀ i, (s.buf i).busy = false ∧ (s.buf i).dirty = false

theorem Calmer.calm {s s' : Store} (h : Calmer s s') (hcalm : Calm s) : Calm s' := by
  intro i
  have hbusy := mt (h i).1 (by simp [(hcalm i).1])
  have hdirty := mt (h i).2 (by simp [(hcalm i).2])
  exact ⟨by simpa using hbusy, by simpa using hdirty⟩

theorem bread_progress {s : Store} (dev sector : Nat) (hc : Coherent s)
    (hfree : ∀ i, (s.buf i).dev = dev → (s.buf i).sector = sector → (s.buf i).busy = false)
    {v : Fin nbuf} (hv : (s.buf v).busy = false ∧ (s.buf v).dirty = false) :
    ∃ i s', (bread dev sector).run s = .ok (i, s') := by
  have hget : ∃ i b, (bget dev sector).run s = .ok (i, s.setBuf i b) ∧ b.busy = true ∧
      (b.valid = false → b.dirty = false) := by
    simp only [bget, Kernel.run_get_bind]
    cases hfound : s.mru.find? fun i => (s.buf i).dev = dev ∧ (s.buf i).sector = sector with
    | some j =>
      have hj := List.find?_some hfound
      simp only [decide_eq_true_eq] at hj
      refine ⟨j, { s.buf j with busy := true }, ?_, rfl, ?_⟩
      · simp [hfree j hj.1 hj.2]
      · intro hvalid
        cases hdirty : (s.buf j).dirty with
        | false => rfl
        | true => simp [hc.dirtyValid j hdirty] at hvalid
    | none =>
      cases hlru : s.mru.reverse.find? fun i => !(s.buf i).busy && !(s.buf i).dirty with
      | none =>
        have := List.find?_eq_none.mp hlru v (List.mem_reverse.mpr (hc.listed v))
        simp [hv] at this
      | some j => exact ⟨j, _, rfl, rfl, fun _ => rfl⟩
  obtain ⟨i, b, hrun, hbusy, hclean⟩ := hget
  rw [bread, Kernel.run_bind_of_ok hrun]
  simp only [Kernel.run_get_bind, Store.setBuf_buf_self]
  cases hvalid : b.valid with
  | true => exact ⟨i, _, rfl⟩
  | false =>
    have hread : (iderw i).run (s.setBuf i b) = .ok ((), (s.setBuf i b).setBuf i
        { b with data := s.disk b.dev b.sector, valid := true }) := by
      simp [iderw, hbusy, hvalid, hclean hvalid]
    rw [if_pos (by simp), Kernel.run_bind_of_ok hread]
    exact ⟨i, _, rfl⟩

theorem rewriteBlock_progress {s : Store} (sector : Nat) (f : Store → Fin nbuf → Block)
    (hinv : LogInv s) (hcalm : Calm s) :
    ∃ s', (rewriteBlock s.log.dev sector f).run s = .ok ((), s') := by
  obtain ⟨i, s1, hread⟩ := bread_progress s.log.dev sector hinv.coherent
    (fun i _ _ => (hcalm i).1) (hcalm ⟨0, by decide⟩)
  obtain ⟨b, rfl, hb⟩ := bread_spec hinv.coherent hinv.dev hread
  rw [rewriteBlock, Kernel.run_bind_of_ok hread]
  simp only [Kernel.run_get_bind, setData, Kernel.run_modify_bind, Store.setBuf_buf_self]
  rw [Kernel.run_bind_of_ok (run_bwrite (by simpa using hb.busy)),
    run_brelse (by simp [Store.wrote, hb.busy])]
  exact ⟨_, rfl⟩

theorem writeHead_progress {s : Store} (hinv : LogInv s) (hcalm : Calm s) :
    ∃ s', writeHead.run s = .ok ((), s') := by
  rw [writeHead_eq]
  exact rewriteBlock_progress _ _ hinv hcalm

theorem installBlock_progress {s : Store} {tail : Nat} (hinv : LogInv s) (hcalm : Calm s)
    (hslot : InLog s.log (s.log.start + tail + 1)) (hhome : ¬InLog s.log (s.log.lh.sector tail)) :
    ∃ s', (installBlock tail).run s = .ok ((), s') := by
  obtain ⟨l, s1, hread⟩ := bread_progress s.log.dev (s.log.start + tail + 1) hinv.coherent
    (fun i _ _ => (hcalm i).1) (hcalm ⟨0, by decide⟩)
  obtain ⟨lb, rfl, hl⟩ := bread_spec hinv.coherent hinv.dev hread
  have hinv1 := hl.logInv hinv
  obtain ⟨v, hv⟩ : ∃ v, v ≠ l := (by decide : ∀ l : Fin nbuf, ∃ v, v ≠ l) l
  have hfree : ∀ j, ((s.setBuf l lb).buf j).dev = s.log.dev →
      ((s.setBuf l lb).buf j).sector = s.log.lh.sector tail →
      ((s.setBuf l lb).buf j).busy = false := by
    intro j _ hsector
    by_cases hj : j = l
    · subst hj
      rw [Store.setBuf_buf_self, hl.sectorEq] at hsector
      exact absurd (hsector ▸ hslot) hhome
    · rw [s.setBuf_buf_of_ne lb hj]
      exact (hcalm j).1
  obtain ⟨d, s2, hread2⟩ := bread_progress s.log.dev (s.log.lh.sector tail) hinv1.coherent hfree
    (by rw [s.setBuf_buf_of_ne lb hv]; exact hcalm v)
  obtain ⟨db, rfl, hd⟩ := bread_spec hinv1.coherent hinv1.dev hread2
  have hld : l ≠ d := by
    rintro rfl
    have := hd.idle
    simp [hl.busy] at this
  simp only [installBlock, Kernel.run_get_bind]
  rw [Kernel.run_bind_of_ok hread]
  change ∃ s', (bread s.log.dev (s.log.lh.sector tail) >>= _).run (s.setBuf l lb) = .ok ((), s')
  rw [Kernel.run_bind_of_ok hread2]
  simp only [Kernel.run_get_bind, setData, Kernel.run_modify_bind, Store.setBuf_buf_self]
  rw [Kernel.run_bind_of_ok (run_bwrite (by simpa using hd.busy)),
    Kernel.run_bind_of_ok (run_brelse (by
      simp [Store.wrote, Store.setBuf, Function.update_of_ne hld, hl.busy])),
    run_brelse (by
      simp [Store.released, Store.wrote, Store.setBuf, Function.update_of_ne hld.symm, hd.busy])]
  exact ⟨_, rfl⟩

theorem forEach_installBlock_progress {tails : List Nat} {s : Store} (hinv : LogInv s)
    (hcalm : Calm s) (hslot : ∀ t ∈ tails, InLog s.log (s.log.start + t + 1))
    (hhome : ∀ t ∈ tails, ¬InLog s.log (s.log.lh.sector t)) :
    ∃ s', (Kernel.forEach tails installBlock).run s = .ok ((), s') := by
  induction tails generalizing s with
  | nil => exact ⟨s, rfl⟩
  | cons t tails ih =>
    obtain ⟨s1, hfirst⟩ := installBlock_progress hinv hcalm (hslot t List.mem_cons_self)
      (hhome t List.mem_cons_self)
    obtain ⟨-, hlog, hinv1, hcalmer⟩ := installBlock_spec hinv (hslot t List.mem_cons_self)
      (hhome t List.mem_cons_self) hfirst
    rw [Kernel.run_forEach_cons, Kernel.run_bind_of_ok hfirst]
    exact ih hinv1 (hcalmer.calm hcalm)
      (fun u hu => by rw [hlog]; exact hslot u (List.mem_cons_of_mem t hu))
      (fun u hu => by rw [hlog]; exact hhome u (List.mem_cons_of_mem t hu))

theorem readHead_spec {s : Store} {entries : List BlockWrite} (hinv : LogInv s) (hcalm : Calm s)
    (hsize : 0 < s.log.size) (hh : Commits (s.disk s.log.dev s.log.start) entries) :
    ∃ s', readHead.run s = .ok ((), s') ∧ Issues s s' [] ∧ LogInv s' ∧ Calm s' ∧
      s'.log = { s.log with lh := s'.log.lh } ∧ s'.log.lh.n = entries.length ∧
      ∀ i e, entries[i]? = some e → s'.log.lh.sector i = e.sector := by
  obtain ⟨i, s1, hread⟩ := bread_progress s.log.dev s.log.start hinv.coherent
    (fun i _ _ => (hcalm i).1) (hcalm ⟨0, by decide⟩)
  obtain ⟨b, rfl, hb⟩ := bread_spec hinv.coherent hinv.dev hread
  obtain ⟨hclean, hdata⟩ := hb.log hinv ⟨le_rfl, by omega⟩
  simp only [readHead, Kernel.run_get_bind]
  rw [Kernel.run_bind_of_ok hread]
  simp only [Kernel.run_modify_bind, Store.setBuf_buf_self, Store.setBuf_log, hdata]
  rw [run_brelse (by simpa [Store.setLog] using hb.busy)]
  refine ⟨_, rfl, ⟨rfl, by simp [Store.released, Store.setLog]⟩, ?_, ?_, rfl, hh.count, ?_⟩
  · refine LogInv.released (LogInv.setLog (hb.logInv hinv) ?_ ?_ ?_) (Or.inr ?_)
    · rfl
    · rfl
    · rfl
    · simp [Store.setLog, hb.devEq, hb.sectorEq, hdata]
  · intro j
    by_cases hj : j = i
    · subst hj
      simp [Store.released, Store.setLog, Store.setBuf, hclean]
    · simpa [Store.released, Store.setLog, Store.setBuf, Function.update_of_ne hj] using hcalm j
  · intro j e hj
    have hlt : j < entries.length := (List.getElem?_eq_some_iff.mp hj).1
    have hn := hh.count
    change (if j < (headerN (s.disk s.log.dev s.log.start)).toNat then
      headerSector (s.disk s.log.dev s.log.start) j else s.log.lh.sector j) = e.sector
    rw [if_pos (by omega)]
    exact hh.sector j e hj

theorem logInv_boot {start size dev : Nat} (disk : Disk) (hdev : dev ≠ noDev) :
    LogInv (Store.boot start size dev disk) where
  coherent := coherent_boot disk _
  quiet i hdirty := by simp [Store.boot, Buf.initial] at hdirty
  dev := hdev

theorem calm_boot (start size dev : Nat) (disk : Disk) : Calm (Store.boot start size dev disk) :=
  fun _ => ⟨rfl, rfl⟩

theorem recoverFromLog_spec {start size dev : Nat} {disk : Disk} {home : Nat → Block}
    {entries : List BlockWrite} (hdev : dev ≠ noDev)
    (hc : Committed (Store.boot start size dev disk).log disk home entries) :
    ∃ s hb0, recoverFromLog.run (Store.boot start size dev disk) = .ok ((), s) ∧
      Issues (Store.boot start size dev disk) s
        (entries.map (homeWrite dev) ++ [⟨dev, start, hb0⟩]) ∧ headerN hb0 = 0 := by
  have hroom : entries.length < size := hc.room
  have hsize : 0 < size := by omega
  obtain ⟨s1, hrun1, hiss1, hinv1, hcalm1, hlog1, hn1, hsec1⟩ :=
    readHead_spec (logInv_boot disk hdev) (calm_boot start size dev disk) hsize hc.header
  have hstart : s1.log.start = start := by rw [hlog1]; rfl
  have hsz : s1.log.size = size := by rw [hlog1]; rfl
  have hd1 : s1.log.dev = dev := by rw [hlog1]; rfl
  have hdisk1 : s1.disk = disk := hiss1.1
  have htails : ∀ t ∈ List.range s1.log.lh.n.toNat, t < entries.length := by
    intro t ht
    simpa [hn1] using ht
  have hslot : ∀ t ∈ List.range s1.log.lh.n.toNat, InLog s1.log (s1.log.start + t + 1) := by
    intro t ht
    have := htails t ht
    exact ⟨by omega, by omega⟩
  have hhome : ∀ t ∈ List.range s1.log.lh.n.toNat, ¬InLog s1.log (s1.log.lh.sector t) := by
    intro t ht
    have hlt := htails t ht
    rw [hsec1 t _ (List.getElem?_eq_getElem hlt)]
    simp only [InLog, hstart, hsz]
    exact hc.outside _ (List.getElem_mem hlt)
  obtain ⟨s2, hrun2⟩ := forEach_installBlock_progress hinv1 hcalm1 hslot hhome
  obtain ⟨hiss2, hlog2, hinv2, hcalmer2⟩ := forEach_installBlock_spec hinv1 hslot hhome hrun2
  have hwrites : (List.range s1.log.lh.n.toNat).map s1.installWrite =
      entries.map (homeWrite dev) := by
    rw [hn1, Int.toNat_natCast]
    apply List.ext_getElem
    · simp
    · intro t ht _
      have hlt : t < entries.length := by simpa using ht
      have hget := List.getElem?_eq_getElem hlt
      simp only [List.getElem_map, List.getElem_range, Store.installWrite, homeWrite, hd1,
        hsec1 t _ hget, hdisk1, hstart, SectorWrite.mk.injEq, true_and]
      exact hc.slot t _ hget
  have hinv2' : LogInv (s2.setLog { s2.log with lh := { s2.log.lh with n := 0 } }) :=
    hinv2.setLog rfl rfl rfl
  have hcalm2' : Calm (s2.setLog { s2.log with lh := { s2.log.lh with n := 0 } }) :=
    hcalmer2.calm hcalm1
  obtain ⟨s3, hrun3⟩ := writeHead_progress hinv2' hcalm2'
  obtain ⟨hiss3, -⟩ := writeHead_spec hinv2'
    (by change 0 < s2.log.size; rw [hlog2, hsz]; exact hsize) hrun3
  have hrun : recoverFromLog.run (Store.boot start size dev disk) = .ok ((), s3) := by
    rw [recoverFromLog, Kernel.run_bind_of_ok hrun1]
    rw [Kernel.run_bind_of_ok ((installTrans_eq s1).trans hrun2)]
    simp only [clearLog, Kernel.run_modify_bind]
    exact hrun3
  have hlog2' : s2.log.dev = dev ∧ s2.log.start = start := by
    rw [hlog2]
    exact ⟨hd1, hstart⟩
  refine ⟨s3, LogHeader.store { s2.log.lh with n := 0 } (s2.disk dev start), hrun, ?_, ?_⟩
  · have hall := hiss1.trans (hiss2.trans (show Issues s2 s3 _ from hiss3))
    rw [hwrites, List.nil_append] at hall
    simpa [Store.setLog, hlog2'.1, hlog2'.2] using hall
  · simpa using @headerN_store { s2.log.lh with n := 0 } 0 rfl (by omega) _

/-- Recovery stopped after `k` of its sector writes for each `k` of the list and started again,
then run to its end. -/
def recoverInterrupted (start size dev : Nat) : List Nat → Disk → Except String Disk
  | [], disk =>
    match recoverFromLog.run (Store.boot start size dev disk) with
    | .ok (_, s) => .ok s.disk
    | .error msg => .error msg
  | k :: crashes, disk =>
    match recoverFromLog.run (Store.boot start size dev disk) with
    | .ok (_, s) => recoverInterrupted start size dev crashes (disk.writes (s.issued.take k))
    | .error msg => .error msg

theorem recoverFromLog_recoverable {start size dev : Nat} {disk : Disk} {home : Nat → Block}
    {log : Log} (hlog : log = (Store.boot start size dev disk).log) (hdev : dev ≠ noDev)
    (hrec : Recoverable log disk home) :
    ∃ s, recoverFromLog.run (Store.boot start size dev disk) = .ok ((), s) ∧
      Clean log s.disk home ∧ ∀ k, Recoverable log (disk.writes (s.issued.take k)) home := by
  obtain ⟨base, entries, hc, rfl⟩ := hrec
  subst hlog
  obtain ⟨s, hb0, hrun, hiss, hzero⟩ := recoverFromLog_spec hdev hc
  refine ⟨s, hrun, ?_, ?_⟩
  · rw [hiss.1]
    exact hc.erased hzero
  · intro k
    rw [hiss.2]
    exact hc.recoverable_take hzero k

theorem recoverInterrupted_clean {start size dev : Nat} {disk : Disk} {home : Nat → Block}
    {log : Log} (hlog : log = (Store.boot start size dev disk).log) (hdev : dev ≠ noDev)
    (hrec : Recoverable log disk home) (crashes : List Nat) :
    ∃ disk', recoverInterrupted start size dev crashes disk = .ok disk' ∧ Clean log disk' home := by
  induction crashes generalizing disk with
  | nil =>
    obtain ⟨s, hrun, hclean, -⟩ := recoverFromLog_recoverable hlog hdev hrec
    exact ⟨s.disk, by simp only [recoverInterrupted, hrun], hclean⟩
  | cons k crashes ih =>
    obtain ⟨s, hrun, -, hcut⟩ := recoverFromLog_recoverable hlog hdev hrec
    simp only [recoverInterrupted, hrun]
    exact ih hlog (hcut k)

def SameArea (log log' : Log) : Prop :=
  log.start = log'.start ∧ log.size = log'.size ∧ log.dev = log'.dev

theorem TransTrace.congr {log log' : Log} {disk : Disk} {ws : List BlockWrite}
    {trace : List SectorWrite} (harea : SameArea log log') (h : TransTrace log' disk ws trace) :
    TransTrace log disk ws trace := by
  obtain ⟨hstart, hsize, hdev⟩ := harea
  constructor
  rw [hstart, hsize, hdev]
  exact h.split

theorem transactions_issued {txs : List (List BlockWrite)} {s s' : Store} (hrest : AtRest s)
    (hhome : ∀ ws ∈ txs, ∀ w ∈ ws, ¬InLog s.log w.sector)
    (hrun : (Kernel.forEach txs transaction).run s = .ok ((), s')) :
    s.issued <+: s'.issued := by
  induction txs generalizing s with
  | nil =>
    cases hrun
    exact List.prefix_rfl
  | cons ws txs ih =>
    rw [Kernel.run_forEach_cons, Kernel.run_bind_eq_ok] at hrun
    obtain ⟨_, s1, hfirst, hlater⟩ := hrun
    obtain ⟨trace, hiss, -, hrest1, hstart, hsize, -⟩ :=
      transaction_spec hrest (hhome ws List.mem_cons_self) hfirst
    have hfirst_le : s.issued <+: s1.issued := hiss.2 ▸ List.prefix_append ..
    exact hfirst_le.trans (ih hrest1 (fun vs hvs w hw => by
      simp only [InLog, hstart, hsize]
      exact hhome vs (List.mem_cons_of_mem ws hvs) w hw) hlater)

/-- A transaction that has returned has written its commit header. -/
theorem transactions_commit {txs : List (List BlockWrite)} {s s' : Store} {log : Log}
    (harea : SameArea log s.log) (hrest : AtRest s)
    (hhome : ∀ ws ∈ txs, ∀ w ∈ ws, ¬InLog log w.sector)
    (hrun : (Kernel.forEach txs transaction).run s = .ok ((), s')) {i : Nat} {ws : List BlockWrite}
    {si si' : Store} (hi : txs[i]? = some ws) (hne : ws ≠ [])
    (hsi : (Kernel.forEach (txs.take i) transaction).run s = .ok ((), si))
    (hsi' : (Kernel.forEach (txs.take (i + 1)) transaction).run s = .ok ((), si')) :
    si'.issued <+: s'.issued ∧ ∃ w ∈ si'.issued.drop si.issued.length, CommitHeader log w := by
  induction txs generalizing s i with
  | nil => cases hi
  | cons vs txs ih =>
    have hhome1 : ∀ ws ∈ vs :: txs, ∀ w ∈ ws, ¬InLog s.log w.sector := by
      simpa only [InLog, ← harea.1, ← harea.2.1] using hhome
    rw [Kernel.run_forEach_cons, Kernel.run_bind_eq_ok] at hrun
    obtain ⟨_, s1, hfirst, hlater⟩ := hrun
    obtain ⟨trace, hiss, htrace, hrest1, hstart, hsize, hdev⟩ :=
      transaction_spec hrest (hhome1 vs List.mem_cons_self) hfirst
    rw [List.take_succ_cons, Kernel.run_forEach_cons, Kernel.run_bind_of_ok hfirst] at hsi'
    cases i with
    | zero =>
      cases hi
      cases hsi
      cases hsi'
      refine ⟨transactions_issued hrest1 (fun us hus w hw => ?_) hlater, ?_⟩
      · simp only [InLog, hstart, hsize]
        exact hhome1 us (List.mem_cons_of_mem _ hus) w hw
      · rw [hiss.2, List.drop_left]
        exact (htrace.congr harea).commitHeader_mem hne
    | succ i =>
      rw [List.take_succ_cons, Kernel.run_forEach_cons, Kernel.run_bind_of_ok hfirst] at hsi
      exact ih ⟨harea.1.trans hstart.symm, harea.2.1.trans hsize.symm, harea.2.2.trans hdev.symm⟩
        hrest1 (fun us hus => hhome us (List.mem_cons_of_mem vs hus)) hlater hi hsi hsi'

/-- The disk at a crash during a run of transactions: some number `j` of them are recoverable, and
transaction `i` is one of them exactly when a commit header was written since it began. -/
theorem transactions_cut {txs : List (List BlockWrite)} {s s' : Store} {home : Nat → Block}
    {log : Log} (harea : SameArea log s.log) (hrest : AtRest s) (hclean : Clean log s.disk home)
    (hhome : ∀ ws ∈ txs, ∀ w ∈ ws, ¬InLog log w.sector)
    (hrun : (Kernel.forEach txs transaction).run s = .ok ((), s')) :
    ∃ trace, Issues s s' trace ∧ ∀ k, ∃ j ≤ txs.length,
      Recoverable log (s.disk.writes (trace.take k)) (applyBlocks home (txs.take j).flatten) ∧
      ∀ i ws si, txs[i]? = some ws → ws ≠ [] →
        (Kernel.forEach (txs.take i) transaction).run s = .ok ((), si) →
        (i < j ↔ ∃ w ∈ (trace.take k).drop (si.issued.length - s.issued.length),
          CommitHeader log w) := by
  induction txs generalizing s home with
  | nil =>
    simp only [Kernel.run_forEach_nil, Except.ok.injEq, Prod.mk.injEq, true_and] at hrun
    subst hrun
    refine ⟨[], Issues.refl s, fun k => ⟨0, le_rfl, ?_, by simp⟩⟩
    simpa using hclean.recoverable
  | cons ws txs ih =>
    rw [Kernel.run_forEach_cons, Kernel.run_bind_eq_ok] at hrun
    obtain ⟨_, s1, hfirst, hlater⟩ := hrun
    have hhome1 : ∀ w ∈ ws, ¬InLog log w.sector := hhome ws List.mem_cons_self
    obtain ⟨trace1, hiss1, htrace1, hrest1, hstart, hsize, hdev⟩ := transaction_spec hrest
      (fun w hw => by
        simp only [InLog, ← harea.1, ← harea.2.1]
        exact hhome1 w hw) hfirst
    replace htrace1 := htrace1.congr harea
    have harea1 : SameArea log s1.log :=
      ⟨harea.1.trans hstart.symm, harea.2.1.trans hsize.symm, harea.2.2.trans hdev.symm⟩
    have hclean1 : Clean log s1.disk (applyBlocks home ws) := by
      rw [hiss1.1]
      exact htrace1.whole hclean hhome1
    obtain ⟨trace2, hiss2, hcut⟩ := ih harea1 hrest1 hclean1
      (fun vs hvs => hhome vs (List.mem_cons_of_mem ws hvs)) hlater
    have hlen1 : s1.issued.length = s.issued.length + trace1.length := by
      rw [hiss1.2, List.length_append]
    -- the writes issued up to the start of a later transaction include all of the first one's
    have hsplit : ∀ i si, (Kernel.forEach ((ws :: txs).take (i + 1)) transaction).run s =
        .ok ((), si) → (Kernel.forEach (txs.take i) transaction).run s1 = .ok ((), si) := by
      intro i si h
      rw [List.take_succ_cons, Kernel.run_forEach_cons, Kernel.run_bind_of_ok hfirst] at h
      exact h
    have hlater_le : ∀ i si, (Kernel.forEach (txs.take i) transaction).run s1 = .ok ((), si) →
        s1.issued.length ≤ si.issued.length := fun i si h =>
      (transactions_issued hrest1 (fun vs hvs w hw => by
        simp only [InLog, ← harea1.1, ← harea1.2.1]
        exact hhome vs (List.mem_cons_of_mem ws (List.mem_of_mem_take hvs)) w hw) h).length_le
    refine ⟨trace1 ++ trace2, hiss1.trans hiss2, fun k => ?_⟩
    by_cases hk : k ≤ trace1.length
    · rw [List.take_append_of_le_length hk]
      rcases htrace1.cut hclean hhome1 k with ⟨hnone, hrec⟩ | ⟨hsome, hrec⟩
      · refine ⟨0, Nat.zero_le _, by simpa using hrec, ?_⟩
        intro i vs si _ _ _
        simp only [Nat.not_lt_zero, false_iff]
        rintro ⟨w, hw, hcommit⟩
        exact hnone ⟨w, List.mem_of_mem_drop hw, hcommit⟩
      · refine ⟨1, by simp, by simpa using hrec, ?_⟩
        intro i vs si _ _ hsi
        cases i with
        | zero =>
          simp only [List.take_zero, Kernel.run_forEach_nil, Except.ok.injEq, Prod.mk.injEq,
            true_and] at hsi
          subst hsi
          simpa using hsome
        | succ i =>
          have hle := hlater_le i si (hsplit i si hsi)
          rw [List.drop_eq_nil_of_le (by rw [List.length_take]; omega)]
          simp
    · rw [List.take_append, List.take_of_length_le (by omega)]
      obtain ⟨j, hj, hrec, hcommits⟩ := hcut (k - trace1.length)
      refine ⟨j + 1, by simpa using hj, ?_, ?_⟩
      · rw [Disk.writes_append, ← hiss1.1, List.take_succ_cons, List.flatten_cons,
          applyBlocks_append]
        exact hrec
      · intro i vs si hi hne hsi
        cases i with
        | zero =>
          simp only [List.take_zero, Kernel.run_forEach_nil, Except.ok.injEq, Prod.mk.injEq,
            true_and] at hsi
          simp only [List.getElem?_cons_zero, Option.some.injEq] at hi
          subst hsi hi
          obtain ⟨w, hw, hcommit⟩ := htrace1.commitHeader_mem hne
          simp only [Nat.zero_lt_succ, true_iff, Nat.sub_self, List.drop_zero]
          exact ⟨w, List.mem_append_left _ hw, hcommit⟩
        | succ i =>
          have hsi' := hsplit i si hsi
          have hle := hlater_le i si hsi'
          have hdrop : (trace1 ++ trace2.take (k - trace1.length)).drop
                (si.issued.length - s.issued.length) =
              (trace2.take (k - trace1.length)).drop
                (si.issued.length - s1.issued.length) := by
            rw [List.drop_append, List.drop_eq_nil_of_le (by omega), List.nil_append]
            congr 1
            omega
          rw [hdrop, Nat.add_lt_add_iff_right, hcommits i vs si (by simpa using hi) hne hsi']

/-- The redo log is crash atomic. After a crash that lets `k` sector writes of a run of transactions
through, recovery completes however often it is stopped and restarted, and it leaves an empty log
and the home sectors of the first `j` transactions; a transaction is among them exactly when its
commit header was among the `k` writes, and always when `commit_trans` had returned. -/
theorem redo_log_crash_atomic {start size dev : Nat} {disk : Disk} {txs : List (List BlockWrite)}
    {s : Store} (hdev : dev ≠ noDev) (hsize : 0 < size) (hempty : headerN (disk dev start) = 0)
    (hhome : ∀ ws ∈ txs, ∀ w ∈ ws, ¬InLog (Store.boot start size dev disk).log w.sector)
    (hrun : (Kernel.forEach txs transaction).run (Store.boot start size dev disk) = .ok ((), s)) :
    s.disk = disk.writes s.issued ∧ ∀ k, ∃ j ≤ txs.length,
      (∀ i ws si, txs[i]? = some ws → ws ≠ [] →
        (Kernel.forEach (txs.take i) transaction).run (Store.boot start size dev disk) =
          .ok ((), si) →
        (i < j ↔ ∃ w ∈ (s.issued.take k).drop si.issued.length,
          CommitHeader (Store.boot start size dev disk).log w) ∧
        ∀ si', (Kernel.forEach (txs.take (i + 1)) transaction).run
          (Store.boot start size dev disk) = .ok ((), si') → si'.issued.length ≤ k → i < j) ∧
      ∀ crashes, ∃ disk',
        recoverInterrupted start size dev crashes (disk.writes (s.issued.take k)) = .ok disk' ∧
        headerN (disk' dev start) = 0 ∧
        ∀ sector, ¬InLog (Store.boot start size dev disk).log sector →
          disk' dev sector = applyBlocks (disk dev) (txs.take j).flatten sector := by
  have hrest : AtRest (Store.boot start size dev disk) := ⟨logInv_boot disk hdev, rfl, hsize⟩
  have hclean : Clean (Store.boot start size dev disk).log disk (disk dev) :=
    clean_iff.mpr ⟨hempty, hsize, fun _ _ => rfl⟩
  obtain ⟨trace, hiss, hcut⟩ := transactions_cut ⟨rfl, rfl, rfl⟩ hrest hclean hhome hrun
  have hissued : s.issued = trace := hiss.2
  refine ⟨by rw [hissued]; exact hiss.1, fun k => ?_⟩
  obtain ⟨j, hj, hrec, hcommits⟩ := hcut k
  refine ⟨j, hj, fun i ws si hi hne hsi => ?_, fun crashes => ?_⟩
  · have hiff := hcommits i ws si hi hne hsi
    refine ⟨hissued ▸ hiff, fun si' hsi' hk => hiff.mpr ?_⟩
    obtain ⟨hpre, w, hw, hcommit⟩ :=
      transactions_commit ⟨rfl, rfl, rfl⟩ hrest hhome hrun hi hne hsi hsi'
    refine ⟨w, ?_, hcommit⟩
    have htake : si'.issued <+: trace.take k := by
      rw [← hissued, List.prefix_take_iff]
      exact ⟨hpre, hk⟩
    obtain ⟨rest, hrest'⟩ := htake
    rw [← hrest', List.drop_append]
    exact List.mem_append_left _ hw
  · rw [hissued]
    obtain ⟨disk', hrun', hclean'⟩ := @recoverInterrupted_clean start size dev
      (disk.writes (trace.take k)) _ (Store.boot start size dev disk).log rfl hdev hrec crashes
    obtain ⟨hzero, -, hsectors⟩ := clean_iff.mp hclean'
    exact ⟨disk', hrun', hzero, hsectors⟩

def twoTransactions : List (List BlockWrite) :=
  [[⟨40, fun _ => 1, by decide⟩],
    [⟨40, fun _ => 2, by decide⟩, ⟨41, fun _ => 3, by decide⟩, ⟨40, fun _ => 4, by decide⟩]]

/-- A crash right after the first transaction, with recovery stopped once. -/
theorem redo_log_crash_atomic_twoTransactions :
    ∃ s, (Kernel.forEach twoTransactions transaction).run
        (Store.boot 1014 10 1 fun _ _ _ => 0) = .ok ((), s) ∧
      ∃ disk', recoverInterrupted 1014 10 1 [1]
          (Disk.writes (fun _ _ _ => 0) (s.issued.take 4)) = .ok disk' ∧
        headerN (disk' 1 1014) = 0 ∧ disk' 1 40 = fun _ => 1 := by
  have hok : ((Kernel.forEach twoTransactions transaction).run
      (Store.boot 1014 10 1 fun _ _ _ => 0)).isOk = true := by decide
  have hfirst : ((Kernel.forEach (twoTransactions.take 1) transaction).run
      (Store.boot 1014 10 1 fun _ _ _ => 0)).map (fun r => r.2.issued.length) = .ok 4 := by decide
  cases hrun1 : (Kernel.forEach (twoTransactions.take 1) transaction).run
      (Store.boot 1014 10 1 fun _ _ _ => 0) with
  | error msg => simp [hrun1, Except.map] at hfirst
  | ok r1 =>
    obtain ⟨⟨⟩, s1⟩ := r1
    have hlen : s1.issued.length = 4 := by simpa [hrun1, Except.map] using hfirst
    cases hrun : (Kernel.forEach twoTransactions transaction).run
        (Store.boot 1014 10 1 fun _ _ _ => 0) with
    | error msg => simp [hrun, Except.isOk, Except.toBool] at hok
    | ok r =>
      obtain ⟨⟨⟩, s⟩ := r
      have hhome : ∀ ws ∈ twoTransactions, ∀ w ∈ ws,
          ¬InLog (Store.boot 1014 10 1 fun _ _ _ => 0).log w.sector := by
        simp [twoTransactions, InLog, Store.boot]
      obtain ⟨-, hcut⟩ := redo_log_crash_atomic (by decide) (by decide) rfl hhome hrun
      obtain ⟨j, hj, hwhich, hrecover⟩ := hcut 4
      have hone : 0 < j := (hwhich 0 _ _ rfl (by simp) rfl).2 s1 hrun1 hlen.le
      have htwo : ¬1 < j := by
        rw [(hwhich 1 _ s1 rfl (by simp) hrun1).1, List.drop_eq_nil_of_le (by simp [hlen])]
        simp
      obtain rfl : j = 1 := by omega
      obtain ⟨disk', hrec, hzero, hsectors⟩ := hrecover [1]
      refine ⟨s, rfl, disk', hrec, hzero, ?_⟩
      rw [hsectors 40 (by simp [InLog, Store.boot])]
      rfl

end Xv6
