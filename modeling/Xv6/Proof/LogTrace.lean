import Xv6.Log
import Xv6.Proof.BioLemmas

/-!
# The sector writes a log operation issues

Each operation of `log.c` is described by the sector writes it hands to the disk and by what it
leaves in the in-memory header. The cache drops out here: blocks of the log area are never left
dirty, so a log block is read back as it was written.
-/

namespace Xv6

def InLog (log : Log) (sector : Nat) : Prop :=
  log.start ≤ sector ∧ sector < log.start + log.size

structure LogInv (s : Store) : Prop where
  coherent : Coherent s
  quiet : ∀ i, (s.buf i).dirty = true → ¬InLog s.log (s.buf i).sector
  dev : s.log.dev ≠ noDev

def Issues (s s' : Store) (ws : List SectorWrite) : Prop :=
  s'.disk = s.disk.writes ws ∧ s'.issued = s.issued ++ ws

theorem Issues.refl (s : Store) : Issues s s [] := ⟨rfl, by simp⟩

theorem Issues.trans {s s1 s2 : Store} {ws vs : List SectorWrite} (h1 : Issues s s1 ws)
    (h2 : Issues s1 s2 vs) : Issues s s2 (ws ++ vs) := by
  refine ⟨?_, ?_⟩
  · rw [h2.1, h1.1, Disk.writes_append]
  · rw [h2.2, h1.2, List.append_assoc]

theorem LogInv.setLog {s : Store} (hinv : LogInv s) {log : Log} (hstart : log.start = s.log.start)
    (hsize : log.size = s.log.size) (hdev : log.dev = s.log.dev) : LogInv (s.setLog log) where
  coherent := hinv.coherent.setLog log
  quiet i hdirty := by
    simp only [InLog, Store.setLog, hstart, hsize]
    exact hinv.quiet i hdirty
  dev := by
    simp only [Store.setLog, hdev]
    exact hinv.dev

theorem Fetched.log {s : Store} (hinv : LogInv s) {sector : Nat} {i : Fin nbuf} {b : Buf}
    (hb : Fetched s s.log.dev sector i b) (hlog : InLog s.log sector) :
    b.dirty = false ∧ b.data = s.disk s.log.dev sector := by
  have hclean : b.dirty = false := by
    cases hdirty : b.dirty with
    | false => rfl
    | true =>
      obtain ⟨hold, _, hsector⟩ := hb.stale hdirty
      exact absurd (hsector ▸ hlog) (hinv.quiet i hold)
  exact ⟨hclean, hb.fresh hclean⟩

theorem Fetched.quiet {s : Store} (hinv : LogInv s) {sector : Nat} {i : Fin nbuf} {b : Buf}
    (hb : Fetched s s.log.dev sector i b) :
    ∀ j, ((s.setBuf i b).buf j).dirty = true → ¬InLog s.log ((s.setBuf i b).buf j).sector := by
  intro j
  by_cases hj : j = i
  · subst hj
    simp only [Store.setBuf_buf_self]
    intro hdirty
    obtain ⟨hold, _, hsector⟩ := hb.stale hdirty
    rw [hb.sectorEq, ← hsector]
    exact hinv.quiet j hold
  · rw [s.setBuf_buf_of_ne b hj]
    exact hinv.quiet j

theorem Fetched.logInv {s : Store} (hinv : LogInv s) {sector : Nat} {i : Fin nbuf} {b : Buf}
    (hb : Fetched s s.log.dev sector i b) : LogInv (s.setBuf i b) :=
  ⟨hb.coherent hinv.coherent, hb.quiet hinv, hinv.dev⟩

theorem LogInv.setData {s : Store} (hinv : LogInv s) {i : Fin nbuf}
    (hbusy : (s.buf i).busy = true) (data : Block) :
    LogInv (s.setBuf i { s.buf i with data := data }) where
  coherent := by
    refine hinv.coherent.setBuf ?_ (hinv.coherent.dirtyValid i) ?_
    · rintro j hj hdev ⟨hd, hs⟩
      exact hj (hinv.coherent.unique j i (hd ▸ hdev) hd hs)
    · intro hidle
      simp [hbusy] at hidle
  quiet j := by
    by_cases hj : j = i
    · subst hj
      simpa using hinv.quiet j
    · simpa [s.setBuf_buf_of_ne _ hj] using hinv.quiet j
  dev := hinv.dev

theorem LogInv.wrote {s : Store} (hinv : LogInv s) {i : Fin nbuf}
    (hbusy : (s.buf i).busy = true) (hdev : (s.buf i).dev ≠ noDev) : LogInv (s.wrote i) where
  coherent := hinv.coherent.wrote hbusy hdev
  quiet j := by
    by_cases hj : j = i
    · subst hj
      simp [Store.wrote, Store.setBuf]
    · simpa [Store.wrote, Store.setBuf, Function.update_of_ne hj] using hinv.quiet j
  dev := hinv.dev

theorem LogInv.released {s : Store} (hinv : LogInv s) {i : Fin nbuf}
    (hown : (s.buf i).dirty = true ∨
      (s.buf i).data = s.disk (s.buf i).dev (s.buf i).sector) : LogInv (s.released i) where
  coherent := hinv.coherent.released hown
  quiet j := by
    by_cases hj : j = i
    · subst hj
      simpa [Store.released] using hinv.quiet j
    · simpa [Store.released, s.setBuf_buf_of_ne _ hj] using hinv.quiet j
  dev := hinv.dev

def Calmer (s s' : Store) : Prop :=
  ∀ j, ((s'.buf j).busy = true → (s.buf j).busy = true) ∧
    ((s'.buf j).dirty = true → (s.buf j).dirty = true)

theorem Calmer.trans {s s1 s2 : Store} (h1 : Calmer s s1) (h2 : Calmer s1 s2) : Calmer s s2 :=
  fun j => ⟨fun h => (h1 j).1 ((h2 j).1 h), fun h => (h1 j).2 ((h2 j).2 h)⟩

/-! ### Fetch, overwrite, write, release

The header write and the log append are both this sequence on a block of the log area. -/

def rewriteBlock (dev sector : Nat) (f : Store → Fin nbuf → Block) : Kernel Store Unit := do
  let i ← bread dev sector
  let s ← Kernel.get
  setData i (f s i)
  bwrite i
  brelse i

theorem rewriteBlock_spec {s s' : Store} {sector : Nat} {f : Store → Fin nbuf → Block}
    (hinv : LogInv s) (h : (rewriteBlock s.log.dev sector f).run s = .ok ((), s')) :
    ∃ i b, Fetched s s.log.dev sector i b ∧
      Issues s s' [⟨s.log.dev, sector, f (s.setBuf i b) i⟩] ∧
      s'.log = s.log ∧ LogInv s' ∧ (∀ j ≠ i, s'.buf j = s.buf j) ∧ Calmer s s' := by
  rw [rewriteBlock, Kernel.run_bind_eq_ok] at h
  obtain ⟨i, s1, hread, h⟩ := h
  obtain ⟨b, rfl, hb⟩ := bread_spec hinv.coherent hinv.dev hread
  simp only [Kernel.run_get_bind, setData, Kernel.run_modify_bind, Store.setBuf_buf_self] at h
  have hinv1 := hb.logInv hinv
  have hinv2 := hinv1.setData (i := i) (by simpa using hb.busy) (f (s.setBuf i b) i)
  simp only [Store.setBuf_buf_self] at hinv2
  rw [Kernel.run_bind_of_ok (run_bwrite (by simpa using hb.busy)),
    run_brelse (by simp [Store.wrote, hb.busy])] at h
  simp only [Except.ok.injEq, Prod.mk.injEq, true_and] at h
  have hinv3 := hinv2.wrote (i := i) (by simp [hb.busy]) (by simp [hb.devEq, hinv.dev])
  have hinv4 := hinv3.released (i := i)
    (Or.inr (by simp [Store.wrote, Store.setBuf, Disk.write]))
  have hothers : ∀ j ≠ i, s'.buf j = s.buf j := by
    intro j hj
    rw [← h]
    simp [Store.released, Store.wrote, Store.setBuf, Function.update_of_ne hj]
  refine ⟨i, b, hb, ?_, ?_, h ▸ hinv4, hothers, ?_⟩
  · rw [← h]
    simp [Issues, Store.released, Store.wrote, Disk.writes, hb.devEq, hb.sectorEq]
  · rw [← h]
    rfl
  · intro j
    by_cases hj : j = i
    · subst hj
      rw [← h]
      simp [Store.released, Store.wrote]
    · rw [hothers j hj]
      exact ⟨id, id⟩

theorem writeHead_eq (s : Store) :
    writeHead.run s =
      (rewriteBlock s.log.dev s.log.start fun s i => s.log.lh.store (s.buf i).data).run s := rfl

theorem writeHead_spec {s s' : Store} (hinv : LogInv s) (hsize : 0 < s.log.size)
    (h : writeHead.run s = .ok ((), s')) :
    Issues s s' [⟨s.log.dev, s.log.start, s.log.lh.store (s.disk s.log.dev s.log.start)⟩] ∧
      s'.log = s.log ∧ LogInv s' ∧ Calmer s s' := by
  rw [writeHead_eq] at h
  obtain ⟨i, b, hb, hissues, hlog, hinv', -, hcalm⟩ := rewriteBlock_spec hinv h
  have hdata := (hb.log hinv ⟨le_rfl, by omega⟩).2
  simp only [Store.setBuf_buf_self, Store.setBuf_log, hdata] at hissues
  exact ⟨hissues, hlog, hinv', hcalm⟩

def installBlock (tail : Nat) : Kernel Store Unit := do
  let s ← Kernel.get
  let lbuf ← bread s.log.dev (s.log.start + tail + 1)
  let dbuf ← bread s.log.dev (s.log.lh.sector tail)
  let s ← Kernel.get
  setData dbuf (s.buf lbuf).data
  bwrite dbuf
  brelse lbuf
  brelse dbuf

theorem installTrans_eq (s : Store) :
    installTrans.run s = (Kernel.forEach (List.range s.log.lh.n.toNat) installBlock).run s := rfl

def Store.installWrite (s : Store) (tail : Nat) : SectorWrite :=
  ⟨s.log.dev, s.log.lh.sector tail, s.disk s.log.dev (s.log.start + tail + 1)⟩

theorem installBlock_spec {s s' : Store} {tail : Nat} (hinv : LogInv s)
    (hslot : InLog s.log (s.log.start + tail + 1)) (hhome : ¬InLog s.log (s.log.lh.sector tail))
    (h : (installBlock tail).run s = .ok ((), s')) :
    Issues s s' [s.installWrite tail] ∧ s'.log = s.log ∧ LogInv s' ∧ Calmer s s' := by
  simp only [installBlock, Kernel.run_get_bind] at h
  rw [Kernel.run_bind_eq_ok] at h
  obtain ⟨l, s1, hread, h⟩ := h
  obtain ⟨lb, rfl, hl⟩ := bread_spec hinv.coherent hinv.dev hread
  obtain ⟨hlclean, hldata⟩ := hl.log hinv hslot
  have hinv1 := hl.logInv hinv
  rw [Kernel.run_bind_eq_ok] at h
  obtain ⟨d, s2, hread2, h⟩ := h
  obtain ⟨db, rfl, hd⟩ := bread_spec hinv1.coherent hinv1.dev hread2
  have hinv2 : LogInv ((s.setBuf l lb).setBuf d db) := hd.logInv hinv1
  have hld : l ≠ d := by
    rintro rfl
    have := hd.idle
    simp [hl.busy] at this
  have hne : s.log.start + tail + 1 ≠ s.log.lh.sector tail := fun heq => hhome (heq ▸ hslot)
  have hlbuf : ((s.setBuf l lb).setBuf d db).buf l = lb := by
    rw [Store.setBuf_buf_of_ne _ _ hld, Store.setBuf_buf_self]
  simp only [Kernel.run_get_bind, setData, Kernel.run_modify_bind, Store.setBuf_buf_self,
    hlbuf] at h
  have hinv3 := hinv2.setData (i := d) (by simpa using hd.busy) lb.data
  simp only [Store.setBuf_buf_self] at hinv3
  set s3 := ((s.setBuf l lb).setBuf d db).setBuf d { db with data := lb.data } with hs3
  have hs3l : s3.buf l = lb := by rw [hs3, Store.setBuf_buf_of_ne _ _ hld, hlbuf]
  have hs3d : s3.buf d = { db with data := lb.data } := by rw [hs3, Store.setBuf_buf_self]
  have hwl : (s3.wrote d).buf l = lb := by
    simp [Store.wrote, Store.setBuf, Function.update_of_ne hld, hs3l]
  have hwd : (s3.wrote d).buf d = { db with data := lb.data, dirty := false, valid := true } := by
    simp [Store.wrote, hs3d]
  have hrd : ((s3.wrote d).released l).buf d = (s3.wrote d).buf d := by
    simp [Store.released, Store.setBuf, Function.update_of_ne hld.symm]
  rw [Kernel.run_bind_of_ok (run_bwrite (by rw [hs3d]; exact hd.busy)),
    Kernel.run_bind_of_ok (run_brelse (by rw [hwl]; exact hl.busy)),
    run_brelse (by rw [hrd, hwd]; exact hd.busy)] at h
  simp only [Except.ok.injEq, Prod.mk.injEq, true_and] at h
  have hdisk : (s3.wrote d).disk = s.disk.write (s.installWrite tail) := by
    simp [Store.wrote, hs3, hd.devEq, hd.sectorEq, hldata, Store.installWrite]
  have hinv4 := hinv3.wrote (i := d) (by rw [hs3d]; exact hd.busy)
    (by rw [hs3d]; simpa [hd.devEq] using hinv.dev)
  -- the log block is released unchanged: the write went to another sector
  have hinv5 := hinv4.released (i := l) (Or.inr (by
    rw [hwl, hdisk, hl.devEq, hl.sectorEq, Disk.write_of_ne _ hne, hldata]))
  have hinv6 := hinv5.released (i := d) (Or.inr (by
    rw [hrd, hwd]
    change lb.data = (s3.wrote d).disk db.dev db.sector
    rw [hdisk, hd.devEq, hd.sectorEq, hldata]
    simp [Disk.write, Store.installWrite]))
  refine ⟨⟨?_, ?_⟩, ?_, h ▸ hinv6, ?_⟩
  · rw [← h]
    exact hdisk
  · rw [← h]
    simp [Store.released, Store.wrote, hs3, hd.devEq, hd.sectorEq, hldata,
      Store.installWrite]
  · rw [← h]
    rfl
  · intro j
    rw [← h]
    by_cases hjd : j = d
    · subst hjd
      have hbuf : (((s3.wrote j).released l).released j).buf j =
          { ((s3.wrote j).released l).buf j with busy := false } := by simp [Store.released]
      rw [hbuf, hrd, hwd]
      simp
    · by_cases hjl : j = l
      · subst hjl
        simp [Store.released, Store.wrote, Store.setBuf, Function.update_of_ne hjd, hs3l, hlclean]
      · simp [Store.released, Store.wrote, Store.setBuf, Function.update_of_ne hjd,
          Function.update_of_ne hjl, hs3]

theorem forEach_installBlock_spec {tails : List Nat} {s s' : Store} (hinv : LogInv s)
    (hslot : ∀ t ∈ tails, InLog s.log (s.log.start + t + 1))
    (hhome : ∀ t ∈ tails, ¬InLog s.log (s.log.lh.sector t))
    (h : (Kernel.forEach tails installBlock).run s = .ok ((), s')) :
    Issues s s' (tails.map s.installWrite) ∧ s'.log = s.log ∧ LogInv s' ∧ Calmer s s' := by
  induction tails generalizing s with
  | nil =>
    simp only [Kernel.run_forEach_nil, Except.ok.injEq, Prod.mk.injEq, true_and] at h
    subst h
    exact ⟨Issues.refl s, rfl, hinv, fun _ => ⟨id, id⟩⟩
  | cons t tails ih =>
    rw [Kernel.run_forEach_cons, Kernel.run_bind_eq_ok] at h
    obtain ⟨_, s1, hfirst, hrest⟩ := h
    obtain ⟨hiss, hlog, hinv1, hcalm⟩ := installBlock_spec hinv (hslot t List.mem_cons_self)
      (hhome t List.mem_cons_self) hfirst
    obtain ⟨hiss', hlog', hinv', hcalm'⟩ := ih hinv1
      (fun u hu => by rw [hlog]; exact hslot u (List.mem_cons_of_mem t hu))
      (fun u hu => by rw [hlog]; exact hhome u (List.mem_cons_of_mem t hu)) hrest
    have hsame : ∀ u ∈ tails, s1.installWrite u = s.installWrite u := by
      intro u hu
      have hne : s.log.start + u + 1 ≠ s.log.lh.sector t := fun heq =>
        hhome t List.mem_cons_self (heq ▸ hslot u (List.mem_cons_of_mem t hu))
      simp only [Store.installWrite, hlog, hiss.1]
      rw [Disk.writes_cons, Disk.writes_nil, Disk.write_of_ne _ hne]
    refine ⟨?_, hlog'.trans hlog, hinv', hcalm.trans hcalm'⟩
    rw [List.map_congr_left hsame] at hiss'
    exact hiss.trans hiss'

/-! ### Appending

`entries` are the blocks of the running transaction in log order. -/

def logPut : List BlockWrite → BlockWrite → List BlockWrite
  | [], w => [w]
  | e :: rest, w => if e.sector = w.sector then w :: rest else e :: logPut rest w

def slotOf : List BlockWrite → Nat → Nat
  | [], _ => 0
  | e :: rest, sector => if e.sector = sector then 0 else slotOf rest sector + 1

theorem getElem?_logPut (entries : List BlockWrite) (w : BlockWrite) (j : Nat) :
    (logPut entries w)[j]? = if j = slotOf entries w.sector then some w else entries[j]? := by
  induction entries generalizing j with
  | nil => cases j <;> simp [logPut, slotOf]
  | cons e rest ih =>
    by_cases he : e.sector = w.sector
    · cases j <;> simp [logPut, slotOf, he]
    · cases j with
      | zero => simp [logPut, slotOf, he]
      | succ j => simp [logPut, slotOf, he, ih]

theorem length_logPut (entries : List BlockWrite) (w : BlockWrite) :
    (logPut entries w).length =
      if slotOf entries w.sector = entries.length then entries.length + 1 else entries.length := by
  induction entries with
  | nil => simp [logPut, slotOf]
  | cons e rest ih =>
    by_cases he : e.sector = w.sector
    · simp [logPut, slotOf, he]
    · simp only [logPut, slotOf, he, if_false, List.length_cons, ih, Nat.add_right_cancel_iff]
      split <;> rfl

theorem slotOf_le (entries : List BlockWrite) (sector : Nat) :
    slotOf entries sector ≤ entries.length := by
  induction entries with
  | nil => simp [slotOf]
  | cons e rest ih =>
    simp only [slotOf, List.length_cons]
    split <;> omega

theorem sector_ne_of_lt_slotOf {entries : List BlockWrite} {sector j : Nat} {e : BlockWrite}
    (hj : j < slotOf entries sector) (he : entries[j]? = some e) : e.sector ≠ sector := by
  induction entries generalizing j with
  | nil => simp at he
  | cons a rest ih =>
    by_cases ha : a.sector = sector
    · simp [slotOf, ha] at hj
    · simp only [slotOf, ha, if_false] at hj
      cases j with
      | zero =>
        simp only [List.getElem?_cons_zero, Option.some.injEq] at he
        exact he ▸ ha
      | succ j => exact ih (Nat.lt_of_succ_lt_succ hj) (by simpa using he)

theorem sector_eq_of_slotOf {entries : List BlockWrite} {sector : Nat} {e : BlockWrite}
    (he : entries[slotOf entries sector]? = some e) : e.sector = sector := by
  induction entries with
  | nil => simp at he
  | cons a rest ih =>
    by_cases ha : a.sector = sector
    · simp only [slotOf, ha, if_true, List.getElem?_cons_zero, Option.some.injEq] at he
      exact he ▸ ha
    · simp only [slotOf, ha, if_false, List.getElem?_cons_succ] at he
      exact ih he

theorem mem_logPut {entries : List BlockWrite} {w e : BlockWrite} (h : e ∈ logPut entries w) :
    e = w ∨ e ∈ entries := by
  obtain ⟨j, hj⟩ := List.mem_iff_getElem?.mp h
  rw [getElem?_logPut] at hj
  split at hj
  · exact Or.inl (Option.some.inj hj).symm
  · exact Or.inr (List.mem_iff_getElem?.mpr ⟨j, hj⟩)

structure Holds (s : Store) (entries : List BlockWrite) : Prop where
  count : s.log.lh.n = entries.length
  sector : ∀ i e, entries[i]? = some e → s.log.lh.sector i = e.sector
  data : ∀ i e, entries[i]? = some e → s.disk s.log.dev (s.log.start + i + 1) = e.data

theorem Holds.slot_eq {s : Store} {entries : List BlockWrite} (hh : Holds s entries)
    (sector : Nat) : s.log.lh.slot sector = slotOf entries sector := by
  have hn : s.log.lh.n.toNat = entries.length := by rw [hh.count]; simp
  rw [LogHeader.slot, hn]
  by_cases hfound : slotOf entries sector < entries.length
  · have hfind : (List.range entries.length).find? (fun i => s.log.lh.sector i = sector) =
        some (slotOf entries sector) := by
      rw [List.find?_range_eq_some]
      refine ⟨?_, List.mem_range.mpr hfound, ?_⟩
      · have hget := List.getElem?_eq_getElem hfound
        simp [hh.sector _ _ hget, sector_eq_of_slotOf hget]
      · intro j hj
        have hget := List.getElem?_eq_getElem (hj.trans hfound)
        simp [hh.sector _ _ hget, sector_ne_of_lt_slotOf hj hget]
    rw [hfind, Option.getD_some]
  · have heq : slotOf entries sector = entries.length :=
      Nat.le_antisymm (slotOf_le entries sector) (by omega)
    have hnone : (List.range entries.length).find? (fun i => s.log.lh.sector i = sector) =
        none := by
      rw [List.find?_eq_none]
      intro i hi
      rw [List.mem_range] at hi
      have hget := List.getElem?_eq_getElem hi
      have hlt : i < slotOf entries sector := heq ▸ hi
      simp [hh.sector _ _ hget, sector_ne_of_lt_slotOf hlt hget]
    rw [hnone, heq, Option.getD_none]

/-- The slot of `w` written and named by the header. -/
theorem Holds.put {s s' : Store} {entries : List BlockWrite} {w : BlockWrite}
    (hh : Holds s entries)
    (hdisk : s'.disk = s.disk.write
      ⟨s.log.dev, s.log.start + slotOf entries w.sector + 1, w.data⟩)
    (hlog : s'.log = { s.log with lh :=
      { n := (logPut entries w).length
        sector := Function.update s.log.lh.sector (slotOf entries w.sector) w.sector } }) :
    Holds s' (logPut entries w) := by
  refine ⟨by rw [hlog], fun j e hj => ?_, fun j e hj => ?_⟩
  · -- the header names the slot's new sector and keeps the others
    rw [getElem?_logPut] at hj
    rw [hlog]
    by_cases hjk : j = slotOf entries w.sector
    · rw [if_pos hjk, Option.some.injEq] at hj
      simp [hjk, hj]
    · rw [if_neg hjk] at hj
      simpa [hjk] using hh.sector j e hj
  · rw [getElem?_logPut] at hj
    rw [hdisk, hlog]
    by_cases hjk : j = slotOf entries w.sector
    · rw [if_pos hjk, Option.some.injEq] at hj
      simp [hjk, hj, Disk.write]
    · rw [if_neg hjk] at hj
      rw [Disk.write_of_ne _ (by simp; omega)]
      exact hh.data j e hj

/-- A held home block may be dirty. -/
theorem LogInv.setDirty {s : Store} {b : Fin nbuf} (hinv : LogInv s)
    (hbusy : (s.buf b).busy = true) (hvalid : (s.buf b).valid = true)
    (hhome : ¬InLog s.log (s.buf b).sector) :
    LogInv (s.setBuf b { s.buf b with dirty := true }) := by
  refine ⟨hinv.coherent.setBuf ?_ (fun _ => hvalid) ?_, fun j => ?_, hinv.dev⟩
  · rintro j hj hne ⟨hd, hs⟩
    exact hj (hinv.coherent.unique j b (hd ▸ hne) hd hs)
  · intro hidle
    simp [hbusy] at hidle
  · by_cases hj : j = b
    · subst hj
      rw [Store.setBuf_buf_self]
      exact fun _ => hhome
    · rw [Store.setBuf_buf_of_ne _ _ hj]
      exact hinv.quiet j

theorem logWrite_spec {s s' : Store} {entries : List BlockWrite} {b : Fin nbuf} {w : BlockWrite}
    (hinv : LogInv s) (hh : Holds s entries) (hbusy : (s.buf b).busy = true)
    (hvalid : (s.buf b).valid = true)
    (hdev : (s.buf b).dev = s.log.dev) (hsector : (s.buf b).sector = w.sector)
    (hdata : (s.buf b).data = w.data) (hhome : ¬InLog s.log w.sector)
    (h : (logWrite b).run s = .ok ((), s')) :
    Issues s s' [⟨s.log.dev, s.log.start + slotOf entries w.sector + 1, w.data⟩] ∧
      entries.length < logSize ∧ entries.length + 1 < s.log.size ∧
      Holds s' (logPut entries w) ∧ LogInv s' ∧ s'.log = { s.log with lh := s'.log.lh } ∧
      s'.buf b = { s.buf b with dirty := true } := by
  have hslot := hh.slot_eq w.sector
  simp only [logWrite, Kernel.run_get_bind] at h
  by_cases hfull : (logSize : Int) ≤ s.log.lh.n ∨ (s.log.size : Int) - 1 ≤ s.log.lh.n
  · rw [if_pos hfull] at h
    simp at h
  rw [if_neg hfull] at h
  have hroom : entries.length < logSize ∧ entries.length + 1 < s.log.size := by
    rw [hh.count] at hfull
    push Not at hfull
    omega
  cases hlogBusy : s.log.busy with
  | false => simp [hlogBusy] at h
  | true =>
    rw [if_neg (by simp [hlogBusy])] at h
    simp only [Kernel.run_modify_bind, hsector, hslot, hdev] at h
    set k := slotOf entries w.sector with hk
    have hkle : k ≤ entries.length := slotOf_le entries w.sector
    set s1 := s.setLog { s.log with
      lh := { s.log.lh with sector := Function.update s.log.lh.sector k w.sector } } with hs1
    have hinv1 : LogInv s1 := hinv.setLog rfl rfl rfl
    have h : (rewriteBlock s1.log.dev (s.log.start + k + 1) (fun s _ => (s.buf b).data) >>=
        fun _ => do
          Kernel.modify fun s =>
            if (k : Int) = s.log.lh.n then
              s.setLog { s.log with lh := { s.log.lh with n := s.log.lh.n + 1 } }
            else s
          Kernel.modify fun s => s.setBuf b { s.buf b with dirty := true }).run s1 =
        .ok ((), s') := by
      simp only [rewriteBlock, Kernel.bind_assoc']
      exact h
    rw [Kernel.run_bind_eq_ok] at h
    obtain ⟨_, s2, hrewrite, h⟩ := h
    obtain ⟨i, lb, hl, hissues, hlog, hinv2, hothers, -⟩ := rewriteBlock_spec hinv1 hrewrite
    have hbi : b ≠ i := by
      rintro rfl
      have := hl.idle
      simp [hs1, Store.setLog, hbusy] at this
    have hbuf2 : s2.buf b = s.buf b := hothers b hbi
    have hwrite : (s1.setBuf i lb).buf b = s.buf b := Store.setBuf_buf_of_ne _ _ hbi
    rw [hwrite, hdata] at hissues
    simp only [Kernel.run_modify_bind, Kernel.run_modify, Except.ok.injEq, Prod.mk.injEq,
      true_and] at h
    have hn2 : s2.log.lh.n = entries.length := by rw [hlog]; exact hh.count
    set s3 := if (k : Int) = s2.log.lh.n then
        s2.setLog { s2.log with lh := { s2.log.lh with n := s2.log.lh.n + 1 } }
      else s2 with hs3
    have hlog3 : s3.log = { s.log with lh :=
        { n := (logPut entries w).length
          sector := Function.update s.log.lh.sector k w.sector } } := by
      rw [hs3, hn2, length_logPut, ← hk]
      by_cases hkn : k = entries.length
      · rw [if_pos (by exact_mod_cast hkn), if_pos hkn, hlog]
        simp [hs1, Store.setLog]
      · rw [if_neg (by exact_mod_cast hkn), if_neg hkn, hlog, ← hh.count]
        rfl
    have hbuf3 : s3.buf = s2.buf := by rw [hs3]; split <;> rfl
    have hdisk3 : s3.disk = s2.disk := by rw [hs3]; split <;> rfl
    have hissued3 : s3.issued = s2.issued := by rw [hs3]; split <;> rfl
    have hinv3 : LogInv s3 := by
      rw [hs3]
      split
      · exact hinv2.setLog rfl rfl rfl
      · exact hinv2
    subst h
    refine ⟨⟨hdisk3.trans hissues.1, hissued3.trans hissues.2⟩, hroom.1, hroom.2,
      hh.put (hdisk3.trans hissues.1) hlog3, ?_, ?_, ?_⟩
    · refine hinv3.setDirty ?_ ?_ ?_
      · rwa [hbuf3, hbuf2]
      · rwa [hbuf3, hbuf2]
      · rwa [hbuf3, hbuf2, hsector, hlog3]
    · rw [Store.setBuf_log, hlog3]
    · rw [Store.setBuf_buf_self, hbuf3, hbuf2]

end Xv6
