import Xv6.Bio
import Mathlib.Data.List.Nodup

/-!
# What the buffer cache guarantees

A buffer nobody holds is either dirty or a copy of its sector, and a sector has one buffer. Under
that invariant `bread` hands out the sector's content, `bwrite` is the only operation that reaches
the disk, and a released buffer is coherent again once it is dirty or written.
-/

namespace Xv6

@[simp]
theorem Store.setBuf_buf_self (s : Store) (i : Fin nbuf) (b : Buf) : (s.setBuf i b).buf i = b := by
  simp [Store.setBuf]

theorem Store.setBuf_buf_of_ne (s : Store) {i j : Fin nbuf} (b : Buf) (h : j ≠ i) :
    (s.setBuf i b).buf j = s.buf j := by
  simp [Store.setBuf, Function.update_of_ne h]

@[simp]
theorem Store.setBuf_mru (s : Store) (i : Fin nbuf) (b : Buf) : (s.setBuf i b).mru = s.mru := rfl

@[simp]
theorem Store.setBuf_disk (s : Store) (i : Fin nbuf) (b : Buf) : (s.setBuf i b).disk = s.disk := rfl

@[simp]
theorem Store.setBuf_issued (s : Store) (i : Fin nbuf) (b : Buf) :
    (s.setBuf i b).issued = s.issued := rfl

@[simp]
theorem Store.setBuf_log (s : Store) (i : Fin nbuf) (b : Buf) : (s.setBuf i b).log = s.log := rfl

theorem Disk.writes_append (disk : Disk) (ws vs : List SectorWrite) :
    disk.writes (ws ++ vs) = (disk.writes ws).writes vs := by
  simp [Disk.writes]

@[simp]
theorem Disk.writes_nil (disk : Disk) : disk.writes [] = disk := rfl

@[simp]
theorem Disk.writes_cons (disk : Disk) (w : SectorWrite) (ws : List SectorWrite) :
    disk.writes (w :: ws) = (disk.write w).writes ws := rfl

theorem Disk.write_of_ne (disk : Disk) {w : SectorWrite} {dev sector : Nat}
    (h : sector ≠ w.sector) : disk.write w dev sector = disk dev sector := by
  simp [Disk.write, h]

theorem Disk.writes_of_forall_ne {disk : Disk} {ws : List SectorWrite} {dev sector : Nat}
    (h : ∀ w ∈ ws, sector ≠ w.sector) : disk.writes ws dev sector = disk dev sector := by
  induction ws generalizing disk with
  | nil => rfl
  | cons w ws ih =>
    rw [Disk.writes_cons, ih fun v hv => h v (List.mem_cons_of_mem w hv),
      Disk.write_of_ne disk (h w List.mem_cons_self)]

def noDev : Nat := 2 ^ 32 - 1

/-- The cache invariant. A buffer being held is exempt from `clean`: its holder may have changed
its data and not yet handed it back. -/
structure Coherent (s : Store) : Prop where
  listed : ∀ i, i ∈ s.mru
  unique : ∀ i j, (s.buf i).dev ≠ noDev → (s.buf i).dev = (s.buf j).dev →
    (s.buf i).sector = (s.buf j).sector → i = j
  dirtyValid : ∀ i, (s.buf i).dirty = true → (s.buf i).valid = true
  clean : ∀ i, (s.buf i).busy = false → (s.buf i).valid = true → (s.buf i).dirty = false →
    (s.buf i).data = s.disk (s.buf i).dev (s.buf i).sector

theorem coherent_boot (disk : Disk) (log : Log) :
    Coherent { buf := fun _ => Buf.initial, mru := binit, disk := disk, issued := [],
               log := log } where
  listed i := by simp [binit]
  unique i j hdev := by simp [Buf.initial, noDev] at hdev
  dirtyValid i h := by simp [Buf.initial] at h
  clean i _ h := by simp [Buf.initial] at h

theorem Coherent.setBuf {s : Store} (hc : Coherent s) {i : Fin nbuf} {b : Buf}
    (hunique : ∀ j ≠ i, b.dev ≠ noDev → ¬((s.buf j).dev = b.dev ∧ (s.buf j).sector = b.sector))
    (hdirty : b.dirty = true → b.valid = true)
    (hclean : b.busy = false → b.valid = true → b.dirty = false → b.data = s.disk b.dev b.sector) :
    Coherent (s.setBuf i b) where
  listed := hc.listed
  unique j k hdev hsame hsector := by
    by_cases hj : j = i <;> by_cases hk : k = i
    · rw [hj, hk]
    · subst hj
      simp only [Store.setBuf_buf_self, s.setBuf_buf_of_ne b hk] at hdev hsame hsector
      exact absurd ⟨hsame.symm, hsector.symm⟩ (hunique k hk hdev)
    · subst hk
      simp only [Store.setBuf_buf_self, s.setBuf_buf_of_ne b hj] at hdev hsame hsector
      exact absurd ⟨hsame, hsector⟩ (hunique j hj (hsame ▸ hdev))
    · rw [s.setBuf_buf_of_ne b hj] at hdev hsame hsector
      rw [s.setBuf_buf_of_ne b hk] at hsame hsector
      exact hc.unique j k hdev hsame hsector
  dirtyValid j := by
    by_cases hj : j = i
    · subst hj
      simpa using hdirty
    · simpa [s.setBuf_buf_of_ne b hj] using hc.dirtyValid j
  clean j := by
    by_cases hj : j = i
    · subst hj
      simpa using hclean
    · simpa [s.setBuf_buf_of_ne b hj] using hc.clean j

theorem Coherent.setLog {s : Store} (hc : Coherent s) (log : Log) : Coherent (s.setLog log) :=
  ⟨hc.listed, hc.unique, hc.dirtyValid, hc.clean⟩

structure Fetched (s : Store) (dev sector : Nat) (i : Fin nbuf) (b : Buf) : Prop where
  idle : (s.buf i).busy = false
  busy : b.busy = true
  valid : b.valid = true
  devEq : b.dev = dev
  sectorEq : b.sector = sector
  fresh : b.dirty = false → b.data = s.disk dev sector
  stale : b.dirty = true →
    (s.buf i).dirty = true ∧ (s.buf i).dev = dev ∧ (s.buf i).sector = sector
  alone : ∀ j ≠ i, ¬((s.buf j).dev = dev ∧ (s.buf j).sector = sector)

theorem bread_spec {s s' : Store} {dev sector : Nat} {i : Fin nbuf} (hc : Coherent s)
    (hdev : dev ≠ noDev) (h : (bread dev sector).run s = .ok (i, s')) :
    ∃ b, s' = s.setBuf i b ∧ Fetched s dev sector i b := by
  rw [bread, Kernel.run_bind_eq_ok] at h
  obtain ⟨k, s1, hget, hrest⟩ := h
  simp only [bget, Kernel.run_get_bind] at hget
  cases hfound : s.mru.find? fun i => (s.buf i).dev = dev ∧ (s.buf i).sector = sector with
  | some j =>
    -- the sector is cached
    have hj := List.find?_some hfound
    simp only [decide_eq_true_eq] at hj
    rw [hfound] at hget
    simp only at hget
    by_cases hbusy : (s.buf j).busy = true
    · simp [hbusy] at hget
    · simp only [hbusy, Bool.false_eq_true, if_false, Kernel.run_modify_bind, Kernel.run_pure,
        Except.ok.injEq, Prod.mk.injEq] at hget
      obtain ⟨rfl, rfl⟩ := hget
      have hidle : (s.buf j).busy = false := by simpa using hbusy
      have halone : ∀ l ≠ j, ¬((s.buf l).dev = dev ∧ (s.buf l).sector = sector) := by
        rintro l hl ⟨hld, hls⟩
        exact hl (hc.unique l j (hld ▸ hdev) (hld.trans hj.1.symm) (hls.trans hj.2.symm))
      cases hvalid : (s.buf j).valid with
      | true =>
        simp only [Kernel.run_get_bind, Store.setBuf_buf_self, hvalid, Bool.not_true,
          Bool.false_eq_true, if_false, Kernel.run_pure, Except.ok.injEq,
          Prod.mk.injEq] at hrest
        obtain ⟨rfl, rfl⟩ := hrest
        refine ⟨_, rfl, hidle, rfl, rfl, hj.1, hj.2, ?_, ?_, halone⟩
        · intro hclean
          rw [← hj.1, ← hj.2]
          exact hc.clean j hidle hvalid hclean
        · intro hdirty
          exact ⟨hdirty, hj⟩
      | false =>
        have hclean : (s.buf j).dirty = false := by
          cases hdirty : (s.buf j).dirty with
          | false => rfl
          | true => simp [hc.dirtyValid j hdirty] at hvalid
        simp only [Kernel.run_get_bind, Store.setBuf_buf_self, hvalid, Bool.not_false, if_true,
          Kernel.run_bind_eq_ok, iderw, Bool.not_true, Bool.false_eq_true, if_false,
          Bool.false_and, hclean, Kernel.run_modify, Except.ok.injEq, Prod.mk.injEq,
          Kernel.run_pure] at hrest
        obtain ⟨_, s2, ⟨_, rfl⟩, rfl, rfl⟩ := hrest
        refine ⟨{ (s.buf j) with busy := true, valid := true, data := s.disk dev sector },
          ?_, hidle, rfl, rfl, hj.1, hj.2, fun _ => rfl, ?_, halone⟩
        · simp [Store.setBuf, hj, hclean]
        · intro hdirty
          simp [hclean] at hdirty
  | none =>
    -- the least recently used clean buffer is recycled
    rw [hfound] at hget
    simp only at hget
    cases hlru : s.mru.reverse.find? fun i => !(s.buf i).busy && !(s.buf i).dirty with
    | none => simp [hlru] at hget
    | some j =>
      have hj := List.find?_some hlru
      simp only [Bool.and_eq_true, Bool.not_eq_true'] at hj
      rw [hlru] at hget
      simp only [Kernel.run_modify_bind, Kernel.run_pure, Except.ok.injEq,
        Prod.mk.injEq] at hget
      obtain ⟨rfl, rfl⟩ := hget
      simp only [Kernel.run_get_bind, Store.setBuf_buf_self, Bool.not_false, if_true,
        Kernel.run_bind_eq_ok, iderw, Bool.not_true, Bool.false_eq_true, if_false,
        Bool.false_and, Kernel.run_modify, Except.ok.injEq, Prod.mk.injEq,
        Kernel.run_pure] at hrest
      obtain ⟨_, s2, ⟨_, rfl⟩, rfl, rfl⟩ := hrest
      refine ⟨⟨true, true, false, dev, sector, s.disk dev sector⟩, ?_, hj.1, rfl, rfl, rfl, rfl,
        fun _ => rfl, by simp, ?_⟩
      · simp [Store.setBuf]
      · rintro l hl hsame
        have hnone := List.find?_eq_none.mp hfound l (hc.listed l)
        simp only [decide_eq_true_eq] at hnone
        exact hnone hsame

theorem Fetched.coherent {s : Store} {dev sector : Nat} {i : Fin nbuf} {b : Buf}
    (hc : Coherent s) (hb : Fetched s dev sector i b) : Coherent (s.setBuf i b) := by
  refine hc.setBuf ?_ (fun _ => hb.valid) ?_
  · intro j hj _ hsame
    rw [hb.devEq, hb.sectorEq] at hsame
    exact hb.alone j hj hsame
  · intro hbusy
    rw [hb.busy] at hbusy
    exact absurd hbusy (by simp)

def Store.wrote (s : Store) (i : Fin nbuf) : Store :=
  let w : SectorWrite :=
    { dev := (s.buf i).dev, sector := (s.buf i).sector, data := (s.buf i).data }
  { s.setBuf i { s.buf i with dirty := false, valid := true } with
    disk := s.disk.write w, issued := s.issued ++ [w] }

theorem run_bwrite {s : Store} {i : Fin nbuf} (hbusy : (s.buf i).busy = true) :
    (bwrite i).run s = .ok ((), s.wrote i) := by
  simp [bwrite, iderw, hbusy, Store.wrote, Store.setBuf]

theorem Coherent.wrote {s : Store} (hc : Coherent s) {i : Fin nbuf}
    (hbusy : (s.buf i).busy = true) (hdev : (s.buf i).dev ≠ noDev) : Coherent (s.wrote i) where
  listed := hc.listed
  unique j k := by
    have hown : ∀ l, ((s.wrote i).buf l).dev = (s.buf l).dev ∧
        ((s.wrote i).buf l).sector = (s.buf l).sector := by
      intro l
      by_cases hl : l = i
      · subst hl
        simp [Store.wrote, Store.setBuf]
      · simp [Store.wrote, Store.setBuf, Function.update_of_ne hl]
    rw [(hown j).1, (hown j).2, (hown k).1, (hown k).2]
    exact hc.unique j k
  dirtyValid j := by
    by_cases hj : j = i
    · subst hj
      simp [Store.wrote, Store.setBuf]
    · simpa [Store.wrote, Store.setBuf, Function.update_of_ne hj] using hc.dirtyValid j
  clean j := by
    by_cases hj : j = i
    · subst hj
      simp [Store.wrote, Store.setBuf, hbusy]
    · intro hidle hvalid hclean
      simp only [Store.wrote, Store.setBuf, Function.update_of_ne hj] at hidle hvalid hclean ⊢
      have hne : ¬((s.buf j).dev = (s.buf i).dev ∧ (s.buf j).sector = (s.buf i).sector) :=
        fun hsame => hj (hc.unique j i (hsame.1 ▸ hdev) hsame.1 hsame.2)
      rw [Disk.write, if_neg hne]
      exact hc.clean j hidle hvalid hclean

def Store.released (s : Store) (i : Fin nbuf) : Store :=
  { s.setBuf i { s.buf i with busy := false } with mru := i :: s.mru.erase i }

theorem run_brelse {s : Store} {i : Fin nbuf} (hbusy : (s.buf i).busy = true) :
    (brelse i).run s = .ok ((), s.released i) := by
  simp [brelse, hbusy, Store.released]

theorem Coherent.released {s : Store} (hc : Coherent s) {i : Fin nbuf}
    (hown : (s.buf i).dirty = true ∨
      (s.buf i).data = s.disk (s.buf i).dev (s.buf i).sector) : Coherent (s.released i) := by
  have hset : Coherent (s.setBuf i { s.buf i with busy := false }) := by
    refine hc.setBuf ?_ (hc.dirtyValid i) ?_
    · rintro j hj hdev ⟨hd, hs⟩
      exact hj (hc.unique j i (hd ▸ hdev) hd hs)
    · intro _ _ hclean
      rcases hown with hdirty | hdata
      · rw [hclean] at hdirty
        exact absurd hdirty (by simp)
      · exact hdata
  refine ⟨?_, hset.unique, hset.dirtyValid, hset.clean⟩
  intro j
  by_cases hj : j = i
  · simp [Store.released, hj]
  · simp only [Store.released, List.mem_cons, hj, false_or]
    exact (List.mem_erase_of_ne hj).mpr (hc.listed j)

end Xv6
