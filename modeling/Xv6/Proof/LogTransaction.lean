import Xv6.Proof.LogTrace

/-!
# The sector writes of a transaction

A transaction appends its blocks to the log area, one sector write per `log_write`, writes the
header, installs the blocks and clears the header. `TransTrace` says this of the list of sector
writes; everything about crashes follows from it.
-/

namespace Xv6

theorem getLE_foldl_putLE (indices : List Nat) (f : Nat → Nat) (b : Block) (k : Nat) :
    getLE (indices.foldl (fun b i => putLE b (4 + 4 * i) 4 (f i)) b) (4 + 4 * k) 4 =
      if k ∈ indices then f k % 256 ^ 4 else getLE b (4 + 4 * k) 4 := by
  induction indices generalizing b with
  | nil => simp
  | cons i indices ih =>
    rw [List.foldl_cons, ih]
    by_cases hk : k ∈ indices
    · simp [hk]
    · by_cases hki : k = i
      · subst hki
        simp [hk, getLE_putLE_self]
      · rw [if_neg hk, if_neg (by simp [hk, hki]), getLE_putLE_disjoint (by omega)]

theorem getLE_foldl_putLE_zero (indices : List Nat) (f : Nat → Nat) (b : Block) :
    getLE (indices.foldl (fun b i => putLE b (4 + 4 * i) 4 (f i)) b) 0 4 = getLE b 0 4 := by
  induction indices generalizing b with
  | nil => rfl
  | cons i indices ih => rw [List.foldl_cons, ih, getLE_putLE_disjoint (by omega)]

theorem headerN_store {lh : LogHeader} {n : Nat} (hn : lh.n = n) (hlt : n < 2 ^ 31)
    (data : Block) : headerN (lh.store data) = n := by
  have hword : asWord lh.n = n := by
    rw [hn, asWord]
    omega
  rw [headerN, LogHeader.store, getLE_foldl_putLE_zero, getLE_putLE_self, hword,
    Nat.mod_eq_of_lt (by omega), asInt, if_pos hlt]

theorem headerSector_store {lh : LogHeader} {n i : Nat} (hn : lh.n = n) (hi : i < n)
    (hlt : lh.sector i < 2 ^ 32) (data : Block) :
    headerSector (lh.store data) i = lh.sector i := by
  rw [headerSector, LogHeader.store, getLE_foldl_putLE, hn, if_pos (by simpa using hi),
    Nat.mod_eq_of_lt (by omega)]

theorem perform_spec {s s' : Store} {entries : List BlockWrite} {w : BlockWrite}
    (hinv : LogInv s) (hh : Holds s entries) (hhome : ¬InLog s.log w.sector)
    (h : w.perform.run s = .ok ((), s')) :
    Issues s s' [⟨s.log.dev, s.log.start + slotOf entries w.sector + 1, w.data⟩] ∧
      entries.length < logSize ∧ entries.length + 1 < s.log.size ∧
      Holds s' (logPut entries w) ∧ LogInv s' ∧ s'.log = { s.log with lh := s'.log.lh } := by
  simp only [BlockWrite.perform, Kernel.run_get_bind] at h
  rw [Kernel.run_bind_eq_ok] at h
  obtain ⟨i, s1, hread, h⟩ := h
  obtain ⟨b, rfl, hb⟩ := bread_spec hinv.coherent hinv.dev hread
  simp only [setData, Kernel.run_modify_bind, Store.setBuf_buf_self] at h
  have hinv1 := (hb.logInv hinv).setData (i := i) (by simpa using hb.busy) w.data
  simp only [Store.setBuf_buf_self] at hinv1
  set s2 := (s.setBuf i b).setBuf i { b with data := w.data } with hs2
  have hh2 : Holds s2 entries := ⟨hh.count, hh.sector, hh.data⟩
  have hbuf2 : s2.buf i = { b with data := w.data } := by rw [hs2, Store.setBuf_buf_self]
  rw [Kernel.run_bind_eq_ok] at h
  obtain ⟨_, s3, hlog, h⟩ := h
  obtain ⟨hiss, hlen, hroom, hh3, hinv3, hlog3, hbuf3⟩ := logWrite_spec (w := w) hinv1 hh2
    (by rw [hbuf2]; exact hb.busy) (by rw [hbuf2]; exact hb.valid) (by rw [hbuf2]; exact hb.devEq)
    (by rw [hbuf2]; exact hb.sectorEq) (by rw [hbuf2]) hhome hlog
  rw [run_brelse (by rw [hbuf3, hbuf2]; exact hb.busy)] at h
  simp only [Except.ok.injEq, Prod.mk.injEq, true_and] at h
  have hinv4 := hinv3.released (i := i) (Or.inl (by rw [hbuf3]))
  subst h
  exact ⟨hiss, hlen, hroom, ⟨hh3.count, hh3.sector, hh3.data⟩, hinv4, hlog3⟩

theorem forEach_perform_spec {ws : List BlockWrite} {s s' : Store} {entries : List BlockWrite}
    (hinv : LogInv s) (hh : Holds s entries) (hhome : ∀ w ∈ ws, ¬InLog s.log w.sector)
    (hlen : entries.length ≤ logSize) (hroom : entries.length < s.log.size)
    (h : (Kernel.forEach ws BlockWrite.perform).run s = .ok ((), s')) :
    ∃ slots, Issues s s' slots ∧ slots.length = ws.length ∧
      (∀ v ∈ slots, s.log.start < v.sector ∧ v.sector < s.log.start + s.log.size) ∧
      Holds s' (ws.foldl logPut entries) ∧ (ws.foldl logPut entries).length ≤ logSize ∧
      (ws.foldl logPut entries).length < s.log.size ∧ LogInv s' ∧
      s'.log = { s.log with lh := s'.log.lh } := by
  induction ws generalizing s entries with
  | nil =>
    simp only [Kernel.run_forEach_nil, Except.ok.injEq, Prod.mk.injEq, true_and] at h
    subst h
    exact ⟨[], Issues.refl s, rfl, by simp, hh, hlen, hroom, hinv, rfl⟩
  | cons w ws ih =>
    rw [Kernel.run_forEach_cons, Kernel.run_bind_eq_ok] at h
    obtain ⟨_, s1, hfirst, hrest⟩ := h
    obtain ⟨hiss, hlen1, hroom1, hh1, hinv1, hlog1⟩ :=
      perform_spec hinv hh (hhome w List.mem_cons_self) hfirst
    have hstart : s1.log.start = s.log.start := by rw [hlog1]
    have hsize : s1.log.size = s.log.size := by rw [hlog1]
    have hlen' : (logPut entries w).length ≤ entries.length + 1 := by
      rw [length_logPut]
      split <;> omega
    obtain ⟨slots, hiss', hcount, harea, hh', hlen2, hroom2, hinv', hlog'⟩ := ih hinv1 hh1
      (fun v hv => by
        simp only [InLog, hstart, hsize]
        exact hhome v (List.mem_cons_of_mem w hv))
      (by omega) (by omega) hrest
    rw [hstart, hsize] at harea
    rw [hsize] at hroom2
    refine ⟨_ :: slots, hiss.trans hiss', by simp [hcount], ?_, hh', hlen2, hroom2, hinv', ?_⟩
    · intro v hv
      rcases List.mem_cons.mp hv with rfl | hv
      · have := slotOf_le entries w.sector
        simp only
        omega
      · exact harea v hv
    · rw [hlog', hlog1]

def homeWrite (dev : Nat) (e : BlockWrite) : SectorWrite := ⟨dev, e.sector, e.data⟩

structure Commits (data : Block) (entries : List BlockWrite) : Prop where
  count : headerN data = entries.length
  sector : ∀ i e, entries[i]? = some e → headerSector data i = e.sector

structure TransTrace (log : Log) (disk : Disk) (ws : List BlockWrite)
    (trace : List SectorWrite) : Prop where
  split : ∃ slots tail, trace = slots ++ tail ∧ slots.length = ws.length ∧
    (∀ v ∈ slots, log.start < v.sector ∧ v.sector < log.start + log.size) ∧
    (ws = [] ∧ tail = [] ∨ ws ≠ [] ∧ ∃ hb hb0,
      tail = ⟨log.dev, log.start, hb⟩ ::
        ((ws.foldl logPut []).map (homeWrite log.dev) ++ [⟨log.dev, log.start, hb0⟩]) ∧
      Commits hb (ws.foldl logPut []) ∧ headerN hb0 = 0 ∧
      (ws.foldl logPut []).length < log.size ∧
      ∀ i e, (ws.foldl logPut [])[i]? = some e →
        disk.writes slots log.dev (log.start + i + 1) = e.data)

theorem logPut_ne_nil (entries : List BlockWrite) (w : BlockWrite) : logPut entries w ≠ [] := by
  cases entries with
  | nil => simp [logPut]
  | cons e rest =>
    simp only [logPut]
    split <;> simp

theorem foldl_logPut_eq_nil {ws entries : List BlockWrite} :
    ws.foldl logPut entries = [] ↔ ws = [] ∧ entries = [] := by
  induction ws generalizing entries with
  | nil => simp
  | cons w ws ih => simp [ih, logPut_ne_nil]

theorem mem_foldl_logPut {ws entries : List BlockWrite} {e : BlockWrite}
    (h : e ∈ ws.foldl logPut entries) : e ∈ ws ∨ e ∈ entries := by
  induction ws generalizing entries with
  | nil => exact Or.inr h
  | cons w ws ih =>
    rcases ih h with hmem | hmem
    · exact Or.inl (List.mem_cons_of_mem w hmem)
    · rcases mem_logPut hmem with rfl | hmem
      · exact Or.inl List.mem_cons_self
      · exact Or.inr hmem

structure AtRest (s : Store) : Prop where
  inv : LogInv s
  empty : s.log.lh.n = 0
  size : 0 < s.log.size

theorem commitTrans_spec {s s' : Store} {entries : List BlockWrite} (hinv : LogInv s)
    (hh : Holds s entries) (hlen : entries.length ≤ logSize) (hroom : entries.length < s.log.size)
    (hhome : ∀ e ∈ entries, ¬InLog s.log e.sector)
    (h : commitTrans.run s = .ok ((), s')) :
    AtRest s' ∧ s'.log = { s.log with lh := s'.log.lh, busy := false } ∧
      (entries = [] ∧ Issues s s' [] ∨ entries ≠ [] ∧ ∃ hb hb0,
        Issues s s' (⟨s.log.dev, s.log.start, hb⟩ ::
          (entries.map (homeWrite s.log.dev) ++ [⟨s.log.dev, s.log.start, hb0⟩])) ∧
        Commits hb entries ∧ headerN hb0 = 0) := by
  have hsmall : entries.length < 2 ^ 31 := by
    simp only [logSize] at hlen
    omega
  simp only [commitTrans, Kernel.run_get_bind] at h
  cases hentries : entries with
  | nil =>
    subst hentries
    have hn : s.log.lh.n = 0 := by simpa using hh.count
    rw [if_neg (by omega)] at h
    simp only [Kernel.run_modify, Except.ok.injEq, Prod.mk.injEq, true_and] at h
    subst h
    refine ⟨⟨hinv.setLog rfl rfl rfl, hn, hroom⟩, rfl, Or.inl ⟨rfl, ?_⟩⟩
    exact Issues.refl s
  | cons e rest =>
    rw [← hentries]
    have hpos : 0 < entries.length := by simp [hentries]
    rw [if_pos (by rw [hh.count]; omega)] at h
    rw [Kernel.run_bind_eq_ok] at h
    obtain ⟨_, s1, hhead, h⟩ := h
    obtain ⟨hiss1, hlog1, hinv1, -⟩ := writeHead_spec hinv (by omega) hhead
    rw [Kernel.run_bind_eq_ok] at h
    obtain ⟨_, s2, hinstall, h⟩ := h
    rw [installTrans_eq] at hinstall
    have hslot1 : ∀ t ∈ List.range s1.log.lh.n.toNat,
        InLog s1.log (s1.log.start + t + 1) := by
      intro t ht
      rw [hlog1, hh.count] at ht
      simp only [Int.toNat_natCast, List.mem_range] at ht
      rw [hlog1]
      exact ⟨by omega, by omega⟩
    have hhome1 : ∀ t ∈ List.range s1.log.lh.n.toNat, ¬InLog s1.log (s1.log.lh.sector t) := by
      intro t ht
      rw [hlog1, hh.count] at ht
      simp only [Int.toNat_natCast, List.mem_range] at ht
      have hget := List.getElem?_eq_getElem ht
      rw [hlog1, hh.sector t _ hget]
      exact hhome _ (List.getElem_mem ht)
    obtain ⟨hiss2, hlog2, hinv2, -⟩ := forEach_installBlock_spec hinv1 hslot1 hhome1 hinstall
    simp only [clearLog, Kernel.run_modify_bind] at h
    rw [Kernel.run_bind_eq_ok] at h
    obtain ⟨_, s3, hhead0, h⟩ := h
    have hinv2' : LogInv (s2.setLog { s2.log with lh := { s2.log.lh with n := 0 } }) :=
      hinv2.setLog rfl rfl rfl
    obtain ⟨hiss3, hlog3, hinv3, -⟩ := writeHead_spec hinv2'
      (by change 0 < s2.log.size; rw [hlog2, hlog1]; omega) hhead0
    simp only [Kernel.run_modify, Except.ok.injEq, Prod.mk.injEq, true_and] at h
    -- installing copies exactly the entries home
    have hwrites : (List.range s1.log.lh.n.toNat).map s1.installWrite =
        entries.map (homeWrite s.log.dev) := by
      rw [hlog1, hh.count, Int.toNat_natCast]
      apply List.ext_getElem
      · simp
      · intro t ht _
        have ht' : t < entries.length := by simpa using ht
        have hget := List.getElem?_eq_getElem ht'
        simp only [List.getElem_map, List.getElem_range, Store.installWrite, homeWrite, hlog1,
          hh.sector t _ hget, hiss1.1, SectorWrite.mk.injEq, true_and]
        rw [Disk.writes_cons, Disk.writes_nil, Disk.write_of_ne _ (by simp; omega),
          hh.data t _ hget]
    rw [hwrites] at hiss2
    have hlogEq : s2.log = s.log := hlog2.trans hlog1
    refine ⟨⟨?_, ?_, ?_⟩, ?_, Or.inr ⟨by simp [hentries],
      s.log.lh.store (s.disk s.log.dev s.log.start),
      LogHeader.store { s.log.lh with n := 0 } (s2.disk s.log.dev s.log.start),
      ?_, ⟨?_, ?_⟩, ?_⟩⟩
    · rw [← h]
      exact hinv3.setLog rfl rfl rfl
    · rw [← h]
      simp [Store.setLog, hlog3]
    · rw [← h]
      simp only [Store.setLog, hlog3, hlogEq]
      omega
    · rw [← h]
      simp [Store.setLog, hlog3, hlogEq]
    · rw [← h]
      have hall := hiss1.trans (hiss2.trans (show Issues s2 s3 _ from hiss3))
      change Issues s s3 _
      simpa [Store.setLog, hlogEq] using hall
    · exact headerN_store hh.count hsmall _
    · intro i e' hi
      have hlt : i < entries.length := (List.getElem?_eq_some_iff.mp hi).1
      rw [headerSector_store hh.count hlt (by rw [hh.sector i e' hi]; exact e'.bound),
        hh.sector i e' hi]
    · simpa using @headerN_store { s.log.lh with n := 0 } 0 rfl (by omega) _

theorem transaction_spec {s s' : Store} {ws : List BlockWrite} (hrest : AtRest s)
    (hhome : ∀ w ∈ ws, ¬InLog s.log w.sector) (h : (transaction ws).run s = .ok ((), s')) :
    ∃ trace, Issues s s' trace ∧ TransTrace s.log s.disk ws trace ∧ AtRest s' ∧
      s'.log.start = s.log.start ∧ s'.log.size = s.log.size ∧ s'.log.dev = s.log.dev := by
  rw [transaction, Kernel.run_bind_eq_ok] at h
  obtain ⟨_, s1, hbegin, h⟩ := h
  simp only [beginTrans, Kernel.run_get_bind] at hbegin
  cases hbusy : s.log.busy with
  | true => simp [hbusy] at hbegin
  | false =>
    rw [if_neg (by simp [hbusy])] at hbegin
    simp only [Kernel.run_modify, Except.ok.injEq, Prod.mk.injEq, true_and] at hbegin
    rw [Kernel.run_bind_eq_ok] at h
    obtain ⟨_, s2, hwrites, hcommit⟩ := h
    have hinv1 : LogInv s1 := hbegin ▸ hrest.inv.setLog rfl rfl rfl
    have hlog1 : s1.log.start = s.log.start ∧ s1.log.size = s.log.size ∧
        s1.log.dev = s.log.dev ∧ s1.log.lh.n = 0 := by
      rw [← hbegin]
      exact ⟨rfl, rfl, rfl, hrest.empty⟩
    have hiss1 : Issues s s1 [] := hbegin ▸ Issues.refl s
    have hh1 : Holds s1 [] := ⟨by simpa using hlog1.2.2.2, by simp, by simp⟩
    have hsize := hrest.size
    obtain ⟨slots, hiss2, hcount, harea, hh2, hlen, hroom, hinv2, hlog2⟩ :=
      forEach_perform_spec hinv1 hh1
        (fun w hw => by
          simp only [InLog, hlog1.1, hlog1.2.1]
          exact hhome w hw)
        (by simp [logSize]) (by simp [hlog1.2.1, hsize]) hwrites
    have hlog2' : s2.log.start = s.log.start ∧ s2.log.size = s.log.size ∧
        s2.log.dev = s.log.dev := by
      rw [hlog2]
      exact ⟨hlog1.1, hlog1.2.1, hlog1.2.2.1⟩
    have hhome2 : ∀ e ∈ ws.foldl logPut [], ¬InLog s2.log e.sector := by
      intro e he
      simp only [InLog, hlog2'.1, hlog2'.2.1]
      rcases mem_foldl_logPut he with hmem | hmem
      · exact hhome e hmem
      · simp at hmem
    obtain ⟨hrest', hlog', hcases⟩ := commitTrans_spec hinv2 hh2 hlen
      (by rw [hlog2'.2.1, ← hlog1.2.1]; exact hroom) hhome2 hcommit
    have hlogFinal : s'.log.start = s.log.start ∧ s'.log.size = s.log.size ∧
        s'.log.dev = s.log.dev := by
      rw [hlog']
      exact hlog2'
    rw [hlog1.1, hlog1.2.1] at harea
    have hiss12 := hiss1.trans hiss2
    rw [List.nil_append] at hiss12
    rcases hcases with ⟨hnil, hiss3⟩ | ⟨hne, hb, hb0, hiss3, hcommits, hzero⟩
    · have hws : ws = [] := (foldl_logPut_eq_nil.mp hnil).1
      refine ⟨slots ++ [], hiss12.trans hiss3, ⟨slots, [], rfl, hcount, harea,
        Or.inl ⟨hws, rfl⟩⟩, hrest', hlogFinal⟩
    · have hws : ws ≠ [] := fun heq => hne (foldl_logPut_eq_nil.mpr ⟨heq, rfl⟩)
      rw [hlog2'.1, hlog2'.2.2] at hiss3
      refine ⟨_, hiss12.trans hiss3, ⟨slots, _, rfl, hcount, harea,
        Or.inr ⟨hws, hb, hb0, rfl, hcommits, hzero, hlog1.2.1 ▸ hroom, ?_⟩⟩, hrest', hlogFinal⟩
      intro i e hi
      have hdata := hh2.data i e hi
      rw [hlog2'.1, hlog2'.2.2, hiss12.1] at hdata
      exact hdata

end Xv6
