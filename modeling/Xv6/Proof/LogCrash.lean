import Xv6.Proof.LogTransaction

/-!
# Crashes and recovery

A crash leaves the disk with some number of the issued sector writes. Every such disk is
`Recoverable`: its header commits a list of entries whose log slots are intact, and installing them
gives the home sectors of a whole number of transactions. Recovery installs them; a crash during
recovery leaves a disk recoverable to the same home sectors.
-/

namespace Xv6

def applyBlocks (home : Nat → Block) (ws : List BlockWrite) : Nat → Block :=
  ws.foldl (fun h w => Function.update h w.sector w.data) home

@[simp]
theorem applyBlocks_nil (home : Nat → Block) : applyBlocks home [] = home := rfl

@[simp]
theorem applyBlocks_cons (home : Nat → Block) (w : BlockWrite) (ws : List BlockWrite) :
    applyBlocks home (w :: ws) = applyBlocks (Function.update home w.sector w.data) ws := rfl

theorem applyBlocks_append (home : Nat → Block) (ws vs : List BlockWrite) :
    applyBlocks home (ws ++ vs) = applyBlocks (applyBlocks home ws) vs := by
  simp [applyBlocks]

theorem applyBlocks_update {ws : List BlockWrite} {sector : Nat} (home : Nat → Block)
    (data : Block) (h : sector ∉ ws.map BlockWrite.sector) :
    applyBlocks (Function.update home sector data) ws =
      Function.update (applyBlocks home ws) sector data := by
  induction ws generalizing home with
  | nil => rfl
  | cons w ws ih =>
    simp only [List.map_cons, List.mem_cons, not_or] at h
    rw [applyBlocks_cons, applyBlocks_cons, Function.update_comm h.1, ih _ h.2]

theorem applyBlocks_congr {ws : List BlockWrite} {h h' : Nat → Block} {sector : Nat}
    (hsame : sector ∉ ws.map BlockWrite.sector → h sector = h' sector) :
    applyBlocks h ws sector = applyBlocks h' ws sector := by
  induction ws generalizing h h' with
  | nil => exact hsame (by simp)
  | cons w ws ih =>
    rw [applyBlocks_cons, applyBlocks_cons]
    apply ih
    intro hws
    by_cases hw : sector = w.sector
    · simp [hw]
    · rw [Function.update_of_ne hw, Function.update_of_ne hw]
      exact hsame (by simp [hw, hws])

theorem nodup_logPut {entries : List BlockWrite} (w : BlockWrite)
    (h : (entries.map BlockWrite.sector).Nodup) :
    ((logPut entries w).map BlockWrite.sector).Nodup := by
  induction entries with
  | nil => simp [logPut]
  | cons e rest ih =>
    simp only [List.map_cons, List.nodup_cons] at h
    by_cases he : e.sector = w.sector
    · simp only [logPut, he, if_true, List.map_cons, List.nodup_cons]
      exact ⟨he ▸ h.1, h.2⟩
    · simp only [logPut, he, if_false, List.map_cons, List.nodup_cons]
      refine ⟨?_, ih h.2⟩
      intro hmem
      obtain ⟨v, hv, hvs⟩ := List.mem_map.mp hmem
      rcases mem_logPut hv with rfl | hv
      · exact he hvs.symm
      · exact h.1 (List.mem_map.mpr ⟨v, hv, hvs⟩)

theorem applyBlocks_logPut {entries : List BlockWrite} (home : Nat → Block) (w : BlockWrite)
    (h : (entries.map BlockWrite.sector).Nodup) :
    applyBlocks home (logPut entries w) =
      Function.update (applyBlocks home entries) w.sector w.data := by
  induction entries generalizing home with
  | nil => rfl
  | cons e rest ih =>
    simp only [List.map_cons, List.nodup_cons] at h
    by_cases he : e.sector = w.sector
    · simp only [logPut, he, if_true, applyBlocks_cons]
      rw [applyBlocks_update _ _ (he ▸ h.1), applyBlocks_update _ _ (he ▸ h.1),
        Function.update_idem]
    · simp only [logPut, he, if_false, applyBlocks_cons]
      exact ih _ h.2

theorem applyBlocks_foldl_logPut {ws entries : List BlockWrite} (home : Nat → Block)
    (h : (entries.map BlockWrite.sector).Nodup) :
    applyBlocks home (ws.foldl logPut entries) = applyBlocks (applyBlocks home entries) ws := by
  induction ws generalizing entries with
  | nil => rfl
  | cons w ws ih =>
    rw [List.foldl_cons, ih (nodup_logPut w h), applyBlocks_logPut home w h, applyBlocks_cons]

theorem writes_homeWrite (disk : Disk) (dev : Nat) (ws : List BlockWrite) (sector : Nat) :
    disk.writes (ws.map (homeWrite dev)) dev sector = applyBlocks (disk dev) ws sector := by
  induction ws generalizing disk with
  | nil => rfl
  | cons w ws ih =>
    have hstep : (disk.write (homeWrite dev w)) dev =
        Function.update (disk dev) w.sector w.data := by
      funext t
      by_cases ht : t = w.sector
      · subst ht
        simp [Disk.write, homeWrite]
      · rw [Disk.write_of_ne disk (by simpa [homeWrite] using ht), Function.update_of_ne ht]
    rw [List.map_cons, Disk.writes_cons, ih, hstep, applyBlocks_cons]

structure Committed (log : Log) (disk : Disk) (home : Nat → Block)
    (entries : List BlockWrite) : Prop where
  header : Commits (disk log.dev log.start) entries
  slot : ∀ i e, entries[i]? = some e → disk log.dev (log.start + i + 1) = e.data
  outside : ∀ e ∈ entries, ¬InLog log e.sector
  room : entries.length < log.size
  rest : ∀ sector, ¬InLog log sector → sector ∉ entries.map BlockWrite.sector →
    disk log.dev sector = home sector

def Recoverable (log : Log) (disk : Disk) (home : Nat → Block) : Prop :=
  ∃ base entries, Committed log disk base entries ∧ applyBlocks base entries = home

def Clean (log : Log) (disk : Disk) (home : Nat → Block) : Prop := Committed log disk home []

theorem clean_iff {log : Log} {disk : Disk} {home : Nat → Block} :
    Clean log disk home ↔ headerN (disk log.dev log.start) = 0 ∧ 0 < log.size ∧
      ∀ sector, ¬InLog log sector → disk log.dev sector = home sector := by
  constructor
  · intro h
    exact ⟨by simpa using h.header.count, h.room, fun sector hs => h.rest sector hs (by simp)⟩
  · rintro ⟨hn, hsize, hhome⟩
    exact ⟨⟨by simpa using hn, by simp⟩, by simp, by simp, hsize,
      fun sector hs _ => hhome sector hs⟩

theorem Clean.recoverable {log : Log} {disk : Disk} {home : Nat → Block}
    (h : Clean log disk home) : Recoverable log disk home := ⟨home, [], h, rfl⟩

theorem Committed.installed {log : Log} {disk : Disk} {home : Nat → Block}
    {entries ws : List BlockWrite} (h : Committed log disk home entries)
    (hws : ∀ w ∈ ws, w ∈ entries) :
    Committed log (disk.writes (ws.map (homeWrite log.dev))) home entries := by
  have hkeep : ∀ sector, (∀ e ∈ entries, e.sector ≠ sector) →
      disk.writes (ws.map (homeWrite log.dev)) log.dev sector = disk log.dev sector := by
    intro sector hs
    apply Disk.writes_of_forall_ne
    intro v hv
    obtain ⟨w, hw, rfl⟩ := List.mem_map.mp hv
    exact fun heq => hs w (hws w hw) heq.symm
  have hlog : ∀ sector, InLog log sector →
      disk.writes (ws.map (homeWrite log.dev)) log.dev sector = disk log.dev sector :=
    fun sector hs => hkeep sector fun e he heq => h.outside e he (heq ▸ hs)
  have hroom := h.room
  refine ⟨?_, ?_, h.outside, h.room, ?_⟩
  · rw [hlog _ ⟨le_rfl, by omega⟩]
    exact h.header
  · intro i e hi
    have hlt : i < entries.length := (List.getElem?_eq_some_iff.mp hi).1
    rw [hlog _ ⟨by omega, by omega⟩]
    exact h.slot i e hi
  · intro sector hs hnot
    rw [hkeep sector fun e he heq => hnot (List.mem_map.mpr ⟨e, he, heq⟩)]
    exact h.rest sector hs hnot

theorem Committed.erased {log : Log} {disk : Disk} {home : Nat → Block}
    {entries : List BlockWrite} {hb0 : Block} (h : Committed log disk home entries)
    (hzero : headerN hb0 = 0) :
    Clean log (disk.writes (entries.map (homeWrite log.dev) ++ [⟨log.dev, log.start, hb0⟩]))
      (applyBlocks home entries) := by
  have hroom := h.room
  rw [clean_iff, Disk.writes_append, Disk.writes_cons, Disk.writes_nil]
  refine ⟨?_, by omega, ?_⟩
  · simpa [Disk.write] using hzero
  · intro sector hs
    have hne : sector ≠ log.start := by
      rintro rfl
      exact hs ⟨le_rfl, by omega⟩
    rw [Disk.write_of_ne _ hne, writes_homeWrite]
    exact applyBlocks_congr (h.rest sector hs)

theorem Committed.recoverable_take {log : Log} {disk : Disk} {home : Nat → Block}
    {entries : List BlockWrite} {hb0 : Block} (h : Committed log disk home entries)
    (hzero : headerN hb0 = 0) (k : Nat) :
    Recoverable log (disk.writes
      ((entries.map (homeWrite log.dev) ++ [(⟨log.dev, log.start, hb0⟩ : SectorWrite)]).take k))
      (applyBlocks home entries) := by
  by_cases hk : k ≤ entries.length
  · rw [List.take_append_of_le_length (by simpa using hk), ← List.map_take]
    exact ⟨home, entries, h.installed fun w hw => List.mem_of_mem_take hw, rfl⟩
  · rw [List.take_of_length_le (by simp; omega)]
    exact (h.erased hzero).recoverable

def CommitHeader (log : Log) (w : SectorWrite) : Prop :=
  w.dev = log.dev ∧ w.sector = log.start ∧ 0 < headerN w.data

theorem Clean.appended {log : Log} {disk : Disk} {home : Nat → Block} {slots : List SectorWrite}
    (h : Clean log disk home)
    (harea : ∀ v ∈ slots, log.start < v.sector ∧ v.sector < log.start + log.size) :
    Clean log (disk.writes slots) home := by
  rw [clean_iff] at h ⊢
  refine ⟨?_, h.2.1, ?_⟩
  · rw [Disk.writes_of_forall_ne fun v hv heq => by have := harea v hv; omega]
    exact h.1
  · intro sector hs
    rw [Disk.writes_of_forall_ne fun v hv heq => by
      have := harea v hv
      exact hs ⟨by omega, by omega⟩]
    exact h.2.2 sector hs

theorem Clean.committed {log : Log} {disk : Disk} {home : Nat → Block}
    {entries : List BlockWrite} {hb : Block} (h : Clean log disk home)
    (hcommits : Commits hb entries) (hroom : entries.length < log.size)
    (hslot : ∀ i e, entries[i]? = some e → disk log.dev (log.start + i + 1) = e.data)
    (hout : ∀ e ∈ entries, ¬InLog log e.sector) :
    Committed log (disk.write ⟨log.dev, log.start, hb⟩) home entries := by
  rw [clean_iff] at h
  refine ⟨?_, ?_, hout, hroom, ?_⟩
  · simpa [Disk.write] using hcommits
  · intro i e hi
    rw [Disk.write_of_ne _ (by simp; omega)]
    exact hslot i e hi
  · intro sector hs _
    have hne : sector ≠ log.start := by
      rintro rfl
      exact hs ⟨le_rfl, by omega⟩
    rw [Disk.write_of_ne _ hne]
    exact h.2.2 sector hs

theorem Commits.header_pos {ws : List BlockWrite} {hb : Block}
    (h : Commits hb (ws.foldl logPut [])) (hne : ws ≠ []) : 0 < headerN hb := by
  have hpos : ws.foldl logPut [] ≠ [] := fun heq => hne (foldl_logPut_eq_nil.mp heq).1
  rw [h.count]
  exact_mod_cast List.length_pos_iff.mpr hpos

theorem home_of_mem_foldl_logPut {log : Log} {ws : List BlockWrite}
    (hhome : ∀ w ∈ ws, ¬InLog log w.sector) : ∀ e ∈ ws.foldl logPut [], ¬InLog log e.sector :=
  fun e he => hhome e ((mem_foldl_logPut he).resolve_right (by simp))

theorem TransTrace.cut {log : Log} {disk : Disk} {home : Nat → Block} {ws : List BlockWrite}
    {trace : List SectorWrite} (ht : TransTrace log disk ws trace) (hclean : Clean log disk home)
    (hhome : ∀ w ∈ ws, ¬InLog log w.sector) (k : Nat) :
    (¬(∃ w ∈ trace.take k, CommitHeader log w) ∧
        Recoverable log (disk.writes (trace.take k)) home) ∨
      ((∃ w ∈ trace.take k, CommitHeader log w) ∧
        Recoverable log (disk.writes (trace.take k)) (applyBlocks home ws)) := by
  obtain ⟨slots, tail, rfl, hcount, harea, hcases⟩ := ht.split
  have hslots : ∀ w ∈ slots, ¬CommitHeader log w := by
    rintro w hw ⟨-, hsector, -⟩
    have := harea w hw
    omega
  by_cases hk : k ≤ slots.length
  · rw [List.take_append_of_le_length hk]
    refine Or.inl ⟨?_, ?_⟩
    · rintro ⟨w, hw, hcommit⟩
      exact hslots w (List.mem_of_mem_take hw) hcommit
    · exact (hclean.appended fun v hv => harea v (List.mem_of_mem_take hv)).recoverable
  · rw [List.take_append, List.take_of_length_le (by omega)]
    rcases hcases with ⟨-, rfl⟩ | ⟨hne, hb, hb0, rfl, hcommits, hzero, hroom, hdata⟩
    · rw [List.take_nil, List.append_nil]
      refine Or.inl ⟨?_, (hclean.appended harea).recoverable⟩
      rintro ⟨w, hw, hcommit⟩
      exact hslots w hw hcommit
    · obtain ⟨m, hm⟩ : ∃ m, k - slots.length = m + 1 := ⟨k - slots.length - 1, by omega⟩
      rw [hm, List.take_succ_cons]
      have hcommitted := (hclean.appended harea).committed hcommits hroom hdata
        (home_of_mem_foldl_logPut hhome)
      have hrec := hcommitted.recoverable_take hzero m
      rw [applyBlocks_foldl_logPut home (by simp), applyBlocks_nil] at hrec
      rw [Disk.writes_append, Disk.writes_cons]
      exact Or.inr ⟨⟨⟨log.dev, log.start, hb⟩, by simp, rfl, rfl, hcommits.header_pos hne⟩, hrec⟩

theorem TransTrace.commitHeader_mem {log : Log} {disk : Disk} {ws : List BlockWrite}
    {trace : List SectorWrite} (ht : TransTrace log disk ws trace) (hne : ws ≠ []) :
    ∃ w ∈ trace, CommitHeader log w := by
  obtain ⟨slots, tail, rfl, -, -, hcases⟩ := ht.split
  rcases hcases with ⟨hnil, -⟩ | ⟨-, hb, hb0, rfl, hcommits, -⟩
  · exact absurd hnil hne
  · exact ⟨⟨log.dev, log.start, hb⟩, by simp, rfl, rfl, hcommits.header_pos hne⟩

theorem TransTrace.whole {log : Log} {disk : Disk} {home : Nat → Block} {ws : List BlockWrite}
    {trace : List SectorWrite} (ht : TransTrace log disk ws trace) (hclean : Clean log disk home)
    (hhome : ∀ w ∈ ws, ¬InLog log w.sector) :
    Clean log (disk.writes trace) (applyBlocks home ws) := by
  obtain ⟨slots, tail, rfl, -, harea, hcases⟩ := ht.split
  rw [Disk.writes_append]
  rcases hcases with ⟨rfl, rfl⟩ | ⟨-, hb, hb0, rfl, hcommits, hzero, hroom, hdata⟩
  · exact hclean.appended harea
  · have hcommitted := (hclean.appended harea).committed hcommits hroom hdata
      (home_of_mem_foldl_logPut hhome)
    have herased := hcommitted.erased hzero
    rw [applyBlocks_foldl_logPut home (by simp), applyBlocks_nil] at herased
    exact herased

end Xv6
