import Xv6.Proof.DeallocRange

/-!
# Freeing an address space

`freevm` gives back the frames of the user pages, the tables and the directory. It can be called on
any directory whose pages are its own, and writes nothing but these pages.
-/

namespace Xv6

section Freevm

variable {s t : Machine} {d : Nat}

theorem run_freeTables_each (is : List Nat) : ∀ {t : Machine},
    (∀ i ∈ is, (t.word d i).present = true →
      t.tableAt d i ≠ d ∧ t.kend ≤ t.tableAt d i ∧ t.tableAt d i * pgSize < physTop) →
    ∃ t', (freeTables d is).run t = .ok ((), t') ∧ t'.kend = t.kend ∧ t'.proc = t.proc ∧
      (∀ g, (∀ i ∈ is, (t.word d i).present = true → g ≠ t.tableAt d i) → t'.word g = t.word g) ∧
      t'.free =
        ((is.filter fun i => (t.word d i).present).map (t.tableAt d)).reverse ++ t.free := by
  induction is with
  | nil =>
    intro t _
    exact ⟨t, rfl, rfl, rfl, fun _ _ => rfl, rfl⟩
  | cons i is ih =>
    intro t htab
    have hrest := fun j hj => htab j (List.mem_cons_of_mem i hj)
    rw [freeTables, Kernel.run_get_bind]
    cases hpres : (t.word d i).present with
    | false =>
      obtain ⟨t', hrun, hkend, hproc, hword, hfree⟩ := ih hrest
      refine ⟨t', hrun, hkend, hproc, fun g hg => ?_, ?_⟩
      · exact hword g fun j hj => hg j (List.mem_cons_of_mem i hj)
      · rw [List.filter_cons_of_neg (by rw [hpres]; exact Bool.false_ne_true)]
        exact hfree
    | true =>
      obtain ⟨hne, hlow, hhigh⟩ := htab i List.mem_cons_self hpres
      generalize ht1 : ({ t.setPage (t.tableAt d i) (freedPage t.free) with
        free := t.tableAt d i :: t.free } : Machine) = t1
      have hdir : t1.word d = t.word d := by
        rw [← ht1]
        exact Machine.setPage_word_of_ne t _ hne.symm
      have hkend1 : t1.kend = t.kend := by
        rw [← ht1]
        rfl
      have htable : t1.tableAt d = t.tableAt d := by
        funext j
        rw [Machine.tableAt, hdir]
        rfl
      have hproc1 : t1.proc = t.proc := by
        rw [← ht1]
        rfl
      obtain ⟨t', hrun, hkend, hproc, hword, hfree⟩ := @ih t1 (by
        rw [hdir, hkend1, htable]
        exact hrest)
      refine ⟨t', ?_, hkend.trans hkend1, hproc.trans hproc1, fun g hg => ?_, ?_⟩
      · rw [if_pos rfl]
        refine (Kernel.run_bind_of_ok (run_kfree hlow hhigh)).trans ?_
        change (freeTables d is).run { t.setPage (t.tableAt d i) (freedPage t.free) with
          free := t.tableAt d i :: t.free } = _
        rw [ht1]
        exact hrun
      · rw [hdir, htable] at hword
        rw [hword g fun j hj => hg j (List.mem_cons_of_mem i hj), ← ht1]
        exact Machine.setPage_word_of_ne t _ (hg i List.mem_cons_self hpres)
      · have hfilter : (i :: is).filter (fun i => (t.word d i).present) =
            i :: is.filter fun i => (t.word d i).present := List.filter_cons_of_pos hpres
        rw [hfree, hdir, htable, hfilter, List.map_cons, List.reverse_cons, List.append_assoc,
          ← ht1]
        rfl

def Machine.Owns (s : Machine) (d g : Nat) : Prop :=
  g = d ∨ (∃ i < 1024, (s.word d i).present = true ∧ s.tableAt d i = g) ∨
    ∃ a < 2 ^ 19, s.MapsAt d a ∧ s.frameAt d a = g

structure Disposable (s : Machine) (d : Nat) : Prop where
  sound : DirSound s d
  dir : s.kend ≤ d ∧ d * pgSize < physTop
  table : ∀ i < 1024, (s.word d i).present = true →
    s.kend ≤ s.tableAt d i ∧ s.tableAt d i * pgSize < physTop

theorem Disposable.run_freevm (h : Disposable t d) : ∃ (t' : Machine)
    (pages : List Nat),
    (freevm d).run t = .ok ((), t') ∧ t'.proc = t.proc ∧ t'.kend = t.kend ∧
      (∀ g, ¬t.Owns d g → t'.word g = t.word g) ∧ pages.Nodup ∧
      (∀ b, b ∈ pages ↔ b < 2 ^ 19 ∧ t.MapsAt d b) ∧
      t'.free = d :: ((((List.range npdEntries).filter fun i => (t.word d i).present).map
        (t.tableAt d)).reverse ++ pages.map (t.frameAt d)) ++ t.free := by
  obtain ⟨hlow, hhigh⟩ := h.dir
  have hkend := h.sound.kend
  obtain ⟨t1, hdealloc, hC⟩ := run_deallocuvm_visited h.sound (show 0 < kernBase by decide)
    (Nat.le_refl _)
  obtain ⟨pages, hpnodup, hpages, hfree1⟩ := hC.free
  have hvisited : ∀ b, Visited t d (npages kernBase) (pgRoundUp 0 / pgSize) b ↔
      b < 2 ^ 19 ∧ t.MapsAt d b := by
    intro b
    have hfirst : pgRoundUp 0 / pgSize = 0 := by decide
    have hlast : npages kernBase = 2 ^ 19 := by decide
    rw [hfirst, hlast]
    constructor
    · rintro ⟨-, hb, hmaps, -⟩
      exact ⟨hb, hmaps⟩
    · rintro ⟨hb, hmaps⟩
      exact ⟨Nat.zero_le _, hb, hmaps, .inl (Nat.zero_le _)⟩
  have hdir : t1.word d = t.word d := hC.dir
  have htable : t1.tableAt d = t.tableAt d := by
    funext j
    rw [Machine.tableAt, hdir]
    rfl
  have hrange : ∀ i ∈ List.range npdEntries, (t1.word d i).present = true →
      t1.tableAt d i ≠ d ∧ t1.kend ≤ t1.tableAt d i ∧ t1.tableAt d i * pgSize < physTop := by
    intro i hi hp
    rw [hdir] at hp
    rw [htable, hC.kend]
    have hi' : i < 1024 := List.mem_range.mp hi
    exact ⟨h.sound.table i hi' hp, h.table i hi' hp⟩
  obtain ⟨t2, htables, hkend2, hproc2, hword2, hfree2⟩ :=
    run_freeTables_each (List.range npdEntries) hrange
  rw [hdir, htable] at hfree2 hword2
  refine ⟨{ t2.setPage d (freedPage t2.free) with free := d :: t2.free }, pages, ?_,
    hproc2.trans hC.proc, hkend2.trans hC.kend, fun g hg => ?_, hpnodup,
    fun b => (hpages b).trans (hvisited b), ?_⟩
  · rw [freevm, if_neg (by omega), Kernel.run_bind_of_ok hdealloc, Kernel.run_bind_of_ok htables,
      run_kfree (by rw [hkend2, hC.kend]; exact hlow) hhigh]
  · refine (Machine.setPage_word_of_ne t2 _ fun heq => hg (.inl heq)).trans ?_
    rw [hword2 g fun i hi hp heq => hg (.inr (.inl ⟨i, List.mem_range.mp hi, hp, heq.symm⟩))]
    refine hC.word g fun b hb => ?_
    obtain ⟨hb, hmaps⟩ := (hvisited b).mp hb
    exact ⟨fun heq => hg (.inr (.inr ⟨b, hb, hmaps, heq.symm⟩)),
      fun heq => hg (.inr (.inl ⟨b / 1024, by omega, hmaps.1, heq.symm⟩))⟩
  · change d :: t2.free = _
    rw [hfree2, hfree1, List.cons_append, List.append_assoc]

structure SameTables (s t : Machine) (d : Nat) : Prop where
  dir : t.word d = s.word d
  table : ∀ i < 1024, (s.word d i).present = true →
    t.word (s.tableAt d i) = s.word (s.tableAt d i)

theorem SameTables.tableAt (h : SameTables s t d) : t.tableAt d = s.tableAt d := by
  funext i
  rw [Machine.tableAt, h.dir]
  rfl

theorem SameTables.entryAt (h : SameTables s t d) {a : Nat} (ha : a < 2 ^ 20)
    (hp : (s.word d (a / 1024)).present = true) : t.entryAt d a = s.entryAt d a := by
  rw [Machine.entryAt, h.tableAt, h.table _ (by omega) hp]
  rfl

theorem SameTables.frameAt (h : SameTables s t d) {a : Nat} (ha : a < 2 ^ 20)
    (hp : (s.word d (a / 1024)).present = true) : t.frameAt d a = s.frameAt d a := by
  rw [Machine.frameAt, h.entryAt ha hp]
  rfl

theorem SameTables.mapsAt_iff (h : SameTables s t d) {a : Nat} (ha : a < 2 ^ 20) :
    t.MapsAt d a ↔ s.MapsAt d a := by
  rw [Machine.MapsAt, Machine.MapsAt, h.dir]
  exact and_congr_right fun hp => by rw [h.entryAt ha hp]

theorem SameTables.owns_iff (h : SameTables s t d) (g : Nat) : t.Owns d g ↔ s.Owns d g := by
  rw [Machine.Owns, Machine.Owns, h.dir, h.tableAt]
  refine or_congr_right (or_congr_right (exists_congr fun a => and_congr_right fun ha => ?_))
  rw [h.mapsAt_iff (by omega)]
  exact and_congr_right fun hm => by rw [h.frameAt (by omega) hm.1]

theorem Disposable.of_frames (hd : Disposable s d) (hdir : t.word d = s.word d)
    (hkend : t.kend = s.kend) (hfree : ∀ g ∈ t.free, g ∈ s.free)
    (hmaps : ∀ a < 2 ^ 19, t.MapsAt d a → s.MapsAt d a ∧ t.frameAt d a = s.frameAt d a) :
    Disposable t d := by
  have hD := hd.sound
  have htab : t.tableAt d = s.tableAt d := by
    funext i
    rw [Machine.tableAt, hdir]
    rfl
  refine ⟨⟨?_, ?_, ?_, ?_, ?_, ?_⟩, ?_, ?_⟩
  · rw [hkend]
    exact hD.kend
  · rw [hdir, htab]
    exact hD.table
  · rw [hdir, htab]
    exact hD.kernel
  · intro a ha hm
    obtain ⟨hm', hframe⟩ := hmaps a ha hm
    rw [hframe, hdir, htab, hkend]
    exact hD.frame a ha hm'
  · intro a b ha hb hma hmb heq
    obtain ⟨hma', hfa⟩ := hmaps a ha hma
    obtain ⟨hmb', hfb⟩ := hmaps b hb hmb
    rw [hfa, hfb] at heq
    exact hD.distinct a b ha hb hma' hmb' heq
  · intro a ha hm
    obtain ⟨hm', hframe⟩ := hmaps a ha hm
    rw [hframe]
    exact fun hin => hD.allocated a ha hm' (hfree _ hin)
  · rw [hkend]
    exact hd.dir
  · rw [hkend, hdir, htab]
    exact hd.table

theorem SameTables.disposable (h : SameTables s t d) (hkend : t.kend = s.kend)
    (hfree : ∀ g ∈ t.free, g ∈ s.free) (hd : Disposable s d) : Disposable t d := by
  refine hd.of_frames h.dir hkend hfree fun a ha hm => ?_
  have hm' := (h.mapsAt_iff (by omega)).mp hm
  exact ⟨hm', h.frameAt (by omega) hm'.1⟩

end Freevm

end Xv6
