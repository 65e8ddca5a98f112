import Xv6.Proof.SetupKvm

/-!
# What deallocuvm clears

The loop of `deallocuvm` goes through the pages of a range one by one, but where a table is missing
it skips 1024 pages from where it stands, into the middle of the next table. So it comes to a page
when the index of the page in its table is not below the index it started with, or when a table on
the way was there. Exactly these pages are cleared, and their frames are freed.
-/

namespace Xv6

namespace Machine

def tableAt (s : Machine) (d i : Nat) : Nat := pteAddr (s.word d i)

def entryAt (s : Machine) (d a : Nat) : Word := s.word (s.tableAt d (a / 1024)) (a % 1024)

def frameAt (s : Machine) (d a : Nat) : Nat := pteAddr (s.entryAt d a)

def MapsAt (s : Machine) (d a : Nat) : Prop :=
  (s.word d (a / 1024)).present = true ∧ (s.entryAt d a).present = true

end Machine

structure DirSound (s : Machine) (d : Nat) : Prop where
  kend : 0 < s.kend
  table : ∀ i < 1024, (s.word d i).present = true → s.tableAt d i ≠ d
  kernel : ∀ i j, i < 512 → 512 ≤ j → j < 1024 → (s.word d i).present = true →
    (s.word d j).present = true → s.tableAt d i ≠ s.tableAt d j
  frame : ∀ a < 2 ^ 19, s.MapsAt d a → s.frameAt d a ≠ d ∧
    (∀ i < 1024, (s.word d i).present = true → s.frameAt d a ≠ s.tableAt d i) ∧
    s.kend ≤ s.frameAt d a ∧ s.frameAt d a * pgSize < physTop
  distinct : ∀ a b, a < 2 ^ 19 → b < 2 ^ 19 → s.MapsAt d a → s.MapsAt d b →
    s.frameAt d a = s.frameAt d b → a = b
  allocated : ∀ a < 2 ^ 19, s.MapsAt d a → s.frameAt d a ∉ s.free

structure Cleared (s t : Machine) (d : Nat) (S : Nat → Prop) : Prop where
  proc : t.proc = s.proc
  kend : t.kend = s.kend
  kdata : t.kdata = s.kdata
  dir : t.word d = s.word d
  gone : ∀ b, S b → t.entryAt d b = 0
  keep : ∀ b < 2 ^ 20, (s.word d (b / 1024)).present = true → ¬S b →
    t.entryAt d b = s.entryAt d b
  word : ∀ g, (∀ b, S b → g ≠ s.frameAt d b ∧ g ≠ s.tableAt d (b / 1024)) → t.word g = s.word g
  free : ∃ pages : List Nat, pages.Nodup ∧ (∀ b, b ∈ pages ↔ S b) ∧
    t.free = pages.map (s.frameAt d) ++ s.free

section Clear

variable {s t : Machine} {d : Nat} {S : Nat → Prop}

theorem Cleared.refl (s : Machine) (d : Nat) : Cleared s s d fun _ => False where
  proc := rfl
  kend := rfl
  kdata := rfl
  dir := rfl
  gone _ h := h.elim
  keep _ _ _ _ := rfl
  word _ _ := rfl
  free := ⟨[], List.nodup_nil, fun b => by simp, rfl⟩

theorem Cleared.congr (h : Cleared s t d S) {S' : Nat → Prop} (hiff : ∀ b, S b ↔ S' b) :
    Cleared s t d S' := by
  have hS : S = S' := funext fun b => propext (hiff b)
  exact hS ▸ h

theorem Cleared.tableAt (h : Cleared s t d S) (i : Nat) : t.tableAt d i = s.tableAt d i := by
  rw [Machine.tableAt, h.dir]
  rfl

theorem Cleared.mapsAt_iff (h : Cleared s t d S) {b : Nat} (hb : b < 2 ^ 20) (hS : ¬S b) :
    t.MapsAt d b ↔ s.MapsAt d b := by
  rw [Machine.MapsAt, Machine.MapsAt, h.dir]
  constructor
  · rintro ⟨h1, h2⟩
    rw [h.keep b hb h1 hS] at h2
    exact ⟨h1, h2⟩
  · rintro ⟨h1, h2⟩
    rw [h.keep b hb h1 hS]
    exact ⟨h1, h2⟩

theorem Cleared.not_mapsAt (h : Cleared s t d S) {b : Nat} (hS : S b) : ¬t.MapsAt d b := by
  rintro ⟨-, hpres⟩
  rw [h.gone b hS] at hpres
  exact absurd hpres (by decide)

def Machine.withoutFrame (s : Machine) (d a : Nat) : Machine :=
  { s.setPage (s.frameAt d a) (freedPage s.free) with free := s.frameAt d a :: s.free }.setWord
    (s.tableAt d (a / 1024)) (a % 1024) 0

section One

variable {a : Nat}

theorem withoutFrame_word {g : Nat} (hframe : g ≠ s.frameAt d a)
    (htable : g ≠ s.tableAt d (a / 1024)) :
    (s.withoutFrame d a).word g = s.word g := by
  rw [Machine.withoutFrame, Machine.setWord_word_of_ne _ _ _ htable]
  exact Machine.setPage_word_of_ne s _ hframe

theorem DirSound.withoutFrame_dir (hD : DirSound s d) (ha : a < 2 ^ 19) (hmap : s.MapsAt d a) :
    (s.withoutFrame d a).word d = s.word d :=
  withoutFrame_word (hD.frame a ha hmap).1.symm (hD.table _ (by omega) hmap.1).symm

theorem DirSound.entry_apart (hD : DirSound s d) (ha : a < 2 ^ 19) (hmap : s.MapsAt d a) {b : Nat}
    (hb : b < 2 ^ 20) (hpres : (s.word d (b / 1024)).present = true) (hne : b ≠ a) :
    s.tableAt d (b / 1024) ≠ s.tableAt d (a / 1024) ∨ b % 1024 ≠ a % 1024 := by
  by_contra hsame
  rw [not_or, not_not, not_not] at hsame
  have hentry : s.entryAt d b = s.entryAt d a := by
    rw [Machine.entryAt, hsame.1, hsame.2]
    rfl
  by_cases hb19 : b < 2 ^ 19
  · refine hne (hD.distinct b a hb19 ha ⟨hpres, hentry ▸ hmap.2⟩ hmap ?_)
    rw [Machine.frameAt, hentry]
    rfl
  · exact hD.kernel (a / 1024) (b / 1024) (by omega) (by omega) (by omega) hmap.1 hpres
      hsame.1.symm

theorem DirSound.cleared_one (hD : DirSound s d) (ha : a < 2 ^ 19) (hmap : s.MapsAt d a) :
    Cleared s (s.withoutFrame d a) d (· = a) := by
  have hdir := hD.withoutFrame_dir ha hmap
  have htab : ∀ i, (s.withoutFrame d a).tableAt d i = s.tableAt d i := fun i => by
    rw [Machine.tableAt, hdir]
    rfl
  refine ⟨rfl, rfl, rfl, hdir, ?_, ?_, ?_, ?_⟩
  · rintro b rfl
    rw [Machine.entryAt, htab, Machine.withoutFrame, Machine.setWord_word_self]
  · intro b hb hpres hne
    have hword : (s.setPage (s.frameAt d a) (freedPage s.free)).word (s.tableAt d (b / 1024)) =
        s.word (s.tableAt d (b / 1024)) :=
      Machine.setPage_word_of_ne s _ ((hD.frame a ha hmap).2.1 _ (by omega) hpres).symm
    rw [Machine.entryAt, htab, Machine.withoutFrame]
    rcases hD.entry_apart ha hmap hb hpres hne with htable | hindex
    · rw [Machine.setWord_word_of_ne _ _ _ htable]
      exact congrFun hword _
    · rw [Machine.setWord_word_index _ _ _ _ hindex]
      exact congrFun hword _
  · intro g hg
    obtain ⟨h1, h2⟩ := hg a rfl
    exact withoutFrame_word h1 h2
  · exact ⟨[a], List.nodup_singleton a, fun b => List.mem_singleton, rfl⟩

end One

theorem Cleared.cons {s1 : Machine} {a : Nat} (h : Cleared s s1 d (· = a))
    (h' : Cleared s1 t d S) (hlt : a < 2 ^ 20) (hpres : (s.word d (a / 1024)).present = true)
    (ha : ¬S a)
    (hS : ∀ b, S b → b < 2 ^ 20 ∧ (s.word d (b / 1024)).present = true) :
    Cleared s t d fun b => b = a ∨ S b := by
  have hframe : ∀ b, S b → s1.frameAt d b = s.frameAt d b := by
    intro b hb
    rw [Machine.frameAt, h.keep b (hS b hb).1 (hS b hb).2 (fun hba => ha (hba ▸ hb))]
    rfl
  have htab := h.tableAt
  refine ⟨h'.proc.trans h.proc, h'.kend.trans h.kend, h'.kdata.trans h.kdata, h'.dir.trans h.dir,
    ?_, ?_, ?_, ?_⟩
  · rintro b (rfl | hb)
    · rw [h'.keep b hlt (by rw [h.dir]; exact hpres) ha]
      exact h.gone b rfl
    · exact h'.gone b hb
  · intro b hb hb' hnot
    rw [not_or] at hnot
    rw [h'.keep b hb (by rw [h.dir]; exact hb') hnot.2, h.keep b hb hb' hnot.1]
  · intro g hg
    rw [h'.word g fun b hb => ?_, h.word g fun b hb => hg b (.inl hb)]
    rw [hframe b hb, htab]
    exact hg b (.inr hb)
  · obtain ⟨pages, hnodup, hmem, hfree⟩ := h.free
    obtain ⟨pages', hnodup', hmem', hfree'⟩ := h'.free
    refine ⟨pages' ++ pages, ?_, ?_, ?_⟩
    · rw [List.nodup_append]
      refine ⟨hnodup', hnodup, ?_⟩
      rintro b hb _ hc rfl
      exact ha ((hmem b).mp hc ▸ (hmem' b).mp hb)
    · intro b
      rw [List.mem_append, hmem, hmem', or_comm]
    · rw [hfree', hfree, List.map_append, List.append_assoc]
      congr 1
      apply List.map_congr_left
      intro b hb
      exact hframe b ((hmem' b).mp hb)

theorem Cleared.dirSound (h : Cleared s t d S) (hD : DirSound s d)
    (hS : ∀ b, S b → b < 2 ^ 19 ∧ s.MapsAt d b) : DirSound t d := by
  have htab := h.tableAt
  have hback : ∀ a < 2 ^ 19, t.MapsAt d a →
      ¬S a ∧ s.MapsAt d a ∧ t.frameAt d a = s.frameAt d a := by
    intro a ha hmap
    have hnot : ¬S a := fun hSa => h.not_mapsAt hSa hmap
    have hmaps := (h.mapsAt_iff (by omega) hnot).mp hmap
    refine ⟨hnot, hmaps, ?_⟩
    rw [Machine.frameAt, h.keep a (by omega) hmaps.1 hnot]
    rfl
  refine ⟨?_, ?_, ?_, ?_, ?_, ?_⟩
  · rw [h.kend]
    exact hD.kend
  · intro i hi
    rw [h.dir, htab]
    exact hD.table i hi
  · intro i j hi hj hj'
    rw [h.dir, htab, htab]
    exact hD.kernel i j hi hj hj'
  · intro a ha hmap
    obtain ⟨-, hmaps, hframe⟩ := hback a ha hmap
    rw [hframe, h.kend]
    obtain ⟨h1, h2, h3, h4⟩ := hD.frame a ha hmaps
    refine ⟨h1, fun i hi hpres => ?_, h3, h4⟩
    rw [h.dir] at hpres
    rw [htab]
    exact h2 i hi hpres
  · intro a b ha hb hmapa hmapb
    obtain ⟨-, ha', hfa⟩ := hback a ha hmapa
    obtain ⟨-, hb', hfb⟩ := hback b hb hmapb
    rw [hfa, hfb]
    exact hD.distinct a b ha hb ha' hb'
  · intro a ha hmap
    obtain ⟨hnot, hmaps, hframe⟩ := hback a ha hmap
    obtain ⟨pages, -, hmem, hfree⟩ := h.free
    rw [hframe, hfree, List.mem_append, not_or]
    refine ⟨fun hin => ?_, hD.allocated a ha hmaps⟩
    obtain ⟨b, hb, heq⟩ := List.mem_map.mp hin
    have hSb := (hmem b).mp hb
    exact hnot (hD.distinct b a (hS b hSb).1 ha (hS b hSb).2 hmaps heq ▸ hSb)

def Reached (s : Machine) (d a b : Nat) : Prop :=
  a % 1024 ≤ b % 1024 ∨ ∃ i, a / 1024 ≤ i ∧ i < b / 1024 ∧ (s.word d i).present = true

def Visited (s : Machine) (d last a b : Nat) : Prop :=
  a ≤ b ∧ b < last ∧ s.MapsAt d b ∧ Reached s d a b

theorem reached_of_present {a b : Nat} (hpres : (s.word d (a / 1024)).present = true)
    (hab : a ≤ b) : Reached s d a b := by
  by_cases htable : b / 1024 = a / 1024
  · exact .inl (by omega)
  · exact .inr ⟨a / 1024, Nat.le_refl _, by omega, hpres⟩

theorem reached_succ_of_present {a b : Nat} (hpres : (s.word d (a / 1024)).present = true)
    (hab : a + 1 ≤ b) : Reached s d (a + 1) b := by
  by_cases hzero : (a + 1) % 1024 = 0
  · exact .inl (by omega)
  · apply reached_of_present _ hab
    rwa [show (a + 1) / 1024 = a / 1024 by omega]

theorem visited_of_absent {last a b : Nat} (habs : (s.word d (a / 1024)).present = false) :
    Visited s d last a b ↔ Visited s d last (a + nptEntries) b := by
  simp only [Visited, Reached, nptEntries]
  constructor
  · rintro ⟨h1, h2, hmap, hreach⟩
    have hne : b / 1024 ≠ a / 1024 := by
      intro heq
      have := hmap.1
      rw [heq, habs] at this
      cases this
    rcases hreach with hidx | ⟨i, hi, hib, hpres⟩
    · exact ⟨by omega, h2, hmap, .inl (by omega)⟩
    · have hia : i ≠ a / 1024 := by
        rintro rfl
        rw [habs] at hpres
        cases hpres
      exact ⟨by omega, h2, hmap, .inr ⟨i, by omega, hib, hpres⟩⟩
  · rintro ⟨h1, h2, hmap, hreach⟩
    refine ⟨by omega, h2, hmap, ?_⟩
    rcases hreach with hidx | ⟨i, hi, hib, hpres⟩
    · exact .inl (by omega)
    · exact .inr ⟨i, by omega, hib, hpres⟩

end Clear

theorem run_deallocPages_visited {d last : Nat} (hlast : last ≤ 2 ^ 19) :
    ∀ {fuel a : Nat} {s : Machine}, DirSound s d → last ≤ a + fuel →
      ∃ t, (deallocPages d last fuel a).run s = .ok ((), t) ∧
        Cleared s t d (Visited s d last a) := by
  intro fuel
  induction fuel with
  | zero =>
    intro a s _ hfuel
    exact ⟨s, rfl, (Cleared.refl s d).congr fun b =>
      ⟨False.elim, fun hb => by have := hb.1; have := hb.2.1; omega⟩⟩
  | succ fuel ih =>
    intro a s hD hfuel
    by_cases ha : a < last
    · rw [deallocPages, if_pos ha, Kernel.run_bind_of_ok (run_walkpgdir s _ _), walkPtr,
        pdx_page (by omega), ptx_page]
      by_cases hpres : (s.word d (a / 1024)).present = true
      · rw [if_pos hpres]
        simp only [Kernel.run_get_bind]
        by_cases hpte : (s.entryAt d a).present = true
        · have hmap : s.MapsAt d a := ⟨hpres, hpte⟩
          obtain ⟨-, -, hlow, hhigh⟩ := hD.frame a (by omega) hmap
          have hpos := hD.kend
          have hone := hD.cleared_one (by omega) hmap
          have hD1 := hone.dirSound hD (by rintro b rfl; exact ⟨by omega, hmap⟩)
          obtain ⟨t, hrun, hC⟩ := ih hD1 (a := a + 1) (by omega)
          refine ⟨t, ?_, ?_⟩
          · have hzero : ¬pteAddr (s.entryAt d a) = 0 := by
              change ¬s.frameAt d a = 0
              omega
            change (if (s.entryAt d a).present = true then _ else _ :
              Kernel Machine Unit).run s = _
            rw [if_pos hpte]
            change (if pteAddr (s.entryAt d a) = 0 then _ else _ : Kernel Machine Unit).run s = _
            rw [if_neg hzero]
            exact (Kernel.run_bind_of_ok (run_kfree hlow hhigh)).trans hrun
          · have hnext : ∀ b, Visited (s.withoutFrame d a) d last (a + 1) b ↔
                a + 1 ≤ b ∧ b < last ∧ s.MapsAt d b := by
              intro b
              constructor
              · rintro ⟨h1, h2, hmapb, -⟩
                exact ⟨h1, h2, (hone.mapsAt_iff (by omega) (by omega)).mp hmapb⟩
              · rintro ⟨h1, h2, hmapb⟩
                refine ⟨h1, h2, (hone.mapsAt_iff (by omega) (by omega)).mpr hmapb, ?_⟩
                exact reached_succ_of_present (by rw [hone.dir]; exact hpres) h1
            refine (hone.cons (hC.congr hnext) (by omega) hpres (by omega)
              fun b hb => ⟨by omega, hb.2.2.1⟩).congr fun b => ?_
            constructor
            · rintro (rfl | ⟨h1, h2, hmapb⟩)
              · exact ⟨Nat.le_refl _, ha, hmap, .inl (Nat.le_refl _)⟩
              · exact ⟨by omega, h2, hmapb, reached_of_present hpres (by omega)⟩
            · rintro ⟨h1, h2, hmapb, -⟩
              by_cases hba : b = a
              · exact .inl hba
              · exact .inr ⟨by omega, h2, hmapb⟩
        · change ∃ t, (if (s.entryAt d a).present = true then _ else _ :
            Kernel Machine Unit).run s = _ ∧ _
          rw [if_neg hpte]
          obtain ⟨t, hrun, hC⟩ := ih hD (a := a + 1) (by omega)
          refine ⟨t, hrun, hC.congr fun b => ?_⟩
          constructor
          · rintro ⟨h1, h2, hmapb, -⟩
            exact ⟨by omega, h2, hmapb, reached_of_present hpres (by omega)⟩
          · rintro ⟨h1, h2, hmapb, -⟩
            have hba : b ≠ a := by
              rintro rfl
              exact hpte hmapb.2
            exact ⟨by omega, h2, hmapb, reached_succ_of_present hpres (by omega)⟩
      · rw [if_neg hpres]
        obtain ⟨t, hrun, hC⟩ := ih hD (a := a + nptEntries) (by simp only [nptEntries]; omega)
        refine ⟨t, hrun, hC.congr fun b => (visited_of_absent ?_).symm⟩
        exact Bool.eq_false_of_not_eq_true hpres
    · rw [deallocPages, if_neg ha]
      exact ⟨s, rfl, (Cleared.refl s d).congr fun b =>
        ⟨False.elim, fun hb => by have := hb.1; have := hb.2.1; omega⟩⟩

def ClearsRange (s : Machine) (d oldsz newsz : Nat) : Prop :=
  ∃ t, (deallocuvm d oldsz newsz).run s = .ok (newsz, t) ∧
    (∀ b, pgRoundUp newsz ≤ b * pgSize → b * pgSize < oldsz → ¬t.MapsAt d b) ∧
    (∃ frames : List Nat, frames.Nodup ∧
      (∀ f, f ∈ frames ↔ ∃ b, pgRoundUp newsz ≤ b * pgSize ∧ b * pgSize < oldsz ∧
        s.MapsAt d b ∧ s.frameAt d b = f) ∧
      t.free = frames ++ s.free) ∧
    t.word d = s.word d ∧
    ∀ b < 2 ^ 20, ¬(pgRoundUp newsz ≤ b * pgSize ∧ b * pgSize < oldsz) →
      (s.word d (b / 1024)).present = true → t.entryAt d b = s.entryAt d b

theorem mem_range_iff {newsz : Nat} (hle : newsz ≤ kernBase) (oldsz b : Nat) :
    (pgRoundUp newsz ≤ b * pgSize ∧ b * pgSize < oldsz) ↔
      pgRoundUp newsz / pgSize ≤ b ∧ b < npages oldsz := by
  simp only [pgRoundUp, npages, pgSize, kernBase] at *
  omega

theorem run_deallocuvm_visited {s : Machine} {d oldsz newsz : Nat} (hD : DirSound s d)
    (hlt : newsz < oldsz) (hle : oldsz ≤ kernBase) :
    ∃ t, (deallocuvm d oldsz newsz).run s = .ok (newsz, t) ∧
      Cleared s t d (Visited s d (npages oldsz) (pgRoundUp newsz / pgSize)) := by
  have hlast : npages oldsz ≤ 2 ^ 19 := by
    simp only [npages, pgSize, kernBase] at *
    omega
  obtain ⟨t, hloop, hC⟩ := run_deallocPages_visited hlast hD
    (show npages oldsz ≤ pgRoundUp newsz / pgSize + (npages oldsz - pgRoundUp newsz / pgSize) by
      omega)
  refine ⟨t, ?_, hC⟩
  rw [deallocuvm, if_neg (by omega)]
  simp only
  rw [Kernel.run_bind_of_ok hloop, Kernel.run_pure]

theorem ClearsRange.reached {s : Machine} {d oldsz newsz : Nat} (h : ClearsRange s d oldsz newsz)
    (hD : DirSound s d) (hlt : newsz < oldsz) (hle : oldsz ≤ kernBase) {b : Nat}
    (h1 : pgRoundUp newsz ≤ b * pgSize) (h2 : b * pgSize < oldsz) (hmap : s.MapsAt d b) :
    Reached s d (pgRoundUp newsz / pgSize) b := by
  obtain ⟨t, hrun, hC⟩ := run_deallocuvm_visited hD hlt hle
  obtain ⟨t', hrun', hgone, -⟩ := h
  rw [hrun] at hrun'
  cases hrun'
  by_contra hnot
  refine hgone b h1 h2 ((hC.mapsAt_iff ?_ fun hV => hnot hV.2.2.2).mpr hmap)
  simp only [pgSize, kernBase] at *
  omega

/-- The loop does what it should exactly when it comes to every page of the range that is mapped:
the index of the page in its table is not below the index of the first page of the range, or a table
between the two, the first one included, is there. -/
theorem deallocuvm_clears_iff {s : Machine} {d oldsz newsz : Nat} (hD : DirSound s d)
    (hlt : newsz < oldsz) (hle : oldsz ≤ kernBase) :
    ClearsRange s d oldsz newsz ↔
      ∀ b, pgRoundUp newsz ≤ b * pgSize → b * pgSize < oldsz → s.MapsAt d b →
        (pgRoundUp newsz / pgSize) % 1024 ≤ b % 1024 ∨
        ∃ i, pgRoundUp newsz / pgSize / 1024 ≤ i ∧ i < b / 1024 ∧
          (s.word d i).present = true := by
  constructor
  · intro h b h1 h2 hmap
    exact h.reached hD hlt hle h1 h2 hmap
  · intro hreach
    obtain ⟨t, hrun, hC⟩ := run_deallocuvm_visited hD hlt hle
    have hrange := mem_range_iff (hlt.le.trans hle) oldsz
    have huser : ∀ b < npages oldsz, b < 2 ^ 19 := by
      intro b hb
      simp only [npages, pgSize, kernBase] at *
      omega
    have hvisited : ∀ b, Visited s d (npages oldsz) (pgRoundUp newsz / pgSize) b ↔
        (pgRoundUp newsz ≤ b * pgSize ∧ b * pgSize < oldsz) ∧ s.MapsAt d b := by
      intro b
      rw [hrange]
      constructor
      · rintro ⟨h1, h2, hmap, -⟩
        exact ⟨⟨h1, h2⟩, hmap⟩
      · rintro ⟨⟨h1, h2⟩, hmap⟩
        obtain ⟨h1', h2'⟩ := (hrange b).mpr ⟨h1, h2⟩
        exact ⟨h1, h2, hmap, hreach b h1' h2' hmap⟩
    refine ⟨t, hrun, ?_, ?_, hC.dir, ?_⟩
    · intro b h1 h2 hmap
      have hb := huser b ((hrange b).mp ⟨h1, h2⟩).2
      by_cases hV : Visited s d (npages oldsz) (pgRoundUp newsz / pgSize) b
      · exact hC.not_mapsAt hV hmap
      · exact hV ((hvisited b).mpr ⟨⟨h1, h2⟩, (hC.mapsAt_iff (by omega) hV).mp hmap⟩)
    · obtain ⟨pages, hnodup, hmem, hfree⟩ := hC.free
      refine ⟨pages.map (s.frameAt d), ?_, ?_, hfree⟩
      · apply List.Nodup.map_on _ hnodup
        intro a ha b hb heq
        have hVa := (hmem a).mp ha
        have hVb := (hmem b).mp hb
        exact hD.distinct a b (huser a hVa.2.1) (huser b hVb.2.1) hVa.2.2.1 hVb.2.2.1 heq
      · intro f
        rw [List.mem_map]
        constructor
        · rintro ⟨b, hb, rfl⟩
          obtain ⟨⟨h1, h2⟩, hmap⟩ := (hvisited b).mp ((hmem b).mp hb)
          exact ⟨b, h1, h2, hmap, rfl⟩
        · rintro ⟨b, h1, h2, hmap, rfl⟩
          exact ⟨b, (hmem b).mpr ((hvisited b).mpr ⟨⟨h1, h2⟩, hmap⟩), rfl⟩
    · intro b hb hout hpres
      exact hC.keep b hb hpres fun hV => hout ((hvisited b).mp hV).1

/-- The directory is page 20000. Its only table is that of the second 4 megabytes, whose first page
is mapped. -/
def sparse : Machine where
  word page i :=
    if page = 20000 ∧ i = 1 then mkEntry 20001 (pteP ||| pteW ||| pteU)
    else if page = 20001 ∧ i = 0 then mkEntry 20002 (pteP ||| pteW ||| pteU)
    else 0
  free := []
  proc _ := { sz := 0, pgdir := 20000, kstack := 0, state := .unused, pid := 0, parent := none,
              killed := false, name := "" }
  nextpid := 1
  initproc := 0
  kend := 2000
  kdata := 300

theorem sparse_dir {i : Nat} (h : (sparse.word 20000 i).present = true) : i = 1 := by
  by_contra hi
  rw [sparse] at h
  simp only [hi, and_false, if_false, Nat.reduceEqDiff, false_and] at h
  exact absurd h (by decide)

theorem sparse_mapsAt {a : Nat} (h : sparse.MapsAt 20000 a) : a = 1024 := by
  have hdir := sparse_dir h.1
  have htab : sparse.tableAt 20000 (a / 1024) = 20001 := by
    rw [hdir]
    decide
  have hpres := h.2
  rw [Machine.entryAt, htab] at hpres
  by_contra hne
  have hidx : a % 1024 ≠ 0 := by omega
  rw [sparse] at hpres
  simp only [hidx, and_false, if_false, Nat.reduceEqDiff, false_and] at hpres
  exact absurd hpres (by decide)

theorem sparse_sound : DirSound sparse 20000 where
  kend := by decide
  table i _ h := by
    rw [sparse_dir h]
    decide
  kernel i j hi hj _ h h' := by
    have := sparse_dir h'
    omega
  frame a _ h := by
    rw [sparse_mapsAt h]
    refine ⟨by decide, fun i _ hi => ?_, by decide, by decide⟩
    rw [sparse_dir hi]
    decide
  distinct a b _ _ h h' _ := by rw [sparse_mapsAt h, sparse_mapsAt h']
  allocated a _ _ := List.not_mem_nil

theorem sparse_maps : sparse.MapsAt 20000 1024 := by
  constructor <;> decide

/-- From the start of the address space all is cleared. -/
theorem deallocuvm_clears_sparse : ClearsRange sparse 20000 0x800000 0 := by
  apply (deallocuvm_clears_iff sparse_sound (by decide) (by decide)).mpr
  intro b _ _ _
  exact .inl (Nat.zero_le _)

/-- From the second page on, the loop finds no table and skips to the second page of the next
one. -/
theorem deallocuvm_skips_page :
    DirSound sparse 20000 ∧ sparse.MapsAt 20000 1024 ∧ ¬ClearsRange sparse 20000 0x800000 4096 := by
  refine ⟨sparse_sound, sparse_maps, fun h => ?_⟩
  rcases h.reached sparse_sound (by decide) (by decide) (b := 1024) (by decide) (by decide)
    sparse_maps with hidx | ⟨i, -, hi, hpres⟩
  · exact absurd hidx (by decide)
  · have := sparse_dir hpres
    omega

end Xv6
