import Xv6.Proof.CopyOnWrite

/-!
# Forking

The copy-on-write branch of `fork` clears the write bits of every page but the last, gives the child
a directory of its own with the parent's entries, and copies the table and the frame of the last
page.
-/

namespace Xv6

open Machine

/-- What the copy-on-write branch needs of the process that forks: the pages up to its size are
mapped through tables of their own, and nothing it goes through is free. -/
structure Forkable (s : Machine) (cur : Fin nproc) : Prop where
  nodup : s.free.Nodup
  lt : ∀ f ∈ s.free, f < 2 ^ 20
  kdata : extMem < s.kdata * pgSize ∧ s.kdata * pgSize < physTop
  size : (s.proc cur).sz ≤ physTop
  dir : (s.proc cur).pgdir ∉ s.free
  table : ∀ i < s.tables cur, (s.pde cur i).present = true ∧ s.tab cur i ∉ s.free ∧
    s.tab cur i ≠ (s.proc cur).pgdir
  apart : ∀ i j, i < s.tables cur → j < s.tables cur → s.tab cur i = s.tab cur j → i = j
  page : ∀ a < s.pages cur, (s.pte cur a).present = true ∧ s.frame cur a ∉ s.free ∧
    s.frame cur a ≠ (s.proc cur).pgdir ∧ ∀ i < s.tables cur, s.frame cur a ≠ s.tab cur i

theorem Forkable.tables_le {s : Machine} {cur : Fin nproc} (h : Forkable s cur) :
    s.tables cur ≤ 56 := by
  have hsz := h.size
  simp only [tables, pages, npages, pgSize, physTop] at *
  omega

theorem Layout.forkable {s : Machine} {role : Nat → Role} {H : Fin nproc → Prop}
    (hL : Layout s role H) {cur : Fin nproc} (hcur : H cur) : Forkable s cur := by
  have hsp := hL.space cur hcur
  have htables := hL.tables_le hcur
  have hnot : ∀ g, role g ≠ .free → g ∉ s.free := fun g hg hmem => hg (hL.pool.free g hmem)
  refine ⟨hL.pool.nodup, fun f hf => hL.pool.lt (by rw [hL.pool.free f hf]; simp), hL.pool.kdata,
    ?_, hL.pgdir_not_free hcur, fun i hi => ?_, fun i j hi hj => hsp.tab_injective hi hj,
    fun a ha => ⟨(hsp.page a ha).1, hnot _ (by rw [(hsp.page a ha).2]; simp), fun heq => ?_,
      fun i hi heq => ?_⟩⟩
  · have hpages := hL.pages_le hcur
    simp only [pages, npages, pgSize, physTop] at *
    omega
  · obtain ⟨hpres, hrole⟩ := hsp.table i hi
    exact ⟨hpres, hnot _ (by rw [hrole]; simp), hsp.dir_ne_tab (by omega) hpres⟩
  · have hrole := (hsp.page a ha).2
    rw [heq, hsp.dir] at hrole
    cases hrole
  · have hrole := (hsp.page a ha).2
    rw [heq, (hsp.table i hi).2] at hrole
    cases hrole

structure WriteCleared (s t : Machine) (cur : Fin nproc) (k : Nat) : Prop where
  rest : t = { s with word := t.word }
  word : ∀ f j, t.word f j = s.word f j ∨ t.word f j = s.word f j &&& ~~~pteW
  other : ∀ f ≠ (s.proc cur).pgdir, (∀ i < s.tables cur, f ≠ s.tab cur i) →
    t.word f = s.word f
  pte : ∀ a, a < s.pages cur →
    t.pte cur a = if a < k then s.pte cur a &&& ~~~pteW else s.pte cur a
  pde : ∀ a < k, t.pde cur (a / 1024) = s.pde cur (a / 1024) &&& ~~~pteW

section Clear

variable {s t : Machine} {cur : Fin nproc} {k : Nat}

theorem WriteCleared.zero (s : Machine) (cur : Fin nproc) : WriteCleared s s cur 0 :=
  ⟨rfl, fun _ _ => Or.inl rfl, fun _ _ _ => rfl, fun _ _ => by simp,
    fun a ha => absurd ha (Nat.not_lt_zero a)⟩

theorem WriteCleared.proc (h : WriteCleared s t cur k) : t.proc = s.proc := by rw [h.rest]

theorem WriteCleared.sameEntry (h : WriteCleared s t cur k) (f j : Nat) :
    SameEntry (t.word f j) (s.word f j) := by
  rcases h.word f j with heq | heq
  · exact .of_eq heq
  · rw [heq]
    exact sameEntry_clearW _

theorem WriteCleared.sameMaps (h : WriteCleared s t cur k) (p : Fin nproc) : SameMaps t s p :=
  .of_words (by rw [h.proc]) h.sameEntry

theorem WriteCleared.forkable (hF : Forkable s cur) (h : WriteCleared s t cur k) :
    Forkable t cur := by
  have hmaps := h.sameMaps cur
  have htables := hF.tables_le
  have hfree : t.free = s.free := by rw [h.rest]
  have hkd : t.kdata = s.kdata := by rw [h.rest]
  have hT : t.tables cur = s.tables cur := by rw [tables, tables, hmaps.pages]
  refine ⟨?_, ?_, ?_, ?_, ?_, ?_, ?_, ?_⟩
  · rw [hfree]
    exact hF.nodup
  · rw [hfree]
    exact hF.lt
  · rw [hkd]
    exact hF.kdata
  · rw [h.proc]
    exact hF.size
  · rw [h.proc, hfree]
    exact hF.dir
  · intro i hi
    rw [hT] at hi
    rw [(hmaps.dir _ (by omega)).2.1, hmaps.tab_eq (by omega), hfree, hmaps.pgdir]
    exact hF.table i hi
  · intro i j hi hj heq
    rw [hT] at hi hj
    rw [hmaps.tab_eq (by omega), hmaps.tab_eq (by omega)] at heq
    exact hF.apart i j hi hj heq
  · intro a ha
    rw [hmaps.pages] at ha
    have hta := tables_le_of_lt ha
    have hpres := (hF.table _ hta).1
    rw [(hmaps.pte (by omega) hpres).2.1, hmaps.frame (by omega) hpres, hfree, hmaps.pgdir, hT]
    obtain ⟨hp, hf, hd, ht⟩ := hF.page a ha
    refine ⟨hp, hf, hd, fun i hi => ?_⟩
    rw [hmaps.tab_eq (by omega)]
    exact ht i hi

theorem clearW_clearW (w : Word) : (w &&& ~~~pteW) &&& ~~~pteW = w &&& ~~~pteW := by
  rw [BitVec.and_assoc, BitVec.and_self]

theorem word_setWord_clearW {s t : Machine} {g i : Nat}
    (h : ∀ f j, t.word f j = s.word f j ∨ t.word f j = s.word f j &&& ~~~pteW) (f j : Nat) :
    (t.setWord g i (t.word g i &&& ~~~pteW)).word f j = s.word f j ∨
      (t.setWord g i (t.word g i &&& ~~~pteW)).word f j = s.word f j &&& ~~~pteW := by
  by_cases hf : f = g
  · by_cases hj : j = i
    · right
      rw [hf, hj, setWord_word_self]
      rcases h g i with heq | heq
      · rw [heq]
      · rw [heq, clearW_clearW]
    · rw [setWord_word_index _ _ _ _ hj]
      exact h f j
  · rw [setWord_word_of_ne _ _ _ hf]
    exact h f j

theorem run_clearWrite (hF : Forkable s cur) (h : WriteCleared s t cur k)
    (hk : k / 1024 < s.tables cur) :
    ∃ t', (clearWrite (s.proc cur).pgdir k).run t = .ok ((), t') ∧
      WriteCleared s t' cur (k + 1) := by
  have hlow := hF.tables_le
  have hk20 : k < 2 ^ 20 := by omega
  have hpres := (hF.table _ hk).1
  set pgdir := (s.proc cur).pgdir with hpgdir
  set t1 := t.setWord pgdir (k / 1024) (t.word pgdir (k / 1024) &&& ~~~pteW) with ht1
  have hword1 := word_setWord_clearW (g := pgdir) (i := k / 1024) h.word
  rw [← ht1] at hword1
  have hsame1 : SameMaps t1 s cur := .of_words (congrFun h.proc cur) fun f j => by
    rcases hword1 f j with heq | heq
    · exact .of_eq heq
    · rw [heq]
      exact sameEntry_clearW _
  have hwalk : walkPtr t1 pgdir (k * pgSize) = some (s.tab cur (k / 1024), k % 1024) := by
    have hdir : pgdir = (t1.proc cur).pgdir := hsame1.pgdir.symm
    have hva : k * pgSize < 2 ^ 32 := by
      simp only [pgSize]
      omega
    have hdiv : k * pgSize / pgSize = k := Nat.mul_div_cancel _ (by decide)
    rw [hdir, walkPtr_eq t1 cur hva, hdiv, (hsame1.dir _ (by omega)).2.1, if_pos hpres,
      hsame1.tab_eq (by omega)]
  have hrun : (clearWrite pgdir k).run t = .ok ((), t1.setWord (s.tab cur (k / 1024)) (k % 1024)
      (t1.word (s.tab cur (k / 1024)) (k % 1024) &&& ~~~pteW)) := by
    rw [clearWrite, cleardtew, Kernel.run_modify_bind, pdx_page hk20, ← ht1]
    exact run_updatePte hwalk
  have hword2 := word_setWord_clearW (g := s.tab cur (k / 1024)) (i := k % 1024) hword1
  have htd := (hF.table _ hk).2.2
  refine ⟨_, hrun, ?_, hword2, ?_, ?_, ?_⟩
  · rw [ht1, h.rest]
    rfl
  · intro f hf htab
    rw [setWord_word_of_ne _ _ _ (htab _ hk), ht1, setWord_word_of_ne _ _ _ hf]
    exact h.other f hf htab
  · intro a ha
    have hta := tables_le_of_lt ha
    have hsame2 : SameMaps (t1.setWord (s.tab cur (k / 1024)) (k % 1024)
        (t1.word (s.tab cur (k / 1024)) (k % 1024) &&& ~~~pteW)) t1 cur :=
      .setWord cur (sameEntry_clearW _)
    rw [pte, hsame2.tab_eq (by omega), hsame1.tab_eq (by omega)]
    have hold : t1.word (s.tab cur (a / 1024)) (a % 1024) =
        if a < k then s.pte cur a &&& ~~~pteW else s.pte cur a := by
      rw [ht1, setWord_word_of_ne _ _ _ (hF.table _ hta).2.2,
        ← h.pte a ha, pte, (h.sameMaps cur).tab_eq (by omega)]
    by_cases hak : a = k
    · subst hak
      rw [setWord_word_self, hold, if_neg (Nat.lt_irrefl a), if_pos (Nat.lt_succ_self a)]
    · have hiff : a < k + 1 ↔ a < k := by omega
      simp only [hiff]
      rw [← hold]
      by_cases htabs : s.tab cur (a / 1024) = s.tab cur (k / 1024)
      · have hidx := hF.apart _ _ hta hk htabs
        rw [setWord_word_index _ _ _ _ (by omega)]
      · rw [setWord_word_of_ne _ _ _ htabs]
  · intro a ha
    have hdir : (t.proc cur).pgdir = pgdir := by rw [h.proc]
    change (t1.setWord _ _ _).word (t.proc cur).pgdir (a / 1024) = _
    rw [hdir, setWord_word_of_ne _ _ _ htd.symm, ht1]
    by_cases hidx : a / 1024 = k / 1024
    · rw [hidx, setWord_word_self]
      rcases h.word pgdir (k / 1024) with heq | heq
      · rw [heq]
        rfl
      · rw [heq, clearW_clearW]
        rfl
    · rw [setWord_word_index _ _ _ _ hidx]
      have hold := h.pde a (by omega)
      rwa [pde, hdir] at hold

theorem run_clearLoop (hF : Forkable s cur) {m : Nat} (h : WriteCleared s t cur k)
    (hm : k + m ≤ 1024 * s.tables cur) :
    ∃ t', (Kernel.forEach (List.range' k m) (clearWrite (s.proc cur).pgdir)).run t =
        .ok ((), t') ∧ WriteCleared s t' cur (k + m) := by
  induction m generalizing k t with
  | zero => exact ⟨t, rfl, h⟩
  | succ m ih =>
    obtain ⟨t1, hrun, h1⟩ := run_clearWrite hF h (by omega)
    obtain ⟨t', hrest, h'⟩ := ih h1 (by omega)
    refine ⟨t', ?_, ?_⟩
    · rw [List.range'_succ, Kernel.run_forEach_cons, Kernel.run_bind_of_ok hrun, hrest]
    · rwa [show k + (m + 1) = k + 1 + m by omega]

theorem clearLoop_present {pgdir : Nat} {l : List Nat} (hl : ∀ a ∈ l, a < 2 ^ 20)
    (h : (Kernel.forEach l (clearWrite pgdir)).run s = .ok ((), t)) :
    ∀ a ∈ l, (s.word pgdir (a / 1024)).present = true := by
  induction l generalizing s with
  | nil => simp
  | cons k rest ih =>
    rw [Kernel.run_forEach_cons] at h
    obtain ⟨_, s1, hbody, hrest⟩ := Kernel.run_bind_eq_ok.mp h
    rw [clearWrite, cleardtew, Kernel.run_modify_bind] at hbody
    obtain ⟨tab, i, hwalk, rfl⟩ := updatePte_spec hbody
    set s2 := s.setWord pgdir (pdx (k * pgSize))
      (s.word pgdir (pdx (k * pgSize)) &&& ~~~pteW) with hs2
    have hword := word_setWord_clearW (g := tab) (i := i)
      (word_setWord_clearW (s := s) (g := pgdir) (i := pdx (k * pgSize))
        fun f j => Or.inl (rfl : s.word f j = s.word f j))
    have hkeep : ∀ w v : Word, w = v ∨ w = v &&& ~~~pteW → w.present = v.present := by
      rintro w v (rfl | rfl)
      · rfl
      · exact (sameEntry_clearW v).2.1
    have hpresent := ih (fun a ha => hl a (List.mem_cons_of_mem k ha)) hrest
    intro a ha
    rcases List.mem_cons.mp ha with rfl | ha
    · have hk := hl a List.mem_cons_self
      simp only [walkPtr] at hwalk
      rw [pdx_page hk] at hwalk hs2
      split at hwalk
      · rename_i hpres
        rw [hs2, setWord_word_self, (sameEntry_clearW _).2.1] at hpres
        exact hpres
      · cases hwalk
    · rw [← hkeep _ _ (hword pgdir (a / 1024))]
      exact hpresent a ha

end Clear

theorem clearedPages_eq {sz : Nat} (h : pgSize ≤ sz) (hlt : sz < 2 ^ 32) :
    clearedPages sz + 1 = npages sz := by
  simp only [clearedPages, npages, pgSize] at *
  omega

theorem clearedPages_small {sz : Nat} (h : sz < pgSize) : 2 ^ 20 - 1 ≤ clearedPages sz := by
  simp only [clearedPages, npages, pgSize] at *
  omega

/-- The machine when the child has its directory, with the parent's entries and a copy `tb` of the
table of page `a`. -/
structure DirCopied (t u : Machine) (cur np : Fin nproc) (a d tb : Nat) (tabs : List (Nat × Nat)) :
    Prop where
  taken : t.free = d :: (tabs.map Prod.snd ++ tb :: u.free)
  rest : u = { t with
    word := u.word, free := u.free,
    proc := Function.update t.proc np { t.proc np with pgdir := d } }
  low : ∀ i < 511, i ≠ a / 1024 → u.word d i = t.pde cur i
  last : u.word d (a / 1024) = mkEntry tb (pteW ||| pteU ||| pteP)
  mid : (u.word d 511).present = (t.pde cur 511).present
  high : ∀ i, 512 ≤ i → i < 1024 → (u.word d i).present = true →
    ∃ e ∈ tabs, e.1 = i ∧ pteAddr (u.word d i) = e.2
  ktab : ∀ e ∈ tabs, 512 ≤ e.1 ∧ e.1 < 1024 ∧ ∀ j < 1024, (u.word e.2 j).user = false
  table : u.word tb = t.word (t.tab cur (a / 1024))
  parent : ∀ i, u.word (t.proc cur).pgdir i =
    if i = a / 1024 then t.pde cur i ||| pteW else t.pde cur i
  other : ∀ g, g ∉ t.free → g ≠ (t.proc cur).pgdir → u.word g = t.word g
  count : tabs.length = 64

theorem DirCopied.sameEntry {t u : Machine} {cur np : Fin nproc} {a d tb : Nat}
    {tabs : List (Nat × Nat)} (h : DirCopied t u cur np a d tb tabs) {g : Nat} (hg : g ∉ t.free)
    (j : Nat) : SameEntry (u.word g j) (t.word g j) := by
  by_cases hdir : g = (t.proc cur).pgdir
  · rw [hdir, h.parent]
    split
    · exact sameEntry_setW _
    · exact .refl _
  · rw [h.other g hg hdir]
    exact .refl _

def halfCopied (s : Machine) (d src i : Nat) : Word :=
  if i < 511 then s.word src i
  else if i = 511 then (s.word d i &&& 0xFF000000) ||| (s.word src i &&& 0x00FFFFFF)
  else s.word d i

theorem run_copyHalfDirectory (s : Machine) (d src : Nat) :
    (copyHalfDirectory d src).run s = .ok ((), s.setPage d (halfCopied s d src)) := rfl

theorem run_copyStackTable {s : Machine} {va pgdir d k tb : Nat} {rest : List Nat}
    (hk : pdx va = k) (hpres : (s.word pgdir k).present = true) (hfree : s.free = tb :: rest)
    (hdir : d ≠ pgdir) (htd : tb ≠ d) (htp : tb ≠ pgdir)
    (htab : pteAddr (s.word pgdir k) ∉ [tb, pgdir, d]) :
    ∃ u, (copyStackTable va pgdir d).run s = .ok ((), u) ∧
      u = { s with word := u.word, free := rest } ∧
      (∀ g, g ∉ [tb, pgdir, d] → u.word g = s.word g) ∧
      u.word tb = s.word (pteAddr (s.word pgdir k)) ∧
      (∀ i, u.word pgdir i = if i = k then s.word pgdir i ||| pteW else s.word pgdir i) ∧
      ∀ i, u.word d i = if i = k then mkEntry tb (pteW ||| pteU ||| pteP) else s.word d i := by
  simp only [List.mem_cons, List.not_mem_nil, or_false, not_or] at htab
  let s1 : Machine := { s with free := rest }.setPage tb fun _ => 0
  let s2 := s1.setWord pgdir k (s1.word pgdir k ||| pteW)
  let s3 := s2.setWord d k (s2.word d k ||| pteW)
  have hrun : (copyStackTable va pgdir d).run s =
      .ok ((), (s3.setPage tb (s3.word (pteAddr (s.word pgdir k)))).setWord d k
        (mkEntry tb (pteW ||| pteU ||| pteP))) := by
    simp only [copyStackTable, Kernel.run_get_bind, hk, hpres, Bool.not_true, Bool.false_eq_true,
      if_false]
    rw [Kernel.run_bind_of_ok (run_kallocOr hfree), clearPage, Kernel.run_modify_bind, setdtew,
      Kernel.run_modify_bind, setdtew, Kernel.run_modify_bind, copyPageOf, Kernel.run_modify_bind,
      Kernel.run_modify, hk]
  refine ⟨_, hrun, rfl, ?_, ?_, ?_, ?_⟩
  · intro g hg
    simp only [List.mem_cons, List.not_mem_nil, or_false, not_or] at hg
    rw [setWord_word_of_ne _ _ _ hg.2.2, setPage_word_of_ne _ _ hg.1,
      setWord_word_of_ne _ _ _ hg.2.2, setWord_word_of_ne _ _ _ hg.2.1,
      setPage_word_of_ne _ _ hg.1]
  · rw [setWord_word_of_ne _ _ _ htd, setPage_word_self,
      setWord_word_of_ne _ _ _ htab.2.2, setWord_word_of_ne _ _ _ htab.2.1,
      setPage_word_of_ne _ _ htab.1]
  · intro i
    rw [setWord_word_of_ne _ _ _ hdir.symm, setPage_word_of_ne _ _ htp.symm,
      setWord_word_of_ne _ _ _ hdir.symm]
    by_cases hi : i = k
    · rw [if_pos hi, hi, setWord_word_self, setPage_word_of_ne _ _ htp.symm]
    · rw [if_neg hi, setWord_word_index _ _ _ _ hi,
        setPage_word_of_ne _ _ htp.symm]
  · intro i
    by_cases hi : i = k
    · rw [if_pos hi, hi, setWord_word_self]
    · rw [if_neg hi, setWord_word_index _ _ _ _ hi,
        setPage_word_of_ne _ _ htd.symm, setWord_word_index _ _ _ _ hi,
        setWord_word_of_ne _ _ _ hdir, setPage_word_of_ne _ _ htd.symm]

theorem copyStackTable_noFree {s : Machine} (va pgdir d : Nat) (hfree : s.free = []) :
    ∃ msg, (copyStackTable va pgdir d).run s = .error msg := by
  simp only [copyStackTable, Kernel.run_get_bind]
  split
  · exact ⟨_, rfl⟩
  · exact ⟨"kalloc on copystackpage", by simp [kallocOr, Kernel.run_bind, run_kalloc_nil hfree]⟩

theorem present_halfCopied_mid {s : Machine} {d src : Nat} (h : s.word d 511 = 0) :
    (halfCopied s d src 511).present = (s.word src 511).present := by
  rw [halfCopied, if_neg (by decide), if_pos rfl, h]
  simp [Word.present]

theorem dirCopied_of_kernelDir {t s3 : Machine} {cur : Fin nproc} (np : Fin nproc)
    (hF : Forkable t cur) {a d tb : Nat}
    {rest rest2 : List Nat} {tabs : List (Nat × Nat)} (ha : a < t.pages cur)
    (hfree : t.free = d :: rest) (hdir : KernelDir { t with free := rest } s3 d tabs (2 ^ 20))
    (hindices : ∀ i, i ∈ tabs.map Prod.fst ↔ i ∈ kernelIndices) (htabs : tabs.length = 64)
    (h3 : s3.free = tb :: rest2) :
    ∃ u, (copyStackTable (a * pgSize) (t.proc cur).pgdir d).run
        ((s3.setPage d (halfCopied s3 d (t.proc cur).pgdir)).setProc np
          { t.proc np with pgdir := d }) = .ok ((), u) ∧
      u.free = rest2 ∧ DirCopied t u cur np a d tb tabs := by
  have htables := hF.tables_le
  have hta := tables_le_of_lt ha
  set k := a / 1024 with hk
  set pgdir := (t.proc cur).pgdir with hpgdir
  obtain ⟨hpres, htabfree, htabdir⟩ := hF.table k hta
  have hnodup := hF.nodup
  have hrest : rest = tabs.map Prod.snd ++ tb :: rest2 := by
    rw [← h3]
    exact hdir.taken
  have hlt := hF.lt
  rw [hfree] at hnodup hlt
  have hfresh : FreshPages { t with free := rest } d :=
    ⟨(List.nodup_cons.mp hnodup).2, (List.nodup_cons.mp hnodup).1,
      fun f hf => hlt f (List.mem_cons_of_mem d hf)⟩
  have htb_rest : tb ∈ rest := by
    rw [hrest]
    simp
  have hpg : pgdir ∉ t.free := hF.dir
  have hdmem : d ∈ t.free := by
    rw [hfree]
    exact List.mem_cons_self
  have htbmem : tb ∈ t.free := by
    rw [hfree]
    exact List.mem_cons_of_mem d htb_rest
  have hdp : d ≠ pgdir := fun heq => hpg (heq ▸ hdmem)
  have htp : tb ≠ pgdir := fun heq => hpg (heq ▸ htbmem)
  have htd : tb ≠ d := fun heq => (List.nodup_cons.mp hnodup).1 (heq ▸ htb_rest)
  have hother : ∀ g, g ∉ t.free → s3.word g = t.word g := by
    intro g hg
    rw [hfree, List.mem_cons, not_or, hrest, List.mem_append, not_or] at hg
    exact hdir.other g hg.1 hg.2.1
  set s5 := (s3.setPage d (halfCopied s3 d pgdir)).setProc np { t.proc np with pgdir := d } with hs5
  have hs5ne : ∀ g ≠ d, s5.word g = s3.word g := fun g hg =>
    setPage_word_of_ne _ _ hg
  have hs5d : s5.word d = halfCopied s3 d pgdir := setPage_word_self _ _ _
  have hs5p : s5.word pgdir = t.word pgdir := by rw [hs5ne _ hdp.symm, hother _ hpg]
  have htab : pteAddr (s5.word pgdir k) = t.tab cur k := by rw [hs5p]; rfl
  obtain ⟨u, hrun, hu, hune, hutb, hup, hud⟩ := run_copyStackTable
    (show pdx (a * pgSize) = k from pdx_page (by omega))
    (show (s5.word pgdir k).present = true by rw [hs5p]; exact hpres)
    (show s5.free = tb :: rest2 from h3) hdp htd htp (by
      rw [htab]
      simp only [List.mem_cons, List.not_mem_nil, or_false, not_or]
      exact ⟨fun h => htabfree (h ▸ htbmem), htabdir, fun h => htabfree (h ▸ hdmem)⟩)
  have hune' : ∀ g ≠ tb, g ≠ pgdir → g ≠ d → u.word g = s3.word g := by
    intro g h1 h2 h3
    rw [hune g (by simp [h1, h2, h3]), hs5ne g h3]
  refine ⟨u, hrun, by rw [hu], ?_⟩
  refine ⟨?_, ?_, ?_, ?_, ?_, ?_, ?_, ?_, ?_, ?_, htabs⟩
  · rw [hfree, hrest, hu]
  · rw [hu, hs5, hdir.rest]
    rfl
  · intro i hi hik
    rw [hud, if_neg hik, hs5d, halfCopied, if_pos hi, hother _ hpg]
    rfl
  · rw [hud, if_pos rfl]
  · have h511 : s3.word d 511 = 0 :=
      hdir.absent 511 (by decide) (by rw [hindices, mem_kernelIndices]; decide)
    rw [hud, if_neg (by omega), hs5d, present_halfCopied_mid h511, hother _ hpg]
    rfl
  · intro i hi hlt' hpresent
    have heq : u.word d i = s3.word d i := by
      rw [hud, if_neg (by omega), hs5d, halfCopied, if_neg (by omega), if_neg (by omega)]
    rw [heq] at hpresent ⊢
    by_cases hmem : i ∈ tabs.map Prod.fst
    · obtain ⟨e, he, rfl⟩ := List.mem_map.mp hmem
      exact ⟨e, he, rfl, (hdir.dir_entry hfresh he).2⟩
    · rw [hdir.absent i hlt' hmem] at hpresent
      cases hpresent
  · intro e he
    have hmem : e.2 ∈ rest := hdir.mem_free he
    have hne_tb : e.2 ≠ tb := by
      rintro rfl
      have hnd := (List.nodup_cons.mp hnodup).2
      rw [hrest, List.nodup_append] at hnd
      exact hnd.2.2 _ (List.mem_map_of_mem he) _ List.mem_cons_self rfl
    refine ⟨(hdir.index e he).1, (hdir.index e he).2, fun j hj => ?_⟩
    rw [hune' e.2 hne_tb (fun h => hpg (h ▸ hfree ▸ List.mem_cons_of_mem d hmem))
      (hdir.ne_dir hfresh he)]
    exact hdir.user e he j hj
  · have htabd : t.tab cur k ≠ d := fun h => htabfree (h ▸ hdmem)
    rw [hutb, htab, hs5ne _ htabd, hother _ htabfree]
  · intro i
    rw [hup, hs5p]
    rfl
  · intro g hg hgp
    rw [hune' g (fun h => hg (h ▸ htbmem)) hgp (fun h => hg (h ▸ hdmem)), hother g hg]

section StackPage

variable {t u : Machine} {role : Nat → Role} {H : Fin nproc → Prop} {cur np : Fin nproc}
  {a d tb : Nat} {tabs : List (Nat × Nat)}

theorem DirCopied.proc (h : DirCopied t u cur np a d tb tabs) :
    u.proc = Function.update t.proc np { t.proc np with pgdir := d } := by rw [h.rest]

theorem DirCopied.proc_of_ne (h : DirCopied t u cur np a d tb tabs) {p : Fin nproc}
    (hp : p ≠ np) : u.proc p = t.proc p := by
  rw [h.proc, Function.update_of_ne hp]

theorem DirCopied.walk (hF : Forkable t cur) (ha : a < t.pages cur)
    (h : DirCopied t u cur np a d tb tabs) :
    walkPtr u d (a * pgSize) = some (tb, a % 1024) := by
  have htables := hF.tables_le
  have hta := tables_le_of_lt ha
  have hmem : tb ∈ t.free := by
    rw [h.taken]
    simp
  have hlt : tb < 2 ^ 20 := hF.lt tb hmem
  rw [walkPtr, pdx_page (by omega), ptx_page, h.last, present_mkEntry, if_pos rfl,
    pteAddr_mkEntry_user hlt]

def Machine.withStackPage (u : Machine) (tb a f : Nat) (rest : List Nat) (content : Nat → Word) :
    Machine :=
  ({ u with free := rest }.setPage f content).setWord tb (a % 1024)
    (mkEntry f (pteW ||| pteU ||| pteP))

theorem DirCopied.pde (hcn : cur ≠ np) (h : DirCopied t u cur np a d tb tabs) (i : Nat) :
    u.pde cur i = if i = a / 1024 then t.pde cur i ||| pteW else t.pde cur i := by
  rw [Machine.pde, h.proc_of_ne hcn]
  exact h.parent i

theorem DirCopied.tab (hcn : cur ≠ np) (h : DirCopied t u cur np a d tb tabs) (i : Nat) :
    u.tab cur i = t.tab cur i := by
  rw [Machine.tab, h.pde hcn]
  split
  · exact pteAddr_setW _
  · rfl

theorem DirCopied.pte (hF : Forkable t cur) (hcn : cur ≠ np)
    (h : DirCopied t u cur np a d tb tabs) {b : Nat} (hb : b < t.pages cur) :
    u.pte cur b = t.pte cur b := by
  obtain ⟨-, hfree, hdir⟩ := hF.table _ (tables_le_of_lt hb)
  rw [Machine.pte, h.tab hcn, h.other _ hfree hdir]
  rfl

theorem DirCopied.run_copyFrame (hF : Forkable t cur) (hcn : cur ≠ np) (ha : a < t.pages cur)
    (h : DirCopied t u cur np a d tb tabs) {f : Nat} {rest : List Nat}
    (hfree : u.free = f :: rest) (msg : String) :
    (copyFrame msg cur d (a * pgSize)).run u =
      .ok ((), u.withStackPage tb a f rest (t.word (t.frame cur a))) := by
  have htables := hF.tables_le
  have hta := tables_le_of_lt ha
  obtain ⟨hpres, htabfree, -⟩ := hF.table _ hta
  obtain ⟨hpage, hframefree, hframedir, -⟩ := hF.page a ha
  have hva : a * pgSize < kernBase := by
    simp only [pgSize, kernBase]
    omega
  have hdiv : a * pgSize / pgSize = a := Nat.mul_div_cancel _ (by decide)
  have hf : f ∈ t.free := by
    rw [h.taken, hfree]
    simp
  have hdf : d ≠ f := by
    rintro rfl
    have hnodup := hF.nodup
    rw [h.taken, hfree, List.nodup_cons] at hnodup
    simp at hnodup
  have hframe : u.frame cur a = t.frame cur a := by rw [frame, h.pte hF hcn ha]; rfl
  have hpde : (u.pde cur (a / 1024)).present = true := by
    rw [h.pde hcn, if_pos rfl, present_setW]
    exact hpres
  have hrun := Xv6.run_copyFrame msg hva
    (show (u.pde cur (a * pgSize / pgSize / 1024)).present = true by rw [hdiv]; exact hpde)
    (by rw [hdiv, h.pte hF hcn ha]; exact hpage) hfree
    (by rw [h.proc_of_ne hcn]; exact fun heq => hF.dir (heq ▸ hf))
    (by rw [hdiv, h.tab hcn]; exact fun heq => htabfree (heq ▸ hf))
    (by rw [hdiv, hframe]; exact fun heq => hframefree (heq ▸ hf)) hdf (h.walk hF ha)
  rw [hdiv, hframe, h.other _ hframefree hframedir] at hrun
  exact hrun

theorem run_copystackpage (hF : Forkable t cur) (hcn : cur ≠ np) (ha : a < t.pages cur) :
    (t.free.length < 67 ∧ ∃ msg, (copystackpage (a * pgSize) cur np).run t = .error msg) ∨
      ∃ u d tb tabs f rest, DirCopied t u cur np a d tb tabs ∧ u.free = f :: rest ∧
        (copystackpage (a * pgSize) cur np).run t =
          .ok ((), u.withStackPage tb a f rest (t.word (t.frame cur a))) := by
  rcases setupkvm_spec hF.kdata hF.nodup hF.lt with
    ⟨hlen, s3, hrun, -, -⟩ | ⟨d, rest, s3, tabs, hfree, hrun, hdir, hindices, htabs⟩
  · refine Or.inl ⟨by omega, "trap", ?_⟩
    rw [copystackpage, Kernel.run_bind_of_ok hrun]
    rfl
  · have hlen : t.free.length = 65 + s3.free.length := by
      have h := congrArg List.length hdir.taken
      simp only [List.length_append, List.length_map, htabs] at h
      rw [hfree, List.length_cons, h]
      omega
    have hproc : s3.proc = t.proc := by rw [hdir.rest]
    -- the run up to the copy of the table
    have hstart : (copystackpage (a * pgSize) cur np).run t =
        (copyStackTable (a * pgSize) (t.proc cur).pgdir d >>= fun _ =>
          copyFrame "kalloc on copystackpage" cur d (a * pgSize)).run
        ((s3.setPage d (halfCopied s3 d (t.proc cur).pgdir)).setProc np
          { t.proc np with pgdir := d }) := by
      rw [copystackpage, Kernel.run_bind_of_ok hrun]
      simp only [Kernel.run_get_bind]
      rw [Kernel.run_bind_of_ok (run_copyHalfDirectory _ _ _), modifyProc, Kernel.run_modify_bind,
        hproc, setPage_proc, hproc]
    cases h3 : s3.free with
    | nil =>
      obtain ⟨msg, herr⟩ := copyStackTable_noFree (a * pgSize) (t.proc cur).pgdir d
        (show ((s3.setPage d (halfCopied s3 d (t.proc cur).pgdir)).setProc np
          { t.proc np with pgdir := d }).free = [] from h3)
      refine Or.inl ⟨by rw [hlen, h3]; decide, msg, ?_⟩
      rw [hstart, Kernel.run_bind, herr]
    | cons tb rest2 =>
      obtain ⟨u, hrunTable, hufree, hu⟩ :=
        dirCopied_of_kernelDir np hF ha hfree hdir hindices htabs h3
      rw [Kernel.run_bind_of_ok hrunTable] at hstart
      cases hrest2 : rest2 with
      | nil =>
        refine Or.inl ⟨by rw [hlen, h3, hrest2]; simp, "kalloc on copystackpage", ?_⟩
        rw [hstart, copyFrame]
        simp [kallocOr, Kernel.run_bind, run_kalloc_nil (hufree.trans hrest2)]
      | cons f rest3 =>
        have hfree' := hufree.trans hrest2
        refine Or.inr ⟨u, d, tb, tabs, f, rest3, hu, hfree', ?_⟩
        rw [hstart, hu.run_copyFrame hF hcn ha hfree']

end StackPage

def Machine.unusedSlot (s : Machine) : Option (Fin nproc) :=
  (List.finRange nproc).find? fun p => (s.proc p).state = .unused

def Machine.embryo (s : Machine) (np : Fin nproc) : Machine :=
  { s.setProc np { s.proc np with state := .embryo, pid := s.nextpid } with
    nextpid := s.nextpid + 1 }

def Machine.allocated (s : Machine) (np : Fin nproc) (kstack : Nat) (rest : List Nat) : Machine :=
  { (s.embryo np) with free := rest }.setProc np { (s.embryo np).proc np with kstack := kstack }

def Machine.unallocated (s : Machine) (np : Fin nproc) : Machine :=
  (s.embryo np).setProc np { (s.embryo np).proc np with kstack := 0, state := .unused }

section Fork

variable {s : Machine} {cur np : Fin nproc}

theorem Machine.unusedSlot_spec (h : s.unusedSlot = some np) : (s.proc np).state = .unused := by
  simpa using List.find?_some h

theorem run_allocproc_none (h : s.unusedSlot = none) : allocproc.run s = .ok (none, s) := by
  rw [unusedSlot] at h
  rw [allocproc, Kernel.run_get_bind, h, Kernel.run_pure]

theorem run_allocproc_noFree (h : s.unusedSlot = some np) (hfree : s.free = []) :
    allocproc.run s = .ok (none, s.unallocated np) := by
  rw [unusedSlot] at h
  rw [allocproc, Kernel.run_get_bind, h]
  simp only [Kernel.run_modify_bind]
  rw [Kernel.run_bind_of_ok (run_kalloc_nil (by exact hfree))]
  simp only [modifyProc, Kernel.run_modify_bind, Kernel.run_pure]
  rfl

theorem run_allocproc_cons (h : s.unusedSlot = some np) {kstack : Nat} {rest : List Nat}
    (hfree : s.free = kstack :: rest) :
    allocproc.run s = .ok (some np, s.allocated np kstack rest) := by
  rw [unusedSlot] at h
  rw [allocproc, Kernel.run_get_bind, h]
  simp only [Kernel.run_modify_bind]
  rw [Kernel.run_bind_of_ok (run_kalloc_cons (by exact hfree))]
  simp only [modifyProc, Kernel.run_modify_bind, Kernel.run_pure]
  rfl

theorem Machine.allocated_proc_of_ne {p : Fin nproc} (hp : p ≠ np) (kstack : Nat)
    (rest : List Nat) : (s.allocated np kstack rest).proc p = s.proc p := by
  rw [allocated, setProc_proc_of_ne _ _ hp]
  exact setProc_proc_of_ne s _ hp

theorem Machine.allocated_proc_self (kstack : Nat) (rest : List Nat) :
    (s.allocated np kstack rest).proc np =
      { s.proc np with state := .embryo, pid := s.nextpid, kstack := kstack } := by
  rw [allocated, setProc_proc_self]
  simp only [embryo, setProc_proc_self]

theorem Forkable.allocated (hF : Forkable s cur) (hcn : cur ≠ np) {kstack : Nat}
    {rest : List Nat} (hfree : s.free = kstack :: rest) :
    Forkable (s.allocated np kstack rest) cur := by
  have hproc := allocated_proc_of_ne (s := s) hcn kstack rest
  have hpde : ∀ i, (s.allocated np kstack rest).pde cur i = s.pde cur i := fun i => by
    rw [pde, hproc]
    rfl
  have htab : ∀ i, (s.allocated np kstack rest).tab cur i = s.tab cur i := fun i => by
    rw [tab, hpde]
    rfl
  have hpte : ∀ a, (s.allocated np kstack rest).pte cur a = s.pte cur a := fun a => by
    rw [pte, htab]
    rfl
  have hpages : (s.allocated np kstack rest).pages cur = s.pages cur := by
    rw [pages, hproc]
    rfl
  have htables : (s.allocated np kstack rest).tables cur = s.tables cur := by
    rw [tables, hpages]
    rfl
  have hsub : ∀ g, g ∉ s.free → g ∉ rest := fun g hg hmem =>
    hg (by rw [hfree]; exact List.mem_cons_of_mem _ hmem)
  have hnodup := hF.nodup
  rw [hfree] at hnodup
  refine ⟨(List.nodup_cons.mp hnodup).2, fun f hf => hF.lt f ?_, hF.kdata, ?_, ?_, ?_, ?_, ?_⟩
  · rw [hfree]
    exact List.mem_cons_of_mem _ hf
  · rw [hproc]
    exact hF.size
  · rw [hproc]
    exact hsub _ hF.dir
  · intro i hi
    rw [htables] at hi
    obtain ⟨hpres, hused, hdir⟩ := hF.table i hi
    rw [hpde, htab, hproc]
    exact ⟨hpres, hsub _ hused, hdir⟩
  · intro i j hi hj heq
    rw [htables] at hi hj
    rw [htab, htab] at heq
    exact hF.apart i j hi hj heq
  · intro a ha
    rw [hpages] at ha
    obtain ⟨hpres, hused, hdir, htabs⟩ := hF.page a ha
    rw [frame, hpte, hproc, htables]
    exact ⟨hpres, hsub _ hused, hdir, fun i hi => by rw [htab]; exact htabs i hi⟩

def Machine.withChild (s v : Machine) (cur np : Fin nproc) : Machine :=
  v.setProc np { v.proc np with
    sz := (s.proc cur).sz, parent := some cur, state := .runnable, name := (s.proc cur).name }

/-- A copy-on-write fork of `cur` into the slot `np`. -/
inductive Forked (s : Machine) (cur np : Fin nproc) : Machine → Prop
  | mk {t u : Machine} {n kstack d tb f : Nat} {tabs : List (Nat × Nat)} {rest0 rest : List Nat}
      (hslot : s.unusedSlot = some np) (hn : n + 1 = s.pages cur)
      (hfree : s.free = kstack :: rest0)
      (hclear : WriteCleared (s.allocated np kstack rest0) t cur n)
      (hdir : DirCopied t u cur np n d tb tabs) (hlast : u.free = f :: rest) :
      Forked s cur np (s.withChild (u.withStackPage tb n f rest (t.word (t.frame cur n))) cur np)

variable {role : Nat → Role} {H : Fin nproc → Prop}

theorem run_finishFork {s v : Machine} (hcur : v.proc cur = s.proc cur) :
    (finishFork cur np).run v = .ok ((v.proc np).pid, s.withChild v cur np) := by
  rw [finishFork, Kernel.run_get_bind, modifyProc, Kernel.run_modify_bind, Kernel.run_pure,
    withChild, hcur]

theorem forkCOW_small {i : Nat} (hi : i < 1023) (habsent : (s.pde cur i).present = false)
    (hsz : (s.proc cur).sz < pgSize) : ∃ msg, (forkCOW cur np).run s = .error msg := by
  cases hrun : (forkCOW cur np).run s with
  | error msg => exact ⟨msg, rfl⟩
  | ok r =>
    simp only [forkCOW, Kernel.run_get_bind] at hrun
    obtain ⟨_, t, hloop, -⟩ := Kernel.run_bind_eq_ok.mp hrun
    have hmany := clearedPages_small hsz
    have hbound : clearedPages (s.proc cur).sz ≤ 2 ^ 20 := by
      simp only [clearedPages, npages, pgSize] at *
      omega
    have hpres := clearLoop_present (fun a ha => by
      rw [List.mem_range] at ha
      omega) hloop (i * 1024) (List.mem_range.mpr (by omega))
    rw [Nat.mul_div_cancel _ (by decide)] at hpres
    rw [pde, hpres] at habsent
    cases habsent

theorem run_forkCOW (hF : Forkable s cur) (hcn : cur ≠ np) (hsz : pgSize ≤ (s.proc cur).sz) :
    (s.free.length < 67 ∧ ∃ msg, (forkCOW cur np).run s = .error msg) ∨
      ∃ n t u d tb tabs f rest, n + 1 = s.pages cur ∧ WriteCleared s t cur n ∧
        DirCopied t u cur np n d tb tabs ∧ u.free = f :: rest ∧
        (forkCOW cur np).run s =
          .ok ((), u.withStackPage tb n f rest (t.word (t.frame cur n))) := by
  have hn : clearedPages (s.proc cur).sz + 1 = s.pages cur :=
    clearedPages_eq hsz (lt_of_le_of_lt hF.size (by decide))
  have hbound : clearedPages (s.proc cur).sz < 1024 * s.tables cur := by
    simp only [tables]
    omega
  obtain ⟨t, hloop, hclear⟩ := run_clearLoop hF (WriteCleared.zero s cur)
    (m := clearedPages (s.proc cur).sz) (by omega)
  rw [Nat.zero_add] at hclear
  rw [← List.range_eq_range'] at hloop
  have hstart : (forkCOW cur np).run s =
      (copystackpage (clearedPages (s.proc cur).sz * pgSize) cur np).run t := by
    rw [forkCOW, Kernel.run_get_bind]
    exact Kernel.run_bind_of_ok hloop
  have hpages : clearedPages (s.proc cur).sz < t.pages cur := by
    rw [(hclear.sameMaps cur).pages]
    omega
  have hfree : t.free = s.free := by rw [hclear.rest]
  rcases run_copystackpage (hclear.forkable hF) hcn hpages with
    ⟨hlen, msg, hrun⟩ | ⟨u, d, tb, tabs, f, rest, hdir, hufree, hrun⟩
  · exact Or.inl ⟨by rw [← hfree]; exact hlen, msg, by rw [hstart, hrun]⟩
  · exact Or.inr ⟨_, t, u, d, tb, tabs, f, rest, hn, hclear, hdir, hufree, by rw [hstart, hrun]⟩

end Fork

end Xv6
