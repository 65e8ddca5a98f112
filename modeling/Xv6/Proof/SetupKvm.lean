import Xv6.Proof.VmLemmas

/-!
# Building the kernel half of a directory

`setupkvm` fills a fresh directory with the kernel's mappings. `KernelDir` describes the directory
while it is being built: the tables allocated so far, by directory index, the part of the free list
they came from, and the address below which everything mapped so far lies.
-/

namespace Xv6

structure KernelDir (s0 s : Machine) (d : Nat) (tabs : List (Nat × Nat)) (top : Nat) : Prop where
  taken : s0.free = tabs.map Prod.snd ++ s.free
  index : ∀ e ∈ tabs, 512 ≤ e.1 ∧ e.1 < 1024
  nodup : (tabs.map Prod.fst).Nodup
  entry : ∀ e ∈ tabs, s.word d e.1 = mkEntry e.2 (pteP ||| pteW ||| pteU)
  absent : ∀ i < 1024, i ∉ tabs.map Prod.fst → s.word d i = 0
  user : ∀ e ∈ tabs, ∀ j < 1024, (s.word e.2 j).user = false
  mapped : ∀ e ∈ tabs, ∀ j < 1024, (s.word e.2 j).present = true → e.1 * 1024 + j < top
  other : ∀ f ≠ d, f ∉ tabs.map Prod.snd → s.word f = s0.word f
  rest : s = { s0 with word := s.word, free := s.free }

structure FreshPages (s0 : Machine) (d : Nat) : Prop where
  nodup : s0.free.Nodup
  dir : d ∉ s0.free
  lt : ∀ f ∈ s0.free, f < 2 ^ 20

theorem mkEntry_table_eq (page : Nat) :
    mkEntry page (pteP ||| pteW ||| pteU) = mkEntry page (pteW ||| pteU ||| pteP) := by
  congr 1

section

variable {s0 s : Machine} {d : Nat} {tabs : List (Nat × Nat)} {top : Nat}

theorem KernelDir.mono (h : KernelDir s0 s d tabs top) {top' : Nat} (hle : top ≤ top') :
    KernelDir s0 s d tabs top' :=
  { h with mapped := fun e he j hj hpres => lt_of_lt_of_le (h.mapped e he j hj hpres) hle }

theorem KernelDir.mem_free (h : KernelDir s0 s d tabs top) {e : Nat × Nat} (he : e ∈ tabs) :
    e.2 ∈ s0.free := by
  rw [h.taken]
  exact List.mem_append_left _ (List.mem_map_of_mem he)

theorem KernelDir.ne_dir (h : KernelDir s0 s d tabs top) (hf : FreshPages s0 d) {e : Nat × Nat}
    (he : e ∈ tabs) : e.2 ≠ d :=
  fun heq => hf.dir (heq ▸ h.mem_free he)

theorem KernelDir.table_injective (h : KernelDir s0 s d tabs top) (hf : FreshPages s0 d)
    {e e' : Nat × Nat} (he : e ∈ tabs) (he' : e' ∈ tabs) (heq : e.2 = e'.2) : e = e' := by
  have hnodup : (tabs.map Prod.snd).Nodup := by
    have := hf.nodup
    rw [h.taken] at this
    exact (List.nodup_append.mp this).1
  exact List.inj_on_of_nodup_map hnodup he he' heq

theorem KernelDir.dir_entry (h : KernelDir s0 s d tabs top) (hf : FreshPages s0 d)
    {e : Nat × Nat} (he : e ∈ tabs) :
    (s.word d e.1).present = true ∧ pteAddr (s.word d e.1) = e.2 := by
  rw [h.entry e he, mkEntry_table_eq]
  exact ⟨present_mkEntry, pteAddr_mkEntry_user (hf.lt _ (h.mem_free he))⟩

theorem KernelDir.setEntry (h : KernelDir s0 s d tabs top) (hf : FreshPages s0 d)
    {e : Nat × Nat} (he : e ∈ tabs) {j : Nat} {w : Word} (huser : w.user = false)
    (htop : e.1 * 1024 + j = top) : KernelDir s0 (s.setWord e.2 j w) d tabs (top + 1) where
  taken := h.taken
  index := h.index
  nodup := h.nodup
  entry e' he' := by
    rw [Machine.setWord_word_of_ne _ _ _ (h.ne_dir hf he).symm]
    exact h.entry e' he'
  absent i hi hnot := by
    rw [Machine.setWord_word_of_ne _ _ _ (h.ne_dir hf he).symm]
    exact h.absent i hi hnot
  user e' he' j' hj' := by
    by_cases heq : e'.2 = e.2
    · by_cases hj : j' = j
      · rw [heq, hj, Machine.setWord_word_self]
        exact huser
      · rw [Machine.setWord_word_index _ _ _ _ hj]
        exact h.user e' he' j' hj'
    · rw [Machine.setWord_word_of_ne _ _ _ heq]
      exact h.user e' he' j' hj'
  mapped e' he' j' hj' hpres := by
    by_cases hsame : e'.2 = e.2 ∧ j' = j
    · have : e' = e := h.table_injective hf he' he hsame.1
      rw [this, hsame.2]
      omega
    · have hold : (s.word e'.2 j').present = true := by
        by_cases heq : e'.2 = e.2
        · rwa [Machine.setWord_word_index _ _ _ _ fun hj => hsame ⟨heq, hj⟩] at hpres
        · rwa [Machine.setWord_word_of_ne _ _ _ heq] at hpres
      have := h.mapped e' he' j' hj' hold
      omega
  other f hfd hnot := by
    rw [Machine.setWord_word_of_ne]
    · exact h.other f hfd hnot
    · rintro rfl
      exact hnot (List.mem_map_of_mem he)
  rest := by
    rw [h.rest]
    rfl

theorem KernelDir.addTable (h : KernelDir s0 s d tabs top) (hf : FreshPages s0 d) {i t : Nat}
    {rest : List Nat} (hi : 512 ≤ i ∧ i < 1024) (hnew : i ∉ tabs.map Prod.fst)
    (hfree : s.free = t :: rest) :
    KernelDir s0
      (({ s with free := rest }.setPage t fun _ => 0).setWord d i
        (mkEntry t (pteP ||| pteW ||| pteU))) d (tabs ++ [(i, t)]) top := by
  have hmem : t ∈ s0.free := by
    rw [h.taken, hfree]
    simp
  have htd : t ≠ d := fun heq => hf.dir (heq ▸ hmem)
  have hfresh : t ∉ tabs.map Prod.snd := by
    intro hmem'
    have hnodup := hf.nodup
    rw [h.taken, hfree] at hnodup
    exact (List.nodup_append.mp hnodup).2.2 t hmem' t List.mem_cons_self rfl
  have hword : ∀ f ≠ t, f ≠ d → (({ s with free := rest }.setPage t fun _ => 0).setWord d i
      (mkEntry t (pteP ||| pteW ||| pteU))).word f = s.word f := by
    intro f hft hfd
    rw [Machine.setWord_word_of_ne _ _ _ hfd, Machine.setPage_word_of_ne _ _ hft]
  have htable : (({ s with free := rest }.setPage t fun _ => 0).setWord d i
      (mkEntry t (pteP ||| pteW ||| pteU))).word t = fun _ => 0 := by
    rw [Machine.setWord_word_of_ne _ _ _ htd, Machine.setPage_word_self]
  have hdir : ∀ i' ≠ i, (({ s with free := rest }.setPage t fun _ => 0).setWord d i
      (mkEntry t (pteP ||| pteW ||| pteU))).word d i' = s.word d i' := by
    intro i' hne
    rw [Machine.setWord_word_index _ _ _ _ hne, Machine.setPage_word_of_ne _ _ htd.symm]
  have hold : ∀ e ∈ tabs, e.2 ≠ t := by
    rintro e he rfl
    exact hfresh (List.mem_map_of_mem he)
  refine ⟨?_, ?_, ?_, ?_, ?_, ?_, ?_, ?_, ?_⟩
  · rw [h.taken, hfree]
    simp
  · intro e he
    rcases List.mem_append.mp he with he | he
    · exact h.index e he
    · rw [List.mem_singleton.mp he]
      exact hi
  · rw [List.map_append, List.nodup_append]
    refine ⟨h.nodup, by simp, ?_⟩
    rintro a ha b hb rfl
    simp only [List.map_cons, List.map_nil, List.mem_singleton] at hb
    exact hnew (hb ▸ ha)
  · intro e he
    rcases List.mem_append.mp he with he | he
    · have hne : e.1 ≠ i := fun heq => hnew (heq ▸ List.mem_map_of_mem he)
      rw [hdir _ hne]
      exact h.entry e he
    · rw [List.mem_singleton.mp he, Machine.setWord_word_self]
  · intro i' hi' hnot
    simp only [List.map_append, List.map_cons, List.map_nil, List.mem_append, List.mem_singleton,
      not_or] at hnot
    rw [hdir _ hnot.2]
    exact h.absent i' hi' hnot.1
  · intro e he j hj
    rcases List.mem_append.mp he with he | he
    · rw [hword _ (hold e he) (h.ne_dir hf he)]
      exact h.user e he j hj
    · rw [List.mem_singleton.mp he, htable]
      simp [Word.user]
  · intro e he j hj hpres
    rcases List.mem_append.mp he with he | he
    · rw [hword _ (hold e he) (h.ne_dir hf he)] at hpres
      exact h.mapped e he j hj hpres
    · rw [List.mem_singleton.mp he, htable] at hpres
      simp [Word.present] at hpres
  · intro f hfd hnot
    simp only [List.map_append, List.map_cons, List.map_nil, List.mem_append, List.mem_singleton,
      not_or] at hnot
    rw [hword f hnot.2 hfd]
    exact h.other f hfd hnot.1
  · rw [h.rest]
    rfl

end

theorem pdx_page {v : Nat} (hv : v < 2 ^ 20) : pdx (v * pgSize) = v / 1024 := by
  simp only [pdx, pgSize]
  omega

theorem ptx_page (v : Nat) : ptx (v * pgSize) = v % 1024 := by
  simp only [ptx, pgSize]
  omega

theorem user_kernelEntry {pa : Nat} {perm : Word} (hpa : pa % pgSize = 0)
    (hperm : perm.user = false) :
    Word.user (BitVec.ofNat 32 pa ||| perm ||| pteP) = false := by
  obtain ⟨k, rfl⟩ : ∃ k, pa = k * pgSize := ⟨pa / pgSize, by simp only [pgSize] at *; omega⟩
  have hentry : BitVec.ofNat 32 (k * pgSize) ||| perm ||| pteP = mkEntry k (perm ||| pteP) := by
    rw [mkEntry, BitVec.or_assoc]
  rw [hentry, Word.user, getLsbD_mkEntry (by decide), BitVec.getLsbD_or]
  simp only [Word.user] at hperm
  rw [hperm]
  decide

theorem mapPage_kernel {s0 s : Machine} {d : Nat} {tabs : List (Nat × Nat)} {v pa : Nat}
    {perm : Word} (h : KernelDir s0 s d tabs v) (hf : FreshPages s0 d)
    (hlow : 512 * 1024 ≤ v) (hhigh : v < 2 ^ 20) (hpa : pa % pgSize = 0)
    (hperm : perm.user = false) :
    (s.free = [] ∧ v / 1024 ∉ tabs.map Prod.fst ∧
        (mapPage d (v * pgSize) pa perm).run s = .ok (false, s)) ∨
      ∃ s' tabs', (mapPage d (v * pgSize) pa perm).run s = .ok (true, s') ∧
        KernelDir s0 s' d (tabs ++ tabs') (v + 1) ∧
        (tabs' = [] ∧ v / 1024 ∈ tabs.map Prod.fst ∨
          v / 1024 ∉ tabs.map Prod.fst ∧ ∃ t, tabs' = [(v / 1024, t)]) := by
  have hv : v / 1024 * 1024 + v % 1024 = v := by omega
  have hidx : 512 ≤ v / 1024 ∧ v / 1024 < 1024 := by omega
  have huser := user_kernelEntry hpa hperm
  rw [← pdx_page hhigh, ← ptx_page v] at hv
  rw [← pdx_page hhigh] at hidx ⊢
  by_cases hmem : pdx (v * pgSize) ∈ tabs.map Prod.fst
  · -- the table is there and has no entry for the page yet
    obtain ⟨e, he, heidx⟩ := List.mem_map.mp hmem
    obtain ⟨hpres, haddr⟩ := h.dir_entry hf he
    rw [heidx] at hpres haddr
    have hentry : (s.word e.2 (ptx (v * pgSize))).present = false := by
      cases hp : (s.word e.2 (ptx (v * pgSize))).present with
      | false => rfl
      | true =>
        have hlt := h.mapped e he (ptx (v * pgSize)) (Nat.mod_lt _ (by decide)) hp
        rw [heidx, hv] at hlt
        exact absurd hlt (lt_irrefl v)
    refine Or.inr ⟨_, [], run_mapPage_present hpres haddr hentry, ?_, Or.inl ⟨rfl, hmem⟩⟩
    rw [List.append_nil]
    exact h.setEntry hf he huser (by rw [heidx]; exact hv)
  · have habsent : (s.word d (pdx (v * pgSize))).present = false := by
      rw [h.absent _ hidx.2 hmem]
      exact present_zero
    cases hfree : s.free with
    | nil => exact Or.inl ⟨rfl, hmem, run_mapPage_noFree habsent hfree⟩
    | cons t rest =>
      have hadd := h.addTable hf hidx hmem hfree
      have hnew : (pdx (v * pgSize), t) ∈ tabs ++ [(pdx (v * pgSize), t)] := by simp
      refine Or.inr ⟨_, [(pdx (v * pgSize), t)],
        run_mapPage_newTable habsent hfree (hadd.ne_dir hf hnew), ?_, Or.inr ⟨hmem, t, rfl⟩⟩
      exact hadd.setEntry hf hnew huser hv

/-- The result of mapping kernel pages up to `top`. A failure means that the free list ran out with
a table still missing. -/
structure MapOutcome (s0 s' : Machine) (d : Nat) (tabs : List (Nat × Nat)) (first top : Nat)
    (ok : Bool) (tabs' : List (Nat × Nat)) : Prop where
  dir : KernelDir s0 s' d (tabs ++ tabs') top
  new : ∀ e ∈ tabs', ∃ u, first ≤ u ∧ u < top ∧ e.1 = u / 1024
  covered : ok = true → ∀ u, first ≤ u → u < top → u / 1024 ∈ (tabs ++ tabs').map Prod.fst
  failed : ok = false → s'.free = [] ∧
    ∃ u, first ≤ u ∧ u < top ∧ u / 1024 ∉ (tabs ++ tabs').map Prod.fst

theorem mapRun_kernel {s0 : Machine} {d : Nat} (hf : FreshPages s0 d) {perm : Word}
    (hperm : perm.user = false) {n : Nat} {s : Machine} {tabs : List (Nat × Nat)} {v pa : Nat}
    (h : KernelDir s0 s d tabs v) (hlow : 512 * 1024 ≤ v) (hhigh : v + n ≤ 2 ^ 20)
    (hpa : pa % pgSize = 0) :
    ∃ ok s' tabs', (mapRun d (v * pgSize % 2 ^ 32) pa perm n).run s = .ok (ok, s') ∧
      MapOutcome s0 s' d tabs v (v + n) ok tabs' := by
  induction n generalizing s tabs v pa with
  | zero =>
    refine ⟨true, s, [], rfl, ?_, by simp, fun _ u hle hlt => by omega, by simp⟩
    simpa using h
  | succ n ih =>
    have hva : v * pgSize % 2 ^ 32 = v * pgSize := by
      simp only [pgSize]
      omega
    have hnext : (v * pgSize + pgSize) % 2 ^ 32 = (v + 1) * pgSize % 2 ^ 32 := by
      rw [Nat.add_mul, Nat.one_mul]
    have hpa' : (pa + pgSize) % 2 ^ 32 % pgSize = 0 := by
      simp only [pgSize] at *
      omega
    rw [mapRun, hva]
    rcases mapPage_kernel h hf hlow (by omega) hpa hperm with
      ⟨hnone, hmiss, hrun⟩ | ⟨s1, tabs1, hrun, hdir, hcase⟩
    · refine ⟨false, s, [], ?_, ?_, by simp, by simp, fun _ => ⟨hnone, v, le_rfl, by omega, ?_⟩⟩
      · rw [Kernel.run_bind_of_ok hrun]
        rfl
      · rw [List.append_nil]
        exact h.mono (by omega)
      · simpa using hmiss
    · have hfirst : v / 1024 ∈ (tabs ++ tabs1).map Prod.fst := by
        rcases hcase with ⟨-, hmem⟩ | ⟨-, t, rfl⟩
        · rw [List.map_append]
          exact List.mem_append_left _ hmem
        · simp
      have hnew1 : ∀ e ∈ tabs1, e.1 = v / 1024 := by
        intro e he
        rcases hcase with ⟨rfl, -⟩ | ⟨-, t, rfl⟩
        · simp at he
        · rw [List.mem_singleton.mp he]
      obtain ⟨ok, s', tabs', hrun', hout⟩ := ih hdir (by omega) (by omega) hpa'
      refine ⟨ok, s', tabs1 ++ tabs', ?_, ?_, ?_, ?_, ?_⟩
      · rw [Kernel.run_bind_of_ok hrun, if_pos rfl, hnext]
        exact hrun'
      · rw [← List.append_assoc, show v + (n + 1) = v + 1 + n by omega]
        exact hout.dir
      · intro e he
        rcases List.mem_append.mp he with he | he
        · exact ⟨v, le_rfl, by omega, hnew1 e he⟩
        · obtain ⟨u, hle, hlt, heq⟩ := hout.new e he
          exact ⟨u, by omega, by omega, heq⟩
      · intro hok u hle hlt
        rw [← List.append_assoc]
        by_cases hu : u = v
        · rw [hu, List.map_append]
          exact List.mem_append_left _ hfirst
        · exact hout.covered hok u (by omega) (by omega)
      · intro hok
        obtain ⟨hnil, u, hle, hlt, hmiss⟩ := hout.failed hok
        rw [← List.append_assoc]
        exact ⟨hnil, u, by omega, by omega, hmiss⟩

theorem mappages_kernel {s0 s : Machine} {d : Nat} (hf : FreshPages s0 d) {perm : Word}
    (hperm : perm.user = false) {tabs : List (Nat × Nat)} {v n pa : Nat}
    (h : KernelDir s0 s d tabs v) (hlow : 512 * 1024 ≤ v) (hpos : 0 < n) (hhigh : v + n ≤ 2 ^ 20)
    (hpa : pa % pgSize = 0) :
    ∃ ok s' tabs', (mappages d (v * pgSize) (n * pgSize) pa perm).run s = .ok (ok, s') ∧
      MapOutcome s0 s' d tabs v (v + n) ok tabs' := by
  have hva : v * pgSize = v * pgSize % 2 ^ 32 := by
    simp only [pgSize]
    omega
  have hcount : ((v * pgSize + n * pgSize + 2 ^ 32 - 1) % 2 ^ 32 / pgSize + 2 ^ 20 - v) %
      2 ^ 20 + 1 = n := by
    simp only [pgSize]
    omega
  rw [mappages_eq_mapRun d pa perm (by omega) hcount, hva]
  exact mapRun_kernel hf hperm h hlow hhigh hpa

structure KmapRegion (k : Kmap) (v n : Nat) : Prop where
  virt : k.virt = v * pgSize
  size : k.size = n * pgSize
  aligned : k.physStart % pgSize = 0
  perm : k.perm.user = false
  pos : 0 < n

def Ascending : Nat → List (Nat × Nat) → Prop
  | v, [] => v ≤ 2 ^ 20
  | v, r :: rest => v ≤ r.1 ∧ Ascending (r.1 + r.2) rest

theorem Ascending.le {v : Nat} {regions : List (Nat × Nat)} (h : Ascending v regions) :
    v ≤ 2 ^ 20 := by
  induction regions generalizing v with
  | nil => exact h
  | cons r rest ih => exact h.1.trans ((Nat.le_add_right _ _).trans (ih h.2))

def InRegions (regions : List (Nat × Nat)) (u : Nat) : Prop :=
  ∃ r ∈ regions, r.1 ≤ u ∧ u < r.1 + r.2

theorem mapKernel_spec {s0 : Machine} {d : Nat} (hf : FreshPages s0 d) {ks : List Kmap}
    {regions : List (Nat × Nat)} {s : Machine} {tabs : List (Nat × Nat)} {v : Nat}
    (hks : List.Forall₂ (fun k r => KmapRegion k r.1 r.2) ks regions)
    (hasc : Ascending v regions) (hlow : 512 * 1024 ≤ v) (h : KernelDir s0 s d tabs v) :
    ∃ ok s' tabs', (mapKernel d ks).run s = .ok (ok, s') ∧
      KernelDir s0 s' d (tabs ++ tabs') (2 ^ 20) ∧
      (∀ e ∈ tabs', ∃ u, InRegions regions u ∧ e.1 = u / 1024) ∧
      (ok = true → ∀ u, InRegions regions u → u / 1024 ∈ (tabs ++ tabs').map Prod.fst) ∧
      (ok = false → s'.free = [] ∧
        ∃ u, InRegions regions u ∧ u / 1024 ∉ (tabs ++ tabs').map Prod.fst) := by
  induction hks generalizing s tabs v with
  | nil =>
    refine ⟨true, s, [], rfl, ?_, by simp, by simp [InRegions], by simp⟩
    rw [List.append_nil]
    exact h.mono hasc
  | @cons k r ks regions hk _ ih =>
    have hend := hasc.2.le
    have hasc1 := hasc.1
    obtain ⟨ok, s1, tabs1, hrun1, hout⟩ := mappages_kernel hf hk.perm (h.mono hasc.1)
      (by omega) hk.pos hend hk.aligned
    rw [← hk.virt, ← hk.size, ← mapRegion] at hrun1
    rw [mapKernel]
    cases ok with
    | false =>
      obtain ⟨hnil, u, hle, hlt, hmiss⟩ := hout.failed rfl
      rw [Kernel.run_allM_cons_false hrun1]
      refine ⟨false, s1, tabs1, rfl, hout.dir.mono hend, ?_, by simp, fun _ => ⟨hnil, u,
        ⟨r, List.mem_cons_self, hle, hlt⟩, hmiss⟩⟩
      intro e he
      obtain ⟨u, hle, hlt, heq⟩ := hout.new e he
      exact ⟨u, ⟨r, List.mem_cons_self, hle, hlt⟩, heq⟩
    | true =>
      obtain ⟨ok, s', tabs', hrun', hdir, hnew, hcovered, hfailed⟩ :=
        ih hasc.2 (by omega) hout.dir
      rw [mapKernel] at hrun'
      rw [Kernel.run_allM_cons_true hrun1]
      refine ⟨ok, s', tabs1 ++ tabs', hrun', ?_, ?_, ?_, ?_⟩
      · rw [← List.append_assoc]
        exact hdir
      · intro e he
        rcases List.mem_append.mp he with he | he
        · obtain ⟨u, hle, hlt, heq⟩ := hout.new e he
          exact ⟨u, ⟨r, List.mem_cons_self, hle, hlt⟩, heq⟩
        · obtain ⟨u, ⟨r', hr', hu⟩, heq⟩ := hnew e he
          exact ⟨u, ⟨r', List.mem_cons_of_mem _ hr', hu⟩, heq⟩
      · rintro hok u ⟨r', hr', hle, hlt⟩
        rw [← List.append_assoc]
        rcases List.mem_cons.mp hr' with rfl | hr'
        · rw [List.map_append]
          exact List.mem_append_left _ (hout.covered rfl u hle hlt)
        · exact hcovered hok u ⟨r', hr', hle, hlt⟩
      · intro hok
        obtain ⟨hnil, u, ⟨r', hr', hu⟩, hmiss⟩ := hfailed hok
        rw [← List.append_assoc]
        exact ⟨hnil, u, ⟨r', List.mem_cons_of_mem _ hr', hu⟩, hmiss⟩

def kernelIndices : List Nat := List.range' 512 56 ++ List.range' 1016 8

def kernelRegions (kdata : Nat) : List (Nat × Nat) :=
  [(512 * 1024, 256), (512 * 1024 + 256, kdata - 256), (512 * 1024 + kdata, 57344 - kdata),
    (1016 * 1024, 8192)]

theorem kmap_regions {kdata : Nat} (h : extMem < kdata * pgSize ∧ kdata * pgSize < physTop) :
    List.Forall₂ (fun k r => KmapRegion k r.1 r.2) (kmap kdata) (kernelRegions kdata) := by
  have hk : 256 < kdata ∧ kdata < 57344 := by
    simp only [extMem, physTop, pgSize] at h
    omega
  have hsize : ∀ {k : Kmap} {m n : Nat}, n ≤ m → m < 2 ^ 20 → k.physEnd = m * pgSize →
      k.physStart = n * pgSize → k.size = (m - n) * pgSize := by
    intro k m n hle hlt hend hstart
    rw [Kmap.size, hend, hstart]
    simp only [pgSize]
    omega
  have hio : KmapRegion ⟨kernBase, 0, extMem, pteW⟩ (512 * 1024) 256 :=
    ⟨by simp [kernBase, pgSize], by simp [Kmap.size, extMem, pgSize], by simp [pgSize], by decide,
      by decide⟩
  have htext : KmapRegion ⟨kernLink, extMem, kdata * pgSize, 0⟩ (512 * 1024 + 256) (kdata - 256) :=
    ⟨by simp [kernLink, kernBase, extMem, pgSize],
      hsize (by omega) (by omega) rfl (by simp [extMem, pgSize]), by simp [extMem, pgSize],
      by simp [Word.user], by omega⟩
  have hdata : KmapRegion ⟨kernBase + kdata * pgSize, kdata * pgSize, physTop, pteW⟩
      (512 * 1024 + kdata) (57344 - kdata) := by
    refine ⟨?_, hsize (by omega) (by omega) (by simp [physTop, pgSize]) rfl, by simp,
      by simp [Word.user, pteW], by omega⟩
    simp only [kernBase, pgSize]
    omega
  have hdev : KmapRegion ⟨devSpace, devSpace, 0, pteW⟩ (1016 * 1024) 8192 :=
    ⟨by simp [devSpace, pgSize], by simp [Kmap.size, devSpace, pgSize],
      by simp [devSpace, pgSize], by decide, by decide⟩
  exact .cons hio (.cons htext (.cons hdata (.cons hdev .nil)))

theorem kernelRegions_ascending {kdata : Nat} (h : 256 < kdata ∧ kdata < 57344) :
    Ascending (512 * 1024) (kernelRegions kdata) := by
  simp only [kernelRegions, Ascending]
  omega

theorem mem_kernelIndices {i : Nat} :
    i ∈ kernelIndices ↔ 512 ≤ i ∧ i < 568 ∨ 1016 ≤ i ∧ i < 1024 := by
  simp [kernelIndices, List.mem_range'_1]

theorem inRegions_iff {kdata u : Nat} (h : 256 < kdata ∧ kdata < 57344) :
    InRegions (kernelRegions kdata) u ↔ u / 1024 ∈ kernelIndices := by
  rw [mem_kernelIndices]
  simp only [InRegions, kernelRegions, List.mem_cons, List.not_mem_nil, or_false, exists_eq_or_imp,
    exists_eq_left]
  omega

theorem run_setupkvm_cons {s s' : Machine} {d : Nat} {rest : List Nat} {ok : Bool}
    (hfree : s.free = d :: rest)
    (hrun : (mapKernel d (kmap s.kdata)).run ({ s with free := rest }.setPage d fun _ => 0) =
      .ok (ok, s')) :
    setupkvm.run s = .ok (if ok then some d else none, s') := by
  rw [setupkvm, Kernel.run_bind_of_ok (run_kalloc_cons hfree)]
  change (fillKernel d).run _ = _
  rw [fillKernel, clearPage, Kernel.run_modify_bind, Kernel.run_get_bind, Machine.setPage_kdata,
    Kernel.run_bind_of_ok hrun, Kernel.run_pure]

theorem setupkvm_spec {s : Machine}
    (hkdata : extMem < s.kdata * pgSize ∧ s.kdata * pgSize < physTop) (hnodup : s.free.Nodup)
    (hlt : ∀ f ∈ s.free, f < 2 ^ 20) :
    (s.free.length < 65 ∧ ∃ s', setupkvm.run s = .ok (none, s') ∧ s'.proc = s.proc ∧
        s'.kend = s.kend ∧ ∀ f, f ∉ s.free → s'.word f = s.word f) ∨
      ∃ d rest s' tabs, s.free = d :: rest ∧ setupkvm.run s = .ok (some d, s') ∧
        KernelDir { s with free := rest } s' d tabs (2 ^ 20) ∧
        (∀ i, i ∈ tabs.map Prod.fst ↔ i ∈ kernelIndices) ∧ tabs.length = 64 := by
  have hk : 256 < s.kdata ∧ s.kdata < 57344 := by
    simp only [extMem, physTop, pgSize] at hkdata
    omega
  cases hfree : s.free with
  | nil =>
    refine Or.inl ⟨by simp, s, ?_, rfl, rfl, fun _ _ => rfl⟩
    rw [setupkvm, Kernel.run_bind_of_ok (run_kalloc_nil hfree)]
    rfl
  | cons d rest =>
    rw [hfree] at hnodup hlt
    set s0 : Machine := { s with free := rest } with hs0
    have hf : FreshPages s0 d := ⟨(List.nodup_cons.mp hnodup).2, (List.nodup_cons.mp hnodup).1,
      fun f hf => hlt f (List.mem_cons_of_mem d hf)⟩
    have hstart : KernelDir s0 (s0.setPage d fun _ => 0) d [] (512 * 1024) :=
      ⟨by simp, by simp, by simp, by simp, fun i _ _ => by simp, by simp, by simp,
        fun f hfd _ => Machine.setPage_word_of_ne _ _ hfd, rfl⟩
    obtain ⟨ok, s', tabs, hrun, hdir, hnew, hcovered, hfailed⟩ :=
      mapKernel_spec hf (kmap_regions hkdata) (kernelRegions_ascending hk) le_rfl hstart
    rw [List.nil_append] at hdir hcovered hfailed
    have hsub : ∀ i ∈ tabs.map Prod.fst, i ∈ kernelIndices := by
      intro i hi
      obtain ⟨e, he, rfl⟩ := List.mem_map.mp hi
      obtain ⟨u, hu, heq⟩ := hnew e he
      rw [heq]
      exact (inRegions_iff hk).mp hu
    have hwhole := run_setupkvm_cons hfree hrun
    have hlen : tabs.length = (tabs.map Prod.fst).length := (List.length_map _).symm
    cases ok with
    | false =>
      obtain ⟨hnil, u, hu, hmiss⟩ := hfailed rfl
      have hcount : (u / 1024 :: tabs.map Prod.fst).length ≤ kernelIndices.length := by
        apply List.Subperm.length_le
        apply List.Nodup.subperm (List.nodup_cons.mpr ⟨hmiss, hdir.nodup⟩)
        intro i hi
        rcases List.mem_cons.mp hi with rfl | hi
        · exact (inRegions_iff hk).mp hu
        · exact hsub i hi
      have htaken : rest.length = tabs.length := by
        have h := hdir.taken
        rw [hnil, List.append_nil] at h
        rw [show rest = s0.free from rfl, h, List.length_map]
      simp only [List.length_cons, List.length_map, kernelIndices, List.length_append,
        List.length_range'] at hcount
      refine Or.inl ⟨by simp only [List.length_cons]; omega, s', hwhole, ?_, ?_, ?_⟩
      · rw [hdir.rest]
      · rw [hdir.rest]
      · intro f hf'
        simp only [List.mem_cons, not_or] at hf'
        apply hdir.other f hf'.1
        intro hmem
        apply hf'.2
        have h := hdir.taken
        rw [show rest = s0.free from rfl, h]
        exact List.mem_append_left _ hmem
    | true =>
      have hiff : ∀ i, i ∈ tabs.map Prod.fst ↔ i ∈ kernelIndices := by
        intro i
        refine ⟨hsub i, fun hi => ?_⟩
        have hu : InRegions (kernelRegions s.kdata) (i * 1024) := by
          rw [inRegions_iff hk, Nat.mul_div_cancel _ (by decide)]
          exact hi
        have h := hcovered rfl _ hu
        rwa [Nat.mul_div_cancel _ (by decide)] at h
      have hperm : (tabs.map Prod.fst).Perm kernelIndices :=
        (List.perm_ext_iff_of_nodup hdir.nodup (by decide)).mpr hiff
      refine Or.inr ⟨d, rest, s', tabs, rfl, hwhole, hdir, hiff, ?_⟩
      rw [hlen, hperm.length_eq]
      rfl

end Xv6
