import Xv6.Proof.Fork

/-!
# The layout after a fork

A copy-on-write fork takes a kernel stack, a directory, the kernel's tables, one page table and one
page from the free list. Outside the free list it changes status bits only, so the other processes
keep their layout, and the child's directory leads to the parent's tables and pages except for the
last one.
-/

namespace Xv6

open Machine

/-- What a copy-on-write fork leaves, in terms of the state before it. The pages are the child's
kernel stack `kstack`, its directory `d`, the kernel's tables `tabs`, and the copies `tb` and `f` of
the table and the page with number `n`. -/
structure ChildCopied (s s' : Machine) (cur np : Fin nproc) (n kstack d tb f : Nat)
    (tabs : List (Nat × Nat)) : Prop where
  last : n + 1 = s.pages cur
  slot : (s.proc np).state = .unused
  taken : s.free = kstack :: d :: (tabs.map Prod.snd ++ tb :: f :: s'.free)
  kend : s'.kend = s.kend
  kdata : s'.kdata = s.kdata
  proc : ∀ p ≠ np, s'.proc p = s.proc p
  child : s'.proc np = { s.proc np with
    sz := (s.proc cur).sz, pgdir := d, kstack := kstack, state := .runnable, pid := s.nextpid,
    parent := some cur, name := (s.proc cur).name }
  same : ∀ g, g ∉ s.free → ∀ j, SameEntry (s'.word g j) (s.word g j)
  low : ∀ i < 511, i ≠ n / 1024 → SameEntry (s'.word d i) (s.pde cur i)
  lastTable : s'.word d (n / 1024) = mkEntry tb (pteW ||| pteU ||| pteP)
  mid : (s'.word d 511).present = (s.pde cur 511).present
  high : ∀ i, 512 ≤ i → i < 1024 → (s'.word d i).present = true →
    ∃ e ∈ tabs, e.1 = i ∧ pteAddr (s'.word d i) = e.2
  ktab : ∀ e ∈ tabs, ∀ j < 1024, (s'.word e.2 j).user = false
  table : ∀ j ≠ n % 1024, SameEntry (s'.word tb j) (s.word (s.tab cur (n / 1024)) j)
  lastPage : s'.word tb (n % 1024) = mkEntry f (pteW ||| pteU ||| pteP)
  /-- The child's copy of the table has the entries the parent's has now. -/
  shared : ∀ j ≠ n % 1024, s'.word tb j = s'.word (s.tab cur (n / 1024)) j
  dirs : ∀ i < 511, i ≠ n / 1024 → s'.word d i = s'.pde cur i
  cleared : ∀ a < n, s'.pte cur a = s.pte cur a &&& ~~~pteW
  clearedDir : ∀ i < n / 1024, s'.pde cur i = s.pde cur i &&& ~~~pteW
  other : ∀ g, g ∉ s.free → g ≠ (s.proc cur).pgdir →
    (∀ i < s.tables cur, g ≠ s.tab cur i) → s'.word g = s.word g
  content : s'.word f = s.word (s.frame cur n)
  count : tabs.length = 64

section Child

variable {s s' : Machine} {role : Nat → Role} {H : Fin nproc → Prop} {cur np : Fin nproc}

theorem Machine.withStackPage_word (u : Machine) {tb n f g : Nat} (rest : List Nat)
    (content : Nat → Word) (hgt : g ≠ tb) (hgf : g ≠ f) :
    (u.withStackPage tb n f rest content).word g = u.word g := by
  rw [withStackPage, setWord_word_of_ne _ _ _ hgt, setPage_word_of_ne _ _ hgf]

theorem Machine.withStackPage_table (u : Machine) {tb n f j : Nat} (rest : List Nat)
    (content : Nat → Word) (htbf : tb ≠ f) (hj : j ≠ n % 1024) :
    (u.withStackPage tb n f rest content).word tb j = u.word tb j := by
  rw [withStackPage, setWord_word_index _ _ _ _ hj, setPage_word_of_ne _ _ htbf]

section Cleared

variable {t : Machine} {n kstack : Nat} {rest0 : List Nat}

theorem WriteCleared.proc_eq (h : WriteCleared (s.allocated np kstack rest0) t cur n)
    {p : Fin nproc} (hp : p ≠ np) : t.proc p = s.proc p := by
  rw [h.proc, allocated_proc_of_ne hp]

theorem WriteCleared.pde_same (h : WriteCleared (s.allocated np kstack rest0) t cur n)
    (hcn : cur ≠ np) (i : Nat) : SameEntry (t.pde cur i) (s.pde cur i) := by
  rw [Machine.pde, h.proc_eq hcn]
  exact h.sameEntry _ i

theorem WriteCleared.tab_eq (h : WriteCleared (s.allocated np kstack rest0) t cur n)
    (hcn : cur ≠ np) (i : Nat) : t.tab cur i = s.tab cur i :=
  (h.pde_same hcn i).1

theorem allocated_tab (hcn : cur ≠ np) (i : Nat) :
    (s.allocated np kstack rest0).tab cur i = s.tab cur i := by
  rw [tab, pde, allocated_proc_of_ne hcn]
  rfl

theorem WriteCleared.pte_eq (h : WriteCleared (s.allocated np kstack rest0) t cur n)
    (hcn : cur ≠ np) {a : Nat} (ha : a < n) (hap : a < s.pages cur) :
    t.word (s.tab cur (a / 1024)) (a % 1024) = s.pte cur a &&& ~~~pteW := by
  have hpte := h.pte a (by rw [pages, allocated_proc_of_ne hcn]; exact hap)
  rw [if_pos ha, Machine.pte, h.tab_eq hcn, Machine.pte, allocated_tab hcn] at hpte
  exact hpte

theorem WriteCleared.pde_eq (h : WriteCleared (s.allocated np kstack rest0) t cur n)
    (hcn : cur ≠ np) {i : Nat} (hi : i < n / 1024) : t.pde cur i = s.pde cur i &&& ~~~pteW := by
  have hpde := h.pde (i * 1024) (by omega)
  rw [Nat.mul_div_cancel _ (by decide), Machine.pde, Machine.pde,
    allocated_proc_of_ne hcn] at hpde
  exact hpde

theorem WriteCleared.word_eq (h : WriteCleared (s.allocated np kstack rest0) t cur n)
    (hcn : cur ≠ np) {g : Nat} (hgd : g ≠ (s.proc cur).pgdir)
    (hgt : ∀ i < s.tables cur, g ≠ s.tab cur i) : t.word g = s.word g := by
  refine h.other g (by rw [allocated_proc_of_ne hcn]; exact hgd) fun i hi => ?_
  rw [allocated_tab hcn]
  rw [tables, pages, allocated_proc_of_ne hcn] at hi
  exact hgt i hi

end Cleared

theorem Forked.copied (hF : Forkable s cur) (hcn : cur ≠ np) (h : Forked s cur np s') :
    ∃ n kstack d tb f tabs, ChildCopied s s' cur np n kstack d tb f tabs := by
  cases h with
  | @mk t u n kstack d tb f tabs rest0 rest hslot hn hfree hclear hdir hlast =>
  have htaken : s.free = kstack :: d :: (tabs.map Prod.snd ++ tb :: f :: rest) := by
    have htfree : t.free = rest0 := by
      rw [hclear.rest]
      rfl
    rw [hfree, ← htfree, hdir.taken, hlast]
  have hdirs : (t.proc cur).pgdir = (s.proc cur).pgdir := by rw [hclear.proc_eq hcn]
  have hpde := hclear.pde_same hcn
  -- the pages taken are different from each other
  have hnodup := hF.nodup
  rw [htaken] at hnodup
  simp only [List.nodup_cons, List.mem_cons, List.mem_append, not_or, List.nodup_append,
    List.mem_map] at hnodup
  obtain ⟨-, ⟨-, hdtb, hdf, -⟩, -, ⟨⟨htbf, -⟩, -⟩, hdisj⟩ := hnodup
  set v := s.withChild (u.withStackPage tb n f rest (t.word (t.frame cur n))) cur np
  have hv : ∀ g ≠ tb, g ≠ f → v.word g = u.word g :=
    fun g hgt hgf => u.withStackPage_word rest _ hgt hgf
  have hvproc : ∀ p ≠ np, v.proc p = u.proc p := fun p hp => setProc_proc_of_ne _ _ hp
  have htab : ∀ j ≠ n % 1024, v.word tb j = u.word tb j :=
    fun j hj => u.withStackPage_table rest _ htbf hj
  -- pages in use before the fork are neither of the two copies
  have hold : ∀ g, g ∉ s.free → v.word g = u.word g ∧ g ∉ t.free := by
    intro g hg
    rw [htaken] at hg
    simp only [List.mem_cons, List.mem_append, not_or] at hg
    refine ⟨hv g hg.2.2.2.1 hg.2.2.2.2.1, ?_⟩
    rw [hdir.taken, hlast]
    simp only [List.mem_cons, List.mem_append, not_or]
    exact ⟨hg.2.1, hg.2.2.1, hg.2.2.2.1, hg.2.2.2.2.1, hg.2.2.2.2.2⟩
  have hother : ∀ g, g ∉ s.free → g ≠ (s.proc cur).pgdir → v.word g = t.word g := by
    intro g hg hgd
    rw [(hold g hg).1, hdir.other g (hold g hg).2 (by rw [hdirs]; exact hgd)]
  have hpdeu : ∀ i, v.pde cur i = u.pde cur i := by
    intro i
    have hudir : (u.proc cur).pgdir = (s.proc cur).pgdir := by rw [hdir.proc_of_ne hcn, hdirs]
    rw [pde, hvproc cur hcn, hudir, (hold _ hF.dir).1, pde, hudir]
  have hlastTable := hF.table (n / 1024) (tables_le_of_lt (by omega))
  refine ⟨n, kstack, d, tb, f, tabs, ?_⟩
  constructor
  case last => exact hn
  case slot => exact unusedSlot_spec hslot
  case taken => exact htaken
  case count => exact hdir.count
  case kend =>
    change u.kend = s.kend
    rw [hdir.rest]
    change t.kend = s.kend
    rw [hclear.rest]
    rfl
  case kdata =>
    change u.kdata = s.kdata
    rw [hdir.rest]
    change t.kdata = s.kdata
    rw [hclear.rest]
    rfl
  case proc =>
    intro p hp
    rw [hvproc p hp, hdir.proc_of_ne hp, hclear.proc_eq hp]
  case child =>
    have huproc : (u.withStackPage tb n f rest (t.word (t.frame cur n))).proc np =
        { s.proc np with state := .embryo, pid := s.nextpid, kstack := kstack, pgdir := d } := by
      change u.proc np = _
      rw [hdir.proc, Function.update_self, hclear.proc, allocated_proc_self]
    refine (setProc_proc_self ..).trans ?_
    rw [huproc]
  case same =>
    intro g hg j
    rw [(hold g hg).1]
    exact (hdir.sameEntry (hold g hg).2 j).trans (hclear.sameEntry g j)
  case low =>
    intro i hi hne'
    rw [hv d hdtb hdf, hdir.low i hi hne']
    exact hpde i
  case lastTable => rw [hv d hdtb hdf, hdir.last]
  case mid =>
    rw [hv d hdtb hdf, hdir.mid]
    exact (hpde 511).2.1
  case high =>
    intro i hi hlt hpres
    rw [hv d hdtb hdf] at hpres ⊢
    exact hdir.high i hi hlt hpres
  case ktab =>
    intro e he j hj
    rw [hv e.2 (hdisj e.2 ⟨e, he, rfl⟩ tb (.inl rfl))
      (hdisj e.2 ⟨e, he, rfl⟩ f (.inr (.inl rfl)))]
    exact (hdir.ktab e he).2.2 j hj
  case table =>
    intro j hj
    rw [htab j hj, hdir.table, hclear.tab_eq hcn]
    exact hclear.sameEntry _ j
  case lastPage => exact setWord_word_self _ _ _ _
  case shared =>
    intro j hj
    rw [htab j hj, hdir.table, hother _ hlastTable.2.1 hlastTable.2.2, hclear.tab_eq hcn]
  case dirs =>
    intro i hi hne'
    rw [hpdeu, hdir.pde hcn, if_neg hne', hv d hdtb hdf, hdir.low i hi hne']
  case cleared =>
    intro a ha
    have hap : a < s.pages cur := by omega
    obtain ⟨-, hused, hgd⟩ := hF.table _ (tables_le_of_lt hap)
    rw [pte, tab, hpdeu, ← tab, hdir.tab hcn, hclear.tab_eq hcn,
      hother _ hused hgd]
    exact hclear.pte_eq hcn ha hap
  case clearedDir =>
    intro i hi
    rw [hpdeu, hdir.pde hcn, if_neg (by omega)]
    exact hclear.pde_eq hcn hi
  case other =>
    intro g hg hgd hgt
    rw [hother g hg hgd]
    exact hclear.word_eq hcn hgd hgt
  case content =>
    obtain ⟨-, -, hfd, hft⟩ := hF.page n (by omega)
    have hframe : t.frame cur n = s.frame cur n := by
      rw [frame, pte, hclear.tab_eq hcn]
      exact (hclear.sameEntry (s.tab cur (n / 1024)) (n % 1024)).1
    change ((setPage _ f _).setWord tb _ _).word f = _
    rw [setWord_word_of_ne _ _ _ (Ne.symm htbf), setPage_word_self, hframe]
    exact hclear.word_eq hcn hfd hft

theorem Forked.childCopied (hL : Layout s role H) (hcur : H cur) (hnp : ¬H np)
    (h : Forked s cur np s') : ∃ n kstack d tb f tabs,
      ChildCopied s s' cur np n kstack d tb f tabs :=
  h.copied (hL.forkable hcur) fun heq => hnp (heq ▸ hcur)

def childRole (np : Fin nproc) (n kstack d tb f : Nat) (tabs : List (Nat × Nat)) (g : Nat) : Role :=
  if g = kstack then .kstack np
  else if g = d then .dir np
  else if g = tb then .table (n / 1024)
  else if g = f then .page n
  else match tabs.find? fun e => e.2 = g with
    | some e => .ktable np e.1
    | none => .free

def forkRole (role : Nat → Role) (np : Fin nproc) (n kstack d tb f : Nat)
    (tabs : List (Nat × Nat)) (g : Nat) : Role :=
  if g ∈ kstack :: d :: (tabs.map Prod.snd ++ [tb, f]) then childRole np n kstack d tb f tabs g
  else role g

variable {n kstack d tb f : Nat} {tabs : List (Nat × Nat)}

theorem ChildCopied.free_eq (h : ChildCopied s s' cur np n kstack d tb f tabs) :
    s.free = (kstack :: d :: (tabs.map Prod.snd ++ [tb, f])) ++ s'.free := by
  rw [h.taken]
  simp

theorem ChildCopied.layout_parents (hL : Layout s role H) (hnp : ¬H np)
    (h : ChildCopied s s' cur np n kstack d tb f tabs) :
    Layout s' (forkRole role np n kstack d tb f tabs) H :=
  hL.take h.free_eq h.kend h.kdata (fun p hp => h.proc p fun heq => hnp (heq ▸ hp)) h.same _

theorem ChildCopied.role_of_not_free (h : ChildCopied s s' cur np n kstack d tb f tabs) {g : Nat}
    (hg : g ∉ s.free) : forkRole role np n kstack d tb f tabs g = role g := by
  apply if_neg
  intro hmem
  exact hg (by rw [h.free_eq]; exact List.mem_append_left _ hmem)

theorem ChildCopied.role_used (hL : Layout s role H)
    (h : ChildCopied s s' cur np n kstack d tb f tabs) {g : Nat} (hg : role g ≠ .free) :
    forkRole role np n kstack d tb f tabs g = role g :=
  h.role_of_not_free fun hmem => hg (hL.pool.free g hmem)

theorem table_of_forkRole (hL : Layout s role H) {g i : Nat} (hg : g ∈ s.free)
    (hrole : forkRole role np n kstack d tb f tabs g = .table i) : g = tb ∧ n / 1024 = i := by
  simp only [forkRole, childRole] at hrole
  split at hrole
  · split at hrole
    · cases hrole
    · split at hrole
      · cases hrole
      · split at hrole
        · exact ⟨by assumption, Role.table.inj hrole⟩
        · split at hrole
          · cases hrole
          · split at hrole <;> cases hrole
  · rw [hL.pool.free g hg] at hrole
    cases hrole

theorem ChildCopied.role_table (hL : Layout s role H)
    (h : ChildCopied s s' cur np n kstack d tb f tabs) :
    forkRole role np n kstack d tb f tabs tb = .table (n / 1024) := by
  have hnodup := hL.pool.nodup
  rw [h.taken] at hnodup
  have hk : tb ≠ kstack := by
    rintro rfl
    simp at hnodup
  have hd : tb ≠ d := by
    rintro rfl
    simp at hnodup
  rw [forkRole, if_pos (by simp), childRole, if_neg hk, if_neg hd, if_pos rfl]

theorem ChildCopied.role_page (hL : Layout s role H)
    (h : ChildCopied s s' cur np n kstack d tb f tabs) :
    forkRole role np n kstack d tb f tabs f = .page n := by
  have hnodup := hL.pool.nodup
  rw [h.taken] at hnodup
  have hk : f ≠ kstack := by
    rintro rfl
    simp at hnodup
  have hd : f ≠ d := by
    rintro rfl
    simp at hnodup
  have ht : f ≠ tb := by
    rintro rfl
    simp [List.nodup_append] at hnodup
  rw [forkRole, if_pos (by simp), childRole, if_neg hk, if_neg hd, if_neg ht, if_pos rfl]

theorem ChildCopied.role_dir (hL : Layout s role H)
    (h : ChildCopied s s' cur np n kstack d tb f tabs) :
    forkRole role np n kstack d tb f tabs d = .dir np := by
  have hnodup := hL.pool.nodup
  rw [h.taken] at hnodup
  have hk : d ≠ kstack := by
    rintro rfl
    simp at hnodup
  rw [forkRole, if_pos (by simp), childRole, if_neg hk, if_pos rfl]

theorem ChildCopied.role_ktable (hL : Layout s role H)
    (h : ChildCopied s s' cur np n kstack d tb f tabs) {e : Nat × Nat} (he : e ∈ tabs) :
    forkRole role np n kstack d tb f tabs e.2 = .ktable np e.1 := by
  have hnodup := hL.pool.nodup
  rw [h.taken] at hnodup
  have hmem : e.2 ∈ tabs.map Prod.snd := List.mem_map_of_mem he
  simp only [List.nodup_cons, List.mem_cons, List.mem_append, not_or, List.nodup_append] at hnodup
  obtain ⟨⟨-, hkt, -⟩, ⟨hdt, -⟩, htabs, -, hdisj⟩ := hnodup
  have hk : e.2 ≠ kstack := by
    intro heq
    exact hkt (heq ▸ hmem)
  have hd : e.2 ≠ d := by
    intro heq
    exact hdt (heq ▸ hmem)
  have ht : e.2 ≠ tb := hdisj e.2 hmem tb (Or.inl rfl)
  have hf : e.2 ≠ f := hdisj e.2 hmem f (Or.inr (Or.inl rfl))
  have hin : e.2 ∈ kstack :: d :: (tabs.map Prod.snd ++ [tb, f]) :=
    List.mem_cons_of_mem _ (List.mem_cons_of_mem _ (List.mem_append_left _ hmem))
  rw [forkRole, if_pos hin, childRole, if_neg hk, if_neg hd, if_neg ht, if_neg hf]
  cases hfind : tabs.find? fun e' => e'.2 = e.2 with
  | none =>
    rw [List.find?_eq_none] at hfind
    simpa using hfind e he
  | some e' =>
    have heq : e'.2 = e.2 := by simpa using List.find?_some hfind
    have hmem' := List.mem_of_find?_eq_some hfind
    rw [List.inj_on_of_nodup_map htabs hmem' he heq]

theorem ChildCopied.tab_low
    (h : ChildCopied s s' cur np n kstack d tb f tabs) {i : Nat} (hi : i < 511)
    (hne : i ≠ n / 1024) : SameEntry (s'.pde np i) (s.pde cur i) := by
  have hdir : (s'.proc np).pgdir = d := by rw [h.child]
  rw [pde, hdir]
  exact h.low i hi hne

theorem ChildCopied.tab_last (hF : Forkable s cur)
    (h : ChildCopied s s' cur np n kstack d tb f tabs) :
    s'.pde np (n / 1024) = mkEntry tb (pteW ||| pteU ||| pteP) ∧ s'.tab np (n / 1024) = tb := by
  have hdir : (s'.proc np).pgdir = d := by rw [h.child]
  have hpde : s'.pde np (n / 1024) = mkEntry tb (pteW ||| pteU ||| pteP) := by
    rw [pde, hdir, h.lastTable]
  have hmem : tb ∈ s.free := by
    rw [h.taken]
    simp
  have hlt : tb < 2 ^ 20 := hF.lt tb hmem
  exact ⟨hpde, by rw [tab, hpde, pteAddr_mkEntry_user hlt]⟩

theorem ChildCopied.pte_same (hF : Forkable s cur)
    (h : ChildCopied s s' cur np n kstack d tb f tabs) {a : Nat} (ha : a / 1024 < s.tables cur)
    (hne : a ≠ n) : SameEntry (s'.pte np a) (s.pte cur a) := by
  have htables := hF.tables_le
  by_cases hidx : a / 1024 = n / 1024
  · rw [pte, hidx, (h.tab_last hF).2, pte, hidx]
    exact h.table _ (by omega)
  · have htab : s'.tab np (a / 1024) = s.tab cur (a / 1024) :=
      (h.tab_low (by omega) hidx).1
    rw [pte, htab]
    exact h.same _ (hF.table _ ha).2.1 _

theorem ChildCopied.pte_last (hF : Forkable s cur)
    (h : ChildCopied s s' cur np n kstack d tb f tabs) :
    s'.pte np n = mkEntry f (pteW ||| pteU ||| pteP) := by
  rw [pte, (h.tab_last hF).2, h.lastPage]

theorem ChildCopied.space_child (hL : Layout s role H) (hcur : H cur)
    (h : ChildCopied s s' cur np n kstack d tb f tabs) :
    Space s' (forkRole role np n kstack d tb f tabs) np := by
  have hsp := hL.space cur hcur
  have hchild := h.child
  have hdir : (s'.proc np).pgdir = d := by rw [hchild]
  have hpages : s'.pages np = s.pages cur := by rw [pages, pages, hchild]
  have htables : s'.tables np = s.tables cur := by rw [tables, tables, hpages]
  have hF := hL.forkable hcur
  have hle := hL.tables_le hcur
  have hlast := h.last
  have hnt : n / 1024 < s.tables cur := tables_le_of_lt (by omega)
  refine ⟨?_, ?_, ?_, ?_, ?_, ?_, ?_, ?_⟩
  · rw [hdir, h.role_dir hL]
  · rw [hchild]
    change forkRole role np n kstack d tb f tabs kstack = _
    rw [forkRole, if_pos (by simp), childRole, if_pos rfl]
  · rw [htables]
    exact hsp.low
  · intro i hi
    rw [htables] at hi
    by_cases hidx : i = n / 1024
    · obtain ⟨hpde, htab⟩ := h.tab_last hF
      rw [hidx, hpde, htab, h.role_table hL]
      exact ⟨present_mkEntry, rfl⟩
    · have hsame := h.tab_low (by omega) hidx
      have htable := hsp.table i hi
      have htab : s'.tab np i = s.tab cur i := hsame.1
      rw [hsame.2.1, htab, h.role_used hL (by rw [htable.2]; simp)]
      exact htable
  · intro i hi hlt
    rw [htables] at hi
    have hno := hsp.noTable i hi hlt
    by_cases hmid : i = 511
    · rw [pde, hdir, hmid, h.mid, ← hmid]
      exact hno
    · rw [(h.tab_low (by omega) (by omega)).2.1]
      exact hno
  · intro a ha
    rw [hpages] at ha
    by_cases hlastpage : a = n
    · have hmem : f ∈ s.free := by
        rw [h.taken]
        simp
      have hlt : f < 2 ^ 20 := hL.pool.lt (by rw [hL.pool.free _ hmem]; simp)
      rw [hlastpage, frame, h.pte_last hF, pteAddr_mkEntry_user hlt, h.role_page hL]
      exact ⟨present_mkEntry, rfl⟩
    · have hsame := h.pte_same hF (tables_le_of_lt ha) hlastpage
      have hframe : s'.frame np a = s.frame cur a := hsame.1
      have hpage := hsp.page a ha
      rw [hsame.2.1, hframe, h.role_used hL (by rw [hpage.2]; simp)]
      exact hpage
  · intro a ha hlt
    rw [hpages] at ha
    rw [htables] at hlt
    rw [(h.pte_same hF hlt (by omega)).2.1]
    exact hsp.noPage a ha hlt
  · intro i hi hlt hpres
    rw [pde, hdir] at hpres
    obtain ⟨e, he, hei, haddr⟩ := h.high i hi hlt hpres
    have htab : s'.tab np i = e.2 := by rw [tab, pde, hdir, haddr]
    rw [htab, h.role_ktable hL he, hei]
    exact ⟨rfl, h.ktab e he⟩

theorem ChildCopied.layout (hL : Layout s role H) (hcur : H cur) (hnp : ¬H np)
    (h : ChildCopied s s' cur np n kstack d tb f tabs) :
    Layout s' (forkRole role np n kstack d tb f tabs) fun p => H p ∨ p = np where
  pool := (h.layout_parents hL hnp).pool
  space p hp := by
    rcases hp with hp | rfl
    · exact (h.layout_parents hL hnp).space p hp
    · exact h.space_child hL hcur

end Child

section Cases

variable {s s' : Machine} {role : Nat → Role} {H : Fin nproc → Prop} {cur np : Fin nproc}

theorem fork_cow_eq {kstack : Nat} {rest : List Nat} (hslot : s.unusedSlot = some np)
    (hfree : s.free = kstack :: rest) (hcn : cur ≠ np)
    (hown : ownMemory (s.proc cur).name = false) :
    (fork cur).run s =
      (forkCOW cur np >>= fun _ => some <$> finishFork cur np).run
        (s.allocated np kstack rest) := by
  rw [fork, Kernel.run_bind_of_ok (run_allocproc_cons hslot hfree)]
  simp only [Kernel.run_get_bind]
  rw [allocated_proc_of_ne hcn, hown, if_neg Bool.false_ne_true]

theorem run_map_finishFork {v : Machine} {pid : Word} (hcur : v.proc cur = s.proc cur)
    (hpid : (v.proc np).pid = pid) :
    ((some <$> finishFork cur np : Kernel Machine (Option Word)).run v) =
      .ok (some pid, s.withChild v cur np) := by
  rw [Kernel.run_map, run_finishFork hcur, hpid]

theorem forked_of_run {kstack i : Nat} {rest0 : List Nat} (hF : Forkable s cur)
    (hcn : cur ≠ np) (hi : i < 1023) (habsent : (s.pde cur i).present = false)
    (hslot : s.unusedSlot = some np) (hfree : s.free = kstack :: rest0) {r : Option Word}
    (hrun : (forkCOW cur np >>= fun _ => some <$> finishFork cur np).run
      (s.allocated np kstack rest0) = .ok (r, s')) :
    r = some s.nextpid ∧ Forked s cur np s' := by
  have hcur1 : (s.allocated np kstack rest0).proc cur = s.proc cur :=
    allocated_proc_of_ne hcn _ _
  obtain ⟨_, v, hcow, hfin⟩ := Kernel.run_bind_eq_ok.mp hrun
  by_cases hsz : pgSize ≤ (s.proc cur).sz
  · rcases run_forkCOW (hF.allocated hcn hfree) hcn (by rw [hcur1]; exact hsz) with
      ⟨-, msg, herr⟩ | ⟨n, t, u, d, tb, tabs, f, rest, hn, hclear, hdir, hufree, hok⟩
    · rw [herr] at hcow
      cases hcow
    · rw [hok] at hcow
      obtain rfl : u.withStackPage tb n f rest (t.word (t.frame cur n)) = v :=
        (Prod.mk.inj (Except.ok.inj hcow)).2
      have hproc : (u.withStackPage tb n f rest (t.word (t.frame cur n))).proc cur =
          s.proc cur := by
        change u.proc cur = _
        rw [hdir.proc_of_ne hcn, hclear.proc, hcur1]
      have hpid : ((u.withStackPage tb n f rest (t.word (t.frame cur n))).proc np).pid =
          s.nextpid := by
        change (u.proc np).pid = _
        rw [hdir.proc, Function.update_self, hclear.proc, allocated_proc_self]
      have hn' : n + 1 = s.pages cur := by
        rw [hn, pages, pages, hcur1]
      rw [run_map_finishFork hproc hpid] at hfin
      obtain ⟨rfl, rfl⟩ := Prod.mk.inj (Except.ok.inj hfin)
      exact ⟨rfl, Forked.mk hslot hn' hfree hclear hdir hufree⟩
  · have hsmall : ∃ msg, (forkCOW cur np).run (s.allocated np kstack rest0) = .error msg :=
      forkCOW_small hi (by rw [pde, hcur1]; exact habsent) (by rw [hcur1]; omega)
    obtain ⟨msg, herr⟩ := hsmall
    rw [herr] at hcow
    cases hcow

theorem Layout.absent (hL : Layout s role H) (hcur : H cur) :
    (s.pde cur (s.tables cur)).present = false := by
  have htables := hL.tables_le hcur
  exact (hL.space cur hcur).noTable _ (Nat.le_refl _) (by omega)

theorem fork_spec (hL : Layout s role H) (hH : ∀ p, H p → (s.proc p).state ≠ .unused)
    (hcur : H cur) (hown : ownMemory (s.proc cur).name = false) {r : Option Word}
    (h : (fork cur).run s = .ok (r, s')) :
    (r = none ∧ s' = s) ∨ (∃ np, r = none ∧ ¬H np ∧ s' = s.unallocated np) ∨
      ∃ np, r = some s.nextpid ∧ ¬H np ∧ Forked s cur np s' := by
  cases hslot : s.unusedSlot with
  | none =>
    left
    rw [fork, Kernel.run_bind_of_ok (run_allocproc_none hslot)] at h
    obtain ⟨rfl, rfl⟩ := Prod.mk.inj (Except.ok.inj h)
    exact ⟨rfl, rfl⟩
  | some np =>
    right
    have hnp : ¬H np := fun hp => hH np hp (unusedSlot_spec hslot)
    have hcn : cur ≠ np := fun heq => hnp (heq ▸ hcur)
    cases hfree : s.free with
    | nil =>
      left
      rw [fork, Kernel.run_bind_of_ok (run_allocproc_noFree hslot hfree)] at h
      obtain ⟨rfl, rfl⟩ := Prod.mk.inj (Except.ok.inj h)
      exact ⟨np, rfl, hnp, rfl⟩
    | cons kstack rest0 =>
      right
      rw [fork_cow_eq hslot hfree hcn hown] at h
      obtain ⟨hr, hforked⟩ := forked_of_run (hL.forkable hcur) hcn
        (by have := hL.tables_le hcur; omega) (hL.absent hcur) hslot hfree h
      exact ⟨np, hr, hnp, hforked⟩

theorem Forkable.fork_ok (hF : Forkable s cur) (hcn : cur ≠ np) {i : Nat} (hi : i < 1023)
    (habsent : (s.pde cur i).present = false) (hown : ownMemory (s.proc cur).name = false)
    (hslot : s.unusedSlot = some np) (hlen : 68 ≤ s.free.length)
    (hsz : pgSize ≤ (s.proc cur).sz) :
    ∃ s', (fork cur).run s = .ok (some s.nextpid, s') ∧ Forked s cur np s' := by
  cases hfree : s.free with
  | nil =>
    rw [hfree, List.length_nil] at hlen
    omega
  | cons kstack rest0 =>
    have hcur1 : (s.allocated np kstack rest0).proc cur = s.proc cur :=
      allocated_proc_of_ne hcn _ _
    rcases run_forkCOW (hF.allocated hcn hfree) hcn (by rw [hcur1]; exact hsz) with
      ⟨hshort, -⟩ | ⟨n, t, u, d, tb, tabs, f, rest, -, -, -, -, hok⟩
    · have : rest0.length < 67 := hshort
      rw [hfree, List.length_cons] at hlen
      omega
    · have hfinish : ∃ r s', (forkCOW cur np >>= fun _ => some <$> finishFork cur np).run
          (s.allocated np kstack rest0) = .ok (r, s') := by
        rw [Kernel.run_bind_of_ok hok, Kernel.run_map, finishFork, Kernel.run_get_bind,
          modifyProc, Kernel.run_modify_bind, Kernel.run_pure]
        exact ⟨_, _, rfl⟩
      obtain ⟨r, s', hrun⟩ := hfinish
      obtain ⟨rfl, hforked⟩ := forked_of_run hF hcn hi habsent hslot hfree hrun
      exact ⟨s', by rw [fork_cow_eq hslot hfree hcn hown, hrun], hforked⟩

theorem fork_progress (hL : Layout s role H) (hcur : H cur) (hnp : ¬H np)
    (hown : ownMemory (s.proc cur).name = false) (hslot : s.unusedSlot = some np)
    (hlen : 68 ≤ s.free.length) (hsz : pgSize ≤ (s.proc cur).sz) :
    ∃ s', (fork cur).run s = .ok (some s.nextpid, s') ∧ Forked s cur np s' :=
  (hL.forkable hcur).fork_ok (fun heq => hnp (heq ▸ hcur))
    (by have := hL.tables_le hcur; omega) (hL.absent hcur) hown hslot hlen hsz

end Cases

end Xv6
