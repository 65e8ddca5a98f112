import Xv6.Proof.FaultContents
import Xv6.Proof.ForkLayout
import Xv6.Proof.Booted

/-!
# A copy-on-write fork takes a snapshot

Outside the free list `fork` changes write bits only, and only in the directory and the tables of
the parent. The child goes to the parent's pages through the parent's tables, except for the last
table and the last page, which are copies. Nothing is assumed about who else uses the tables or
what lies above the size of the parent.
-/

namespace Xv6

section Snapshot

variable {s s' : Machine} {kind : Nat → PageKind} {H : Fin nproc → Prop} {cur np : Fin nproc}

theorem Sorted.not_free (hS : Sorted s kind H) {g : Nat} (hg : kind g ≠ .free) : g ∉ s.free :=
  fun hmem => hg (hS.free g hmem).1

structure FullyMapped (s : Machine) (cur : Fin nproc) : Prop where
  size : (s.proc cur).sz ≤ physTop
  page : ∀ a < s.pages cur, s.mapped cur a
  distinct : ∀ a b, a < s.pages cur → b < s.pages cur → s.frame cur a = s.frame cur b → a = b

theorem FullyMapped.pages_le (h : FullyMapped s cur) : s.pages cur ≤ 57344 := by
  have hsz := h.size
  simp only [Machine.pages, npages, pgSize, physTop] at *
  omega

theorem Sorted.forkable (hS : Sorted s kind H) (hcur : H cur) (hM : FullyMapped s cur)
    (hkdata : extMem < s.kdata * pgSize ∧ s.kdata * pgSize < physTop) : Forkable s cur := by
  have hle := hM.pages_le
  have htables : ∀ i < s.tables cur, i * 1024 < s.pages cur := by
    intro i hi
    simp only [Machine.tables] at hi
    omega
  have hdir := hS.dir cur hcur
  have htab : ∀ i, i < s.tables cur →
      (s.pde cur i).present = true ∧ kind (s.tab cur i) = .table := by
    intro i hi
    have hmap := (hM.page _ (htables i hi)).1
    rw [Nat.mul_div_cancel _ (by decide)] at hmap
    have := htables i hi
    exact ⟨hmap, hS.table cur hcur i (by omega) hmap⟩
  refine ⟨hS.nodup, fun f hf => (hS.free f hf).2, hkdata, hM.size, ?_, ?_, ?_, ?_⟩
  · exact hS.not_free (by rw [hdir]; decide)
  · intro i hi
    obtain ⟨hpres, hkind⟩ := htab i hi
    refine ⟨hpres, hS.not_free (by rw [hkind]; decide), fun heq => ?_⟩
    rw [heq, hdir] at hkind
    cases hkind
  · intro i j hi hj heq
    -- the first pages of the two tables would be one page
    have hframe : s.frame cur (i * 1024) = s.frame cur (j * 1024) := by
      simp only [Machine.frame, Machine.pte, Nat.mul_div_cancel _ (show 0 < 1024 by decide),
        Nat.mul_mod_left, heq]
    have := hM.distinct _ _ (htables i hi) (htables j hj) hframe
    omega
  · intro a ha
    have hmap := hM.page a ha
    have hkind := hS.page cur hcur a (by omega) hmap
    refine ⟨hmap.2, hS.not_free (by rw [hkind]; decide), fun heq => ?_, fun i hi heq => ?_⟩
    · rw [heq, hdir] at hkind
      cases hkind
    · rw [heq, (htab i hi).2] at hkind
      cases hkind

section Copied

variable {n kstack d tb f : Nat} {tabs : List (Nat × Nat)}

theorem ChildCopied.byteAt_eq (hS : Sorted s kind H) (hcur : H cur) (hF : Forkable s cur)
    (h : ChildCopied s s' cur np n kstack d tb f tabs) {q : Fin nproc} (hq : H q) (hne : q ≠ np)
    {x : Nat} (hx : x < kernBase) : s'.byteAt q x = s.byteAt q x := by
  have hdir := hS.dir q hq
  have hpde : ∀ i, SameEntry (s'.pde q i) (s.pde q i) := fun i => by
    rw [Machine.pde, h.proc q hne]
    exact h.same _ (hS.not_free (by rw [hdir]; decide)) i
  have hidx := div_pgSize_div_1024 x
  have ha : x / pgSize < 2 ^ 19 := page_lt_of_lt_kernBase hx
  rw [Machine.byteAt, Machine.byteAt, (hpde _).2.1]
  by_cases hpres : (s.pde q (x / 2 ^ 22)).present = true
  · have htab : s'.tab q (x / pgSize / 1024) = s.tab q (x / pgSize / 1024) := (hpde _).1
    have hkind := hS.table q hq (x / pgSize / 1024) (by omega) (by rw [hidx]; exact hpres)
    have hpte : SameEntry (s'.pte q (x / pgSize)) (s.pte q (x / pgSize)) := by
      rw [Machine.pte, htab]
      exact h.same _ (hS.not_free (by rw [hkind]; decide)) _
    have hframe : s'.frame q (x / pgSize) = s.frame q (x / pgSize) := hpte.1
    rw [hpte.2.1, hframe]
    by_cases hpage : (s.pte q (x / pgSize)).present = true
    · have hkindp := hS.page q hq _ ha ⟨by rw [hidx]; exact hpres, hpage⟩
      rw [h.other _ (hS.not_free (by rw [hkindp]; decide)) ?_ ?_]
      · intro heq
        rw [heq, hS.dir cur hcur] at hkindp
        cases hkindp
      · intro i hi heq
        have := hF.tables_le
        rw [heq, hS.table cur hcur i (by omega) (hF.table i hi).1] at hkindp
        cases hkindp
    · rw [Bool.not_eq_true] at hpage
      rw [hpage, Bool.and_false, if_neg Bool.false_ne_true, if_neg Bool.false_ne_true]
  · rw [Bool.not_eq_true] at hpres
    rw [hpres, Bool.false_and, Bool.false_and, if_neg Bool.false_ne_true,
      if_neg Bool.false_ne_true]

theorem ChildCopied.pde_present (hF : Forkable s cur)
    (h : ChildCopied s s' cur np n kstack d tb f tabs) {a : Nat} (ha : a < s.pages cur) :
    (s'.pde np (a / 1024)).present = true := by
  have hta := Machine.tables_le_of_lt ha
  have htables := hF.tables_le
  by_cases hidx : a / 1024 = n / 1024
  · rw [hidx, (h.tab_last hF).1]
    exact present_mkEntry
  · rw [(h.tab_low (by omega) hidx).2.1]
    exact (hF.table _ hta).1

theorem ChildCopied.page_child (hF : Forkable s cur)
    (h : ChildCopied s s' cur np n kstack d tb f tabs) {a : Nat} (ha : a < s.pages cur) :
    (s'.pte np a).present = true ∧ s'.word (s'.frame np a) = s.word (s.frame cur a) := by
  have hta := Machine.tables_le_of_lt ha
  by_cases hlast : a = n
  · have hmem : f ∈ s.free := by
      rw [h.taken]
      simp
    rw [hlast, Machine.frame, h.pte_last hF, pteAddr_mkEntry_user (hF.lt f hmem)]
    exact ⟨present_mkEntry, h.content⟩
  · have hsame := h.pte_same hF hta hlast
    have hframe : s'.frame np a = s.frame cur a := hsame.1
    obtain ⟨hpres, hused, hdir, htab⟩ := hF.page a ha
    rw [hsame.2.1, hframe]
    exact ⟨hpres, h.other _ hused hdir htab⟩

theorem ChildCopied.byteAt_child (hF : Forkable s cur) (hM : FullyMapped s cur)
    (h : ChildCopied s s' cur np n kstack d tb f tabs) {x : Nat} (hx : x < (s.proc cur).sz) :
    ∃ b, s'.byteAt np x = some b ∧ s.byteAt cur x = some b := by
  have hidx := div_pgSize_div_1024 x
  have ha : x / pgSize < s.pages cur := by
    simp only [Machine.pages, npages, pgSize] at *
    omega
  have hpde := h.pde_present hF ha
  have hmap := hM.page _ ha
  obtain ⟨hpte, hword⟩ := h.page_child hF ha
  rw [hidx] at hpde
  rw [Machine.mapped, hidx] at hmap
  rw [Machine.byteAt, hpde, hpte, hword, Machine.byteAt, hmap.1, hmap.2]
  exact ⟨_, rfl, rfl⟩

theorem ChildCopied.not_writable (hF : Forkable s cur)
    (h : ChildCopied s s' cur np n kstack d tb f tabs) (hcn : cur ≠ np) {a : Nat} (ha : a < n) :
    (s'.pte cur a).writable = false ∧ (s'.pte np a).writable = false := by
  have hcur : (s'.pte cur a).writable = false := by
    rw [h.cleared a ha]
    exact writable_clearW _
  have hlast := h.last
  have htables := hF.tables_le
  have hta := Machine.tables_le_of_lt (show a < s.pages cur by omega)
  have htab : s'.tab cur (a / 1024) = s.tab cur (a / 1024) := by
    rw [Machine.tab, Machine.pde, h.proc cur hcn]
    exact (h.same _ hF.dir _).1
  have hchild : s'.pte np a = s'.pte cur a := by
    by_cases hidx : a / 1024 = n / 1024
    · rw [Machine.pte, hidx, (h.tab_last hF).2, h.shared _ (by omega), Machine.pte, htab, hidx]
    · have hdir : (s'.proc np).pgdir = d := by rw [h.child]
      have hpde : s'.pde np (a / 1024) = s'.pde cur (a / 1024) := by
        rw [Machine.pde, hdir, h.dirs _ (by omega) hidx]
      rw [Machine.pte, Machine.tab, hpde]
      rfl
  exact ⟨hcur, by rw [hchild]; exact hcur⟩

end Copied

/-- When a copy-on-write fork returns a pid, the child and the parent find at every address below
the size what the parent found before, nobody else's memory has changed, no page but the last can
be written, and the last page is backed by two pages of memory. -/
theorem fork_snapshot (hS : Sorted s kind H) (hcur : H cur)
    (hused : ∀ p, H p → (s.proc p).state ≠ .unused) (hM : FullyMapped s cur)
    (hkdata : extMem < s.kdata * pgSize ∧ s.kdata * pgSize < physTop) {i : Nat} (hi : i < 1023)
    (habsent : (s.pde cur i).present = false) (hown : ownMemory (s.proc cur).name = false)
    {pid : Word} (h : (fork cur).run s = .ok (some pid, s')) :
    ∃ np, (s.proc np).state = .unused ∧ (s'.proc np).pid = pid ∧
      (∀ x < (s.proc cur).sz, ∃ b,
        s'.byteAt np x = some b ∧ s'.byteAt cur x = some b ∧ s.byteAt cur x = some b) ∧
      (∀ q, H q → q ≠ cur → ∀ x < kernBase, s'.byteAt q x = s.byteAt q x) ∧
      (∀ x, x / pgSize + 1 < s.pages cur →
        s'.canWrite cur x = false ∧ s'.canWrite np x = false) ∧
      s'.frame cur (s.pages cur - 1) ≠ s'.frame np (s.pages cur - 1) := by
  have hF := hS.forkable hcur hM hkdata
  cases hslot : s.unusedSlot with
  | none =>
    rw [fork, Kernel.run_bind_of_ok (run_allocproc_none hslot)] at h
    cases h
  | some np =>
    have hunused := Machine.unusedSlot_spec hslot
    have hnp : ∀ q, H q → q ≠ np := fun q hq heq => hused q hq (heq ▸ hunused)
    have hcn := hnp cur hcur
    cases hfree : s.free with
    | nil =>
      rw [fork, Kernel.run_bind_of_ok (run_allocproc_noFree hslot hfree)] at h
      cases h
    | cons kstack rest0 =>
      rw [fork_cow_eq hslot hfree hcn hown] at h
      obtain ⟨hpid, hforked⟩ := forked_of_run hF hcn hi habsent hslot hfree h
      obtain ⟨n, kstack', d, tb, f, tabs, hc⟩ := hforked.copied hF hcn
      have hlast := hc.last
      have hnlast : s.pages cur - 1 = n := by omega
      refine ⟨np, hunused, by rw [hc.child]; exact (Option.some.inj hpid).symm, ?_, ?_, ?_, ?_⟩
      · intro x hx
        obtain ⟨b, hchild, hbefore⟩ := hc.byteAt_child hF hM hx
        have hlt : x < kernBase := lt_of_lt_of_le hx (le_trans hM.size (by decide))
        exact ⟨b, hchild, by rw [hc.byteAt_eq hS hcur hF hcur hcn hlt]; exact hbefore, hbefore⟩
      · exact fun q hq _ x hx => hc.byteAt_eq hS hcur hF hq (hnp q hq) hx
      · intro x hx
        obtain ⟨h1, h2⟩ := hc.not_writable hF hcn (a := x / pgSize) (by omega)
        rw [Machine.canWrite, Machine.canWrite, h1, h2, Bool.and_false, Bool.and_false]
        exact ⟨rfl, rfl⟩
      · have hmem : f ∈ s.free := by
          rw [hc.taken]
          simp
        have hframe : s'.frame cur n = s.frame cur n := by
          have htab : s'.tab cur (n / 1024) = s.tab cur (n / 1024) := by
            rw [Machine.tab, Machine.pde, hc.proc cur hcn]
            exact (hc.same _ hF.dir _).1
          rw [Machine.frame, Machine.pte, htab]
          exact (hc.same _ (hF.table _ (Machine.tables_le_of_lt (by omega))).2.1 _).1
        have hcopy : s'.frame np n = f := by
          rw [Machine.frame, hc.pte_last hF, pteAddr_mkEntry_user (hF.lt f hmem)]
        rw [hnlast, hframe, hcopy]
        intro heq
        exact (hF.page n (by omega)).2.1 (heq ▸ hmem)

end Snapshot

section Layout

variable {s : Machine} {role : Nat → Role} {H : Fin nproc → Prop}

theorem Layout.fullyMapped (hL : Layout s role H) {p : Fin nproc} (hp : H p) :
    FullyMapped s p where
  size := (hL.forkable hp).size
  page a ha := ⟨(hL.space p hp).pde_present ha, ((hL.space p hp).page a ha).1⟩
  distinct a b ha hb heq := by
    have hrole := ((hL.space p hp).page a ha).2
    rw [heq, ((hL.space p hp).page b hb).2] at hrole
    exact (Role.page.inj hrole).symm

end Layout

/-- The program started by the shell forks: the child finds its first byte, and its last page is
another one. -/
theorem fork_snapshot_booted : ∃ s' np, (fork 2).run (booted 3 80) = .ok (some 4, s') ∧
    (∃ b, s'.byteAt np 0 = some b ∧ (booted 3 80).byteAt 2 0 = some b) ∧
    s'.canWrite 2 0 = false ∧ s'.frame 2 2 ≠ s'.frame np 2 := by
  have hL := booted_layout (n := 3) (m := 80) (by decide) (by decide) (by decide)
  have hcur : (2 : Fin nproc).val < 3 := by decide
  have hpages : (booted 3 80).pages 2 = 3 := booted_pages hcur
  obtain ⟨s', hrun, -⟩ := fork_progress hL hcur (by decide : ¬(3 : Fin nproc).val < 3) rfl
    (by decide) (by decide) (by decide)
  obtain ⟨np, -, -, hsame, -, hclear, hlast⟩ := fork_snapshot hL.sorted hcur
    (fun p hp => by
      rcases (by omega : p.val = 0 ∨ p.val = 1 ∨ p.val = 2) with h | h | h <;>
        simp [booted, bootedProc, h])
    (hL.fullyMapped hcur) hL.pool.kdata (by decide : 1 < 1023)
    (by rw [booted_pde_kernel hcur (by decide), if_neg (by decide)]; rfl) rfl hrun
  rw [hpages] at hclear hlast
  obtain ⟨b, hchild, -, hbefore⟩ := hsame 0 (by decide)
  exact ⟨s', np, hrun, ⟨b, hchild, hbefore⟩, (hclear 0 (by decide)).1, hlast⟩

end Xv6
