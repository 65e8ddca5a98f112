import Xv6.Lineage
import Xv6.Proof.ForkLayout
import Xv6.Proof.PageFaults

/-!
# The guard page

`exec` clears `PTE_U` on the page below the stack. The bit stays clear in every table that covers
the page as long as no operation builds the page's entry anew: copying a table and changing write
and status bits keep it, entering a fresh page for the guard page does not.
-/

namespace Xv6

open Machine

structure Guarded (s : Machine) (role : Nat → Role) (H : Fin nproc → Prop) (g : Nat) : Prop where
  layout : Layout s role H
  used : ∀ q, H q → (s.proc q).state ≠ .unused
  pages : ∀ q, H q → s.pages q = g + 2
  clear : ∀ f, role f = .table (g / 1024) → (s.word f (g % 1024)).user = false

section Steps

variable {s s' : Machine} {role : Nat → Role} {H : Fin nproc → Prop} {g : Nat} {cur : Fin nproc}

theorem Guarded.pte_user (h : Guarded s role H g) {q : Fin nproc} (hq : H q) :
    (s.pte q g).user = false := by
  have hlt : g < s.pages q := by
    rw [h.pages q hq]
    omega
  exact h.clear _ ((h.layout.space q hq).table _ (tables_le_of_lt hlt)).2

theorem Guarded.not_canRead (h : Guarded s role H g) {q : Fin nproc} (hq : H q) {va : Nat}
    (hva : va / pgSize = g) : s.canRead q va = false := by
  simp [canRead, hva, h.pte_user hq]

theorem Guarded.of_words (h : Guarded s role H g) (hrest : s' = { s with word := s'.word })
    (hword : ∀ f j, SameEntry (s'.word f j) (s.word f j)) : Guarded s' role H g where
  layout := h.layout.of_words hrest hword
  used q hq := by
    rw [hrest]
    exact h.used q hq
  pages q hq := by
    rw [hrest]
    exact h.pages q hq
  clear f hf := by
    rw [(hword f _).2.2]
    exact h.clear f hf

theorem Guarded.storePage (h : Guarded s role H g) {f a i : Nat} {w : Word}
    (hf : role f = .page a) : Guarded (s.setWord f i w) role H g where
  layout := by
    refine h.layout.setPage _ fun p hp => ?_
    refine (h.layout.space p hp).apart ?_ ?_ ?_
    · simp [hf]
    · intro i hi
      rw [hf] at hi
      cases hi
    · simp [hf]
  used := h.used
  pages := h.pages
  clear f' hf' := by
    have hne : f' ≠ f := by
      rintro rfl
      rw [hf] at hf'
      cases hf'
    rw [setWord_word_of_ne _ _ _ hne]
    exact h.clear f' hf'

theorem Guarded.setProcs (h : Guarded s role H g)
    (hrest : s' = { s with proc := s'.proc, nextpid := s'.nextpid })
    (hsame : ∀ q, H q → (s'.proc q).pgdir = (s.proc q).pgdir ∧ (s'.proc q).sz = (s.proc q).sz ∧
      (s'.proc q).kstack = (s.proc q).kstack ∧ (s'.proc q).state ≠ .unused) :
    Guarded s' role H g := by
  have hword : s'.word = s.word := by rw [hrest]
  refine ⟨⟨?_, fun q hq => ?_⟩, fun q hq => (hsame q hq).2.2.2, fun q hq => ?_, fun f hf => ?_⟩
  · have hp := h.layout.pool
    rw [hrest]
    exact ⟨hp.nodup, hp.free, hp.range, hp.kend, hp.kdata⟩
  · obtain ⟨hdir, hsz, hkstack, -⟩ := hsame q hq
    refine (h.layout.space q hq).of_sameMaps ⟨hdir, hsz, fun i _ => ?_, fun i _ _ j _ => ?_⟩
      hkstack fun _ _ => rfl
    · rw [pde, pde, hdir, hword]
      exact .refl _
    · rw [hword]
      exact .refl _
  · rw [← h.pages q hq, Machine.pages, Machine.pages, (hsame q hq).2.1]
  · rw [hword]
    exact h.clear f hf

theorem Guarded.withTable (h : Guarded s role H g) (hcur : H cur) {i t : Nat} {rest : List Nat}
    (hi : i < s.tables cur) (hfree : s.free = t :: rest) :
    Guarded (s.withTable cur i t rest) (Function.update role t (.table i)) H g where
  layout := h.layout.withTable hcur hi hfree
  used := h.used
  pages := h.pages
  clear f hf := by
    have hsp := h.layout.space cur hcur
    have hdir : f ≠ (s.proc cur).pgdir := by
      rintro rfl
      have htd : (s.proc cur).pgdir ≠ t := by
        intro heq
        exact h.layout.pgdir_not_free hcur (by rw [heq, hfree]; exact List.mem_cons_self)
      rw [Function.update_of_ne htd, hsp.dir] at hf
      cases hf
    rw [Machine.withTable, Machine.setWord_word_of_ne _ _ _ hdir]
    by_cases hft : f = t
    · subst hft
      rw [Function.update_self] at hf
      rw [setPage_word_self]
      exact h.clear _ (by rw [(hsp.table i hi).2, hf])
    · rw [Function.update_of_ne hft] at hf
      rw [setPage_word_of_ne _ _ hft]
      exact h.clear f hf

theorem Guarded.withFrame (h : Guarded s role H g) (hcur : H cur) {a f : Nat} {rest : List Nat}
    (ha : a < s.pages cur) (hfree : s.free = f :: rest) (hne : a ≠ g) :
    Guarded (s.withFrame cur a f rest) (Function.update role f (.page a)) H g where
  layout := h.layout.withFrame hcur ha hfree
  used := h.used
  pages := h.pages
  clear f' hf' := by
    have hff : f' ≠ f := by
      rintro rfl
      rw [Function.update_self] at hf'
      cases hf'
    rw [Function.update_of_ne hff] at hf'
    have hclear := h.clear f' hf'
    rw [Machine.withFrame]
    by_cases htab : f' = s.tab cur (a / 1024)
    · -- the new entry is at another index of the table
      have hrole := ((h.layout.space cur hcur).table _ (tables_le_of_lt ha)).2
      rw [← htab, hf'] at hrole
      have hidx := Role.table.inj hrole
      rw [setWord_word_index _ _ _ _ (by omega), setPage_word_of_ne _ _ hff]
      exact hclear
    · rw [setWord_word_of_ne _ _ _ htab, setPage_word_of_ne _ _ hff]
      exact hclear

theorem Guarded.served (h : Guarded s role H g) (hcur : H cur) {va : Nat} (hva : va < kernBase)
    (hserved : Copied s cur va s')
    (hpage : va / pgSize = g →
      isshared s cur va ≠ some .table ∧ isshared s cur va ≠ some .frame) :
    ∃ role', Guarded s' role' H g := by
  have hpages := (h.layout.space cur hcur).mapped_iff (page_lt_of_lt_kernBase hva)
  cases hserved with
  | nothing => exact ⟨role, h.of_words rfl (sameEntry_setWord (sameEntry_setW _))⟩
  | frame hlevel hmap hfree =>
    exact ⟨_, h.withFrame hcur (hpages.mp hmap) hfree fun heq => (hpage heq).2 hlevel⟩
  | table hlevel hmap hfree =>
    have ha := hpages.mp hmap
    have h1 := h.withTable hcur (tables_le_of_lt ha) hfree
    exact ⟨_, h1.withFrame hcur ha rfl fun heq => (hpage heq).1 hlevel⟩

theorem Guarded.forked (h : Guarded s role H g) (hcur : H cur) {np : Fin nproc} (hnp : ¬H np)
    (hforked : Forked s cur np s') : ∃ role', Guarded s' role' (fun p => H p ∨ p = np) g := by
  obtain ⟨n, kstack, d, tb, f, tabs, hc⟩ := hforked.childCopied h.layout hcur hnp
  have hn : n + 1 = g + 2 := hc.last.trans (h.pages cur hcur)
  have hpages : ∀ q ≠ np, s'.pages q = s.pages q := fun q hq => by
    rw [Machine.pages, Machine.pages, hc.proc q hq]
  refine ⟨_, hc.layout h.layout hcur hnp, ?_, ?_, ?_⟩
  · rintro q (hq | rfl)
    · rw [hc.proc q fun heq => hnp (heq ▸ hq)]
      exact h.used q hq
    · rw [hc.child]
      simp
  · rintro q (hq | rfl)
    · rw [hpages q fun heq => hnp (heq ▸ hq)]
      exact h.pages q hq
    · rw [← h.pages cur hcur, Machine.pages, Machine.pages, hc.child]
  · intro f' hf'
    by_cases hmem : f' ∈ s.free
    · -- of the pages taken, only the copied table has the role of a table
      obtain ⟨rfl, hidx⟩ := table_of_forkRole h.layout hmem hf'
      have hrole := ((h.layout.space cur hcur).table (n / 1024)
        (tables_le_of_lt (by rw [h.pages cur hcur]; omega))).2
      rw [(hc.table (g % 1024) (by omega)).2.2]
      exact h.clear _ (by rw [hrole, hidx])
    · rw [hc.role_of_not_free hmem] at hf'
      rw [(hc.same f' hmem _).2.2]
      exact h.clear f' hf'

theorem Guarded.killed (h : Guarded s role H g) : Guarded (s.killed cur) role H g := by
  refine h.setProcs rfl fun q hq => ?_
  by_cases hqc : q = cur
  · subst hqc
    rw [killed, setProc_proc_self]
    exact ⟨rfl, rfl, rfl, h.used q hq⟩
  · rw [Machine.killed, Machine.setProc_proc_of_ne _ _ hqc]
    exact ⟨rfl, rfl, rfl, h.used q hq⟩

theorem Guarded.exited (h : Guarded s role H g) : Guarded (s.exited cur) role H g := by
  have hadopt : ∀ q, (((s.proc q).adopt cur s.initproc).pgdir = (s.proc q).pgdir ∧
      ((s.proc q).adopt cur s.initproc).sz = (s.proc q).sz ∧
      ((s.proc q).adopt cur s.initproc).kstack = (s.proc q).kstack ∧
      ((s.proc q).adopt cur s.initproc).state = (s.proc q).state) := by
    intro q
    rw [Proc.adopt]
    split <;> exact ⟨rfl, rfl, rfl, rfl⟩
  refine h.setProcs rfl fun q hq => ?_
  obtain ⟨hdir, hsz, hkstack, hstate⟩ := hadopt q
  by_cases hqc : q = cur
  · subst hqc
    rw [exited, setProc_proc_self]
    exact ⟨hdir, hsz, hkstack, by simp⟩
  · rw [Machine.exited, Machine.setProc_proc_of_ne _ _ hqc]
    exact ⟨hdir, hsz, hkstack, by rw [hstate]; exact h.used q hq⟩

theorem Space.role_of_canRead (hsp : Space s role cur) {va : Nat} (hva : va < 2 ^ 32)
    (hread : s.canRead cur va = true) : role (s.frame cur (va / pgSize)) = .page (va / pgSize) := by
  have hidx := div_pgSize_div_1024 va
  simp only [canRead, Bool.and_eq_true] at hread
  obtain ⟨⟨⟨hpde, -⟩, hpte⟩, huser⟩ := hread
  have hlow : va / 2 ^ 22 < 512 := by
    by_contra hhigh
    have hk := (hsp.ktable (va / 2 ^ 22) (by omega) (by omega) hpde).2 (va / pgSize % 1024)
      (Nat.mod_lt _ (by decide))
    rw [pte, hidx, hk] at huser
    cases huser
  have htab : va / 2 ^ 22 < s.tables cur := by
    by_contra hno
    rw [hsp.noTable _ (by omega) hlow] at hpde
    cases hpde
  have hpage : va / pgSize < s.pages cur := by
    by_contra hno
    rw [hsp.noPage _ (by omega) (by rw [hidx]; exact htab)] at hpte
    cases hpte
  exact (hsp.page _ hpage).2

theorem Guarded.storeByte (h : Guarded s role H g) (hcur : H cur) {va : Nat} (hva : va < 2 ^ 32)
    {b : BitVec 8} (hread : s.canRead cur va = true) :
    Guarded ((s.mark cur va (pteA ||| pteD)).storeByte cur va b) role H g := by
  have hmark : Guarded (s.mark cur va (pteA ||| pteD)) role H g :=
    h.of_words rfl (sameEntry_mark cur va sameEntry_setAD)
  have hread' : (s.mark cur va (pteA ||| pteD)).canRead cur va = true := by
    have hmaps : SameMaps (s.mark cur va (pteA ||| pteD)) s cur :=
      .of_words rfl (sameEntry_mark cur va sameEntry_setAD)
    rw [hmaps.canRead hva, hread]
  exact hmark.storePage ((hmark.layout.space cur hcur).role_of_canRead hva hread')

theorem service_ok {f : PageFault} (huser : f.user = true) {r : TrapResult}
    (hrun : (f.service cur 0).run s = .ok (r, s')) :
    (f.write = false ∧ s' = (s.killed cur).exited cur) ∨
      (f.write = true ∧ f.addr ≤ (s.proc cur).sz ∧
        ∃ s1, (trapCOW cur f.addr).run s = .ok ((), s1) ∧ (s' = s1 ∨ s' = s1.exited cur)) := by
  have hexit : ∀ {t : Machine} {r}, ((exit cur).run t).bind (fun r' => .ok (.exited, r'.2)) =
      (.ok (r, s') : Except String (TrapResult × Machine)) → s' = t.exited cur := by
    intro t r h
    by_cases hinit : cur = t.initproc
    · rw [run_exit_init hinit] at h
      cases h
    · rw [run_exit hinit] at h
      exact (Prod.mk.inj (Except.ok.inj h)).2.symm
  cases hwrite : f.write with
  | false =>
    rw [service_read huser hwrite] at hrun
    exact Or.inl ⟨rfl, hexit hrun⟩
  | true =>
    by_cases haddr : f.addr ≤ (s.proc cur).sz
    · refine Or.inr ⟨rfl, haddr, ?_⟩
      rw [service_cow huser hwrite haddr] at hrun
      cases hcow : (trapCOW cur f.addr).run s with
      | error msg =>
        rw [hcow] at hrun
        cases hrun
      | ok r1 =>
        obtain ⟨_, s1⟩ := r1
        simp only [hcow, Except.bind] at hrun
        refine ⟨s1, rfl, ?_⟩
        split at hrun
        · exact Or.inr (hexit hrun)
        · exact Or.inl (Prod.mk.inj (Except.ok.inj hrun)).2.symm
    · exact absurd ⟨_, hrun⟩ (service_outside huser hwrite (by omega) 0)

def NoNewSlot (s s' : Machine) : Prop :=
  ∀ q, (s.proc q).state = .unused → (s'.proc q).state = .unused

theorem noNewSlot_exited {t : Machine} (hproc : ∀ q, (t.proc q).state = (s.proc q).state)
    (hlive : s.live cur) : NoNewSlot s (t.exited cur) := by
  intro q hq
  have hqc : q ≠ cur := fun heq => hlive.1 (heq ▸ hq)
  rw [exited, setProc_proc_of_ne _ _ hqc]
  change ((t.proc q).adopt cur t.initproc).state = .unused
  rw [Proc.adopt]
  split <;> exact (hproc q).trans hq

theorem killed_state (q : Fin nproc) : ((s.killed cur).proc q).state = (s.proc q).state := by
  by_cases hqc : q = cur
  · subst hqc
    rw [killed, setProc_proc_self]
  · rw [killed, setProc_proc_of_ne _ _ hqc]

theorem userLoad_guarded (h : Guarded s role H g) (hlive : s.live cur) {va : Nat}
    (hrun : (userLoad cur va).run s = .ok ((), s')) :
    (∃ role', Guarded s' role' H g) ∧ NoNewSlot s s' := by
  rw [userLoad, Kernel.run_get_bind] at hrun
  split at hrun
  · obtain rfl := (Prod.mk.inj (Except.ok.inj hrun)).2
    exact ⟨⟨role, h.of_words rfl (sameEntry_mark cur va sameEntry_setA)⟩, fun _ hq => hq⟩
  · obtain ⟨r, s1, hservice, hpure⟩ := Kernel.run_bind_eq_ok.mp hrun
    obtain rfl := (Prod.mk.inj (Except.ok.inj hpure)).2
    rcases service_ok rfl hservice with ⟨-, rfl⟩ | ⟨hwrite, -⟩
    · exact ⟨⟨role, h.killed.exited⟩, noNewSlot_exited killed_state hlive⟩
    · cases hwrite

theorem userStore_guarded (h : Guarded s role H g) (hcur : H cur) (hlive : s.live cur) {va : Nat}
    (hva : va < 2 ^ 32) {b : BitVec 8}
    (hpage : va / pgSize = g →
      isshared s cur va ≠ some .table ∧ isshared s cur va ≠ some .frame)
    (hrun : (userStore cur va b).run s = .ok ((), s')) :
    (∃ role', Guarded s' role' H g) ∧ NoNewSlot s s' := by
  rw [userStore, Kernel.run_get_bind] at hrun
  split at hrun
  · rename_i hwrite
    obtain rfl := (Prod.mk.inj (Except.ok.inj hrun)).2
    simp only [canWrite, Bool.and_eq_true] at hwrite
    exact ⟨⟨role, h.storeByte hcur hva hwrite.1.1⟩, fun _ hq => hq⟩
  · obtain ⟨r, s1, hservice, hpure⟩ := Kernel.run_bind_eq_ok.mp hrun
    obtain rfl := (Prod.mk.inj (Except.ok.inj hpure)).2
    rcases service_ok rfl hservice with ⟨hwrite, -⟩ | ⟨-, hle, s2, hcow, hs1⟩
    · cases hwrite
    · have hva' := lt_of_le_of_lt hle (h.layout.sz_lt hcur)
      have hR := h.layout.sorted.reach hcur (page_lt_of_lt_kernBase hva')
      have hserved := hR.copypage_spec hva' hcow
      obtain ⟨role', h'⟩ := h.served hcur hva' hserved hpage
      have hproc : ∀ q, (s2.proc q).state = (s.proc q).state := fun q => by
        rw [hserved.proc_eq.1]
      rcases hs1 with rfl | rfl
      · exact ⟨⟨role', h'⟩, fun q hq => (hproc q).trans hq⟩
      · exact ⟨⟨role', h'.exited⟩, noNewSlot_exited hproc hlive⟩

end Steps

/-- The steps that keep the guard page: forks that take the copy-on-write branch, and stores except
those to a guard page that `isshared` finds shared. -/
def KeepsGuard (s : Machine) : UserEvent → Prop
  | .fork p => ownMemory (s.proc p).name = false
  | .load _ _ => True
  | .store p va _ => va / pgSize = s.guardPage p →
    isshared s p va ≠ some .table ∧ isshared s p va ≠ some .frame

def GuardedStep (l : Lineage) (e : UserEvent) (l' : Lineage) : Prop :=
  LineageStep l e l' ∧ KeepsGuard l.machine e

def Lineage.Guarded (l : Lineage) (g : Nat) : Prop :=
  ∃ role, Xv6.Guarded l.machine role (fun q => l.member q = true) g

theorem Lineage.Guarded.of_noNewSlot {l : Lineage} {g : Nat} {m : Machine}
    (h : (∃ role, Xv6.Guarded m role (fun q => l.member q = true) g) ∧ NoNewSlot l.machine m) :
    (l.after m).Guarded g := by
  obtain ⟨⟨role, hg⟩, hslot⟩ := h
  have hmember : (l.after m).member = l.member := by
    funext q
    simp only [Lineage.after, Bool.or_eq_left_iff_imp, decide_eq_true_eq]
    rintro ⟨hunused, hused⟩
    exact absurd (hslot q hunused) hused
  exact ⟨role, by rw [hmember]; exact hg⟩

theorem Guarded.mono {s : Machine} {role : Nat → Role} {H H' : Fin nproc → Prop} {g : Nat}
    (h : Guarded s role H g) (hsub : ∀ q, H' q → H q) : Guarded s role H' g :=
  ⟨h.layout.mono hsub, fun q hq => h.used q (hsub q hq), fun q hq => h.pages q (hsub q hq), h.clear⟩

theorem fork_guarded {l : Lineage} {g : Nat} (h : l.Guarded g) {p : Fin nproc}
    (hp : l.member p = true) (hown : ownMemory (l.machine.proc p).name = false) {r : Option Word}
    {m : Machine} (hrun : (fork p).run l.machine = .ok (r, m)) : (l.after m).Guarded g := by
  obtain ⟨role, hg⟩ := h
  rcases fork_spec hg.layout hg.used hp hown hrun with ⟨-, rfl⟩ | ⟨np, -, hnp, rfl⟩ |
    ⟨np, -, hnp, hforked⟩
  · exact .of_noNewSlot ⟨⟨role, hg⟩, fun _ hq => hq⟩
  · have hne : ∀ q ≠ np, (l.machine.unallocated np).proc q = l.machine.proc q := fun q hq => by
      rw [unallocated, setProc_proc_of_ne _ _ hq]
      exact setProc_proc_of_ne _ _ hq
    refine .of_noNewSlot ⟨⟨role, hg.setProcs rfl fun q hq => ?_⟩, fun q hq => ?_⟩
    · rw [hne q fun heq => hnp (heq ▸ hq)]
      exact ⟨rfl, rfl, rfl, hg.used q hq⟩
    · by_cases hqn : q = np
      · rw [hqn, unallocated, setProc_proc_self]
      · rw [hne q hqn]
        exact hq
  · obtain ⟨role', hg'⟩ := hg.forked hp hnp hforked
    obtain ⟨n, kstack, d, tb, f, tabs, hc⟩ := hforked.childCopied hg.layout hp hnp
    refine ⟨role', hg'.mono fun q hq => ?_⟩
    simp only [Lineage.after, Bool.or_eq_true, decide_eq_true_eq] at hq
    rcases hq with hq | ⟨hunused, hused⟩
    · exact Or.inl hq
    · right
      by_contra hne
      rw [hc.proc q hne] at hused
      exact hused hunused

theorem GuardedStep.preserves {g : Nat} {l l' : Lineage} {e : UserEvent} (h : l.Guarded g)
    (hstep : GuardedStep l e l') : l'.Guarded g := by
  obtain ⟨⟨hmember, hlive, hva, m, hrun, rfl⟩, hkeep⟩ := hstep
  obtain ⟨role, hg⟩ := h
  cases e with
  | fork p =>
    obtain ⟨r, m', hfork, hpure⟩ := Kernel.run_bind_eq_ok.mp hrun
    obtain rfl := (Prod.mk.inj (Except.ok.inj hpure)).2
    exact fork_guarded ⟨role, hg⟩ hmember hkeep hfork
  | load p va => exact .of_noNewSlot (userLoad_guarded hg hlive hrun)
  | store p va b =>
    refine .of_noNewSlot (userStore_guarded hg hmember hlive hva (fun heq => hkeep ?_) hrun)
    change va / pgSize = g at heq
    rw [heq, guardPage, hg.pages p hmember, Nat.add_sub_cancel]

def Mapped (s : Machine) (cur : Fin nproc) : Prop := ∃ role, Layout s role (· = cur)

/-- The memory image `exec` leaves: the pages of the process are mapped and its own, and user mode
cannot reach the page below the stack. -/
structure ExecImage (s : Machine) (p : Fin nproc) : Prop where
  mapped : Mapped s p
  live : s.live p
  pages : 2 ≤ s.pages p
  guard : (s.pte p (s.guardPage p)).user = false

theorem ExecImage.guarded {s : Machine} {p : Fin nproc} (h : ExecImage s p) :
    ∃ role, Guarded s role (· = p) (s.guardPage p) := by
  obtain ⟨role, hL⟩ := h.mapped
  have hsp := hL.space p rfl
  set g := s.guardPage p with hg
  have hpages : s.pages p = g + 2 := by
    have := h.pages
    rw [hg, guardPage]
    omega
  have hlt : g / 1024 < s.tables p := tables_le_of_lt (by omega)
  let role' : Nat → Role := fun f =>
    if role f = .table (g / 1024) ∧ f ≠ s.tab p (g / 1024) then .other else role f
  have hsame : ∀ f, role f ≠ .table (g / 1024) → role' f = role f := fun f hf =>
    if_neg fun hand => hf hand.1
  have huses : ∀ f, Uses s p f → role' f = role f := by
    intro f hf
    by_cases htable : role f = .table (g / 1024)
    · apply if_neg
      rintro ⟨-, hne⟩
      rcases hf with rfl | rfl | ⟨i, hi, hpres, rfl⟩ | ⟨a, ha, rfl⟩
      · rw [hsp.dir] at htable
        cases htable
      · rw [hsp.kstack] at htable
        cases htable
      · have hrole := hsp.role_tab hi hpres
        rw [htable] at hrole
        split at hrole
        · exact hne (by rw [Role.table.inj hrole])
        · cases hrole
      · rw [(hsp.page a ha).2] at htable
        cases htable
    · exact hsame f htable
  have hpool : Pool s role' := by
    refine ⟨hL.pool.nodup, fun f hf => ?_, fun f hf => ?_, hL.pool.kend, hL.pool.kdata⟩
    · have hfree := hL.pool.free f hf
      rw [hsame f (by rw [hfree]; simp), hfree]
    · refine hL.pool.range f fun hother => hf ?_
      rw [hsame f (by rw [hother]; simp), hother]
  refine ⟨role', ⟨hpool, ?_⟩, ?_, ?_, ?_⟩
  · rintro q rfl
    exact hsp.of_sameMaps (.of_words rfl fun _ _ => .refl _) rfl huses
  · rintro q rfl
    exact h.live.1
  · rintro q rfl
    exact hpages
  · intro f hf
    by_cases hne : f = s.tab p (g / 1024)
    · rw [hne]
      exact h.guard
    · simp only [role'] at hf
      split at hf
      · cases hf
      · rename_i hno
        exact absurd ⟨hf, hne⟩ hno

/-- **Guard page protection.** From the image `exec` has built, in every run of forks, user accesses
and page faults of the process and its descendants whose forks are copy-on-write and whose stores to
the guard page do not find it shared, the entry of the guard page keeps `PTE_U` clear in each of
them, and no user access to the page is permitted. -/
theorem guard_page_protected {l l' : Lineage} {p : Fin nproc} {es : List UserEvent}
    (himage : ExecImage l.machine p) (hmember : ∀ q, l.member q = true ↔ q = p)
    (hrun : Run GuardedStep l es l') (q : Fin nproc) (hq : l'.member q = true) :
    (l'.machine.pte q (l.machine.guardPage p)).user = false ∧
      ∀ va, va / pgSize = l.machine.guardPage p →
        l'.machine.canRead q va = false ∧ l'.machine.canWrite q va = false := by
  obtain ⟨role, hg⟩ := himage.guarded
  have hinit : l.Guarded (l.machine.guardPage p) :=
    ⟨role, hg.mono fun q hq => (hmember q).mp hq⟩
  obtain ⟨role', hg'⟩ := Run.invariant (fun l' => l'.Guarded (l.machine.guardPage p))
    (fun _ _ _ h hstep => GuardedStep.preserves h hstep) hinit hrun
  refine ⟨hg'.pte_user hq, fun va hva => ?_⟩
  have hread := hg'.not_canRead hq hva
  exact ⟨hread, by rw [canWrite, hread]; rfl⟩

def guardedProgram : Machine :=
  (booted 3 80).setWord 1154 1 ((booted 3 80).word 1154 1 &&& ~~~pteU)

def programLineage : Lineage := { machine := guardedProgram, member := fun q => q = 2 }

theorem guardedProgram_layout : Layout guardedProgram bootedRole fun p => p.val < 3 := by
  have hL : Layout (booted 3 80) bootedRole fun p => p.val < 3 :=
    booted_layout (by decide) (by decide) (by decide)
  have hp := hL.pool
  exact ⟨⟨hp.nodup, hp.free, hp.range, hp.kend, hp.kdata⟩,
    fun p hp => (hL.space p hp).clearU (k := 0) (by decide)⟩

theorem guardedProgram_pde {q : Fin nproc} (hq : q.val < 3) :
    guardedProgram.pde q 0 = mkEntry (1152 + q) (pteW ||| pteU ||| pteP) := by
  have hdir : (guardedProgram.proc q).pgdir = 1024 + q := (booted_proc (n := 3) (m := 80) hq).2.1
  rw [pde, hdir, guardedProgram, setWord_word_of_ne _ _ _ (by omega), ← hdir]
  exact booted_pde_zero hq

theorem guardedProgram_tab {q : Fin nproc} (hq : q.val < 3) :
    guardedProgram.tab q 0 = 1152 + q := by
  rw [tab, guardedProgram_pde hq, pteAddr_mkEntry_user (by omega)]

theorem guardedProgram_pte {q : Fin nproc} (hq : q.val < 3) :
    guardedProgram.pte q 1 =
      if q = 2 then mkEntry (2048 + q * 1024 + 1) (pteW ||| pteU ||| pteP) &&& ~~~pteU
      else mkEntry (2048 + q * 1024 + 1) (pteW ||| pteU ||| pteP) := by
  have hword : ∀ p : Fin nproc, p.val < 3 → (booted 3 80).word (1152 + p) 1 =
      mkEntry (2048 + p * 1024 + 1) (pteW ||| pteU ||| pteP) := by
    intro p hp
    have hpte := booted_pte (n := 3) (m := 80) hp (a := 1) (by decide)
    rw [pte, Nat.div_eq_of_lt (by decide), booted_tab_zero hp, if_pos (by decide)] at hpte
    exact hpte
  rw [pte, Nat.div_eq_of_lt (by decide), guardedProgram_tab hq,
    Nat.mod_eq_of_lt (by decide), guardedProgram]
  by_cases h2 : q = 2
  · subst h2
    rw [if_pos rfl, ← hword 2 hq]
    exact setWord_word_self _ _ _ _
  · have hne : 1152 + q.val ≠ 1154 := fun h => h2 (Fin.ext (by change q.val = 2; omega))
    rw [if_neg h2, ← hword q hq]
    exact congrFun (setWord_word_of_ne _ _ _ hne) 1

theorem guardedProgram_frame {q : Fin nproc} (hq : q.val < 3) :
    guardedProgram.frame q 1 = 2048 + q * 1024 + 1 := by
  rw [frame, guardedProgram_pte hq]
  split
  · rw [pteAddr_clearU, pteAddr_mkEntry_user (by omega)]
  · rw [pteAddr_mkEntry_user (by omega)]

theorem guardedProgram_pages : guardedProgram.pages 2 = 3 :=
  booted_pages (n := 3) (m := 80) (p := 2) (by decide)

theorem guardedProgram_guardPage : guardedProgram.guardPage 2 = 1 := by
  rw [guardPage, guardedProgram_pages]

theorem execImage_guardedProgram : ExecImage guardedProgram 2 where
  mapped := ⟨bootedRole, guardedProgram_layout.mono (by rintro _ rfl; decide)⟩
  live := ⟨by decide, by decide⟩
  pages := by
    rw [guardedProgram_pages]
    decide
  guard := by
    rw [guardedProgram_guardPage, guardedProgram_pte (by decide), if_pos rfl]
    simp [Word.user, pteU]

theorem guardedProgram_fork : ∃ m, (fork 2).run guardedProgram = .ok (some 4, m) ∧
    Forked guardedProgram 2 3 m := by
  refine fork_progress guardedProgram_layout (H := fun p => p.val < 3) (by decide) (by decide)
    (by decide) (by decide) ?_ ?_
  · change 68 ≤ (List.range' 20000 80).length
    rw [List.length_range']
    decide
  · decide

theorem programLineage_fork : ∃ m, Forked guardedProgram 2 3 m ∧
    GuardedStep programLineage (.fork 2) (programLineage.after m) := by
  obtain ⟨m, hrun, hforked⟩ := guardedProgram_fork
  refine ⟨m, hforked, ⟨by decide, ⟨by decide, by decide⟩, by decide, m, ?_, rfl⟩, ?_⟩
  · exact Kernel.run_bind_of_ok hrun
  · change ownMemory "usertests" = false
    decide

/-- After a fork the guard page is closed to the child as well. -/
theorem guard_page_protected_child :
    ∃ l', Run GuardedStep programLineage [.fork 2] l' ∧ l'.member 3 = true ∧
      (l'.machine.pte 3 1).user = false := by
  obtain ⟨m, hforked, hstep⟩ := programLineage_fork
  have hrun : Run GuardedStep programLineage [.fork 2] (programLineage.after m) :=
    .cons hstep (.nil _)
  have hmember : (programLineage.after m).member 3 = true := by
    obtain ⟨n, kstack, d, tb, f, tabs, hc⟩ :=
      hforked.childCopied guardedProgram_layout (by decide) (by decide)
    simp only [Lineage.after, Bool.or_eq_true, decide_eq_true_eq]
    refine Or.inr ⟨hc.slot, ?_⟩
    rw [hc.child]
    simp
  have h := guard_page_protected execImage_guardedProgram (l := programLineage) (p := 2)
    (fun q => decide_eq_true_iff) hrun 3 hmember
  exact ⟨_, hrun, hmember, by rw [← guardedProgram_guardPage]; exact h.1⟩

section Lost

variable {m : Machine} {n kstack d tb f : Nat} {tabs : List (Nat × Nat)}

theorem guardedProgram_not_free {g : Nat} (hg : g < 20000) : g ∉ guardedProgram.free := by
  change g ∉ List.range' 20000 80
  rw [List.mem_range'_1]
  omega

theorem ChildCopied.program_maps (hc : ChildCopied guardedProgram m 2 3 n kstack d tb f tabs)
    {q : Fin nproc} (hq : q.val < 3) :
    SameEntry (m.pde q 0) (guardedProgram.pde q 0) ∧
      SameEntry (m.pte q 1) (guardedProgram.pte q 1) := by
  have hne : q ≠ 3 := by
    rintro rfl
    exact absurd hq (by decide)
  have hdir : (m.proc q).pgdir = 1024 + q := by
    rw [hc.proc q hne]
    exact (booted_proc (n := 3) (m := 80) hq).2.1
  have hpde : SameEntry (m.pde q 0) (guardedProgram.pde q 0) := by
    rw [pde, pde, hc.proc q hne]
    exact hc.same _ (guardedProgram_not_free (by rw [← hc.proc q hne, hdir]; omega)) 0
  have htab : m.tab q 0 = 1152 + q := hpde.1.trans (guardedProgram_tab hq)
  refine ⟨hpde, ?_⟩
  rw [pte, pte, Nat.div_eq_of_lt (by decide), htab, guardedProgram_tab hq]
  exact hc.same _ (guardedProgram_not_free (by omega)) _

theorem ChildCopied.program_tab (hc : ChildCopied guardedProgram m 2 3 n kstack d tb f tabs)
    {q : Fin nproc} (hq : q.val < 3) :
    (m.pde q 0).present = true ∧ m.tab q 0 = 1152 + q ∧ m.frame q 1 = 2048 + q * 1024 + 1 := by
  obtain ⟨hpde, hpte⟩ := hc.program_maps hq
  refine ⟨?_, hpde.1.trans (guardedProgram_tab hq), hpte.1.trans (guardedProgram_frame hq)⟩
  rw [hpde.2.1, guardedProgram_pde hq]
  exact present_mkEntry

theorem ChildCopied.program_shared (hc : ChildCopied guardedProgram m 2 3 n kstack d tb f tabs) :
    isshared m 2 pgSize = some .frame := by
  have hn : n = 2 := by
    have hlast := hc.last
    rw [guardedProgram_pages] at hlast
    omega
  subst hn
  have hva : pgSize < 2 ^ 32 := by decide
  have hpage : pgSize / pgSize = 1 := by decide
  obtain ⟨rest, hslots⟩ : ∃ rest, List.finRange nproc = 0 :: 1 :: 2 :: 3 :: rest :=
    ⟨(List.finRange nproc).drop 4, by decide⟩
  have hmem : ∀ g ∈ [d, tb], 20000 ≤ g := by
    intro g hg
    have hfree : g ∈ List.range' 20000 80 := by
      change g ∈ guardedProgram.free
      rw [hc.taken]
      simp only [List.mem_cons, List.not_mem_nil, or_false] at hg
      rcases hg with rfl | rfl <;> simp
    rw [List.mem_range'_1] at hfree
    exact hfree.1
  have hdir : ∀ q : Fin nproc, q.val < 3 → (m.proc q).pgdir = 1024 + q := by
    intro q hq
    have hne : q ≠ 3 := by
      rintro rfl
      exact absurd hq (by decide)
    rw [hc.proc q hne]
    exact (booted_proc (n := 3) (m := 80) hq).2.1
  have hlast := hc.tab_last (guardedProgram_layout.forkable (by decide))
  have hcur := hc.program_tab (q := 2) (by decide)
  have hdirChild : (m.proc 3).pgdir = d := by rw [hc.child]
  -- the two older processes have tables and pages of their own
  have hother : ∀ q : Fin nproc, q.val < 2 → ∀ rest,
      issharedScan m 2 pgSize (q :: rest) = issharedScan m 2 pgSize rest := by
    intro q hq rest
    have hmaps := hc.program_tab (q := q) (by omega)
    have hne2 : q ≠ 2 := by
      rintro rfl
      exact absurd hq (by decide)
    have hne3 : q ≠ 3 := by
      rintro rfl
      exact absurd hq (by decide)
    have hproc : m.proc q = bootedProc 3 q := hc.proc q hne3
    have hq01 : q = 0 ∨ q = 1 :=
      (by omega : q.val = 0 ∨ q.val = 1).imp (fun h => Fin.ext h) fun h => Fin.ext h
    rw [issharedScan_cons hva rest, if_neg]
    · intro heq
      rw [hpage] at heq
      have hframe : m.frame 2 1 = m.frame q 1 := congrArg pteAddr heq
      rw [hcur.2.2, hmaps.2.2] at hframe
      change 2048 + 2 * 1024 + 1 = _ at hframe
      omega
    · rw [hproc]
      rcases hq01 with rfl | rfl <;> decide
    · rw [hproc]
      rcases hq01 with rfl | rfl <;> decide
    · exact hne2
    · rw [hdir 2 (by decide), hdir q (by omega)]
      change 1024 + 2 ≠ _
      omega
    · rw [hdir 2 (by decide), hdir q (by omega)]
      omega
    · intro heq
      have htab : m.tab 2 0 = m.tab q 0 := congrArg pteAddr heq
      rw [hcur.2.1, hmaps.2.1] at htab
      change 1152 + 2 = _ at htab
      omega
    · exact hcur.1
    · exact hmaps.1
  have hself : ∀ rest, issharedScan m 2 pgSize (2 :: rest) = issharedScan m 2 pgSize rest := by
    intro rest
    have hproc : m.proc 2 = bootedProc 3 2 := hc.proc 2 (by decide)
    rw [issharedScan, hproc, if_neg (by decide), if_pos (Or.inr rfl)]
  rw [isshared, hslots, hother 0 (by decide), hother 1 (by decide), hself,
    issharedScan_cons hva rest, if_pos]
  · rw [hpage, pte, pte]
    have htab3 : m.tab 3 (1 / 1024) = tb := hlast.2
    have htab2 : m.tab 2 (1 / 1024) = guardedProgram.tab 2 (2 / 1024) :=
      hcur.2.1.trans (guardedProgram_tab (by decide)).symm
    rw [htab3, htab2]
    exact (hc.shared 1 (by decide)).symm
  · rw [hc.child]
    change (4 : Word) ≠ 0
    decide
  · rw [hc.child]
    simp
  · decide
  · rw [hdir 2 (by decide), hdirChild]
    have := hmem d (by simp)
    change 1024 + 2 ≠ d
    omega
  · rw [hdir 2 (by decide), hdirChild]
    have := hmem d (by simp)
    change 1024 + 2 ≠ 0 ∧ d ≠ 0
    omega
  · intro heq
    have htab : m.tab 2 0 = m.tab 3 0 := congrArg pteAddr heq
    have htab3 : m.tab 3 0 = tb := hlast.2
    rw [hcur.2.1, htab3] at htab
    have := hmem tb (by simp)
    change 1152 + 2 = tb at htab
    omega
  · exact hcur.1
  · have hpde : m.pde 3 0 = mkEntry tb (pteW ||| pteU ||| pteP) := hlast.1
    change (m.pde 3 0).present = true
    rw [hpde]
    exact present_mkEntry

/-- **The guard page is lost.** After a fork a store to the guard page finds it shared with the
child, and the service of the fault enters a copy of the page that user mode may access. -/
theorem guard_page_lost :
    ExecImage programLineage.machine 2 ∧ (∀ q, programLineage.member q = true ↔ q = 2) ∧
      ∃ l', Run LineageStep programLineage [.fork 2, .store 2 pgSize 0] l' ∧
        l'.member 2 = true ∧ (l'.machine.pte 2 (guardedProgram.guardPage 2)).user = true ∧
        l'.machine.canRead 2 pgSize = true := by
  refine ⟨execImage_guardedProgram, fun q => decide_eq_true_iff, ?_⟩
  obtain ⟨m, hforked, hstep⟩ := programLineage_fork
  obtain ⟨n, kstack, d, tb, f, tabs, hc⟩ :=
    hforked.childCopied guardedProgram_layout (by decide) (by decide)
  have hL := hc.layout guardedProgram_layout (by decide) (by decide)
  have hproc : m.proc 2 = bootedProc 3 2 := hc.proc 2 (by decide)
  have hpages : pgSize / pgSize < m.pages 2 := by
    rw [pages, hproc]
    decide
  obtain ⟨hpde, hpte⟩ := hc.program_maps (q := 2) (by decide)
  have hread : m.canRead 2 pgSize = false := by
    have huser : (m.pte 2 1).user = false := by
      rw [hpte.2.2, ← guardedProgram_guardPage]
      exact execImage_guardedProgram.guard
    change (_ && (m.pte 2 1).user) = false
    rw [huser, Bool.and_false]
  have hfree : 1 ≤ m.free.length := by
    have hlen := congrArg List.length hc.taken
    change (List.range' 20000 80).length = _ at hlen
    simp only [List.length_range', List.length_cons, List.length_append, List.length_map,
      hc.count] at hlen
    omega
  have hservable : CowServable m 2 pgSize := by
    rw [CowServable, hc.program_shared]
    exact ⟨((hL.space 2 (Or.inl (by decide))).mapped_iff (by decide)).mpr hpages, hfree⟩
  have hR : Reach m 2 (pgSize / pgSize) := hL.sorted.reach (Or.inl (by decide)) (by decide)
  obtain ⟨m', hcow⟩ := hR.trapCOW_ok (by decide) hservable
  have hstore : (userStore 2 pgSize 0).run m = .ok ((), m') := by
    have hkilled : (m'.proc 2).killed = false := by
      rw [(hR.copypage_spec (by decide) hcow).proc_eq.1, hproc]
      rfl
    have hservice : ((m.userFault 2 pgSize true).service 2 0).run m = .ok (.returned, m') := by
      have hle : pgSize ≤ (m.proc 2).sz := by
        rw [hproc]
        decide
      rw [service_cow rfl rfl hle]
      change ((trapCOW 2 pgSize).run m).bind _ = _
      rw [hcow]
      change (if (m'.proc 2).killed = true then _ else _) = _
      rw [hkilled, if_neg Bool.false_ne_true]
    rw [userStore, Kernel.run_get_bind, canWrite, hread]
    exact Kernel.run_bind_of_ok hservice
  have hlive : m.live 2 := by
    rw [live, hproc]
    decide
  refine ⟨(programLineage.after m).after m',
    .cons hstep.1 (.cons ⟨rfl, hlive, by decide, m', hstore, rfl⟩ (.nil _)), rfl, ?_⟩
  cases hR.copypage_spec (by decide) hcow with
  | nothing hlevel => rw [hc.program_shared] at hlevel; cases hlevel
  | table hlevel => rw [hc.program_shared] at hlevel; cases hlevel
  | @frame f' rest hlevel hmap hfree' =>
    obtain ⟨hdir, hentry⟩ := hR.withFrame_entry hmap hfree'
    have hpage : pgSize / pgSize = 1 := by decide
    rw [hpage] at hentry hdir
    rw [guardedProgram_guardPage]
    change ((m.withFrame 2 (pgSize / pgSize) f' rest).pte 2 1).user = true ∧
      (m.withFrame 2 (pgSize / pgSize) f' rest).canRead 2 pgSize = true
    rw [hpage, hentry]
    refine ⟨user_mkEntry, ?_⟩
    have hpde' : (m.withFrame 2 1 f' rest).pde 2 (pgSize / 2 ^ 22) = m.pde 2 0 := hdir
    rw [canRead, hpde', hpage, hentry, hpde.2.1, hpde.2.2,
      guardedProgram_pde (by decide), present_mkEntry, user_mkEntry, present_mkEntry,
      user_mkEntry]
    rfl

end Lost

end Xv6
