import Xv6.Proof.ProcTableInv

/-!
# No child is lost

`exit` wakes the parent and hands the children over in one section under `ptable.lock`, and `wait`
scans and goes to sleep in one. So a parent is always there to collect a zombie, and it does not
sleep through one.
-/

namespace Xv6

variable {n : Nat} {initproc : Fin n} {s s' : Ptable n} {p q np : Fin n}

theorem PairStep.of_modify {f g : Task n → Task n} (hne : p ≠ q) :
    PairStep s p q (g (s.proc p)) (f (s.proc q)) ((s.modify q f).modify p g) where
  ne := hne
  first := by rw [Ptable.modify_self, Ptable.modify_of_ne s f hne]
  second := by rw [Ptable.modify_of_ne _ g hne.symm, Ptable.modify_self]
  other r hrp hrq := by rw [Ptable.modify_of_ne _ g hrp, Ptable.modify_of_ne s f hrq]

structure PtableOk (initproc : Fin n) (s : Ptable n) : Prop where
  inv : PtableInv initproc s
  history : PtableHistory initproc s

theorem PtableOk.modify {f : Task n → Task n} (hok : PtableOk initproc s)
    (h : Stirred s (s.modify p f))
    (hsleep : (f (s.proc p)).state = .sleeping → (f (s.proc p)).chan = some (.proc p) →
      ∀ q, (s.proc q).parent = some p → (s.proc q).state ≠ .zombie) :
    PtableOk initproc (s.modify p f) :=
  ⟨hok.inv.modify h hsleep, hok.history.stir h⟩

theorem PtableOk.allocproc (hok : PtableOk initproc s) (hrun : (s.proc p).state = .running) :
    PtableOk initproc (s.allocproc p) := by
  unfold Ptable.allocproc
  split
  · exact hok
  · rename_i np hfind
    have hunused : (s.proc np).state = .unused := by simpa using List.find?_some hfind
    have hne : p ≠ np := by
      rintro rfl
      rw [hrun] at hunused
      cases hunused
    have hstep := PairStep.of_modify (s := s)
      (f := fun t => { t with state := .embryo, pid := s.nextpid, number := s.nextNumber })
      (g := fun t => { t with pc := .forking np }) hne
    obtain ⟨-, h1, h2, h3⟩ := hstep
    exact ⟨hok.inv.allocated hrun hunused ⟨hne, h1, h2, h3⟩,
      hok.history.allocated hok.inv hrun hunused ⟨hne, h1, h2, h3⟩ rfl rfl rfl⟩

theorem PtableInv.child_ne (hinv : PtableInv initproc s) (h : (s.proc p).pc.child = some np) :
    (s.proc p).state.Live ∧ (s.proc np).state = .embryo ∧ p ≠ np := by
  have hembryo := hinv.child_embryo h
  have hlive : (s.proc p).state.Live := by
    refine hinv.pcLive p fun hpc => ?_
    rw [hpc] at h
    cases h
  refine ⟨hlive, hembryo, ?_⟩
  rintro rfl
  rw [hembryo] at hlive
  exact hlive

theorem PtableOk.forkFail (hok : PtableOk initproc s) (hpc : (s.proc p).pc = .forking np) :
    PtableOk initproc (s.forkFail p np) := by
  have hchild : (s.proc p).pc.child = some np := by rw [hpc]; rfl
  obtain ⟨hlive, hembryo, hne⟩ := hok.inv.child_ne hchild
  have hstep := PairStep.of_modify (s := s) (f := fun t => { t with state := .unused })
    (g := fun t => { t with pc := .user }) hne
  exact ⟨hok.inv.forkStep hchild hstep (by simp) rfl (by simp [hok.inv.forking p np hpc]),
    hok.history.forkStep hok.inv hlive hembryo hstep (by simp) (by simp) rfl rfl rfl⟩

theorem PtableOk.setParent (hok : PtableOk initproc s) (hpc : (s.proc p).pc = .forking np) :
    PtableOk initproc (s.setParent p np) := by
  have hchild : (s.proc p).pc.child = some np := by rw [hpc]; rfl
  obtain ⟨hlive, hembryo, hne⟩ := hok.inv.child_ne hchild
  have hstep := PairStep.of_modify (s := s)
    (f := fun t => { t with parent := some p, creator := (s.proc p).number })
    (g := fun t => { t with pc := .forked np }) hne
  exact ⟨hok.inv.forkStep hchild hstep (by simp) rfl (by simp [hembryo]),
    hok.history.forkStep hok.inv hlive hembryo hstep (by simp) (by simp [hembryo]) rfl rfl rfl⟩

theorem PtableOk.forkEnd (hok : PtableOk initproc s) (hpc : (s.proc p).pc = .forked np) :
    PtableOk initproc (s.forkEnd p np) := by
  have hchild : (s.proc p).pc.child = some np := by rw [hpc]; rfl
  obtain ⟨hlive, hembryo, hne⟩ := hok.inv.child_ne hchild
  have hstep := PairStep.of_modify (s := s) (f := fun t => { t with state := .runnable })
    (g := fun t => { t with pc := .user }) hne
  exact ⟨hok.inv.forkStep hchild hstep (by simp) rfl (by simp [hok.inv.forked p np hpc]),
    hok.history.forkStep hok.inv hlive hembryo hstep (by simp) (by simp) rfl rfl rfl⟩

theorem waitScan_reap {slots : List (Fin n)} {havekids : Bool}
    (h : s.waitScan p slots havekids = .reap q) :
    (s.proc q).parent = some p ∧ (s.proc q).state = .zombie := by
  induction slots generalizing havekids with
  | nil =>
    rw [Ptable.waitScan] at h
    split at h <;> cases h
  | cons r slots ih =>
    rw [Ptable.waitScan] at h
    split at h
    · rename_i hparent
      split at h
      · rename_i hz
        cases h
        exact ⟨hparent, hz⟩
      · exact ih h
    · exact ih h

theorem waitScan_sleep {slots : List (Fin n)} {havekids : Bool}
    (h : s.waitScan p slots havekids = .sleep) :
    ∀ q ∈ slots, (s.proc q).parent = some p → (s.proc q).state ≠ .zombie := by
  induction slots generalizing havekids with
  | nil => simp
  | cons r slots ih =>
    rw [Ptable.waitScan] at h
    split at h
    · rename_i hparent
      split at h
      · cases h
      · rename_i hz
        intro q hq
        rcases List.mem_cons.mp hq with rfl | hq
        · exact fun _ => hz
        · exact ih h q hq
    · rename_i hparent
      intro q hq
      rcases List.mem_cons.mp hq with rfl | hq
      · exact fun hp => absurd hp hparent
      · exact ih h q hq

theorem waitScan_fail {slots : List (Fin n)} {havekids : Bool}
    (h : s.waitScan p slots havekids = .fail) :
    (havekids = false ∧ ∀ q ∈ slots, (s.proc q).parent ≠ some p) ∨ (s.proc p).killed = true := by
  induction slots generalizing havekids with
  | nil =>
    rw [Ptable.waitScan] at h
    cases havekids <;> simp_all
  | cons r slots ih =>
    rw [Ptable.waitScan] at h
    split at h
    · split at h
      · cases h
      · rcases ih h with ⟨hkids, -⟩ | hkilled
        · cases hkids
        · exact .inr hkilled
    · rename_i hparent
      refine (ih h).imp_left ?_
      rintro ⟨hkids, hnone⟩
      refine ⟨hkids, fun q hq => ?_⟩
      rcases List.mem_cons.mp hq with rfl | hq
      · exact hparent
      · exact hnone q hq

theorem PtableOk.wait (hok : PtableOk initproc s) (hrun : (s.proc p).state = .running)
    (hpc : (s.proc p).pc.child = none) : PtableOk initproc (s.wait p) := by
  have hlive : (s.proc p).state.Live := by
    rw [hrun]
    trivial
  unfold Ptable.wait
  split
  · rename_i q hscan
    obtain ⟨hparent, hz⟩ := waitScan_reap hscan
    have hne : p ≠ q := by
      rintro rfl
      rw [hrun] at hz
      cases hz
    have hstep := PairStep.of_modify (s := s)
      (f := fun t => { t with state := .unused, pid := 0, parent := none, killed := false })
      (g := fun t => { t with pc := .user }) hne
    obtain ⟨-, h1, h2, h3⟩ := hstep
    exact ⟨hok.inv.reaped hrun hz ⟨hne, h1, h2, h3⟩,
      hok.history.reaped hok.inv hrun hz hparent ⟨hne, h1, h2, h3⟩ rfl rfl rfl⟩
  · refine hok.modify (.modify (.inl rfl) (.inr ⟨hlive, hpc, rfl⟩) ⟨rfl, rfl, rfl, rfl⟩) ?_
    intro hs
    simp only [hrun] at hs
    cases hs
  · rename_i hscan
    refine hok.modify (.modify (.inr ⟨hlive, trivial⟩) (.inr ⟨hlive, hpc, rfl⟩)
      ⟨rfl, rfl, rfl, rfl⟩) ?_
    exact fun _ _ q => waitScan_sleep hscan q (List.mem_finRange q)

theorem PtableOk.switchTo (hok : PtableOk initproc s) (hlive : (s.proc p).state.Live) :
    PtableOk initproc (s.switchTo p) := by
  refine hok.modify (.modify (.inr ⟨hlive, trivial⟩) (.inl rfl) ⟨rfl, rfl, rfl, rfl⟩) ?_
  intro hs
  cases hs

theorem PtableOk.resume (hok : PtableOk initproc s) (hlive : (s.proc p).state.Live) :
    PtableOk initproc (s.resume p) := by
  have hswitch := hok.switchTo hlive
  unfold Ptable.resume
  split
  · rename_i hpc
    refine hswitch.wait ?_ ?_
    · rw [Ptable.switchTo, Ptable.modify_self]
    · rw [Ptable.switchTo, Ptable.modify_self]
      dsimp only
      rw [hpc]
      rfl
  · exact hswitch

theorem PtableOk.kill (hok : PtableOk initproc s) (pid : Word) :
    PtableOk initproc (s.kill pid) := by
  unfold Ptable.kill
  split
  · exact hok
  · rename_i q _
    by_cases hs : (s.proc q).state = .sleeping
    · refine hok.modify (.modify (.inr ?_) (.inl rfl) ⟨rfl, rfl, rfl, rfl⟩) ?_
      · simp [hs, ProcState.Live]
      · simp [hs]
    · refine hok.modify (.modify (.inl ?_) (.inl rfl) ⟨rfl, rfl, rfl, rfl⟩) ?_
      · simp [hs]
      · simp [hs]

theorem PtableOk.wakeup1 (hok : PtableOk initproc s) (c : Chan n) :
    PtableOk initproc (s.wakeup1 c) :=
  ⟨hok.inv.wakeup1 c, hok.history.stir (.wakeup1 s c)⟩

theorem wakeup1_running {c : Chan n} (h : (s.proc p).state = .running) :
    (s.wakeup1 c).proc p = s.proc p := by
  simp only [Ptable.wakeup1, Ptable.wake, h]
  rfl

theorem PtableOk.wakeParent (hok : PtableOk initproc s) (hrun : (s.proc p).state = .running) :
    PtableOk initproc (s.wakeParent p) ∧ (s.wakeParent p).proc p = s.proc p ∧
      ∀ q, (s.proc p).parent = some q → ¬(((s.wakeParent p).proc q).state = .sleeping ∧
        ((s.wakeParent p).proc q).chan = some (.proc q)) := by
  cases hparent : (s.proc p).parent with
  | none =>
    simp only [Ptable.wakeParent, hparent]
    refine ⟨hok, trivial, fun q hq => ?_⟩
    cases hq
  | some r =>
    simp only [Ptable.wakeParent, hparent]
    refine ⟨hok.wakeup1 _, wakeup1_running hrun, ?_⟩
    rintro q hq ⟨hs, hc⟩
    cases hq
    obtain ⟨heq, hne⟩ := Ptable.wakeup1_sleeping hs
    exact hne (heq ▸ hc)

theorem PtableOk.exit (hok : PtableOk initproc s) (hne : p ≠ initproc)
    (hrun : (s.proc p).state = .running) (hpc : (s.proc p).pc = .user) :
    PtableOk initproc (s.exit initproc p) := by
  obtain ⟨hw, hproc, hwoken⟩ := hok.wakeParent hrun
  have hadopt := adopted_foldl hne (List.finRange n) (s.wakeParent p)
  rw [← hproc] at hrun hpc hwoken
  have hother : ∀ q ≠ p, (s.exit initproc p).proc q =
      ((List.finRange n).foldl (Ptable.adopt initproc p) (s.wakeParent p)).proc q :=
    fun q hq => Function.update_of_ne hq _ _
  exact ⟨hw.inv.exited hne hrun hpc hwoken hadopt (Function.update_self ..) hother,
    hw.history.exited hne hrun hadopt (Function.update_self ..) hother rfl rfl rfl⟩

theorem ptableOk_step {e : PtableEvent n} (hok : PtableOk initproc s)
    (hstep : PtableStep initproc s e s') : PtableOk initproc s' := by
  cases e with
  | fork p =>
    simp only [PtableStep, Ptable.exec] at hstep
    split at hstep
    · rename_i h
      cases hstep
      exact hok.allocproc h.1
    · cases hstep
  | forkFail p =>
    simp only [PtableStep, Ptable.exec] at hstep
    split at hstep
    · rename_i np _ hpc
      cases hstep
      exact hok.forkFail hpc
    · cases hstep
  | forkParent p =>
    simp only [PtableStep, Ptable.exec] at hstep
    split at hstep
    · rename_i np _ hpc
      cases hstep
      exact hok.setParent hpc
    · cases hstep
  | forkEnd p =>
    simp only [PtableStep, Ptable.exec] at hstep
    split at hstep
    · rename_i np _ hpc
      cases hstep
      exact hok.forkEnd hpc
    · cases hstep
  | exit p =>
    simp only [PtableStep, Ptable.exec] at hstep
    split at hstep
    · rename_i h
      cases hstep
      exact hok.exit h.2.2 h.1 h.2.1
    · cases hstep
  | wait p =>
    simp only [PtableStep, Ptable.exec] at hstep
    split at hstep
    · rename_i h
      cases hstep
      exact hok.wait h.1 (by rw [h.2]; rfl)
    · cases hstep
  | kill pid =>
    cases hstep
    exact hok.kill pid
  | schedule p =>
    simp only [PtableStep, Ptable.exec] at hstep
    split at hstep
    · rename_i h
      cases hstep
      exact hok.resume (by rw [h]; trivial)
    · cases hstep
  | yield p =>
    simp only [PtableStep, Ptable.exec] at hstep
    split at hstep
    · rename_i h
      cases hstep
      refine hok.modify (.modify (.inr ⟨by rw [h]; trivial, trivial⟩) (.inl rfl)
        ⟨rfl, rfl, rfl, rfl⟩) ?_
      intro hs
      cases hs
    · cases hstep
  | sleep p addr =>
    simp only [PtableStep, Ptable.exec] at hstep
    split at hstep
    · rename_i h
      cases hstep
      refine hok.modify (.modify (.inr ⟨by rw [h]; trivial, trivial⟩) (.inl rfl)
        ⟨rfl, rfl, rfl, rfl⟩) ?_
      intro _ hc
      cases hc
    · cases hstep
  | wakeup addr =>
    cases hstep
    exact hok.wakeup1 _

/-- What holds between any two steps. An exit is accounted for when its process is still there as a
zombie, or one `wait` has returned its pid: a `wait` of the process that forked it, or of init after
that process has exited. -/
structure ForkExitWait (initproc : Fin n) (s : Ptable n) : Prop where
  parent : ∀ p ≠ initproc, (s.proc p).state ≠ .unused → (s.proc p).state ≠ .embryo →
    ∃ q, (s.proc p).parent = some q ∧ (s.proc q).state ≠ .unused ∧ (s.proc q).state ≠ .zombie
  exitedOnce : (s.exited.map (·.number)).Nodup
  collected : ∀ e ∈ s.exited,
    (∃ z, (s.proc z).state = .zombie ∧ (s.proc z).number = e.number ∧ (s.proc z).pid = e.pid ∧
      ∀ r ∈ s.returned, r.number ≠ e.number) ∨
    ∃ r, s.returned.filter (fun r => r.number = e.number) = [r] ∧ r.pid = e.pid ∧
      (r.waiterNumber = e.creator ∨
        r.waiter = initproc ∧ ∃ e' ∈ s.exited, e'.number = e.creator)
  returned : ∀ r ∈ s.returned, ∃ e ∈ s.exited, e.number = r.number ∧ e.pid = r.pid
  minusOne : ∀ p t, t = s ∨ t = s.switchTo p → t.waitScan p (List.finRange n) false = .fail →
    (∀ q, (s.proc q).parent ≠ some p) ∨ (s.proc p).killed = true
  sleeping : ∀ p q, (s.proc p).state = .sleeping → (s.proc p).chan = some (.proc p) →
    (s.proc q).parent = some p → (s.proc q).state ≠ .zombie

theorem ProcState.Live.ne {t : ProcState} (h : t.Live) : t ≠ .unused ∧ t ≠ .zombie := by
  constructor <;> rintro rfl <;> exact h

theorem eq_of_number_eq {l : List ExitRecord} (hnodup : (l.map (·.number)).Nodup)
    {e e' : ExitRecord} (he : e ∈ l) (he' : e' ∈ l) (hnum : e.number = e'.number) : e = e' :=
  List.inj_on_of_nodup_map hnodup he he' hnum

theorem filter_number_eq {l : List (WaitRecord n)} (hnodup : (l.map (·.number)).Nodup)
    {r : WaitRecord n} (hr : r ∈ l) : l.filter (fun r' => r'.number = r.number) = [r] := by
  induction l with
  | nil => cases hr
  | cons a l ih =>
    rw [List.map_cons, List.nodup_cons] at hnodup
    obtain ⟨hnot, hnodup⟩ := hnodup
    rcases List.mem_cons.mp hr with rfl | hr
    · have hnone : l.filter (fun r' => r'.number = r.number) = [] := by
        rw [List.filter_eq_nil_iff]
        intro r' hr'
        simp only [decide_eq_true_eq]
        exact fun heq => hnot (heq ▸ List.mem_map_of_mem hr')
      simp [hnone]
    · have hne : a.number ≠ r.number := fun heq => hnot (heq ▸ List.mem_map_of_mem hr)
      simp [hne, ih hnodup hr]

theorem PtableHistory.collected (hhist : PtableHistory initproc s) {e : ExitRecord}
    (he : e ∈ s.exited) :
    (∃ z, (s.proc z).state = .zombie ∧ (s.proc z).number = e.number ∧ (s.proc z).pid = e.pid ∧
      ∀ r ∈ s.returned, r.number ≠ e.number) ∨
    ∃ r, s.returned.filter (fun r => r.number = e.number) = [r] ∧ r.pid = e.pid ∧
      (r.waiterNumber = e.creator ∨
        r.waiter = initproc ∧ ∃ e' ∈ s.exited, e'.number = e.creator) := by
  rcases hhist.accounted e he with ⟨z, hz, hnum⟩ | ⟨r, hr, hnum⟩
  · left
    obtain ⟨hmem, hnot⟩ := hhist.zombie z hz
    have heq := eq_of_number_eq hhist.exitedNodup hmem he hnum
    refine ⟨z, hz, hnum, congrArg ExitRecord.pid heq, fun r hr => ?_⟩
    rw [← hnum]
    exact hnot r hr
  · right
    obtain ⟨e', he', hnum', hpid, hwaiter⟩ := hhist.returnedExit r hr
    obtain rfl := eq_of_number_eq hhist.exitedNodup he' he (hnum'.trans hnum)
    exact ⟨r, hnum ▸ filter_number_eq hhist.returnedNodup hr, hpid.symm, hwaiter⟩

theorem PtableInv.minusOne {t : Ptable n} (ht : t = s ∨ t = s.switchTo p)
    (h : t.waitScan p (List.finRange n) false = .fail) :
    (∀ q, (s.proc q).parent ≠ some p) ∨ (s.proc p).killed = true := by
  have hsame : ∀ q, (t.proc q).parent = (s.proc q).parent ∧
      (t.proc q).killed = (s.proc q).killed := by
    intro q
    rcases ht with rfl | rfl
    · exact ⟨rfl, rfl⟩
    · by_cases hq : q = p
      · subst hq
        rw [Ptable.switchTo, Ptable.modify_self]
        exact ⟨rfl, rfl⟩
      · rw [Ptable.switchTo, Ptable.modify_of_ne _ _ hq]
        exact ⟨rfl, rfl⟩
  rcases waitScan_fail h with ⟨-, hnone⟩ | hkilled
  · exact .inl fun q => (hsame q).1 ▸ hnone q (List.mem_finRange q)
  · exact .inr ((hsame p).2 ▸ hkilled)

/-- In every interleaving of `fork`, `exit`, `wait`, `kill` and scheduling. -/
theorem fork_exit_wait (initproc : Fin n) (events : List (PtableEvent n)) (s : Ptable n)
    (hrun : Run (PtableStep initproc) (.init initproc) events s) : ForkExitWait initproc s := by
  have hok := Run.invariant (PtableOk initproc) (fun _ _ _ h hstep => ptableOk_step h hstep)
    ⟨ptableInv_init initproc, ptableHistory_init initproc⟩ hrun
  refine ⟨?_, hok.history.exitedNodup, fun e => hok.history.collected, ?_,
    fun p t => PtableInv.minusOne, hok.inv.sleeping⟩
  · intro p hne hu he
    obtain ⟨q, hq⟩ := Option.ne_none_iff_exists'.mp (hok.inv.hasParent p hne hu he)
    exact ⟨q, hq, (hok.inv.parentLive p q hq).ne⟩
  · intro r hr
    obtain ⟨e, he, hnum, hpid, -⟩ := hok.history.returnedExit r hr
    exact ⟨e, he, hnum, hpid⟩

/-- A child and a grandchild: the child exits first, the grandchild then passes to init, which
collects both. -/
def orphanRun : List (PtableEvent 4) :=
  [.schedule 0, .fork 0, .forkParent 0, .forkEnd 0, .wait 0, .schedule 1, .fork 1, .forkParent 1,
    .forkEnd 1, .exit 1, .schedule 0, .wait 0, .schedule 2, .exit 2, .schedule 0, .wait 0]

theorem fork_exit_wait_orphanRun : ∃ s : Ptable 4,
    Run (PtableStep 0) (.init 0) orphanRun s ∧
      s.returned.map (fun r => (r.waiter, r.pid)) = [(0, 2), (0, 3)] ∧ ForkExitWait 0 s := by
  have hexec : (execAll (Ptable.exec 0) (Ptable.init 0) orphanRun).map
      (fun s : Ptable 4 => s.returned.map fun r => (r.waiter, r.pid)) = some [(0, 2), (0, 3)] := by
    decide
  have hstep : ∀ (s : Ptable 4) e s', Ptable.exec 0 s e = some s' → PtableStep 0 s e s' :=
    fun _ _ _ h => h
  obtain ⟨s, hrun, hs⟩ := exists_run_of_execAll hstep _ hexec
  exact ⟨s, hrun, hs, fork_exit_wait 0 _ s hrun⟩

end Xv6
