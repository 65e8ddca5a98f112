import Xv6.Proof.ForkExitWait

/-!
# Process identifiers and `kill`

`allocproc` gives every process a fresh pid, so two processes never share one. `kill` compares pids
without a look at the state of the slot: a free slot still carries the pid of a `fork` that failed
there, or `0`, and its `killed` flag passes to the next process in the slot.
-/

namespace Xv6

variable {n : Nat} {initproc : Fin n} {s s' s'' : Ptable n} {p q np : Fin n}

/-- No `kill` names a pid that a free slot carries, and no `fork` fails after its child was
killed. -/
def PtableEvent.Aimed (s : Ptable n) : PtableEvent n → Prop
  | .kill pid => ∀ p, (s.proc p).state = .unused → (s.proc p).pid ≠ pid
  | .forkFail p => ∀ np, (s.proc p).pc = .forking np → (s.proc np).killed = false
  | _ => True

instance PtableEvent.decidableAimed (s : Ptable n) (e : PtableEvent n) : Decidable (e.Aimed s) := by
  cases e <;> unfold Aimed <;> infer_instance

def PtableEvent.forks : PtableEvent n → Nat
  | .fork _ => 1
  | _ => 0

def Task.kill (t : Task n) : Task n :=
  { t with killed := true, state := if t.state = .sleeping then .runnable else t.state }

structure ProcIdentity (s : Ptable n) : Prop where
  distinct : ∀ p q, (s.proc p).state ≠ .unused → (s.proc q).state ≠ .unused →
    (s.proc p).pid = (s.proc q).pid → p = q
  allocproc : ∀ p np, (s.proc p).pc = .user → ((s.allocproc p).proc p).pc = .forking np →
    ((s.allocproc p).proc np).killed = false
  killReturn : ∀ pid, PtableEvent.Aimed s (.kill pid) →
    (s.killReturn pid = 0 ↔ ∃ p, (s.proc p).state ≠ .unused ∧ (s.proc p).pid = pid)
  kill : ∀ p, PtableEvent.Aimed s (.kill (s.proc p).pid) →
    s.kill (s.proc p).pid = s.modify p Task.kill
  noKill : ∀ pid, PtableEvent.Aimed s (.kill pid) →
    (∀ p, (s.proc p).state ≠ .unused → (s.proc p).pid ≠ pid) →
    s.killReturn pid = -1 ∧ s.kill pid = s

structure PidInv (k : Nat) (s : Ptable n) : Prop where
  nextpid : s.nextpid.toNat ≤ 2 + k
  fresh : ∀ p, (s.proc p).state ≠ .unused → (s.proc p).pid.toNat < s.nextpid.toNat
  distinct : ∀ p q, (s.proc p).state ≠ .unused → (s.proc q).state ≠ .unused →
    (s.proc p).pid = (s.proc q).pid → p = q
  notKilled : ∀ p, (s.proc p).state = .unused → (s.proc p).killed = false

theorem pidInv_init (initproc : Fin n) : PidInv 0 (.init initproc) := by
  constructor <;> simp +contextual [Ptable.init]

structure Task.Keeps (t t' : Task n) : Prop where
  pid : t'.state ≠ .unused → t.state ≠ .unused ∧ t'.pid = t.pid
  killed : t'.state = .unused → t'.killed = false ∨ t.state = .unused ∧ t'.killed = t.killed

theorem Task.Keeps.refl (t : Task n) : t.Keeps t :=
  ⟨fun h => ⟨h, rfl⟩, fun h => .inr ⟨h, rfl⟩⟩

theorem Task.Keeps.trans {t t' t'' : Task n} (h : t.Keeps t') (h' : t'.Keeps t'') :
    t.Keeps t'' := by
  refine ⟨fun hu => ?_, fun hu => ?_⟩
  · obtain ⟨hu', hpid'⟩ := h'.pid hu
    obtain ⟨hu'', hpid⟩ := h.pid hu'
    exact ⟨hu'', hpid'.trans hpid⟩
  · rcases h'.killed hu with hk | ⟨hu', hk'⟩
    · exact .inl hk
    · rw [hk']
      exact h.killed hu'

theorem Task.Keeps.of_used {t t' : Task n} (h : t.state ≠ .unused) (h' : t'.state ≠ .unused)
    (hpid : t'.pid = t.pid) : t.Keeps t' :=
  ⟨fun _ => ⟨h, hpid⟩, fun hu => absurd hu h'⟩

structure Ptable.Keeps (s s' : Ptable n) : Prop where
  nextpid : s'.nextpid = s.nextpid
  proc : ∀ p, (s.proc p).Keeps (s'.proc p)

theorem Ptable.Keeps.refl (s : Ptable n) : s.Keeps s :=
  ⟨rfl, fun _ => .refl _⟩

theorem Ptable.Keeps.trans (h : s.Keeps s') (h' : s'.Keeps s'') : s.Keeps s'' :=
  ⟨h'.nextpid.trans h.nextpid, fun p => (h.proc p).trans (h'.proc p)⟩

theorem Ptable.Keeps.modify {f : Task n → Task n} (h : (s.proc p).Keeps (f (s.proc p))) :
    s.Keeps (s.modify p f) := by
  refine ⟨rfl, fun q => ?_⟩
  by_cases hq : q = p
  · subst hq
    rwa [Ptable.modify_self]
  · rw [Ptable.modify_of_ne s f hq]
    exact .refl _

theorem Ptable.Keeps.wakeup1 (s : Ptable n) (c : Chan n) : s.Keeps (s.wakeup1 c) := by
  refine ⟨rfl, fun p => ?_⟩
  rcases Ptable.wake_cases c (s.proc p) with ⟨heq, -⟩ | ⟨hs, -, heq⟩
  · simp only [Ptable.wakeup1, heq]
    exact .refl _
  · simp only [Ptable.wakeup1, heq]
    exact .of_used (by simp [hs]) (by simp) rfl

theorem PidInv.keeps {k : Nat} (hinv : PidInv k s) (h : s.Keeps s') : PidInv k s' := by
  refine ⟨h.nextpid ▸ hinv.nextpid, fun p hp => ?_, fun p q hp hq heq => ?_, fun p hp => ?_⟩
  · obtain ⟨hu, hpid⟩ := (h.proc p).pid hp
    rw [hpid, h.nextpid]
    exact hinv.fresh p hu
  · obtain ⟨hpu, hpp⟩ := (h.proc p).pid hp
    obtain ⟨hqu, hpq⟩ := (h.proc q).pid hq
    exact hinv.distinct p q hpu hqu (hpp ▸ hpq ▸ heq)
  · rcases (h.proc p).killed hp with hk | ⟨hu, hk⟩
    · exact hk
    · rw [hk]
      exact hinv.notKilled p hu

theorem Ptable.allocproc_cases (s : Ptable n) (p : Fin n) :
    s.allocproc p = s ∨ ∃ np, (s.proc np).state = .unused ∧ s.allocproc p =
      { (s.modify np fun t =>
          { t with state := .embryo, pid := s.nextpid, number := s.nextNumber }).modify p
            fun t => { t with pc := .forking np } with
        nextpid := s.nextpid + 1, nextNumber := s.nextNumber + 1 } := by
  unfold Ptable.allocproc
  split
  · exact .inl rfl
  · rename_i np hfind
    exact .inr ⟨np, by simpa using List.find?_some hfind, rfl⟩

theorem PidInv.allocproc {k : Nat} (hinv : PidInv k s) (hrun : (s.proc p).state = .running)
    (hk : k + 1 ≤ 2 ^ 31) : PidInv (k + 1) (s.allocproc p) := by
  rcases s.allocproc_cases p with heq | ⟨np, hunused, heq⟩
  · rw [heq]
    exact { hinv with nextpid := hinv.nextpid.trans (by omega) }
  · have hne : p ≠ np := by
      rintro rfl
      rw [hrun] at hunused
      cases hunused
    have hnext : (s.nextpid + 1).toNat = s.nextpid.toNat + 1 := by
      have := hinv.nextpid
      rw [BitVec.toNat_add]
      exact Nat.mod_eq_of_lt (by simp; omega)
    obtain ⟨-, hp, hnp, hother⟩ := PairStep.of_modify (s := s)
      (f := fun t => { t with state := .embryo, pid := s.nextpid, number := s.nextNumber })
      (g := fun t => { t with pc := .forking np }) hne
    rw [heq]
    obtain ⟨h1, h2, h3, h4⟩ := hinv
    -- a slot in use carries an older pid than the new process
    have hold : ∀ r, (s.proc r).state ≠ .unused → (s.proc r).pid ≠ s.nextpid := by
      intro r hr heq
      exact absurd (heq ▸ h2 r hr) (Nat.lt_irrefl _)
    constructor <;> simp only [hnext] <;> grind

theorem Ptable.Keeps.forkFail (hinv : PtableInv initproc s) (hpc : (s.proc p).pc = .forking np)
    (hkilled : (s.proc np).killed = false) : s.Keeps (s.forkFail p np) := by
  obtain ⟨hlive, hembryo, hne⟩ := hinv.child_ne (show _ = some np by rw [hpc]; rfl)
  refine (Ptable.Keeps.modify ⟨by simp, fun _ => .inl hkilled⟩).trans (.modify ?_)
  rw [Ptable.modify_of_ne _ _ hne]
  exact .of_used hlive.ne.1 hlive.ne.1 rfl

theorem Ptable.Keeps.setParent (hinv : PtableInv initproc s) (hpc : (s.proc p).pc = .forking np) :
    s.Keeps (s.setParent p np) := by
  obtain ⟨hlive, hembryo, hne⟩ := hinv.child_ne (show _ = some np by rw [hpc]; rfl)
  refine (Ptable.Keeps.modify (.of_used (by simp [hembryo]) (by simp [hembryo]) rfl)).trans
    (.modify ?_)
  rw [Ptable.modify_of_ne _ _ hne]
  exact .of_used hlive.ne.1 hlive.ne.1 rfl

theorem Ptable.Keeps.forkEnd (hinv : PtableInv initproc s) (hpc : (s.proc p).pc = .forked np) :
    s.Keeps (s.forkEnd p np) := by
  obtain ⟨hlive, hembryo, hne⟩ := hinv.child_ne (show _ = some np by rw [hpc]; rfl)
  refine (Ptable.Keeps.modify (.of_used (by simp [hembryo]) (by simp) rfl)).trans (.modify ?_)
  rw [Ptable.modify_of_ne _ _ hne]
  exact .of_used hlive.ne.1 hlive.ne.1 rfl

theorem Ptable.Keeps.wait (hrun : (s.proc p).state = .running) : s.Keeps (s.wait p) := by
  unfold Ptable.wait
  split
  · rename_i q hscan
    obtain ⟨-, hz⟩ := waitScan_reap hscan
    have hne : p ≠ q := by
      rintro rfl
      rw [hrun] at hz
      cases hz
    have h1 : s.Keeps (s.modify q fun t =>
        { t with state := .unused, pid := 0, parent := none, killed := false }) :=
      .modify ⟨by simp, fun _ => .inl rfl⟩
    refine h1.trans ⟨rfl, (Ptable.Keeps.modify (f := fun t => { t with pc := .user }) ?_).proc⟩
    rw [Ptable.modify_of_ne _ _ hne]
    exact .of_used (by simp [hrun]) (by simp [hrun]) rfl
  · exact .modify (.of_used (by simp [hrun]) (by simp [hrun]) rfl)
  · exact .modify (.of_used (by simp [hrun]) (by simp) rfl)

theorem Ptable.Keeps.switchTo (hlive : (s.proc p).state ≠ .unused) : s.Keeps (s.switchTo p) :=
  .modify (.of_used hlive (by simp) rfl)

theorem Ptable.Keeps.resume (hlive : (s.proc p).state ≠ .unused) : s.Keeps (s.resume p) := by
  unfold Ptable.resume
  split
  · refine (Ptable.Keeps.switchTo hlive).trans (.wait ?_)
    rw [Ptable.switchTo, Ptable.modify_self]
  · exact .switchTo hlive

theorem Ptable.Keeps.adopt (initproc p : Fin n) (s : Ptable n) (q : Fin n) :
    s.Keeps (s.adopt initproc p q) := by
  have hparent : s.Keeps (s.modify q fun t => { t with parent := some initproc }) :=
    .modify ⟨fun h => ⟨h, rfl⟩, fun h => .inr ⟨h, rfl⟩⟩
  unfold Ptable.adopt
  split
  · dsimp only
    split
    · exact hparent.trans (.wakeup1 _ _)
    · exact hparent
  · exact .refl s

theorem Ptable.Keeps.adoptAll (initproc p : Fin n) (slots : List (Fin n)) (s : Ptable n) :
    s.Keeps (slots.foldl (Ptable.adopt initproc p) s) := by
  induction slots generalizing s with
  | nil => exact .refl s
  | cons q slots ih => exact (Ptable.Keeps.adopt initproc p s q).trans (ih _)

theorem Ptable.Keeps.wakeParent (s : Ptable n) (p : Fin n) : s.Keeps (s.wakeParent p) := by
  unfold Ptable.wakeParent
  split
  · exact .refl s
  · exact .wakeup1 s _

/-- A running process is still there when `exit` has passed its children on: the steps of the loop
only ever take a process from `SLEEPING` to `RUNNABLE`. -/
theorem Ptable.Keeps.exit (hne : p ≠ initproc) (hrun : (s.proc p).state = .running) :
    s.Keeps (s.exit initproc p) := by
  have h1 := (Ptable.Keeps.wakeParent s p).trans
    (Ptable.Keeps.adoptAll initproc p (List.finRange n) (s.wakeParent p))
  have hused : (((List.finRange n).foldl (Ptable.adopt initproc p)
      (s.wakeParent p)).proc p).state ≠ .unused := by
    have hparent : ((s.wakeParent p).proc p).state = .running := by
      unfold Ptable.wakeParent
      split
      · exact hrun
      · exact (wakeup1_running hrun) ▸ hrun
    rcases (adopted_foldl hne (List.finRange n) (s.wakeParent p)).state p with heq | ⟨-, heq⟩
    · simp [heq, hparent]
    · simp [heq]
  exact h1.trans ⟨rfl, (Ptable.Keeps.modify (f := fun t => { t with state := .zombie })
    (.of_used hused (by simp) rfl)).proc⟩

theorem Ptable.kill_cases (s : Ptable n) (pid : Word) :
    (∀ p, (s.proc p).pid ≠ pid) ∧ s.killReturn pid = -1 ∧ s.kill pid = s ∨
      ∃ q, (s.proc q).pid = pid ∧ s.killReturn pid = 0 ∧ s.kill pid = s.modify q Task.kill := by
  unfold Ptable.killReturn Ptable.kill
  cases hfind : (List.finRange n).find? fun q => decide ((s.proc q).pid = pid) with
  | none =>
    refine .inl ⟨fun p => ?_, rfl, rfl⟩
    simpa using List.find?_eq_none.mp hfind p (List.mem_finRange p)
  | some q => exact .inr ⟨q, by simpa using List.find?_some hfind, rfl, rfl⟩

theorem Ptable.Keeps.kill {pid : Word} (haimed : PtableEvent.Aimed s (.kill pid)) :
    s.Keeps (s.kill pid) := by
  rcases s.kill_cases pid with ⟨-, -, heq⟩ | ⟨q, hpid, -, heq⟩
  · rw [heq]
    exact .refl s
  · rw [heq]
    have hused : (s.proc q).state ≠ .unused := fun hu => haimed q hu hpid
    refine .modify (.of_used hused ?_ rfl)
    unfold Task.kill
    dsimp only
    split <;> simp [hused]

theorem PidInv.step {k : Nat} {e : PtableEvent n} (hok : PtableInv initproc s) (hinv : PidInv k s)
    (hk : k + e.forks ≤ 2 ^ 31) (haimed : e.Aimed s) (hstep : PtableStep initproc s e s') :
    PidInv (k + e.forks) s' := by
  unfold PtableStep Ptable.exec at hstep
  cases e with
  | fork p =>
    obtain ⟨⟨hrun, -⟩, heq⟩ := Option.ite_none_right_eq_some.mp hstep
    cases heq
    exact hinv.allocproc hrun hk
  | forkFail p =>
    dsimp only at hstep
    split at hstep
    · rename_i np hrun hpc
      cases hstep
      exact hinv.keeps (.forkFail hok hpc (haimed np hpc))
    · cases hstep
  | forkParent p =>
    dsimp only at hstep
    split at hstep
    · rename_i np hrun hpc
      cases hstep
      exact hinv.keeps (.setParent hok hpc)
    · cases hstep
  | forkEnd p =>
    dsimp only at hstep
    split at hstep
    · rename_i np hrun hpc
      cases hstep
      exact hinv.keeps (.forkEnd hok hpc)
    · cases hstep
  | exit p =>
    obtain ⟨⟨hrun, -, hne⟩, heq⟩ := Option.ite_none_right_eq_some.mp hstep
    cases heq
    exact hinv.keeps (.exit hne hrun)
  | wait p =>
    obtain ⟨⟨hrun, -⟩, heq⟩ := Option.ite_none_right_eq_some.mp hstep
    cases heq
    exact hinv.keeps (.wait hrun)
  | kill pid =>
    cases hstep
    exact hinv.keeps (.kill haimed)
  | schedule p =>
    obtain ⟨hrun, heq⟩ := Option.ite_none_right_eq_some.mp hstep
    cases heq
    exact hinv.keeps (.resume (by simp [hrun]))
  | yield p =>
    obtain ⟨hrun, heq⟩ := Option.ite_none_right_eq_some.mp hstep
    cases heq
    exact hinv.keeps (.modify (.of_used (by simp [hrun]) (by simp) rfl))
  | sleep p addr =>
    obtain ⟨hrun, heq⟩ := Option.ite_none_right_eq_some.mp hstep
    cases heq
    exact hinv.keeps (.modify (.of_used (by simp [hrun]) (by simp) rfl))
  | wakeup addr =>
    cases hstep
    exact hinv.keeps (.wakeup1 s _)

theorem PidInv.identity {k : Nat} (hinv : PidInv k s) : ProcIdentity s := by
  refine ⟨hinv.distinct, fun p np hpc hnp => ?_, fun pid haimed => ?_, fun p haimed => ?_,
    fun pid haimed hnone => ?_⟩
  · rcases s.allocproc_cases p with heq | ⟨q, hunused, heq⟩
    · rw [heq, hpc] at hnp
      cases hnp
    · rw [heq] at hnp ⊢
      dsimp only at hnp ⊢
      rw [Ptable.modify_self] at hnp
      obtain rfl : q = np := TaskPc.forking.inj hnp
      have hkilled := hinv.notKilled q hunused
      by_cases hqp : q = p
      · subst hqp
        rw [Ptable.modify_self, Ptable.modify_self]
        exact hkilled
      · rw [Ptable.modify_of_ne _ _ hqp, Ptable.modify_self]
        exact hkilled
  · rcases s.kill_cases pid with ⟨hnone, hret, -⟩ | ⟨q, hpid, hret, -⟩
    · rw [hret]
      refine ⟨fun h => absurd h (by decide), ?_⟩
      rintro ⟨p, -, hp⟩
      exact absurd hp (hnone p)
    · rw [hret]
      exact ⟨fun _ => ⟨q, fun hu => haimed q hu hpid, hpid⟩, fun _ => rfl⟩
  · rcases s.kill_cases (s.proc p).pid with ⟨hnone, -⟩ | ⟨q, hpid, -, heq⟩
    · exact absurd rfl (hnone p)
    · rw [heq, hinv.distinct q p (fun hu => haimed q hu hpid) (fun hu => haimed p hu rfl) hpid]
  · rcases s.kill_cases pid with ⟨-, hret, heq⟩ | ⟨q, hpid, -⟩
    · exact ⟨hret, heq⟩
    · exact absurd hpid (hnone q fun hu => haimed q hu hpid)

/-- In every interleaving with fewer than `2^31` forks, failed ones included, in which `kill` and
the failing forks are aimed. -/
theorem process_identity (initproc : Fin n) (events : List (PtableEvent n)) (s : Ptable n)
    (hrun : Run (fun s e s' => e.Aimed s ∧ PtableStep initproc s e s') (.init initproc) events s)
    (hforks : (events.map PtableEvent.forks).sum < 2 ^ 31) : ProcIdentity s := by
  have hinv := Run.invariant_cost (fun k s => PtableOk initproc s ∧ PidInv k s) PtableEvent.forks
    (2 ^ 31) (fun k s e s' hk hinv hstep =>
      ⟨ptableOk_step hinv.1 hstep.2, hinv.2.step hinv.1.inv hk hstep.1 hstep.2⟩) hrun 0 (by omega)
    ⟨⟨ptableInv_init initproc, ptableHistory_init initproc⟩, pidInv_init initproc⟩
  exact hinv.2.identity

def failedForkRun {n : Nat} (p : Fin n) : List (PtableEvent n) :=
  [.schedule p, .fork p, .forkFail p, .fork p, .forkParent p, .forkEnd p, .kill 3]

theorem process_identity_failedForkRun : ∃ s : Ptable 4,
    Run (fun s e s' => e.Aimed s ∧ PtableStep 0 s e s') (.init 0) (failedForkRun 0) s ∧
      ((s.proc 1).pid = 3 ∧ (s.proc 1).killed = true) ∧ ProcIdentity s := by
  have hexec : (execAll (fun (s : Ptable 4) e => if e.Aimed s then s.exec 0 e else none)
      (Ptable.init 0) (failedForkRun 0)).map (fun s => ((s.proc 1).pid, (s.proc 1).killed)) =
      some (3, true) := by
    decide
  have hstep : ∀ (s : Ptable 4) e s', (if e.Aimed s then s.exec 0 e else none) = some s' →
      e.Aimed s ∧ PtableStep 0 s e s' :=
    fun _ _ _ h => Option.ite_none_right_eq_some.mp h
  obtain ⟨s, hrun, hs⟩ := exists_run_of_execAll hstep _ hexec
  exact ⟨s, hrun, Prod.mk.inj hs, process_identity 0 _ s hrun (by decide)⟩

/-- `kill(0)` finds a free slot and returns `0`; the next process in that slot starts killed. -/
theorem kill_free_slot :
    (Ptable.init (0 : Fin 4)).killReturn 0 = 0 ∧
      (∀ p, ((Ptable.init (0 : Fin 4)).proc p).state ≠ .unused →
        ((Ptable.init (0 : Fin 4)).proc p).pid ≠ 0) ∧
      ∃ s : Ptable 4, Run (PtableStep 0) (.init 0) [.kill 0, .schedule 0, .fork 0] s ∧
        (s.proc 0).pc = .forking 1 ∧ (s.proc 1).killed = true := by
  refine ⟨by decide, by decide, ?_⟩
  have hexec : (execAll (Ptable.exec 0) (Ptable.init 0) [.kill 0, .schedule 0, .fork 0]).map
      (fun s : Ptable 4 => ((s.proc 0).pc, (s.proc 1).killed)) = some (.forking 1, true) := by
    decide
  have hstep : ∀ (s : Ptable 4) e s', Ptable.exec 0 s e = some s' → PtableStep 0 s e s' :=
    fun _ _ _ h => h
  obtain ⟨s, hrun, hs⟩ := exists_run_of_execAll hstep _ hexec
  exact ⟨s, hrun, Prod.mk.inj hs⟩

end Xv6
