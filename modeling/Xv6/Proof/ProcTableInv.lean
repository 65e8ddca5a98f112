import Mathlib.Tactic
import Xv6.ProcTable

/-!
# The invariant of the process table

Who is whose parent, who is being made by whose `fork`, and what became of the processes that
exited. Each kind of step keeps it: a change of state, the steps of `fork`, the end of a zombie in
`wait`, and `exit` with its hand-over of the children.
-/

namespace Xv6

def ProcState.Live : ProcState → Prop
  | .sleeping | .runnable | .running => True
  | _ => False

def TaskPc.child {n : Nat} : TaskPc n → Option (Fin n)
  | .forking np | .forked np => some np
  | _ => none

variable {n : Nat} {initproc : Fin n} {s s' : Ptable n} {p q np : Fin n}

theorem Ptable.modify_self (s : Ptable n) (p : Fin n) (f : Task n → Task n) :
    (s.modify p f).proc p = f (s.proc p) :=
  Function.update_self ..

theorem Ptable.modify_of_ne (s : Ptable n) (f : Task n → Task n) (h : q ≠ p) :
    (s.modify p f).proc q = s.proc q :=
  Function.update_of_ne h ..

structure PtableInv (initproc : Fin n) (s : Ptable n) : Prop where
  initLive : (s.proc initproc).state.Live
  initParent : (s.proc initproc).parent = none
  pcLive : ∀ p, (s.proc p).pc ≠ .user → (s.proc p).state.Live
  forking : ∀ p q, (s.proc p).pc = .forking q →
    (s.proc q).state = .embryo ∧ (s.proc q).parent = none
  forked : ∀ p q, (s.proc p).pc = .forked q →
    (s.proc q).state = .embryo ∧ (s.proc q).parent = some p
  owner : ∀ p p' q, (s.proc p).pc.child = some q → (s.proc p').pc.child = some q → p = p'
  unused : ∀ p, (s.proc p).state = .unused → (s.proc p).parent = none
  notSelf : ∀ p, (s.proc p).parent ≠ some p
  parentLive : ∀ p q, (s.proc p).parent = some q → (s.proc q).state.Live
  hasParent : ∀ p ≠ initproc, (s.proc p).state ≠ .unused → (s.proc p).state ≠ .embryo →
    (s.proc p).parent ≠ none
  sleeping : ∀ p q, (s.proc p).state = .sleeping → (s.proc p).chan = some (.proc p) →
    (s.proc q).parent = some p → (s.proc q).state ≠ .zombie

structure PtableHistory (initproc : Fin n) (s : Ptable n) : Prop where
  fresh : ∀ p, (s.proc p).state ≠ .unused → (s.proc p).number < s.nextNumber
  distinct : ∀ p q, (s.proc p).state ≠ .unused → (s.proc q).state ≠ .unused →
    (s.proc p).number = (s.proc q).number → p = q
  exitedFresh : ∀ e ∈ s.exited, e.number < s.nextNumber
  notExited : ∀ p, (s.proc p).state ≠ .unused → (s.proc p).state ≠ .zombie →
    ∀ e ∈ s.exited, e.number ≠ (s.proc p).number
  zombie : ∀ p, (s.proc p).state = .zombie →
    (⟨(s.proc p).number, (s.proc p).pid, (s.proc p).creator⟩ : ExitRecord) ∈ s.exited ∧
      ∀ r ∈ s.returned, r.number ≠ (s.proc p).number
  exitedNodup : (s.exited.map (·.number)).Nodup
  returnedNodup : (s.returned.map (·.number)).Nodup
  accounted : ∀ e ∈ s.exited, (∃ z, (s.proc z).state = .zombie ∧ (s.proc z).number = e.number) ∨
    ∃ r ∈ s.returned, r.number = e.number
  returnedExit : ∀ r ∈ s.returned, ∃ e ∈ s.exited, e.number = r.number ∧ e.pid = r.pid ∧
    (r.waiterNumber = e.creator ∨ r.waiter = initproc ∧ ∃ e' ∈ s.exited, e'.number = e.creator)
  creator : ∀ p q, (s.proc p).parent = some q → (s.proc q).number = (s.proc p).creator ∨
    q = initproc ∧ ∃ e ∈ s.exited, e.number = (s.proc p).creator

theorem ptableInv_init (initproc : Fin n) : PtableInv initproc (.init initproc) := by
  constructor <;> simp [Ptable.init, ProcState.Live, TaskPc.child]
  exact fun p hne heq => absurd heq hne

theorem ptableHistory_init (initproc : Fin n) : PtableHistory initproc (.init initproc) := by
  constructor <;> simp +contextual [Ptable.init]
  intro p
  split <;> simp

structure Stirred (s s' : Ptable n) : Prop where
  parent : ∀ p, (s'.proc p).parent = (s.proc p).parent
  number : ∀ p, (s'.proc p).number = (s.proc p).number
  pid : ∀ p, (s'.proc p).pid = (s.proc p).pid
  creator : ∀ p, (s'.proc p).creator = (s.proc p).creator
  state : ∀ p, (s'.proc p).state = (s.proc p).state ∨
    (s.proc p).state.Live ∧ (s'.proc p).state.Live
  pc : ∀ p, (s'.proc p).pc = (s.proc p).pc ∨
    (s.proc p).state.Live ∧ (s.proc p).pc.child = none ∧ (s'.proc p).pc.child = none
  nextNumber : s'.nextNumber = s.nextNumber
  exited : s'.exited = s.exited
  returned : s'.returned = s.returned

theorem Stirred.live (h : Stirred s s') (hp : (s.proc p).state.Live) : (s'.proc p).state.Live := by
  rcases h.state p with heq | ⟨-, hlive⟩
  · rwa [heq]
  · exact hlive

theorem Stirred.state_iff (h : Stirred s s') {t : ProcState} (ht : ¬t.Live) :
    (s'.proc p).state = t ↔ (s.proc p).state = t := by
  rcases h.state p with heq | ⟨hold, hnew⟩
  · rw [heq]
  · constructor
    · rintro rfl
      exact absurd hnew ht
    · rintro rfl
      exact absurd hold ht

theorem Stirred.child (h : Stirred s s') : (s'.proc p).pc.child = (s.proc p).pc.child := by
  rcases h.pc p with heq | ⟨-, hold, hnew⟩
  · rw [heq]
  · rw [hold, hnew]

theorem PtableInv.stir (hinv : PtableInv initproc s) (h : Stirred s s')
    (hsleep : ∀ p, (s'.proc p).state = .sleeping → (s'.proc p).chan = some (.proc p) →
      ∀ q, (s.proc q).parent = some p → (s.proc q).state ≠ .zombie) : PtableInv initproc s' where
  initLive := h.live hinv.initLive
  initParent := by rw [h.parent, hinv.initParent]
  pcLive p hpc := by
    rcases h.pc p with heq | ⟨hold, -, -⟩
    · rw [heq] at hpc
      exact h.live (hinv.pcLive p hpc)
    · exact h.live hold
  forking p q hpc := by
    rcases h.pc p with heq | ⟨-, -, hnew⟩
    · rw [heq] at hpc
      rw [h.state_iff id, h.parent]
      exact hinv.forking p q hpc
    · rw [hpc] at hnew
      cases hnew
  forked p q hpc := by
    rcases h.pc p with heq | ⟨-, -, hnew⟩
    · rw [heq] at hpc
      rw [h.state_iff id, h.parent]
      exact hinv.forked p q hpc
    · rw [hpc] at hnew
      cases hnew
  owner p p' q hp hp' := by
    rw [h.child] at hp hp'
    exact hinv.owner p p' q hp hp'
  unused p hp := by
    rw [h.parent]
    exact hinv.unused p ((h.state_iff id).mp hp)
  notSelf p := by
    rw [h.parent]
    exact hinv.notSelf p
  parentLive p q hp := by
    rw [h.parent] at hp
    exact h.live (hinv.parentLive p q hp)
  hasParent p hne hu he := by
    rw [h.parent]
    exact hinv.hasParent p hne (fun heq => hu ((h.state_iff id).mpr heq))
      fun heq => he ((h.state_iff id).mpr heq)
  sleeping p q hp hc hq := by
    rw [h.parent] at hq
    exact fun hz => hsleep p hp hc q hq ((h.state_iff id).mp hz)

theorem PtableHistory.stir (hhist : PtableHistory initproc s) (h : Stirred s s') :
    PtableHistory initproc s' where
  fresh p hp := by
    rw [h.number, h.nextNumber]
    exact hhist.fresh p fun heq => hp ((h.state_iff id).mpr heq)
  distinct p q hp hq := by
    rw [h.number, h.number]
    exact hhist.distinct p q (fun heq => hp ((h.state_iff id).mpr heq))
      fun heq => hq ((h.state_iff id).mpr heq)
  exitedFresh := by
    rw [h.exited, h.nextNumber]
    exact hhist.exitedFresh
  notExited p hu hz := by
    rw [h.exited, h.number]
    exact hhist.notExited p (fun heq => hu ((h.state_iff id).mpr heq))
      fun heq => hz ((h.state_iff id).mpr heq)
  zombie p hp := by
    rw [h.exited, h.returned, h.number, h.pid, h.creator]
    exact hhist.zombie p ((h.state_iff id).mp hp)
  exitedNodup := by
    rw [h.exited]
    exact hhist.exitedNodup
  returnedNodup := by
    rw [h.returned]
    exact hhist.returnedNodup
  accounted e he := by
    rw [h.exited] at he
    rw [h.returned]
    refine (hhist.accounted e he).imp_left ?_
    rintro ⟨z, hz, hnum⟩
    exact ⟨z, (h.state_iff id).mpr hz, by rw [h.number, hnum]⟩
  returnedExit := by
    rw [h.returned, h.exited]
    exact hhist.returnedExit
  creator p q hp := by
    rw [h.parent] at hp
    rw [h.number, h.creator, h.exited]
    exact hhist.creator p q hp

theorem Stirred.modify {f : Task n → Task n}
    (hstate : (f (s.proc p)).state = (s.proc p).state ∨
      (s.proc p).state.Live ∧ (f (s.proc p)).state.Live)
    (hpc : (f (s.proc p)).pc = (s.proc p).pc ∨
      (s.proc p).state.Live ∧ (s.proc p).pc.child = none ∧ (f (s.proc p)).pc.child = none)
    (hf : (f (s.proc p)).parent = (s.proc p).parent ∧
      (f (s.proc p)).number = (s.proc p).number ∧ (f (s.proc p)).pid = (s.proc p).pid ∧
      (f (s.proc p)).creator = (s.proc p).creator) :
    Stirred s (s.modify p f) := by
  obtain ⟨hparent, hnumber, hpid, hcreator⟩ := hf
  constructor
  case nextNumber => rfl
  case exited => rfl
  case returned => rfl
  all_goals
    intro q
    by_cases hq : q = p
    · subst hq
      rw [Ptable.modify_self]
      assumption
    · simp [Ptable.modify_of_ne s f hq]

theorem Ptable.wake_cases (c : Chan n) (t : Task n) :
    Ptable.wake c t = t ∧ ¬(t.state = .sleeping ∧ t.chan = some c) ∨
      t.state = .sleeping ∧ t.chan = some c ∧ Ptable.wake c t = { t with state := .runnable } := by
  unfold wake
  split
  · rename_i h
    exact .inr ⟨h.1, h.2, rfl⟩
  · rename_i h
    exact .inl ⟨rfl, h⟩

theorem Stirred.wakeup1 (s : Ptable n) (c : Chan n) : Stirred s (s.wakeup1 c) := by
  constructor
  case nextNumber => rfl
  case exited => rfl
  case returned => rfl
  all_goals
    intro p
    simp only [Ptable.wakeup1]
    rcases Ptable.wake_cases c (s.proc p) with ⟨heq, -⟩ | ⟨hs, -, heq⟩
    · simp [heq]
    · simp [heq, hs, ProcState.Live]

theorem Ptable.wakeup1_sleeping {c : Chan n} (h : ((s.wakeup1 c).proc p).state = .sleeping) :
    (s.wakeup1 c).proc p = s.proc p ∧ (s.proc p).chan ≠ some c := by
  simp only [wakeup1] at h ⊢
  rcases wake_cases c (s.proc p) with ⟨heq, hne⟩ | ⟨hs, hc, heq⟩
  · rw [heq] at h
    exact ⟨heq, fun hc => hne ⟨h, hc⟩⟩
  · rw [heq] at h
    cases h

theorem PtableInv.wakeup1 (hinv : PtableInv initproc s) (c : Chan n) :
    PtableInv initproc (s.wakeup1 c) := by
  refine hinv.stir (.wakeup1 s c) fun p hp hc q hq => ?_
  obtain ⟨heq, -⟩ := Ptable.wakeup1_sleeping hp
  rw [heq] at hp hc
  exact hinv.sleeping p q hp hc hq

theorem PtableInv.modify {f : Task n → Task n} (hinv : PtableInv initproc s)
    (h : Stirred s (s.modify p f))
    (hsleep : (f (s.proc p)).state = .sleeping → (f (s.proc p)).chan = some (.proc p) →
      ∀ q, (s.proc q).parent = some p → (s.proc q).state ≠ .zombie) :
    PtableInv initproc (s.modify p f) := by
  refine hinv.stir h fun r hr hc q hq => ?_
  by_cases hrp : r = p
  · subst hrp
    rw [Ptable.modify_self] at hr hc
    exact hsleep hr hc q hq
  · rw [Ptable.modify_of_ne s f hrp] at hr hc
    exact hinv.sleeping r q hr hc hq

theorem PtableInv.child_embryo (hinv : PtableInv initproc s)
    (h : (s.proc p).pc.child = some q) : (s.proc q).state = .embryo := by
  cases hpc : (s.proc p).pc with
  | user =>
    rw [hpc] at h
    cases h
  | waiting =>
    rw [hpc] at h
    cases h
  | forking np =>
    rw [hpc] at h
    cases h
    exact (hinv.forking p q hpc).1
  | forked np =>
    rw [hpc] at h
    cases h
    exact (hinv.forked p q hpc).1

structure PairStep (s : Ptable n) (p q : Fin n) (tp tq : Task n) (s' : Ptable n) : Prop where
  ne : p ≠ q
  first : s'.proc p = tp
  second : s'.proc q = tq
  other : ∀ r ≠ p, r ≠ q → s'.proc r = s.proc r

theorem PtableInv.allocated (hinv : PtableInv initproc s) (hrun : (s.proc p).state = .running)
    (hunused : (s.proc np).state = .unused) {pid : Word} {k : Nat}
    (hstep : PairStep s p np { s.proc p with pc := .forking np }
      { s.proc np with state := .embryo, pid := pid, number := k } s') : PtableInv initproc s' := by
  obtain ⟨hne, hp, hnp, hother⟩ := hstep
  have hchild := fun r => hinv.child_embryo (p := r) (q := np)
  obtain ⟨h1, h2, h3, h4, h5, h6, h7, h8, h9, h10, h11⟩ := hinv
  constructor <;> grind [ProcState.Live, TaskPc.child]

theorem PtableInv.forkStep {tp tq : Task n} (hinv : PtableInv initproc s)
    (hchild : (s.proc p).pc.child = some np) (hstep : PairStep s p np tp tq s')
    (hp : tp.state = (s.proc p).state ∧ tp.parent = (s.proc p).parent ∧ tp.chan = (s.proc p).chan)
    (hq : tq.pc = (s.proc np).pc)
    (hcase : tp.pc = .user ∧ tq.state = .unused ∧ tq.parent = none ∨
      tp.pc = .forked np ∧ tq.state = .embryo ∧ tq.parent = some p ∨
      tp.pc = .user ∧ tq.state = .runnable ∧ tq.parent = some p) : PtableInv initproc s' := by
  obtain ⟨hne, hself, hnp, hother⟩ := hstep
  have hembryo := hinv.child_embryo hchild
  have hlive := hinv.pcLive p fun hpc => by simp [hpc, TaskPc.child] at hchild
  have hdead : ¬(s.proc np).state.Live := by
    rw [hembryo]
    exact id
  have huser : (s.proc np).pc = .user := by
    by_contra hpc
    exact hdead (hinv.pcLive np hpc)
  have hkids : ∀ r, (s.proc r).parent ≠ some np := fun r hr => hdead (hinv.parentLive r np hr)
  have hinit : initproc ≠ np := fun heq => hdead (heq ▸ hinv.initLive)
  have howner := fun r hr => hinv.owner r p np hr hchild
  obtain ⟨h1, h2, h3, h4, h5, h6, h7, h8, h9, h10, h11⟩ := hinv
  constructor <;> grind [ProcState.Live, TaskPc.child]

theorem PtableInv.reaped (hinv : PtableInv initproc s) (hrun : (s.proc p).state = .running)
    (hz : (s.proc q).state = .zombie)
    (hstep : PairStep s p q { s.proc p with pc := .user }
      { s.proc q with state := .unused, pid := 0, parent := none, killed := false } s') :
    PtableInv initproc s' := by
  obtain ⟨hne, hp, hnp, hother⟩ := hstep
  obtain ⟨h1, h2, h3, h4, h5, h6, h7, h8, h9, h10, h11⟩ := hinv
  constructor <;> grind [ProcState.Live, TaskPc.child]

theorem PtableHistory.accounted_of (hhist : PtableHistory initproc s)
    (hexited : s'.exited = s.exited) (hreturned : s'.returned = s.returned)
    (hzombie : ∀ z, (s.proc z).state = .zombie →
      (s'.proc z).state = .zombie ∧ (s'.proc z).number = (s.proc z).number) :
    ∀ e ∈ s'.exited, (∃ z, (s'.proc z).state = .zombie ∧ (s'.proc z).number = e.number) ∨
      ∃ r ∈ s'.returned, r.number = e.number := by
  intro e he
  rw [hexited] at he
  rw [hreturned]
  refine (hhist.accounted e he).imp_left ?_
  rintro ⟨z, hz, hnum⟩
  exact ⟨z, (hzombie z hz).1, (hzombie z hz).2.trans hnum⟩

theorem PtableHistory.allocated (hinv : PtableInv initproc s) (hhist : PtableHistory initproc s)
    (hrun : (s.proc p).state = .running) (hunused : (s.proc np).state = .unused) {pid : Word}
    (hstep : PairStep s p np { s.proc p with pc := .forking np }
      { s.proc np with state := .embryo, pid := pid, number := s.nextNumber } s')
    (hnext : s'.nextNumber = s.nextNumber + 1) (hexited : s'.exited = s.exited)
    (hreturned : s'.returned = s.returned) : PtableHistory initproc s' := by
  obtain ⟨hne, hp, hnp, hother⟩ := hstep
  have hnone := hinv.unused np hunused
  have hlive := hinv.parentLive
  have hacc := hhist.accounted_of hexited hreturned (by grind)
  obtain ⟨h1, h2, h3, h4, h5, h6, h7, h8, h9, h10⟩ := hhist
  constructor
  case accounted => exact hacc
  all_goals grind [ProcState.Live]

theorem PtableHistory.forkStep {tp tq : Task n} (hinv : PtableInv initproc s)
    (hhist : PtableHistory initproc s) (hlive : (s.proc p).state.Live)
    (hembryo : (s.proc np).state = .embryo)
    (hstep : PairStep s p np tp tq s')
    (hp : tp.state = (s.proc p).state ∧ tp.number = (s.proc p).number ∧
      tp.parent = (s.proc p).parent ∧ tp.creator = (s.proc p).creator)
    (hq : tq.state ≠ .zombie ∧ tq.number = (s.proc np).number ∧
      (tq.parent = (s.proc np).parent ∧ tq.creator = (s.proc np).creator ∨
        tq.parent = some p ∧ tq.creator = (s.proc p).number))
    (hnext : s'.nextNumber = s.nextNumber) (hexited : s'.exited = s.exited)
    (hreturned : s'.returned = s.returned) : PtableHistory initproc s' := by
  obtain ⟨hne, hp, hnp, hother⟩ := hstep
  have hparent := hinv.parentLive
  have hacc := hhist.accounted_of hexited hreturned (by grind [ProcState.Live])
  obtain ⟨h1, h2, h3, h4, h5, h6, h7, h8, h9, h10⟩ := hhist
  constructor
  case accounted => exact hacc
  all_goals grind [ProcState.Live]

theorem PtableHistory.reaped (hinv : PtableInv initproc s) (hhist : PtableHistory initproc s)
    (hrun : (s.proc p).state = .running) (hz : (s.proc q).state = .zombie)
    (hparent : (s.proc q).parent = some p)
    (hstep : PairStep s p q { s.proc p with pc := .user }
      { s.proc q with state := .unused, pid := 0, parent := none, killed := false } s')
    (hnext : s'.nextNumber = s.nextNumber) (hexited : s'.exited = s.exited)
    (hreturned : s'.returned =
      s.returned ++ [⟨p, (s.proc p).number, (s.proc q).number, (s.proc q).pid⟩]) :
    PtableHistory initproc s' := by
  obtain ⟨hne, hp, hnp, hother⟩ := hstep
  have hlive := hinv.parentLive
  obtain ⟨hexit, hnot⟩ := hhist.zombie q hz
  have hcreator := hhist.creator q p hparent
  obtain ⟨h1, h2, h3, h4, h5, h6, h7, h8, h9, h10⟩ := hhist
  constructor
  case accounted =>
    intro e he
    rw [hexited] at he
    rw [hreturned]
    rcases h8 e he with ⟨z, hzs, hnum⟩ | ⟨r, hr, hnum⟩
    · by_cases hzq : z = q
      · subst hzq
        exact .inr ⟨_, List.mem_append_right _ (List.mem_singleton_self _), hnum⟩
      · exact .inl ⟨z, by grind, by grind⟩
    · exact .inr ⟨r, List.mem_append_left _ hr, hnum⟩
  case returnedNodup =>
    rw [hreturned, List.map_append]
    refine h7.append (List.nodup_singleton _) ?_
    intro k hk hk'
    obtain ⟨r, hr, rfl⟩ := List.mem_map.mp hk
    exact hnot r hr (List.mem_singleton.mp hk')
  case returnedExit =>
    intro r hr
    rw [hreturned] at hr
    rw [hexited]
    rcases List.mem_append.mp hr with hr | hr
    · exact h9 r hr
    · obtain rfl := List.mem_singleton.mp hr
      exact ⟨_, hexit, rfl, rfl, hcreator⟩
  all_goals grind [ProcState.Live]

/-- What the loop of `exit` over the slots does: children pass to init, and if one of them is a
zombie, init does not stay asleep in `wait`. -/
structure Adopted (initproc p : Fin n) (slots : List (Fin n)) (s s' : Ptable n) : Prop where
  parent : ∀ q, (s'.proc q).parent =
    if (s.proc q).parent = some p ∧ q ∈ slots then some initproc else (s.proc q).parent
  state : ∀ q, (s'.proc q).state = (s.proc q).state ∨
    (s.proc q).state = .sleeping ∧ (s'.proc q).state = .runnable
  chan : ∀ q, (s'.proc q).chan = (s.proc q).chan
  number : ∀ q, (s'.proc q).number = (s.proc q).number
  pid : ∀ q, (s'.proc q).pid = (s.proc q).pid
  creator : ∀ q, (s'.proc q).creator = (s.proc q).creator
  pc : ∀ q, (s'.proc q).pc = (s.proc q).pc
  zombie : ∀ q ∈ slots, (s.proc q).parent = some p → (s.proc q).state = .zombie →
    ¬((s'.proc initproc).state = .sleeping ∧ (s'.proc initproc).chan = some (.proc initproc))
  nextNumber : s'.nextNumber = s.nextNumber
  exited : s'.exited = s.exited
  returned : s'.returned = s.returned

theorem Adopted.refl (s : Ptable n) : Adopted initproc p [] s s := by
  constructor <;> simp

theorem adopted_adopt (s : Ptable n) (q : Fin n) :
    Adopted initproc p [q] s (s.adopt initproc p q) := by
  unfold Ptable.adopt
  split
  · rename_i hp
    have hself := s.modify_self q fun t => { t with parent := some initproc }
    have hother := fun r (hr : r ≠ q) =>
      s.modify_of_ne (fun t => { t with parent := some initproc }) hr
    dsimp only
    split
    · rename_i hz
      have hwake := fun r => Ptable.wake_cases (.proc initproc)
        ((s.modify q fun t => { t with parent := some initproc }).proc r)
      constructor
      case zombie =>
        rintro - - - - ⟨hs, hc⟩
        obtain ⟨heq, hne⟩ := Ptable.wakeup1_sleeping hs
        exact hne (heq ▸ hc)
      all_goals grind [Ptable.wakeup1, Ptable.modify]
    · constructor
      all_goals grind [Ptable.modify]
  · constructor <;> grind

theorem Adopted.trans {slots slots' : List (Fin n)} {s'' : Ptable n} (hne : p ≠ initproc)
    (h : Adopted initproc p slots s s') (h' : Adopted initproc p slots' s' s'') :
    Adopted initproc p (slots ++ slots') s s'' := by
  obtain ⟨h1, h2, h3, h4, h5, h6, h7, h8, h9, h10, h11⟩ := h
  obtain ⟨k1, k2, k3, k4, k5, k6, k7, k8, k9, k10, k11⟩ := h'
  constructor
  case zombie =>
    intro q hq hp hz
    have := k2 initproc
    have := k3 initproc
    have := h1 q
    have := h2 q
    rcases List.mem_append.mp hq with hq | hq
    · grind
    · by_cases hq' : q ∈ slots
      · grind
      · exact k8 q hq (by grind) (by grind)
  all_goals grind

theorem adopted_foldl (hne : p ≠ initproc) (slots : List (Fin n)) (s : Ptable n) :
    Adopted initproc p slots s (slots.foldl (Ptable.adopt initproc p) s) := by
  induction slots generalizing s with
  | nil => exact .refl s
  | cons q slots ih => exact .trans hne (adopted_adopt s q) (ih _)

theorem PtableInv.exited {s1 : Ptable n} (hinv : PtableInv initproc s) (hne : p ≠ initproc)
    (hrun : (s.proc p).state = .running) (hpc : (s.proc p).pc = .user)
    (hwoken : ∀ q, (s.proc p).parent = some q →
      ¬((s.proc q).state = .sleeping ∧ (s.proc q).chan = some (.proc q)))
    (hadopt : Adopted initproc p (List.finRange n) s s1)
    (hself : s'.proc p = { s1.proc p with state := .zombie })
    (hother : ∀ q ≠ p, s'.proc q = s1.proc q) : PtableInv initproc s' := by
  obtain ⟨h1, h2, h3, h4, h5, h6, h7, h8, h9, h10, h11⟩ := hinv
  obtain ⟨k1, k2, k3, k4, k5, k6, k7, k8, k9, k10, k11⟩ := hadopt
  simp only [List.mem_finRange, and_true, true_implies] at k1 k8
  constructor
  case initLive => grind [ProcState.Live]
  case initParent => grind [ProcState.Live]
  case pcLive => grind [ProcState.Live]
  case forking => grind [ProcState.Live]
  case forked => grind [ProcState.Live]
  case owner => grind [ProcState.Live]
  case unused => grind [ProcState.Live]
  case notSelf => grind [ProcState.Live]
  case parentLive => grind [ProcState.Live]
  case hasParent => grind [ProcState.Live]
  case sleeping =>
    intro r q hr hc hq hz
    have hrp : r ≠ p := by
      rintro rfl
      rw [hself] at hr
      cases hr
    rw [hother r hrp] at hr hc
    have hr' : (s.proc r).state = .sleeping := by
      rcases k2 r with heq | ⟨-, heq⟩
      · rwa [heq] at hr
      · rw [heq] at hr
        cases hr
    rw [k3] at hc
    by_cases hqp : q = p
    · -- the exiting process itself: its parent has been woken
      subst hqp
      rw [hself] at hq
      have hq' : (s.proc q).parent = some r := by
        have := k1 q
        grind
      exact hwoken r hq' ⟨hr', hc⟩
    · rw [hother q hqp] at hq hz
      have hz' : (s.proc q).state = .zombie := by
        rcases k2 q with heq | ⟨-, heq⟩
        · rwa [heq] at hz
        · rw [heq] at hz
          cases hz
      by_cases hchild : (s.proc q).parent = some p
      · -- a zombie that passes to init, which has been woken
        have hri : r = initproc := by
          rw [k1, if_pos hchild] at hq
          exact (Option.some.inj hq).symm
        subst hri
        exact k8 q hchild hz' ⟨hr, (k3 r).trans hc⟩
      · rw [k1, if_neg hchild] at hq
        exact h11 r q hr' hc hq hz'

theorem PtableHistory.exited {s1 : Ptable n} (hhist : PtableHistory initproc s) (hne : p ≠ initproc)
    (hrun : (s.proc p).state = .running)
    (hadopt : Adopted initproc p (List.finRange n) s s1)
    (hself : s'.proc p = { s1.proc p with state := .zombie })
    (hother : ∀ q ≠ p, s'.proc q = s1.proc q)
    (hexited : s'.exited =
      s1.exited ++ [⟨(s1.proc p).number, (s1.proc p).pid, (s1.proc p).creator⟩])
    (hnext : s'.nextNumber = s1.nextNumber) (hreturned : s'.returned = s1.returned) :
    PtableHistory initproc s' := by
  obtain ⟨h1, h2, h3, h4, h5, h6, h7, h8, h9, h10⟩ := hhist
  obtain ⟨k1, k2, k3, k4, k5, k6, k7, k8, k9, k10, k11⟩ := hadopt
  simp only [List.mem_finRange, and_true, true_implies] at k1 k8
  rw [k4, k5, k6, k10] at hexited
  rw [k9] at hnext
  rw [k11] at hreturned
  constructor
  case fresh => grind
  case distinct => grind
  case exitedFresh => grind
  case notExited => grind
  case zombie => grind
  case exitedNodup =>
    rw [hexited, List.map_append]
    refine h6.append (List.nodup_singleton _) ?_
    intro k hk hk'
    obtain ⟨e, he, rfl⟩ := List.mem_map.mp hk
    exact h4 p (by simp [hrun]) (by simp [hrun]) e he (List.mem_singleton.mp hk')
  case returnedNodup => grind
  case accounted =>
    intro e he
    rw [hexited] at he
    rw [hreturned]
    rcases List.mem_append.mp he with he | he
    · refine (h8 e he).imp_left ?_
      rintro ⟨z, hz, hnum⟩
      exact ⟨z, by grind, by grind⟩
    · obtain rfl := List.mem_singleton.mp he
      exact .inl ⟨p, by rw [hself], by rw [hself]; exact k4 p⟩
  case returnedExit =>
    intro r hr
    rw [hreturned] at hr
    rw [hexited]
    obtain ⟨e, he, hnum, hpid, hwaiter⟩ := h9 r hr
    refine ⟨e, List.mem_append_left _ he, hnum, hpid, hwaiter.imp_right ?_⟩
    rintro ⟨hw, e', he', hnum'⟩
    exact ⟨hw, e', List.mem_append_left _ he', hnum'⟩
  case creator =>
    intro r q hr
    have hproc : ∀ r, (s'.proc r).parent = (s1.proc r).parent ∧
        (s'.proc r).number = (s.proc r).number ∧ (s'.proc r).creator = (s.proc r).creator := by
      intro r
      by_cases hrp : r = p
      · subst hrp
        rw [hself]
        exact ⟨rfl, k4 r, k6 r⟩
      · rw [hother r hrp]
        exact ⟨rfl, k4 r, k6 r⟩
    rw [(hproc r).1, k1] at hr
    rw [(hproc q).2.1, (hproc r).2.2, hexited]
    split at hr
    · -- the process that exits was the parent
      rename_i hchild
      obtain rfl := Option.some.inj hr
      right
      rcases h10 r p hchild with hnum | ⟨hinit, -⟩
      · exact ⟨rfl, _, List.mem_append_right _ (List.mem_singleton_self _), hnum⟩
      · exact absurd hinit hne
    · refine (h10 r q hr).imp_right ?_
      rintro ⟨hq, e, he, hnum⟩
      exact ⟨hq, e, List.mem_append_left _ he, hnum⟩

end Xv6
