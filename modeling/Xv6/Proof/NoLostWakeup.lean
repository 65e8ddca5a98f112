import Mathlib.Tactic
import Xv6.Lib.Lock
import Xv6.Sleep

/-!
# No wakeup is lost

A process that has seen the condition false holds `lk` until it holds `ptable.lock`, and it holds
that until it sleeps. So whoever makes the condition true in between has its scan of the table
before it.
-/

namespace Xv6

namespace SleepPc

def holdsLk : SleepPc → Bool
  | .waitTest | .sleepAcquire | .sleepRelease | .use | .useRelease | .set | .setRelease
  | .wakeupEnd => true
  | .wakeupAcquire lk | .wakeup1 lk _ | .wakeupRelease lk => lk
  | _ => false

def holdsPtable : SleepPc → Bool
  | .sleepRelease | .sleepChan | .sleepState | .sched | .sleepTidy | .sleepEnd | .wakeup1 _ _
  | .wakeupRelease _ => true
  | _ => false

def inSleep : SleepPc → Bool
  | .sleepAcquire | .sleepRelease | .sleepChan | .sleepState | .sched | .switched => true
  | _ => false

def PendingFor (slot : Nat) : SleepPc → Prop
  | .setRelease | .wakeupAcquire _ => True
  | .wakeup1 _ next => next ≤ slot
  | _ => False

end SleepPc

variable {nproc : Nat} {V : Type}

def SleepSys.AtRisk (s : SleepSys nproc V) (p : Fin nproc) : Prop :=
  s.pc p = .sleepChan ∨ s.pc p = .sleepState ∨ s.state p = .sleeping

structure SleepInv (cond : V → Bool) (chan : Nat) (s : SleepSys nproc V) : Prop where
  lk : Guards s.lk s.pc SleepPc.holdsLk
  ptable : Guards s.ptable s.pc SleepPc.holdsPtable
  sleeping : ∀ p, s.state p = .sleeping → s.pc p = .sched ∨ s.pc p = .switched
  chan : ∀ p, s.pc p = .sleepState ∨ s.pc p = .sched ∨ s.pc p = .switched → s.chan p = chan
  tested : ∀ p, s.pc p = .sleepAcquire ∨ s.pc p = .sleepRelease → cond s.value = false
  pending : ∀ p, s.AtRisk p → cond s.value = true → ∃ w, (s.pc w).PendingFor p.val

theorem sleepInv_init (cond : V → Bool) (chan : Nat) (v : V) :
    SleepInv cond chan (SleepSys.init v : SleepSys nproc V) := by
  constructor <;>
    simp [SleepSys.init, SleepPc.holdsLk, SleepPc.holdsPtable, SleepSys.AtRisk, Guards]

variable {cond : V → Bool} {chan : Nat} {s s' : SleepSys nproc V} {p : Fin nproc} {k : SleepPc}

structure SleepMove (cond : V → Bool) (chan : Nat) (s : SleepSys nproc V) (p : Fin nproc)
    (k : SleepPc) (s' : SleepSys nproc V) : Prop where
  pc : s'.pc = Function.update s.pc p k
  state : ∀ q ≠ p, s'.state q = .sleeping → s.state q = .sleeping
  sameChan : ∀ q ≠ p, s'.chan q = s.chan q
  /-- The value changes under `lk`, and only `set` establishes the condition. -/
  value : s'.value = s.value ∨ (s.pc p).holdsLk = true
  established : cond s'.value = true → cond s.value = true ∨ ∀ slot, k.PendingFor slot
  /-- A scan does not pass a sleeper by. -/
  scan : ∀ q ≠ p, s'.AtRisk q → (s.pc p).PendingFor q.val → k.PendingFor q.val
  sleeping : s'.state p = .sleeping → k = .sched ∨ k = .switched
  onChan : k = .sleepState ∨ k = .sched ∨ k = .switched → s'.chan p = chan
  tested : k = .sleepAcquire ∨ k = .sleepRelease → cond s'.value = false
  /-- The process comes to be at risk with the condition false and no scan of its own. -/
  risk : s'.AtRisk p → cond s'.value = false ∨ s.AtRisk p ∧ ¬(s.pc p).PendingFor p.val

theorem SleepInv.of_move (hinv : SleepInv cond chan s) (hmove : SleepMove cond chan s p k s')
    (hlk : Guards s'.lk s'.pc SleepPc.holdsLk) (hpt : Guards s'.ptable s'.pc SleepPc.holdsPtable) :
    SleepInv cond chan s' := by
  have hself : s'.pc p = k := by rw [hmove.pc, Function.update_self]
  have hother : ∀ q ≠ p, s'.pc q = s.pc q := fun q hq => by
    rw [hmove.pc, Function.update_of_ne hq]
  refine ⟨hlk, hpt, fun q => ?_, fun q => ?_, fun q hq => ?_, fun q hq hv => ?_⟩
  · by_cases hqp : q = p
    · subst hqp
      rw [hself]
      exact hmove.sleeping
    · rw [hother q hqp]
      exact fun h => hinv.sleeping q (hmove.state q hqp h)
  · by_cases hqp : q = p
    · subst hqp
      rw [hself]
      exact hmove.onChan
    · rw [hother q hqp, hmove.sameChan q hqp]
      exact hinv.chan q
  · by_cases hqp : q = p
    · subst hqp
      rw [hself] at hq
      exact hmove.tested hq
    · rw [hother q hqp] at hq
      rcases hmove.value with hval | hheld
      · rw [hval]
        exact hinv.tested q hq
      · -- both processes would hold `lk`
        have hq' : (s.pc q).holdsLk = true := by
          rcases hq with hq | hq <;> rw [hq] <;> rfl
        exact absurd (hinv.lk.exclusive hq' hheld) hqp
  · by_cases hset : ∀ slot, k.PendingFor slot
    · exact ⟨p, hself ▸ hset q.val⟩
    · have hold : cond s.value = true := (hmove.established hv).resolve_right hset
      by_cases hqp : q = p
      · subst hqp
        rcases hmove.risk hq with hfalse | ⟨hrisk, hnot⟩
        · rw [hfalse] at hv
          cases hv
        · obtain ⟨w, hw⟩ := hinv.pending q hrisk hold
          have hwq : w ≠ q := fun heq => hnot (heq ▸ hw)
          exact ⟨w, (hother w hwq).symm ▸ hw⟩
      · have hrisk : s.AtRisk q := by
          rw [SleepSys.AtRisk, hother q hqp] at hq
          exact hq.imp_right fun h => h.imp_right (hmove.state q hqp)
        obtain ⟨w, hw⟩ := hinv.pending q hrisk hold
        by_cases hwp : w = p
        · subst hwp
          exact ⟨w, hself.symm ▸ hmove.scan q hqp hq hw⟩
        · exact ⟨w, (hother w hwp).symm ▸ hw⟩

/-- A process may go on at `k` when the value, the states and the channels stay as they are. -/
structure Quiet (cond : V → Bool) (chan : Nat) (s : SleepSys nproc V) (p : Fin nproc)
    (k : SleepPc) : Prop where
  sleep : s.pc p = .sched ∨ s.pc p = .switched → k = .switched
  scan : ∀ slot < nproc, (s.pc p).PendingFor slot → k.PendingFor slot
  chan : k = .sleepState ∨ k = .sched ∨ k = .switched → s.chan p = chan
  tested : k = .sleepAcquire ∨ k = .sleepRelease ∨ k = .sleepChan ∨ k = .sleepState →
    cond s.value = false

theorem SleepMove.quiet {l t : Option (Fin nproc)} (hinv : SleepInv cond chan s)
    (hq : Quiet cond chan s p k) :
    SleepMove cond chan s p k { s.goto p k with lk := l, ptable := t } where
  pc := rfl
  state _ _ h := h
  sameChan _ _ := rfl
  value := .inl rfl
  established h := .inl h
  scan q _ _ := hq.scan q.val q.isLt
  sleeping h := .inr (hq.sleep (hinv.sleeping p h))
  onChan := hq.chan
  tested h := hq.tested (h.imp_right .inl)
  risk h := by
    simp only [SleepSys.AtRisk, SleepSys.goto, Function.update_self] at h
    rcases h with h | h | h
    · exact .inl (hq.tested (.inr (.inr (.inl h))))
    · exact .inl (hq.tested (.inr (.inr (.inr h))))
    · refine .inr ⟨.inr (.inr h), ?_⟩
      rcases hinv.sleeping p h with hpc | hpc <;> rw [hpc] <;> exact id

theorem SleepInv.quiet {l t : Option (Fin nproc)} (hinv : SleepInv cond chan s)
    (hlk : Guards l (Function.update s.pc p k) SleepPc.holdsLk)
    (hpt : Guards t (Function.update s.pc p k) SleepPc.holdsPtable)
    (hq : Quiet cond chan s p k) :
    SleepInv cond chan { s.goto p k with lk := l, ptable := t } :=
  hinv.of_move (.quiet hinv hq) hlk hpt

theorem SleepInv.goto (hinv : SleepInv cond chan s) (hlk : k.holdsLk = (s.pc p).holdsLk)
    (hpt : k.holdsPtable = (s.pc p).holdsPtable) (hq : Quiet cond chan s p k) :
    SleepInv cond chan (s.goto p k) :=
  hinv.quiet (hinv.lk.stay hlk) (hinv.ptable.stay hpt) hq

theorem SleepInv.acquireLk (hinv : SleepInv cond chan s) (h : s.acquireLk p k = some s')
    (hlk : k.holdsLk = true) (hpt : k.holdsPtable = (s.pc p).holdsPtable)
    (hq : Quiet cond chan s p k) : SleepInv cond chan s' := by
  obtain ⟨hfree, heq⟩ := Option.ite_none_right_eq_some.mp h
  cases heq
  have hold := hinv.lk
  rw [hfree] at hold
  exact hinv.quiet (hold.acquire hlk) (hinv.ptable.stay hpt) hq

theorem SleepInv.acquirePtable (hinv : SleepInv cond chan s) (h : s.acquirePtable p k = some s')
    (hlk : k.holdsLk = (s.pc p).holdsLk) (hpt : k.holdsPtable = true)
    (hq : Quiet cond chan s p k) : SleepInv cond chan s' := by
  obtain ⟨hfree, heq⟩ := Option.ite_none_right_eq_some.mp h
  cases heq
  have hold := hinv.ptable
  rw [hfree] at hold
  exact hinv.quiet (hinv.lk.stay hlk) (hold.acquire hpt) hq

theorem SleepInv.releaseLk (hinv : SleepInv cond chan s) (hheld : (s.pc p).holdsLk = true)
    (hlk : k.holdsLk = false) (hpt : k.holdsPtable = (s.pc p).holdsPtable)
    (hq : Quiet cond chan s p k) : SleepInv cond chan (s.releaseLk p k) :=
  hinv.quiet (hinv.lk.release hheld hlk) (hinv.ptable.stay hpt) hq

theorem SleepInv.releasePtable (hinv : SleepInv cond chan s)
    (hheld : (s.pc p).holdsPtable = true) (hlk : k.holdsLk = (s.pc p).holdsLk)
    (hpt : k.holdsPtable = false) (hq : Quiet cond chan s p k) :
    SleepInv cond chan (s.releasePtable p k) :=
  hinv.quiet (hinv.lk.stay hlk) (hinv.ptable.release hheld hpt) hq

theorem SleepInv.not_sleeping (hinv : SleepInv cond chan s)
    (hpc : ¬(s.pc p = .sched ∨ s.pc p = .switched)) : s.state p ≠ .sleeping :=
  fun h => hpc (hinv.sleeping p h)

theorem SleepMove.setChan (hinv : SleepInv cond chan s) (hpc : s.pc p = .sleepChan) :
    SleepMove cond chan s p .sleepState
      { s.goto p .sleepState with chan := Function.update s.chan p chan } where
  pc := rfl
  state _ _ h := h
  sameChan q hq := Function.update_of_ne hq _ _
  value := .inl rfl
  established h := .inl h
  scan _ _ _ h := by
    rw [hpc] at h
    exact h.elim
  sleeping h := absurd h (hinv.not_sleeping (by simp [hpc]))
  onChan _ := Function.update_self ..
  tested h := by simp at h
  risk _ := .inr ⟨.inl hpc, by simp [hpc, SleepPc.PendingFor]⟩

theorem SleepMove.sleep (hinv : SleepInv cond chan s) (hpc : s.pc p = .sleepState) :
    SleepMove cond chan s p .sched
      { s.goto p .sched with state := Function.update s.state p .sleeping } where
  pc := rfl
  state q hq h := by
    dsimp only at h
    rwa [Function.update_of_ne hq] at h
  sameChan _ _ := rfl
  value := .inl rfl
  established h := .inl h
  scan _ _ _ h := by
    rw [hpc] at h
    exact h.elim
  sleeping _ := .inl rfl
  onChan _ := hinv.chan p (.inl hpc)
  tested h := by simp at h
  risk _ := .inr ⟨.inr (.inl hpc), by simp [hpc, SleepPc.PendingFor]⟩

theorem SleepMove.tidy (hinv : SleepInv cond chan s) (hpc : s.pc p = .sleepTidy) :
    SleepMove cond chan s p .sleepEnd
      { s.goto p .sleepEnd with chan := Function.update s.chan p 0 } where
  pc := rfl
  state _ _ h := h
  sameChan q hq := Function.update_of_ne hq _ _
  value := .inl rfl
  established h := .inl h
  scan _ _ _ h := by
    rw [hpc] at h
    exact h.elim
  sleeping h := absurd h (hinv.not_sleeping (by simp [hpc]))
  onChan h := by simp at h
  tested h := by simp at h
  risk h := by
    simp only [SleepSys.AtRisk, SleepSys.goto, Function.update_self] at h
    rcases h with h | h | h
    · cases h
    · cases h
    · exact absurd h (hinv.not_sleeping (by simp [hpc]))

theorem SleepMove.write {v : V} (hinv : SleepInv cond chan s) (hheld : (s.pc p).holdsLk = true)
    (hawake : ¬(s.pc p = .sched ∨ s.pc p = .switched))
    (hcond : cond v = true → cond s.value = true ∨ ∀ slot, k.PendingFor slot)
    (hk : k.inSleep = false)
    (hscan : ∀ slot, (s.pc p).PendingFor slot → k.PendingFor slot) :
    SleepMove cond chan s p k { s.goto p k with value := v } where
  pc := rfl
  state _ _ h := h
  sameChan _ _ := rfl
  value := .inr hheld
  established := hcond
  scan q _ _ := hscan q.val
  sleeping h := absurd h (hinv.not_sleeping hawake)
  onChan h := by rcases h with rfl | rfl | rfl <;> cases hk
  tested h := by rcases h with rfl | rfl <;> cases hk
  risk h := by
    simp only [SleepSys.AtRisk, SleepSys.goto, Function.update_self] at h
    rcases h with rfl | rfl | h
    · cases hk
    · cases hk
    · exact absurd h (hinv.not_sleeping hawake)

/-- The scan visits a slot: a process that sleeps there on the channel is made runnable. Nobody else
is between the test of the condition and `sched`, since the scan holds `ptable.lock`. -/
theorem SleepMove.rouse {lk : Bool} {slot : Nat} (hinv : SleepInv cond chan s)
    (hpc : s.pc p = .wakeup1 lk slot) :
    SleepMove cond chan s p (.wakeup1 lk (slot + 1))
      { s.goto p (.wakeup1 lk (slot + 1)) with state := s.rouse chan slot } where
  pc := rfl
  state q _ h := by
    simp only [SleepSys.rouse] at h
    split at h
    · cases h
    · exact h
  sameChan _ _ := rfl
  value := .inl rfl
  established h := .inl h
  scan q hq hrisk hpend := by
    rw [hpc] at hpend
    have hne : q.val ≠ slot := by
      intro heq
      simp only [SleepSys.AtRisk, SleepSys.goto, Function.update_of_ne hq] at hrisk
      have hp : (s.pc p).holdsPtable = true := by rw [hpc]; rfl
      rcases hrisk with h | h | h
      · exact hq (hinv.ptable.exclusive (by rw [h]; rfl) hp)
      · exact hq (hinv.ptable.exclusive (by rw [h]; rfl) hp)
      · simp only [SleepSys.rouse] at h
        split at h
        · cases h
        · rename_i hnot
          exact hnot ⟨heq, h, hinv.chan q (.inr (hinv.sleeping q h))⟩
    exact Nat.lt_of_le_of_ne hpend (Ne.symm hne)
  sleeping h := by
    simp only [SleepSys.rouse] at h
    split at h
    · cases h
    · exact absurd h (hinv.not_sleeping (by simp [hpc]))
  onChan h := by simp at h
  tested h := by simp at h
  risk h := by
    simp only [SleepSys.AtRisk, SleepSys.goto, Function.update_self, SleepSys.rouse] at h
    rcases h with h | h | h
    · cases h
    · cases h
    · split at h
      · cases h
      · exact absurd h (hinv.not_sleeping (by simp [hpc]))

theorem SleepMove.schedule (hpc : s.pc p = .switched) :
    SleepMove cond chan s p .sleepTidy
      { s.goto p .sleepTidy with
        state := Function.update s.state p .running, ptable := some p } where
  pc := rfl
  state q hq h := by
    dsimp only at h
    rwa [Function.update_of_ne hq] at h
  sameChan _ _ := rfl
  value := .inl rfl
  established h := .inl h
  scan _ _ _ h := by
    rw [hpc] at h
    exact h.elim
  sleeping h := by simp at h
  onChan h := by simp at h
  tested h := by simp at h
  risk h := by simp [SleepSys.AtRisk, SleepSys.goto] at h

theorem SleepInv.step (hinv : SleepInv cond chan s) {v : V} {early : Bool}
    (hstep : s.step cond chan p v early = some s') : SleepInv cond chan s' := by
  have hlk := hinv.lk
  have hpt := hinv.ptable
  rw [SleepSys.step] at hstep
  cases hpc : s.pc p with
  | idle | switched =>
    simp only [hpc] at hstep
    cases hstep
  | waitAcquire | setAcquire =>
    simp only [hpc] at hstep
    exact hinv.acquireLk hstep rfl (by rw [hpc]; rfl)
      ⟨by simp [hpc], by simp [hpc, SleepPc.PendingFor], by simp, by simp⟩
  | waitTest =>
    simp only [hpc] at hstep
    cases hstep
    split
    · exact hinv.goto (by rw [hpc]; rfl) (by rw [hpc]; rfl)
        ⟨by simp [hpc], by simp [hpc, SleepPc.PendingFor], by simp, by simp⟩
    · rename_i hfalse
      exact hinv.goto (by rw [hpc]; rfl) (by rw [hpc]; rfl) ⟨by simp [hpc],
        by simp [hpc, SleepPc.PendingFor], by simp, fun _ => by simpa using hfalse⟩
  | sleepAcquire =>
    simp only [hpc] at hstep
    exact hinv.acquirePtable hstep (by rw [hpc]; rfl) rfl ⟨by simp [hpc],
      by simp [hpc, SleepPc.PendingFor], by simp, fun _ => hinv.tested p (.inl hpc)⟩
  | sleepRelease =>
    simp only [hpc] at hstep
    cases hstep
    exact hinv.releaseLk (by rw [hpc]; rfl) rfl (by rw [hpc]; rfl) ⟨by simp [hpc],
      by simp [hpc, SleepPc.PendingFor], by simp, fun _ => hinv.tested p (.inr hpc)⟩
  | sleepChan =>
    simp only [hpc] at hstep
    cases hstep
    exact hinv.of_move (.setChan hinv hpc) (hlk.stay (by rw [hpc]; rfl))
      (hpt.stay (by rw [hpc]; rfl))
  | sleepState =>
    simp only [hpc] at hstep
    cases hstep
    exact hinv.of_move (.sleep hinv hpc) (hlk.stay (by rw [hpc]; rfl))
      (hpt.stay (by rw [hpc]; rfl))
  | sched =>
    simp only [hpc] at hstep
    cases hstep
    exact hinv.releasePtable (by rw [hpc]; rfl) (by rw [hpc]; rfl) rfl ⟨by simp [hpc],
      by simp [hpc, SleepPc.PendingFor], fun _ => hinv.chan p (.inr (.inl hpc)), by simp⟩
  | sleepTidy =>
    simp only [hpc] at hstep
    cases hstep
    exact hinv.of_move (.tidy hinv hpc) (hlk.stay (by rw [hpc]; rfl))
      (hpt.stay (by rw [hpc]; rfl))
  | sleepEnd =>
    simp only [hpc] at hstep
    cases hstep
    exact hinv.releasePtable (by rw [hpc]; rfl) (by rw [hpc]; rfl) rfl
      ⟨by simp [hpc], by simp [hpc, SleepPc.PendingFor], by simp, by simp⟩
  | use =>
    simp only [hpc] at hstep
    obtain ⟨hv, heq⟩ := Option.ite_none_left_eq_some.mp hstep
    cases heq
    refine hinv.of_move (.write hinv (by rw [hpc]; rfl) (by simp [hpc]) (fun hcond => .inl ?_) rfl
      (by simp [hpc, SleepPc.PendingFor])) (hlk.stay (by rw [hpc]; rfl))
      (hpt.stay (by rw [hpc]; rfl))
    simpa [hcond] using hv
  | useRelease | setRelease | wakeupEnd =>
    simp only [hpc] at hstep
    cases hstep
    exact hinv.releaseLk (by rw [hpc]; rfl) rfl (by rw [hpc]; rfl)
      ⟨by simp [hpc], by simp [hpc, SleepPc.PendingFor], by simp, by simp⟩
  | set =>
    simp only [hpc] at hstep
    obtain ⟨-, heq⟩ := Option.ite_none_right_eq_some.mp hstep
    cases heq
    have hk : ∀ slot, (if early then SleepPc.setRelease
        else SleepPc.wakeupAcquire true).PendingFor slot := by
      intro slot
      cases early <;> trivial
    exact hinv.of_move (.write hinv (by rw [hpc]; rfl) (by simp [hpc]) (fun _ => .inr hk)
      (by cases early <;> rfl) (fun slot _ => hk slot))
      (hlk.stay (by rw [hpc]; cases early <;> rfl))
      (hpt.stay (by rw [hpc]; cases early <;> rfl))
  | wakeupAcquire lk =>
    simp only [hpc] at hstep
    exact hinv.acquirePtable hstep (by rw [hpc]; rfl) rfl
      ⟨by simp [hpc], by simp [hpc, SleepPc.PendingFor], by simp, by simp⟩
  | wakeup1 lk slot =>
    simp only [hpc] at hstep
    cases hstep
    split
    · exact hinv.of_move (.rouse hinv hpc) (hlk.stay (by rw [hpc]; rfl))
        (hpt.stay (by rw [hpc]; rfl))
    · -- every slot has been visited
      rename_i hend
      refine hinv.goto (by rw [hpc]; rfl) (by rw [hpc]; rfl)
        ⟨by simp [hpc], fun slot' hlt hpend => ?_, by simp, by simp⟩
      rw [hpc] at hpend
      exact absurd (Nat.lt_of_le_of_lt hpend hlt) hend
  | wakeupRelease lk =>
    simp only [hpc] at hstep
    cases hstep
    exact hinv.releasePtable (by rw [hpc]; rfl) (by rw [hpc]; cases lk <;> rfl)
      (by cases lk <;> rfl) ⟨by simp [hpc], by simp [hpc, SleepPc.PendingFor],
        by cases lk <;> simp, by cases lk <;> simp⟩

theorem SleepInv.exec {e : SleepEvent nproc V} (hinv : SleepInv cond chan s)
    (hstep : SleepStep cond chan s e s') : SleepInv cond chan s' := by
  cases e with
  | wait p | post p =>
    obtain ⟨hpc, heq⟩ := Option.ite_none_right_eq_some.mp hstep
    cases heq
    exact hinv.goto (by rw [hpc]; rfl) (by rw [hpc]; rfl)
      ⟨by simp [hpc], by simp [hpc, SleepPc.PendingFor], by simp, by simp⟩
  | step p v early => exact hinv.step hstep
  | schedule p =>
    obtain ⟨⟨hpc, -, hfree⟩, heq⟩ := Option.ite_none_right_eq_some.mp hstep
    cases heq
    have hpt := hinv.ptable
    rw [hfree] at hpt
    exact hinv.of_move (.schedule hpc) (hinv.lk.stay (by rw [hpc]; rfl)) (hpt.acquire rfl)

def SleepPc.Pending (pc : SleepPc) : Prop :=
  pc = .setRelease ∨ (∃ lk, pc = .wakeupAcquire lk) ∨ ∃ lk slot, pc = .wakeup1 lk slot

theorem SleepPc.PendingFor.pending {slot : Nat} {pc : SleepPc} (h : pc.PendingFor slot) :
    pc.Pending := by
  cases pc with
  | setRelease => exact .inl rfl
  | wakeupAcquire lk => exact .inr (.inl ⟨lk, rfl⟩)
  | wakeup1 lk next => exact .inr (.inr ⟨lk, next, rfl⟩)
  | _ => exact h.elim

/-- Whatever the interleaving, while a process sleeps on the channel and the condition holds, some
process still has a `wakeup` to execute that will visit the sleeper. -/
theorem no_lost_wakeup (nproc : Nat) {V : Type} (cond : V → Bool) (chan : Nat) (v : V)
    (events : List (SleepEvent nproc V)) (s : SleepSys nproc V)
    (hrun : Run (SleepStep cond chan) (SleepSys.init v) events s) (p : Fin nproc)
    (hsleeping : s.state p = .sleeping) (hcond : cond s.value = true) :
    ∃ w, (s.pc w).Pending ∧ (s.pc w).PendingFor p.val := by
  have hinv := Run.invariant (SleepInv cond chan) (fun _ _ _ h => h.exec)
    (sleepInv_init cond chan v) hrun
  obtain ⟨w, hw⟩ := hinv.pending p (.inr (.inr hsleeping)) hcond
  exact ⟨w, hw.pending, hw⟩

def emptyThenFull {n : Nat} (p q : Fin n) : List (SleepEvent n Nat) :=
  [.wait p, .step p 0 false, .step p 0 false, .step p 0 false, .step p 0 false, .step p 0 false,
    .step p 0 false, .step p 0 false, .post q, .step q 0 false, .step q 1 true]

theorem no_lost_wakeup_emptyThenFull : ∃ s : SleepSys 2 Nat,
    Run (SleepStep (fun v => 0 < v) 7) (SleepSys.init 0) (emptyThenFull 0 1) s ∧
      s.state 0 = .sleeping ∧ 0 < s.value ∧
      ∃ w, (s.pc w).Pending ∧ (s.pc w).PendingFor (0 : Fin 2).val := by
  have hexec : (execAll (SleepSys.exec (fun v => 0 < v) 7) (SleepSys.init 0)
      (emptyThenFull 0 1)).map (fun s : SleepSys 2 Nat => (s.state 0, decide (0 < s.value))) =
        some (.sleeping, true) := by
    decide
  have hstep : ∀ (s : SleepSys 2 Nat) e s', SleepSys.exec (fun v : Nat => 0 < v) 7 s e = some s' →
      SleepStep (fun v => 0 < v) 7 s e s' := fun _ _ _ h => h
  obtain ⟨s, hrun, hs⟩ := exists_run_of_execAll hstep _ hexec
  obtain ⟨hsleep, hpos⟩ := Prod.mk.inj hs
  exact ⟨s, hrun, hsleep, of_decide_eq_true hpos, no_lost_wakeup 2 _ 7 0 _ s hrun 0 hsleep hpos⟩

end Xv6
