import Xv6.Lib.Holders
import Xv6.Sched

/-!
# Locks, interrupts and kernel stacks

A spinlock belongs to the processor that took it, whichever thread runs there: `scheduler` hands
`ptable.lock` to the process it switches to, and a process hands it back. `ncli` counts the locks of
the processor.
-/

namespace Xv6.Sched

variable {C L : Type} {nproc : Nat}

def Pc.window : Pc L nproc → Option L
  | .record lk _ | .unlock lk => some lk
  | _ => none

def Pc.pending : Pc L nproc → Nat
  | .switchuvm | .spin _ _ => 1
  | _ => 0

def Cpu.Runs (u : Cpu L nproc) (p : Fin nproc) : Prop := u.thread = some p ∨ u.pc = .chosen p

def Placed (ptable : L) (owner : L → Option C) (c : C) (u : Cpu L nproc) : Prop :=
  match u.pc with
  | .spin lk true | .record lk true => lk = ptable ∧ u.thread = none
  | .scan | .chosen _ => owner ptable = some c ∧ u.thread = none
  | .sched => owner ptable = some c
  | _ => True

variable [DecidableEq C]

structure StackInv (ptable : L) (cpu : C → Cpu L nproc) (owner : L → Option C)
    (state : Fin nproc → ProcState) (saved : Fin nproc → Option Bool) (entry : Fin nproc → Bool) :
    Prop where
  placed : ∀ c, Placed ptable owner c (cpu c)
  -- between the change of its state and the switch a process still has its stack
  runs : ∀ c p, (cpu c).Runs p → (state p = .running ↔ (cpu c).pc ≠ .sched)
  one : ∀ c d p, (cpu c).Runs p → (cpu d).Runs p → c = d
  running : ∀ p, state p = .running → ∃ c, (cpu c).Runs p
  intena : ∀ c p, (cpu c).thread = some p → 0 < (cpu c).ncli → (cpu c).intena = entry p
  kept : ∀ p b, saved p = some b → (∀ c, (cpu c).thread ≠ some p) → entry p = b

namespace StackInv

variable {ptable : L} {cpu : C → Cpu L nproc} {owner owner' : L → Option C} {c : C}
  {u : Cpu L nproc} {state state' : Fin nproc → ProcState} {saved saved' : Fin nproc → Option Bool}
  {entry entry' : Fin nproc → Bool} {p : Fin nproc} {st : ProcState}

theorem change (h : StackInv ptable cpu owner state saved entry)
    (howner : ∀ d ≠ c, owner ptable = some d → owner' ptable = some d)
    (hplaced : Placed ptable owner' c u)
    (hruns : ∀ p, u.Runs p → (state' p = .running ↔ u.pc ≠ .sched))
    (hfree : ∀ p, u.Runs p → ∀ d ≠ c, ¬(cpu d).Runs p)
    (hstate : ∀ p, state' p = state p ∨ ∀ d ≠ c, ¬(cpu d).Runs p)
    (hrunning : ∀ p, state' p = .running → u.Runs p ∨ state p = .running ∧ ¬(cpu c).Runs p)
    (hintena : ∀ p, u.thread = some p → 0 < u.ncli → u.intena = entry' p)
    (hentry : ∀ p, entry' p = entry p ∨ u.thread = some p)
    (hkept : ∀ p b, saved' p = some b → u.thread ≠ some p →
      saved p = some b ∧ (cpu c).thread ≠ some p ∨ entry p = b) :
    StackInv ptable (Function.update cpu c u) owner' state' saved' entry' := by
  have hself : Function.update cpu c u c = u := Function.update_self ..
  have hne : ∀ d ≠ c, Function.update cpu c u d = cpu d := fun d hd =>
    Function.update_of_ne hd ..
  refine ⟨fun d => ?_, fun d p => ?_, fun d e p => ?_, fun p hp => ?_, fun d p => ?_,
    fun p b hb hoff => ?_⟩
  · rcases eq_or_ne d c with rfl | hd
    · rwa [hself]
    · have hold := h.placed d
      have hkeep := howner d hd
      rw [hne d hd]
      unfold Placed at hold ⊢
      grind
  · rcases eq_or_ne d c with rfl | hd
    · rw [hself]
      exact hruns p
    · rw [hne d hd]
      intro hd'
      rw [(hstate p).resolve_right fun hno => hno d hd hd']
      exact h.runs d p hd'
  · rcases eq_or_ne d c with rfl | hd <;> rcases eq_or_ne e d with rfl | he
    · exact fun _ _ => rfl
    · rw [hself, hne e he]
      exact fun hd' he' => absurd he' (hfree p hd' e he)
    · exact fun _ _ => rfl
    · rcases eq_or_ne e c with rfl | he'
      · rw [hself, hne d hd]
        exact fun hd' he' => absurd hd' (hfree p he' d hd)
      · rw [hne d hd, hne e he']
        exact h.one d e p
  · rcases hrunning p hp with hu | ⟨hold, hoff⟩
    · exact ⟨c, hself.symm ▸ hu⟩
    · obtain ⟨d, hd⟩ := h.running p hold
      have hdc : d ≠ c := fun heq => hoff (heq ▸ hd)
      exact ⟨d, (hne d hdc).symm ▸ hd⟩
  · rcases eq_or_ne d c with rfl | hd
    · rw [hself]
      exact hintena p
    · rw [hne d hd]
      intro hd' hpos
      have hu : u.thread ≠ some p := fun hu => hfree p (.inl hu) d hd (.inl hd')
      rw [(hentry p).resolve_right hu]
      exact h.intena d p hd' hpos
  · have hu : u.thread ≠ some p := hself ▸ hoff c
    rw [(hentry p).resolve_right hu]
    rcases hkept p b hb hu with ⟨hold, hc⟩ | heq
    · refine h.kept p b hold fun d => ?_
      rcases eq_or_ne d c with rfl | hd
      · exact hc
      · exact hne d hd ▸ hoff d
    · exact heq

theorem setCpu (h : StackInv ptable cpu owner state saved entry)
    (howner : ∀ d ≠ c, owner ptable = some d → owner' ptable = some d)
    (hthread : u.thread = (cpu c).thread) (hplaced : Placed ptable owner' c u)
    (hpc : ∀ p, u.pc ≠ .chosen p ∧ (cpu c).pc ≠ .chosen p)
    (hsched : u.pc ≠ .sched ∧ (cpu c).pc ≠ .sched)
    (hentry : ∀ p, entry' p = entry p ∨ u.thread = some p)
    (hintena : ∀ p, u.thread = some p → 0 < u.ncli → u.intena = entry' p) :
    StackInv ptable (Function.update cpu c u) owner' state saved entry' := by
  have hone := fun d p => h.one d c p
  have hruns := h.runs c
  refine h.change howner hplaced ?runs ?free ?state ?running hintena hentry ?kept
  case runs => grind [Cpu.Runs]
  case free => grind [Cpu.Runs]
  case state => exact fun _ => .inl rfl
  case running => grind [Cpu.Runs]
  case kept => grind

theorem stop (h : StackInv ptable cpu owner state saved entry) (hown : owner ptable = some c)
    (hpc : (cpu c).pc = .code) (hthread : (cpu c).thread = some p) (hst : st ≠ .running) :
    StackInv ptable (Function.update cpu c { cpu c with pc := .sched }) owner
      (Function.update state p st) saved entry := by
  have hone := fun d p => h.one d c p
  have hintena := h.intena c
  refine h.change (fun _ _ => id) hown ?runs ?free ?state ?running ?intena (fun _ => .inl rfl)
    ?kept
  case runs => grind [Cpu.Runs, Function.update_apply]
  case free => grind [Cpu.Runs]
  case state => grind [Cpu.Runs, Function.update_apply]
  case running => grind [Cpu.Runs, Function.update_apply]
  case intena => grind
  case kept => grind

theorem sched (h : StackInv ptable cpu owner state saved entry) (hpc : (cpu c).pc = .sched)
    (hthread : (cpu c).thread = some p) (hstate : state p ≠ .running) (hncli : (cpu c).ncli = 1)
    {slot : Nat} :
    StackInv ptable
      (Function.update cpu c { cpu c with thread := none, pc := .scan, slot := slot }) owner state
      (Function.update saved p (some (cpu c).intena)) entry := by
  have hown := h.placed c
  rw [Placed, hpc] at hown
  have hintena := h.intena c p hthread
  refine h.change (fun _ _ => id) ⟨hown, rfl⟩ ?runs ?free (fun _ => .inl rfl) ?running ?intena
    (fun _ => .inl rfl) ?kept
  case runs => grind [Cpu.Runs]
  case free => grind [Cpu.Runs]
  case running => grind [Cpu.Runs]
  case intena => grind
  case kept => grind [Function.update_apply]

theorem choose (h : StackInv ptable cpu owner state saved entry) (hpc : (cpu c).pc = .scan)
    (hstate : state p = .runnable) :
    StackInv ptable (Function.update cpu c { cpu c with pc := .chosen p }) owner
      (Function.update state p .running) saved entry := by
  have hplaced := h.placed c
  rw [Placed, hpc] at hplaced
  obtain ⟨hown, hthread⟩ := hplaced
  have hoff : ∀ d, ¬(cpu d).Runs p := by
    intro d hd
    have hsched : (cpu d).pc = .sched := by
      by_contra hne
      rw [(h.runs d p hd).mpr hne] at hstate
      cases hstate
    have hownd := h.placed d
    rw [Placed, hsched] at hownd
    grind
  refine h.change (fun _ _ => id) ⟨hown, hthread⟩ ?runs ?free ?state ?running ?intena
    (fun _ => .inl rfl) ?kept
  case runs => grind [Cpu.Runs, Function.update_apply]
  case free => grind [Cpu.Runs]
  case state => grind [Function.update_apply]
  case running => grind [Cpu.Runs, Function.update_apply]
  case intena => grind
  case kept => grind

theorem swtch (h : StackInv ptable cpu owner state saved entry) (hpc : (cpu c).pc = .chosen p) :
    StackInv ptable
      (Function.update cpu c
        { cpu c with thread := some p, pc := .code, intena := (saved p).getD (cpu c).intena })
      owner state saved fun q => if q = p ∧ saved p = none then (cpu c).intena else entry q := by
  have hplaced := h.placed c
  rw [Placed, hpc] at hplaced
  have hone := fun d => h.one d c p
  have hruns := h.runs c p
  have hoff : ∀ d, (cpu d).thread ≠ some p := by
    intro d hd
    have hdc : d = c := hone d (.inl hd) (.inr hpc)
    rw [hdc, hplaced.2] at hd
    cases hd
  have hkept : saved p ≠ none → (saved p).getD (cpu c).intena = entry p := by
    intro hsome
    obtain ⟨b, hb⟩ := Option.ne_none_iff_exists'.mp hsome
    rw [hb, h.kept p b hb hoff, Option.getD_some]
  refine h.change (fun _ _ => id) trivial ?runs ?free (fun _ => .inl rfl) ?running ?intena ?entry
    ?kept
  case runs => grind [Cpu.Runs]
  case free => grind [Cpu.Runs]
  case running => grind [Cpu.Runs]
  case intena => grind
  case entry => grind
  case kept => grind

omit [DecidableEq C] in
theorem alter (h : StackInv ptable cpu owner state saved entry) (hold : state p ≠ .running)
    (hst : st ≠ .running) (hsaved : ∀ q, saved' q = saved q ∨ saved' q = none) :
    StackInv ptable cpu owner (Function.update state p st) saved' entry := by
  obtain ⟨hplace, hruns, hone, hrunning, hint, hkept⟩ := h
  refine ⟨hplace, ?runs, hone, ?running, hint, ?kept⟩
  case runs => grind [Function.update_apply]
  case running => grind [Function.update_apply]
  case kept => grind

end StackInv

variable [Fintype L]

structure LockInv (cpu : C → Cpu L nproc) (lock : L → Spinlock C) (owner : L → Option C) :
    Prop where
  word : ∀ lk, (lock lk).locked = (owner lk).isSome
  named : ∀ lk c, (lock lk).cpu = some c ↔ owner lk = some c ∧ (cpu c).pc.window ≠ some lk
  window : ∀ lk c, (cpu c).pc.window = some lk → owner lk = some c
  ncli : ∀ c, (cpu c).ncli = holders owner c + (cpu c).pc.pending
  intr : ∀ c, 0 < (cpu c).ncli → (cpu c).intr = false

namespace LockInv

variable {cpu : C → Cpu L nproc} {lock : L → Spinlock C} {owner : L → Option C} {c : C} {lk : L}
  {u : Cpu L nproc}

theorem setCpu (h : LockInv cpu lock owner) (hwindow : u.pc.window = (cpu c).pc.window)
    (hncli : u.ncli + (cpu c).pc.pending = (cpu c).ncli + u.pc.pending)
    (hintr : 0 < u.ncli → u.intr = false) : LockInv (Function.update cpu c u) lock owner := by
  obtain ⟨hword, hnamed, hwin, hcount, hoff⟩ := h
  refine ⟨hword, ?named, ?window, ?ncli, ?intr⟩
  case named => grind [Function.update_apply]
  case window => grind [Function.update_apply]
  case ncli => grind [Function.update_apply]
  case intr => grind [Function.update_apply]

variable [DecidableEq L]

theorem take (h : LockInv cpu lock owner) {k : Bool} (hpc : (cpu c).pc = .spin lk k)
    (hfree : (lock lk).locked = false) :
    LockInv (Function.update cpu c { cpu c with pc := .record lk k })
      (Function.update lock lk { lock lk with locked := true })
      (Function.update owner lk (some c)) := by
  obtain ⟨hword, hnamed, hwin, hcount, hoff⟩ := h
  have hnone : owner lk = none := Option.not_isSome_iff_eq_none.mp (by simp [← hword, hfree])
  refine ⟨?_, ?_, ?_, ?_, ?_⟩
  · grind [Function.update_apply]
  · grind [Function.update_apply, Pc.window]
  · grind [Function.update_apply, Pc.window]
  · intro d
    rw [holders_set hnone]
    grind [Function.update_apply, Pc.pending]
  · grind [Function.update_apply]

theorem record (h : LockInv cpu lock owner) {k : Bool} (hpc : (cpu c).pc = .record lk k)
    (hwindow : u.pc.window = none) (hpending : u.pc.pending = 0) (hncli : u.ncli = (cpu c).ncli)
    (hintr : u.intr = (cpu c).intr) :
    LockInv (Function.update cpu c u) (Function.update lock lk { lock lk with cpu := some c })
      owner := by
  obtain ⟨hword, hnamed, hwin, hcount, hoff⟩ := h
  have hown : owner lk = some c := by grind [Pc.window]
  refine ⟨?word, ?named, ?window, ?ncli, ?intr⟩
  case word => grind [Function.update_apply]
  case named => grind [Function.update_apply, Pc.window]
  case window => grind [Function.update_apply]
  case ncli => grind [Function.update_apply, Pc.pending]
  case intr => grind [Function.update_apply]

theorem release (h : LockInv cpu lock owner) (hown : owner lk = some c)
    (hwindow : (cpu c).pc.window = none) (hpending : (cpu c).pc.pending = 0) :
    LockInv (Function.update cpu c { cpu c with pc := .unlock lk })
      (Function.update lock lk { lock lk with cpu := none }) owner := by
  obtain ⟨hword, hnamed, hwin, hcount, hoff⟩ := h
  refine ⟨?word, ?named, ?window, ?ncli, ?intr⟩
  case word => grind [Function.update_apply]
  case named => grind [Function.update_apply, Pc.window]
  case window => grind [Function.update_apply, Pc.window]
  case ncli => grind [Function.update_apply, Pc.pending]
  case intr => grind [Function.update_apply]

theorem unlock (h : LockInv cpu lock owner) (hpc : (cpu c).pc = .unlock lk)
    (hpop : (cpu c).popcli = some u) :
    LockInv (Function.update cpu c { u with pc := .code })
      (Function.update lock lk { lock lk with locked := false })
      (Function.update owner lk none) := by
  obtain ⟨hword, hnamed, hwin, hcount, hoff⟩ := h
  have hown : owner lk = some c := by grind [Pc.window]
  have hclear := holders_clear hown
  refine ⟨?word, ?named, ?window, ?ncli, ?intr⟩
  case word => grind [Function.update_apply]
  case named => grind [Function.update_apply, Pc.window]
  case window => grind [Function.update_apply, Pc.window]
  case ncli => grind [Function.update_apply, Pc.pending, Cpu.popcli]
  case intr => grind [Function.update_apply, Cpu.popcli]

end LockInv

variable {ptable : L} {s s' : Sys C L nproc} {c : C}

def Inv (ptable : L) (s : Sys C L nproc) : Prop :=
  ∃ owner, LockInv s.cpu s.lock owner ∧ StackInv ptable s.cpu owner s.state s.saved s.entry

theorem inv_init (first : Fin nproc) : Inv ptable (init first : Sys C L nproc) := by
  refine ⟨fun _ => none, ⟨?_, ?_, ?_, ?_, ?_⟩, ⟨?_, ?_, ?_, ?_, ?_, ?_⟩⟩
  all_goals simp [init, Pc.window, Pc.pending, holders, Placed, Cpu.Runs, Function.update_apply]
  grind

theorem LockInv.owner_of_holding {owner : L → Option C} (h : LockInv s.cpu s.lock owner) {lk : L}
    (hheld : s.holding c lk = true) : owner lk = some c := by
  simp only [Sys.holding, Bool.and_eq_true, decide_eq_true_eq] at hheld
  exact ((h.named lk c).mp hheld.2).1

theorem LockInv.ncli_pos {owner : L → Option C} (h : LockInv s.cpu s.lock owner) {lk : L}
    (hown : owner lk = some c) : 0 < (s.cpu c).ncli := by
  have hpos : 0 < holders owner c := holders_pos.mpr ⟨lk, hown⟩
  have hcount := h.ncli c
  omega

def Sys.Inside (s : Sys C L nproc) (c : C) (lk : L) : Prop :=
  (s.lock lk).cpu = some c ∨ (s.cpu c).pc.window = some lk

theorem LockInv.inside_iff {owner : L → Option C} (h : LockInv s.cpu s.lock owner) (lk : L) :
    s.Inside c lk ↔ owner lk = some c := by
  constructor
  · rintro (hcpu | hwindow)
    · exact ((h.named lk c).mp hcpu).1
    · exact h.window lk c hwindow
  · intro hown
    by_cases hwindow : (s.cpu c).pc.window = some lk
    · exact .inr hwindow
    · exact .inl ((h.named lk c).mpr ⟨hown, hwindow⟩)

theorem Inv.push (h : Inv ptable s) (hpc : (s.cpu c).pc = .code) {k : Pc L nproc}
    (hwindow : k.window = none) (hpending : k.pending = 1)
    (hplaced : ∀ owner u, u.pc = k → u.thread = (s.cpu c).thread → Placed ptable owner c u) :
    Inv ptable (s.push c k) := by
  obtain ⟨owner, hlock, hstack⟩ := h
  have hintena := hstack.intena c
  refine ⟨owner, hlock.setCpu ?_ ?_ ?_, hstack.setCpu (fun _ _ => id) rfl ?_ ?_ ?_ ?_ ?_⟩
  · rw [hpc]
    exact hwindow
  · rw [hpc]
    change (s.cpu c).ncli + 1 + 0 = (s.cpu c).ncli + k.pending
    rw [hpending]
  · exact fun _ => rfl
  · exact hplaced owner _ rfl rfl
  · intro p
    refine ⟨?_, by simp [hpc]⟩
    rintro (rfl : k = .chosen p)
    cases hpending
  · refine ⟨?_, by simp [hpc]⟩
    rintro (rfl : k = .sched)
    cases hpending
  · intro p
    simp only [Sys.push, Cpu.pushcli]
    grind
  · intro p
    simp only [Sys.push, Cpu.pushcli]
    grind

theorem Inv.interrupt (h : Inv ptable s) (hintr : (s.cpu c).intr = true) :
    Inv ptable (s.setCpu c { s.cpu c with intr := false }) := by
  obtain ⟨owner, hlock, hstack⟩ := h
  have hown : owner ptable ≠ some c := by
    intro hown
    have hoff := hlock.intr c (hlock.ncli_pos hown)
    rw [hintr] at hoff
    cases hoff
  have hplaced := hstack.placed c
  refine ⟨owner, hlock.setCpu rfl rfl fun _ => rfl, hstack.setCpu (fun _ _ => id) rfl hplaced
    ?chosen ?sched (fun _ => .inl rfl) (hstack.intena c)⟩
  case chosen =>
    unfold Placed at hplaced
    grind
  case sched =>
    unfold Placed at hplaced
    grind

theorem Inv.acquire (h : Inv ptable s) (hpc : (s.cpu c).pc = .code) {lk : L} {k : Bool}
    (hk : k = true → lk = ptable ∧ (s.cpu c).thread = none)
    (hexec : s.acquire c lk k = some s') : Inv ptable s' := by
  unfold Sys.acquire at hexec
  split at hexec
  · cases hexec
  · cases hexec
    refine h.push hpc rfl rfl fun owner u hu hthread => ?_
    rw [Placed, hu]
    cases k
    · trivial
    · exact ⟨(hk rfl).1, hthread.trans (hk rfl).2⟩

theorem alterable_ne {held : Bool} {a b : ProcState} (h : alterable held a b = true) :
    a ≠ .running ∧ b ≠ .running := by
  cases a <;> cases b <;> simp_all [alterable]

theorem Inv.sti (h : Inv ptable s) (hpc : (s.cpu c).pc = .code) (hncli : (s.cpu c).ncli = 0) :
    Inv ptable (s.setCpu c { s.cpu c with intr := true }) := by
  obtain ⟨owner, hlock, hstack⟩ := h
  refine ⟨owner, hlock.setCpu rfl rfl fun hpos => ?_, hstack.setCpu (fun _ _ => id) rfl ?_
    (fun p => ?_) ?_ (fun _ => .inl rfl) (hstack.intena c)⟩
  · exact absurd hncli (Nat.ne_of_gt hpos)
  · rw [Placed, hpc]
    trivial
  · simp [hpc]
  · simp [hpc]

theorem Inv.popcli (h : Inv ptable s) (hpc : (s.cpu c).pc = .switchuvm) {u : Cpu L nproc}
    (hpop : (s.cpu c).popcli = some u) : Inv ptable (s.setCpu c { u with pc := .code }) := by
  obtain ⟨owner, hlock, hstack⟩ := h
  have hcount := hlock.ncli c
  have hintena := hstack.intena c
  refine ⟨owner, hlock.setCpu ?window ?ncli ?intr, hstack.setCpu (fun _ _ => id) ?thread trivial
    (fun p => ?chosen) ?sched (fun _ => .inl rfl) ?intena⟩
  case window => rw [hpc]; rfl
  case ncli => grind [Cpu.popcli, Pc.pending]
  case intr => grind [Cpu.popcli]
  case thread => grind [Cpu.popcli]
  case chosen => simp [hpc]
  case sched => simp [hpc]
  case intena => grind [Cpu.popcli, Sys.setCpu]

theorem Inv.stop (h : Inv ptable s) (hpc : (s.cpu c).pc = .code) {p : Fin nproc}
    (hthread : (s.cpu c).thread = some p) (hheld : s.holding c ptable = true) {st : ProcState}
    (hst : st ≠ .running) : Inv ptable { s.setCpu c { s.cpu c with pc := .sched } with
      state := Function.update s.state p st } := by
  obtain ⟨owner, hlock, hstack⟩ := h
  refine ⟨owner, hlock.setCpu ?_ ?_ (hlock.intr c),
    hstack.stop (hlock.owner_of_holding hheld) hpc hthread hst⟩
  all_goals rw [hpc]; rfl

theorem Inv.sched (h : Inv ptable s) (hpc : (s.cpu c).pc = .sched) {p : Fin nproc}
    (hthread : (s.cpu c).thread = some p) (hncli : (s.cpu c).ncli = 1)
    (hstate : s.state p ≠ .running) (slot : Nat) :
    Inv ptable { s.setCpu c { s.cpu c with thread := none, pc := .scan, slot := slot } with
      saved := Function.update s.saved p (some (s.cpu c).intena) } := by
  obtain ⟨owner, hlock, hstack⟩ := h
  refine ⟨owner, hlock.setCpu ?_ ?_ (hlock.intr c), hstack.sched hpc hthread hstate hncli⟩
  all_goals rw [hpc]; rfl

theorem Inv.choose (h : Inv ptable s) (hpc : (s.cpu c).pc = .scan) {p : Fin nproc}
    (hstate : s.state p = .runnable) : Inv ptable { s.setCpu c { s.cpu c with pc := .chosen p } with
      state := Function.update s.state p .running } := by
  obtain ⟨owner, hlock, hstack⟩ := h
  refine ⟨owner, hlock.setCpu ?_ ?_ (hlock.intr c), hstack.choose hpc hstate⟩
  all_goals rw [hpc]; rfl

theorem Inv.pass (h : Inv ptable s) (hpc : (s.cpu c).pc = .scan) (slot : Nat) :
    Inv ptable (s.setCpu c { s.cpu c with slot := slot }) := by
  obtain ⟨owner, hlock, hstack⟩ := h
  have hplaced := hstack.placed c
  rw [Placed, hpc] at hplaced
  refine ⟨owner, hlock.setCpu rfl rfl (hlock.intr c), hstack.setCpu (fun _ _ => id) rfl ?_
    (fun p => ?_) ?_ (fun _ => .inl rfl) (hstack.intena c)⟩
  · rw [Placed, hpc]
    exact hplaced
  · simp [hpc]
  · simp [hpc]

theorem Inv.swtch (h : Inv ptable s) {p : Fin nproc} (hpc : (s.cpu c).pc = .chosen p) :
    Inv ptable { s.setCpu c { s.cpu c with
        thread := some p, pc := .code, intena := (s.saved p).getD (s.cpu c).intena } with
      entry := fun q => if q = p ∧ s.saved p = none then (s.cpu c).intena else s.entry q } := by
  obtain ⟨owner, hlock, hstack⟩ := h
  refine ⟨owner, hlock.setCpu ?_ ?_ (hlock.intr c), hstack.swtch hpc⟩
  all_goals rw [hpc]; rfl

theorem Inv.alter (h : Inv ptable s) {q : Fin nproc} {st : ProcState} {held : Bool}
    (hok : alterable held (s.state q) st = true) :
    Inv ptable { s with state := Function.update s.state q st, saved :=
      if st = .embryo then Function.update s.saved q none else s.saved } := by
  obtain ⟨owner, hlock, hstack⟩ := h
  obtain ⟨hold, hst⟩ := alterable_ne hok
  refine ⟨owner, hlock, hstack.alter hold hst fun p => ?_⟩
  grind [Function.update_apply]

variable [DecidableEq L]

instance (s : Sys C L nproc) (c : C) (lk : L) : Decidable (s.Inside c lk) :=
  inferInstanceAs (Decidable (_ ∨ _))

theorem Inv.release (h : Inv ptable s) (hpc : (s.cpu c).pc = .code ∨ (s.cpu c).pc = .scan) {lk : L}
    (hexec : s.release c lk = some s') : Inv ptable s' := by
  obtain ⟨owner, hlock, hstack⟩ := h
  unfold Sys.release at hexec
  split at hexec
  · rename_i hheld
    cases hexec
    have hwindow : (s.cpu c).pc.window = none := by rcases hpc with hpc | hpc <;> rw [hpc] <;> rfl
    have hpending : (s.cpu c).pc.pending = 0 := by rcases hpc with hpc | hpc <;> rw [hpc] <;> rfl
    refine ⟨owner, hlock.release (hlock.owner_of_holding hheld) hwindow hpending,
      hstack.setCpu (fun _ _ => id) rfl trivial ?chosen ?sched (fun _ => .inl rfl)
        (hstack.intena c)⟩
    case chosen => grind
    case sched => grind
  · cases hexec

theorem Inv.unlock (h : Inv ptable s) {lk : L} (hpc : (s.cpu c).pc = .unlock lk)
    {u : Cpu L nproc} (hpop : (s.cpu c).popcli = some u) :
    Inv ptable { s.setCpu c { u with pc := .code } with
      lock := Function.update s.lock lk { s.lock lk with locked := false } } := by
  obtain ⟨owner, hlock, hstack⟩ := h
  have hown : owner lk = some c := hlock.window lk c (by rw [hpc]; rfl)
  have hintena := hstack.intena c
  refine ⟨_, hlock.unlock hpc hpop, hstack.setCpu ?owner ?thread trivial (fun p => ?chosen) ?sched
    (fun _ => .inl rfl) ?intena⟩
  case owner => grind [Function.update_apply]
  case thread => grind [Cpu.popcli]
  case chosen => simp [hpc]
  case sched => simp [hpc]
  case intena => grind [Cpu.popcli, Sys.setCpu]

theorem Inv.xchg (h : Inv ptable s) {lk : L} {k : Bool} (hpc : (s.cpu c).pc = .spin lk k)
    (hfree : (s.lock lk).locked = false) :
    Inv ptable { s.setCpu c { s.cpu c with pc := .record lk k } with
      lock := Function.update s.lock lk { s.lock lk with locked := true } } := by
  obtain ⟨owner, hlock, hstack⟩ := h
  have hplaced := hstack.placed c
  have hword := hlock.word lk
  refine ⟨_, hlock.take hpc hfree, hstack.setCpu ?_ rfl ?_ ?_ ?_ (fun _ => .inl rfl)
    (hstack.intena c)⟩
  · intro d _ hd
    have hne : ptable ≠ lk := by
      rintro rfl
      rw [hfree, hd] at hword
      cases hword
    rwa [Function.update_of_ne hne]
  · rw [Placed, hpc] at hplaced
    cases k
    · trivial
    · exact hplaced
  · simp [hpc]
  · simp [hpc]

theorem Inv.record (h : Inv ptable s) {lk : L} {k : Bool} (hpc : (s.cpu c).pc = .record lk k) :
    Inv ptable { s.setCpu c { s.cpu c with
        pc := if k then .scan else .code, slot := if k then 0 else (s.cpu c).slot } with
      lock := Function.update s.lock lk { s.lock lk with cpu := some c } } := by
  obtain ⟨owner, hlock, hstack⟩ := h
  have hown : owner lk = some c := hlock.window lk c (by rw [hpc]; rfl)
  have hplaced := hstack.placed c
  rw [Placed, hpc] at hplaced
  refine ⟨owner, hlock.record hpc ?_ ?_ rfl rfl, hstack.setCpu (fun _ _ => id) rfl ?_ ?_ ?_
    (fun _ => .inl rfl) (hstack.intena c)⟩
  · cases k <;> rfl
  · cases k <;> rfl
  · cases k
    · trivial
    · exact ⟨hplaced.1 ▸ hown, hplaced.2⟩
  · cases k <;> simp [hpc]
  · cases k <;> simp [hpc]

/-- What each event does to the state is in the lemma of its name. -/
theorem Inv.exec (h : Inv ptable s) {e : Event L nproc} (hexec : s.exec c ptable e = some s') :
    Inv ptable s' := by
  simp only [Sys.exec] at hexec
  split at hexec <;> rename_i hpc
  · obtain ⟨hncli, heq⟩ := Option.ite_none_right_eq_some.mp hexec
    cases heq
    exact h.sti hpc hncli
  · obtain ⟨hintr, heq⟩ := Option.ite_none_right_eq_some.mp hexec
    cases heq
    exact h.interrupt hintr
  · cases hexec
    exact h.push hpc rfl rfl fun owner u hu _ => by rw [Placed, hu]; trivial
  · obtain ⟨u, hpop, rfl⟩ := Option.map_eq_some_iff.mp hexec
    exact h.popcli hpc hpop
  · exact h.acquire (k := false) hpc (fun hk => absurd hk Bool.false_ne_true) hexec
  · obtain ⟨hthread, hexec⟩ := Option.ite_none_right_eq_some.mp hexec
    exact h.acquire hpc (fun _ => ⟨rfl, hthread⟩) hexec
  · split at hexec <;> rename_i hlocked <;> cases hexec
    · exact h
    · exact h.xchg hpc (Bool.eq_false_of_not_eq_true hlocked)
  · cases hexec
    exact h.record hpc
  · exact h.release (.inl hpc) hexec
  · obtain ⟨u, hpop, rfl⟩ := Option.map_eq_some_iff.mp hexec
    exact h.unlock hpc hpop
  · obtain ⟨p, hthread, hexec⟩ := Option.bind_eq_some_iff.mp hexec
    obtain ⟨⟨hheld, hst⟩, heq⟩ := Option.ite_none_right_eq_some.mp hexec
    cases heq
    refine h.stop hpc hthread hheld ?_
    rcases hst with rfl | rfl | rfl <;> decide
  · obtain ⟨p, hthread, hexec⟩ := Option.bind_eq_some_iff.mp hexec
    obtain ⟨⟨-, hncli, hstate, -⟩, heq⟩ := Option.ite_none_right_eq_some.mp hexec
    cases heq
    exact h.sched hpc hthread hncli hstate _
  · split at hexec
    · split at hexec <;> cases hexec
      · exact h.choose hpc ‹_›
      · exact h.pass hpc _
    · exact h.release (.inr hpc) hexec
  · cases hexec
    exact h.swtch hpc
  · obtain ⟨hok, heq⟩ := Option.ite_none_right_eq_some.mp hexec
    cases heq
    exact h.alter hok
  · cases hexec

theorem Inv.run {first : Fin nproc} {es : List (C × Event L nproc)}
    (hrun : Run (Step ptable) (init first) es s) : Inv ptable s :=
  hrun.invariant (Inv ptable) (fun _ _ _ h hstep => h.exec hstep) (inv_init first)

structure LockSafe (s : Sys C L nproc) : Prop where
  exclusive : ∀ lk c d, s.Inside c lk → s.Inside d lk → c = d
  word : ∀ lk, (s.lock lk).locked = true ↔ ∃ c, s.Inside c lk
  /-- `holding` tells the processor's own code the truth. -/
  holding : ∀ c lk, (s.cpu c).pc.window = none → (s.holding c lk = true ↔ s.Inside c lk)
  ncli : ∀ c, (s.cpu c).ncli = {lk | s.Inside c lk}.toFinset.card + (s.cpu c).pc.pending
  /-- No interrupt handler runs on a processor that has a lock or spins for one. -/
  intr : ∀ c, (∃ lk, s.Inside c lk) ∨ 0 < (s.cpu c).pc.pending → (s.cpu c).intr = false

theorem spinlock_exclusive {first : Fin nproc} {es : List (C × Event L nproc)}
    (hrun : Run (Step ptable) (init first) es s) : LockSafe s := by
  obtain ⟨owner, hlock, -⟩ := Inv.run hrun
  refine ⟨fun lk c d => ?_, fun lk => ?_, fun c lk hwindow => ?_, fun c => ?_, fun c hc => ?_⟩
  · rw [hlock.inside_iff, hlock.inside_iff]
    exact fun hc hd => Option.some.inj (hc.symm.trans hd)
  · rw [hlock.word, Option.isSome_iff_exists]
    exact exists_congr fun c => (hlock.inside_iff lk).symm
  · refine ⟨fun hheld => (hlock.inside_iff lk).mpr (hlock.owner_of_holding hheld), fun hin => ?_⟩
    have hown := (hlock.inside_iff lk).mp hin
    have hcpu : (s.lock lk).cpu = some c := (hlock.named lk c).mpr ⟨hown, by simp [hwindow]⟩
    simp [Sys.holding, hcpu, hlock.word, hown]
  · rw [hlock.ncli, holders]
    congr 2
    ext lk
    simp [hlock.inside_iff]
  · refine hlock.intr c ?_
    rcases hc with ⟨lk, hin⟩ | hpending
    · exact hlock.ncli_pos ((hlock.inside_iff lk).mp hin)
    · have hcount := hlock.ncli c
      omega

structure StackSafe (ptable : L) (s : Sys C L nproc) : Prop where
  one : ∀ c d p, (s.cpu c).thread = some p → (s.cpu d).thread = some p → c = d
  running : ∀ p, s.state p = .running ↔ ∃ c, (s.cpu c).Runs p ∧ (s.cpu c).pc ≠ .sched
  /-- What `scheduler` may switch to and `wait` may free is on no processor. -/
  free : ∀ c p, s.holding c ptable = true → (s.cpu c).pc ≠ .sched → s.state p ≠ .running →
    ∀ d, (s.cpu d).thread ≠ some p

theorem kernel_stack_exclusive {first : Fin nproc} {es : List (C × Event L nproc)}
    (hrun : Run (Step ptable) (init first) es s) : StackSafe ptable s := by
  obtain ⟨owner, hlock, hstack⟩ := Inv.run hrun
  refine ⟨fun c d p hc hd => hstack.one c d p (.inl hc) (.inl hd), fun p => ⟨fun hp => ?_, ?_⟩, ?_⟩
  · obtain ⟨c, hc⟩ := hstack.running p hp
    exact ⟨c, hc, (hstack.runs c p hc).mp hp⟩
  · rintro ⟨c, hc, hpc⟩
    exact (hstack.runs c p hc).mpr hpc
  · intro c p hheld hpc hp d hd
    have hsched : (s.cpu d).pc = .sched := by
      by_contra hne
      exact hp ((hstack.runs d p (.inl hd)).mpr hne)
    have hown := hstack.placed d
    rw [Placed, hsched] at hown
    have hcd : c = d := Option.some.inj ((hlock.owner_of_holding hheld).symm.trans hown)
    exact hpc (hcd ▸ hsched)

/-- The last `release` of a process leaves the interrupt flag as its first `acquire` found it, even
if `sched` has returned on another processor in between. -/
theorem release_restores_interrupts {first : Fin nproc} {es : List (C × Event L nproc)}
    (hrun : Run (Step ptable) (init first) es s) {p : Fin nproc}
    (hthread : (s.cpu c).thread = some p) (hlast : (s.cpu c).ncli = 1)
    (hstep : Step ptable s (c, .unlock) s') : (s'.cpu c).intr = s.entry p := by
  obtain ⟨owner, hlock, hstack⟩ := Inv.run hrun
  have hintena := hstack.intena c p hthread (by omega)
  cases hpc : (s.cpu c).pc with
  | unlock lk =>
    simp only [Step, Sys.exec, hpc] at hstep
    obtain ⟨u, hpop, rfl⟩ := Option.map_eq_some_iff.mp hstep
    change (Function.update s.cpu c { u with pc := .code } c).intr = s.entry p
    rw [Function.update_self]
    grind [Cpu.popcli]
  | _ => simp [Step, Sys.exec, hpc] at hstep

def migrateRun (a b : C) (lk : L) : List (C × Event L nproc) :=
  [(a, .schedule), (a, .xchg), (a, .record), (a, .scan), (a, .swtch), (a, .release lk),
    (a, .unlock), (a, .sti), (a, .acquire lk), (a, .xchg), (b, .schedule), (b, .xchg),
    (a, .record), (a, .stop .runnable), (a, .sched), (a, .scan), (a, .unlock), (b, .xchg),
    (b, .record), (b, .scan), (b, .swtch), (b, .release lk)]

def Sys.returned (s : Sys (Fin 2) (Fin 1) 1) (b : Fin 2) (lk : Fin 1) (p : Fin 1) :
    Option (Fin 1) × Nat × Bool × Bool :=
  ((s.cpu b).thread, (s.cpu b).ncli, s.entry p, (s.exec b lk .unlock).isSome)

theorem exists_migrateRun : ∃ s : Sys (Fin 2) (Fin 1) 1,
    Run (Step 0) (init 0) (migrateRun 0 1 0) s ∧ s.returned 1 0 0 = (some 0, 1, true, true) := by
  have hexec : (execAll (fun (s : Sys (Fin 2) (Fin 1) 1) e => s.exec e.1 0 e.2) (init 0)
      (migrateRun 0 1 0)).map (fun s => s.returned 1 0 0) = some (some 0, 1, true, true) := by
    decide
  exact exists_run_of_execAll (fun _ _ _ => id) _ hexec

theorem spinlock_exclusive_migrate : ∃ s : Sys (Fin 2) (Fin 1) 1,
    s.returned 1 0 0 = (some 0, 1, true, true) ∧ LockSafe s := by
  obtain ⟨s, hrun, hobs⟩ := exists_migrateRun
  exact ⟨s, hobs, spinlock_exclusive hrun⟩

theorem kernel_stack_exclusive_migrate : ∃ s : Sys (Fin 2) (Fin 1) 1,
    s.returned 1 0 0 = (some 0, 1, true, true) ∧ StackSafe 0 s := by
  obtain ⟨s, hrun, hobs⟩ := exists_migrateRun
  exact ⟨s, hobs, kernel_stack_exclusive hrun⟩

theorem release_restores_interrupts_migrate : ∃ s s' : Sys (Fin 2) (Fin 1) 1,
    Step 0 s (1, .unlock) s' ∧ (s'.cpu 1).intr = true := by
  obtain ⟨s, hrun, hobs⟩ := exists_migrateRun
  simp only [Sys.returned, Prod.mk.injEq] at hobs
  obtain ⟨hthread, hlast, hentry, hsome⟩ := hobs
  obtain ⟨s', hs'⟩ := Option.isSome_iff_exists.mp hsome
  exact ⟨s, s', hs', (release_restores_interrupts hrun hthread hlast hs').trans hentry⟩

end Xv6.Sched
