import Xv6.Lib.Run
import Xv6.Machine

/-!
# Spinlocks and the scheduler

Any number of processors run `scheduler` and the kernel threads of the processes. Every processor
has its interrupt flag and its `ncli` and `intena`; a process that has called `sched` may go on on
another processor. A panic ends the run. The code of a process and of an interrupt handler takes
and releases locks as it likes. It turns interrupts on, as by `iret`, only outside `pushcli`.
-/

namespace Xv6.Sched

variable {C L : Type} {nproc : Nat}

/-- What the thread on a processor does next. -/
inductive Pc (L : Type) (nproc : Nat)
  | code
  -- between `pushcli` and `popcli` of `switchuvm`
  | switchuvm
  -- in the loop of `acquire`, called by `scheduler` or not
  | spin (lk : L) (scheduler : Bool)
  -- `xchg` has returned 0 and `lk->cpu` is not yet set
  | record (lk : L) (scheduler : Bool)
  -- `release` has cleared `lk->cpu`
  | unlock (lk : L)
  -- the process has changed its state
  | sched
  -- the loop of `scheduler`, and the slot it has found
  | scan
  | chosen (p : Fin nproc)
  deriving DecidableEq

/-- `thread` is the process whose kernel stack is in use, or `none` on the stack of `scheduler`. -/
structure Cpu (L : Type) (nproc : Nat) where
  intr : Bool
  ncli : Nat
  intena : Bool
  thread : Option (Fin nproc)
  pc : Pc L nproc
  slot : Nat

structure Spinlock (C : Type) where
  locked : Bool
  cpu : Option C

/-- `saved` is the local variable `intena` of `sched`, and `none` while the context of the process
is that of `forkret`. The code does not read `entry`: the interrupt flag at the outermost `pushcli`
of a process. -/
structure Sys (C L : Type) (nproc : Nat) where
  cpu : C → Cpu L nproc
  lock : L → Spinlock C
  state : Fin nproc → ProcState
  saved : Fin nproc → Option Bool
  entry : Fin nproc → Bool

/-- The processors enter `scheduler`; `userinit` has made process `first`. -/
def init (first : Fin nproc) : Sys C L nproc where
  cpu _ := ⟨false, 0, false, none, .code, 0⟩
  lock _ := ⟨false, none⟩
  state := Function.update (fun _ => .unused) first .runnable
  saved _ := none
  entry _ := false

def Cpu.pushcli (u : Cpu L nproc) : Cpu L nproc :=
  { u with intr := false, ncli := u.ncli + 1, intena := if u.ncli = 0 then u.intr else u.intena }

def Cpu.popcli (u : Cpu L nproc) : Option (Cpu L nproc) :=
  if u.intr ∨ u.ncli = 0 then none
  else some { u with ncli := u.ncli - 1, intr := u.ncli == 1 && u.intena }

/-- The changes of the state of another process and whether `ptable.lock` is held: `wakeup1` and
`kill`, `allocproc`, `wait`; `fork` publishes or gives up its child without the lock. -/
def alterable (held : Bool) : ProcState → ProcState → Bool
  | .sleeping, .runnable | .unused, .embryo | .zombie, .unused => held
  | .embryo, .runnable | .embryo, .unused => true
  | _, _ => false

inductive Event (L : Type) (nproc : Nat)
  | sti
  | interrupt
  | pushcli
  | popcli
  | acquire (lk : L)
  | schedule
  | xchg
  | record
  | release (lk : L)
  | unlock
  | stop (state : ProcState)
  | sched
  | scan
  | swtch
  | alter (q : Fin nproc) (state : ProcState)

namespace Sys

variable [DecidableEq C] [DecidableEq L] (s : Sys C L nproc) (c : C)

def setCpu (u : Cpu L nproc) : Sys C L nproc := { s with cpu := Function.update s.cpu c u }

def holding (lk : L) : Bool := (s.lock lk).locked && (s.lock lk).cpu = some c

/-- `pushcli` of the thread on processor `c`, which goes on at `pc`. -/
def push (pc : Pc L nproc) : Sys C L nproc :=
  let u := s.cpu c
  { s.setCpu c { u.pushcli with pc := pc } with
    entry := fun p => if u.ncli = 0 ∧ u.thread = some p then u.intr else s.entry p }

def acquire (lk : L) (scheduler : Bool) : Option (Sys C L nproc) :=
  if s.holding c lk then none else some (s.push c (.spin lk scheduler))

def release (lk : L) : Option (Sys C L nproc) :=
  if s.holding c lk then
    some { s.setCpu c { s.cpu c with pc := .unlock lk } with
      lock := Function.update s.lock lk { s.lock lk with cpu := none } }
  else none

/-- The step of processor `c`, where it can take it without a panic. -/
def exec (ptable : L) (e : Event L nproc) : Option (Sys C L nproc) :=
  let u := s.cpu c
  match e, u.pc with
  | .sti, .code => if u.ncli = 0 then some (s.setCpu c { u with intr := true }) else none
  | .interrupt, _ => if u.intr then some (s.setCpu c { u with intr := false }) else none
  | .pushcli, .code => some (s.push c .switchuvm)
  | .popcli, .switchuvm => u.popcli.map fun v => s.setCpu c { v with pc := .code }
  | .acquire lk, .code => s.acquire c lk false
  | .schedule, .code => if u.thread = none then s.acquire c ptable true else none
  | .xchg, .spin lk k =>
    if (s.lock lk).locked then some s
    else some { s.setCpu c { u with pc := .record lk k } with
      lock := Function.update s.lock lk { s.lock lk with locked := true } }
  | .record, .record lk k =>
    some { s.setCpu c
        { u with pc := if k then .scan else .code, slot := if k then 0 else u.slot } with
      lock := Function.update s.lock lk { s.lock lk with cpu := some c } }
  | .release lk, .code => s.release c lk
  | .unlock, .unlock lk =>
    u.popcli.map fun v => { s.setCpu c { v with pc := .code } with
      lock := Function.update s.lock lk { s.lock lk with locked := false } }
  -- `yield`, `sleep` and `exit` up to the call of `sched`
  | .stop st, .code =>
    u.thread.bind fun p =>
      if s.holding c ptable ∧ (st = .runnable ∨ st = .sleeping ∨ st = .zombie) then
        some { s.setCpu c { u with pc := .sched } with state := Function.update s.state p st }
      else none
  | .sched, .sched =>
    u.thread.bind fun p =>
      if s.holding c ptable ∧ u.ncli = 1 ∧ s.state p ≠ .running ∧ ¬u.intr then
        some { s.setCpu c { u with thread := none, pc := .scan, slot := u.slot + 1 } with
          saved := Function.update s.saved p (some u.intena) }
      else none
  | .scan, .scan =>
    if h : u.slot < nproc then
      if s.state ⟨u.slot, h⟩ = .runnable then
        some { s.setCpu c { u with pc := .chosen ⟨u.slot, h⟩ } with
          state := Function.update s.state ⟨u.slot, h⟩ .running }
      else some (s.setCpu c { u with slot := u.slot + 1 })
    else s.release c ptable
  -- to the end of `sched`, or to `forkret`
  | .swtch, .chosen p =>
    some { s.setCpu c
        { u with thread := some p, pc := .code, intena := (s.saved p).getD u.intena } with
      entry := fun q => if q = p ∧ s.saved p = none then u.intena else s.entry q }
  | .alter q st, .code =>
    if alterable (s.holding c ptable) (s.state q) st then
      some { s with state := Function.update s.state q st, saved :=
        if st = .embryo then Function.update s.saved q none else s.saved }
    else none
  | _, _ => none

end Sys

def Step [DecidableEq C] [DecidableEq L] (ptable : L) (s : Sys C L nproc) (e : C × Event L nproc)
    (s' : Sys C L nproc) : Prop :=
  s.exec e.1 ptable e.2 = some s'

end Xv6.Sched
