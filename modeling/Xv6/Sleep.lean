import Mathlib.Logic.Function.Basic
import Xv6.Lib.Run

/-!
# `sleep` and `wakeup`

Any number of processes share a value under a spinlock `lk`. Some wait in
`while(!cond) sleep(chan, lk)` and then use the value, others make the condition true and call
`wakeup(chan)` before or after they release `lk`. Every acquire, release and store of `sleep` and
every table slot that `wakeup1` visits is a step of its own. A process that is not running takes no
step, so preemption is an interleaving.
-/

namespace Xv6

inductive SleepState
  | sleeping
  | runnable
  | running
  deriving DecidableEq

/-- The next statement of a process. A `wakeup` remembers whether its caller still holds `lk`. -/
inductive SleepPc
  | idle
  -- the waiting loop
  | waitAcquire
  | waitTest
  | sleepAcquire
  | sleepRelease
  | sleepChan
  | sleepState
  | sched
  | switched
  | sleepTidy
  | sleepEnd
  | use
  | useRelease
  -- the process that makes the condition true
  | setAcquire
  | set
  | setRelease
  | wakeupAcquire (lk : Bool)
  | wakeup1 (lk : Bool) (slot : Nat)
  | wakeupRelease (lk : Bool)
  | wakeupEnd
  deriving DecidableEq

/-- The two locks with their holders, the shared value, and for every slot of the process table its
state, its channel and its program counter. -/
structure SleepSys (nproc : Nat) (V : Type) where
  lk : Option (Fin nproc)
  ptable : Option (Fin nproc)
  value : V
  state : Fin nproc → SleepState
  chan : Fin nproc → Nat
  pc : Fin nproc → SleepPc

namespace SleepSys

variable {nproc : Nat} {V : Type}

def init (v : V) : SleepSys nproc V where
  lk := none
  ptable := none
  value := v
  state _ := .running
  chan _ := 0
  pc _ := .idle

variable (s : SleepSys nproc V) (p : Fin nproc)

def goto (pc : SleepPc) : SleepSys nproc V := { s with pc := Function.update s.pc p pc }

def acquireLk (pc : SleepPc) : Option (SleepSys nproc V) :=
  if s.lk = none then some { s.goto p pc with lk := some p } else none

def releaseLk (pc : SleepPc) : SleepSys nproc V := { s.goto p pc with lk := none }

def acquirePtable (pc : SleepPc) : Option (SleepSys nproc V) :=
  if s.ptable = none then some { s.goto p pc with ptable := some p } else none

def releasePtable (pc : SleepPc) : SleepSys nproc V := { s.goto p pc with ptable := none }

def rouse (chan slot : Nat) : Fin nproc → SleepState := fun q =>
  if q.val = slot ∧ s.state q = .sleeping ∧ s.chan q = chan then .runnable else s.state q

end SleepSys

/-- A process enters the waiting loop or the code that makes the condition true; executes its next
statement, leaving the value `v` where it writes it and releasing `lk` before `wakeup` if `early`;
or is switched to by the scheduler. -/
inductive SleepEvent (nproc : Nat) (V : Type)
  | wait (p : Fin nproc)
  | post (p : Fin nproc)
  | step (p : Fin nproc) (v : V) (early : Bool)
  | schedule (p : Fin nproc)

namespace SleepSys

variable {nproc : Nat} {V : Type}

/-- The next statement of a process. Past the loop it may use up the condition but not establish it;
`set` establishes it. -/
def step (cond : V → Bool) (chan : Nat) (s : SleepSys nproc V) (p : Fin nproc) (v : V)
    (early : Bool) : Option (SleepSys nproc V) :=
  match s.pc p with
  | .idle => none
  | .waitAcquire => s.acquireLk p .waitTest
  | .waitTest => some (if cond s.value then s.goto p .use else s.goto p .sleepAcquire)
  | .sleepAcquire => s.acquirePtable p .sleepRelease
  | .sleepRelease => some (s.releaseLk p .sleepChan)
  | .sleepChan => some { s.goto p .sleepState with chan := Function.update s.chan p chan }
  | .sleepState => some { s.goto p .sched with state := Function.update s.state p .sleeping }
  -- the scheduler goes on in place of the process and releases `ptable.lock`
  | .sched => some (s.releasePtable p .switched)
  | .switched => none
  | .sleepTidy => some { s.goto p .sleepEnd with chan := Function.update s.chan p 0 }
  | .sleepEnd => some (s.releasePtable p .waitAcquire)
  | .use =>
    if cond v && !cond s.value then none else some { s.goto p .useRelease with value := v }
  | .useRelease => some (s.releaseLk p .idle)
  | .setAcquire => s.acquireLk p .set
  | .set =>
    if cond v then
      some { s.goto p (if early then .setRelease else .wakeupAcquire true) with value := v }
    else none
  | .setRelease => some (s.releaseLk p (.wakeupAcquire false))
  | .wakeupAcquire lk => s.acquirePtable p (.wakeup1 lk 0)
  | .wakeup1 lk slot =>
    some (if slot < nproc then
      { s.goto p (.wakeup1 lk (slot + 1)) with state := s.rouse chan slot }
    else s.goto p (.wakeupRelease lk))
  | .wakeupRelease lk => some (s.releasePtable p (if lk then .wakeupEnd else .idle))
  | .wakeupEnd => some (s.releaseLk p .idle)

def exec (cond : V → Bool) (chan : Nat) (s : SleepSys nproc V) :
    SleepEvent nproc V → Option (SleepSys nproc V)
  | .wait p => if s.pc p = .idle then some (s.goto p .waitAcquire) else none
  | .post p => if s.pc p = .idle then some (s.goto p .setAcquire) else none
  | .step p v early => s.step cond chan p v early
  -- the scheduler takes `ptable.lock` and hands it to the process it switches to
  | .schedule p =>
    if s.pc p = .switched ∧ s.state p = .runnable ∧ s.ptable = none then
      some { s.goto p .sleepTidy with
        state := Function.update s.state p .running, ptable := some p }
    else none

end SleepSys

def SleepStep {nproc : Nat} {V : Type} (cond : V → Bool) (chan : Nat) (s : SleepSys nproc V)
    (e : SleepEvent nproc V) (s' : SleepSys nproc V) : Prop :=
  s.exec cond chan e = some s'

end Xv6
