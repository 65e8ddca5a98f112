import Xv6.Machine
import Xv6.Lib.Run

/-!
# The process table protocol

`fork`, `exit`, `wait`, `kill` and the scheduler as steps on a table of process slots. A section
under `ptable.lock` is one step; `fork` is a sequence of steps, since it sets up the child without
the lock. Every process that gets a slot carries a number of its own, and the exits and the results
of `wait` are recorded beside the table.
-/

namespace Xv6

variable {n : Nat}

/-- What a process sleeps on: a process, as in `wait`, or some other address. -/
inductive Chan (n : Nat)
  | proc (p : Fin n)
  | other (addr : Nat)
  deriving DecidableEq

/-- Where a process is: outside the calls below, in `fork` with the child it has allocated (before
and after `np->parent = proc`), or in the sleep of `wait`. -/
inductive TaskPc (n : Nat)
  | user
  | forking (np : Fin n)
  | forked (np : Fin n)
  | waiting
  deriving DecidableEq

/-- `creator` is the number of the process whose `fork` made this one. -/
structure Task (n : Nat) where
  state : ProcState
  pid : Word
  parent : Option (Fin n)
  chan : Option (Chan n)
  killed : Bool
  pc : TaskPc n
  number : Nat
  creator : Nat

structure ExitRecord where
  number : Nat
  pid : Word
  creator : Nat

/-- A `wait` of the process in slot `waiter` that returned `pid`, of the child `number`. -/
structure WaitRecord (n : Nat) where
  waiter : Fin n
  waiterNumber : Nat
  number : Nat
  pid : Word

structure Ptable (n : Nat) where
  proc : Fin n → Task n
  nextpid : Word
  nextNumber : Nat
  exited : List ExitRecord
  returned : List (WaitRecord n)

namespace Ptable

/-- After `userinit`: `initproc` is runnable, every other slot is free. -/
def init (initproc : Fin n) : Ptable n where
  proc p :=
    { state := if p = initproc then .runnable else .unused
      pid := if p = initproc then 1 else 0
      parent := none, chan := none, killed := false, pc := .user, number := 0, creator := 0 }
  nextpid := 2
  nextNumber := 1
  exited := []
  returned := []

variable (s : Ptable n)

def modify (p : Fin n) (f : Task n → Task n) : Ptable n :=
  { s with proc := Function.update s.proc p (f (s.proc p)) }

/-- `wakeup1` on one slot. -/
def wake (c : Chan n) (t : Task n) : Task n :=
  if t.state = .sleeping ∧ t.chan = some c then { t with state := .runnable } else t

def wakeup1 (c : Chan n) : Ptable n := { s with proc := fun p => wake c (s.proc p) }

/-- The first part of `allocproc`, for the `fork` of `p`. -/
def allocproc (p : Fin n) : Ptable n :=
  match (List.finRange n).find? fun q => decide ((s.proc q).state = .unused) with
  | none => s
  | some np =>
    let s1 := s.modify np fun t =>
      { t with state := .embryo, pid := s.nextpid, number := s.nextNumber }
    { s1.modify p fun t => { t with pc := .forking np } with
      nextpid := s.nextpid + 1, nextNumber := s.nextNumber + 1 }

/-- `fork` gives up: no page for the kernel stack, or `copyuvm` failed. -/
def forkFail (p np : Fin n) : Ptable n :=
  (s.modify np fun t => { t with state := .unused }).modify p fun t => { t with pc := .user }

def setParent (p np : Fin n) : Ptable n :=
  (s.modify np fun t => { t with parent := some p, creator := (s.proc p).number }).modify p
    fun t => { t with pc := .forked np }

/-- `np->state = RUNNABLE`, the end of `fork`. -/
def forkEnd (p np : Fin n) : Ptable n :=
  (s.modify np fun t => { t with state := .runnable }).modify p fun t => { t with pc := .user }

/-- The body of the loop of `exit` that passes abandoned children to init. -/
def adopt (initproc p : Fin n) (s : Ptable n) (q : Fin n) : Ptable n :=
  if (s.proc q).parent = some p then
    let s1 := s.modify q fun t => { t with parent := some initproc }
    if (s1.proc q).state = .zombie then s1.wakeup1 (.proc initproc) else s1
  else s

def wakeParent (p : Fin n) : Ptable n :=
  match (s.proc p).parent with
  | none => s
  | some q => s.wakeup1 (.proc q)

def exit (initproc p : Fin n) : Ptable n :=
  let s1 := (List.finRange n).foldl (adopt initproc p) (s.wakeParent p)
  let t := s1.proc p
  { s1.modify p fun t => { t with state := .zombie } with
    exited := s1.exited ++ [⟨t.number, t.pid, t.creator⟩] }

inductive WaitScan (n : Nat)
  | reap (q : Fin n)
  | fail
  | sleep

def waitScan (p : Fin n) : List (Fin n) → Bool → WaitScan n
  | [], havekids => if !havekids || (s.proc p).killed then .fail else .sleep
  | q :: slots, havekids =>
    if (s.proc q).parent = some p then
      if (s.proc q).state = .zombie then .reap q else waitScan p slots true
    else waitScan p slots havekids

/-- `wait` takes a zombie out of the table and returns its pid. -/
def reap (p q : Fin n) : Ptable n :=
  let s1 := s.modify q fun t =>
    { t with state := .unused, pid := 0, parent := none, killed := false }
  { s1.modify p fun t => { t with pc := .user } with
    returned := s1.returned ++ [⟨p, (s.proc p).number, (s.proc q).number, (s.proc q).pid⟩] }

def wait (p : Fin n) : Ptable n :=
  match s.waitScan p (List.finRange n) false with
  | .reap q => s.reap p q
  | .fail => s.modify p fun t => { t with pc := .user }
  | .sleep =>
    s.modify p fun t => { t with state := .sleeping, chan := some (.proc p), pc := .waiting }

def kill (pid : Word) : Ptable n :=
  match (List.finRange n).find? fun q => decide ((s.proc q).pid = pid) with
  | none => s
  | some q =>
    s.modify q fun t =>
      { t with killed := true, state := if t.state = .sleeping then .runnable else t.state }

/-- What `kill` returns. -/
def killReturn (pid : Word) : Int :=
  match (List.finRange n).find? fun q => decide ((s.proc q).pid = pid) with
  | none => -1
  | some _ => 0

/-- The scheduler switches to the process, which leaves `sleep`. -/
def switchTo (p : Fin n) : Ptable n :=
  s.modify p fun t => { t with state := .running, chan := none }

/-- The process goes on with `ptable.lock` held: in `wait` it scans again before it releases the
lock. -/
def resume (p : Fin n) : Ptable n :=
  if (s.proc p).pc = .waiting then (s.switchTo p).wait p else s.switchTo p

end Ptable

inductive PtableEvent (n : Nat)
  | fork (p : Fin n)
  | forkFail (p : Fin n)
  | forkParent (p : Fin n)
  | forkEnd (p : Fin n)
  | exit (p : Fin n)
  | wait (p : Fin n)
  | kill (pid : Word)
  | schedule (p : Fin n)
  | yield (p : Fin n)
  | sleep (p : Fin n) (addr : Nat)
  | wakeup (addr : Nat)

/-- A process takes its steps while it is `RUNNING`. `exit` of `initproc` panics. -/
def Ptable.exec (initproc : Fin n) (s : Ptable n) : PtableEvent n → Option (Ptable n)
  | .fork p =>
    if (s.proc p).state = .running ∧ (s.proc p).pc = .user then some (s.allocproc p) else none
  | .forkFail p =>
    match (s.proc p).state, (s.proc p).pc with
    | .running, .forking np => some (s.forkFail p np)
    | _, _ => none
  | .forkParent p =>
    match (s.proc p).state, (s.proc p).pc with
    | .running, .forking np => some (s.setParent p np)
    | _, _ => none
  | .forkEnd p =>
    match (s.proc p).state, (s.proc p).pc with
    | .running, .forked np => some (s.forkEnd p np)
    | _, _ => none
  | .exit p =>
    if (s.proc p).state = .running ∧ (s.proc p).pc = .user ∧ p ≠ initproc then
      some (s.exit initproc p)
    else none
  | .wait p =>
    if (s.proc p).state = .running ∧ (s.proc p).pc = .user then some (s.wait p) else none
  | .kill pid => some (s.kill pid)
  | .schedule p => if (s.proc p).state = .runnable then some (s.resume p) else none
  | .yield p =>
    if (s.proc p).state = .running then some (s.modify p fun t => { t with state := .runnable })
    else none
  | .sleep p addr =>
    if (s.proc p).state = .running then
      some (s.modify p fun t => { t with state := .sleeping, chan := some (.other addr) })
    else none
  | .wakeup addr => some (s.wakeup1 (.other addr))

def PtableStep (initproc : Fin n) (s : Ptable n) (e : PtableEvent n) (s' : Ptable n) : Prop :=
  s.exec initproc e = some s'

end Xv6
