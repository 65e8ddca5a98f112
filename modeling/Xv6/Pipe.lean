import Mathlib.Logic.Function.Basic
import Mathlib.Data.BitVec
import Xv6.Lib.Run

/-!
# Pipes

`pipewrite`, `piperead` and `pipeclose` for one pipe and any set of processes. A process runs one
byte of its loop in a step and holds `p->lock` from its `acquire` to its `sleep` or its return;
`sleep` gives up the lock and the processor in one step. The bytes stored, the results of the reads
and the bytes of each finished write are recorded beside the pipe.
-/

namespace Xv6

abbrev Byte := BitVec 8

def pipeSize : Nat := 512

structure Pipe where
  data : Nat → Byte
  nread : BitVec 32
  nwrite : BitVec 32
  readopen : Bool
  writeopen : Bool

/-- The pipe as `pipealloc` sets it up, in a page with any contents. -/
def Pipe.fresh (data : Nat → Byte) : Pipe :=
  { data := data, nread := 0, nwrite := 0, readopen := true, writeopen := true }

def Pipe.full (p : Pipe) : Bool := p.nwrite = p.nread + BitVec.ofNat 32 pipeSize

def Pipe.empty (p : Pipe) : Bool := p.nread = p.nwrite

def Pipe.put (p : Pipe) (b : Byte) : Pipe :=
  { p with data := Function.update p.data (p.nwrite.toNat % pipeSize) b, nwrite := p.nwrite + 1 }

/-- `p->data[p->nread % PIPESIZE]`. -/
def Pipe.next (p : Pipe) : Byte := p.data (p.nread.toNat % pipeSize)

def Pipe.advance (p : Pipe) : Pipe := { p with nread := p.nread + 1 }

/-- What a process sleeps on: `&p->nread` or `&p->nwrite`. -/
inductive PipeChan
  | nread
  | nwrite
  deriving DecidableEq

/-- Where a process is in a call: in the loop of `pipewrite` with `i` bytes done, in the waiting
loop of `piperead`, in its copying loop, or in `pipeclose`. -/
inductive PipeTask
  | write (addr : Nat → Byte) (n : Int) (i : Nat)
  | wait (n : Int)
  | copy (n : Int) (buf : List Byte)
  | close (writable : Bool)

inductive PipePc
  | idle
  | acquiring (t : PipeTask)
  | locked (t : PipeTask)
  | asleep (c : PipeChan) (t : PipeTask)

structure PipeSys (ι : Type) where
  pipe : Pipe
  lock : Option ι
  pc : ι → PipePc
  killed : ι → Bool
  /-- The bytes stored, oldest first, with the process that stored them. -/
  written : List (ι × Byte)
  /-- What the finished reads returned, oldest first. -/
  returned : List (List Byte)
  /-- The bytes each process stored in the writes it has finished. -/
  done : ι → List Byte

namespace PipeSys

variable {ι : Type} [DecidableEq ι]

def init (data : Nat → Byte) : PipeSys ι where
  pipe := .fresh data
  lock := none
  pc _ := .idle
  killed _ := false
  written := []
  returned := []
  done _ := []

def setPc (s : PipeSys ι) (p : ι) (pc : PipePc) : PipeSys ι :=
  { s with pc := Function.update s.pc p pc }

def unlock (s : PipeSys ι) (p : ι) (pc : PipePc) : PipeSys ι := { s.setPc p pc with lock := none }

/-- `wakeup1`: a sleeper on the channel goes on to reacquire the lock. -/
def wakePc (c : PipeChan) : PipePc → PipePc
  | .asleep c' t => if c' = c then .acquiring t else .asleep c' t
  | pc => pc

def wakeup (s : PipeSys ι) (c : PipeChan) : PipeSys ι := { s with pc := fun p => wakePc c (s.pc p) }

/-- The bytes that a process has stored in its write are put down as finished. -/
def finishWrite (s : PipeSys ι) (p : ι) (addr : Nat → Byte) (i : Nat) : PipeSys ι :=
  { s with done := Function.update s.done p (s.done p ++ (List.range i).map addr) }

def stepWrite (s : PipeSys ι) (p : ι) (addr : Nat → Byte) (n : Int) (i : Nat) : PipeSys ι :=
  if (i : Int) < n then
    if s.pipe.full then
      if !s.pipe.readopen || s.killed p then (s.finishWrite p addr i).unlock p .idle
      else (s.wakeup .nread).unlock p (.asleep .nwrite (.write addr n i))
    else
      { s.setPc p (.locked (.write addr n (i + 1))) with
        pipe := s.pipe.put (addr i), written := s.written ++ [(p, addr i)] }
  else ((s.finishWrite p addr i).wakeup .nread).unlock p .idle

def stepWait (s : PipeSys ι) (p : ι) (n : Int) : PipeSys ι :=
  if s.pipe.empty && s.pipe.writeopen then
    if s.killed p then s.unlock p .idle
    else s.unlock p (.asleep .nread (.wait n))
  else s.setPc p (.locked (.copy n []))

def stepCopy (s : PipeSys ι) (p : ι) (n : Int) (buf : List Byte) : PipeSys ι :=
  if (buf.length : Int) < n ∧ !s.pipe.empty then
    { s.setPc p (.locked (.copy n (buf ++ [s.pipe.next]))) with pipe := s.pipe.advance }
  else { (s.wakeup .nwrite).unlock p .idle with returned := s.returned ++ [buf] }

def stepClose (s : PipeSys ι) (p : ι) (writable : Bool) : PipeSys ι :=
  if writable then
    ({ s with pipe := { s.pipe with writeopen := false } }.wakeup .nread).unlock p .idle
  else ({ s with pipe := { s.pipe with readopen := false } }.wakeup .nwrite).unlock p .idle

def stepLocked (s : PipeSys ι) (p : ι) : PipeTask → PipeSys ι
  | .write addr n i => s.stepWrite p addr n i
  | .wait n => s.stepWait p n
  | .copy n buf => s.stepCopy p n buf
  | .close writable => s.stepClose p writable

/-- The value a call returns in this step, if it returns. -/
def result (s : PipeSys ι) (p : ι) : PipeTask → Option Int
  | .write _ n i =>
    if (i : Int) < n then
      if s.pipe.full && (!s.pipe.readopen || s.killed p) then some (-1) else none
    else some n
  | .wait _ =>
    if s.pipe.empty && s.pipe.writeopen && s.killed p then some (-1) else none
  | .copy n buf =>
    if (buf.length : Int) < n ∧ !s.pipe.empty then none else some buf.length
  | .close _ => some 0

end PipeSys

/-- A process calls `pipewrite`, `piperead` or `pipeclose`; takes the lock; does one step with the
lock; or is killed, which wakes it. -/
inductive PipeEvent (ι : Type)
  | callWrite (p : ι) (addr : Nat → Byte) (n : Int)
  | callRead (p : ι) (n : Int)
  | callClose (p : ι) (writable : Bool)
  | acquire (p : ι)
  | step (p : ι)
  | kill (p : ι)

/-- Wake a process that sleeps, on whatever channel. -/
def PipePc.roused : PipePc → PipePc
  | .asleep _ t => .acquiring t
  | pc => pc

def PipeSys.exec {ι : Type} [DecidableEq ι] (s : PipeSys ι) : PipeEvent ι → Option (PipeSys ι)
  | .callWrite p addr n =>
    match s.pc p with
    | .idle => some (s.setPc p (.acquiring (.write addr n 0)))
    | _ => none
  | .callRead p n =>
    match s.pc p with
    | .idle => some (s.setPc p (.acquiring (.wait n)))
    | _ => none
  | .callClose p writable =>
    match s.pc p with
    | .idle => some (s.setPc p (.acquiring (.close writable)))
    | _ => none
  | .acquire p =>
    match s.pc p, s.lock with
    | .acquiring t, none => some { s.setPc p (.locked t) with lock := some p }
    | _, _ => none
  | .step p =>
    match s.pc p with
    | .locked t => some (s.stepLocked p t)
    | _ => none
  | .kill p => some { s.setPc p (s.pc p).roused with killed := Function.update s.killed p true }

def PipeStep {ι : Type} [DecidableEq ι] (s : PipeSys ι) (e : PipeEvent ι) (s' : PipeSys ι) : Prop :=
  s.exec e = some s'

end Xv6
