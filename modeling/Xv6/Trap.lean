import Xv6.Proc

/-!
# Traps

`trap.c`, for the vectors that are neither system calls nor device interrupts. The frames on a
process's kernel stack are listed newest first. `proc->tf` is the oldest of them: it is the frame at
the top of the kernel stack, which every entry from user mode fills in, and only the system-call
path assigns it.
-/

namespace Xv6

def tPgflt : Nat := 14

def tSyscall : Nat := 64

def dplUser : Nat := 3

structure TrapFrame where
  trapno : Nat
  err : Word
  cs : Nat

/-- Whether the processor pushes an error code; for every other vector `vectors.pl` pushes 0. -/
def hasErrorCode (trapno : Nat) : Bool :=
  trapno = 8 ∨ (10 ≤ trapno ∧ trapno ≤ 14) ∨ trapno = 17

def TrapFrame.push (trapno : Nat) (err : Word) (cs : Nat) : TrapFrame :=
  { trapno := trapno, err := if hasErrorCode trapno then err else 0, cs := cs }

inductive TrapResult
  | returned
  | exited
  deriving DecidableEq

/-- The `default` case: a trap from the kernel is fatal, a trap from user mode kills the process. -/
def unexpectedTrap (cur : Fin nproc) (tf : TrapFrame) : Kernel Machine Unit :=
  if tf.cs % 4 = 0 then Kernel.panic "trap"
  else modifyProc cur fun q => { q with killed := true }

inductive FaultAction
  | cow
  | outside
  | unexpected
  deriving DecidableEq

/-- How `trap` dispatches a page fault. It reads the error code through `proc->tf`. -/
def faultAction (procTf : TrapFrame) (sz cr2 : Nat) : FaultAction :=
  if procTf.err &&& pteW ≠ 0 then
    if cr2 ≤ sz then .cow else .outside
  else .unexpected

def pageFault (cur : Fin nproc) (tf procTf : TrapFrame) (cr2 : Nat) : Kernel Machine Unit := do
  let s ← Kernel.get
  match faultAction procTf (s.proc cur).sz cr2 with
  | .cow => trapCOW cur cr2
  | .outside => Kernel.panic "trap.c--->trap()   Acceso a memoria fuera del proceso...\n"
  | .unexpected => unexpectedTrap cur tf

/-- `*proc->tf`. -/
def procTf (tf : TrapFrame) (older : List TrapFrame) : TrapFrame := older.getLast?.getD tf

/-- `trap(tf)` with the older frames `older` below it on the kernel stack. -/
def trap (cur : Fin nproc) (tf : TrapFrame) (older : List TrapFrame) (cr2 : Nat) :
    Kernel Machine TrapResult := do
  if tf.trapno = tPgflt then pageFault cur tf (procTf tf older) cr2
  else unexpectedTrap cur tf
  let s ← Kernel.get
  if (s.proc cur).killed ∧ tf.cs % 4 = dplUser then do
    exit cur
    pure .exited
  else pure .returned

/-- A page fault taken while `cur` runs: in user mode, or in the kernel during a system call. -/
structure PageFault where
  user : Bool
  write : Bool
  /-- The page was present: bit 0 of the error code. -/
  protection : Bool
  addr : Nat

def segUcode : Nat := 4

def segKcode : Nat := 1

def PageFault.err (f : PageFault) : Word :=
  (if f.protection then 1 else 0) ||| (if f.write then 2 else 0) ||| (if f.user then 4 else 0)

def PageFault.frame (f : PageFault) : TrapFrame :=
  TrapFrame.push tPgflt f.err (if f.user then segUcode * 8 + dplUser else segKcode * 8)

/-- The frames below: none in user mode, the frame of the system call in the kernel. The processor
pushes no error code for it. -/
def PageFault.older (f : PageFault) (junk : Word) : List TrapFrame :=
  if f.user then [] else [TrapFrame.push tSyscall junk (segUcode * 8 + dplUser)]

def PageFault.service (cur : Fin nproc) (f : PageFault) (junk : Word) :
    Kernel Machine TrapResult :=
  trap cur f.frame (f.older junk) f.addr

end Xv6
