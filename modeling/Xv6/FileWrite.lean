import Xv6.Fs
import Xv6.Lib.Run

/-!
# Writing through a shared file

`filewrite` of `file.c`, for any number of processes that write through one `struct file` of an
inode. A call is cut into pieces, and each piece is one transaction: `begin_trans` lets one process
in at a time and the offset is only used inside, so the steps of the system are whole rounds of the
loop. A kernel that panics takes no step.
-/

namespace Xv6

namespace FileWrite

open Fs

def maxWrite : Nat := (logSize - 1 - 1 - 2) / 2 * 512

structure Call where
  data : List UInt8
  i : Nat

def Call.piece (c : Call) : List UInt8 := (c.data.drop c.i).take maxWrite

structure State where
  fs : Fs
  /-- `f->off`. -/
  off : Nat
  /-- The call each process is in. -/
  calls : Nat → Option Call
  /-- The pieces written so far, with the process that wrote each. -/
  pieces : List (Nat × List UInt8)
  /-- The calls that have returned: process, data and result. -/
  returned : List (Nat × List UInt8 × Int)

def writePiece (ip : Fin ninode) (src : List UInt8) (off : Nat) : Kernel Fs (Option Nat) := do
  Fs.beginTrans
  ilock ip
  let r ← writei ip src off
  iunlock ip
  Fs.commitTrans
  pure r

inductive Act where
  | call (p : Nat) (data : List UInt8)
  | round (p : Nat)

namespace State

def finish (s : State) (p : Nat) (data : List UInt8) (r : Int) : State :=
  { s with calls := Function.update s.calls p none, returned := s.returned ++ [(p, data, r)] }

def advance (s : State) (p : Nat) (c : Call) (fs : Fs) : State :=
  { s with
    fs := fs
    off := s.off + c.piece.length
    calls := Function.update s.calls p (some { c with i := c.i + c.piece.length })
    pieces := s.pieces ++ [(p, c.piece)] }

def exec (ip : Fin ninode) (s : State) : Act → Option State
  | .call p data =>
    match s.calls p with
    | none => some { s with calls := Function.update s.calls p (some { data := data, i := 0 }) }
    | some _ => none
  | .round p =>
    match s.calls p with
    | none => none
    | some c =>
      if c.i < c.data.length then
        match (writePiece ip c.piece s.off).run s.fs with
        | .error _ => none
        | .ok (none, fs) => some ({ s with fs := fs }.finish p c.data (-1))
        -- a short write panics
        | .ok (some r, fs) => if r = c.piece.length then some (s.advance p c fs) else none
      else some (s.finish p c.data c.data.length)

def text (s : State) : List UInt8 := (s.pieces.map Prod.snd).flatten

def textOf (s : State) (p : Nat) : List UInt8 :=
  ((s.pieces.filter fun q => q.1 = p).map Prod.snd).flatten

def doneBy (s : State) (p : Nat) : List UInt8 :=
  ((s.returned.filter fun q => q.1 = p).map fun q => q.2.1).flatten

def doing (s : State) (p : Nat) : List UInt8 :=
  match s.calls p with
  | none => []
  | some c => c.data.take c.i

end State

end FileWrite

/-- The block that holds block `bn` of an inode, 0 if there is none. -/
def Fs.blockOf (s : Fs) (d : Dinode) (bn : Nat) : Nat :=
  if h : bn < ndirect then (d.addrs ⟨bn, by omega⟩).toNat
  else getLE (s.content (d.addrs (Fin.last ndirect)).toNat) (4 * (bn - ndirect)) 4

def Fs.fileByte (s : Fs) (ip : Fin ninode) (x : Nat) : UInt8 :=
  s.content (s.blockOf (s.icache ip).d (x / bsize)) (x % bsize)

end Xv6
