import Mathlib.Logic.Function.Basic
import Xv6.Lib.Kernel
import Xv6.Lib.Bytes

/-!
# The buffer cache over a disk

`bio.c` keeps `NBUF` buffers on a list ordered by use. The model keeps the buffers in their array
and the list as the order in which `next` pointers visit them. The disk records the sector writes it
was asked for, in issue order: a crash loses everything but some prefix of them.
-/

namespace Xv6

def nbuf : Nat := 10

/-- `struct buf`; the three flags are `B_BUSY`, `B_VALID` and `B_DIRTY`. -/
structure Buf where
  busy : Bool
  valid : Bool
  dirty : Bool
  dev : Nat
  sector : Nat
  data : Block

abbrev Disk := Nat → Nat → Block

structure SectorWrite where
  dev : Nat
  sector : Nat
  data : Block

def Disk.write (disk : Disk) (w : SectorWrite) : Disk := fun dev sector =>
  if dev = w.dev ∧ sector = w.sector then w.data else disk dev sector

def Disk.writes (disk : Disk) (ws : List SectorWrite) : Disk := ws.foldl Disk.write disk

/-- `struct logheader`: the sectors of the transaction's blocks, in log order. -/
structure LogHeader where
  n : Int
  sector : Nat → Nat

structure Log where
  start : Nat
  size : Nat
  busy : Bool
  dev : Nat
  lh : LogHeader

structure Store where
  buf : Fin nbuf → Buf
  /-- The list headed by `bcache.head`, most recently used first. -/
  mru : List (Fin nbuf)
  disk : Disk
  /-- Sector writes issued so far, oldest first. -/
  issued : List SectorWrite
  log : Log

def Store.setBuf (s : Store) (i : Fin nbuf) (b : Buf) : Store :=
  { s with buf := Function.update s.buf i b }

def Store.setLog (s : Store) (log : Log) : Store := { s with log := log }

/-- The buffers as `binit` links them: each is inserted in front of the ones before it. -/
def binit : List (Fin nbuf) := (List.finRange nbuf).reverse

/-- A buffer `binit` has set up: `dev` is `-1`, no flag is set. -/
def Buf.initial : Buf :=
  { busy := false, valid := false, dirty := false, dev := 2 ^ 32 - 1, sector := 0,
    data := fun _ => 0 }

/-- Sync a buffer with the disk: write it if it is dirty, else read it. -/
def iderw (i : Fin nbuf) : Kernel Store Unit := do
  let s ← Kernel.get
  let b := s.buf i
  if !b.busy then Kernel.panic "iderw: buf not busy"
  else if b.valid && !b.dirty then Kernel.panic "iderw: nothing to do"
  else if b.dirty then
    let w : SectorWrite := { dev := b.dev, sector := b.sector, data := b.data }
    Kernel.modify fun s =>
      { s.setBuf i { b with dirty := false, valid := true } with
        disk := s.disk.write w, issued := s.issued ++ [w] }
  else
    Kernel.modify fun s => s.setBuf i { b with data := s.disk b.dev b.sector, valid := true }

/-- Find the buffer of a sector, or recycle the least recently used clean one. Alone on the machine
a process that finds the buffer busy waits for itself. -/
def bget (dev sector : Nat) : Kernel Store (Fin nbuf) := do
  let s ← Kernel.get
  match s.mru.find? fun i => (s.buf i).dev = dev ∧ (s.buf i).sector = sector with
  | some i =>
    if (s.buf i).busy then Kernel.panic "bget: sleep"
    else do
      Kernel.modify fun s => s.setBuf i { s.buf i with busy := true }
      pure i
  | none =>
    match s.mru.reverse.find? fun i => !(s.buf i).busy && !(s.buf i).dirty with
    | some i => do
      Kernel.modify fun s => s.setBuf i
        { s.buf i with dev := dev, sector := sector, busy := true, valid := false,
                       dirty := false }
      pure i
    | none => Kernel.panic "bget: no buffers"

def bread (dev sector : Nat) : Kernel Store (Fin nbuf) := do
  let i ← bget dev sector
  let s ← Kernel.get
  if !(s.buf i).valid then iderw i
  pure i

def bwrite (i : Fin nbuf) : Kernel Store Unit := do
  let s ← Kernel.get
  if !(s.buf i).busy then Kernel.panic "bwrite"
  else do
    Kernel.modify fun s => s.setBuf i { s.buf i with dirty := true }
    iderw i

def brelse (i : Fin nbuf) : Kernel Store Unit := do
  let s ← Kernel.get
  if !(s.buf i).busy then Kernel.panic "brelse"
  else
    Kernel.modify fun s =>
      { s.setBuf i { s.buf i with busy := false } with mru := i :: s.mru.erase i }

def setData (i : Fin nbuf) (data : Block) : Kernel Store Unit :=
  Kernel.modify fun s => s.setBuf i { s.buf i with data := data }

end Xv6
