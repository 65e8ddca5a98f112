import Xv6.Bio
import Xv6.Lib.Chain
import Xv6.Lib.Run

/-!
# The two disk drivers

`memide.c` copies a sector at once. `ide.c` queues the buffers on `idequeue`, starts the drive for
the one at the head and lets the callers sleep until the interrupt handler has finished theirs. A
section under `idelock` is one step. Every process has one buffer, on which it calls `iderw`.
-/

namespace Xv6

variable {n : Nat}

structure Memide (n : Nat) where
  memdisk : Nat → Block
  disksize : Nat
  buf : Fin n → Buf

namespace Memide

def iderw (b : Fin n) : Kernel (Memide n) Unit := do
  let s ← Kernel.get
  if !(s.buf b).busy then Kernel.panic "iderw: buf not busy"
  else if (s.buf b).valid && !(s.buf b).dirty then Kernel.panic "iderw: nothing to do"
  else if (s.buf b).dev ≠ 1 then Kernel.panic "iderw: request not for disk 1"
  else if s.disksize ≤ (s.buf b).sector then Kernel.panic "iderw: sector out of range"
  else if (s.buf b).dirty then
    Kernel.modify fun s =>
      { s with
        memdisk := Function.update s.memdisk (s.buf b).sector (s.buf b).data
        buf := Function.update s.buf b { s.buf b with dirty := false, valid := true } }
  else
    Kernel.modify fun s =>
      { s with
        buf := Function.update s.buf b
          { s.buf b with data := s.memdisk (s.buf b).sector, valid := true } }

end Memide

/-- What `idestart` has written to the registers of the controller: the drive, the sector, and for
a write the data. -/
structure IdeCmd where
  dev : Nat
  sector : Nat
  data : Option Block

/-- A process before its call of `iderw`, asleep on its buffer, awake again and about to look at
the flags, or past the call. -/
inductive IdePc
  | start
  | sleeping
  | woken
  | returned
  deriving DecidableEq

structure Ide (n : Nat) where
  buf : Fin n → Buf
  /-- The field `qnext` of each buffer. -/
  qnext : Fin n → Option (Fin n)
  idequeue : Option (Fin n)
  havedisk1 : Bool
  pc : Fin n → IdePc
  -- the controller: the command it works on, its data port, and its interrupt
  disk : Disk
  cmd : Option IdeCmd
  port : Block
  irq : Bool
  -- the buffers in the order they were queued and finished, and the head of the queue at every
  -- call of `idestart`
  queued : List (Fin n)
  served : List (Fin n)
  started : List (Fin n × Option (Fin n))

namespace Ide

/-- The sector the registers `0x1f3` to `0x1f6` address. -/
def lba (sector : Nat) : Nat :=
  sector % 256 + sector / 2 ^ 8 % 256 * 2 ^ 8 + sector / 2 ^ 16 % 256 * 2 ^ 16 +
    sector / 2 ^ 24 % 16 * 2 ^ 24

/-- The drive is ready when it has no command to work on. -/
def idewait : Kernel (Ide n) Unit := do
  let s ← Kernel.get
  if s.cmd.isSome then Kernel.panic "idewait" else pure ()

def cmdOf (b : Buf) : IdeCmd :=
  { dev := b.dev % 2, sector := lba b.sector, data := if b.dirty then some b.data else none }

def idestart : Option (Fin n) → Kernel (Ide n) Unit
  | none => Kernel.panic "idestart"
  | some b => do
    idewait
    Kernel.modify fun s =>
      { s with cmd := some (cmdOf (s.buf b)), started := s.started ++ [(b, s.idequeue)] }

def append (b : Fin n) : Kernel (Ide n) Unit := do
  Kernel.modify fun s => { s with qnext := Function.update s.qnext b none }
  let s ← Kernel.get
  match s.idequeue with
  | none => Kernel.modify fun s => { s with idequeue := some b, queued := s.queued ++ [b] }
  | some head =>
    match chainEnd s.qnext n head with
    | none => Kernel.panic "insert-queue"
    | some last =>
      Kernel.modify fun s =>
        { s with qnext := Function.update s.qnext last (some b), queued := s.queued ++ [b] }

/-- A turn of the loop of `iderw` that waits for the request to finish. -/
def waitRequest (b : Fin n) : Kernel (Ide n) Unit :=
  Kernel.modify fun s =>
    { s with
      pc := Function.update s.pc b
        (if (s.buf b).valid && !(s.buf b).dirty then .returned else .sleeping) }

def iderw (b : Fin n) : Kernel (Ide n) Unit := do
  let s ← Kernel.get
  if !(s.buf b).busy then Kernel.panic "iderw: buf not busy"
  else if (s.buf b).valid && !(s.buf b).dirty then Kernel.panic "iderw: nothing to do"
  else if (s.buf b).dev ≠ 0 ∧ !s.havedisk1 then Kernel.panic "iderw: ide disk 1 not present"
  else do
    append b
    let s ← Kernel.get
    if s.idequeue = some b then idestart (some b)
    waitRequest b

/-- `wakeup(b)`: the process that sleeps on the buffer runs again. -/
def wakeup (b : Fin n) (pc : Fin n → IdePc) : Fin n → IdePc :=
  if pc b = .sleeping then Function.update pc b .woken else pc

/-- A buffer when its request is finished: the data of a read come from the data port. -/
def finish (port : Block) (b : Buf) : Buf :=
  { b with data := if b.dirty then b.data else port, valid := true, dirty := false }

def ideintr : Kernel (Ide n) Unit := do
  let s ← Kernel.get
  match s.idequeue with
  | none => pure ()
  | some b => do
    Kernel.modify fun s =>
      { s with
        idequeue := s.qnext b
        buf := Function.update s.buf b (finish s.port (s.buf b))
        pc := wakeup b s.pc
        served := s.served ++ [b] }
    let s ← Kernel.get
    if s.idequeue ≠ none then idestart s.idequeue

/-- The drive does what it was told and raises its interrupt. -/
def complete (cmd : IdeCmd) : Kernel (Ide n) Unit :=
  Kernel.modify fun s =>
    match cmd.data with
    | some data =>
      { s with disk := s.disk.write ⟨cmd.dev, cmd.sector, data⟩, cmd := none, irq := true }
    | none => { s with port := s.disk cmd.dev cmd.sector, cmd := none, irq := true }

end Ide

/-- `kill` wakes a sleeping process before its time. -/
inductive IdeEvent (n : Nat)
  | call (b : Fin n)
  | resume (b : Fin n)
  | kill (b : Fin n)
  | complete
  | interrupt

namespace Ide

/-- When an event can happen: the drive raises an interrupt only when it has finished its
command. -/
def Enabled (s : Ide n) : IdeEvent n → Prop
  | .call b => s.pc b = .start
  | .resume b => s.pc b = .woken
  | .kill b => s.pc b = .sleeping
  | .complete => s.cmd.isSome
  | .interrupt => s.irq = true

instance decidableEnabled (s : Ide n) (e : IdeEvent n) : Decidable (s.Enabled e) := by
  cases e <;> unfold Enabled <;> infer_instance

def exec : IdeEvent n → Kernel (Ide n) Unit
  | .call b => iderw b
  | .resume b => waitRequest b
  | .kill b => Kernel.modify fun s => { s with pc := Function.update s.pc b .woken }
  | .complete => do
    let s ← Kernel.get
    match s.cmd with
    | none => pure ()
    | some cmd => complete cmd
  | .interrupt => do
    Kernel.modify fun s => { s with irq := false }
    ideintr

end Ide

def IdeStep (s : Ide n) (e : IdeEvent n) (s' : Ide n) : Prop :=
  s.Enabled e ∧ (Ide.exec e).run s = .ok ((), s')

end Xv6
