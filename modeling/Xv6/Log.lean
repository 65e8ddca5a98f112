import Xv6.Bio

/-!
# The redo log

`log.c`: a transaction's blocks are appended to the log area as they are written, the header block
commits them, `install_trans` copies them home and a second header write erases the log. Recovery
replays a committed log.
-/

namespace Xv6

def logSize : Nat := 10

def asInt (w : Nat) : Int := if w < 2 ^ 31 then w else (w : Int) - 2 ^ 32

def asWord (v : Int) : Nat := (v % 2 ^ 32).toNat

/-- `hb->n = n; for (i = 0; i < n; i++) hb->sector[i] = sector[i]` on a header block. -/
def LogHeader.store (lh : LogHeader) (data : Block) : Block :=
  (List.range lh.n.toNat).foldl (fun b i => putLE b (4 + 4 * i) 4 (lh.sector i))
    (putLE data 0 4 (asWord lh.n))

def headerN (data : Block) : Int := asInt (getLE data 0 4)

def headerSector (data : Block) (i : Nat) : Nat := getLE data (4 + 4 * i) 4

def installTrans : Kernel Store Unit := do
  let s ← Kernel.get
  Kernel.forEach (List.range s.log.lh.n.toNat) fun tail => do
    let s ← Kernel.get
    let lbuf ← bread s.log.dev (s.log.start + tail + 1)
    let dbuf ← bread s.log.dev (s.log.lh.sector tail)
    let s ← Kernel.get
    setData dbuf (s.buf lbuf).data
    bwrite dbuf
    brelse lbuf
    brelse dbuf

def readHead : Kernel Store Unit := do
  let s ← Kernel.get
  let i ← bread s.log.dev s.log.start
  Kernel.modify fun s =>
    let data := (s.buf i).data
    let n := headerN data
    s.setLog { s.log with
      lh := { n := n
              sector := fun k =>
                if k < n.toNat then headerSector data k else s.log.lh.sector k } }
  brelse i

def writeHead : Kernel Store Unit := do
  let s ← Kernel.get
  let i ← bread s.log.dev s.log.start
  let s ← Kernel.get
  setData i (s.log.lh.store (s.buf i).data)
  bwrite i
  brelse i

def clearLog : Kernel Store Unit :=
  Kernel.modify fun s => s.setLog { s.log with lh := { s.log.lh with n := 0 } }

def recoverFromLog : Kernel Store Unit := do
  readHead
  installTrans
  clearLog
  writeHead

/-- Alone on the machine a process that finds a transaction active waits for itself. -/
def beginTrans : Kernel Store Unit := do
  let s ← Kernel.get
  if s.log.busy then Kernel.panic "begin_trans: sleep"
  else Kernel.modify fun s => s.setLog { s.log with busy := true }

def commitTrans : Kernel Store Unit := do
  let s ← Kernel.get
  if 0 < s.log.lh.n then do
    writeHead
    installTrans
    clearLog
    writeHead
  Kernel.modify fun s => s.setLog { s.log with busy := false }

/-- The first log slot that already holds `sector`, else the next free one. -/
def LogHeader.slot (lh : LogHeader) (sector : Nat) : Nat :=
  ((List.range lh.n.toNat).find? fun i => lh.sector i = sector).getD lh.n.toNat

def logWrite (b : Fin nbuf) : Kernel Store Unit := do
  let s ← Kernel.get
  if (logSize : Int) ≤ s.log.lh.n ∨ (s.log.size : Int) - 1 ≤ s.log.lh.n then
    Kernel.panic "too big a transaction"
  else if !s.log.busy then Kernel.panic "write outside of trans"
  else do
    let i := s.log.lh.slot (s.buf b).sector
    Kernel.modify fun s => s.setLog { s.log with
      lh := { s.log.lh with sector := Function.update s.log.lh.sector i (s.buf b).sector } }
    let lbuf ← bread (s.buf b).dev (s.log.start + i + 1)
    let s ← Kernel.get
    setData lbuf (s.buf b).data
    bwrite lbuf
    brelse lbuf
    Kernel.modify fun s =>
      if (i : Int) = s.log.lh.n then
        s.setLog { s.log with lh := { s.log.lh with n := s.log.lh.n + 1 } }
      else s
    Kernel.modify fun s => s.setBuf b { s.buf b with dirty := true }

/-- One write of a transaction, in the way `log_write`'s comment says to use it. -/
structure BlockWrite where
  sector : Nat
  data : Block
  bound : sector < 2 ^ 32

def BlockWrite.perform (w : BlockWrite) : Kernel Store Unit := do
  let s ← Kernel.get
  let b ← bread s.log.dev w.sector
  setData b w.data
  logWrite b
  brelse b

def transaction (ws : List BlockWrite) : Kernel Store Unit := do
  beginTrans
  Kernel.forEach ws BlockWrite.perform
  commitTrans

/-- The kernel just booted on a disk: nothing cached, no transaction, the log where `initlog` puts
it. -/
def Store.boot (start size dev : Nat) (disk : Disk) : Store :=
  { buf := fun _ => Buf.initial
    mru := binit
    disk := disk
    issued := []
    log := { start := start, size := size, busy := false, dev := dev,
             lh := { n := 0, sector := fun _ => 0 } } }

end Xv6
