import Xv6.Fs

/-!
# Starting the file system

`initlog` on a disk of which nothing has been read: it finds the log, installs what a crash has left
in it and clears it.
-/

namespace Xv6

namespace Fs

/-- No buffer is in use and the inode cache is empty. -/
def mounted (img : Nat → Block) : Fs where
  content := img
  held := []
  dirty := []
  log := { start := 0, size := 0, busy := false, sectors := [] }
  icache _ := { inum := 0, ref := 0, busy := false, valid := false, d := Dinode.zero }

def readHead : Kernel Fs Unit := do
  let s ← Kernel.get
  let data ← bread s.log.start
  setLog { s.log with sectors := (List.range (headerN data).toNat).map (headerSector data) }
  brelse s.log.start

def recoverFromLog : Kernel Fs Unit := do
  readHead
  let s ← Kernel.get
  installTrans 0 s.log.sectors
  setLog { s.log with sectors := [] }
  writeHead

def initlog : Kernel Fs Unit := do
  let sb ← readsb
  let s ← Kernel.get
  setLog { s.log with start := sb.size - sb.nlog, size := sb.nlog }
  recoverFromLog

end Fs

end Xv6
