import Xv6.Lib.LockProg

/-!
# The locks of the file-system calls

`fs.c`, `log.c`, `file.c` and `sysfile.c`, reduced to the locks they take: the transaction
(`log.busy`), inodes (`I_BUSY`) and buffers (`B_BUSY`, by block number). Where the code branches on
what it finds in memory or on disk, the model reads a value; the kind of the value says what the
code reads there. The inodes are those of files and directories.
-/

namespace Xv6

inductive FsLock
  | log
  | inode (inum : Nat)
  | buf (block : Nat)
  deriving DecidableEq

inductive FsRead
  /-- A test, a loop count or an offset. -/
  | value
  /-- The inode number of the working directory or of an open file. -/
  | inum
  /-- The inode number in an entry of directory `dp`; `dots` if the name may be "." or "..". -/
  | entry (dp : Nat) (dots : Bool)
  /-- Whether the on-disk inode is free, for `ialloc`. -/
  | freeInode (inum : Nat)
  /-- A block number in an inode or in an indirect block. -/
  | block
  /-- Whether such a block number is 0. -/
  | hole
  /-- The block number of a clear bit in the bitmap. -/
  | freeBlock
  /-- Whether `iput` drops the last reference to an inode without links. -/
  | lastRef
  /-- `log.lh.n`, at the start of `log_write`. -/
  | logCount
  /-- The home sector of a logged block. -/
  | homeSector
  deriving DecidableEq

abbrev FsProg := LockProg FsLock FsRead

/-- The layout of a file system: inodes, bitmap and data blocks lie below the log. -/
structure SuperBlock where
  size : Nat
  ninodes : Nat
  nlog : Nat
  fits : ninodes / 8 + 3 + (size / 4096 + 1) ≤ size - nlog

namespace SuperBlock

def iblock (inum : Nat) : Nat := inum / 8 + 2

def bblock (sb : SuperBlock) (b : Nat) : Nat := b / 4096 + sb.ninodes / 8 + 3

def dataStart (sb : SuperBlock) : Nat := sb.ninodes / 8 + 3 + (sb.size / 4096 + 1)

def logStart (sb : SuperBlock) : Nat := sb.size - sb.nlog

end SuperBlock

namespace FsLocks

open LockProg SuperBlock

def ndirect : Nat := 12

def nindirect : Nat := 128

def logBlocks : Nat := 10

def nofiles : Nat := 16

def read (q : FsRead) : FsProg Nat := LockProg.read q .ret

def test (q : FsRead) : FsProg Bool := LockProg.read q fun v => .ret (v ≠ 0)

def bread (b : Nat) : FsProg Unit := LockProg.acquire (.buf b) (.ret ())

def brelse (b : Nat) : FsProg Unit := LockProg.release (.buf b) (.ret ())

variable (sb : SuperBlock)

def beginTrans : FsProg Unit := LockProg.acquire .log (.ret ())

def writeHead : FsProg Unit := do
  bread sb.logStart
  brelse sb.logStart

def installTrans (n : Nat) : FsProg Unit :=
  repeatN (fun tail => do
    bread (sb.logStart + tail + 1)
    let dst ← read .homeSector
    bread dst
    brelse (sb.logStart + tail + 1)
    brelse dst) 0 n

def commitTrans : FsProg Unit := do
  let n ← read .value
  if 0 < n then do
    writeHead sb
    installTrans sb n
    writeHead sb
  LockProg.release .log (.ret ())

/-- The log slot is at most `log.lh.n`, which the first test has compared with the size of the log.
-/
def logWrite : FsProg Unit := do
  let n ← read .logCount
  if logBlocks ≤ n ∨ sb.nlog - 1 ≤ n then .halt "too big a transaction"
  else if ← LockProg.probe .log .ret then do
    let i ← read .value
    bread (sb.logStart + min i n + 1)
    brelse (sb.logStart + min i n + 1)
  else .halt "write outside of trans"

def readsb : FsProg Unit := do
  bread 1
  brelse 1

def bzero (b : Nat) : FsProg Unit := do
  bread b
  logWrite sb
  brelse b

def balloc : FsProg Nat := do
  readsb
  let found ← searchN (fun k => do
    bread (sb.bblock (k * 4096))
    if ← test .value then do
      logWrite sb
      brelse (sb.bblock (k * 4096))
      let b ← read .freeBlock
      bzero sb b
      return some b
    else do
      brelse (sb.bblock (k * 4096))
      return none) 0 ((sb.size + 4095) / 4096)
  match found with
  | some b => return b
  | none => .halt "balloc: out of blocks"

def bfree (b : Nat) : FsProg Unit := do
  readsb
  bread (sb.bblock b)
  if ← test .value then do
    logWrite sb
    brelse (sb.bblock b)
  else .halt "freeing free block"

def iupdate (inum : Nat) : FsProg Unit := do
  bread (iblock inum)
  logWrite sb
  brelse (iblock inum)

def ialloc : FsProg Nat := do
  readsb
  let found ← searchN (fun inum => do
    bread (iblock inum)
    if ← test (.freeInode inum) then do
      logWrite sb
      brelse (iblock inum)
      return some inum
    else do
      brelse (iblock inum)
      return none) 1 (sb.ninodes - 1)
  match found with
  | some inum => return inum
  | none => .halt "ialloc: no inodes"

def ilock (inum : Nat) : FsProg Unit := do
  LockProg.acquire (.inode inum) (.ret ())
  let valid ← test .value
  if valid then return ()
  else do
    bread (iblock inum)
    brelse (iblock inum)
    if ← test .value then return () else .halt "ilock: no type"

def iunlock (inum : Nat) : FsProg Unit := LockProg.release (.inode inum) (.ret ())

/-- Free the block that an entry names, if it names one. -/
def freeEntry : FsProg Unit := do
  if ← test .value then do
    let b ← read .block
    bfree sb b

def itrunc (inum : Nat) : FsProg Unit := do
  repeatN (fun _ => freeEntry sb) 0 ndirect
  if ← test .value then do
    let b ← read .block
    bread b
    repeatN (fun _ => freeEntry sb) 0 nindirect
    brelse b
    bfree sb b
  iupdate sb inum

/-- The inode that loses its last reference is marked busy without waiting. -/
def iput (inum : Nat) : FsProg Unit := do
  if ← test .lastRef then do
    LockProg.claim (.inode inum) "iput busy" (.ret ())
    itrunc sb inum
    iupdate sb inum
    LockProg.release (.inode inum) (.ret ())

def iunlockput (inum : Nat) : FsProg Unit := do
  iunlock inum
  iput sb inum

/-- The block an entry names, allocated if the entry is empty. -/
def entryBlock : FsProg Nat := do
  if ← test .hole then balloc sb else read .block

def bmap (bn : Nat) : FsProg Nat := do
  if bn < ndirect then entryBlock sb
  else if bn - ndirect < nindirect then do
    let addr ← entryBlock sb
    bread addr
    if ← test .hole then do
      let b ← balloc sb
      logWrite sb
      brelse addr
      return b
    else do
      let b ← read .block
      brelse addr
      return b
  else .halt "bmap: out of range"

def readi : FsProg Unit := do
  if ← test .value then return ()
  else do
    let bn ← read .value
    let n ← read .value
    repeatN (fun bn => do
      let b ← bmap sb bn
      bread b
      brelse b) bn n

def writei (inum : Nat) : FsProg Unit := do
  if ← test .value then return ()
  else do
    let bn ← read .value
    let n ← read .value
    repeatN (fun bn => do
      let b ← bmap sb bn
      bread b
      logWrite sb
      brelse b) bn n
    if ← test .value then iupdate sb inum

def dirlookup (dp : Nat) (dots : Bool) : FsProg (Option Nat) := do
  if ← test .value then do
    let n ← read .value
    searchN (fun _ => do
      readi sb
      if ← test .value then do
        let inum ← read (.entry dp dots)
        return some inum
      else return none) 0 n
  else .halt "dirlookup not DIR"

/-- `false` if the name is present. -/
def dirlink (dp : Nat) : FsProg Bool := do
  match ← dirlookup sb dp true with
  | some ip => do
    iput sb ip
    return false
  | none => do
    let n ← read .value
    repeatN (fun _ => readi sb) 0 n
    writei sb dp
    if ← test .value then return true else .halt "dirlink"

def isdirempty : FsProg Bool := do
  let n ← read .value
  repeatN (fun _ => readi sb) 0 n
  test .value

/-- The walk of `namex` from `ip` with `n` path elements to go. -/
def walk (parent : Bool) : Nat → Nat → FsProg (Option Nat)
  | 0, ip =>
    if parent then do
      iput sb ip
      return none
    else return some ip
  | n + 1, ip => do
    ilock ip
    if ← test .value then do
      if parent ∧ n = 0 then do
        iunlock ip
        return some ip
      else
        match ← dirlookup sb ip true with
        | none => do
          iunlockput sb ip
          return none
        | some next => do
          iunlockput sb ip
          walk parent n next
    else do
      iunlockput sb ip
      return none

def namex (parent : Bool) : FsProg (Option Nat) := do
  let ip ← read .inum
  let n ← read .value
  walk sb parent n ip

/-- A `dirlink` that panics if the name is present. -/
def mustLink (dp : Nat) (msg : String) : FsProg Unit := do
  if ← dirlink sb dp then return () else .halt msg

def createDots (dp ip : Nat) : FsProg Unit := do
  iupdate sb dp
  mustLink sb ip "create dots"
  mustLink sb ip "create dots"

def create (isDir : Bool) : FsProg (Option Nat) := do
  match ← namex sb true with
  | none => return none
  | some dp => do
    ilock dp
    match ← dirlookup sb dp true with
    | some ip => do
      iunlockput sb dp
      ilock ip
      if ← test .value then return some ip
      else do
        iunlockput sb ip
        return none
    | none => do
      let ip ← ialloc sb
      ilock ip
      iupdate sb ip
      if isDir then createDots sb dp ip
      mustLink sb dp "create: dirlink"
      iunlockput sb dp
      return some ip

/-- The end of `sys_open`, with the inode locked. -/
def openLocked (ip : Nat) : FsProg Unit := do
  if ← test .value then iunlock ip else iunlockput sb ip

def sysOpen (omodeCreate : Bool) : FsProg Unit := do
  if omodeCreate then do
    beginTrans
    let r ← create sb false
    commitTrans sb
    match r with
    | none => return ()
    | some ip => openLocked sb ip
  else
    match ← namex sb false with
    | none => return ()
    | some ip => do
      ilock ip
      if ← test .value then iunlockput sb ip else openLocked sb ip

/-- `sys_mkdir` and `sys_mknod`. -/
def sysMake (isDir : Bool) : FsProg Unit := do
  beginTrans
  if ← test .value then do
    match ← create sb isDir with
    | none => commitTrans sb
    | some ip => do
      iunlockput sb ip
      commitTrans sb
  else commitTrans sb

def sysMkdir : FsProg Unit := sysMake sb true

def sysMknod : FsProg Unit := sysMake sb false

def linkBad (ip : Nat) : FsProg Unit := do
  ilock ip
  iupdate sb ip
  iunlockput sb ip
  commitTrans sb

def sysLink : FsProg Unit := do
  match ← namex sb false with
  | none => return ()
  | some ip => do
    beginTrans
    ilock ip
    if ← test .value then do
      iunlockput sb ip
      commitTrans sb
    else do
      iupdate sb ip
      iunlock ip
      match ← namex sb true with
      | none => linkBad sb ip
      | some dp => do
        ilock dp
        if ← test .value then do
          iunlockput sb dp
          linkBad sb ip
        else if ← dirlink sb dp then do
          iunlockput sb dp
          iput sb ip
          commitTrans sb
        else do
          iunlockput sb dp
          linkBad sb ip

def unlinkBad (dp : Nat) : FsProg Unit := do
  iunlockput sb dp
  commitTrans sb

/-- `sys_unlink` once both inodes are locked and the entry may be removed. -/
def unlinkEntry (dp ip : Nat) (isDir : Bool) : FsProg Unit := do
  writei sb dp
  if isDir then iupdate sb dp
  iunlockput sb dp
  iupdate sb ip
  iunlockput sb ip
  commitTrans sb

def sysUnlink : FsProg Unit := do
  match ← namex sb true with
  | none => return ()
  | some dp => do
    beginTrans
    ilock dp
    -- "." and ".." are turned away here
    if ← test .value then unlinkBad sb dp
    else
      match ← dirlookup sb dp false with
      | none => unlinkBad sb dp
      | some ip => do
        ilock ip
        if ← test .value then .halt "unlink: nlink < 1"
        let isDir ← test .value
        if isDir then
          if ← isdirempty sb then unlinkEntry sb dp ip true
          else do
            iunlockput sb ip
            unlinkBad sb dp
        else unlinkEntry sb dp ip false

def sysChdir : FsProg Unit := do
  match ← namex sb false with
  | none => return ()
  | some ip => do
    ilock ip
    if ← test .value then do
      iunlock ip
      let cwd ← read .inum
      iput sb cwd
    else iunlockput sb ip

def sysRead : FsProg Unit := do
  let ip ← read .inum
  ilock ip
  readi sb
  iunlock ip

def sysFstat : FsProg Unit := do
  let ip ← read .inum
  ilock ip
  iunlock ip

def sysWrite : FsProg Unit := do
  let ip ← read .inum
  let n ← read .value
  repeatN (fun _ => do
    beginTrans
    ilock ip
    writei sb ip
    iunlock ip
    commitTrans sb) 0 n

def sysClose : FsProg Unit := do
  if ← test .value then do
    let ip ← read .inum
    beginTrans
    iput sb ip
    commitTrans sb

/-- `exit` closes the open files and drops the working directory. -/
def sysExit : FsProg Unit := do
  repeatN (fun _ => sysClose sb) 0 nofiles
  let cwd ← read .inum
  iput sb cwd

/-- `exec` reads the ELF header, the program headers and the segments. -/
def sysExec : FsProg Unit := do
  match ← namex sb false with
  | none => return ()
  | some ip => do
    ilock ip
    let n ← read .value
    repeatN (fun _ => readi sb) 0 n
    iunlockput sb ip

end FsLocks

inductive FsCall
  | openFile (create : Bool)
  | read
  | write
  | close
  | link
  | unlink
  | mkdir
  | mknod
  | chdir
  | fstat
  | exec
  | exit

def FsCall.prog (sb : SuperBlock) : FsCall → FsProg Unit
  | .openFile create => FsLocks.sysOpen sb create
  | .read => FsLocks.sysRead sb
  | .write => FsLocks.sysWrite sb
  | .close => FsLocks.sysClose sb
  | .link => FsLocks.sysLink sb
  | .unlink => FsLocks.sysUnlink sb
  | .mkdir => FsLocks.sysMkdir sb
  | .mknod => FsLocks.sysMknod sb
  | .chdir => FsLocks.sysChdir sb
  | .fstat => FsLocks.sysFstat
  | .exec => FsLocks.sysExec sb
  | .exit => FsLocks.sysExit sb

def FsLocks.idle (n : Nat) : LockSys n FsLock FsRead := fun _ => { held := [], prog := .ret () }

end Xv6
