import Xv6.Log

/-!
# Files and directories

`fs.c` for one process at a time. A block is what its buffer holds, or the disk if it has none: the
buffer cache shows as the blocks that are held and the ones that are dirty, the log as the sectors
in its header and the blocks of the log area. Inodes, the bitmap and directories are bytes of
blocks. There is one device.
-/

namespace Xv6

def bsize : Nat := 512

def bpb : Nat := 4096

def ipb : Nat := 8

def ndirect : Nat := 12

def nindirect : Nat := 128

def maxfile : Nat := ndirect + nindirect

def ninode : Nat := 50

def dirSiz : Nat := 14

def direntSize : Nat := 16

def rootIno : Nat := 1

def tDir : UInt16 := 1

def tFile : UInt16 := 2

def tDev : UInt16 := 3

structure Superblock where
  size : Nat
  nblocks : Nat
  ninodes : Nat
  nlog : Nat

def Superblock.load (data : Block) : Superblock :=
  { size := getLE data 0 4, nblocks := getLE data 4 4, ninodes := getLE data 8 4,
    nlog := getLE data 12 4 }

def Fs.iblock (inum : Nat) : Nat := inum / ipb + 2

def Superblock.bblock (sb : Superblock) (b : Nat) : Nat := b / bpb + sb.ninodes / ipb + 3

/-- `struct dinode`, and the copy of it in `struct inode`. -/
structure Dinode where
  type : UInt16
  major : UInt16
  minor : UInt16
  nlink : UInt16
  size : UInt32
  addrs : Fin (ndirect + 1) → UInt32

def dinodeOff (inum : Nat) : Nat := 64 * (inum % ipb)

namespace Dinode

def zero : Dinode :=
  { type := 0, major := 0, minor := 0, nlink := 0, size := 0, addrs := fun _ => 0 }

def load (data : Block) (off : Nat) : Dinode where
  type := UInt16.ofNat (getLE data off 2)
  major := UInt16.ofNat (getLE data (off + 2) 2)
  minor := UInt16.ofNat (getLE data (off + 4) 2)
  nlink := UInt16.ofNat (getLE data (off + 6) 2)
  size := UInt32.ofNat (getLE data (off + 8) 4)
  addrs k := UInt32.ofNat (getLE data (off + 12 + 4 * k) 4)

def store (d : Dinode) (data : Block) (off : Nat) : Block :=
  let data := putLE data off 2 d.type.toNat
  let data := putLE data (off + 2) 2 d.major.toNat
  let data := putLE data (off + 4) 2 d.minor.toNat
  let data := putLE data (off + 6) 2 d.nlink.toNat
  let data := putLE data (off + 8) 4 d.size.toNat
  (List.finRange (ndirect + 1)).foldl
    (fun data (k : Fin (ndirect + 1)) => putLE data (off + 12 + 4 * k) 4 (d.addrs k).toNat) data

def setAddr (d : Dinode) (k : Fin (ndirect + 1)) (b : Nat) : Dinode :=
  { d with addrs := Function.update d.addrs k (UInt32.ofNat b) }

end Dinode

/-- `struct inode`; the flags are `I_BUSY` and `I_VALID`. -/
structure Inode where
  inum : Nat
  ref : Nat
  busy : Bool
  valid : Bool
  d : Dinode

structure FsLog where
  start : Nat
  size : Nat
  busy : Bool
  /-- `lh.sector`, up to `lh.n`. -/
  sectors : List Nat

def FsLog.header (log : FsLog) : LogHeader :=
  { n := log.sectors.length, sector := fun i => log.sectors.getD i 0 }

structure Fs where
  content : Nat → Block
  /-- The blocks whose buffer is busy. -/
  held : List Nat
  dirty : List Nat
  log : FsLog
  icache : Fin ninode → Inode

namespace Fs

def setBlock (s : Fs) (b : Nat) (data : Block) : Fs :=
  { s with content := Function.update s.content b data }

def setInode (s : Fs) (ip : Fin ninode) (e : Inode) : Fs :=
  { s with icache := Function.update s.icache ip e }

/-- The number of buffers that `bget` cannot recycle. -/
def pinned (s : Fs) : Nat := s.held.length + (s.dirty.filter (· ∉ s.held)).length

/-- A process that reads a block it holds waits for itself. -/
def bread (b : Nat) : Kernel Fs Block := do
  let s ← Kernel.get
  if b ∈ s.held then Kernel.panic "bget: sleep"
  else if b ∉ s.dirty ∧ nbuf ≤ s.pinned then Kernel.panic "bget: no buffers"
  else do
    Kernel.modify fun s => { s with held := b :: s.held }
    pure (s.content b)

def setData (b : Nat) (data : Block) : Kernel Fs Unit := Kernel.modify fun s => s.setBlock b data

def bwrite (b : Nat) : Kernel Fs Unit := do
  let s ← Kernel.get
  if b ∉ s.held then Kernel.panic "bwrite"
  else Kernel.modify fun s => { s with dirty := s.dirty.filter (· ≠ b) }

def brelse (b : Nat) : Kernel Fs Unit := do
  let s ← Kernel.get
  if b ∉ s.held then Kernel.panic "brelse"
  else Kernel.modify fun s => { s with held := s.held.erase b }

def setLog (log : FsLog) : Kernel Fs Unit := Kernel.modify fun s => { s with log := log }

def writeHead : Kernel Fs Unit := do
  let s ← Kernel.get
  let data ← bread s.log.start
  setData s.log.start (s.log.header.store data)
  bwrite s.log.start
  brelse s.log.start

def installBlock (tail home : Nat) : Kernel Fs Unit := do
  let s ← Kernel.get
  let data ← bread (s.log.start + tail + 1)
  let _ ← bread home
  setData home data
  bwrite home
  brelse (s.log.start + tail + 1)
  brelse home

/-- `install_trans` from slot `tail` on. -/
def installTrans : Nat → List Nat → Kernel Fs Unit
  | _, [] => pure ()
  | tail, home :: rest => do
    installBlock tail home
    installTrans (tail + 1) rest

def beginTrans : Kernel Fs Unit := do
  let s ← Kernel.get
  if s.log.busy then Kernel.panic "begin_trans: sleep"
  else setLog { s.log with busy := true }

def commitTrans : Kernel Fs Unit := do
  let s ← Kernel.get
  if s.log.sectors ≠ [] then do
    writeHead
    installTrans 0 s.log.sectors
    setLog { s.log with sectors := [] }
    writeHead
  setLog { s.log with sectors := [], busy := false }

def logWrite (b : Nat) : Kernel Fs Unit := do
  let s ← Kernel.get
  let n := s.log.sectors.length
  if logSize ≤ n ∨ s.log.size ≤ n + 1 then Kernel.panic "too big a transaction"
  else if !s.log.busy then Kernel.panic "write outside of trans"
  else do
    let i := s.log.sectors.idxOf b
    let _ ← bread (s.log.start + i + 1)
    setData (s.log.start + i + 1) (s.content b)
    bwrite (s.log.start + i + 1)
    brelse (s.log.start + i + 1)
    Kernel.modify fun s =>
      { s with
        log := { s.log with sectors := if i = n then s.log.sectors ++ [b] else s.log.sectors }
        dirty := if b ∈ s.dirty then s.dirty else b :: s.dirty }

def readsb : Kernel Fs Superblock := do
  let data ← bread 1
  brelse 1
  pure (Superblock.load data)

def bzero (b : Nat) : Kernel Fs Unit := do
  let _ ← bread b
  setData b fun _ => 0
  logWrite b
  brelse b

def bitSet (data : Block) (bi : Nat) : Bool := (data (bi / 8)).toNat.testBit (bi % 8)

def setBit (data : Block) (bi : Nat) : Block :=
  Function.update data (bi / 8) (data (bi / 8) ||| 1 <<< UInt8.ofNat (bi % 8))

def clearBit (data : Block) (bi : Nat) : Block :=
  Function.update data (bi / 8) (data (bi / 8) &&& ~~~(1 <<< UInt8.ofNat (bi % 8)))

def ballocLoop (sb : Superblock) : List Nat → Kernel Fs Nat
  | [] => Kernel.panic "balloc: out of blocks"
  | k :: rest => do
    let b := k * bpb
    let data ← bread (sb.bblock b)
    match (List.range (min bpb (sb.size - b))).find? fun bi => !bitSet data bi with
    | some bi => do
      setData (sb.bblock b) (setBit data bi)
      logWrite (sb.bblock b)
      brelse (sb.bblock b)
      bzero (b + bi)
      pure (b + bi)
    | none => do
      brelse (sb.bblock b)
      ballocLoop sb rest

def balloc : Kernel Fs Nat := do
  let sb ← readsb
  ballocLoop sb (List.range ((sb.size + bpb - 1) / bpb))

def bfree (b : Nat) : Kernel Fs Unit := do
  let sb ← readsb
  let data ← bread (sb.bblock b)
  if !bitSet data (b % bpb) then Kernel.panic "freeing free block"
  else do
    setData (sb.bblock b) (clearBit data (b % bpb))
    logWrite (sb.bblock b)
    brelse (sb.bblock b)

def modifyInode (ip : Fin ninode) (f : Inode → Inode) : Kernel Fs Unit :=
  Kernel.modify fun s => s.setInode ip (f (s.icache ip))

def modifyDinode (ip : Fin ninode) (f : Dinode → Dinode) : Kernel Fs Unit :=
  modifyInode ip fun e => { e with d := f e.d }

def iget (inum : Nat) : Kernel Fs (Fin ninode) := do
  let s ← Kernel.get
  match (List.finRange ninode).find?
      fun ip => 0 < (s.icache ip).ref ∧ (s.icache ip).inum = inum with
  | some ip => do
    modifyInode ip fun e => { e with ref := e.ref + 1 }
    pure ip
  | none =>
    match (List.finRange ninode).find? fun ip => (s.icache ip).ref = 0 with
    | none => Kernel.panic "iget: no inodes"
    | some ip => do
      modifyInode ip fun e => { e with inum := inum, ref := 1, busy := false, valid := false }
      pure ip

def idup (ip : Fin ninode) : Kernel Fs (Fin ninode) := do
  modifyInode ip fun e => { e with ref := e.ref + 1 }
  pure ip

def iupdate (ip : Fin ninode) : Kernel Fs Unit := do
  let s ← Kernel.get
  let e := s.icache ip
  let data ← bread (iblock e.inum)
  setData (iblock e.inum) (e.d.store data (dinodeOff e.inum))
  logWrite (iblock e.inum)
  brelse (iblock e.inum)

/-- A process that locks an inode somebody has locked waits. -/
def ilock (ip : Fin ninode) : Kernel Fs Unit := do
  let s ← Kernel.get
  if (s.icache ip).ref < 1 then Kernel.panic "ilock"
  else if (s.icache ip).busy then Kernel.panic "ilock: sleep"
  else do
    modifyInode ip fun e => { e with busy := true }
    if (s.icache ip).valid then pure ()
    else do
      let inum := (s.icache ip).inum
      let data ← bread (iblock inum)
      modifyInode ip fun e => { e with d := Dinode.load data (dinodeOff inum), valid := true }
      brelse (iblock inum)
      if (Dinode.load data (dinodeOff inum)).type = 0 then Kernel.panic "ilock: no type"
      else pure ()

def iunlock (ip : Fin ninode) : Kernel Fs Unit := do
  let s ← Kernel.get
  if !(s.icache ip).busy ∨ (s.icache ip).ref < 1 then Kernel.panic "iunlock"
  else modifyInode ip fun e => { e with busy := false }

def freeDirect (ip : Fin ninode) (k : Fin (ndirect + 1)) : Kernel Fs Unit := do
  let s ← Kernel.get
  let b := ((s.icache ip).d.addrs k).toNat
  if b = 0 then pure ()
  else do
    bfree b
    modifyDinode ip fun d => d.setAddr k 0

def freeIndirect (data : Block) (j : Nat) : Kernel Fs Unit :=
  if getLE data (4 * j) 4 = 0 then pure () else bfree (getLE data (4 * j) 4)

def itrunc (ip : Fin ninode) : Kernel Fs Unit := do
  Kernel.forEach (List.finRange ndirect) fun k => freeDirect ip k.castSucc
  let s ← Kernel.get
  let b := ((s.icache ip).d.addrs (Fin.last ndirect)).toNat
  if b = 0 then pure ()
  else do
    let data ← bread b
    Kernel.forEach (List.range nindirect) (freeIndirect data)
    brelse b
    bfree b
    modifyDinode ip fun d => d.setAddr (Fin.last ndirect) 0
  modifyDinode ip fun d => { d with size := 0 }
  iupdate ip

/-- Drop a reference; the last one to an inode without links frees it. -/
def iput (ip : Fin ninode) : Kernel Fs Unit := do
  let s ← Kernel.get
  let e := s.icache ip
  if e.ref = 1 ∧ e.valid ∧ e.d.nlink = 0 then do
    if e.busy then Kernel.panic "iput busy" else pure ()
    modifyInode ip fun e => { e with busy := true }
    itrunc ip
    modifyDinode ip fun d => { d with type := 0 }
    iupdate ip
    modifyInode ip fun e => { e with busy := false, valid := false }
  modifyInode ip fun e => { e with ref := e.ref - 1 }

def iunlockput (ip : Fin ninode) : Kernel Fs Unit := do
  iunlock ip
  iput ip

/-- The block in entry `k` of the inode, allocated if there is none. -/
def bmapEntry (ip : Fin ninode) (k : Fin (ndirect + 1)) : Kernel Fs Nat := do
  let s ← Kernel.get
  let addr := ((s.icache ip).d.addrs k).toNat
  if addr = 0 then do
    let addr ← balloc
    modifyDinode ip fun d => d.setAddr k addr
    pure addr
  else pure addr

/-- The disk block of block `bn` of the inode, allocated if there is none. -/
def bmap (ip : Fin ninode) (bn : Nat) : Kernel Fs Nat :=
  if h : bn < ndirect then bmapEntry ip ⟨bn, Nat.lt_succ_of_lt h⟩
  else if bn - ndirect < nindirect then do
    let addr ← bmapEntry ip (Fin.last ndirect)
    let data ← bread addr
    let b := getLE data (4 * (bn - ndirect)) 4
    if b = 0 then do
      let b ← balloc
      setData addr (putLE data (4 * (bn - ndirect)) 4 b)
      logWrite addr
      brelse addr
      pure b
    else do
      brelse addr
      pure b
  else Kernel.panic "bmap: out of range"

def getBytes (data : Block) (off n : Nat) : List UInt8 :=
  (List.range n).map fun k => data (off + k)

def putBytes (data : Block) (off : Nat) (src : List UInt8) : Block := fun i =>
  if off ≤ i ∧ i < off + src.length then src.getD (i - off) 0 else data i

/-- The loop of `readi`; each round reads at least one byte, so `n` rounds are enough. -/
def readLoop (ip : Fin ninode) : Nat → Nat → Nat → Kernel Fs (List UInt8)
  | 0, _, _ => pure []
  | fuel + 1, off, n =>
    if n = 0 then pure []
    else do
      let b ← bmap ip (off / bsize)
      let data ← bread b
      let m := min n (bsize - off % bsize)
      brelse b
      let rest ← readLoop ip fuel (off + m) (n - m)
      pure (getBytes data (off % bsize) m ++ rest)

/-- `none` is the result -1. No device is attached. -/
def readi (ip : Fin ninode) (off n : Nat) : Kernel Fs (Option (List UInt8)) := do
  let s ← Kernel.get
  let d := (s.icache ip).d
  if d.type = tDev then pure none
  else if d.size.toNat < off ∨ 2 ^ 32 ≤ off + n then pure none
  else do
    let n := if d.size.toNat < off + n then d.size.toNat - off else n
    let bytes ← readLoop ip n off n
    pure (some bytes)

def writeLoop (ip : Fin ninode) : Nat → List UInt8 → Nat → Kernel Fs Unit
  | 0, _, _ => pure ()
  | fuel + 1, src, off =>
    if src = [] then pure ()
    else do
      let b ← bmap ip (off / bsize)
      let data ← bread b
      let m := min src.length (bsize - off % bsize)
      setData b (putBytes data (off % bsize) (src.take m))
      logWrite b
      brelse b
      writeLoop ip fuel (src.drop m) (off + m)

def writei (ip : Fin ninode) (src : List UInt8) (off : Nat) : Kernel Fs (Option Nat) := do
  let s ← Kernel.get
  let d := (s.icache ip).d
  let n := src.length
  if d.type = tDev then pure none
  else if d.size.toNat < off ∨ 2 ^ 32 ≤ off + n then pure none
  else if maxfile * bsize < off + n then pure none
  else do
    writeLoop ip n src off
    if 0 < n ∧ d.size.toNat < off + n then do
      modifyDinode ip fun d => { d with size := UInt32.ofNat (off + n) }
      iupdate ip
    pure (some n)

/-- A C string in an array, up to the first NUL: a name is the bytes before it, at most 14. -/
abbrev Name := List UInt8

/-- The array that holds a name; what follows the NUL is not looked at. -/
def Name.bytes (name : Name) : Block := fun i => name.getD i 0

/-- Whether `strncmp` returns 0. -/
def strncmpEq (p q : Block) : Nat → Nat → Bool
  | _, 0 => true
  | i, n + 1 => if p i ≠ 0 ∧ p i = q i then strncmpEq p q (i + 1) n else p i = q i

def namecmpEq (p q : Block) : Bool := strncmpEq p q 0 dirSiz

def strncpy (t : Block) : Nat → Nat → List UInt8
  | _, 0 => []
  | i, n + 1 => t i :: if t i = 0 then List.replicate n 0 else strncpy t (i + 1) n

structure Dirent where
  inum : Nat
  name : Block

def Dirent.load (bytes : List UInt8) : Dirent :=
  { inum := getLE (Name.bytes bytes) 0 2, name := fun i => bytes.getD (i + 2) 0 }

def direntBytes (inum : Nat) (name : Block) : List UInt8 :=
  UInt8.ofNat inum :: UInt8.ofNat (inum / 256) :: strncpy name 0 dirSiz

def readDirent (dp : Fin ninode) (off : Nat) (msg : String) : Kernel Fs Dirent := do
  match ← readi dp off direntSize with
  | none => Kernel.panic msg
  | some bytes => if bytes.length ≠ direntSize then Kernel.panic msg else pure (Dirent.load bytes)

/-- The offsets of the entries of a directory, from entry `first` on. -/
def direntOffs (size first : Nat) : List Nat :=
  (List.range' first ((size + direntSize - 1) / direntSize - first)).map (direntSize * ·)

def dirlookupLoop (dp : Fin ninode) (name : Block) :
    List Nat → Kernel Fs (Option (Fin ninode × Nat))
  | [] => pure none
  | off :: rest => do
    let de ← readDirent dp off "dirlink read"
    if de.inum ≠ 0 ∧ namecmpEq name de.name then do
      let ip ← iget de.inum
      pure (some (ip, off))
    else dirlookupLoop dp name rest

/-- The inode of an entry and the entry's offset. -/
def dirlookup (dp : Fin ninode) (name : Block) : Kernel Fs (Option (Fin ninode × Nat)) := do
  let s ← Kernel.get
  if (s.icache dp).d.type ≠ tDir then Kernel.panic "dirlookup not DIR"
  else dirlookupLoop dp name (direntOffs (s.icache dp).d.size.toNat 0)

def slash : UInt8 := 47

/-- The next element of a path and the path after it. -/
def skipelem (path : List UInt8) : Option (List UInt8 × Name) :=
  let p := path.dropWhile (· = slash)
  if p = [] then none
  else some ((p.dropWhile (· ≠ slash)).dropWhile (· = slash), (p.takeWhile (· ≠ slash)).take dirSiz)

/-- The loop of `namex`: an element of the path has at least one byte. -/
def namexLoop (parent : Bool) :
    Nat → Fin ninode → List UInt8 → Kernel Fs (Option (Fin ninode × Name))
  | 0, ip, _ =>
    if parent then do
      iput ip
      pure none
    else pure (some (ip, []))
  | fuel + 1, ip, path =>
    match skipelem path with
    | none =>
      if parent then do
        iput ip
        pure none
      else pure (some (ip, []))
    | some (rest, name) => do
      ilock ip
      let s ← Kernel.get
      if (s.icache ip).d.type ≠ tDir then do
        iunlockput ip
        pure none
      else if parent ∧ rest = [] then do
        iunlock ip
        pure (some (ip, name))
      else
        match ← dirlookup ip (Name.bytes name) with
        | none => do
          iunlockput ip
          pure none
        | some (next, _) => do
          iunlockput ip
          namexLoop parent fuel next rest

/-- Look up a path; with `parent`, the directory of its last element and that element. -/
def namex (cwd : Fin ninode) (path : List UInt8) (parent : Bool) :
    Kernel Fs (Option (Fin ninode × Name)) := do
  let ip ← if path.head? = some slash then iget rootIno else idup cwd
  namexLoop parent path.length ip path

def namei (cwd : Fin ninode) (path : List UInt8) : Kernel Fs (Option (Fin ninode)) := do
  let r ← namex cwd path false
  pure (r.map (·.1))

def nameiparent (cwd : Fin ninode) (path : List UInt8) : Kernel Fs (Option (Fin ninode × Name)) :=
  namex cwd path true

end Fs

end Xv6
