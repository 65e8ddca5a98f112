import Xv6.Fs

/-!
# `mkfs`

The program that writes the first image: a root directory, the input files in it, and the bitmap of
the blocks it has used. The image is the function from sectors to their contents. An input file is
its name and the chunks in which `read` returned its bytes. A failed `assert` ends the run.
-/

namespace Xv6

structure Mkfs where
  img : Nat → Block
  freeblock : Nat
  usedblocks : Nat
  freeinode : Nat

namespace Mkfs

def nblocks : Nat := 985

def nlog : Nat := logSize

def ninodes : Nat := 200

def size : Nat := 1024

def sb : Superblock := { size := size, nblocks := nblocks, ninodes := ninodes, nlog := nlog }

def bitblocks : Nat := size / (512 * 8) + 1

def assert (cond : Prop) [Decidable cond] (msg : String) : Kernel Mkfs Unit :=
  if cond then pure () else Kernel.panic msg

def wsect (sec : Nat) (buf : Block) : Kernel Mkfs Unit :=
  Kernel.modify fun m => { m with img := Function.update m.img sec buf }

/-- The image has `size` sectors; a `read` past them returns less than a sector. -/
def rsect (sec : Nat) : Kernel Mkfs Block := do
  let m ← Kernel.get
  if sec < size then pure (m.img sec) else Kernel.panic "read"

def i2b (inum : Nat) : Nat := inum / ipb + 2

def winode (inum : Nat) (din : Dinode) : Kernel Mkfs Unit := do
  let buf ← rsect (i2b inum)
  wsect (i2b inum) (din.store buf (dinodeOff inum))

def rinode (inum : Nat) : Kernel Mkfs Dinode := do
  let buf ← rsect (i2b inum)
  pure (Dinode.load buf (dinodeOff inum))

def ialloc (type : UInt16) : Kernel Mkfs Nat := do
  let m ← Kernel.get
  Kernel.modify fun m => { m with freeinode := m.freeinode + 1 }
  winode m.freeinode { Dinode.zero with type := type, nlink := 1 }
  pure m.freeinode

/-- `freeblock++` and `usedblocks++`. -/
def takeBlock : Kernel Mkfs Nat := do
  let m ← Kernel.get
  Kernel.modify fun m =>
    { m with freeblock := m.freeblock + 1, usedblocks := m.usedblocks + 1 }
  pure m.freeblock

/-- The address in entry `k`, which is filled in if it is empty. -/
def entry (din : Dinode) (k : Fin (ndirect + 1)) : Kernel Mkfs (Dinode × Nat) :=
  if (din.addrs k).toNat = 0 then do
    let b ← takeBlock
    pure (din.setAddr k b, b)
  else pure (din, (din.addrs k).toNat)

def sector (din : Dinode) (fbn : Nat) : Kernel Mkfs (Dinode × Nat) :=
  if h : fbn < ndirect then entry din ⟨fbn, Nat.lt_succ_of_lt h⟩
  else do
    let (din, addr) ← entry din (Fin.last ndirect)
    let indirect ← rsect addr
    if getLE indirect (4 * (fbn - ndirect)) 4 = 0 then do
      let b ← takeBlock
      wsect addr (putLE indirect (4 * (fbn - ndirect)) 4 b)
      pure (din, b)
    else pure (din, getLE indirect (4 * (fbn - ndirect)) 4)

/-- The loop of `iappend`; each round writes at least one byte. -/
def appendLoop : Nat → Dinode → Nat → List UInt8 → Kernel Mkfs (Dinode × Nat)
  | 0, din, off, _ => pure (din, off)
  | fuel + 1, din, off, p =>
    if p = [] then pure (din, off)
    else do
      let fbn := off / 512
      assert (fbn < maxfile) "fbn < MAXFILE"
      let (din, x) ← sector din fbn
      let n1 := min p.length ((fbn + 1) * 512 - off)
      let buf ← rsect x
      wsect x (Fs.putBytes buf (off - fbn * 512) (p.take n1))
      appendLoop fuel din (off + n1) (p.drop n1)

def iappend (inum : Nat) (p : List UInt8) : Kernel Mkfs Unit := do
  let din ← rinode inum
  let (din, off) ← appendLoop p.length din din.size.toNat p
  winode inum { din with size := UInt32.ofNat off }

def bitmap : Nat → Block
  | 0 => fun _ => 0
  | used + 1 => Fs.setBit (bitmap used) used

def balloc (used : Nat) : Kernel Mkfs Unit := do
  assert (used < 512 * 8) "used < 512*8"
  wsect (ninodes / ipb + 3) (bitmap used)

def stripName : List UInt8 → List UInt8
  | 95 :: name => name
  | name => name

/-- A name from `argv` is a C string. -/
structure Input where
  name : List UInt8
  chunks : List (List UInt8)
  nul : (0 : UInt8) ∉ name

def addFile (file : Input) : Kernel Mkfs Unit := do
  assert (Fs.slash ∉ file.name) "index(argv[i], '/') == 0"
  let inum ← ialloc tFile
  iappend rootIno (Fs.direntBytes inum (Fs.Name.bytes (stripName file.name)))
  Kernel.forEach file.chunks (iappend inum)

def superblock : Block :=
  let data := putLE (fun _ => 0) 0 4 size
  let data := putLE data 4 4 nblocks
  let data := putLE data 8 4 ninodes
  putLE data 12 4 nlog

/-- The state before the root directory is made: every sector is zero but the superblock. -/
def start : Mkfs where
  img := Function.update (fun _ _ => 0) 1 superblock
  freeblock := ninodes / ipb + 3 + bitblocks
  usedblocks := ninodes / ipb + 3 + bitblocks
  freeinode := 1

/-- A name of dots, as `strcpy` puts it into an entry. -/
def dots (n : Nat) : List UInt8 := List.replicate n 46

def main (files : List Input) : Kernel Mkfs Unit := do
  assert (nblocks + (ninodes / ipb + 3 + bitblocks) + nlog = size)
    "nblocks + usedblocks + nlog == size"
  let rootino ← ialloc tDir
  assert (rootino = rootIno) "rootino == ROOTINO"
  iappend rootino (Fs.direntBytes rootino (Fs.Name.bytes (dots 1)))
  iappend rootino (Fs.direntBytes rootino (Fs.Name.bytes (dots 2)))
  Kernel.forEach files addFile
  let din ← rinode rootino
  let off := (din.size.toNat / bsize + 1) * bsize
  winode rootino { din with size := UInt32.ofNat off }
  let m ← Kernel.get
  balloc m.usedblocks

end Mkfs

end Xv6
