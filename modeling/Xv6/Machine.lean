import Mathlib.Logic.Function.Basic
import Mathlib.Data.BitVec
import Xv6.Lib.Kernel

/-!
# Physical memory and the process table

Memory is a collection of pages of 1024 words. Page directories, page tables, user pages and free
pages all live in it: a table is a page whose words are read as entries. An address in the kernel's
direct map is named by its page number, so `p2v` and `v2p` disappear; page number 0 is the null
pointer.
-/

namespace Xv6

abbrev Word := BitVec 32

def pgSize : Nat := 4096

def npdEntries : Nat := 1024

def nptEntries : Nat := 1024

def extMem : Nat := 0x100000

def physTop : Nat := 0xE000000

def devSpace : Nat := 0xFE000000

def kernBase : Nat := 0x80000000

def kernLink : Nat := kernBase + extMem

def nproc : Nat := 64

instance : NeZero nproc := ⟨by decide⟩

def pteP : Word := 0x001

def pteW : Word := 0x002

def pteU : Word := 0x004

def pteA : Word := 0x020

def pteD : Word := 0x040

def pteAddr (w : Word) : Nat := (w >>> 12).toNat

def Word.present (w : Word) : Bool := w.getLsbD 0

def Word.writable (w : Word) : Bool := w.getLsbD 1

def Word.user (w : Word) : Bool := w.getLsbD 2

def mkEntry (page : Nat) (flags : Word) : Word := BitVec.ofNat 32 (page * pgSize) ||| flags

def pdx (va : Nat) : Nat := va / 2 ^ 22 % 1024

def ptx (va : Nat) : Nat := va / 2 ^ 12 % 1024

def pgRoundUp (sz : Nat) : Nat := (sz + pgSize - 1) % 2 ^ 32 / pgSize * pgSize

def pgRoundDown (a : Nat) : Nat := a / pgSize * pgSize

inductive ProcState
  | unused
  | embryo
  | sleeping
  | runnable
  | running
  | zombie
  deriving DecidableEq

structure Proc where
  sz : Nat
  pgdir : Nat
  kstack : Nat
  state : ProcState
  pid : Word
  parent : Option (Fin nproc)
  killed : Bool
  name : String

structure Machine where
  word : Nat → Nat → Word
  /-- The pages `kmem.freelist` links, first one first. -/
  free : List Nat
  proc : Fin nproc → Proc
  nextpid : Word
  initproc : Fin nproc
  /-- The first page past the kernel image (`end`). -/
  kend : Nat
  /-- The page where the kernel's data begins (`data`). -/
  kdata : Nat

namespace Machine

def setPage (s : Machine) (page : Nat) (content : Nat → Word) : Machine :=
  { s with word := Function.update s.word page content }

def setWord (s : Machine) (page i : Nat) (w : Word) : Machine :=
  s.setPage page (Function.update (s.word page) i w)

def setProc (s : Machine) (p : Fin nproc) (q : Proc) : Machine :=
  { s with proc := Function.update s.proc p q }

end Machine

/-- `memset(v, 1, PGSIZE)` and the link to the next free page. -/
def freedPage (next : List Nat) : Nat → Word :=
  Function.update (fun _ => 0x01010101) 0
    (match next with
      | [] => 0
      | page :: _ => BitVec.ofNat 32 (kernBase + page * pgSize))

def kfree (page : Nat) : Kernel Machine Unit := do
  let s ← Kernel.get
  if page < s.kend ∨ physTop ≤ page * pgSize then Kernel.panic "kfree"
  else
    Kernel.modify fun s =>
      { s.setPage page (freedPage s.free) with free := page :: s.free }

def kalloc : Kernel Machine (Option Nat) := do
  let s ← Kernel.get
  match s.free with
  | [] => pure none
  | page :: rest => do
    Kernel.modify fun s => { s with free := rest }
    pure (some page)

def clearPage (page : Nat) : Kernel Machine Unit :=
  Kernel.modify fun s => s.setPage page fun _ => 0

end Xv6
