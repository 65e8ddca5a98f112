import Xv6.Lib.Run
import Xv6.Proc

/-!
# Address spaces

What a process reads and may write is decided by its page directory and tables. An access marks the
entries it goes through as accessed, a store also marks the page dirty.
-/

namespace Xv6

def Machine.live (s : Machine) (p : Fin nproc) : Prop :=
  (s.proc p).state ≠ .unused ∧ (s.proc p).state ≠ .zombie

namespace Machine

def pde (s : Machine) (p : Fin nproc) (i : Nat) : Word := s.word (s.proc p).pgdir i

def tab (s : Machine) (p : Fin nproc) (i : Nat) : Nat := pteAddr (s.pde p i)

def pte (s : Machine) (p : Fin nproc) (a : Nat) : Word := s.word (s.tab p (a / 1024)) (a % 1024)

def frame (s : Machine) (p : Fin nproc) (a : Nat) : Nat := pteAddr (s.pte p a)

def pages (s : Machine) (p : Fin nproc) : Nat := npages (s.proc p).sz

/-- Number of page tables that cover the process. -/
def tables (s : Machine) (p : Fin nproc) : Nat := (s.pages p + 1023) / 1024

def canRead (s : Machine) (p : Fin nproc) (va : Nat) : Bool :=
  let pde := s.pde p (va / 2 ^ 22)
  let pte := s.pte p (va / pgSize)
  pde.present && pde.user && pte.present && pte.user

def canWrite (s : Machine) (p : Fin nproc) (va : Nat) : Bool :=
  s.canRead p va && (s.pde p (va / 2 ^ 22)).writable && (s.pte p (va / pgSize)).writable

end Machine

def Word.getByte (w : Word) (k : Nat) : BitVec 8 := w.extractLsb' (8 * k) 8

def Word.setByte (w : Word) (k : Nat) (b : BitVec 8) : Word :=
  (w &&& ~~~((0xFF : Word) <<< (8 * k))) ||| (b.setWidth 32 <<< (8 * k))

namespace Machine

/-- The processor marks the entries of an access. -/
def mark (s : Machine) (p : Fin nproc) (va : Nat) (flags : Word) : Machine :=
  (s.setWord (s.proc p).pgdir (va / 2 ^ 22) (s.pde p (va / 2 ^ 22) ||| pteA)).setWord
    (s.tab p (va / 2 ^ 22)) (va / pgSize % 1024) (s.pte p (va / pgSize) ||| flags)

def storeByte (s : Machine) (p : Fin nproc) (va : Nat) (b : BitVec 8) : Machine :=
  let page := s.frame p (va / pgSize)
  let i := va % pgSize / 4
  s.setWord page i ((s.word page i).setByte (va % 4) b)

end Machine

end Xv6
