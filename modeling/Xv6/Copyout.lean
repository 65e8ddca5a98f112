import Xv6.AddressSpace
import Xv6.Sbrk

/-!
# Copying into another address space

`uva2ka` and `copyout` of `vm.c`, and the part of `exec` that pushes the arguments onto the stack of
the new program. Stack pointers are unsigned.
-/

namespace Xv6

/-- The kernel address of a user page, or none. A null entry is read at address 0. -/
def uva2ka (cur : Fin nproc) (pgdir uva : Nat) : Kernel Machine (Option Nat) := do
  let pte ← walkpgdir pgdir uva false
  let s ← Kernel.get
  match s.loadPte cur pte with
  | none => Kernel.panic "trap"
  | some w => if w.present && w.user then pure (some (pteAddr w)) else pure none

def Machine.putByte (s : Machine) (page off : Nat) (b : BitVec 8) : Machine :=
  s.setWord page (off / 4) ((s.word page (off / 4)).setByte (off % 4) b)

def Machine.putBytes (s : Machine) (page : Nat) : Nat → List (BitVec 8) → Machine
  | _, [] => s
  | off, b :: rest => (s.putByte page off b).putBytes page (off + 1) rest

end Xv6
