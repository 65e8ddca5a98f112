import Xv6.Lib.Run
import Xv6.Fs

/-!
# Taking and giving back blocks

The kernel as a user of blocks: transactions in which blocks are allocated, freed and written. A
block that is freed is one of a file, and a block that is written is one of a file or holds inodes.
-/

namespace Xv6

structure BlockUse where
  fs : Fs
  /-- The blocks of files. -/
  owned : List Nat
  /-- What `balloc` has returned. -/
  handed : List Nat

inductive BlockOp where
  | begin
  | alloc
  | free (b : Nat)
  | write (b : Nat) (data : Block)
  | commit

namespace BlockUse

def writeBlock (b : Nat) (data : Block) : Kernel Fs Unit := do
  let _ ← Fs.bread b
  Fs.setData b data
  Fs.logWrite b
  Fs.brelse b

/-- The state after a computation, if it returns. -/
def after {α : Type} (x : Kernel Fs α) (s : Fs) (f : α → Fs → BlockUse) : Option BlockUse :=
  match x.run s with
  | .ok (a, s') => some (f a s')
  | .error _ => none

variable (sb : Superblock)

def IsInodeBlock (b : Nat) : Prop := 2 ≤ b ∧ b < sb.ninodes / ipb + 3

instance (b : Nat) : Decidable (IsInodeBlock sb b) := inferInstanceAs (Decidable (_ ∧ _))

def exec (s : BlockUse) : BlockOp → Option BlockUse
  | .begin => after Fs.beginTrans s.fs fun _ fs => { s with fs := fs }
  | .alloc => after Fs.balloc s.fs fun b fs =>
    { fs := fs, owned := b :: s.owned, handed := b :: s.handed }
  | .free b =>
    if b ∈ s.owned then
      after (Fs.bfree b) s.fs fun _ fs => { s with fs := fs, owned := s.owned.erase b }
    else none
  | .write b data =>
    if b ∈ s.owned ∨ IsInodeBlock sb b then
      after (writeBlock b data) s.fs fun _ fs => { s with fs := fs }
    else none
  | .commit => after Fs.commitTrans s.fs fun _ fs => { s with fs := fs }

def used (s : BlockUse) (b : Nat) : Bool := Fs.bitSet (s.fs.content (sb.bblock b)) (b % bpb)

end BlockUse

end Xv6
