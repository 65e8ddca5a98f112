import Xv6.Fs
import Xv6.Lib.Run

/-!
# The inode cache under concurrency

Any number of uses of inode references run against each other: a critical section under
`icache.lock` is a step, and so is a read or a write of the inode on disk. `ptr` holds every
pointer to a cache entry that the kernel keeps (local variables, open files, current directories).
A panic ends the run.
-/

namespace Xv6.Icache

variable {A H : Type}

/-- Where a use of the reference `h` stands: in the loop of `ilock`, before it reads the inode,
between `ilock` and `iunlock` (`clean` if the copy has not changed since the last `iupdate`), in
`iput` before and after it has freed the inode. -/
inductive Pc (H : Type)
  | idle
  | waiting (h : H)
  | loading (h : H)
  | locked (h : H) (clean : Bool)
  | freeing (h : H)
  | freed (h : H)
  deriving DecidableEq

structure Sys (A H : Type) where
  inode : Fin ninode → Inode
  disk : Nat → Dinode
  ptr : H → Option (Fin ninode)
  pc : A → Pc H

def init (disk : Nat → Dinode) : Sys A H where
  inode _ := ⟨0, 0, false, false, Dinode.zero⟩
  disk := disk
  ptr _ := none
  pc _ := .idle

inductive Event (H : Type)
  | iget (inum : Nat) (h : H)
  | idup (h h' : H)
  | ilock (h : H)
  | grab
  | load
  | edit (d : Dinode)
  | iupdate
  | iunlock
  | iput (h : H)
  | free
  | finish
  | ialloc (inum : Nat) (type : UInt16)

namespace Sys

variable [DecidableEq A] [DecidableEq H] (s : Sys A H) (a : A)

def setInode (i : Fin ninode) (e : Inode) : Sys A H :=
  { s with inode := Function.update s.inode i e }

def goto (k : Pc H) : Sys A H := { s with pc := Function.update s.pc a k }

def setPtr (h : H) (p : Option (Fin ninode)) : Sys A H :=
  { s with ptr := Function.update s.ptr h p }

def setDisk (inum : Nat) (d : Dinode) : Sys A H :=
  { s with disk := Function.update s.disk inum d }

def idup (i : Fin ninode) (h : H) : Sys A H :=
  (s.setInode i { s.inode i with ref := (s.inode i).ref + 1 }).setPtr h (some i)

/-- The entry is cleared for another inode. -/
def recycle (i : Fin ninode) (inum : Nat) : Sys A H :=
  s.setInode i { s.inode i with inum := inum, ref := 1, busy := false, valid := false }

def iget (inum : Nat) (h : H) : Option (Sys A H) :=
  match (List.finRange ninode).find? fun i => 0 < (s.inode i).ref ∧ (s.inode i).inum = inum with
  | some i => some (s.idup i h)
  | none =>
    ((List.finRange ninode).find? fun i => (s.inode i).ref = 0).map fun i =>
      (s.recycle i inum).setPtr h (some i)

def exec (e : Event H) : Option (Sys A H) :=
  match e, s.pc a with
  | .iget inum h, _ => if s.ptr h = none then s.iget inum h else none
  | .idup h h', _ =>
    (s.ptr h).bind fun i => if s.ptr h' = none then some (s.idup i h') else none
  -- the inode is marked as allocated; `iget` follows
  | .ialloc inum type, _ =>
    if (s.disk inum).type = 0 then
      some (s.setDisk inum { Dinode.zero with type := type })
    else none
  | .ilock h, .idle =>
    (s.ptr h).bind fun i => if (s.inode i).ref < 1 then none else some (s.goto a (.waiting h))
  | .grab, .waiting h =>
    (s.ptr h).map fun i =>
      if (s.inode i).busy then s
      else (s.setInode i { s.inode i with busy := true }).goto a
        (if (s.inode i).valid then .locked h true else .loading h)
  | .load, .loading h =>
    (s.ptr h).bind fun i =>
      let d := s.disk (s.inode i).inum
      if d.type = 0 then none
      else some ((s.setInode i { s.inode i with d := d, valid := true }).goto a (.locked h true))
  | .edit d, .locked h _ =>
    (s.ptr h).map fun i => (s.setInode i { s.inode i with d := d }).goto a (.locked h false)
  | .iupdate, .locked h _ =>
    (s.ptr h).map fun i => (s.setDisk (s.inode i).inum (s.inode i).d).goto a (.locked h true)
  | .iunlock, .locked h _ =>
    (s.ptr h).bind fun i =>
      if (s.inode i).busy = false ∨ (s.inode i).ref < 1 then none
      else some ((s.setInode i { s.inode i with busy := false }).goto a .idle)
  | .iput h, .idle =>
    (s.ptr h).bind fun i =>
      let e := s.inode i
      if e.ref = 1 ∧ e.valid ∧ e.d.nlink = 0 then
        if e.busy then none else some ((s.setInode i { e with busy := true }).goto a (.freeing h))
      else some ((s.setInode i { e with ref := e.ref - 1 }).setPtr h none)
  -- `itrunc` and the last `iupdate`
  | .free, .freeing h =>
    (s.ptr h).map fun i =>
      let d := { (s.inode i).d with type := 0, size := 0, addrs := fun _ => 0 }
      ((s.setInode i { s.inode i with d := d }).setDisk (s.inode i).inum d).goto a (.freed h)
  | .finish, .freed h =>
    (s.ptr h).map fun i =>
      let e := { s.inode i with busy := false, valid := false, ref := (s.inode i).ref - 1 }
      ((s.setInode i e).setPtr h none).goto a .idle
  | _, _ => none

end Sys

def Pc.uses : Pc H → Option H
  | .idle => none
  | .waiting h | .loading h | .locked h _ | .freeing h | .freed h => some h

/-- What the callers see to: nobody uses a reference that is being dropped or drops one in use, only
`iput` frees an inode, and a changed copy goes to disk before it is unlocked. -/
def Sys.Allowed (s : Sys A H) (a : A) : Event H → Prop
  | .ilock h | .idup h _ => ∀ b, s.pc b ≠ .freeing h ∧ s.pc b ≠ .freed h
  | .iput h => ∀ b, (s.pc b).uses ≠ some h
  | .edit d => d.type ≠ 0
  | .ialloc _ type => type ≠ 0
  | .iunlock => ∀ h, s.pc a ≠ .locked h false
  | _ => True

def Step [DecidableEq A] [DecidableEq H] (s : Sys A H) (e : A × Event H) (s' : Sys A H) : Prop :=
  s.Allowed e.1 e.2 ∧ s.exec e.1 e.2 = some s'

end Xv6.Icache
