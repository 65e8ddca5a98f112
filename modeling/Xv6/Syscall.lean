import Xv6.Machine

/-!
# System-call arguments

`fetchint`, `fetchstr`, `argint`, `argptr` and `argstr`, and the calls that use a pointer they were
given. A computation logs the user addresses the kernel touches on the way; `none` is a return of
-1.
-/

namespace Xv6

/-- A computation that touches user memory and may give up. -/
structure Touch (α : Type) where
  log : List Word
  val : Option α

namespace Touch

variable {α β : Type}

instance : Monad Touch where
  pure a := ⟨[], some a⟩
  bind x f :=
    match x.val with
    | none => ⟨x.log, none⟩
    | some a => ⟨x.log ++ (f a).log, (f a).val⟩

def fail : Touch α := ⟨[], none⟩

def bytes (p : Word) (n : Nat) : Touch Unit :=
  ⟨(List.range n).map fun k => p + BitVec.ofNat 32 k, some ()⟩

/-- Touch the bytes at the given offsets from `p`. -/
def fields (p : Word) (offsets : List Nat) : Touch Unit :=
  ⟨offsets.map fun k => p + BitVec.ofNat 32 k, some ()⟩

end Touch

/-- What is behind a descriptor. For a pipe or a device, `avail` is how many bytes the other side
supplies or takes before the call ends. -/
inductive FileKind
  | pipe (avail : Nat)
  | device (avail : Nat)
  | data (off size : Word)

structure FileView where
  readable : Bool
  writable : Bool
  kind : FileKind

def nofile : Nat := 16

/-- The memory of a process, its size, its saved stack pointer and its open files. `allocuvm` keeps
the size at or below the kernel. -/
structure UserProc where
  sz : Word
  sz_le : sz.toNat ≤ kernBase
  esp : Word
  mem : Word → BitVec 8
  ofile : Nat → Option FileView

namespace UserProc

variable (u : UserProc)

def wordAt (addr : Word) : Word :=
  (u.mem (addr + 3)).setWidth 32 <<< 24 ||| (u.mem (addr + 2)).setWidth 32 <<< 16 |||
    (u.mem (addr + 1)).setWidth 32 <<< 8 ||| (u.mem addr).setWidth 32

def fetchint (addr : Word) : Touch Word :=
  if u.sz ≤ addr ∨ u.sz < addr + 4 then .fail
  else do
    .bytes addr 4
    pure (u.wordAt addr)

/-- The scan of `fetchstr` for the terminating zero, over the addresses left. -/
def fetchstrScan (s : Word) : Nat → Touch Unit
  | 0 => .fail
  | left + 1 => do
    .bytes s 1
    if u.mem s = 0 then pure () else fetchstrScan (s + 1) left

def fetchstr (addr : Word) : Touch Unit :=
  if u.sz ≤ addr then .fail else u.fetchstrScan addr (u.sz.toNat - addr.toNat)

def argint (n : Nat) : Touch Word := u.fetchint (u.esp + 4 + BitVec.ofNat 32 (4 * n))

/-- `size` is an `int`; the sum is unsigned. -/
def argptr (n : Nat) (size : Word) : Touch Word := do
  let i ← u.argint n
  if u.sz ≤ i ∨ u.sz < i + size then .fail else pure i

def argstr (n : Nat) : Touch Unit := do
  let addr ← u.argint n
  u.fetchstr addr

/-- The descriptor is an `int`. -/
def argfd (n : Nat) : Touch FileView := do
  let fd ← u.argint n
  if fd.toInt < 0 ∨ (nofile : Int) ≤ fd.toInt then .fail
  else
    match u.ofile fd.toNat with
    | none => .fail
    | some f => pure f

/-- `readi`: the length is unsigned and clipped by the size of the file. -/
def readi (dst off size n : Word) : Touch Unit :=
  if size < off ∨ off + n < off then .fail
  else if size < off + n then .bytes dst (size - off).toNat
  else .bytes dst n.toNat

def fileread (f : FileView) (addr n : Word) : Touch Unit :=
  if !f.readable then .fail
  else
    match f.kind with
    | .pipe avail => .bytes addr (min avail n.toInt.toNat)
    | .device avail => .bytes addr (min avail n.toInt.toNat)
    | .data off size => readi addr off size n

def maxWrite : Nat := 3 * 512

def maxFile : Nat := (12 + 128) * 512

/-- The loop of `filewrite` over pieces of at most `maxWrite` bytes: `i` bytes are done, and
`writei` gives up where the file would grow too large. -/
def filewriteLoop (addr off : Word) (n : Nat) : Nat → Nat → Touch Unit
  | 0, _ => pure ()
  | fuel + 1, i =>
    if i < n then do
      let n1 := min (n - i) maxWrite
      let at' := off + BitVec.ofNat 32 i
      if at' + BitVec.ofNat 32 n1 < at' ∨
          BitVec.ofNat 32 maxFile < at' + BitVec.ofNat 32 n1 then .fail
      else do
        .bytes (addr + BitVec.ofNat 32 i) n1
        filewriteLoop addr off n fuel (i + n1)
    else pure ()

def filewrite (f : FileView) (addr n : Word) : Touch Unit :=
  if !f.writable then .fail
  else
    match f.kind with
    | .pipe avail => .bytes addr (min avail n.toInt.toNat)
    | .device avail => .bytes addr (min avail n.toInt.toNat)
    | .data off size =>
      if size < off then .fail
      else filewriteLoop addr off n.toInt.toNat (n.toInt.toNat + 1) 0

def sysRead : Touch Unit := do
  let f ← u.argfd 0
  let n ← u.argint 2
  let p ← u.argptr 1 n
  fileread f p n

def sysWrite : Touch Unit := do
  let f ← u.argfd 0
  let n ← u.argint 2
  let p ← u.argptr 1 n
  filewrite f p n

def statSize : Nat := 20

/-- The bytes of the fields `type`, `dev`, `ino`, `nlink` and `size`. -/
def statFields : List Nat := [4, 5, 6, 7, 8, 9, 10, 11, 0, 1, 12, 13, 16, 17, 18, 19]

def filestat (f : FileView) (st : Word) : Touch Unit :=
  match f.kind with
  | .pipe _ => .fail
  | .device _ | .data _ _ => .fields st statFields

def sysFstat : Touch Unit := do
  let f ← u.argfd 0
  let st ← u.argptr 1 (BitVec.ofNat 32 statSize)
  filestat f st

/-- `fds` says whether `pipealloc` and `fdalloc` succeed. -/
def sysPipe (fds : Bool) : Touch Unit := do
  let fd ← u.argptr 0 8
  if fds then .bytes fd 8 else .fail

def maxarg : Nat := 32

/-- The argument loop of `sys_exec`, with the slots of `argv` left. -/
def execArgs (uargv : Word) : Nat → Nat → Touch Unit
  | 0, _ => .fail
  | left + 1, i => do
    let uarg ← u.fetchint (uargv + BitVec.ofNat 32 (4 * i))
    if uarg = 0 then pure ()
    else do
      u.fetchstr uarg
      execArgs uargv left (i + 1)

/-- `sys_exec` up to the call of `exec`. -/
def sysExec : Touch Unit := do
  u.argstr 0
  let uargv ← u.argint 1
  u.execArgs uargv maxarg 0

end UserProc

end Xv6
