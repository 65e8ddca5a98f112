import Xv6.Syscall
import Xv6.Lib.Run

/-!
# Open files and pipes

`ftable`, the descriptors of the processes, and the pages of the pipes behind them. A call is one
step, except for a read or a write, which touches its file again and again while other processes
make calls. Every pipe gets a number of its own, so that a page that is used again is told apart. An
access to a pipe that is no longer there is recorded, and so is a panic.
-/

namespace Xv6

def nfile : Nat := 100

instance : NeZero nofile := ⟨by decide⟩

inductive FileType
  | none
  | pipe
  | inode
  deriving DecidableEq

/-- `pipe` is the page of the pipe and `pipeId` its number. -/
structure File where
  type : FileType
  ref : Nat
  readable : Bool
  writable : Bool
  pipe : Nat
  pipeId : Nat

structure PipePage where
  id : Nat
  readopen : Bool
  writeopen : Bool

def PipePage.opened (p : PipePage) (writable : Bool) : Bool :=
  if writable then p.writeopen else p.readopen

def PipePage.shut (p : PipePage) (writable : Bool) : PipePage :=
  if writable then { p with writeopen := false } else { p with readopen := false }

abbrev Fd := Fin nproc × Fin nofile

structure FileSys where
  file : Fin nfile → File
  ofile : Fd → Option (Fin nfile)
  running : Fin nproc → Bool
  /-- The file a process is reading or writing. -/
  inCall : Fin nproc → Option (Fin nfile)
  free : List Nat
  /-- The pages the rest of the kernel has taken from the allocator. -/
  taken : List Nat
  pipe : Nat → Option PipePage
  nextPipe : Nat
  /-- The pipes whose page has been freed. -/
  freed : List Nat
  panicked : Bool
  stale : Bool

namespace FileSys

/-- One process, no open file, and the pages of the allocator. -/
def init (first : Fin nproc) (pages : List Nat) : FileSys where
  file _ :=
    { type := .none, ref := 0, readable := false, writable := false, pipe := 0, pipeId := 0 }
  ofile _ := none
  running p := p = first
  inCall _ := none
  free := pages
  taken := []
  pipe _ := none
  nextPipe := 0
  freed := []
  panicked := false
  stale := false

variable (s : FileSys)

def setFile (f : Fin nfile) (e : File) : FileSys := { s with file := Function.update s.file f e }

def setFd (x : Fd) (f : Option (Fin nfile)) : FileSys :=
  { s with ofile := Function.update s.ofile x f }

def filealloc : Option (Fin nfile) × FileSys :=
  match (List.finRange nfile).find? fun f => decide ((s.file f).ref = 0) with
  | none => (none, s)
  | some f => (some f, s.setFile f { s.file f with ref := 1 })

def filedup (f : Fin nfile) : FileSys :=
  if (s.file f).ref < 1 then { s with panicked := true }
  else s.setFile f { s.file f with ref := (s.file f).ref + 1 }

def freePipe (page id : Nat) : FileSys :=
  { s with
    pipe := Function.update s.pipe page none
    free := page :: s.free
    freed := s.freed ++ [id] }

def pipeclose (page id : Nat) (writable : Bool) : FileSys :=
  match s.pipe page with
  | none => { s with stale := true }
  | some p =>
    if p.id ≠ id then { s with stale := true }
    else
      let p' := p.shut writable
      if p'.readopen = false ∧ p'.writeopen = false then s.freePipe page id
      else { s with pipe := Function.update s.pipe page (some p') }

def fileclose (f : Fin nfile) : FileSys :=
  if (s.file f).ref < 1 then { s with panicked := true }
  else if 0 < (s.file f).ref - 1 then s.setFile f { s.file f with ref := (s.file f).ref - 1 }
  else
    let ff := s.file f
    let s1 := s.setFile f { s.file f with ref := 0, type := .none }
    match ff.type with
    | .pipe => s1.pipeclose ff.pipe ff.pipeId ff.writable
    | _ => s1

/-- The end of `pipealloc`: the pipe in its page, and the two files for its ends. -/
def pipeInit (page : Nat) (f0 f1 : Fin nfile) : FileSys :=
  let s1 := { s with
    pipe := Function.update s.pipe page (some ⟨s.nextPipe, true, true⟩)
    nextPipe := s.nextPipe + 1 }
  let s2 := s1.setFile f0 { s1.file f0 with
    type := .pipe, readable := true, writable := false, pipe := page, pipeId := s.nextPipe }
  s2.setFile f1 { s2.file f1 with
    type := .pipe, readable := false, writable := true, pipe := page, pipeId := s.nextPipe }

def pipealloc : Option (Fin nfile × Fin nfile) × FileSys :=
  match s.filealloc with
  | (none, s1) => (none, s1)
  | (some f0, s1) =>
    match s1.filealloc with
    | (none, s2) => (none, s2.fileclose f0)
    | (some f1, s2) =>
      match s2.free with
      | [] => (none, (s2.fileclose f0).fileclose f1)
      | page :: rest => (some (f0, f1), { s2 with free := rest }.pipeInit page f0 f1)

def fdalloc (p : Fin nproc) (f : Fin nfile) : Option (Fin nofile) × FileSys :=
  match (List.finRange nofile).find? fun fd => (s.ofile (p, fd)).isNone with
  | none => (none, s)
  | some fd => (some fd, s.setFd (p, fd) (some f))

def sysDup (p : Fin nproc) (fd : Fin nofile) : FileSys :=
  match s.ofile (p, fd) with
  | none => s
  | some f =>
    match s.fdalloc p f with
    | (none, s1) => s1
    | (some _, s1) => s1.filedup f

def sysClose (p : Fin nproc) (fd : Fin nofile) : FileSys :=
  match s.ofile (p, fd) with
  | none => s
  | some f => (s.setFd (p, fd) none).fileclose f

def sysOpen (p : Fin nproc) (readable writable : Bool) : FileSys :=
  match s.filealloc with
  | (none, s1) => s1
  | (some f, s1) =>
    match s1.fdalloc p f with
    | (none, s2) => s2.fileclose f
    | (some _, s2) =>
      s2.setFile f { s2.file f with type := .inode, readable := readable, writable := writable }

def sysPipe (p : Fin nproc) : FileSys :=
  match s.pipealloc with
  | (none, s1) => s1
  | (some (rf, wf), s1) =>
    match s1.fdalloc p rf with
    | (none, s2) => (s2.fileclose rf).fileclose wf
    | (some fd0, s2) =>
      match s2.fdalloc p wf with
      | (none, s3) => ((s3.setFd (p, fd0) none).fileclose rf).fileclose wf
      | (some _, s3) => s3

def forkFd (p np : Fin nproc) (s : FileSys) (fd : Fin nofile) : FileSys :=
  match s.ofile (p, fd) with
  | none => s
  | some f => (s.filedup f).setFd (np, fd) (some f)

/-- `fork` with a free slot; the failures come before it touches files. -/
def fork (p np : Fin nproc) : FileSys :=
  { (List.finRange nofile).foldl (forkFd p np) s with running := Function.update s.running np true }

def exitFd (p : Fin nproc) (s : FileSys) (fd : Fin nofile) : FileSys :=
  match s.ofile (p, fd) with
  | none => s
  | some f => (s.fileclose f).setFd (p, fd) none

def exit (p : Fin nproc) : FileSys :=
  { (List.finRange nofile).foldl (exitFd p) s with running := Function.update s.running p false }

def touch (f : Fin nfile) : FileSys :=
  match (s.file f).type with
  | .pipe =>
    match s.pipe (s.file f).pipe with
    | none => { s with stale := true }
    | some p => if p.id ≠ (s.file f).pipeId then { s with stale := true } else s
  | _ => s

end FileSys

/-- `start`, `touch` and `finish` are a read or a write. `kalloc` and `kfree` are those of the rest
of the kernel. -/
inductive FileEvent
  | openFile (p : Fin nproc) (found readable writable : Bool)
  | pipe (p : Fin nproc)
  | dup (p : Fin nproc) (fd : Fin nofile)
  | close (p : Fin nproc) (fd : Fin nofile)
  | fork (p np : Fin nproc)
  | exit (p : Fin nproc)
  | start (p : Fin nproc) (fd : Fin nofile)
  | touch (p : Fin nproc)
  | finish (p : Fin nproc)
  | kalloc
  | kfree (page : Nat)

namespace FileSys

def ready (s : FileSys) (p : Fin nproc) : Prop := s.running p = true ∧ s.inCall p = none

instance (s : FileSys) (p : Fin nproc) : Decidable (s.ready p) :=
  inferInstanceAs (Decidable (_ ∧ _))

def exec (s : FileSys) : FileEvent → Option FileSys
  | .openFile p found readable writable =>
    if s.ready p then some (if found then s.sysOpen p readable writable else s) else none
  | .pipe p => if s.ready p then some (s.sysPipe p) else none
  | .dup p fd => if s.ready p then some (s.sysDup p fd) else none
  | .close p fd => if s.ready p then some (s.sysClose p fd) else none
  | .fork p np => if s.ready p ∧ s.running np = false then some (s.fork p np) else none
  | .exit p => if s.ready p then some (s.exit p) else none
  | .start p fd =>
    if s.ready p then
      match s.ofile (p, fd) with
      | none => some s
      | some f => some { s with inCall := Function.update s.inCall p (some f) }
    else none
  | .touch p =>
    match s.inCall p with
    | none => none
    | some f => some (s.touch f)
  | .finish p => some { s with inCall := Function.update s.inCall p none }
  | .kalloc =>
    match s.free with
    | [] => some s
    | page :: rest => some { s with free := rest, taken := page :: s.taken }
  | .kfree page =>
    if page ∈ s.taken then some { s with free := page :: s.free, taken := s.taken.erase page }
    else none

end FileSys

def FileStep (s : FileSys) (e : FileEvent) (s' : FileSys) : Prop := s.exec e = some s'

end Xv6
