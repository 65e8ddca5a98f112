import Xv6.Machine
import Xv6.Lib.Ring
import Xv6.Lib.Run

/-!
# The buffer cache

`binit`, `bget`, `bread`, `bwrite` and `brelse` for any number of processes, with the list of
buffers as its pointers. A section under `bcache.lock` is one step, and so is a transfer of the disk
driver; a process that finds its buffer busy sleeps and scans again. `log_write` marks a buffer
after it has copied it into the log by the other operations. Beside the cache stands the content
last left for each sector by `bwrite` or `log_write`.
-/

namespace Xv6

abbrev Sector := Word × Word

/-- The device of a buffer that holds no sector (-1). -/
def noDevice : Word := 0xffffffff

structure CacheBuf (B : Type) where
  key : Sector
  busy : Bool
  valid : Bool
  dirty : Bool
  data : B

/-- Where a process is: between operations, about to scan in `bget`, asleep there on a busy buffer,
or in `iderw` from `bread` or from `bwrite`. -/
inductive BufPc (n : Nat)
  | idle
  | getting (k : Sector)
  | waiting (b : Fin n) (k : Sector)
  | reading (b : Fin n) (k : Sector)
  | writing (b : Fin n)
  deriving DecidableEq

structure Bcache (n : Nat) (ι B : Type) where
  links : Links (Fin n)
  buf : Fin n → CacheBuf B
  disk : Sector → B
  pc : ι → BufPc n
  /-- The buffers a process has obtained and not released. -/
  held : ι → List (Fin n)
  left : Sector → B
  /-- Whether a buffer was changed after what was last left for its sector. -/
  modified : Fin n → Bool

namespace Bcache

variable {n : Nat} {ι B : Type} [DecidableEq ι]

def binit (n : Nat) : Links (Fin n) :=
  (List.finRange n).foldl Links.insertFront ⟨fun _ => none, fun _ => none⟩

def init (data : Fin n → B) (disk : Sector → B) : Bcache n ι B where
  links := binit n
  buf b := { key := (noDevice, 0), busy := false, valid := false, dirty := false, data := data b }
  disk := disk
  pc _ := .idle
  held _ := []
  left := disk
  modified _ := false

variable (s : Bcache n ι B)

def setBuf (b : Fin n) (c : CacheBuf B) : Bcache n ι B :=
  { s with buf := Function.update s.buf b c }

def goto (p : ι) (pc : BufPc n) : Bcache n ι B := { s with pc := Function.update s.pc p pc }

def wakeup (b : Fin n) : Bcache n ι B :=
  { s with pc := fun q =>
      match s.pc q with
      | .waiting c k => if c = b then .getting k else .waiting c k
      | pc => pc }

/-- The first loop of `bget`, from the most recently used buffer on. -/
def lookup (k : Sector) : Option (Fin n) :=
  (walk s.links.next n (s.links.next none)).find? fun b => decide ((s.buf b).key = k)

/-- The second loop of `bget`, from the least recently used buffer on. -/
def recycle : Option (Fin n) :=
  (walk s.links.prev n (s.links.prev none)).find? fun b => !(s.buf b).busy && !(s.buf b).dirty

/-- The buffer becomes busy for the process; `bread` goes on to `iderw` if it is not valid. -/
def take (p : ι) (b : Fin n) (k : Sector) (c : CacheBuf B) : Bcache n ι B :=
  { (s.setBuf b { c with busy := true }).goto p (if c.valid then .idle else .reading b k) with
    held := Function.update s.held p (b :: s.held p) }

/-- The section of `bget` under `bcache.lock`. `none` is the panic "bget: no buffers". -/
def bget (p : ι) (k : Sector) : Option (Bcache n ι B) :=
  match s.lookup k with
  | some b => some (if (s.buf b).busy then s.goto p (.waiting b k) else s.take p b k (s.buf b))
  | none =>
    match s.recycle with
    | none => none
    | some b =>
      let c := { s.buf b with key := k, valid := false, dirty := false }
      some ({ s with modified := Function.update s.modified b false }.take p b k c)

/-- The driver has filled the buffer, and its `iderw` returns. -/
def ideread (p : ι) (b : Fin n) : Bcache n ι B :=
  ((s.setBuf b { s.buf b with
    data := s.disk (s.buf b).key, valid := true, dirty := false }).goto p .idle).wakeup b

/-- The driver has written the buffer, and its `iderw` returns. -/
def idewrite (p : ι) (b : Fin n) : Bcache n ι B :=
  (({ s with disk := Function.update s.disk (s.buf b).key (s.buf b).data }.setBuf b { s.buf b with
    valid := true, dirty := false }).goto p .idle).wakeup b

/-- `B_DIRTY` is set on a buffer whose content is thereby left for its sector. -/
def leave (b : Fin n) : Bcache n ι B :=
  { s.setBuf b { s.buf b with dirty := true } with
    left := Function.update s.left (s.buf b).key (s.buf b).data
    modified := Function.update s.modified b false }

def bwrite (p : ι) (b : Fin n) : Bcache n ι B := (s.leave b).goto p (.writing b)

def modify (b : Fin n) (data : B) : Bcache n ι B :=
  { s.setBuf b { s.buf b with data := data } with
    modified := Function.update s.modified b true }

def brelse (p : ι) (b : Fin n) : Bcache n ι B :=
  { (s.setBuf b { s.buf b with busy := false }).wakeup b with
    links := (s.links.unlink b).insertFront b
    held := Function.update s.held p ((s.held p).erase b) }

end Bcache

inductive BufEvent (n : Nat) (ι B : Type)
  | bread (p : ι) (k : Sector)
  | bget (p : ι)
  | ideread (p : ι)
  | modify (p : ι) (b : Fin n) (data : B)
  | bwrite (p : ι) (b : Fin n)
  | idewrite (p : ι)
  | logWrite (p : ι) (b : Fin n)
  | brelse (p : ι) (b : Fin n)

namespace Bcache

variable {n : Nat} {ι B : Type} [DecidableEq ι]

/-- The process is between operations and holds the buffer. -/
def holding (s : Bcache n ι B) (p : ι) (b : Fin n) : Prop := s.pc p = .idle ∧ b ∈ s.held p

instance (s : Bcache n ι B) (p : ι) (b : Fin n) : Decidable (s.holding p b) :=
  inferInstanceAs (Decidable (_ ∧ _))

/-- A buffer that was changed is written or logged before it is released. -/
def exec (s : Bcache n ι B) : BufEvent n ι B → Option (Bcache n ι B)
  | .bread p k => if s.pc p = .idle ∧ k.1 ≠ noDevice then some (s.goto p (.getting k)) else none
  | .bget p =>
    match s.pc p with
    | .getting k => s.bget p k
    | _ => none
  | .ideread p =>
    match s.pc p with
    | .reading b _ => some (s.ideread p b)
    | _ => none
  | .modify p b data => if s.holding p b then some (s.modify b data) else none
  | .bwrite p b => if s.holding p b then some (s.bwrite p b) else none
  | .idewrite p =>
    match s.pc p with
    | .writing b => some (s.idewrite p b)
    | _ => none
  | .logWrite p b => if s.holding p b then some (s.leave b) else none
  | .brelse p b => if s.holding p b ∧ s.modified b = false then some (s.brelse p b) else none

/-- The sector asked for and the buffer returned, if a `bread` returns in this step. -/
def result (s : Bcache n ι B) : BufEvent n ι B → Option (Sector × Fin n)
  | .bget p =>
    match s.pc p with
    | .getting k =>
      match s.lookup k with
      | some b => if !(s.buf b).busy && (s.buf b).valid then some (k, b) else none
      | none => none
    | _ => none
  | .ideread p =>
    match s.pc p with
    | .reading b k => some (k, b)
    | _ => none
  | _ => none

end Bcache

def BufStep {n : Nat} {ι B : Type} [DecidableEq ι] (s : Bcache n ι B) (e : BufEvent n ι B)
    (s' : Bcache n ι B) : Prop :=
  s.exec e = some s'

end Xv6
