import Mathlib.Data.List.FinRange
import Xv6.Vm

/-!
# Processes and copy-on-write

`fork`, `exit`, `wait` and the page-fault service of `proc.c`. The current process is a parameter.
The kernel runs on the current process's page directory, so an access through a null pointer is an
access to the process's own memory at that address; where that memory does not allow it the kernel
faults, and a fault in the kernel ends in `panic`.
-/

namespace Xv6

namespace Machine

/-- The page behind a user address, for an access by the kernel. -/
def userPage (s : Machine) (cur : Fin nproc) (va : Nat) : Option Nat :=
  let pde := s.word (s.proc cur).pgdir (pdx va)
  let pte := s.word (pteAddr pde) (ptx va)
  if pde.present && pte.present then some (pteAddr pte) else none

def userWord (s : Machine) (cur : Fin nproc) (va : Nat) : Option Word :=
  (s.userPage cur va).map fun page => s.word page (va % pgSize / 4)

/-- `pgdir[i]`. -/
def dirEntry (s : Machine) (cur : Fin nproc) (pgdir i : Nat) : Option Word :=
  if pgdir = 0 then s.userWord cur (4 * i) else some (s.word pgdir i)

def wpgdir (s : Machine) (cur : Fin nproc) (pgdir va : Nat) : Option PtePtr :=
  (s.dirEntry cur pgdir (pdx va)).map fun pde =>
    if pde.present then some (pteAddr pde, ptx va) else none

/-- `*pte`. -/
def loadPte (s : Machine) (cur : Fin nproc) : PtePtr → Option Word
  | none => s.userWord cur 0
  | some (pgtab, i) => some (s.word pgtab i)

end Machine

/-- A store by the kernel to a user address; `CR0_WP` makes it heed the write bits. -/
def storeUser (cur : Fin nproc) (va : Nat) (w : Word) : Kernel Machine Unit := do
  let s ← Kernel.get
  let pde := s.word (s.proc cur).pgdir (pdx va)
  let pte := s.word (pteAddr pde) (ptx va)
  if pde.present && pde.writable && pte.present && pte.writable then
    Kernel.modify fun s => s.setWord (pteAddr pte) (va % pgSize / 4) w
  else Kernel.panic "trap"

inductive SharedMemoryLevel
  | directory
  | table
  | frame
  | nothing
  deriving DecidableEq

/-- The scan of `isshared` over the remaining slots; `none` is a fault on the way. -/
def issharedScan (s : Machine) (cur : Fin nproc) (cr2 : Nat) :
    List (Fin nproc) → Option SharedMemoryLevel
  | [] => some .nothing
  | p :: rest =>
    if (s.proc p).pid = 0 then some .nothing
    else if (s.proc p).state = .zombie ∨ p = cur then issharedScan s cur cr2 rest
    else if (s.proc cur).pgdir = (s.proc p).pgdir then some .directory
    else do
      let tablaProc ← s.dirEntry cur (s.proc cur).pgdir (pdx cr2)
      let tablaP ← s.dirEntry cur (s.proc p).pgdir (pdx cr2)
      if tablaProc = tablaP then some .table
      else do
        let pteProc ← s.loadPte cur (← s.wpgdir cur (s.proc cur).pgdir cr2)
        let pteP ← s.loadPte cur (← s.wpgdir cur (s.proc p).pgdir cr2)
        if pteProc = pteP then some .frame else issharedScan s cur cr2 rest

def isshared (s : Machine) (cur : Fin nproc) (cr2 : Nat) : Option SharedMemoryLevel :=
  issharedScan s cur cr2 (List.finRange nproc)

/-- One page of the loop of `unlinkzombiesharedmemory`, for slot `p`. -/
def unlinkPage (cur p zombie : Fin nproc) (a : Nat) : Kernel Machine Unit := do
  let s ← Kernel.get
  let va := a * pgSize
  let entries := do
    let pteP ← s.wpgdir cur (s.proc p).pgdir va
    let ptePZ ← s.wpgdir cur (s.proc zombie).pgdir va
    let tablaP ← s.dirEntry cur (s.proc p).pgdir (pdx va)
    let tablaPZ ← s.dirEntry cur (s.proc zombie).pgdir (pdx va)
    pure (← s.loadPte cur pteP, ← s.loadPte cur ptePZ, ptePZ, tablaP, tablaPZ)
  match entries with
  | none => Kernel.panic "trap"
  | some (wordP, wordPZ, ptePZ, tablaP, tablaPZ) =>
    if wordP = wordPZ then
      if tablaPZ ≠ 0 ∧ tablaP = tablaPZ then
        if (s.proc zombie).pgdir = 0 then storeUser cur (4 * pdx va) 0
        else Kernel.modify fun s => s.setWord (s.proc zombie).pgdir (pdx va) 0
      else
        match ptePZ with
        | none => storeUser cur 0 0
        | some (pgtab, i) => Kernel.modify fun s => s.setWord pgtab i 0
    else pure ()

def unlinkScan (cur zombie : Fin nproc) : List (Fin nproc) → Kernel Machine Unit
  | [] => pure ()
  | p :: rest => do
    let s ← Kernel.get
    if (s.proc p).pid = 0 then pure ()
    else if p = zombie then unlinkScan cur zombie rest
    else do
      Kernel.forEach (List.range (npages (s.proc zombie).sz)) (unlinkPage cur p zombie)
      unlinkScan cur zombie rest

def unlinkzombiesharedmemory (cur zombie : Fin nproc) : Kernel Machine Unit :=
  unlinkScan cur zombie (List.finRange nproc)

def modifyProc (p : Fin nproc) (f : Proc → Proc) : Kernel Machine Unit :=
  Kernel.modify fun s => s.setProc p (f (s.proc p))

/-- `memmove(frame, (char*)PGROUNDDOWN(va), PGSIZE)`. -/
def copyUserPage (cur : Fin nproc) (frame va : Nat) : Kernel Machine Unit := do
  let s ← Kernel.get
  match s.userPage cur (pgRoundDown va) with
  | none => Kernel.panic "trap"
  | some page => Kernel.modify fun s => s.setPage frame (s.word page)

/-- `memmove(dir, src, PGSIZE/2 - 1)`: the entries 0 to 510 and three bytes of entry 511. -/
def copyHalfDirectory (dir src : Nat) : Kernel Machine Unit :=
  Kernel.modify fun s => s.setPage dir fun i =>
    if i < 511 then s.word src i
    else if i = 511 then (s.word dir i &&& 0xFF000000) ||| (s.word src i &&& 0x00FFFFFF)
    else s.word dir i

def kallocOr (msg : String) : Kernel Machine Nat := do
  match ← kalloc with
  | none => Kernel.panic msg
  | some page => pure page

/-- Store an entry through `wpgdir(pgdir, va, 0)`, where the table was just installed. -/
def storePte (pgdir va : Nat) (w : Word) : Kernel Machine Unit := do
  match ← walkpgdir pgdir va false with
  | none => Kernel.panic "trap"
  | some (pgtab, i) => Kernel.modify fun s => s.setWord pgtab i w

/-- The copy of the faulting frame, shared by `copystackpage` and `copypage`: a fresh page with the
contents of the page at `va` is entered for `va` in `pgdir`. -/
def copyFrame (msg : String) (cur : Fin nproc) (pgdir va : Nat) : Kernel Machine Unit := do
  let frame ← kallocOr msg
  clearPage frame
  copyUserPage cur frame va
  storePte pgdir va (mkEntry frame (pteW ||| pteU ||| pteP))

/-- The table of the child for `rcr2`, a copy of the parent's. -/
def copyStackTable (rcr2 pgdir dir : Nat) : Kernel Machine Unit := do
  let s ← Kernel.get
  let pde := s.word pgdir (pdx rcr2)
  if !pde.present then Kernel.panic "copystackpage. Page table (pte) should be present"
  else do
    let tabla ← kallocOr "kalloc on copystackpage"
    clearPage tabla
    setdtew pgdir rcr2
    setdtew dir rcr2
    copyPageOf tabla (pteAddr pde)
    Kernel.modify fun s => s.setWord dir (pdx rcr2) (mkEntry tabla (pteW ||| pteU ||| pteP))

def copystackpage (rcr2 : Nat) (cur np : Fin nproc) : Kernel Machine Unit := do
  match ← setupkvm with
  | none => Kernel.panic "trap"
  | some dir => do
    let s ← Kernel.get
    copyHalfDirectory dir (s.proc cur).pgdir
    modifyProc np fun q => { q with pgdir := dir }
    copyStackTable rcr2 (s.proc cur).pgdir dir
    copyFrame "kalloc on copystackpage" cur dir rcr2

/-- The `TABLE` case of `copypage`, which falls through to the other two. -/
def copyTable (pgdir cr2 : Nat) : Kernel Machine Unit := do
  let s ← Kernel.get
  let pde := s.word pgdir (pdx cr2)
  if !pde.present then Kernel.panic "copypage. Page table (pte) should be present"
  else do
    let tabla ← kallocOr "kalloc on copypage"
    clearPage tabla
    copyPageOf tabla (pteAddr pde)
    Kernel.modify fun s => s.setWord pgdir (pdx cr2) (mkEntry tabla (pteW ||| pteU ||| pteP))

def copypage (cur : Fin nproc) (cr2 : Nat) : Kernel Machine Unit := do
  let s ← Kernel.get
  let pgdir := (s.proc cur).pgdir
  match isshared s cur cr2 with
  | none => Kernel.panic "trap"
  | some .directory => Kernel.panic "proc should have its own pgdir"
  | some .table => do
    copyTable pgdir cr2
    copyFrame "kalloc on copypage" cur pgdir cr2
    setptew pgdir (pgRoundDown cr2)
  | some .frame => do
    copyFrame "kalloc on copypage" cur pgdir cr2
    setptew pgdir (pgRoundDown cr2)
  | some .nothing => setptew pgdir (pgRoundDown cr2)

def trapCOW (cur : Fin nproc) (cr2 : Nat) : Kernel Machine Unit := copypage cur cr2

/-- A slot that fails to get a kernel stack keeps the pid it was given. -/
def allocproc : Kernel Machine (Option (Fin nproc)) := do
  let s ← Kernel.get
  match (List.finRange nproc).find? fun p => (s.proc p).state = .unused with
  | none => pure none
  | some p => do
    Kernel.modify fun s =>
      { s.setProc p { s.proc p with state := .embryo, pid := s.nextpid } with
        nextpid := s.nextpid + 1 }
    match ← kalloc with
    | none => do
      modifyProc p fun q => { q with kstack := 0, state := .unused }
      pure none
    | some kstack => do
      modifyProc p fun q => { q with kstack := kstack }
      pure (some p)

/-- The processes that `fork` copies eagerly: `strncmp(name, "sh", 2)` and `strncmp(name, "init",
2)` compare two characters. -/
def ownMemory (name : String) : Bool :=
  name.toList.take 2 = ['s', 'h'] ∨ name.toList.take 2 = ['i', 'n']

/-- The pages whose write bits `fork` clears: `for (i = 0; i < proc->sz - PGSIZE; i += PGSIZE)`. -/
def clearedPages (sz : Nat) : Nat := npages ((sz + 2 ^ 32 - pgSize) % 2 ^ 32)

/-- One iteration of the loop of `fork` that clears the write bits. -/
def clearWrite (pgdir a : Nat) : Kernel Machine Unit := do
  cleardtew pgdir (a * pgSize)
  clearptew pgdir (a * pgSize)

/-- The copy-on-write branch of `fork`, after `allocproc`. -/
def forkCOW (cur np : Fin nproc) : Kernel Machine Unit := do
  let s ← Kernel.get
  let n := clearedPages (s.proc cur).sz
  Kernel.forEach (List.range n) (clearWrite (s.proc cur).pgdir)
  copystackpage (n * pgSize) cur np

def finishFork (cur np : Fin nproc) : Kernel Machine Word := do
  let s ← Kernel.get
  modifyProc np fun q => { q with
    sz := (s.proc cur).sz, parent := some cur, state := .runnable, name := (s.proc cur).name }
  pure (s.proc np).pid

def fork (cur : Fin nproc) : Kernel Machine (Option Word) := do
  match ← allocproc with
  | none => pure none
  | some np => do
    let s ← Kernel.get
    if ownMemory (s.proc cur).name then do
      match ← copyuvm (s.proc cur).pgdir (s.proc cur).sz with
      | none => do
        kfree (s.proc np).kstack
        modifyProc np fun q => { q with pgdir := 0, kstack := 0, state := .unused }
        pure none
      | some d => do
        modifyProc np fun q => { q with pgdir := d }
        some <$> finishFork cur np
    else do
      forkCOW cur np
      some <$> finishFork cur np

/-- Pass an abandoned child to init. -/
def Proc.adopt (q : Proc) (cur initproc : Fin nproc) : Proc :=
  if q.parent = some cur then { q with parent := some initproc } else q

def exit (cur : Fin nproc) : Kernel Machine Unit := do
  let s ← Kernel.get
  if cur = s.initproc then Kernel.panic "init exiting"
  else do
    Kernel.modify fun s => { s with proc := fun p => (s.proc p).adopt cur s.initproc }
    modifyProc cur fun q => { q with state := .zombie }

inductive WaitResult
  | reaped (pid : Word)
  | noChildren
  | asleep

def reap (cur zombie : Fin nproc) : Kernel Machine WaitResult := do
  let s ← Kernel.get
  kfree (s.proc zombie).kstack
  modifyProc zombie fun q => { q with kstack := 0 }
  unlinkzombiesharedmemory cur zombie
  freevm (s.proc zombie).pgdir
  modifyProc zombie fun q =>
    { q with state := .unused, pid := 0, parent := none, name := "", killed := false }
  pure (.reaped (s.proc zombie).pid)

def Machine.zombieChild (s : Machine) (cur : Fin nproc) : Option (Fin nproc) :=
  (List.finRange nproc).find? fun p =>
    (s.proc p).parent = some cur ∧ (s.proc p).state = .zombie

def wait (cur : Fin nproc) : Kernel Machine WaitResult := do
  let s ← Kernel.get
  match s.zombieChild cur with
  | some zombie => reap cur zombie
  | none =>
    if (∀ p, (s.proc p).parent ≠ some cur) ∨ (s.proc cur).killed then pure .noChildren
    else pure .asleep

end Xv6
