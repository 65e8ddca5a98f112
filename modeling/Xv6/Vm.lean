import Xv6.Machine

/-!
# Page directories and address spaces

`vm.c`. A pointer to a page-table entry is the page of the table and an index, or null.
-/

namespace Xv6

abbrev PtePtr := Option (Nat × Nat)

def walkpgdir (pgdir va : Nat) (alloc : Bool) : Kernel Machine PtePtr := do
  let s ← Kernel.get
  let pde := s.word pgdir (pdx va)
  if pde.present then pure (some (pteAddr pde, ptx va))
  else if !alloc then pure none
  else do
    match ← kalloc with
    | none => pure none
    | some pgtab => do
      clearPage pgtab
      Kernel.modify fun s =>
        s.setWord pgdir (pdx va) (mkEntry pgtab (pteP ||| pteW ||| pteU))
      pure (some (pgtab, ptx va))

/-- One iteration of `mappages`; `false` when no page table can be allocated. -/
def mapPage (pgdir va pa : Nat) (perm : Word) : Kernel Machine Bool := do
  match ← walkpgdir pgdir va true with
  | none => pure false
  | some (pgtab, i) => do
    let s ← Kernel.get
    if (s.word pgtab i).present then Kernel.panic "remap"
    else do
      Kernel.modify fun s => s.setWord pgtab i (BitVec.ofNat 32 pa ||| perm ||| pteP)
      pure true

/-- The loop of `mappages`, over the top of the address space if it must. It does not come to an
address twice, so there are as many rounds as pages. -/
def mapLoop (pgdir last : Nat) (perm : Word) : Nat → Nat → Nat → Kernel Machine Bool
  | 0, _, _ => pure false
  | fuel + 1, a, pa => do
    if ← mapPage pgdir a pa perm then
      if a = last then pure true
      else mapLoop pgdir last perm fuel ((a + pgSize) % 2 ^ 32) ((pa + pgSize) % 2 ^ 32)
    else pure false

def mappages (pgdir va size pa : Nat) (perm : Word) : Kernel Machine Bool :=
  let last := pgRoundDown ((va + size + 2 ^ 32 - 1) % 2 ^ 32)
  mapLoop pgdir last perm (2 ^ 20) (pgRoundDown va) pa

structure Kmap where
  virt : Nat
  physStart : Nat
  physEnd : Nat
  perm : Word

def Kmap.size (k : Kmap) : Nat := (k.physEnd + 2 ^ 32 - k.physStart) % 2 ^ 32

/-- The kernel's mappings, present in every page directory. -/
def kmap (kdata : Nat) : List Kmap :=
  [{ virt := kernBase, physStart := 0, physEnd := extMem, perm := pteW },
   { virt := kernLink, physStart := extMem, physEnd := kdata * pgSize, perm := 0 },
   { virt := kernBase + kdata * pgSize, physStart := kdata * pgSize, physEnd := physTop,
     perm := pteW },
   { virt := devSpace, physStart := devSpace, physEnd := 0, perm := pteW }]

def mapRegion (pgdir : Nat) (k : Kmap) : Kernel Machine Bool :=
  mappages pgdir k.virt k.size k.physStart k.perm

def mapKernel (pgdir : Nat) (ks : List Kmap) : Kernel Machine Bool :=
  Kernel.allM ks (mapRegion pgdir)

def fillKernel (pgdir : Nat) : Kernel Machine (Option Nat) := do
  clearPage pgdir
  let s ← Kernel.get
  let ok ← mapKernel pgdir (kmap s.kdata)
  pure (if ok then some pgdir else none)

/-- A page directory with the kernel's mappings; on failure what was allocated is not freed. -/
def setupkvm : Kernel Machine (Option Nat) := do
  match ← kalloc with
  | none => pure none
  | some pgdir => fillKernel pgdir

def npages (sz : Nat) : Nat := (sz + pgSize - 1) / pgSize

/-- The loop of `deallocuvm`, by page number. Where the table is missing it skips 1024 pages from
where it is, not to the start of the next table. -/
def deallocPages (pgdir last : Nat) : Nat → Nat → Kernel Machine Unit
  | 0, _ => pure ()
  | fuel + 1, a =>
    if a < last then do
      match ← walkpgdir pgdir (a * pgSize) false with
      | none => deallocPages pgdir last fuel (a + nptEntries)
      | some (pgtab, i) => do
        let s ← Kernel.get
        if (s.word pgtab i).present then do
          let page := pteAddr (s.word pgtab i)
          if page = 0 then Kernel.panic "kfree deallocuvm"
          else do
            kfree page
            Kernel.modify fun s => s.setWord pgtab i 0
            deallocPages pgdir last fuel (a + 1)
        else deallocPages pgdir last fuel (a + 1)
    else pure ()

def deallocuvm (pgdir oldsz newsz : Nat) : Kernel Machine Nat := do
  if oldsz ≤ newsz then pure oldsz
  else do
    let first := pgRoundUp newsz / pgSize
    let last := npages oldsz
    deallocPages pgdir last (last - first) first
    pure newsz

/-- One iteration of `allocuvm`. What `mappages` returns is ignored. -/
def allocPage (pgdir a : Nat) : Kernel Machine Bool := do
  match ← kalloc with
  | none => pure false
  | some mem => do
    clearPage mem
    let _ ← mappages pgdir (a * pgSize) pgSize (mem * pgSize) (pteW ||| pteU)
    pure true

def allocuvm (pgdir oldsz newsz : Nat) : Kernel Machine Nat := do
  if kernBase ≤ newsz then pure 0
  else if newsz < oldsz then pure oldsz
  else do
    let first := pgRoundUp oldsz / pgSize
    let last := npages newsz
    if ← Kernel.allM (List.range' first (last - first)) (allocPage pgdir) then pure newsz
    else do
      let _ ← deallocuvm pgdir newsz oldsz
      pure 0

def freeTables (pgdir : Nat) : List Nat → Kernel Machine Unit
  | [] => pure ()
  | i :: rest => do
    let s ← Kernel.get
    if (s.word pgdir i).present then do
      kfree (pteAddr (s.word pgdir i))
      freeTables pgdir rest
    else freeTables pgdir rest

def freevm (pgdir : Nat) : Kernel Machine Unit := do
  if pgdir = 0 then Kernel.panic "freevm: no pgdir"
  else do
    let _ ← deallocuvm pgdir kernBase 0
    freeTables pgdir (List.range npdEntries)
    kfree pgdir

/-- `memmove(dst, src, PGSIZE)` between pages of the direct map. -/
def copyPageOf (dst src : Nat) : Kernel Machine Unit :=
  Kernel.modify fun s => s.setPage dst (s.word src)

def copyuvmPage (d pgdir a : Nat) : Kernel Machine Bool := do
  match ← walkpgdir pgdir (a * pgSize) false with
  | none => Kernel.panic "copyuvm: pte should exist"
  | some (pgtab, i) => do
    let s ← Kernel.get
    if !(s.word pgtab i).present then Kernel.panic "copyuvm: page not present"
    else do
      match ← kalloc with
      | none => pure false
      | some mem => do
        copyPageOf mem (pteAddr (s.word pgtab i))
        mappages d (a * pgSize) pgSize (mem * pgSize) (pteW ||| pteU)

def copyuvm (pgdir sz : Nat) : Kernel Machine (Option Nat) := do
  match ← setupkvm with
  | none => pure none
  | some d => do
    if ← Kernel.allM (List.range (npages sz)) (copyuvmPage d pgdir) then pure (some d)
    else do
      freevm d
      pure none

/-- `*pte = f *pte` through a walk that must not come back empty. -/
def updatePte (msg : String) (f : Word → Word) (pgdir uva : Nat) : Kernel Machine Unit := do
  match ← walkpgdir pgdir uva false with
  | none => Kernel.panic msg
  | some (pgtab, i) => Kernel.modify fun s => s.setWord pgtab i (f (s.word pgtab i))

def clearpteu : Nat → Nat → Kernel Machine Unit :=
  updatePte "clearpteu" (· &&& ~~~pteU)

def clearptew : Nat → Nat → Kernel Machine Unit :=
  updatePte "clearptew. pte shoul be present" (· &&& ~~~pteW)

def setptew : Nat → Nat → Kernel Machine Unit :=
  updatePte "setptew. pte shoul be present" (· ||| pteW)

def cleardtew (pgdir uva : Nat) : Kernel Machine Unit :=
  Kernel.modify fun s => s.setWord pgdir (pdx uva) (s.word pgdir (pdx uva) &&& ~~~pteW)

def setdtew (pgdir uva : Nat) : Kernel Machine Unit :=
  Kernel.modify fun s => s.setWord pgdir (pdx uva) (s.word pgdir (pdx uva) ||| pteW)

end Xv6
