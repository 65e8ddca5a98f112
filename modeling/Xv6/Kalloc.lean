import Xv6.Machine
import Xv6.Lib.Chain
import Xv6.Lib.Run

/-!
# The page allocator and its list

`kalloc.c` with pointers. The free pages are a list through their own first words, from
`kmem.freelist`; the null pointer is 0. `kend` is the address `end` of the first byte after the
kernel.
-/

namespace Xv6

/-- `kmem` of `kalloc.c`, and the memory its list runs through. -/
structure Kmem where
  word : Nat → Nat → Word
  freelist : Nat
  useLock : Bool
  locked : Bool

namespace Kmem

/-- A difference of two `uint`s. -/
def v2p (a : Nat) : Nat := (a + 2 ^ 32 - kernBase) % 2 ^ 32

def p2v (a : Nat) : Nat := (a + kernBase) % 2 ^ 32

def pageOf (a : Nat) : Nat := v2p a / pgSize

def setPage (k : Kmem) (page : Nat) (content : Nat → Word) : Kmem :=
  { k with word := Function.update k.word page content }

/-- `((struct run*)a)->next`. -/
def next (k : Kmem) (a : Nat) : Nat := (k.word (pageOf a) 0).toNat

def setNext (k : Kmem) (a b : Nat) : Kmem :=
  k.setPage (pageOf a) (Function.update (k.word (pageOf a)) 0 (BitVec.ofNat 32 b))

/-- `if(kmem.use_lock) acquire(&kmem.lock);` -/
def acquire : Kernel Kmem Unit := do
  let k ← Kernel.get
  if k.useLock then
    if k.locked then Kernel.panic "acquire"
    else Kernel.modify fun k => { k with locked := true }
  else pure ()

/-- `if(kmem.use_lock) release(&kmem.lock);` -/
def release : Kernel Kmem Unit := do
  let k ← Kernel.get
  if k.useLock then
    if k.locked then Kernel.modify fun k => { k with locked := false }
    else Kernel.panic "release"
  else pure ()

def kfree (kend v : Nat) : Kernel Kmem Unit :=
  if v % pgSize ≠ 0 ∨ v < kend ∨ physTop ≤ v2p v then Kernel.panic "kfree"
  else do
    -- memset(v, 1, PGSIZE)
    Kernel.modify fun k => k.setPage (pageOf v) fun _ => 0x01010101
    acquire
    Kernel.modify fun k => { k.setNext v k.freelist with freelist := v }
    release

def kalloc : Kernel Kmem Nat := do
  acquire
  let k ← Kernel.get
  let r := k.freelist
  if r ≠ 0 then Kernel.modify fun k => { k with freelist := k.next r } else pure ()
  release
  pure r

/-- The loop of `freerange`. An address space has 2 ^ 20 pages, so a loop that takes more rounds
never ends. -/
def freeLoop (kend vend : Nat) : Nat → Nat → Kernel Kmem Unit
  | 0, _ => Kernel.panic "the loop does not end"
  | fuel + 1, p =>
    if (p + pgSize) % 2 ^ 32 ≤ vend then do
      kfree kend p
      freeLoop kend vend fuel ((p + pgSize) % 2 ^ 32)
    else pure ()

def freerange (kend vstart vend : Nat) : Kernel Kmem Unit :=
  freeLoop kend vend (2 ^ 20 + 1) (pgRoundUp vstart)

def kinit1 (kend vstart vend : Nat) : Kernel Kmem Unit := do
  Kernel.modify fun k => { k with locked := false, useLock := false }
  freerange kend vstart vend

def kinit2 (kend vstart vend : Nat) : Kernel Kmem Unit := do
  freerange kend vstart vend
  Kernel.modify fun k => { k with useLock := true }

end Kmem

/-- A whole page of the addresses from `lo` to `hi`. -/
def WholePage (lo hi v : Nat) : Prop := v % pgSize = 0 ∧ lo ≤ v ∧ v + pgSize ≤ hi

/-- `P2V(4*1024*1024)`, where the pages end that `kinit1` frees. -/
def initTop : Nat := Kmem.p2v (4 * 1024 * 1024)

/-- `P2V(PHYSTOP)`. -/
def poolTop : Nat := Kmem.p2v physTop

/-- The allocator, and the pages it handed out and did not get back. -/
structure Pages where
  kmem : Kmem
  inUse : List Nat

inductive PageCall
  | kalloc
  | kfree (v : Nat)
  /-- A store by whoever uses the memory. -/
  | store (page i : Nat) (w : Word)

/-- Callers free pages that are in use, and of the pages the allocator has they store only to
those. -/
def Pages.Step (kend : Nat) (s : Pages) : PageCall → Pages → Prop
  | .kalloc, s' => ∃ r k, Kmem.kalloc.run s.kmem = .ok (r, k) ∧
    s' = ⟨k, if r = 0 then s.inUse else r :: s.inUse⟩
  | .kfree v, s' => v ∈ s.inUse ∧ ∃ k, (Kmem.kfree kend v).run s.kmem = .ok ((), k) ∧
    s' = ⟨k, s.inUse.erase v⟩
  | .store page i w, s' =>
    (∀ v, WholePage (pgRoundUp kend) poolTop v → Kmem.pageOf v = page → v ∈ s.inUse) ∧
    s' = { s with
      kmem := s.kmem.setPage page (Function.update (s.kmem.word page) i w) }

/-- The order of `main`: `kinit1`, calls, `kinit2`, calls. `kmem` starts out as zeros. -/
def Pages.Reached (kend : Nat) (s : Pages) : Prop :=
  ∃ k0 k1 s1 k2 before after, k0.freelist = 0 ∧
    (Kmem.kinit1 kend kend initTop).run k0 = .ok ((), k1) ∧
    Run (Pages.Step kend) ⟨k1, []⟩ before s1 ∧
    (Kmem.kinit2 kend initTop poolTop).run s1.kmem = .ok ((), k2) ∧
    Run (Pages.Step kend) ⟨k2, s1.inUse⟩ after s

end Xv6
