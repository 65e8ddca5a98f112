import Mathlib.Logic.Function.Basic
import Xv6.Lib.Run

/-!
# The user heap

The allocator of `umalloc.c`. A block starts with a header of 8 bytes, which holds the next free
block and the size of the block in headers, its own included. Free blocks are on a circular list
that also holds `base`, a header of size 0 in the data segment, below all memory from `sbrk`. The
loops take fuel.
-/

namespace Xv6.Umalloc

def sizeofHeader : Nat := 8

/-- `ptr` and `size` are the headers in memory, by address. `freep` is `0` before the first call. -/
structure Heap where
  base : Nat
  freep : Nat
  ptr : Nat → Nat
  size : Nat → Nat
  /-- What `sbrk` has returned: addresses, and sizes in headers. -/
  regions : List (Nat × Nat)

namespace Heap

variable (h : Heap)

def setPtr (a v : Nat) : Heap := { h with ptr := Function.update h.ptr a v }

def setSize (a v : Nat) : Heap := { h with size := Function.update h.size a v }

def limit (a : Nat) : Nat := a + sizeofHeader * h.size a

def freeLoop (bp : Nat) : Nat → Nat → Option Nat
  | 0, _ => none
  | fuel + 1, p =>
    if bp > p ∧ bp < h.ptr p then some p
    else if p ≥ h.ptr p ∧ (bp > p ∨ bp < h.ptr p) then some p
    else freeLoop bp fuel (h.ptr p)

/-- Join `bp` to the free block that follows `p`, or link it before that one. -/
def joinUpper (p bp : Nat) : Heap :=
  if h.limit bp = h.ptr p then
    let h1 := h.setSize bp (h.size bp + h.size (h.ptr p))
    h1.setPtr bp (h1.ptr (h1.ptr p))
  else h.setPtr bp (h.ptr p)

def joinLower (p bp : Nat) : Heap :=
  if h.limit p = bp then
    let h1 := h.setSize p (h.size p + h.size bp)
    h1.setPtr p (h1.ptr bp)
  else h.setPtr p bp

def free (fuel ap : Nat) : Option Heap := do
  let bp := ap - sizeofHeader
  let p ← h.freeLoop bp fuel h.freep
  some { (h.joinUpper p bp).joinLower p bp with freep := p }

/-- The size `morecore` asks `sbrk` for, in headers. -/
def moreUnits (nu : Nat) : Nat := if nu < 4096 then 4096 else nu

/-- A region from `sbrk` as a block that looks as if `malloc` had returned it. -/
def addRegion (hp nu : Nat) : Heap :=
  { h with size := Function.update h.size hp nu, regions := h.regions ++ [(hp, nu)] }

/-- `sbrk` is the address the call of `sbrk` returns, or none when it fails. -/
def morecore (fuel nu : Nat) (sbrk : Option Nat) : Option (Option Heap) :=
  match sbrk with
  | none => some none
  | some hp => do
    let h1 ← (h.addRegion hp (moreUnits nu)).free fuel (hp + sizeofHeader)
    some (some h1)

/-- `malloc` takes the block at `p`, or the upper part of it. -/
def carve (prevp p nunits : Nat) : Nat × Heap :=
  if h.size p = nunits then
    (p + sizeofHeader, { h.setPtr prevp (h.ptr p) with freep := prevp })
  else
    let h1 := h.setSize p (h.size p - nunits)
    let p := p + sizeofHeader * h1.size p
    (p + sizeofHeader, { h1.setSize p nunits with freep := prevp })

/-- The loop of `malloc`. `sbrk` is what the first call of `sbrk` returns; there is no answer for a
second one. -/
def mallocLoop (freeFuel nunits : Nat) :
    Nat → Option (Option Nat) → Heap → Nat → Nat → Option (Nat × Heap)
  | 0, _, _, _, _ => none
  | fuel + 1, sbrk, h, prevp, p =>
    if h.size p ≥ nunits then some (h.carve prevp p nunits)
    else if p = h.freep then
      match sbrk with
      | none => none
      | some result => do
        match ← h.morecore freeFuel nunits result with
        | none => some (0, h)
        | some h1 => mallocLoop freeFuel nunits fuel none h1 h1.freep (h1.ptr h1.freep)
    else mallocLoop freeFuel nunits fuel sbrk h p (h.ptr p)

/-- The addition wraps as a `uint`. -/
def units (nbytes : Nat) : Nat := (nbytes + sizeofHeader - 1) % 2 ^ 32 / sizeofHeader + 1

def malloc (fuel nbytes : Nat) (sbrk : Option Nat) : Option (Nat × Heap) :=
  let h1 := if h.freep = 0 then
      { (h.setPtr h.base h.base).setSize h.base 0 with freep := h.base }
    else h
  mallocLoop fuel (units nbytes) fuel (some sbrk) h1 h1.freep (h1.ptr h1.freep)

end Heap

/-- The heap with the blocks `malloc` has returned and `free` has not taken back. -/
structure Process where
  heap : Heap
  live : List (Nat × Nat)

def Process.start (base : Nat) : Process where
  heap := { base := base, freep := 0, ptr := fun _ => 0, size := fun _ => 0, regions := [] }
  live := []

inductive Call
  | malloc (nbytes : Nat) (sbrk : Option Nat)
  | free (ap : Nat)

/-- What a call returns and leaves behind, if its loops end within the fuel. -/
def Process.exec (fuel : Nat) (s : Process) : Call → Option (Nat × Process)
  | .malloc nbytes sbrk =>
    (s.heap.malloc fuel nbytes sbrk).map fun (ap, h) =>
      if ap = 0 then (0, { s with heap := h })
      else (ap, ⟨h, s.live ++ [(ap - sizeofHeader, h.size (ap - sizeofHeader))]⟩)
  | .free ap =>
    (s.heap.free fuel ap).map fun h =>
      (0, ⟨h, s.live.erase (ap - sizeofHeader, s.heap.size (ap - sizeofHeader))⟩)

end Xv6.Umalloc
