import Xv6.Sbrk
import Xv6.Umalloc

/-!
# The heap and the break

`malloc` with the calls of `sbrk` it makes: the sizes are computed in 32 bits in `umalloc.c`, in
`sys_sbrk` and in `growproc`, where the size of the process, its break, is unsigned and the
increment signed. The process goes on after a system call if the page where its code starts is
there; storing to a page that is not there is a fault, which ends the process.
-/

namespace Xv6

/-- The old size, or none for `-1`. -/
def sysSbrk (cur : Fin nproc) (n : Int) : Kernel Machine (Option Nat) := do
  let s ← Kernel.get
  let r ← growproc cur n
  pure (if r < 0 then none else some (s.proc cur).sz)

namespace Umalloc

/-- `nu * sizeof(Header)` as the `int` that `sbrk` gets. -/
def sbrkArg (nunits : Nat) : Int := (BitVec.ofNat 32 (Heap.moreUnits nunits * sizeofHeader)).toInt

inductive Ended
  | returned (ap : Nat) (heap : Heap) (machine : Machine)
  | fault

/-- The header at `hp` can be stored. -/
def headerThere (m : Machine) (cur : Fin nproc) (hp : Nat) : Bool :=
  (m.userPage cur hp).isSome && (m.userPage cur (hp + sizeofHeader - 1)).isSome

/-- The loop of `malloc` with `morecore` in it. -/
def growLoop (cur : Fin nproc) (freeFuel nunits : Nat) :
    Nat → Machine → Heap → Nat → Nat → Option Ended
  | 0, _, _, _, _ => none
  | fuel + 1, m, h, prevp, p =>
    if h.size p ≥ nunits then
      let r := h.carve prevp p nunits
      some (.returned r.1 r.2 m)
    else if p = h.freep then
      match (sysSbrk cur (sbrkArg nunits)).run m with
      | .error _ => some .fault
      | .ok (sbrk, m1) =>
        if (m1.userPage cur 0).isNone then some .fault
        else
          match sbrk with
          | none => some (.returned 0 h m1)
          | some hp =>
            if headerThere m1 cur hp then do
              let h1 ← (h.addRegion hp (Heap.moreUnits nunits)).free freeFuel (hp + sizeofHeader)
              growLoop cur freeFuel nunits fuel m1 h1 h1.freep (h1.ptr h1.freep)
            else some .fault
    else growLoop cur freeFuel nunits fuel m h p (h.ptr p)

structure User extends Process where
  machine : Machine
  cur : Fin nproc

def User.malloc (fuel : Nat) (s : User) (nbytes : Nat) : Option Ended :=
  let h := if s.heap.freep = 0 then
      { (s.heap.setPtr s.heap.base s.heap.base).setSize s.heap.base 0 with freep := s.heap.base }
    else s.heap
  growLoop s.cur fuel (Heap.units nbytes) fuel s.machine h h.freep (h.ptr h.freep)

end Umalloc

end Xv6
