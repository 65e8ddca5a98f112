import Xv6.Proc

/-!
# Growing and shrinking a process

`growproc` of `proc.c`. Sizes are unsigned and the increment is signed; a new size of zero cannot be
told from a failure.
-/

namespace Xv6

/-- What loads the registers of the processor is left out. -/
def switchuvm (p : Fin nproc) : Kernel Machine Unit := do
  let s ← Kernel.get
  if (s.proc p).pgdir = 0 then Kernel.panic "switchuvm: no pgdir" else pure ()

def setSize (cur : Fin nproc) (sz : Nat) : Kernel Machine Int := do
  modifyProc cur fun q => { q with sz := sz }
  switchuvm cur
  pure 0

def growproc (cur : Fin nproc) (n : Int) : Kernel Machine Int := do
  let s ← Kernel.get
  let sz := (s.proc cur).sz
  let newsz := ((sz + n) % 2 ^ 32).toNat
  if 0 < n then do
    let sz ← allocuvm (s.proc cur).pgdir sz newsz
    if sz = 0 then pure (-1) else setSize cur sz
  else if n < 0 then do
    let sz ← deallocuvm (s.proc cur).pgdir sz newsz
    if sz = 0 then pure (-1) else setSize cur sz
  else setSize cur sz

end Xv6
