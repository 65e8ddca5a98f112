import Xv6.Machine

/-!
# The two `memmove` functions

`string.c` has one for the kernel and `ulib.c` one for user programs. Memory is a function of the
32-bit address, and pointers wrap as they do on the machine.
-/

namespace Xv6

abbrev ByteMem := Word → UInt8

/-- `while(n-- > 0) *d++ = *s++;` -/
def copyUp : Nat → Word → Word → ByteMem → ByteMem
  | 0, _, _, mem => mem
  | n + 1, d, s, mem => copyUp n (d + 1) (s + 1) (Function.update mem d (mem s))

/-- `while(n-- > 0) *--d = *--s;` -/
def copyDown : Nat → Word → Word → ByteMem → ByteMem
  | 0, _, _, mem => mem
  | n + 1, d, s, mem =>
    copyDown n (d - 1) (s - 1) (Function.update mem (d - 1) (mem (s - 1)))

/-- `memmove` of `string.c`, where `n` is a `uint`: what it returns, and the memory after it. -/
def memmove (dst src n : Word) (mem : ByteMem) : Word × ByteMem :=
  if src < dst ∧ src + n > dst then (dst, copyDown n.toNat (dst + n) (src + n) mem)
  else (dst, copyUp n.toNat dst src mem)

namespace Ulib

/-- `memmove` of `ulib.c`, where `n` is an `int`: a negative one copies nothing. -/
def memmove (dst src n : Word) (mem : ByteMem) : Word × ByteMem :=
  (dst, copyUp n.toInt.toNat dst src mem)

end Ulib

end Xv6
