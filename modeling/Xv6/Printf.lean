import Mathlib.Data.BitVec

/-!
# `printint` and `atoi`

The decimal and hexadecimal numbers that the user library prints, and the one it reads.
-/

namespace Xv6.Ulib

def digits : List UInt8 := "0123456789ABCDEF".toList.map fun c => UInt8.ofNat c.toNat

/-- The `do` loop, which fills `buf` from the lowest digit on; `none` when it is full. -/
def digitLoop (base : Nat) : Nat → Nat → Option (List UInt8)
  | 0, _ => none
  | room + 1, x =>
    if x / base = 0 then some [digits.getD (x % base) 0]
    else (digitLoop base room (x / base)).map (digits.getD (x % base) 0 :: ·)

/-- The bytes written; `none` is a store behind `buf[16]`. -/
def printint (xx : BitVec 32) (base : Nat) (sgn : Bool) : Option (List UInt8) :=
  let neg := sgn && xx.msb
  let x := if neg then -xx else xx
  (digitLoop base 16 x.toNat).bind fun buf =>
    if neg then if buf.length < 16 then some (45 :: buf.reverse) else none
    else some buf.reverse

def atoiLoop (n : BitVec 32) : List UInt8 → BitVec 32
  | [] => n
  | c :: s => if 48 ≤ c ∧ c ≤ 57 then atoiLoop (n * 10 + c.toBitVec.setWidth 32 - 48) s else n

def atoi (s : List UInt8) : BitVec 32 := atoiLoop 0 s

end Xv6.Ulib
