import Mathlib.Data.List.Basic

/-!
# The user program grep

The matcher and the loop of `grep.c`. A string is the list of its bytes before the final NUL. The
memory of the process is the list of its bytes, and an address is an index: the loop searches its
buffer with `strchr` and may leave it on either side.
-/

namespace Xv6.Grep

def caret : UInt8 := 94

def dollar : UInt8 := 36

def star : UInt8 := 42

def dot : UInt8 := 46

def newline : UInt8 := 10

mutual

def matchhere (re text : List UInt8) : Bool :=
  match re with
  | [] => true
  | c :: re1 =>
    match re1 with
    | [] =>
      if c = dollar then text.isEmpty
      else match text with
        | [] => false
        | b :: text1 => (c = dot || c = b) && matchhere [] text1
    | d :: re2 =>
      if d = star then matchstar c re2 text
      else match text with
        | [] => false
        | b :: text1 => (c = dot || c = b) && matchhere (d :: re2) text1
termination_by 2 * (re.length + text.length)

def matchstar (c : UInt8) (re text : List UInt8) : Bool :=
  matchhere re text ||
    match text with
    | [] => false
    | b :: text1 => (b = c || c = dot) && matchstar c re text1
termination_by 2 * (re.length + text.length) + 1

end

/-- The loop of `match`, which tries every suffix and the empty one last. -/
def matchLoop (re : List UInt8) : List UInt8 → Bool
  | [] => matchhere re []
  | b :: text => matchhere re (b :: text) || matchLoop re text

/-- The function `match` of the source. -/
def matchText (re text : List UInt8) : Bool :=
  match re with
  | [] => matchLoop [] text
  | c :: re1 => if c = caret then matchhere re1 text else matchLoop (c :: re1) text

def bufSize : Nat := 1024

def cstring (mem : List UInt8) : List UInt8 := mem.takeWhile (· ≠ 0)

/-- The outer `none` is a fault at the end of the memory. -/
def strchr (c : UInt8) : List UInt8 → Option (Option Nat)
  | [] => none
  | b :: s =>
    if b = 0 then some none
    else if b = c then some (some 0)
    else (strchr c s).map (Option.map (· + 1))

def memmove (dst src : Nat) : Nat → List UInt8 → List UInt8
  | 0, mem => mem
  | n + 1, mem => memmove (dst + 1) (src + 1) n (mem.set dst (mem.getD src 0))

/-- `m` counts the bytes at the start of `buf` that are kept for the next round. -/
structure State where
  mem : List UInt8
  m : Int
  /-- What was written to the descriptor 1. -/
  out : List UInt8

/-- The inner loop, from the line at `p`. It ends with the memory, `p` and the output. -/
def lineLoop (pattern : List UInt8) :
    Nat → List UInt8 → Nat → List UInt8 → Option (List UInt8 × Nat × List UInt8)
  | 0, _, _, _ => none
  | fuel + 1, mem, p, out =>
    match strchr newline (mem.drop p) with
    | none => none
    | some none => some (mem, p, out)
    | some (some i) =>
      let mem1 := mem.set (p + i) 0
      if matchText pattern (cstring (mem1.drop p)) then
        let mem2 := mem1.set (p + i) newline
        lineLoop pattern fuel mem2 (p + i + 1) (out ++ (mem2.drop p).take (i + 1))
      else lineLoop pattern fuel mem1 (p + i + 1) out

def store (mem : List UInt8) (a : Nat) (piece : List UInt8) : List UInt8 :=
  mem.take a ++ piece ++ mem.drop (a + piece.length)

/-- The body of the outer loop, when `read` has returned `piece`. -/
def round (pattern : List UInt8) (buf : Nat) (s : State) (piece : List UInt8) : Option State := do
  let mem1 := store s.mem (buf + s.m).toNat piece
  let m1 := s.m + piece.length
  let (mem2, p, out) ← lineLoop pattern (mem1.length + 1) mem1 buf s.out
  let m2 := if p = buf then 0 else m1
  if m2 > 0 then
    let m3 := m2 - (p - buf)
    return { mem := memmove buf p m3.toNat mem2, m := m3, out := out }
  else return { mem := mem2, m := m2, out := out }

/-- The outer loop over what the calls of `read` return. A `read` to an address below the memory
of the process fails. -/
def grep (pattern : List UInt8) (buf : Nat) : List (List UInt8) → State → Option State
  | [], s => some s
  | piece :: pieces, s =>
    if piece = [] ∨ (buf : Int) + s.m < 0 then some s
    else do
      let s1 ← round pattern buf s piece
      grep pattern buf pieces s1

/-- The state `grep` starts in: `m` is `0`. -/
def start (mem : List UInt8) : State := { mem := mem, m := 0, out := [] }

end Xv6.Grep
