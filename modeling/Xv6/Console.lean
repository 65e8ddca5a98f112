import Mathlib.Logic.Function.Basic
import Mathlib.Data.BitVec
import Xv6.Lib.Run

/-!
# Console input

`consoleintr` and `consoleread` of `console.c` for any set of reading processes. Both hold
`input.lock`, an interrupt for all its keys and a reader until it sleeps or returns, so these are
the steps. The echo of the keys is left out. The bytes committed and what the readers were given are
recorded beside the ring.
-/

namespace Xv6.Console

abbrev Key := BitVec 8

def inputBuf : Nat := 128

def newline : Key := 10

def carriageReturn : Key := 13

/-- `C('D')`, the end of a file. -/
def ctrlD : Key := 4

def ctrlH : Key := 8

def ctrlP : Key := 16

def ctrlU : Key := 21

def delete : Key := 127

structure Input where
  buf : Nat → Key
  r : BitVec 32
  w : BitVec 32
  e : BitVec 32

/-- `input.buf[i % INPUT_BUF]`. -/
def Input.cell (s : Input) (i : BitVec 32) : Key := s.buf (i.toNat % inputBuf)

/-- The loop of `C('U')`. It ends at the write index, so `e - w` rounds are enough. -/
def killLine : Nat → Input → Input
  | 0, s => s
  | n + 1, s =>
    if s.e ≠ s.w ∧ s.cell (s.e - 1) ≠ newline then killLine n { s with e := s.e - 1 } else s

/-- The body of the loop of `consoleintr`, and whether it wakes the readers. -/
def consoleKey (c : Key) (s : Input) : Input × Bool :=
  if c = ctrlP then (s, false)
  else if c = ctrlU then (killLine (s.e - s.w).toNat s, false)
  else if c = ctrlH ∨ c = delete then
    (if s.e ≠ s.w then { s with e := s.e - 1 } else s, false)
  else if c ≠ 0 ∧ (s.e - s.r).toNat < inputBuf then
    let c := if c = carriageReturn then newline else c
    let s1 := { s with buf := Function.update s.buf (s.e.toNat % inputBuf) c, e := s.e + 1 }
    if c = newline ∨ c = ctrlD ∨ s1.e = s1.r + BitVec.ofNat 32 inputBuf then
      ({ s1 with w := s1.e }, true)
    else (s1, false)
  else (s, false)

/-- The keys are what `getc` returns before it returns a negative number. -/
def consoleintr : List Key → Input → Input × Bool
  | [], s => (s, false)
  | c :: keys, s =>
    let (s1, woke) := consoleKey c s
    let (s2, woke') := consoleintr keys s1
    (s2, woke || woke')

/-- What a reader is given: a byte in its buffer, or a result of `0` for the end of a file. -/
inductive Delivery
  | byte (c : Key)
  | eof
  deriving DecidableEq

/-- A reader sleeps with `n` bytes to go, or its call returns. -/
inductive Outcome
  | asleep (n : Nat)
  | done (result : Int)
  deriving DecidableEq

def readLoop (killed : Bool) (target : Nat) : Nat → Input → Input × List Delivery × Outcome
  | 0, s => (s, [], .done target)
  | n + 1, s =>
    if s.r = s.w then (s, [], if killed then .done (-1) else .asleep (n + 1))
    else
      let c := s.cell s.r
      let s1 := { s with r := s.r + 1 }
      if c = ctrlD then
        if n + 1 < target then
          ({ s1 with r := s1.r - 1 }, [], .done (target - (n + 1 : Nat)))
        else (s1, [.eof], .done (target - (n + 1 : Nat)))
      else if c = newline then (s1, [.byte c], .done (target - n))
      else
        let (s2, out, outcome) := readLoop killed target n s1
        (s2, .byte c :: out, outcome)

inductive ReaderPc
  | idle
  | asleep (target n : Nat)
  | runnable (target n : Nat)

def ReaderPc.woken : ReaderPc → ReaderPc
  | .asleep target n => .runnable target n
  | pc => pc

structure Sys (ι : Type) where
  input : Input
  pc : ι → ReaderPc
  killed : ι → Bool
  /-- The bytes ever before the write index, oldest first. -/
  committed : List Key
  /-- What the readers were given, oldest first. -/
  delivered : List (ι × Delivery)

def Input.between (s : Input) (a b : BitVec 32) : List Key :=
  (List.range (b - a).toNat).map fun k => s.cell (a + BitVec.ofNat 32 k)

namespace Sys

variable {ι : Type} [DecidableEq ι]

def init (buf : Nat → Key) : Sys ι where
  input := { buf := buf, r := 0, w := 0, e := 0 }
  pc _ := .idle
  killed _ := false
  committed := []
  delivered := []

def interrupt (s : Sys ι) (keys : List Key) : Sys ι :=
  let (input, woke) := consoleintr keys s.input
  { s with
    input := input
    pc := if woke then fun p => (s.pc p).woken else s.pc
    committed := s.committed ++ input.between s.input.w input.w }

/-- A reader has the lock, with `n` of the `target` bytes to go. -/
def read (s : Sys ι) (p : ι) (target n : Nat) : Sys ι :=
  let (input, out, outcome) := readLoop (s.killed p) target n s.input
  { s with
    input := input
    pc := Function.update s.pc p (match outcome with
      | .asleep n => .asleep target n
      | .done _ => .idle)
    delivered := s.delivered ++ out.map fun d => (p, d) }

end Sys

/-- An interrupt with its keys; a process calls `consoleread`, or goes on after its sleep, or is
killed, which wakes it. -/
inductive Event (ι : Type)
  | intr (keys : List Key)
  | call (p : ι) (n : Int)
  | resume (p : ι)
  | kill (p : ι)

def Sys.exec {ι : Type} [DecidableEq ι] (s : Sys ι) : Event ι → Option (Sys ι)
  | .intr keys => some (s.interrupt keys)
  | .call p n =>
    match s.pc p with
    | .idle => some (s.read p n.toNat n.toNat)
    | _ => none
  | .resume p =>
    match s.pc p with
    | .runnable target n => some (s.read p target n)
    | _ => none
  | .kill p =>
    some { s with
      pc := Function.update s.pc p (s.pc p).woken
      killed := Function.update s.killed p true }

def Step {ι : Type} [DecidableEq ι] (s : Sys ι) (e : Event ι) (s' : Sys ι) : Prop :=
  s.exec e = some s'

end Xv6.Console
