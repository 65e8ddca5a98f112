import Xv6.Lib.Bytes

/-!
# Multiprocessor configuration

The search for the tables of the firmware and the walk over their entries in `mp.c`. Memory is a
function of the physical address. The loop over the entries takes fuel, since one of its branches
does not move on; the bytes it reads and the elements of `cpus` it writes are recorded beside it.
-/

namespace Xv6.Mp

def nCpu : Nat := 8

def sizeofMp : Nat := 16

def sizeofMpconf : Nat := 44

def bytesAt (mem : Block) (a : Nat) : Block := fun i => mem ((a + i) % 2 ^ 32)

def sum (b : Block) (len : Nat) : Nat := ((List.range len).map fun i => (b i).toNat).sum % 256

def hasSignature (b : Block) (sig : List UInt8) : Bool :=
  (List.range sig.length).map b = sig

def mpSignature : List UInt8 := [95, 77, 80, 95]

def confSignature : List UInt8 := [80, 67, 77, 80]

def mpsearchLoop (mem : Block) (p : Nat) : Nat → Option Nat
  | 0 => none
  | n + 1 =>
    if hasSignature (bytesAt mem p) mpSignature ∧ sum (bytesAt mem p) sizeofMp = 0 then some p
    else mpsearchLoop mem (p + sizeofMp) n

def mpsearch1 (mem : Block) (a len : Nat) : Option Nat := mpsearchLoop mem a (len / sizeofMp)

def mpsearch (mem : Block) : Option Nat :=
  let ebda := getLE (bytesAt mem 0x400) 0x0e 2 * 16
  let base := getLE (bytesAt mem 0x400) 0x13 2 * 1024
  (if ebda ≠ 0 then mpsearch1 mem ebda 1024
    else mpsearch1 mem ((base + 2 ^ 32 - 1024) % 2 ^ 32) 1024).or
    (mpsearch1 mem 0xf0000 0x10000)

def confLength (conf : Block) : Nat := getLE conf 4 2

def confVersion (conf : Block) : Nat := getLE conf 6 1

def confLapicaddr (conf : Block) : Nat := getLE conf 36 4

def validConf (conf : Block) : Bool :=
  hasSignature conf confSignature ∧ (confVersion conf = 1 ∨ confVersion conf = 4) ∧
    sum conf (confLength conf) = 0

/-- The table, by its bytes. -/
def mpconfig (mem : Block) : Option Block := do
  let mp ← mpsearch mem
  let physaddr := getLE (bytesAt mem mp) 4 4
  if physaddr = 0 then none
  else
    let conf := bytesAt mem physaddr
    if validConf conf then some conf else none

def mpProc : UInt8 := 0

def mpBus : UInt8 := 1

def mpIoapic : UInt8 := 2

def mpIointr : UInt8 := 3

def mpLintr : UInt8 := 4

def mpBoot : Nat := 2

def sizeofMpproc : Nat := 20

def sizeofMpioapic : Nat := 8

structure State where
  /-- The index of the processor that boots. -/
  bcpu : Nat
  ismp : Bool
  ncpu : Nat
  lapic : Nat
  ioapicid : UInt8
  /-- The offsets in the table that were read. -/
  reads : List Nat
  /-- The elements of `cpus` that were written, and their new `id`. -/
  writes : List (Nat × UInt8)

def State.init : State where
  bcpu := 0
  ismp := false
  ncpu := 0
  lapic := 0
  ioapicid := 0
  reads := []
  writes := []

def procEntry (conf : Block) (p : Nat) (s : State) : State :=
  { s with
    ismp := s.ismp && s.ncpu == (conf (p + 1)).toNat
    bcpu := if (conf (p + 3)).toNat &&& mpBoot ≠ 0 then s.ncpu else s.bcpu
    ncpu := s.ncpu + 1
    reads := s.reads ++ [p, p + 1, p + 3]
    writes := s.writes ++ [(s.ncpu, UInt8.ofNat s.ncpu)] }

def entryLoop (conf : Block) : Nat → Nat → State → Option State
  | 0, _, _ => none
  | fuel + 1, p, s =>
    if p < confLength conf then
      if conf p = mpProc then entryLoop conf fuel (p + sizeofMpproc) (procEntry conf p s)
      else if conf p = mpIoapic then
        entryLoop conf fuel (p + sizeofMpioapic)
          { s with ioapicid := conf (p + 1), reads := s.reads ++ [p, p + 1] }
      else if conf p = mpBus ∨ conf p = mpIointr ∨ conf p = mpLintr then
        entryLoop conf fuel (p + 8) { s with reads := s.reads ++ [p] }
      else entryLoop conf fuel p { s with ismp := false, reads := s.reads ++ [p] }
    else some s

def State.found (conf : Block) : State :=
  { State.init with ismp := true, lapic := confLapicaddr conf }

/-- The end of `mpinit`, which falls back to one processor. -/
def State.finish (s : State) : State :=
  if s.ismp then s else { s with ncpu := 1, lapic := 0, ioapicid := 0 }

def mpinit (fuel : Nat) (mem : Block) : Option State :=
  match mpconfig mem with
  | none => some .init
  | some conf => (entryLoop conf fuel sizeofMpconf (.found conf)).map State.finish

end Xv6.Mp
