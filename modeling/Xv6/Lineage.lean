import Xv6.AddressSpace
import Xv6.Trap

/-!
# A process and its descendants

The user side of a process after `exec`: loads and stores, the page faults they cause, and `fork`.
An access that the tables do not permit is a trap, which `trap` serves. The lineage keeps track of
the slots that the process and its descendants have been given.
-/

namespace Xv6

def Machine.userFault (s : Machine) (p : Fin nproc) (va : Nat) (write : Bool) : PageFault :=
  { user := true, write := write
    protection := (s.pde p (va / 2 ^ 22)).present && (s.pte p (va / pgSize)).present
    addr := va }

def userLoad (p : Fin nproc) (va : Nat) : Kernel Machine Unit := do
  let s ← Kernel.get
  if s.canRead p va then Kernel.modify fun s => s.mark p va pteA
  else do let _ ← (s.userFault p va false).service p 0

def userStore (p : Fin nproc) (va : Nat) (b : BitVec 8) : Kernel Machine Unit := do
  let s ← Kernel.get
  if s.canWrite p va then
    Kernel.modify fun s => (s.mark p va (pteA ||| pteD)).storeByte p va b
  else do let _ ← (s.userFault p va true).service p 0

inductive UserEvent
  | fork (p : Fin nproc)
  | load (p : Fin nproc) (va : Nat)
  | store (p : Fin nproc) (va : Nat) (b : BitVec 8)

def UserEvent.actor : UserEvent → Fin nproc
  | .fork p | .load p _ | .store p _ _ => p

/-- The address of an access; a fork has none. -/
def UserEvent.addr : UserEvent → Nat
  | .fork _ => 0
  | .load _ va | .store _ va _ => va

def UserEvent.perform : UserEvent → Kernel Machine Unit
  | .fork p => do let _ ← Xv6.fork p
  | .load p va => userLoad p va
  | .store p va b => userStore p va b

structure Lineage where
  machine : Machine
  /-- The slots of the process and its descendants. -/
  member : Fin nproc → Bool

/-- A slot that a step has put to use belongs to a child. -/
def Lineage.after (l : Lineage) (m : Machine) : Lineage :=
  { machine := m
    member := fun q => l.member q ||
      decide ((l.machine.proc q).state = .unused ∧ (m.proc q).state ≠ .unused) }

def LineageStep (l : Lineage) (e : UserEvent) (l' : Lineage) : Prop :=
  l.member e.actor = true ∧ l.machine.live e.actor ∧ e.addr < 2 ^ 32 ∧
    ∃ m, e.perform.run l.machine = .ok ((), m) ∧ l' = l.after m

def Machine.guardPage (s : Machine) (p : Fin nproc) : Nat := s.pages p - 2

end Xv6
