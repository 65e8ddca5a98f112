import Mathlib.Logic.Function.Basic
import Mathlib.Data.Fintype.Basic
import Mathlib.Logic.Relation
import Xv6.Lib.Run

/-!
# Programs that take and release locks

A program takes locks, waiting for one that another thread holds, releases them, and branches on
values that it reads from shared data. The data itself is left out: a read returns any value. A
discipline says which lock may be waited for with which locks in hand, what is known about the
values read, which locks must be in hand to read them, and which panics may happen. Programs that
keep the discipline are described by weakest preconditions over the list of locks they hold, and
threads that run such programs keep it in every interleaving.
-/

namespace Xv6

/-- A program over the locks `L` that reads values of the kinds `Q`. -/
inductive LockProg (L Q : Type) (α : Type) where
  | ret (a : α)
  /-- Panic. -/
  | halt (msg : String)
  /-- Wait until nobody holds the lock, and take it. -/
  | acquire (l : L) (k : LockProg L Q α)
  /-- Take the lock if nobody holds it, and panic otherwise. -/
  | claim (l : L) (msg : String) (k : LockProg L Q α)
  | release (l : L) (k : LockProg L Q α)
  /-- Look whether somebody holds the lock. -/
  | probe (l : L) (k : Bool → LockProg L Q α)
  | read (q : Q) (k : Nat → LockProg L Q α)

namespace LockProg

variable {L Q α β : Type}

def bind : LockProg L Q α → (α → LockProg L Q β) → LockProg L Q β
  | ret a, f => f a
  | halt msg, _ => halt msg
  | acquire l k, f => acquire l (k.bind f)
  | claim l msg k, f => claim l msg (k.bind f)
  | release l k, f => release l (k.bind f)
  | probe l k, f => probe l fun b => (k b).bind f
  | read q k, f => read q fun v => (k v).bind f

instance : Monad (LockProg L Q) where
  pure := ret
  bind := bind

/-- `for (i = 0; i < n; i++) body(i)`. -/
def repeatN (body : Nat → LockProg L Q Unit) : Nat → Nat → LockProg L Q Unit
  | _, 0 => ret ()
  | i, n + 1 => do
    body i
    repeatN body (i + 1) n

/-- A loop that may be left with a result. -/
def searchN (body : Nat → LockProg L Q (Option α)) : Nat → Nat → LockProg L Q (Option α)
  | _, 0 => ret none
  | i, n + 1 => do
    match ← body i with
    | some a => ret (some a)
    | none => searchN body (i + 1) n

/-- The lock that the next operation waits for. -/
def awaited : LockProg L Q α → Option L
  | acquire l _ => some l
  | _ => none

/-- The value that the next operation looks at. -/
def looksAt : LockProg L Q α → Option Q
  | read q _ => some q
  | _ => none

/-- The message of a program that has panicked. -/
def panic : LockProg L Q α → Option String
  | halt msg => some msg
  | _ => none

theorem eq_acquire_of_awaited {x : LockProg L Q α} {l : L} (h : x.awaited = some l) :
    ∃ k, x = acquire l k := by
  cases x with
  | acquire l' k => exact ⟨k, by rw [Option.some.inj h]⟩
  | _ => cases h

theorem eq_read_of_looksAt {x : LockProg L Q α} {q : Q} (h : x.looksAt = some q) :
    ∃ k, x = read q k := by
  cases x with
  | read q' k => exact ⟨k, by rw [Option.some.inj h]⟩
  | _ => cases h

theorem eq_halt_of_panic {x : LockProg L Q α} {msg : String} (h : x.panic = some msg) :
    x = halt msg := by
  cases x with
  | halt msg' => rw [Option.some.inj h]
  | _ => cases h

end LockProg

/-- What a program may do, and what it may find, with the given locks in hand. -/
structure Discipline (L Q : Type) where
  /-- The lock may be waited for. -/
  mayTake : List L → L → Prop
  /-- The value may be looked at. -/
  needs : Q → List L → Prop
  /-- The value may be found. -/
  mayRead : Q → List L → Nat → Prop
  mayPanic : String → Prop

section WP

variable {L Q α β : Type} [DecidableEq L] (D : Discipline L Q)

/-- Run from the locks `h`, the program keeps the discipline, and `R` holds where it returns. -/
def WP : LockProg L Q α → (α → List L → Prop) → List L → Prop
  | .ret a, R, h => R a h
  | .halt msg, _, _ => D.mayPanic msg
  | .acquire l k, R, h => D.mayTake h l ∧ WP k R (l :: h)
  | .claim l msg k, R, h => D.mayPanic msg ∧ (l ∉ h → WP k R (l :: h))
  | .release l k, R, h => WP k R (h.erase l)
  | .probe l k, R, h => ∀ b, (l ∈ h → b = true) → WP (k b) R h
  | .read q k, R, h => D.needs q h ∧ ∀ v, D.mayRead q h v → WP (k v) R h

variable {D}

theorem WP.bind {x : LockProg L Q α} {f : α → LockProg L Q β} {R : α → List L → Prop}
    {S : β → List L → Prop} {h : List L} (hx : WP D x R h)
    (hf : ∀ a h', R a h' → WP D (f a) S h') : WP D (x >>= f) S h := by
  induction x generalizing h with
  | ret a => exact hf a h hx
  | halt msg => exact hx
  | acquire l k ih => exact ⟨hx.1, ih hx.2⟩
  | claim l msg k ih => exact ⟨hx.1, fun hl => ih (hx.2 hl)⟩
  | release l k ih => exact ih hx
  | probe l k ih => exact fun b hb => ih b (hx b hb)
  | read q k ih => exact ⟨hx.1, fun v hv => ih v (hx.2 v hv)⟩

theorem WP.mono {x : LockProg L Q α} {R S : α → List L → Prop} {h : List L} (hx : WP D x R h)
    (hRS : ∀ a h', R a h' → S a h') : WP D x S h := by
  induction x generalizing h with
  | ret a => exact hRS a h hx
  | halt msg => exact hx
  | acquire l k ih => exact ⟨hx.1, ih hx.2⟩
  | claim l msg k ih => exact ⟨hx.1, fun hl => ih (hx.2 hl)⟩
  | release l k ih => exact ih hx
  | probe l k ih => exact fun b hb => ih b (hx b hb)
  | read q k ih => exact ⟨hx.1, fun v hv => ih v (hx.2 v hv)⟩

/-- The first part is known to end with the locks `h1`. -/
theorem WP.next {x : LockProg L Q α} {f : α → LockProg L Q β} {S : β → List L → Prop}
    {h h1 : List L} (hx : WP D x (fun _ h' => h' = h1) h) (hf : ∀ a, WP D (f a) S h1) :
    WP D (x >>= f) S h :=
  hx.bind fun a _ hh' => hh' ▸ hf a

/-- The program returns with the locks it started with. -/
def Keeps (D : Discipline L Q) (x : LockProg L Q α) (h : List L) : Prop :=
  WP D x (fun _ h' => h' = h) h

theorem WP.repeatN {body : Nat → LockProg L Q Unit} {h : List L}
    (hbody : ∀ i, Keeps D (body i) h) (i n : Nat) : Keeps D (LockProg.repeatN body i n) h := by
  induction n generalizing i with
  | zero => exact rfl
  | succ n ih =>
    exact WP.next (hbody i) fun _ => ih (i + 1)

/-- A search whose body keeps the locks unless it finds something. -/
theorem WP.searchN {body : Nat → LockProg L Q (Option α)} {h : List L}
    {R : Option α → List L → Prop} (hnone : R none h) {i n : Nat}
    (hbody : ∀ j, i ≤ j → j < i + n →
      WP D (body j) (fun r h' => (r = none → h' = h) ∧ (r ≠ none → R r h')) h) :
    WP D (LockProg.searchN body i n) R h := by
  induction n generalizing i with
  | zero => exact hnone
  | succ n ih =>
    refine WP.bind (hbody i (Nat.le_refl i) (by omega)) ?_
    rintro (_ | a) h' ⟨hsame, hfound⟩
    · rw [hsame rfl]
      exact ih fun j hj hlt => hbody j (by omega) (by omega)
    · exact hfound (by simp)

end WP

structure Thread (L Q : Type) where
  held : List L
  prog : LockProg L Q Unit

abbrev LockSys (n : Nat) (L Q : Type) := Fin n → Thread L Q

/-- A thread starts one of the calls `C`, or goes on; a read returns the value in the event. -/
inductive LockEvent (n : Nat) (C : Type)
  | call (p : Fin n) (c : C)
  | go (p : Fin n) (v : Nat)

section Threads

variable {n : Nat} {L Q C : Type} [DecidableEq L]

/-- Nobody holds the lock. -/
def LockSys.available (s : LockSys n L Q) (l : L) : Prop := ∀ q, l ∉ (s q).held

instance (s : LockSys n L Q) (l : L) : Decidable (s.available l) :=
  inferInstanceAs (Decidable (∀ q, l ∉ (s q).held))

/-- A thread goes on to the next operation of its program. -/
def LockSys.advance (s : LockSys n L Q) (p : Fin n) (v : Nat) : Option (Thread L Q) :=
  match (s p).prog with
  | .ret _ => none
  | .halt _ => none
  | .acquire l k => if s.available l then some { held := l :: (s p).held, prog := k } else none
  | .claim l msg k =>
    if s.available l then some { held := l :: (s p).held, prog := k }
    else some { held := (s p).held, prog := .halt msg }
  | .release l k => some { held := (s p).held.erase l, prog := k }
  | .probe l k => some { held := (s p).held, prog := k (!decide (s.available l)) }
  | .read _ k => some { held := (s p).held, prog := k v }

def LockSys.exec (calls : C → LockProg L Q Unit) (s : LockSys n L Q) :
    LockEvent n C → Option (LockSys n L Q)
  | .call p c =>
    match (s p).prog with
    | .ret _ => some (Function.update s p { held := (s p).held, prog := calls c })
    | _ => none
  | .go p v => (s.advance p v).map (Function.update s p)

/-- The value read is one the discipline knows of. -/
def LockSys.Meets (D : Discipline L Q) (s : LockSys n L Q) : LockEvent n C → Prop
  | .call _ _ => True
  | .go p v => ∀ q k, (s p).prog = .read q k → D.mayRead q (s p).held v

/-- Thread `p` waits for a lock that `q` holds. -/
def LockSys.Waits (s : LockSys n L Q) (p q : Fin n) : Prop :=
  ∃ l k, (s p).prog = .acquire l k ∧ l ∈ (s q).held

/-- Every thread runs a program that keeps the discipline and returns with locks that meet `I`, and
no lock is held twice. -/
structure Disciplined (D : Discipline L Q) (I : List L → Prop) (s : LockSys n L Q) : Prop where
  keeps : ∀ p, WP D (s p).prog (fun _ h => I h) (s p).held
  exclusive : ∀ p q l, l ∈ (s p).held → l ∈ (s q).held → p = q

variable {D : Discipline L Q} {I : List L → Prop} {s s' : LockSys n L Q}

theorem Disciplined.update (hs : Disciplined D I s) {p : Fin n} {t : Thread L Q}
    (hkeeps : WP D t.prog (fun _ h => I h) t.held)
    (hheld : ∀ l ∈ t.held, l ∈ (s p).held ∨ s.available l) :
    Disciplined D I (Function.update s p t : LockSys n L Q) where
  keeps q := by
    by_cases hq : q = p
    · subst hq
      rw [Function.update_self]
      exact hkeeps
    · rw [Function.update_of_ne hq]
      exact hs.keeps q
  exclusive := by
    have hother : ∀ q l, q ≠ p → l ∈ t.held → l ∉ (s q).held := by
      intro q l hq hl hql
      rcases hheld l hl with hp | havail
      · exact hq (hs.exclusive q p l hql hp)
      · exact havail q hql
    intro q r l hq hr
    by_cases hqp : q = p <;> by_cases hrp : r = p
    · rw [hqp, hrp]
    · rw [hqp, Function.update_self] at hq
      rw [Function.update_of_ne hrp] at hr
      exact absurd hr (hother r l hrp hq)
    · rw [hrp, Function.update_self] at hr
      rw [Function.update_of_ne hqp] at hq
      exact absurd hq (hother q l hqp hr)
    · rw [Function.update_of_ne hqp] at hq
      rw [Function.update_of_ne hrp] at hr
      exact hs.exclusive q r l hq hr

theorem Disciplined.step {calls : C → LockProg L Q Unit}
    (hcalls : ∀ c h, I h → WP D (calls c) (fun _ h => I h) h) {e : LockEvent n C}
    (hs : Disciplined D I s) (hmeets : s.Meets D e) (hstep : s.exec calls e = some s') :
    Disciplined D I s' := by
  cases e with
  | call p c =>
    simp only [LockSys.exec] at hstep
    split at hstep
    · rename_i a hprog
      obtain rfl := Option.some.inj hstep
      have hkeeps := hs.keeps p
      rw [hprog] at hkeeps
      exact hs.update (hcalls c _ hkeeps) fun l hl => Or.inl hl
    · cases hstep
  | go p v =>
    obtain ⟨t, hadvance, rfl⟩ := Option.map_eq_some_iff.mp hstep
    have hkeeps := hs.keeps p
    simp only [LockSys.advance] at hadvance
    split at hadvance
    · cases hadvance
    · cases hadvance
    · rename_i l k hprog
      rw [hprog] at hkeeps
      split at hadvance
      · rename_i havail
        obtain rfl := Option.some.inj hadvance
        refine hs.update hkeeps.2 fun l' hl' => ?_
        rcases List.mem_cons.mp hl' with rfl | hl'
        · exact Or.inr havail
        · exact Or.inl hl'
      · cases hadvance
    · rename_i l msg k hprog
      rw [hprog] at hkeeps
      split at hadvance
      · rename_i havail
        obtain rfl := Option.some.inj hadvance
        refine hs.update (hkeeps.2 (havail p)) fun l' hl' => ?_
        rcases List.mem_cons.mp hl' with rfl | hl'
        · exact Or.inr havail
        · exact Or.inl hl'
      · obtain rfl := Option.some.inj hadvance
        exact hs.update hkeeps.1 fun l' hl' => Or.inl hl'
    · rename_i l k hprog
      rw [hprog] at hkeeps
      obtain rfl := Option.some.inj hadvance
      exact hs.update hkeeps fun l' hl' => Or.inl (List.mem_of_mem_erase hl')
    · rename_i l k hprog
      rw [hprog] at hkeeps
      obtain rfl := Option.some.inj hadvance
      refine hs.update (hkeeps _ fun hl => ?_) fun l' hl' => Or.inl hl'
      have hbusy : ¬s.available l := fun havail => havail p hl
      simp [hbusy]
    · rename_i q k hprog
      rw [hprog] at hkeeps
      obtain rfl := Option.some.inj hadvance
      exact hs.update (hkeeps.2 v (hmeets q k hprog)) fun l' hl' => Or.inl hl'

/-- A waiting thread waits for a lock it may wait for. -/
theorem Disciplined.mayTake (hs : Disciplined D I s) {p : Fin n} {l : L} {k : LockProg L Q Unit}
    (hprog : (s p).prog = .acquire l k) : D.mayTake (s p).held l := by
  have hkeeps := hs.keeps p
  rw [hprog] at hkeeps
  exact hkeeps.1

/-- A thread that looks at a value has the locks it needs for it. -/
theorem Disciplined.needs (hs : Disciplined D I s) {p : Fin n} {q : Q}
    {k : Nat → LockProg L Q Unit} (hprog : (s p).prog = .read q k) : D.needs q (s p).held := by
  have hkeeps := hs.keeps p
  rw [hprog] at hkeeps
  exact hkeeps.1

theorem Disciplined.mayPanic (hs : Disciplined D I s) {p : Fin n} {msg : String}
    (hprog : (s p).prog = .halt msg) : D.mayPanic msg := by
  have hkeeps := hs.keeps p
  rw [hprog] at hkeeps
  exact hkeeps

end Threads

end Xv6
