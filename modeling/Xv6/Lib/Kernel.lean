import Mathlib.Logic.Basic
import Mathlib.Data.List.Basic

/-!
# Computations that may panic

A kernel routine reads and writes a state and returns a value, or it panics and nothing after it
runs. `Kernel σ` is that monad. What the proofs need of it is inversion: from a composite
computation that returned, the intermediate values and states of its parts.
-/

namespace Xv6

/-- A computation over the state `σ`: a value and the new state, or the message of a panic. -/
structure Kernel (σ α : Type) where
  exec : σ → Except String (α × σ)

namespace Kernel

variable {σ α β ι : Type}

-- A definition of its own, so that checking a proof compares two runs by their arguments before it
-- executes them.
def run (x : Kernel σ α) (s : σ) : Except String (α × σ) := x.exec s

instance : Monad (Kernel σ) where
  pure a := ⟨fun s => .ok (a, s)⟩
  bind x f := ⟨fun s =>
    match x.run s with
    | .ok (a, s') => (f a).run s'
    | .error msg => .error msg⟩

def panic (msg : String) : Kernel σ α := ⟨fun _ => .error msg⟩

def get : Kernel σ σ := ⟨fun s => .ok (s, s)⟩

def modify (f : σ → σ) : Kernel σ Unit := ⟨fun s => .ok ((), f s)⟩

/-- `for (i in indices) body(i)`. -/
def forEach : List ι → (ι → Kernel σ Unit) → Kernel σ Unit
  | [], _ => pure ()
  | i :: rest, body => do
    body i
    forEach rest body

/-- `for (i in indices) if (!body(i)) return false; return true`. -/
def allM : List ι → (ι → Kernel σ Bool) → Kernel σ Bool
  | [], _ => pure true
  | i :: rest, body => do
    if ← body i then allM rest body else pure false

@[simp]
theorem run_pure (a : α) (s : σ) : (pure a : Kernel σ α).run s = .ok (a, s) := (rfl)

theorem run_bind (x : Kernel σ α) (f : α → Kernel σ β) (s : σ) :
    (x >>= f).run s = match x.run s with
      | .ok (a, s') => (f a).run s'
      | .error msg => .error msg := (rfl)

@[simp]
theorem run_panic (msg : String) (s : σ) : (panic msg : Kernel σ α).run s = .error msg := (rfl)

@[simp]
theorem run_get (s : σ) : (get : Kernel σ σ).run s = .ok (s, s) := (rfl)

@[simp]
theorem run_modify (f : σ → σ) (s : σ) : (modify f).run s = .ok ((), f s) := (rfl)

theorem run_map (f : α → β) (x : Kernel σ α) (s : σ) :
    (f <$> x).run s = match x.run s with
      | .ok (a, s') => .ok (f a, s')
      | .error msg => .error msg := (rfl)

theorem run_bind_of_ok {x : Kernel σ α} {f : α → Kernel σ β} {s s' : σ} {a : α}
    (hx : x.run s = .ok (a, s')) : (x >>= f).run s = (f a).run s' := by
  rw [run_bind, hx]

/-- A bind returned, so both of its halves did. -/
theorem run_bind_eq_ok {x : Kernel σ α} {f : α → Kernel σ β} {s : σ} {r : β × σ} :
    (x >>= f).run s = .ok r ↔ ∃ a s', x.run s = .ok (a, s') ∧ (f a).run s' = .ok r := by
  rw [run_bind]
  cases hx : x.run s with
  | error msg => simp
  | ok p =>
    obtain ⟨a, s'⟩ := p
    simp

@[ext]
theorem ext_run {x y : Kernel σ α} (h : ∀ s, x.run s = y.run s) : x = y := by
  obtain ⟨f⟩ := x
  obtain ⟨g⟩ := y
  congr
  funext s
  exact h s

theorem bind_assoc' (x : Kernel σ α) (f : α → Kernel σ β) {γ : Type} (g : β → Kernel σ γ) :
    (x >>= f) >>= g = x >>= fun a => f a >>= g := by
  ext1 s
  rw [run_bind, run_bind, run_bind]
  cases x.run s with
  | error msg => rfl
  | ok p => rfl

@[simp]
theorem run_get_bind (f : σ → Kernel σ β) (s : σ) : (get >>= f).run s = (f s).run s := (rfl)

@[simp]
theorem run_modify_bind (g : σ → σ) (f : Unit → Kernel σ β) (s : σ) :
    (modify g >>= f).run s = (f ()).run (g s) := (rfl)

@[simp]
theorem run_forEach_nil (body : ι → Kernel σ Unit) (s : σ) :
    (forEach [] body).run s = .ok ((), s) := (rfl)

theorem run_forEach_cons (i : ι) (rest : List ι) (body : ι → Kernel σ Unit) (s : σ) :
    (forEach (i :: rest) body).run s = (body i >>= fun _ => forEach rest body).run s := (rfl)

theorem run_allM_cons_true {i : ι} {rest : List ι} {body : ι → Kernel σ Bool} {s s1 : σ}
    (h : (body i).run s = .ok (true, s1)) :
    (allM (i :: rest) body).run s = (allM rest body).run s1 := by
  rw [allM, run_bind_of_ok h, if_pos rfl]

theorem run_allM_cons_false {i : ι} {rest : List ι} {body : ι → Kernel σ Bool} {s s1 : σ}
    (h : (body i).run s = .ok (false, s1)) :
    (allM (i :: rest) body).run s = .ok (false, s1) := by
  rw [allM, run_bind_of_ok h]
  rfl

/-- If the computation returns, its value and the new state satisfy `Q`. -/
def Ensures (x : Kernel σ α) (s : σ) (Q : α → σ → Prop) : Prop :=
  ∀ a s', x.run s = .ok (a, s') → Q a s'

variable {x : Kernel σ α} {f : α → Kernel σ β} {s : σ} {P Q : α → σ → Prop} {R : β → σ → Prop}

theorem Ensures.mono (hx : x.Ensures s P) (hPQ : ∀ a s', P a s' → Q a s') : x.Ensures s Q :=
  fun a s' hrun => hPQ a s' (hx a s' hrun)

theorem Ensures.bind (hx : x.Ensures s P) (hf : ∀ a s', P a s' → (f a).Ensures s' R) :
    (x >>= f).Ensures s R := by
  intro b s2 hrun
  obtain ⟨a, s1, hrun1, hrun2⟩ := run_bind_eq_ok.mp hrun
  exact hf a s1 (hx a s1 hrun1) b s2 hrun2

theorem ensures_pure {a : α} (h : Q a s) : (pure a : Kernel σ α).Ensures s Q := by
  intro b s' hrun
  obtain ⟨rfl, rfl⟩ := Prod.mk.inj (Except.ok.inj hrun)
  exact h

theorem ensures_panic (msg : String) : (panic msg : Kernel σ α).Ensures s Q := by
  intro b s' hrun
  cases hrun

theorem ensures_get_bind {f : σ → Kernel σ β} (h : (f s).Ensures s R) :
    (get >>= f).Ensures s R := h

theorem ensures_modify {g : σ → σ} {R : Unit → σ → Prop} (h : R () (g s)) :
    (modify g).Ensures s R := by
  intro b s' hrun
  obtain ⟨rfl, rfl⟩ := Prod.mk.inj (Except.ok.inj hrun)
  exact h

/-- The computation returns, and its value and the new state satisfy `Q`. -/
def Returns (x : Kernel σ α) (s : σ) (Q : α → σ → Prop) : Prop :=
  ∃ a s', x.run s = .ok (a, s') ∧ Q a s'

theorem Returns.mono (hx : x.Returns s P) (hPQ : ∀ a s', P a s' → Q a s') : x.Returns s Q := by
  obtain ⟨a, s', hrun, h⟩ := hx
  exact ⟨a, s', hrun, hPQ a s' h⟩

theorem Returns.bind (hx : x.Returns s P) (hf : ∀ a s', P a s' → (f a).Returns s' R) :
    (x >>= f).Returns s R := by
  obtain ⟨a, s1, hrun, h⟩ := hx
  obtain ⟨b, s2, hrun2, h2⟩ := hf a s1 h
  exact ⟨b, s2, (run_bind_of_ok hrun).trans hrun2, h2⟩

/-- What holds if it returns holds of what it returns. -/
theorem Returns.and (hx : x.Returns s P) (he : x.Ensures s Q) :
    x.Returns s fun a s' => P a s' ∧ Q a s' := by
  obtain ⟨a, s', hrun, h⟩ := hx
  exact ⟨a, s', hrun, h, he a s' hrun⟩

theorem returns_pure {a : α} (h : Q a s) : (pure a : Kernel σ α).Returns s Q := ⟨a, s, rfl, h⟩

theorem returns_get_bind {f : σ → Kernel σ β} (h : (f s).Returns s R) :
    (get >>= f).Returns s R := by
  obtain ⟨b, s', hrun, hR⟩ := h
  exact ⟨b, s', (run_get_bind f s).trans hrun, hR⟩

theorem returns_modify_bind {g : σ → σ} {f : Unit → Kernel σ β} (h : (f ()).Returns (g s) R) :
    (modify g >>= f).Returns s R := by
  obtain ⟨b, s', hrun, hR⟩ := h
  exact ⟨b, s', (run_modify_bind g f s).trans hrun, hR⟩

end Kernel

end Xv6
