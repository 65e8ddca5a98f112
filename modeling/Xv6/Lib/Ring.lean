import Mathlib.Logic.Function.Basic
import Mathlib.Data.List.Nodup

/-!
# Circular doubly linked lists

The nodes of a ring are its head, `none`, and its elements. Two pointer functions lead around it in
either direction. Unlinking an element and inserting one behind the head are the usual four and six
pointer writes, and a walk along the pointers visits what the list says.
-/

namespace Xv6

variable {α : Type}

/-- The pointers lead from `x` through the elements to `y`. -/
def Path (f : Option α → Option α) : Option α → List α → Option α → Prop
  | x, [], y => f x = y
  | x, a :: l, y => f x = some a ∧ Path f (some a) l y

/-- The last node of a path. -/
def lastNode : Option α → List α → Option α
  | x, [] => x
  | _, a :: l => lastNode (some a) l

theorem lastNode_mem (x : Option α) (l : List α) : lastNode x l ∈ x :: l.map some := by
  induction l generalizing x with
  | nil => exact List.mem_cons_self
  | cons a l ih => exact List.mem_cons_of_mem _ (ih (some a))

theorem lastNode_append (x : Option α) (l1 : List α) (b : α) (l2 : List α) :
    lastNode x (l1 ++ b :: l2) = lastNode (some b) l2 := by
  induction l1 generalizing x with
  | nil => rfl
  | cons a l1 ih => exact ih (some a)

/-- The first element of a list is the last node of its reverse. -/
theorem lastNode_reverse (l : List α) : lastNode none l.reverse = l.head? := by
  cases l with
  | nil => rfl
  | cons a l =>
    rw [List.reverse_cons, lastNode_append]
    rfl

namespace Path

variable {f f' : Option α → Option α} {x y : Option α} {l l1 l2 : List α} {b : α}

theorem append_iff : Path f x (l1 ++ b :: l2) y ↔ Path f x l1 (some b) ∧ Path f (some b) l2 y := by
  induction l1 generalizing x with
  | nil => exact Iff.rfl
  | cons a l1 ih =>
    change (f x = some a ∧ Path f (some a) (l1 ++ b :: l2) y) ↔
      (f x = some a ∧ Path f (some a) l1 (some b)) ∧ Path f (some b) l2 y
    rw [ih, and_assoc]

/-- A path may leave from another node with the same pointer. -/
theorem congr {x' : Option α} (h : Path f x l y) (hx : f' x' = f x)
    (hl : ∀ a ∈ l, f' (some a) = f (some a)) : Path f' x' l y := by
  induction l generalizing x x' with
  | nil => exact hx.trans h
  | cons a l ih =>
    exact ⟨hx.trans h.1, ih h.2 (hl a List.mem_cons_self)
      fun c hc => hl c (List.mem_cons_of_mem _ hc)⟩

/-- Where the first pointer leads. -/
theorem start (h : Path f x l none) : f x = l.head? := by
  cases l with
  | nil => exact h
  | cons a l => exact h.1

/-- The last pointer is turned to `y'`. -/
theorem setLast [DecidableEq α] (h : Path f x l y) (hnodup : (x :: l.map some).Nodup)
    (y' : Option α) : Path (Function.update f (lastNode x l) y') x l y' := by
  induction l generalizing x with
  | nil => exact Function.update_self ..
  | cons a l ih =>
    rw [List.map_cons, List.nodup_cons] at hnodup
    have hne : x ≠ lastNode (some a) l := fun heq => hnodup.1 (heq ▸ lastNode_mem (some a) l)
    refine ⟨?_, ih h.2 hnodup.2⟩
    exact (Function.update_of_ne hne _ _).trans h.1

/-- Two paths in a row, without the element between them. -/
theorem splice (h1 : Path f' x l1 (f (some b))) (h2 : Path f (some b) l2 y)
    (hl : ∀ a ∈ l2, f' (some a) = f (some a)) : Path f' x (l1 ++ l2) y := by
  cases l2 with
  | nil =>
    rw [List.append_nil]
    exact (show f (some b) = y from h2) ▸ h1
  | cons c l2 =>
    rw [h2.1] at h1
    rw [append_iff]
    exact ⟨h1, h2.2.congr (hl c List.mem_cons_self) fun a ha => hl a (List.mem_cons_of_mem _ ha)⟩

end Path

/-- The elements met on a walk from a node back to the head. -/
def walk (f : Option α → Option α) : Nat → Option α → List α
  | 0, _ => []
  | _ + 1, none => []
  | fuel + 1, some a => a :: walk f fuel (f (some a))

theorem Path.walk_eq {f : Option α → Option α} {x : Option α} {l : List α} {fuel : Nat}
    (h : Path f x l none) (hfuel : l.length ≤ fuel) : walk f fuel (f x) = l := by
  induction l generalizing x fuel with
  | nil =>
    rw [show f x = none from h]
    cases fuel <;> rfl
  | cons a l ih =>
    obtain ⟨fuel, rfl⟩ := Nat.exists_eq_succ_of_ne_zero (n := fuel) (by
      rintro rfl
      cases hfuel)
    rw [h.1, walk, ih h.2 (Nat.le_of_succ_le_succ hfuel)]

structure Links (α : Type) where
  next : Option α → Option α
  prev : Option α → Option α

structure IsRing (k : Links α) (l : List α) : Prop where
  nodup : l.Nodup
  forward : Path k.next none l none
  backward : Path k.prev none l.reverse none

namespace Links

variable [DecidableEq α]

def setNext (k : Links α) (x y : Option α) : Links α :=
  { k with next := Function.update k.next x y }

def setPrev (k : Links α) (x y : Option α) : Links α :=
  { k with prev := Function.update k.prev x y }

/-- `b->next->prev = b->prev; b->prev->next = b->next`. -/
def unlink (k : Links α) (b : α) : Links α :=
  let k := k.setPrev (k.next (some b)) (k.prev (some b))
  k.setNext (k.prev (some b)) (k.next (some b))

/-- `b->next = head.next; b->prev = &head; head.next->prev = b; head.next = b`. -/
def insertFront (k : Links α) (b : α) : Links α :=
  let k := k.setNext (some b) (k.next none)
  let k := k.setPrev (some b) none
  let k := k.setPrev (k.next none) (some b)
  k.setNext none (some b)

end Links

namespace IsRing

variable {k : Links α} {l l1 l2 : List α} {b : α}

theorem nodup_nodes (h : l.Nodup) : (none :: l.map some).Nodup := by
  rw [List.nodup_cons]
  refine ⟨by simp, h.map fun _ _ heq => Option.some.inj heq⟩

theorem nil : IsRing (⟨fun _ => none, fun _ => none⟩ : Links α) [] :=
  ⟨List.nodup_nil, rfl, rfl⟩

theorem next_elem (h : IsRing k (l1 ++ b :: l2)) : k.next (some b) = l2.head? :=
  (Path.append_iff.mp h.forward).2.start

theorem prev_elem (h : IsRing k (l1 ++ b :: l2)) : k.prev (some b) = lastNode none l1 := by
  have hback := h.backward
  rw [List.reverse_append, List.reverse_cons, List.append_assoc, List.singleton_append] at hback
  rw [(Path.append_iff.mp hback).2.start, ← lastNode_reverse, List.reverse_reverse]

/-- One direction of `unlink`. -/
theorem path_unlink [DecidableEq α] {f : Option α → Option α} (hnodup : (l1 ++ b :: l2).Nodup)
    (h : Path f none (l1 ++ b :: l2) none) :
    Path (Function.update f (lastNode none l1) (f (some b))) none (l1 ++ l2) none := by
  obtain ⟨h1, h2⟩ := Path.append_iff.mp h
  obtain ⟨hn1, hn2, hdisj⟩ := List.nodup_append.mp hnodup
  refine (h1.setLast (nodup_nodes hn1) _).splice h2 fun a ha => ?_
  refine Function.update_of_ne (fun heq => ?_) _ _
  have hmem : some a ∈ none :: l1.map some := heq ▸ lastNode_mem none l1
  simp only [List.mem_cons, reduceCtorEq, List.mem_map, Option.some.injEq, exists_eq_right,
    false_or] at hmem
  exact hdisj a hmem a (List.mem_cons_of_mem _ ha) rfl

theorem unlink [DecidableEq α] (h : IsRing k (l1 ++ b :: l2)) : IsRing (k.unlink b) (l1 ++ l2) := by
  have hnodup := h.nodup
  obtain ⟨hn1, hn2, hdisj⟩ := List.nodup_append.mp hnodup
  obtain ⟨hnb, hn2'⟩ := List.nodup_cons.mp hn2
  have hnext := h.next_elem
  have hne : some b ≠ k.next (some b) := by
    rw [hnext]
    exact fun heq => hnb (List.mem_of_mem_head? heq.symm)
  have hprev : (k.setPrev (k.next (some b)) (k.prev (some b))).prev (some b) = k.prev (some b) :=
    Function.update_of_ne hne _ _
  refine ⟨?_, ?_, ?_⟩
  · exact List.nodup_append.mpr
      ⟨hn1, hn2', fun a ha c hc => hdisj a ha c (List.mem_cons_of_mem _ hc)⟩
  · have hpath := path_unlink hnodup h.forward
    rw [← h.prev_elem, ← hprev] at hpath
    exact hpath
  · have hback := h.backward
    have hrev : (l1 ++ b :: l2).reverse = l2.reverse ++ b :: l1.reverse := by simp
    rw [hrev] at hback
    have hpath := path_unlink (by rw [← hrev]; exact List.nodup_reverse.mpr hnodup) hback
    rw [lastNode_reverse, ← hnext, ← List.reverse_append] at hpath
    exact hpath

theorem insertFront [DecidableEq α] (h : IsRing k l) (hb : b ∉ l) :
    IsRing (k.insertFront b) (b :: l) := by
  have hstart := h.forward.start
  have hne : some b ≠ k.next none := by
    rw [hstart]
    exact fun heq => hb (List.mem_of_mem_head? heq.symm)
  have hother : ∀ a ∈ l, some a ≠ some b := fun a ha heq => hb (Option.some.inj heq ▸ ha)
  have hnext : (k.insertFront b).next =
      Function.update (Function.update k.next (some b) (k.next none)) none (some b) := rfl
  have hprev : (k.insertFront b).prev =
      Function.update (Function.update k.prev (some b) none) (k.next none) (some b) := by
    simp [Links.insertFront, Links.setNext, Links.setPrev]
  refine ⟨List.nodup_cons.mpr ⟨hb, h.nodup⟩, ⟨?_, ?_⟩, ?_⟩
  · rw [hnext, Function.update_self]
  · rw [hnext]
    refine h.forward.congr (by simp) fun a ha => ?_
    rw [Function.update_of_ne (by simp), Function.update_of_ne (hother a ha)]
  · rw [hprev, List.reverse_cons, Path.append_iff]
    refine ⟨?_, ?_⟩
    · have hlast := h.backward.setLast (nodup_nodes (List.nodup_reverse.mpr h.nodup)) (some b)
      rw [lastNode_reverse, ← hstart] at hlast
      refine hlast.congr ?_ fun a ha => ?_
      · by_cases hz : k.next none = none
        · rw [hz, Function.update_self, Function.update_self]
        · rw [Function.update_of_ne (Ne.symm hz), Function.update_of_ne (by simp),
            Function.update_of_ne (Ne.symm hz)]
      · have hab := hother a (List.mem_reverse.mp ha)
        by_cases hz : some a = k.next none
        · rw [hz, Function.update_self, Function.update_self]
        · rw [Function.update_of_ne hz, Function.update_of_ne hab, Function.update_of_ne hz]
    · exact (Function.update_of_ne hne _ _).trans (Function.update_self ..)

end IsRing

end Xv6
