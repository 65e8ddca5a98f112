import Xv6.AddressSpace
import Xv6.Proof.WordLemmas

/-!
# What each page of memory is used for

Every page has one role: it is free, or the directory, a kernel table or the kernel stack of one
process, or the page table at one directory index, or the page at one user page number. Tables and
user pages may be shared between processes, but only at the same index and page number. The layout
is stated for a set of processes, so that a process being torn down can be left out of it.
-/

namespace Xv6

inductive Role
  | free
  | dir (p : Fin nproc)
  | ktable (p : Fin nproc) (i : Nat)
  | kstack (p : Fin nproc)
  | table (i : Nat)
  | page (a : Nat)
  | other
  deriving DecidableEq

structure Space (s : Machine) (role : Nat → Role) (p : Fin nproc) : Prop where
  dir : role (s.proc p).pgdir = .dir p
  kstack : role (s.proc p).kstack = .kstack p
  low : s.tables p ≤ 512
  table : ∀ i < s.tables p, (s.pde p i).present = true ∧ role (s.tab p i) = .table i
  noTable : ∀ i, s.tables p ≤ i → i < 512 → (s.pde p i).present = false
  page : ∀ a < s.pages p, (s.pte p a).present = true ∧ role (s.frame p a) = .page a
  noPage : ∀ a, s.pages p ≤ a → a / 1024 < s.tables p → (s.pte p a).present = false
  ktable : ∀ i, 512 ≤ i → i < 1024 → (s.pde p i).present = true →
    role (s.tab p i) = .ktable p i ∧ ∀ j < 1024, (s.word (s.tab p i) j).user = false

structure Pool (s : Machine) (role : Nat → Role) : Prop where
  nodup : s.free.Nodup
  free : ∀ f ∈ s.free, role f = .free
  range : ∀ f, role f ≠ .other → s.kend ≤ f ∧ f * pgSize < physTop
  kend : 0 < s.kend
  kdata : extMem < s.kdata * pgSize ∧ s.kdata * pgSize < physTop

structure Layout (s : Machine) (role : Nat → Role) (H : Fin nproc → Prop) : Prop where
  pool : Pool s role
  space : ∀ p, H p → Space s role p

theorem Layout.mono {s : Machine} {role : Nat → Role} {H H' : Fin nproc → Prop}
    (hL : Layout s role H) (h : ∀ p, H' p → H p) : Layout s role H' :=
  ⟨hL.pool, fun p hp => hL.space p (h p hp)⟩

def Uses (s : Machine) (p : Fin nproc) (f : Nat) : Prop :=
  f = (s.proc p).pgdir ∨ f = (s.proc p).kstack ∨
    (∃ i < 1024, (s.pde p i).present = true ∧ f = s.tab p i) ∨
    ∃ a < s.pages p, f = s.frame p a

theorem Machine.tables_le_of_lt {s : Machine} {p : Fin nproc} {a : Nat} (h : a < s.pages p) :
    a / 1024 < s.tables p := by
  simp only [Machine.tables]
  omega

theorem Space.role_of_uses {s : Machine} {role : Nat → Role} {p : Fin nproc} (hs : Space s role p)
    {f : Nat} (h : Uses s p f) :
    role f = .dir p ∨ role f = .kstack p ∨ (∃ i < 512, role f = .table i) ∨
      (∃ i, role f = .ktable p i) ∨ ∃ a, role f = .page a := by
  rcases h with rfl | rfl | ⟨i, hi, hpres, rfl⟩ | ⟨a, ha, rfl⟩
  · exact Or.inl hs.dir
  · exact Or.inr (Or.inl hs.kstack)
  · by_cases hlow : i < 512
    · by_cases htab : i < s.tables p
      · exact Or.inr (Or.inr (Or.inl ⟨i, hlow, (hs.table i htab).2⟩))
      · rw [hs.noTable i (by omega) hlow] at hpres
        exact absurd hpres (by simp)
    · exact Or.inr (Or.inr (Or.inr (Or.inl ⟨i, (hs.ktable i (by omega) hi hpres).1⟩)))
  · exact Or.inr (Or.inr (Or.inr (Or.inr ⟨a, (hs.page a ha).2⟩)))

theorem Space.not_uses_of_free {s : Machine} {role : Nat → Role} {p : Fin nproc}
    (hs : Space s role p) {f : Nat} (h : role f = .free) : ¬Uses s p f := by
  intro huse
  rcases hs.role_of_uses huse with h' | h' | ⟨i, -, h'⟩ | ⟨i, h'⟩ | ⟨a, h'⟩ <;>
    · rw [h] at h'
      cases h'

structure Apart (s : Machine) (p : Fin nproc) (f : Nat) : Prop where
  dir : (s.proc p).pgdir ≠ f
  tab : ∀ i < 1024, (s.pde p i).present = true → s.tab p i ≠ f

theorem apart_of_not_uses {s : Machine} {p : Fin nproc} {f : Nat} (h : ¬Uses s p f) :
    Apart s p f where
  dir := fun heq => h (Or.inl heq.symm)
  tab i hi hpres heq := h (Or.inr (Or.inr (Or.inl ⟨i, hi, hpres, heq.symm⟩)))

def SameEntry (w' w : Word) : Prop :=
  pteAddr w' = pteAddr w ∧ Word.present w' = Word.present w ∧ Word.user w' = Word.user w

theorem SameEntry.refl (w : Word) : SameEntry w w := ⟨rfl, rfl, rfl⟩

theorem SameEntry.of_eq {w w' : Word} (h : w' = w) : SameEntry w' w := h ▸ SameEntry.refl w

theorem SameEntry.symm {w w' : Word} (h : SameEntry w' w) : SameEntry w w' :=
  ⟨h.1.symm, h.2.1.symm, h.2.2.symm⟩

theorem SameEntry.trans {w w' w'' : Word} (h1 : SameEntry w'' w') (h2 : SameEntry w' w) :
    SameEntry w'' w :=
  ⟨h1.1.trans h2.1, h1.2.1.trans h2.2.1, h1.2.2.trans h2.2.2⟩

theorem sameEntry_setW (w : Word) : SameEntry (w ||| pteW) w := by simp [SameEntry]

theorem sameEntry_clearW (w : Word) : SameEntry (w &&& ~~~pteW) w := by simp [SameEntry]

theorem sameEntry_setA (w : Word) : SameEntry (w ||| pteA) w := by simp [SameEntry]

theorem sameEntry_setAD (w : Word) : SameEntry (w ||| (pteA ||| pteD)) w := by
  rw [← BitVec.or_assoc]
  simp [SameEntry]

structure SameMaps (s' s : Machine) (p : Fin nproc) : Prop where
  pgdir : (s'.proc p).pgdir = (s.proc p).pgdir
  sz : (s'.proc p).sz = (s.proc p).sz
  dir : ∀ i < 1024, SameEntry (s'.pde p i) (s.pde p i)
  tab : ∀ i < 1024, (s.pde p i).present = true → ∀ j, j < 1024 →
    SameEntry (s'.word (s.tab p i) j) (s.word (s.tab p i) j)

namespace SameMaps

variable {s s' : Machine} {p : Fin nproc}

theorem pages (h : SameMaps s' s p) : s'.pages p = s.pages p := by
  simp only [Machine.pages, h.sz]

theorem tables (h : SameMaps s' s p) : s'.tables p = s.tables p := by
  simp only [Machine.tables, h.pages]

theorem tab_eq (h : SameMaps s' s p) {i : Nat} (hi : i < 1024) : s'.tab p i = s.tab p i :=
  (h.dir i hi).1

theorem pte (h : SameMaps s' s p) {a : Nat} (ha : a / 1024 < 1024)
    (hpres : (s.pde p (a / 1024)).present = true) : SameEntry (s'.pte p a) (s.pte p a) := by
  simp only [Machine.pte]
  rw [h.tab_eq ha]
  exact h.tab _ ha hpres _ (Nat.mod_lt _ (by decide))

theorem frame (h : SameMaps s' s p) {a : Nat} (ha : a / 1024 < 1024)
    (hpres : (s.pde p (a / 1024)).present = true) : s'.frame p a = s.frame p a :=
  (h.pte ha hpres).1

end SameMaps

theorem Space.of_sameMaps {s s' : Machine} {role role' : Nat → Role} {p : Fin nproc}
    (hs : Space s role p) (hm : SameMaps s' s p)
    (hkstack : (s'.proc p).kstack = (s.proc p).kstack)
    (hrole : ∀ f, Uses s p f → role' f = role f) : Space s' role' p := by
  have hlow := hs.low
  have hpte : ∀ a, a / 1024 < s.tables p → SameEntry (s'.pte p a) (s.pte p a) := fun a ha =>
    hm.pte (by omega) (hs.table _ ha).1
  refine ⟨?_, ?_, ?_, ?_, ?_, ?_, ?_, ?_⟩
  · rw [hm.pgdir, hrole _ (Or.inl rfl)]
    exact hs.dir
  · rw [hkstack, hrole _ (Or.inr (Or.inl rfl))]
    exact hs.kstack
  · rw [hm.tables]
    exact hs.low
  · intro i hi
    rw [hm.tables] at hi
    have htable := hs.table i hi
    rw [(hm.dir i (by omega)).2.1, hm.tab_eq (by omega),
      hrole _ (Or.inr (Or.inr (Or.inl ⟨i, by omega, htable.1, rfl⟩)))]
    exact htable
  · intro i hi hlt
    rw [hm.tables] at hi
    rw [(hm.dir i (by omega)).2.1]
    exact hs.noTable i hi hlt
  · intro a ha
    rw [hm.pages] at ha
    have hsame := hpte a (Machine.tables_le_of_lt ha)
    rw [hsame.2.1, Machine.frame, hsame.1]
    change _ ∧ role' (s.frame p a) = _
    rw [hrole _ (Or.inr (Or.inr (Or.inr ⟨a, ha, rfl⟩)))]
    exact hs.page a ha
  · intro a ha hlt
    rw [hm.pages] at ha
    rw [hm.tables] at hlt
    rw [(hpte a hlt).2.1]
    exact hs.noPage a ha hlt
  · intro i hi hlt hpres
    rw [(hm.dir i hlt).2.1] at hpres
    have hk := hs.ktable i hi hlt hpres
    rw [hm.tab_eq hlt, hrole _ (Or.inr (Or.inr (Or.inl ⟨i, hlt, hpres, rfl⟩)))]
    refine ⟨hk.1, fun j hj => ?_⟩
    rw [(hm.tab i hlt hpres j hj).2.2]
    exact hk.2 j hj

theorem Machine.canRead_of_same {s s' : Machine} {p : Fin nproc} {va : Nat}
    (hdir : SameEntry (s'.pde p (va / 2 ^ 22)) (s.pde p (va / 2 ^ 22)))
    (hpte : (s.pde p (va / 2 ^ 22)).present = true →
      SameEntry (s'.pte p (va / pgSize)) (s.pte p (va / pgSize))) :
    s'.canRead p va = s.canRead p va := by
  simp only [Machine.canRead, hdir.2.1, hdir.2.2]
  cases hpres : (s.pde p (va / 2 ^ 22)).present with
  | false => simp
  | true => simp [(hpte hpres).2.1, (hpte hpres).2.2]

theorem div_pgSize_div_1024 (va : Nat) : va / pgSize / 1024 = va / 2 ^ 22 := by
  simp only [pgSize]
  omega

theorem SameMaps.canRead {s s' : Machine} {p : Fin nproc} (h : SameMaps s' s p) {va : Nat}
    (hva : va < 2 ^ 32) : s'.canRead p va = s.canRead p va := by
  have hidx := div_pgSize_div_1024 va
  refine Machine.canRead_of_same (h.dir _ (by omega)) fun hpres => h.pte (by omega) ?_
  rw [hidx]
  exact hpres

end Xv6
