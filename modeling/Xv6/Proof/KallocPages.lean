import Xv6.Kalloc
import Xv6.Proof.Booted
import Mathlib.Data.List.Perm.Basic

/-!
# Every page of the pool once

After the two initialisations the pages on the free list and the pages in use are together the whole
pages between the kernel and `PHYSTOP`, each of them once. A call moves one page from one side to
the other, and a store to a page in use does not reach the links.
-/

namespace Xv6

namespace Kmem

variable {kend lo hi v : Nat} {k : Kmem} {l inUse : List Nat}

def link (a : Nat) : Option Nat := if a = 0 then none else some a

def links (k : Kmem) (a : Nat) : Option Nat := link (k.next a)

def pushed (k : Kmem) (v : Nat) : Kmem :=
  { (k.setPage (pageOf v) fun _ => 0x01010101).setNext v k.freelist with freelist := v }

theorem run_kfree (haligned : v % pgSize = 0) (hkend : kend ≤ v) (htop : v2p v < physTop)
    (hlocked : k.locked = false) : (kfree kend v).run k = .ok ((), k.pushed v) := by
  obtain ⟨word, freelist, useLock, locked⟩ := k
  cases hlocked
  have hcond : ¬ (v % pgSize ≠ 0 ∨ v < kend ∨ physTop ≤ v2p v) := by omega
  rw [kfree, if_neg hcond]
  cases useLock with
  | false => rfl
  | true => rfl

theorem run_kalloc (hlocked : k.locked = false) :
    kalloc.run k =
      .ok (k.freelist, if k.freelist = 0 then k else { k with freelist := k.next k.freelist }) := by
  obtain ⟨word, freelist, useLock, locked⟩ := k
  cases hlocked
  by_cases hnull : freelist = 0
  · subst hnull
    cases useLock with
    | false => rfl
    | true => rfl
  · cases useLock with
    | false => simp [kalloc, acquire, release, Kernel.run_bind, hnull, next]
    | true => simp [kalloc, acquire, release, Kernel.run_bind, hnull, next]

theorem of_run_kfree {k' : Kmem} (hrun : (kfree kend v).run k = .ok ((), k')) :
    kend ≤ v ∧ v2p v < physTop := by
  unfold kfree at hrun
  split at hrun
  · cases hrun
  · omega

theorem pageOf_inj {a b : Nat} (hlo : kernBase ≤ lo) (hhi : hi ≤ poolTop)
    (ha : WholePage lo hi a) (hb : WholePage lo hi b) (heq : pageOf a = pageOf b) : a = b := by
  unfold WholePage at ha hb
  have htop : poolTop = 0x8E000000 := rfl
  simp only [pageOf, v2p, pgSize, kernBase] at *
  omega

theorem freelist_eq_of_chain (h : Chain k.links (link k.freelist) l) :
    k.freelist = l.head?.getD 0 := by
  have hhead := h.head_eq
  unfold link at hhead
  split at hhead
  case isTrue hnull =>
    rw [← hhead, hnull]
    rfl
  case isFalse hnull =>
    rw [← hhead]
    rfl

structure Holds (lo hi : Nat) (k : Kmem) (inUse l : List Nat) : Prop where
  chain : Chain k.links (link k.freelist) l
  nodup : (l ++ inUse).Nodup
  mem_iff : ∀ v, v ∈ l ++ inUse ↔ WholePage lo hi v
  unlocked : k.locked = false

theorem Holds.wholePage_of_free (h : Holds lo hi k inUse l) (hv : v ∈ l) : WholePage lo hi v :=
  (h.mem_iff v).mp (List.mem_append_left inUse hv)

theorem Holds.wholePage_of_inUse (h : Holds lo hi k inUse l) (hv : v ∈ inUse) :
    WholePage lo hi v :=
  (h.mem_iff v).mp (List.mem_append_right l hv)

theorem Holds.disjoint (h : Holds lo hi k inUse l) : l.Disjoint inUse :=
  List.disjoint_of_nodup_append h.nodup

theorem Holds.of_word {k' : Kmem} (h : Holds lo hi k inUse l) (hfree : k'.freelist = k.freelist)
    (hlocked : k'.locked = false) (hword : ∀ v ∈ l, k'.word (pageOf v) = k.word (pageOf v)) :
    Holds lo hi k' inUse l := by
  refine ⟨?_, h.nodup, h.mem_iff, hlocked⟩
  rw [hfree]
  apply h.chain.congr
  intro a ha
  rw [links, next, hword a ha]
  rfl

theorem links_pushed_self (k : Kmem) (hfree : k.freelist < 2 ^ 32) (v : Nat) :
    (k.pushed v).links v = link k.freelist := by
  simp only [links, next, pushed, setNext, setPage, Function.update_self, BitVec.toNat_ofNat]
  rw [Nat.mod_eq_of_lt hfree]

theorem links_pushed_of_ne {a : Nat} (hne : pageOf a ≠ pageOf v) :
    (k.pushed v).links a = k.links a := by
  simp only [links, next, pushed, setNext, setPage, Function.update_of_ne hne]

theorem chain_pushed (hlo : kernBase ≤ lo) (hhi : hi ≤ poolTop)
    (hchain : Chain k.links (link k.freelist) l) (hl : ∀ a ∈ l, WholePage lo hi a)
    (hv : WholePage lo hi v) (hnew : v ∉ l) :
    Chain (k.pushed v).links (link (k.pushed v).freelist) (v :: l) := by
  have hne : v ≠ 0 := by
    have hpos : 0 < kernBase := by decide
    have hle : lo ≤ v := hv.2.1
    omega
  have hbound : k.freelist < 2 ^ 32 := by
    rw [freelist_eq_of_chain hchain]
    cases l with
    | nil => decide
    | cons a l =>
      have htop : poolTop < 2 ^ 32 := by decide
      have hend : a + pgSize ≤ hi := (hl a List.mem_cons_self).2.2
      exact (Nat.le_add_right a pgSize).trans_lt (by omega)
  refine ⟨if_neg hne, ?_⟩
  rw [links_pushed_self k hbound]
  apply hchain.congr
  intro a ha
  apply links_pushed_of_ne
  intro heq
  have hav : a = v := pageOf_inj hlo hhi (hl a ha) hv heq
  exact hnew (hav ▸ ha)

theorem v2p_lt_of_wholePage (hlo : kernBase ≤ lo) (hhi : hi ≤ poolTop) (hv : WholePage lo hi v) :
    v2p v < physTop := by
  unfold WholePage at hv
  have htop : poolTop = 0x8E000000 := rfl
  simp only [v2p, pgSize, kernBase, physTop] at *
  omega

theorem Holds.kfree (h : Holds lo hi k inUse l) (hlo : kernBase ≤ lo) (hhi : hi ≤ poolTop)
    (hkend : kend ≤ lo) (hv : v ∈ inUse) :
    (Kmem.kfree kend v).run k = .ok ((), k.pushed v) ∧
      Holds lo hi (k.pushed v) (inUse.erase v) (v :: l) := by
  have hpage : WholePage lo hi v := h.wholePage_of_inUse hv
  have hnew : v ∉ l := fun hmem => h.disjoint hmem hv
  have hperm : (v :: l ++ inUse.erase v).Perm (l ++ inUse) := by
    calc (v :: l ++ inUse.erase v).Perm (l ++ v :: inUse.erase v) := List.perm_middle.symm
      _ |>.Perm (l ++ inUse) := (List.perm_cons_erase hv).symm.append_left l
  constructor
  · apply run_kfree hpage.1 (hkend.trans hpage.2.1) _ h.unlocked
    exact v2p_lt_of_wholePage hlo hhi hpage
  · refine ⟨?_, hperm.nodup_iff.mpr h.nodup, ?_, h.unlocked⟩
    · exact chain_pushed hlo hhi h.chain (fun a ha => h.wholePage_of_free ha) hpage hnew
    · intro a
      rw [hperm.mem_iff]
      exact h.mem_iff a

theorem Holds.kalloc (h : Holds lo hi k inUse l) (hlo : kernBase ≤ lo) :
    (l = [] ∧ Kmem.kalloc.run k = .ok (0, k)) ∨
    ∃ r rest k', l = r :: rest ∧ r ≠ 0 ∧ Kmem.kalloc.run k = .ok (r, k') ∧
      Holds lo hi k' (r :: inUse) rest := by
  have hrun := run_kalloc h.unlocked
  rw [freelist_eq_of_chain h.chain] at hrun
  cases l with
  | nil =>
    left
    rw [hrun]
    exact ⟨rfl, rfl⟩
  | cons r rest =>
    right
    have hne : r ≠ 0 := by
      have hpos : 0 < kernBase := by decide
      have hle : lo ≤ r := (h.wholePage_of_free List.mem_cons_self).2.1
      omega
    rw [List.head?_cons, Option.getD_some, if_neg hne] at hrun
    have hperm : (rest ++ r :: inUse).Perm (r :: rest ++ inUse) := List.perm_middle
    refine ⟨r, rest, _, rfl, hne, hrun, ?_, hperm.nodup_iff.mpr h.nodup, ?_, h.unlocked⟩
    · exact h.chain.2
    · intro a
      rw [hperm.mem_iff]
      exact h.mem_iff a

theorem wholePage_succ_iff {p : Nat} (hp : p % pgSize = 0) (hlo : lo ≤ p) (v : Nat) :
    WholePage lo (p + pgSize) v ↔ v = p ∨ WholePage lo p v := by
  simp only [WholePage, pgSize] at *
  omega

theorem Holds.add {p : Nat} (h : Holds lo p k inUse l) (hlo : kernBase ≤ lo) (hp : p % pgSize = 0)
    (hle : lo ≤ p) (htop : p + pgSize ≤ poolTop) (hkend : kend ≤ lo) :
    (Kmem.kfree kend p).run k = .ok ((), k.pushed p) ∧
      Holds lo (p + pgSize) (k.pushed p) inUse (p :: l) := by
  have hpage : WholePage lo (p + pgSize) p := ⟨hp, hle, Nat.le_refl _⟩
  have hnew : p ∉ l ++ inUse := by
    intro hmem
    have hend : p + pgSize ≤ p := ((h.mem_iff p).mp hmem).2.2
    exact absurd hend (by simp [pgSize])
  constructor
  · apply run_kfree hp (hkend.trans hle) _ h.unlocked
    exact v2p_lt_of_wholePage hlo htop hpage
  · refine ⟨?_, List.nodup_cons.mpr ⟨hnew, h.nodup⟩, ?_, h.unlocked⟩
    · refine chain_pushed hlo htop h.chain ?_ hpage ?_
      · intro a ha
        exact (wholePage_succ_iff hp hle a).mpr (.inr (h.wholePage_of_free ha))
      · exact fun hmem => hnew (List.mem_append_left inUse hmem)
    · intro a
      rw [wholePage_succ_iff hp hle, ← h.mem_iff]
      exact List.mem_cons

theorem Holds.freeLoop {p vend fuel : Nat} (h : Holds lo p k inUse l) (hlo : kernBase ≤ lo)
    (hkend : kend ≤ lo) (hle : lo ≤ p) (hend : p ≤ vend) (htop : vend ≤ poolTop)
    (hp : p % pgSize = 0) (hvend : vend % pgSize = 0) (hfuel : (vend - p) / pgSize < fuel) :
    (Kmem.freeLoop kend vend fuel p).Returns k fun _ k' => ∃ l', Holds lo vend k' inUse l' := by
  induction fuel generalizing p k l with
  | zero => exact absurd hfuel (Nat.not_lt_zero _)
  | succ fuel ih =>
    have hmax : poolTop + pgSize < 2 ^ 32 := by decide
    rw [Kmem.freeLoop, Nat.mod_eq_of_lt (show p + pgSize < 2 ^ 32 by omega)]
    by_cases hround : p + pgSize ≤ vend
    · obtain ⟨hrun, hholds⟩ := h.add hlo hp hle (hround.trans htop) hkend
      rw [if_pos hround]
      simp only [pgSize] at *
      obtain ⟨u, k', hrest, hl'⟩ := ih hholds (by omega) hround (by omega) (by omega)
      exact ⟨u, k', (Kernel.run_bind_of_ok hrun).trans hrest, hl'⟩
    · have heq : p = vend := by
        simp only [pgSize] at *
        omega
      rw [if_neg hround]
      exact ⟨(), k, rfl, l, heq ▸ h⟩

theorem Holds.freerange {vstart vend : Nat} (h : Holds lo (pgRoundUp vstart) k inUse l)
    (hlo : kernBase ≤ lo) (hkend : kend ≤ lo) (hle : lo ≤ pgRoundUp vstart)
    (hend : pgRoundUp vstart ≤ vend) (htop : vend ≤ poolTop) (hvend : vend % pgSize = 0) :
    (Kmem.freerange kend vstart vend).Returns k fun _ k' => ∃ l', Holds lo vend k' inUse l' := by
  have hpages : (vend - pgRoundUp vstart) / pgSize < 2 ^ 20 + 1 := by
    have hmax : poolTop = 0x8E000000 := rfl
    simp only [pgSize]
    omega
  rw [Kmem.freerange]
  exact h.freeLoop hlo hkend hle hend htop (Nat.mul_mod_left ..) hvend hpages

structure Fits (kend : Nat) : Prop where
  base : kernBase ≤ pgRoundUp kend
  le_roundUp : kend ≤ pgRoundUp kend
  le_initTop : pgRoundUp kend ≤ initTop

theorem kinit1_returns (hfits : Fits kend) (hnull : k.freelist = 0) :
    (kinit1 kend kend initTop).Returns k fun _ k' =>
      ∃ l, Holds (pgRoundUp kend) initTop k' [] l := by
  have hempty : Holds (pgRoundUp kend) (pgRoundUp kend)
      { k with locked := false, useLock := false } [] [] := by
    refine ⟨if_pos hnull, List.nodup_nil, ?_, rfl⟩
    intro v
    simp only [List.append_nil, List.not_mem_nil, WholePage, pgSize, false_iff]
    omega
  apply Kernel.returns_modify_bind
  exact hempty.freerange hfits.base hfits.le_roundUp (Nat.le_refl _) hfits.le_initTop (by decide)
    (by decide)

theorem Holds.kinit2 (h : Holds lo initTop k inUse l) (hlo : kernBase ≤ lo) (hkend : kend ≤ lo)
    (hle : lo ≤ initTop) :
    (Kmem.kinit2 kend initTop poolTop).Returns k fun _ k' =>
      ∃ l', Holds lo poolTop k' inUse l' := by
  have hstart : pgRoundUp initTop = initTop := by decide
  rw [← hstart] at h hle
  obtain ⟨u, k', hrun, l', hl'⟩ :=
    h.freerange hlo hkend hle (by decide) (Nat.le_refl poolTop) (by decide)
  refine ⟨(), { k' with useLock := true }, Kernel.run_bind_of_ok hrun, l', ?_⟩
  exact hl'.of_word rfl hl'.unlocked fun _ _ => rfl

theorem of_run_freeLoop {k' : Kmem} {p vend fuel : Nat}
    (hrun : (freeLoop kend vend fuel p).run k = .ok ((), k'))
    (hround : (p + pgSize) % 2 ^ 32 ≤ vend) : kend ≤ p ∧ v2p p < physTop := by
  cases fuel with
  | zero => cases hrun
  | succ fuel =>
    rw [freeLoop, if_pos hround] at hrun
    obtain ⟨_, k1, hfirst, _⟩ := Kernel.run_bind_eq_ok.mp hrun
    exact of_run_kfree hfirst

theorem fits_of_kinit {k1 k2 k3 : Kmem} (hinit1 : (kinit1 kend kend initTop).run k = .ok ((), k1))
    (hinit2 : (Kmem.kinit2 kend initTop poolTop).run k2 = .ok ((), k3)) : Fits kend := by
  have htop : initTop = 0x80400000 := rfl
  obtain ⟨_, k', hrange, _⟩ := Kernel.run_bind_eq_ok.mp hinit2
  have hkend : kend ≤ pgRoundUp initTop := (of_run_freeLoop hrange (by decide)).1
  rw [show pgRoundUp initTop = 0x80400000 by decide] at hkend
  rw [kinit1, Kernel.run_modify_bind] at hinit1
  have hfirst := of_run_freeLoop hinit1
  simp only [pgRoundUp, pgSize, v2p, physTop, kernBase] at *
  constructor
  · simp only [pgRoundUp, pgSize, kernBase]
    omega
  · simp only [pgRoundUp, pgSize]
    omega
  · simp only [pgRoundUp, pgSize]
    omega

theorem Holds.step {s s' : Pages} {c : PageCall} (hfits : Fits kend) (hhi : hi ≤ poolTop)
    (h : Holds (pgRoundUp kend) hi s.kmem s.inUse l) (hstep : s.Step kend c s') :
    ∃ l', Holds (pgRoundUp kend) hi s'.kmem s'.inUse l' := by
  cases c with
  | kalloc =>
    obtain ⟨r, k, hrun, rfl⟩ := hstep
    obtain ⟨-, hnone⟩ | ⟨r', rest, k', -, hne, hsome, hholds⟩ := h.kalloc hfits.base
    · obtain ⟨rfl, rfl⟩ := Prod.mk.inj (Except.ok.inj (hrun.symm.trans hnone))
      exact ⟨l, h⟩
    · obtain ⟨rfl, rfl⟩ := Prod.mk.inj (Except.ok.inj (hrun.symm.trans hsome))
      rw [if_neg hne]
      exact ⟨rest, hholds⟩
  | kfree v =>
    obtain ⟨hv, k, hrun, rfl⟩ := hstep
    obtain ⟨hfreed, hholds⟩ := h.kfree hfits.base hhi hfits.le_roundUp hv
    obtain ⟨-, rfl⟩ := Prod.mk.inj (Except.ok.inj (hrun.symm.trans hfreed))
    exact ⟨v :: l, hholds⟩
  | store page i w =>
    obtain ⟨hstore, rfl⟩ := hstep
    refine ⟨l, h.of_word rfl h.unlocked ?_⟩
    intro v hv
    apply Function.update_of_ne
    intro heq
    obtain ⟨haligned, hlo, hend⟩ := h.wholePage_of_free hv
    exact h.disjoint hv (hstore v ⟨haligned, hlo, hend.trans hhi⟩ heq)

theorem Holds.run {s s' : Pages} {cs : List PageCall} (hfits : Fits kend) (hhi : hi ≤ poolTop)
    (h : Holds (pgRoundUp kend) hi s.kmem s.inUse l) (hrun : Run (Pages.Step kend) s cs s') :
    ∃ l', Holds (pgRoundUp kend) hi s'.kmem s'.inUse l' := by
  apply Run.invariant (fun s => ∃ l, Holds (pgRoundUp kend) hi s.kmem s.inUse l) _ ⟨l, h⟩ hrun
  rintro s1 c s2 ⟨l1, h1⟩ hstep
  exact h1.step hfits hhi hstep

end Kmem

open Kmem

namespace Pages

variable {kend : Nat} {s : Pages}

theorem Reached.holds (h : Reached kend s) :
    Fits kend ∧ ∃ l, Kmem.Holds (pgRoundUp kend) poolTop s.kmem s.inUse l := by
  obtain ⟨k0, k1, s1, k2, before, after, hnull, hinit1, hbefore, hinit2, hafter⟩ := h
  have hfits : Fits kend := fits_of_kinit hinit1 hinit2
  obtain ⟨_, k1', hrun1, l1, h1⟩ := kinit1_returns hfits hnull
  obtain ⟨-, rfl⟩ := Prod.mk.inj (Except.ok.inj (hinit1.symm.trans hrun1))
  have hstart : Kmem.Holds (pgRoundUp kend) initTop (Pages.mk k1 []).kmem (Pages.mk k1 []).inUse
    l1 := h1
  obtain ⟨l2, h2⟩ := hstart.run hfits (by decide) hbefore
  obtain ⟨_, k2', hrun2, l3, h3⟩ := h2.kinit2 hfits.base hfits.le_roundUp hfits.le_initTop
  obtain ⟨-, rfl⟩ := Prod.mk.inj (Except.ok.inj (hinit2.symm.trans hrun2))
  have hagain : Kmem.Holds (pgRoundUp kend) poolTop (Pages.mk k2 s1.inUse).kmem
    (Pages.mk k2 s1.inUse).inUse l3 := h3
  exact ⟨hfits, hagain.run hfits (Nat.le_refl _) hafter⟩

theorem exists_reached (hfits : Fits kend) (k : Kmem) (hnull : k.freelist = 0) :
    ∃ s w, Reached kend s ∧ s.inUse = [w] := by
  obtain ⟨_, k1, hrun1, l1, h1⟩ := kinit1_returns hfits hnull
  obtain ⟨_, k2, hrun2, l2, h2⟩ := h1.kinit2 hfits.base hfits.le_roundUp hfits.le_initTop
  have hfirst : WholePage (pgRoundUp kend) poolTop initTop :=
    ⟨by decide, hfits.le_initTop, by decide⟩
  have hsecond : WholePage (pgRoundUp kend) poolTop (initTop + pgSize) :=
    ⟨by decide, hfits.le_initTop.trans (Nat.le_add_right _ _), by decide⟩
  obtain ⟨rfl, -⟩ | ⟨v, _, k3, -, hv, hrun3, h3⟩ := h2.kalloc hfits.base
  · exact absurd ((h2.mem_iff _).mpr hfirst) List.not_mem_nil
  obtain ⟨rfl, -⟩ | ⟨w, _, k4, -, hw, hrun4, h4⟩ := h3.kalloc hfits.base
  · have hv1 := List.mem_singleton.mp ((h3.mem_iff _).mpr hfirst)
    have hv2 := List.mem_singleton.mp ((h3.mem_iff _).mpr hsecond)
    exact absurd (hv1.trans hv2.symm) (by decide)
  have hwv : w ≠ v := by
    rintro rfl
    exact absurd (List.nodup_append.mp h4.nodup).2.1 (by simp)
  have hrun5 := (h4.kfree hfits.base (Nat.le_refl _) hfits.le_roundUp
    (List.mem_cons_of_mem w (List.mem_singleton.mpr rfl))).1
  refine ⟨⟨k4.pushed v, [w]⟩, w, ⟨k, k1, ⟨k1, []⟩, k2, [], [.kalloc, .kalloc, .kfree v], hnull,
    hrun1, .nil _, hrun2, ?_⟩, rfl⟩
  exact .cons ⟨v, k3, hrun3, by rw [if_neg hv]⟩ (.cons ⟨w, k4, hrun4, by rw [if_neg hw]⟩
    (.cons ⟨by simp, _, hrun5, by simp [hwv]⟩ (.nil _)))

/-- The free list ends, its pages and those in use are together the whole pages from the kernel to
`PHYSTOP`, each of them once, and every call keeps to them. -/
theorem Reached.pages_once (h : Reached kend s) :
    ∃ l, Chain s.kmem.links (link s.kmem.freelist) l ∧ l.Nodup ∧
      (∀ v ∈ l, v % pgSize = 0 ∧ kend ≤ v ∧ v + pgSize ≤ poolTop) ∧
      l.Disjoint s.inUse ∧ (l ++ s.inUse).Nodup ∧
      (∀ v, v ∈ l ++ s.inUse ↔ WholePage (pgRoundUp kend) poolTop v) ∧
      (Kmem.kalloc.Returns s.kmem fun r _ => r ∉ s.inUse ∧ (r ≠ 0 → r ∈ l) ∧
        (r = 0 → ∀ v, WholePage (pgRoundUp kend) poolTop v → v ∈ s.inUse)) ∧
      ∀ v ∈ s.inUse, (Kmem.kfree kend v).Returns s.kmem fun _ _ => True := by
  obtain ⟨hfits, l, hl⟩ := h.holds
  refine ⟨l, hl.chain, (List.nodup_append.mp hl.nodup).1, ?_, hl.disjoint, hl.nodup, hl.mem_iff,
    ?_, ?_⟩
  · intro v hv
    obtain ⟨haligned, hlo, hend⟩ := hl.wholePage_of_free hv
    exact ⟨haligned, hfits.le_roundUp.trans hlo, hend⟩
  · obtain ⟨rfl, hnone⟩ | ⟨r, rest, k', rfl, hne, hsome, -⟩ := hl.kalloc hfits.base
    · refine ⟨0, s.kmem, hnone, ?_, fun hne => absurd rfl hne, fun _ v hv => (hl.mem_iff v).mpr hv⟩
      intro hmem
      have hzero : kernBase ≤ 0 := hfits.base.trans (hl.wholePage_of_inUse hmem).2.1
      exact absurd hzero (by decide)
    · exact ⟨r, k', hsome, fun hmem => hl.disjoint List.mem_cons_self hmem,
        fun _ => List.mem_cons_self, fun hzero => absurd hzero hne⟩
  · intro v hv
    exact ⟨(), _, (hl.kfree hfits.base (Nat.le_refl _) hfits.le_roundUp hv).1, trivial⟩

/-- A kernel of a little over 1 MB that has taken two pages and given back one. -/
theorem Reached.pages_once_boot :
    ∃ s l w, Reached 0x8010A5A8 s ∧ s.inUse = [w] ∧ Chain s.kmem.links (link s.kmem.freelist) l ∧
      ∀ v, v ∈ l ++ s.inUse ↔ WholePage 0x8010B000 0x8E000000 v := by
  obtain ⟨s, w, hs, hused⟩ := @exists_reached 0x8010A5A8 ⟨by decide, by decide, by decide⟩
    ⟨fun _ _ => 0, 0, false, false⟩ rfl
  obtain ⟨l, hchain, -, -, -, -, hmem, -⟩ := hs.pages_once
  exact ⟨s, l, w, hs, hused, hchain, hmem⟩

end Pages

namespace Kmem

variable {k : Kmem} {m m' : Machine} {kend page : Nat}

def pageAddr (page : Nat) : Nat := kernBase + page * pgSize

/-- The list of free pages that a machine has is linked through its memory. -/
structure Represents (kend : Nat) (k : Kmem) (m : Machine) : Prop where
  kend_le : kend ≤ pageAddr m.kend
  word : k.word = m.word
  chain : Chain k.links (link k.freelist) (m.free.map pageAddr)
  free_lt : ∀ page ∈ m.free, page * pgSize < physTop
  unlocked : k.locked = false

theorem wholePage_pageAddr (hpage : page * pgSize < physTop) :
    WholePage kernBase poolTop (pageAddr page) := by
  have htop : poolTop = 0x8E000000 := rfl
  simp only [WholePage, pageAddr, pgSize, physTop, kernBase] at *
  omega

theorem pageOf_pageAddr (hpage : page * pgSize < physTop) : pageOf (pageAddr page) = page := by
  simp only [pageOf, pageAddr, v2p, pgSize, physTop, kernBase] at *
  omega

theorem Represents.kfree (h : Represents kend k m) (hnew : page ∉ m.free)
    (hrun : (Xv6.kfree page).run m = .ok ((), m')) :
    ∃ k', (Kmem.kfree kend (pageAddr page)).run k = .ok ((), k') ∧ Represents kend k' m' := by
  unfold Xv6.kfree at hrun
  rw [Kernel.run_get_bind] at hrun
  split at hrun
  case isTrue => cases hrun
  case isFalse hcond =>
    obtain ⟨-, rfl⟩ := Prod.mk.inj (Except.ok.inj hrun)
    have hpage : page * pgSize < physTop := by omega
    have hwhole := wholePage_pageAddr hpage
    have hpast : m.kend ≤ page := by omega
    have haddr : kend ≤ pageAddr page :=
      h.kend_le.trans (Nat.add_le_add_left (Nat.mul_le_mul_right pgSize hpast) kernBase)
    have hphys : v2p (pageAddr page) < physTop :=
      v2p_lt_of_wholePage (Nat.le_refl kernBase) (Nat.le_refl poolTop) hwhole
    refine ⟨_, run_kfree hwhole.1 haddr hphys h.unlocked, h.kend_le, ?_, ?_, ?_, h.unlocked⟩
    · -- The link stored is the address of the first free page.
      have hcontent : Function.update (fun _ => 0x01010101) 0 (BitVec.ofNat 32 k.freelist) =
          freedPage m.free := by
        rw [freelist_eq_of_chain h.chain]
        cases m.free with
        | nil => rfl
        | cons head rest => rfl
      simp only [pushed, setNext, setPage, Machine.setPage, pageOf_pageAddr hpage, h.word,
        Function.update_self, Function.update_idem, hcontent]
    · apply chain_pushed (Nat.le_refl _) (Nat.le_refl _) h.chain _ hwhole
      · intro hmem
        obtain ⟨other, hother, heq⟩ := List.mem_map.mp hmem
        have hsame : other = page := by
          simp only [pageAddr, pgSize] at heq
          omega
        exact hnew (hsame ▸ hother)
      · intro a ha
        obtain ⟨other, hother, rfl⟩ := List.mem_map.mp ha
        exact wholePage_pageAddr (h.free_lt other hother)
    · intro other hother
      rcases List.mem_cons.mp hother with rfl | hold
      · exact hpage
      · exact h.free_lt other hold

theorem Represents.kalloc {r : Option Nat} (h : Represents kend k m)
    (hrun : Xv6.kalloc.run m = .ok (r, m')) :
    ∃ k', Kmem.kalloc.run k = .ok ((r.map pageAddr).getD 0, k') ∧ Represents kend k' m' := by
  have hptr := run_kalloc h.unlocked
  rw [freelist_eq_of_chain h.chain] at hptr
  unfold Xv6.kalloc at hrun
  rw [Kernel.run_get_bind] at hrun
  cases hfree : m.free with
  | nil =>
    rw [hfree] at hrun hptr
    obtain ⟨rfl, rfl⟩ := Prod.mk.inj (Except.ok.inj hrun)
    exact ⟨k, hptr, h⟩
  | cons page rest =>
    rw [hfree] at hrun hptr
    obtain ⟨rfl, rfl⟩ := Prod.mk.inj (Except.ok.inj hrun)
    have hne : pageAddr page ≠ 0 := by
      simp only [pageAddr, kernBase]
      omega
    have hchain := h.chain
    rw [hfree] at hchain
    rw [List.map_cons, List.head?_cons, Option.getD_some, if_neg hne] at hptr
    refine ⟨_, hptr, h.kend_le, h.word, hchain.2, ?_, h.unlocked⟩
    intro other hother
    exact h.free_lt other (by rw [hfree]; exact List.mem_cons_of_mem page hother)

theorem Represents.store (h : Represents kend k m) (hpage : page ∉ m.free)
    (content : Nat → Word) :
    Represents kend (k.setPage page content) (m.setPage page content) := by
  refine ⟨h.kend_le, ?_, h.chain.congr fun a ha => ?_, h.free_lt, h.unlocked⟩
  · rw [setPage, Machine.setPage, h.word]
  · obtain ⟨other, hother, rfl⟩ := List.mem_map.mp ha
    have hne : pageOf (pageAddr other) ≠ page := by
      rw [pageOf_pageAddr (h.free_lt other hother)]
      rintro rfl
      exact hpage hother
    simp only [links, next, setPage, Function.update_of_ne hne]

inductive MemoryOp
  | kalloc (r : Option Nat)
  | kfree (page : Nat)
  | store (page : Nat) (content : Nat → Word)

def MachineStep (m : Machine) : MemoryOp → Machine → Prop
  | .kalloc r, m' => Xv6.kalloc.run m = .ok (r, m')
  | .kfree page, m' => page ∉ m.free ∧ (Xv6.kfree page).run m = .ok ((), m')
  | .store page content, m' => page ∉ m.free ∧ m' = m.setPage page content

def MemoryStep (kend : Nat) (k : Kmem) : MemoryOp → Kmem → Prop
  | .kalloc r, k' => Kmem.kalloc.run k = .ok ((r.map pageAddr).getD 0, k')
  | .kfree page, k' => (Kmem.kfree kend (pageAddr page)).run k = .ok ((), k')
  | .store page content, k' => k' = k.setPage page content

/-- Memory that is written wherever it is not free hands out the pages the list says. -/
theorem freelist_refines {ops : List MemoryOp} (h : Represents kend k m)
    (hrun : Run MachineStep m ops m') :
    ∃ k', Run (MemoryStep kend) k ops k' ∧ Represents kend k' m' := by
  induction hrun generalizing k with
  | nil => exact ⟨k, .nil k, h⟩
  | @cons m m1 _ op _ hstep _ ih =>
    obtain ⟨k1, hk1, h1⟩ : ∃ k1, MemoryStep kend k op k1 ∧ Represents kend k1 m1 := by
      cases op with
      | kalloc r => exact h.kalloc hstep
      | kfree page => exact h.kfree hstep.1 hstep.2
      | store page content =>
        obtain ⟨hpage, rfl⟩ := hstep
        exact ⟨_, rfl, h.store hpage content⟩
    obtain ⟨k', hk', h'⟩ := ih h1
    exact ⟨k', .cons hk1 hk', h'⟩

theorem freelist_refines_booted : ∃ m' k',
    Run (MemoryStep kernBase) ⟨(booted 3 0).word, 0, true, false⟩
      [.kfree 20000, .kfree 20001, .kalloc (some 20001), .store 20001 fun _ => 7,
        .kalloc (some 20000), .kalloc none] k' ∧ Represents kernBase k' m' := by
  have h : Represents kernBase ⟨(booted 3 0).word, 0, true, false⟩ (booted 3 0) :=
    ⟨by decide, rfl, rfl, by simp [booted], rfl⟩
  exact ⟨_, freelist_refines h (.cons ⟨by simp [booted], rfl⟩ (.cons ⟨by simp [booted], rfl⟩
    (.cons rfl (.cons ⟨by simp [booted], rfl⟩ (.cons rfl (.cons rfl (.nil _)))))))⟩

end Kmem

end Xv6
