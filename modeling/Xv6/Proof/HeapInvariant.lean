import Xv6.Proof.HeapBlocks

/-!
# `malloc` and `free`

The free blocks and the blocks in use share the memory from `sbrk` without overlap or rest.
-/

namespace Xv6.Umalloc

open List (Perm)
open scoped List

variable {h : Heap} {free : List HeapBlock} {nunits : Nat}

theorem FreeList.split_at (hfree : FreeList h free) {prev : Nat}
    (hprev : prev ∈ (ringOf h free).map Prod.fst) (hsize : 0 < h.size (h.ptr prev)) :
    ∃ us b c vs, ringOf h free = us ++ b :: c :: vs ∧ b.1 = prev ∧ c.1 = h.ptr prev := by
  have hne : h.ptr prev ≠ h.base := by
    intro heq
    rw [heq, hfree.sizes (h.base, 0) List.mem_cons_self] at hsize
    exact absurd hsize (Nat.lt_irrefl 0)
  obtain ⟨us, vs, heq⟩ := hfree.ring.split hprev hne
  obtain ⟨us', rest, hL, rfl, hrest⟩ := List.map_eq_append_iff.mp heq
  obtain ⟨b, rest, rfl, hb, hrest⟩ := List.map_eq_cons_iff.mp hrest
  obtain ⟨c, rest, rfl, hc, rfl⟩ := List.map_eq_cons_iff.mp hrest
  exact ⟨us', b, c, rest, hL, hb, hc⟩

/-- Block `c` of the free list comes right after `b` in the ring. The ring starts with `base`, so
`tl` is what the free list has before `c`. -/
structure AroundBlock (h : Heap) (free us : List HeapBlock) (b c : HeapBlock)
    (tl vs : List HeapBlock) : Prop where
  ring : ringOf h free = us ++ b :: c :: vs
  head : us ++ [b] = (h.base, 0) :: tl
  free : free = tl ++ c :: vs
  before : ∀ u ∈ us ++ [b], Below u c

theorem FreeList.around (hfree : FreeList h free) {us vs : List HeapBlock} {b c : HeapBlock}
    (hL : ringOf h free = us ++ b :: c :: vs) : ∃ tl, AroundBlock h free us b c tl vs := by
  have hsorted := hfree.sorted
  rw [hL] at hsorted
  obtain ⟨-, hsortbc, hus⟩ := List.pairwise_append.mp hsorted
  obtain ⟨tl, htl⟩ : ∃ tl, us ++ [b] = (h.base, 0) :: tl := by
    cases us with
    | nil => exact ⟨[], by rw [(List.cons.inj hL).1]; rfl⟩
    | cons u us => exact ⟨us ++ [b], by rw [(List.cons.inj hL).1]; rfl⟩
  refine ⟨tl, hL, htl, ?_, fun u hu => ?_⟩
  · have hcons : (h.base, 0) :: free = (h.base, 0) :: (tl ++ c :: vs) := by
      rw [← List.cons_append, ← htl, List.append_assoc]
      exact hL
    exact (List.cons.inj hcons).2
  · rcases List.mem_append.mp hu with hu | hu
    · exact hus u hu c (by simp)
    · obtain rfl := List.mem_singleton.mp hu
      exact (List.pairwise_cons.mp hsortbc).1 c List.mem_cons_self

theorem AroundBlock.ringOf_append {us tl vs : List HeapBlock} {b c : HeapBlock}
    (ha : AroundBlock h free us b c tl vs) {h' : Heap} (hbase : h'.base = h.base)
    (ws : List HeapBlock) : ringOf h' (tl ++ ws) = us ++ b :: ws := by
  rw [ringOf, hbase, ← List.cons_append, ← ha.head, List.append_assoc]
  rfl

theorem FreeList.unlink (hfree : FreeList h free) {us tl vs : List HeapBlock} {b c : HeapBlock}
    (ha : AroundBlock h free us b c tl vs) :
    FreeList { h.setPtr b.1 (h.ptr c.1) with freep := b.1 } (tl ++ vs) := by
  have hsizes := hfree.sizes
  have hring := hfree.ring
  have hsorted := hfree.sorted
  rw [ha.ring] at hsizes hsorted
  rw [ha.ring, List.map_append, List.map_cons, List.map_cons] at hring
  obtain ⟨hringus, -, hnextc, hringvs⟩ := leads_append.mp hring
  obtain ⟨-, hsortbc, hus⟩ := List.pairwise_append.mp hsorted
  obtain ⟨hball, -⟩ := List.pairwise_cons.mp hsortbc
  have hbu : b.1 ∉ us.map Prod.fst := by
    intro hmem
    obtain ⟨u, hu, hub⟩ := List.mem_map.mp hmem
    have := (hus u hu b (by simp)).lt
    omega
  have hbv : b.1 ∉ vs.map Prod.fst := by
    intro hmem
    obtain ⟨v, hv, hvb⟩ := List.mem_map.mp hmem
    have := (hball v (by simp [hv])).lt
    omega
  have hringOf : ringOf { h.setPtr b.1 (h.ptr c.1) with freep := b.1 } (tl ++ vs) =
      us ++ b :: vs := ha.ringOf_append rfl vs
  refine ⟨hfree.basePos, ?_, ?_, ?_, ?_, ?_⟩
  · rw [hringOf, List.map_append, List.map_cons]
    refine leads_append.mpr ⟨?_, ?_, ?_⟩
    · exact Leads.update_of_notMem hringus hbu
    · exact (Function.update_self ..).trans hnextc
    · exact Leads.update_of_notMem hringvs hbv
  · rw [hringOf]
    simp
  · rw [hringOf]
    intro d hd
    refine hsizes d ?_
    simp only [List.mem_append, List.mem_cons] at hd ⊢
    tauto
  · intro d hd
    refine hfree.positive d ?_
    rw [ha.free]
    simp only [List.mem_append, List.mem_cons] at hd ⊢
    tauto
  · rw [hringOf]
    refine hsorted.sublist ?_
    exact (List.Sublist.refl us).append ((List.sublist_cons_self c vs).cons_cons b)

theorem FreeList.shrink (hfree : FreeList h free) {us tl vs : List HeapBlock} {b c : HeapBlock}
    (ha : AroundBlock h free us b c tl vs) {k : Nat} (hk : 0 < k) (hlt : k < c.2) (n : Nat) :
    FreeList { (h.setSize c.1 k).setSize (c.1 + sizeofHeader * k) n with freep := b.1 }
      (tl ++ (c.1, k) :: vs) := by
  have hsizes := hfree.sizes
  have hring := hfree.ring
  have hsorted := hfree.sorted
  rw [ha.ring] at hsizes hsorted
  rw [ha.ring, List.map_append, List.map_cons, List.map_cons] at hring
  obtain ⟨hsortus, hsortbc, hus⟩ := List.pairwise_append.mp hsorted
  obtain ⟨hball, hsortc⟩ := List.pairwise_cons.mp hsortbc
  obtain ⟨hcall, hsortvs⟩ := List.pairwise_cons.mp hsortc
  have hstart : c.1 < c.1 + sizeofHeader * k :=
    Nat.lt_add_of_pos_right (Nat.mul_pos (by decide) hk)
  have hend : sizeofHeader * k < sizeofHeader * c.2 := Nat.mul_lt_mul_of_pos_left hlt (by decide)
  have hother : ∀ d ∈ us ++ b :: vs, d.1 ≠ c.1 ∧ d.1 ≠ c.1 + sizeofHeader * k := by
    intro d hd
    have hcase : d ∈ us ++ [b] ∨ d ∈ vs := by
      simp only [List.mem_append, List.mem_cons, List.not_mem_nil, or_false] at hd ⊢
      tauto
    rcases hcase with hd | hd
    · have := (ha.before d hd).lt
      omega
    · have := hcall d hd
      unfold Below at this
      omega
  have hringOf : ringOf { (h.setSize c.1 k).setSize (c.1 + sizeofHeader * k) n with freep := b.1 }
      (tl ++ (c.1, k) :: vs) = us ++ b :: (c.1, k) :: vs := ha.ringOf_append rfl _
  have hcell : (Function.update (Function.update h.size c.1 k) (c.1 + sizeofHeader * k) n) c.1 =
      k := by
    rw [Function.update_of_ne hstart.ne, Function.update_self]
  refine ⟨hfree.basePos, ?_, ?_, ?_, ?_, ?_⟩
  · rw [hringOf, List.map_append, List.map_cons, List.map_cons]
    exact hring
  · rw [hringOf]
    simp
  · rw [hringOf]
    intro d hd
    by_cases hdc : d = (c.1, k)
    · rw [hdc]
      exact hcell
    · have hd' : d ∈ us ++ b :: vs := by
        simp only [List.mem_append, List.mem_cons] at hd ⊢
        tauto
      obtain ⟨h1, h2⟩ := hother d hd'
      refine ((Function.update_of_ne h2 ..).trans (Function.update_of_ne h1 ..)).trans
        (hsizes d ?_)
      simp only [List.mem_append, List.mem_cons] at hd' ⊢
      tauto
  · intro d hd
    by_cases hdc : d = (c.1, k)
    · rw [hdc]
      exact hk
    · refine hfree.positive d ?_
      rw [ha.free]
      simp only [List.mem_append, List.mem_cons] at hd ⊢
      tauto
  · rw [hringOf]
    refine List.pairwise_append.mpr ⟨hsortus, .cons (fun d hd => ?_) (.cons (fun d hd => ?_)
      hsortvs), fun u hu d hd => ?_⟩
    · rcases List.mem_cons.mp hd with rfl | hd
      · exact hball c List.mem_cons_self
      · exact hball d (List.mem_cons_of_mem c hd)
    · have := hcall d hd
      unfold Below at this ⊢
      dsimp only
      omega
    · rcases List.mem_cons.mp hd with rfl | hd
      · exact hus u hu d List.mem_cons_self
      · rcases List.mem_cons.mp hd with rfl | hd
        · exact hus u hu c (by simp)
        · exact hus u hu d (by simp [hd])

theorem FreeList.carve (hfree : FreeList h free) {prev : Nat}
    (hprev : prev ∈ (ringOf h free).map Prod.fst) (hunits : 0 < nunits)
    (hsize : nunits ≤ h.size (h.ptr prev)) :
    ∃ a h' free', h.carve prev (h.ptr prev) nunits = (a + sizeofHeader, h') ∧
      FreeList h' free' ∧ h'.base = h.base ∧ h'.regions = h.regions ∧ h'.size a = nunits ∧
      h.base < a ∧
      (∀ x, cover free x = cover free' x + covered x (a, nunits)) ∧
      ∀ c ≠ a, (∀ b ∈ free, c ≠ b.1) → h'.size c = h.size c := by
  obtain ⟨us, b, c, vs, hL, rfl, hc⟩ := hfree.split_at hprev (lt_of_lt_of_le hunits hsize)
  obtain ⟨tl, ha⟩ := hfree.around hL
  have hcsize : h.size c.1 = c.2 := hfree.sizes c (by rw [hL]; simp)
  rw [← hc, hcsize] at hsize
  have hbase : h.base < c.1 := (ha.before (h.base, 0) (ha.head ▸ List.mem_cons_self)).lt
  by_cases heq : c.2 = nunits
  · have hheap : h.carve b.1 (h.ptr b.1) nunits = (c.1 + sizeofHeader,
        { h.setPtr b.1 (h.ptr c.1) with freep := b.1 }) := by
      rw [Heap.carve, ← hc, hcsize, if_pos heq]
    refine ⟨c.1, _, tl ++ vs, hheap, hfree.unlink ha, rfl, rfl, hcsize.trans heq, hbase,
      fun x => ?_, fun d _ _ => rfl⟩
    rw [ha.free, cover_append, cover_append, cover_cons, ← heq, Prod.mk.eta]
    omega
  · have hrest : 0 < c.2 - nunits := by omega
    have hheap : h.carve b.1 (h.ptr b.1) nunits =
        (c.1 + sizeofHeader * (c.2 - nunits) + sizeofHeader,
        { (h.setSize c.1 (c.2 - nunits)).setSize (c.1 + sizeofHeader * (c.2 - nunits)) nunits with
          freep := b.1 }) := by
      rw [Heap.carve, ← hc, hcsize, if_neg heq]
      have hself : (h.setSize c.1 (c.2 - nunits)).size c.1 = c.2 - nunits :=
        Function.update_self ..
      dsimp only
      rw [hself]
    have hstart : c.1 < c.1 + sizeofHeader * (c.2 - nunits) :=
      Nat.lt_add_of_pos_right (Nat.mul_pos (by decide) hrest)
    refine ⟨c.1 + sizeofHeader * (c.2 - nunits), _, tl ++ (c.1, c.2 - nunits) :: vs, hheap,
      hfree.shrink ha hrest (by omega) nunits, rfl, rfl, Function.update_self ..,
      hbase.trans hstart, fun x => ?_, fun d hda hdfree => ?_⟩
    · have hjoin := covered_join c.1 (c.2 - nunits) nunits x
      rw [Nat.sub_add_cancel hsize, Prod.mk.eta] at hjoin
      rw [ha.free, cover_append, cover_append, cover_cons, cover_cons, hjoin]
      omega
    · have hdc : d ≠ c.1 := hdfree c (by rw [ha.free]; simp)
      exact (Function.update_of_ne hda ..).trans (Function.update_of_ne hdc ..)

def wrapped (freeFuel nunits fuel : Nat) (sbrk : Option (Option Nat)) (h : Heap) :
    Option (Nat × Heap) :=
  match sbrk with
  | none => none
  | some result => do
    match ← h.morecore freeFuel nunits result with
    | none => some (0, h)
    | some h1 => Heap.mallocLoop freeFuel nunits fuel none h1 h1.freep (h1.ptr h1.freep)

theorem mallocLoop_succ (freeFuel nunits fuel : Nat) (sbrk : Option (Option Nat)) (h : Heap)
    (prevp p : Nat) :
    Heap.mallocLoop freeFuel nunits (fuel + 1) sbrk h prevp p =
      if h.size p ≥ nunits then some (h.carve prevp p nunits)
      else if p = h.freep then wrapped freeFuel nunits fuel sbrk h
      else Heap.mallocLoop freeFuel nunits fuel sbrk h p (h.ptr p) := by
  cases sbrk <;> rfl

theorem ring_scan {β : Type} {nunits : Nat} {loop : Nat → Nat → Nat → β} {found : Nat → Nat → β}
    {wrap : Nat → β} (hstep : ∀ fuel prevp p, loop (fuel + 1) prevp p =
      if h.size p ≥ nunits then found prevp p
      else if p = h.freep then wrap fuel
      else loop fuel p (h.ptr p))
    {prev : Nat} {l : List Nat} (hring : Leads h.ptr (prev :: l) h.freep) (hl : h.freep ∉ l) :
    (∃ p ∈ prev :: l, nunits ≤ h.size (h.ptr p) ∧
      ∀ k, loop (k + (l.length + 1)) prev (h.ptr prev) = found p (h.ptr p)) ∨
    (∀ a ∈ h.freep :: l, h.size a < nunits) ∧
      ∀ k, loop (k + (l.length + 1)) prev (h.ptr prev) = wrap k := by
  induction l generalizing prev with
  | nil =>
    have hnext : h.ptr prev = h.freep := hring.1
    by_cases hsize : nunits ≤ h.size h.freep
    · refine .inl ⟨prev, List.mem_cons_self, hnext ▸ hsize, fun k => ?_⟩
      rw [List.length_nil, Nat.zero_add, hstep, hnext, if_pos hsize]
    · refine .inr ⟨by simpa using hsize, fun k => ?_⟩
      rw [List.length_nil, Nat.zero_add, hstep, hnext, if_neg hsize, if_pos rfl]
  | cons a l ih =>
    obtain ⟨hnext, hring'⟩ := hring
    have hnext : h.ptr prev = a := hnext
    have ha : a ≠ h.freep := fun heq => hl (heq ▸ List.mem_cons_self)
    by_cases hsize : nunits ≤ h.size a
    · refine .inl ⟨prev, List.mem_cons_self, hnext ▸ hsize, fun k => ?_⟩
      rw [← Nat.add_assoc, hstep, hnext, if_pos hsize]
    · have hnextStep : ∀ k, loop (k + ((a :: l).length + 1)) prev (h.ptr prev) =
          loop (k + (l.length + 1)) a (h.ptr a) := by
        intro k
        rw [List.length_cons, ← Nat.add_assoc, hstep, hnext, if_neg hsize, if_neg ha]
      rcases ih hring' fun hmem => hl (List.mem_cons_of_mem a hmem) with
        ⟨p, hp, hpsize, hloop⟩ | ⟨hall, hloop⟩
      · exact .inl ⟨p, List.mem_cons_of_mem prev hp, hpsize,
          fun k => (hnextStep k).trans (hloop k)⟩
      · refine .inr ⟨fun b hb => ?_, fun k => (hnextStep k).trans (hloop k)⟩
        rcases List.mem_cons.mp hb with rfl | hb
        · exact hall _ List.mem_cons_self
        · rcases List.mem_cons.mp hb with rfl | hb
          · omega
          · exact hall b (List.mem_cons_of_mem _ hb)

theorem FreeList.nodup (hfree : FreeList h free) : ((ringOf h free).map Prod.fst).Nodup :=
  (hfree.sorted.map Prod.fst fun _ _ hbc => hbc.lt).imp fun hlt => hlt.ne

theorem FreeList.ring_scan (hfree : FreeList h free) {β : Type} {nunits : Nat}
    {loop : Nat → Nat → Nat → β} {found : Nat → Nat → β} {wrap : Nat → β}
    (hstep : ∀ fuel prevp p, loop (fuel + 1) prevp p =
      if h.size p ≥ nunits then found prevp p
      else if p = h.freep then wrap fuel
      else loop fuel p (h.ptr p)) :
    (∃ p ∈ (ringOf h free).map Prod.fst, nunits ≤ h.size (h.ptr p) ∧
      ∀ k, loop (k + (free.length + 1)) h.freep (h.ptr h.freep) = found p (h.ptr p)) ∨
    (∀ b ∈ free, b.2 < nunits) ∧
      ∀ k, loop (k + (free.length + 1)) h.freep (h.ptr h.freep) = wrap k := by
  obtain ⟨us, vs, hL⟩ := List.append_of_mem hfree.freep
  have hlen : (vs ++ us).length = free.length := by
    have := congrArg List.length hL
    rw [List.length_map, ringOf, List.length_cons, List.length_append, List.length_cons] at this
    rw [List.length_append]
    omega
  have hmem : ∀ a, a ∈ h.freep :: (vs ++ us) ↔ a ∈ (ringOf h free).map Prod.fst := by
    intro a
    rw [hL]
    simp only [List.mem_cons, List.mem_append]
    tauto
  have hring : Leads h.ptr (h.freep :: (vs ++ us)) h.freep := by
    have hring := hfree.ring
    rw [hL] at hring
    have hhead : h.base = (us ++ h.freep :: vs).headD 0 := by
      rw [← hL]
      rfl
    rw [hhead] at hring
    exact hring.rotate
  have hnot : h.freep ∉ vs ++ us := by
    have hnodup := hfree.nodup
    rw [hL] at hnodup
    have hperm : us ++ h.freep :: vs ~ h.freep :: vs ++ us := List.perm_append_comm
    have hrot : (h.freep :: (vs ++ us)).Nodup := hperm.nodup_iff.mp hnodup
    exact (List.nodup_cons.mp hrot).1
  rw [← hlen]
  rcases Umalloc.ring_scan hstep hring hnot with ⟨p, hp, hsize, hloop⟩ | ⟨hall, hloop⟩
  · exact .inl ⟨p, (hmem p).mp hp, hsize, hloop⟩
  · refine .inr ⟨fun b hb => ?_, hloop⟩
    have hbL : b ∈ ringOf h free := List.mem_cons_of_mem _ hb
    rw [← hfree.sizes b hbL]
    exact hall b.1 ((hmem _).mpr (List.mem_map_of_mem hbL))

theorem FreeList.scan (hfree : FreeList h free) (nunits : Nat) :
    (∃ p ∈ (ringOf h free).map Prod.fst, nunits ≤ h.size (h.ptr p) ∧ ∀ freeFuel sbrk k,
      Heap.mallocLoop freeFuel nunits (k + (free.length + 1)) sbrk h h.freep (h.ptr h.freep) =
        some (h.carve p (h.ptr p) nunits)) ∨
    (∀ b ∈ free, b.2 < nunits) ∧ ∀ freeFuel sbrk k,
      Heap.mallocLoop freeFuel nunits (k + (free.length + 1)) sbrk h h.freep (h.ptr h.freep) =
        wrapped freeFuel nunits k sbrk h := by
  let loop (fuel prevp p freeFuel : Nat) (sbrk : Option (Option Nat)) :=
    Heap.mallocLoop freeFuel nunits fuel sbrk h prevp p
  have hstep : ∀ fuel prevp p, loop (fuel + 1) prevp p =
      if h.size p ≥ nunits then fun _ _ => some (h.carve prevp p nunits)
      else if p = h.freep then fun freeFuel sbrk => wrapped freeFuel nunits fuel sbrk h
      else loop fuel p (h.ptr p) := by
    intro fuel prevp p
    funext freeFuel sbrk
    simp only [loop, mallocLoop_succ]
    split_ifs <;> rfl
  rcases hfree.ring_scan hstep with ⟨p, hp, hsize, hloop⟩ | ⟨hall, hloop⟩
  · exact .inl ⟨p, hp, hsize, fun freeFuel sbrk k => congrFun (congrFun (hloop k) freeFuel) sbrk⟩
  · exact .inr ⟨hall, fun freeFuel sbrk k => congrFun (congrFun (hloop k) freeFuel) sbrk⟩

structure Inv (h : Heap) (live free : List HeapBlock) : Prop where
  list : FreeList h free
  used : ∀ b ∈ live, h.size b.1 = b.2 ∧ 0 < b.2
  partition : ∀ x, cover free x + cover live x = cover h.regions x
  once : ∀ x, cover h.regions x ≤ 1
  above : ∀ r ∈ h.regions, h.base < r.1

variable {live : List HeapBlock}

theorem Inv.pairwise (hinv : Inv h live free) : (free ++ live).Pairwise Apart := by
  refine pairwise_apart (fun b hb => ?_) fun x => ?_
  · rcases List.mem_append.mp hb with hb | hb
    · exact hinv.list.positive b hb
    · exact (hinv.used b hb).2
  · rw [cover_append, hinv.partition]
    exact hinv.once x

theorem Inv.apart (hinv : Inv h live free) {b c : HeapBlock} (hb : b ∈ free) (hc : c ∈ live) :
    Apart b c :=
  (List.pairwise_append.mp hinv.pairwise).2.2 b hb c hc

theorem Apart.ne {b c : HeapBlock} (hapart : Apart b c) (hb : 0 < b.2) (hc : 0 < c.2) :
    b.1 ≠ c.1 := by
  intro heq
  unfold Apart sizeofHeader at hapart
  omega

theorem Inv.region (hinv : Inv h live free) {b : HeapBlock} (hb : b ∈ free ++ live) {x : Nat}
    (hx : Covers b x) : ∃ r ∈ h.regions, Covers r x := by
  refine exists_of_cover_pos ?_
  rw [← hinv.partition x, ← cover_append]
  exact cover_pos_iff.mpr ⟨b, hb, hx⟩

theorem Inv.base_lt (hinv : Inv h live free) {b : HeapBlock} (hb : b ∈ free ++ live)
    (hpos : 0 < b.2) : h.base < b.1 := by
  obtain ⟨r, hr, hcovers, -⟩ := hinv.region hb (x := b.1)
    ⟨le_refl _, Nat.lt_add_of_pos_right (Nat.mul_pos (by decide) hpos)⟩
  exact lt_of_lt_of_le (hinv.above r hr) hcovers

theorem Inv.end_le (hinv : Inv h live free) {b : HeapBlock} (hb : b ∈ free ++ live)
    (hpos : 0 < b.2) {hp : Nat} (hhp : ∀ r ∈ h.regions, r.1 + sizeofHeader * r.2 ≤ hp) :
    b.1 + sizeofHeader * b.2 ≤ hp := by
  have hlen : 0 < sizeofHeader * b.2 := Nat.mul_pos (by decide) hpos
  obtain ⟨r, hr, hcovers⟩ := hinv.region hb (x := b.1 + sizeofHeader * b.2 - 1)
    ⟨by omega, by omega⟩
  have := hhp r hr
  have := hcovers.2
  omega

theorem Inv.take (hinv : Inv h live free) {prev : Nat}
    (hprev : prev ∈ (ringOf h free).map Prod.fst) (hunits : 0 < nunits)
    (hsize : nunits ≤ h.size (h.ptr prev)) :
    ∃ a h' free', h.carve prev (h.ptr prev) nunits = (a + sizeofHeader, h') ∧
      Inv h' (live ++ [(a, nunits)]) free' ∧ h'.base = h.base ∧ h'.regions = h.regions ∧
      h'.size a = nunits := by
  obtain ⟨a, h', free', hcarve, hlist, hbase, hregions, ha, hlt, hcover, hsame⟩ :=
    hinv.list.carve hprev hunits hsize
  have hpart : ∀ x, cover free' x + cover (live ++ [(a, nunits)]) x = cover h'.regions x := by
    intro x
    rw [cover_append, cover_cons, cover_nil, hregions, ← hinv.partition x, hcover x]
    omega
  refine ⟨a, h', free', hcarve, ⟨hlist, fun b hb => ?_, hpart, hregions ▸ hinv.once, ?_⟩, hbase,
    hregions, ha⟩
  · rcases List.mem_append.mp hb with hb | hb
    · have hpos := (hinv.used b hb).2
      -- the header of another block in use is neither the new one nor that of a free block
      have hba : b.1 ≠ a := by
        have hapart := apart_of_covered (b := b) (c := (a, nunits)) hpos hunits fun x => by
          have h1 := hpart x
          have h2 := covered_le_cover hb x
          have h3 := hinv.once x
          rw [hregions] at h1
          rw [cover_append, cover_cons, cover_nil] at h1
          omega
        exact hapart.ne hpos hunits
      rw [hsame b.1 hba fun c hc => ((hinv.apart hc hb).ne (hinv.list.positive c hc) hpos).symm]
      exact hinv.used b hb
    · obtain rfl := List.mem_singleton.mp hb
      exact ⟨ha, hunits⟩
  · rw [hregions, hbase]
    exact hinv.above

theorem Inv.give (hinv : Inv h live free) {b : HeapBlock} (hb : b ∈ live) :
    ∃ h' free', (∀ fuel, free.length + 2 ≤ fuel → h.free fuel (b.1 + sizeofHeader) = some h') ∧
      Inv h' (live.erase b) free' ∧ h'.base = h.base ∧ h'.regions = h.regions := by
  obtain ⟨hsize, hpos⟩ := hinv.used b hb
  have hlt := hinv.base_lt (List.mem_append_right free hb) hpos
  obtain ⟨h', free', hrun, hlist, hbase, hregions, hcover, -, hsame⟩ :=
    hinv.list.insert hlt hsize hpos fun c hc => hinv.apart hc hb
  refine ⟨h', free', hrun, ⟨hlist, fun c hc => ?_, fun x => ?_, hregions ▸ hinv.once, ?_⟩, hbase,
    hregions⟩
  · have hclive := List.mem_of_mem_erase hc
    have hcpos := (hinv.used c hclive).2
    have hcb : c.1 ≠ b.1 := by
      have hapart := apart_of_covered (b := b) (c := c) hpos hcpos fun x => by
        have h1 := cover_erase hb x
        have h2 := covered_le_cover hc x
        have h3 := hinv.partition x
        have h4 := hinv.once x
        omega
      exact (hapart.ne hpos hcpos).symm
    rw [hsame c.1 hcb
      (fun d hd => ((hinv.apart hd hclive).ne (hinv.list.positive d hd) hcpos).symm)
      (hinv.base_lt (List.mem_append_right free hclive) hcpos).ne']
    exact hinv.used c hclive
  · have h1 := cover_erase hb x
    have h2 := hinv.partition x
    rw [hregions, hcover x]
    rw [Prod.mk.eta]
    omega
  · rw [hregions, hbase]
    exact hinv.above

theorem FreeList.addRegion (hfree : FreeList h free) (hp nu : Nat)
    (hhp : ∀ b ∈ ringOf h free, b.1 ≠ hp) : FreeList (h.addRegion hp nu) free :=
  ⟨hfree.basePos, hfree.ring, hfree.freep,
    fun b hb => (Function.update_of_ne (hhp b hb) ..).trans (hfree.sizes b hb), hfree.positive,
    hfree.sorted⟩

theorem Inv.grow (hinv : Inv h live free) (nunits : Nat) {hp : Nat} (hbase : h.base < hp)
    (hhp : ∀ r ∈ h.regions, r.1 + sizeofHeader * r.2 ≤ hp) :
    ∃ h' free', (∀ fuel, free.length + 2 ≤ fuel →
        h.morecore fuel nunits (some hp) = some (some h')) ∧
      Inv h' live free' ∧ h'.base = h.base ∧
      h'.regions = h.regions ++ [(hp, Heap.moreUnits nunits)] ∧ (∃ b ∈ free', nunits ≤ b.2) := by
  have hunits : nunits ≤ Heap.moreUnits nunits ∧ 0 < Heap.moreUnits nunits := by
    unfold Heap.moreUnits
    split <;> omega
  have hend : ∀ b ∈ free ++ live, b.1 + sizeofHeader * b.2 ≤ hp ∧ 0 < b.2 := by
    intro b hb
    have hpos : 0 < b.2 := by
      rcases List.mem_append.mp hb with hb | hb
      · exact hinv.list.positive b hb
      · exact (hinv.used b hb).2
    exact ⟨hinv.end_le hb hpos hhp, hpos⟩
  have hne : ∀ b ∈ free ++ live, b.1 ≠ hp := by
    intro b hb
    obtain ⟨h1, h2⟩ := hend b hb
    have : 0 < sizeofHeader * b.2 := Nat.mul_pos (by decide) h2
    omega
  have hlist := hinv.list.addRegion hp (Heap.moreUnits nunits) fun b hb => by
    rcases List.mem_cons.mp hb with rfl | hb
    · exact hbase.ne
    · exact hne b (List.mem_append_left _ hb)
  obtain ⟨h', free', hrun, hlist', hbase', hregions, hcover, ⟨b, hb, hbn⟩, hsame⟩ :=
    hlist.insert hbase (Function.update_self hp _ h.size) hunits.2
      fun b hb => .inl (hend b (List.mem_append_left _ hb)).1
  have hregions' : h'.regions = h.regions ++ [(hp, Heap.moreUnits nunits)] := hregions
  have hcover' : ∀ x, cover h'.regions x =
      cover h.regions x + covered x (hp, Heap.moreUnits nunits) := by
    intro x
    rw [hregions', cover_append, cover_cons, cover_nil, Nat.add_zero]
  refine ⟨h', free', fun fuel hfuel => ?_, ⟨hlist', fun c hc => ?_, fun x => ?_, fun x => ?_,
    fun r hr => ?_⟩, hbase', hregions', b, hb, hunits.1.trans hbn⟩
  · rw [Heap.morecore, hrun fuel hfuel]
    rfl
  · have hcmem := List.mem_append_right free hc
    obtain ⟨hcsize, hcpos⟩ := hinv.used c hc
    rw [hsame c.1 (hne c hcmem)
      (fun d hd => ((hinv.apart hd hc).ne (hinv.list.positive d hd) hcpos).symm)
      (hinv.base_lt hcmem hcpos).ne']
    exact ⟨(Function.update_of_ne (hne c hcmem) ..).trans hcsize, hcpos⟩
  · have := hinv.partition x
    rw [hcover', hcover]
    omega
  · -- the new region lies behind the others
    rw [hcover']
    have hx := hinv.once x
    by_cases hxhp : hp ≤ x
    · have hzero : cover h.regions x = 0 := by
        by_contra hpos
        obtain ⟨r, hr, hcovers⟩ := exists_of_cover_pos (Nat.pos_of_ne_zero hpos)
        have := hhp r hr
        have := hcovers.2
        omega
      rw [hzero]
      unfold covered
      split <;> omega
    · have hzero : covered x (hp, Heap.moreUnits nunits) = 0 := if_neg fun hcovers =>
        hxhp hcovers.1
      omega
  · rw [hbase']
    rw [hregions'] at hr
    rcases List.mem_append.mp hr with hr | hr
    · exact hinv.above r hr
    · obtain rfl := List.mem_singleton.mp hr
      exact hbase

theorem Inv.malloc (hinv : Inv h live free) (hunits : 0 < nunits) {sbrk : Option Nat}
    (hsbrk : ∀ hp ∈ sbrk, h.base < hp ∧ ∀ r ∈ h.regions, r.1 + sizeofHeader * r.2 ≤ hp) :
    ∃ ap h' bound, (∀ fuel, bound ≤ fuel →
        Heap.mallocLoop fuel nunits fuel (some sbrk) h h.freep (h.ptr h.freep) = some (ap, h')) ∧
      (ap = 0 ∧ sbrk = none ∧ h' = h ∨ ∃ a free', ap = a + sizeofHeader ∧ h'.size a = nunits ∧
        Inv h' (live ++ [(a, nunits)]) free' ∧ h'.base = h.base) := by
  rcases hinv.list.scan nunits with ⟨p, hp, hsize, hloop⟩ | ⟨hsmall, hloop⟩
  · obtain ⟨a, h', free', hcarve, hinv', hbase, -, ha⟩ := hinv.take hp hunits hsize
    refine ⟨a + sizeofHeader, h', free.length + 1, fun fuel hfuel => ?_,
      .inr ⟨a, free', rfl, ha, hinv', hbase⟩⟩
    obtain ⟨k, hk⟩ := Nat.exists_eq_add_of_le' hfuel
    rw [← hcarve, ← hloop fuel (some sbrk) k, ← hk]
  · cases sbrk with
    | none =>
      refine ⟨0, h, free.length + 1, fun fuel hfuel => ?_, .inl ⟨rfl, rfl, rfl⟩⟩
      obtain ⟨k, hk⟩ := Nat.exists_eq_add_of_le' hfuel
      have := hloop fuel (some none) k
      rw [← hk] at this
      exact this
    | some hp =>
      obtain ⟨hbase, hhp⟩ := hsbrk hp rfl
      obtain ⟨h1, free1, hmore, hinv1, hbase1, -, b, hb, hbn⟩ := hinv.grow nunits hbase hhp
      -- the second scan meets the new block
      rcases hinv1.list.scan nunits with ⟨p, hp', hsize, hloop1⟩ | ⟨hsmall1, -⟩
      · obtain ⟨a, h', free', hcarve, hinv', hbase', -, ha⟩ := hinv1.take hp' hunits hsize
        refine ⟨a + sizeofHeader, h', free.length + free1.length + 2, fun fuel hfuel => ?_,
          .inr ⟨a, free', rfl, ha, hinv', hbase'.trans hbase1⟩⟩
        obtain ⟨k, hk⟩ : ∃ k, fuel = k + (free1.length + 1) + (free.length + 1) :=
          ⟨fuel - (free1.length + 1) - (free.length + 1), by omega⟩
        have h2 := hloop fuel (some (some hp)) (k + (free1.length + 1))
        rw [← hk, wrapped, hmore fuel (by omega)] at h2
        rw [← hcarve, ← hloop1 fuel none k]
        exact h2
      · exact absurd hbn (Nat.not_le.mpr (hsmall1 b hb))

namespace Process

/-- `free` gets a pointer that `malloc` has returned and that is still in use. A request fits into
`2^31` bytes with its header, and `sbrk` fails or returns memory above what it returned before. -/
def Legal (s : Process) : Call → Prop
  | .malloc nbytes sbrk =>
    sizeofHeader * ((nbytes + sizeofHeader - 1) / sizeofHeader + 1) < 2 ^ 31 ∧
      ∀ hp ∈ sbrk, s.heap.base + sizeofHeader ≤ hp ∧
        ∀ r ∈ s.heap.regions, r.1 + sizeofHeader * r.2 ≤ hp
  | .free ap => ∃ b ∈ s.live, b.1 + sizeofHeader = ap

def Returns (s : Process) (call : Call) (ap : Nat) (s' : Process) : Prop :=
  ∃ bound, ∀ fuel, bound ≤ fuel → s.exec fuel call = some (ap, s')

def Step (s : Process) (call : Call) (s' : Process) : Prop :=
  s.Legal call ∧ ∃ ap, s.Returns call ap s'

/-- The blocks of the heap: nobody has called `malloc` yet, or they share the memory. -/
inductive Shares (s : Process) : List HeapBlock → Prop
  | fresh (hfreep : s.heap.freep = 0) (hlive : s.live = []) (hregions : s.heap.regions = []) :
      Shares s []
  | blocks {free : List HeapBlock} (hlist : FreeList s.heap free)
      (hsizes : ∀ b ∈ s.live, s.heap.size b.1 = b.2)
      (hapart : (free ++ s.live).Pairwise Apart)
      (hcover : ∀ x, (∃ b ∈ free ++ s.live, Covers b x) ↔ ∃ r ∈ s.heap.regions, Covers r x) :
      Shares s free

structure HeapOk (s : Process) : Prop where
  shares : ∃ free, Shares s free
  malloc : ∀ nbytes sbrk, s.Legal (.malloc nbytes sbrk) → ∃ ap s',
    s.Returns (.malloc nbytes sbrk) ap s' ∧
      (ap = 0 ∧ sbrk = none ∧ s'.live = s.live ∨ ∃ b, s'.live = s.live ++ [b] ∧
        b.1 + sizeofHeader = ap ∧ ap + nbytes ≤ b.1 + sizeofHeader * b.2 ∧
        ∀ c ∈ s.live, Apart c b)
  free : ∀ ap, s.Legal (.free ap) → ∃ s', s.Returns (.free ap) 0 s'

def Good (s : Process) : Prop :=
  0 < s.heap.base ∧ (s.heap.freep = 0 ∧ s.live = [] ∧ s.heap.regions = [] ∨
    ∃ free, Inv s.heap s.live free)

variable {s s' : Process}

theorem good_start {base : Nat} (h : 0 < base) : Good (start base) := ⟨h, .inl ⟨rfl, rfl, rfl⟩⟩

def init (h : Heap) : Heap :=
  if h.freep = 0 then { (h.setPtr h.base h.base).setSize h.base 0 with freep := h.base } else h

theorem inv_init {h : Heap} (hbase : 0 < h.base) (hfreep : h.freep = 0)
    (hregions : h.regions = []) :
    Inv (init h) [] [] := by
  rw [Process.init, if_pos hfreep]
  refine ⟨⟨hbase, ⟨Function.update_self .., trivial⟩, List.mem_cons_self, fun b hb => ?_,
    fun b hb => absurd hb List.not_mem_nil, List.pairwise_singleton ..⟩,
    fun b hb => absurd hb List.not_mem_nil, fun x => ?_, fun x => ?_, fun r hr => ?_⟩
  · obtain rfl := List.mem_singleton.mp hb
    exact Function.update_self ..
  · change 0 = cover h.regions x
    rw [hregions]
    rfl
  · change cover h.regions x ≤ 1
    rw [hregions]
    exact Nat.zero_le 1
  · change r ∈ h.regions at hr
    rw [hregions] at hr
    exact absurd hr List.not_mem_nil

theorem init_of_inv {h : Heap} {live free : List HeapBlock} (hbase : 0 < h.base)
    (hinv : Inv h live free) : init h = h := by
  have hne : h.freep ≠ 0 := by
    intro hzero
    obtain ⟨b, hb, hbz⟩ := List.mem_map.mp hinv.list.freep
    rcases List.mem_cons.mp hb with rfl | hb
    · dsimp only at hbz
      omega
    · have := hinv.base_lt (List.mem_append_left _ hb) (hinv.list.positive b hb)
      omega
  rw [Process.init, if_neg hne]

theorem Good.init (hgood : Good s) : ∃ free, Inv (init s.heap) s.live free ∧
    (init s.heap).base = s.heap.base ∧ (init s.heap).regions = s.heap.regions := by
  obtain ⟨hbase, ⟨hfreep, hlive, hregions⟩ | ⟨free, hinv⟩⟩ := hgood
  · rw [hlive]
    refine ⟨[], inv_init hbase hfreep hregions, ?_, ?_⟩ <;> rw [Process.init, if_pos hfreep] <;> rfl
  · rw [init_of_inv hbase hinv]
    exact ⟨free, hinv, rfl, rfl⟩

theorem units_eq {nbytes : Nat}
    (h : sizeofHeader * ((nbytes + sizeofHeader - 1) / sizeofHeader + 1) < 2 ^ 31) :
    Heap.units nbytes = (nbytes + sizeofHeader - 1) / sizeofHeader + 1 := by
  unfold Heap.units
  unfold sizeofHeader at *
  omega

theorem Good.malloc (hgood : Good s) {nbytes : Nat} {sbrk : Option Nat}
    (hlegal : s.Legal (.malloc nbytes sbrk)) :
    ∃ ap s', s.Returns (.malloc nbytes sbrk) ap s' ∧ Good s' ∧
      (ap = 0 ∧ sbrk = none ∧ s'.live = s.live ∨ ∃ b, s'.live = s.live ++ [b] ∧
        b.1 + sizeofHeader = ap ∧ ap + nbytes ≤ b.1 + sizeofHeader * b.2 ∧
        ∀ c ∈ s.live, Apart c b) := by
  obtain ⟨hsmall, hsbrk⟩ := hlegal
  obtain ⟨free, hinv, hbase, hregions⟩ := hgood.init
  have hunits := units_eq hsmall
  have hpos : 0 < Heap.units nbytes := Nat.succ_pos _
  have hsbrk' : ∀ hp ∈ sbrk, (Process.init s.heap).base < hp ∧
      ∀ r ∈ (Process.init s.heap).regions, r.1 + sizeofHeader * r.2 ≤ hp := by
    intro hp hhp
    obtain ⟨h1, h2⟩ := hsbrk hp hhp
    rw [hbase, hregions]
    exact ⟨lt_of_lt_of_le (Nat.lt_add_of_pos_right (by decide)) h1, h2⟩
  obtain ⟨ap, h', bound, hloop, hresult⟩ := hinv.malloc hpos hsbrk'
  have hexec : ∀ fuel, bound ≤ fuel → s.heap.malloc fuel nbytes sbrk = some (ap, h') :=
    fun fuel hfuel => hloop fuel hfuel
  rcases hresult with ⟨rfl, hnone, rfl⟩ | ⟨a, free', rfl, ha, hinv', hbase'⟩
  · refine ⟨0, { s with heap := Process.init s.heap }, ⟨bound, fun fuel hfuel => ?_⟩,
      ⟨hbase ▸ hgood.1, .inr ⟨free, hinv⟩⟩, .inl ⟨rfl, hnone, rfl⟩⟩
    rw [exec, hexec fuel hfuel]
    rfl
  · have hne : a + sizeofHeader ≠ 0 := Nat.ne_of_gt (Nat.add_pos_right a (by decide))
    refine ⟨a + sizeofHeader, ⟨h', s.live ++ [(a, Heap.units nbytes)]⟩,
      ⟨bound, fun fuel hfuel => ?_⟩, ⟨(hbase'.trans hbase) ▸ hgood.1, .inr ⟨free', hinv'⟩⟩,
      .inr ⟨(a, Heap.units nbytes), rfl, rfl, ?_, fun c hc => ?_⟩⟩
    · rw [exec, hexec fuel hfuel, Option.map_some]
      dsimp only
      rw [if_neg hne, Nat.add_sub_cancel, ha]
    · dsimp only
      rw [hunits]
      unfold sizeofHeader
      omega
    · have hpair := (List.pairwise_append.mp hinv'.pairwise).2.1
      exact (List.pairwise_append.mp hpair).2.2 c hc _ (by simp)

theorem Good.release (hgood : Good s) {ap : Nat} (hlegal : s.Legal (.free ap)) :
    ∃ s', s.Returns (.free ap) 0 s' ∧ Good s' := by
  obtain ⟨b, hb, rfl⟩ := hlegal
  obtain ⟨hbase, ⟨-, hlive, -⟩ | ⟨free, hinv⟩⟩ := hgood
  · rw [hlive] at hb
    exact absurd hb List.not_mem_nil
  · obtain ⟨h', free', hrun, hinv', hbase', -⟩ := hinv.give hb
    refine ⟨⟨h', s.live.erase b⟩, ⟨free.length + 2, fun fuel hfuel => ?_⟩, hbase' ▸ hbase,
      .inr ⟨free', hinv'⟩⟩
    rw [exec, hrun fuel hfuel, Nat.add_sub_cancel, (hinv.used b hb).1]
    rfl

theorem Returns.unique {call : Call} {ap ap' : Nat} {s1 s2 : Process}
    (h1 : s.Returns call ap s1) (h2 : s.Returns call ap' s2) : s1 = s2 := by
  obtain ⟨b1, h1⟩ := h1
  obtain ⟨b2, h2⟩ := h2
  have heq := (h1 (max b1 b2) (le_max_left ..)).symm.trans (h2 (max b1 b2) (le_max_right ..))
  exact (Prod.mk.inj (Option.some.inj heq)).2

theorem Good.step {call : Call} (hgood : Good s) (hstep : s.Step call s') : Good s' := by
  obtain ⟨hlegal, ap, hreturns⟩ := hstep
  cases call with
  | malloc nbytes sbrk =>
    obtain ⟨ap', s1, hreturns', hgood', -⟩ := hgood.malloc hlegal
    rwa [hreturns.unique hreturns']
  | free p =>
    obtain ⟨s1, hreturns', hgood'⟩ := hgood.release hlegal
    rwa [hreturns.unique hreturns']

theorem Good.ok (hgood : Good s) : HeapOk s := by
  refine ⟨?_, fun nbytes sbrk hlegal => ?_, fun ap hlegal => ?_⟩
  · obtain ⟨hbase, ⟨h1, h2, h3⟩ | ⟨free, hinv⟩⟩ := hgood
    · exact ⟨[], .fresh h1 h2 h3⟩
    · refine ⟨free, .blocks hinv.list (fun b hb => (hinv.used b hb).1) hinv.pairwise fun x => ?_⟩
      rw [← cover_pos_iff, ← cover_pos_iff, cover_append, hinv.partition]
  · obtain ⟨ap, s', hreturns, -, hresult⟩ := hgood.malloc hlegal
    exact ⟨ap, s', hreturns, hresult⟩
  · obtain ⟨s', hreturns, -⟩ := hgood.release hlegal
    exact ⟨s', hreturns⟩

/-- After every sequence of legal calls. -/
theorem heap_invariant (base : Nat) (hbase : 0 < base) (calls : List Call) (s : Process)
    (hrun : Run Step (start base) calls s) : HeapOk s :=
  (Run.invariant Good (fun _ _ _ hgood hstep => hgood.step hstep) (good_start hbase) hrun).ok

/-- A first request that makes the heap grow, and its `free`. -/
theorem heap_invariant_mallocFree : ∃ ap s,
    Run Step (start 64) [.malloc 10 (some 4096), .free ap] s ∧ HeapOk s := by
  have hlegal : (start 64).Legal (.malloc 10 (some 4096)) := by
    refine ⟨by decide, fun hp hhp => ?_⟩
    cases hhp
    exact ⟨by decide, fun r hr => absurd hr List.not_mem_nil⟩
  obtain ⟨ap, s1, hreturns, hgood, ⟨-, hnone, -⟩ | ⟨b, hlive, hb, -⟩⟩ :=
    (good_start (by decide : 0 < 64)).malloc hlegal
  · cases hnone
  · have hfree : s1.Legal (.free ap) := ⟨b, by rw [hlive]; simp, hb⟩
    obtain ⟨s2, hreturns2, -⟩ := hgood.release hfree
    have hrun : Run Step (start 64) [.malloc 10 (some 4096), .free ap] s2 :=
      .cons ⟨hlegal, ap, hreturns⟩ (.cons ⟨hfree, 0, hreturns2⟩ (.nil s2))
    exact ⟨ap, s2, hrun, heap_invariant 64 (by decide) _ s2 hrun⟩

end Process

end Xv6.Umalloc
