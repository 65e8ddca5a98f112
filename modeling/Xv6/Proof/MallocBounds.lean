import Xv6.Malloc
import Xv6.Proof.Growproc
import Xv6.Proof.HeapInvariant

/-!
# What malloc returns and what the process owns

A request of up to `2^31 - 16` bytes asks `sbrk` for a positive number of bytes, and `malloc`
returns a block below the break or `0`, unless the kernel has raised the break over a page that it
could not map. Above that the number of units wraps to one, or the number of bytes wraps to zero or
to a negative increment, which `growproc` takes as a request to shrink.
-/

namespace Xv6

section Sbrk

variable {m m1 : Machine} {cur : Fin nproc} {n r : Int}

theorem run_sysSbrk (h : (growproc cur n).run m = .ok (r, m1)) :
    (sysSbrk cur n).run m = .ok (if r < 0 then none else some (m.proc cur).sz, m1) := by
  rw [sysSbrk, Kernel.run_get_bind, Kernel.run_bind_of_ok h, Kernel.run_pure]

theorem isSome_userPage {va : Nat} (hva : va < 2 ^ 32) :
    (m.userPage cur va).isSome = true ↔ m.mapped cur (va / pgSize) := by
  rw [Machine.userPage_eq m cur hva, Machine.mapped, ← Bool.and_eq_true]
  split_ifs with hpres <;> simp [hpres]

theorem isNone_userPage_zero : (m.userPage cur 0).isNone = true ↔ ¬m.mapped cur 0 := by
  have hsome : (m.userPage cur 0).isSome = true ↔ m.mapped cur 0 := isSome_userPage (by decide)
  rw [← hsome, ← Option.not_isSome, Bool.not_eq_true', Bool.not_eq_true]

/-- A call that fails leaves the size; it frees all pages if the size would be zero. -/
theorem Grew.failed (hS : Sized m cur) (h : Grew m cur n r m1) (hr : r < 0) :
    (m1.proc cur).sz = (m.proc cur).sz ∧ (0 < m.pages cur →
      (m1.mapped cur 0 ↔ 0 ≤ n) ∧
        (0 ≤ n → ¬((m.proc cur).sz + n < kernBase ∧ Affords m cur n))) := by
  cases h with
  | zero | grown | lost | wrapped | shrunk => omega
  | refused hn hbig =>
    refine ⟨rfl, fun hpos => ⟨?_, fun _ h => by omega⟩⟩
    exact iff_of_true ((hS.mapped 0 (by decide)).mpr hpos) (by omega)
  | short hn _ _ _ hlen hother _ hadd hrem =>
    refine ⟨by rw [hrem.proc, hadd.proc], fun hpos => ⟨?_, fun _ h => ?_⟩⟩
    · rw [hrem.mapped (by decide) (.inl hpos), hadd.keep 0 (by decide) (.inl hpos),
        hS.mapped 0 (by decide)]
      exact iff_of_true hpos (by omega)
    · rcases h.2 with hle | hlost
      · omega
      · exact hother hlost
  | empty hn hsz =>
    refine ⟨rfl, fun hpos => ?_⟩
    rw [Machine.pages, hsz] at hpos
    exact absurd hpos (by decide)
  | emptied hn hzero hrem =>
    refine ⟨by rw [hrem.proc], fun hpos => ⟨?_, fun h => by omega⟩⟩
    exact iff_of_false (hrem.gone 0 le_rfl hpos) (by omega)

/-- A call that grows maps all pages below the new size but the one whose table is lost. -/
theorem Grew.grew (hS : Sized m cur) (h : Grew m cur n r m1) (hn : 0 < n) (hr : 0 ≤ r) :
    ((m1.proc cur).sz : Int) = (m.proc cur).sz + n ∧
      ((m.proc cur).sz + n < kernBase ∧ Affords m cur n) ∧
      ∀ b < npages (m1.proc cur).sz,
        (m1.mapped cur b ↔ b + 1 < npages (m1.proc cur).sz ∨ ¬LosesTable m cur n) := by
  have hold := npages_le (le_of_lt hS.size)
  cases h with
  | refused | short | empty | emptied | zero | wrapped | shrunk => omega
  | @grown t newsz _ hnew hlt hk hlen hadd =>
    have hlast := npages_le (le_of_lt hlt)
    refine ⟨by rw [Machine.withSize_sz]; exact hnew, ⟨by omega, .inl hlen⟩, fun b hb => ?_⟩
    rw [Machine.withSize_sz] at hb
    refine iff_of_true ((t.withSize_mapped cur cur newsz b).mpr ?_) (.inr fun h => ?_)
    · by_cases hnewb : m.pages cur ≤ b
      · exact (hadd.new b hnewb (by omega)).1
      · exact (hadd.keep b (by omega) (.inl (by omega))).mpr
          ((hS.mapped b (by omega)).mpr (by omega))
    · have := h.1
      omega
  | @lost t newsz _ hnew hlt hk hlen hpos hcost hadd =>
    have hlast := npages_le (le_of_lt hlt)
    refine ⟨by rw [Machine.withSize_sz]; exact hnew, ⟨by omega, .inr ⟨hlen, hcost⟩⟩, fun b hb => ?_⟩
    rw [Machine.withSize_sz] at hb ⊢
    rw [t.withSize_mapped cur cur newsz b, or_iff_left (not_not.mpr ⟨hlen, hcost⟩)]
    by_cases hnewb : m.pages cur ≤ b ∧ b + 1 < npages newsz
    · exact iff_of_true (hadd.new b hnewb.1 (by omega)).1 hnewb.2
    · rw [hadd.keep b (by omega) (by omega), hS.mapped b (by omega)]
      omega

end Sbrk

namespace Umalloc

def around (cur : Fin nproc) (nunits : Nat) (m : Machine) (h : Heap) (fuel freeFuel : Nat) :
    Option Ended :=
  match (sysSbrk cur (sbrkArg nunits)).run m with
  | .error _ => some .fault
  | .ok (sbrk, m1) =>
    if (m1.userPage cur 0).isNone then some .fault
    else
      match sbrk with
      | none => some (.returned 0 h m1)
      | some hp =>
        if headerThere m1 cur hp then do
          let h1 ← (h.addRegion hp (Heap.moreUnits nunits)).free freeFuel (hp + sizeofHeader)
          growLoop cur freeFuel nunits fuel m1 h1 h1.freep (h1.ptr h1.freep)
        else some .fault

section Loop

variable {h : Heap} {live free : List HeapBlock} {nunits sz : Nat} {cur : Fin nproc}
  {m m1 : Machine} {r : Int}

theorem Inv.scan (hinv : Inv h live free) (hunits : 0 < nunits)
    (hregions : ∀ r ∈ h.regions, r.1 + sizeofHeader * r.2 ≤ sz) (cur : Fin nproc) (m : Machine) :
    (∃ a h', h'.size a = nunits ∧ h.base < a ∧ a + sizeofHeader * nunits ≤ sz ∧
      (∃ b ∈ free, nunits ≤ b.2) ∧ ∀ k freeFuel,
        growLoop cur freeFuel nunits (k + (free.length + 1)) m h h.freep (h.ptr h.freep) =
          some (.returned (a + sizeofHeader) h' m)) ∨
    (∀ b ∈ free, b.2 < nunits) ∧ ∀ k freeFuel,
      growLoop cur freeFuel nunits (k + (free.length + 1)) m h h.freep (h.ptr h.freep) =
        around cur nunits m h k freeFuel := by
  let loop (fuel prevp p freeFuel : Nat) := growLoop cur freeFuel nunits fuel m h prevp p
  have hstep : ∀ fuel prevp p, loop (fuel + 1) prevp p =
      if h.size p ≥ nunits then fun _ =>
        some (.returned (h.carve prevp p nunits).1 (h.carve prevp p nunits).2 m)
      else if p = h.freep then around cur nunits m h fuel
      else loop fuel p (h.ptr p) := by
    intro fuel prevp p
    funext freeFuel
    simp only [loop, growLoop]
    split_ifs <;> rfl
  rcases hinv.list.ring_scan hstep with ⟨p, hp, hsize, hloop⟩ | ⟨hall, hloop⟩
  · obtain ⟨a, h', free', hcarve, hinv', hbase, hregions', ha⟩ := hinv.take hp hunits hsize
    have hmem : (a, nunits) ∈ free' ++ (live ++ [(a, nunits)]) := by simp
    obtain ⟨us, b, c, vs, hL, -, hc⟩ := hinv.list.split_at hp (hunits.trans_le hsize)
    have hcring : c ∈ ringOf h free := by
      rw [hL]
      simp
    have hcsize := hinv.list.sizes c hcring
    rw [hc] at hcsize
    refine .inl ⟨a, h', ha, hbase ▸ hinv'.base_lt hmem hunits,
      hinv'.end_le hmem hunits (hregions' ▸ hregions), ⟨c, ?_, by omega⟩, fun k freeFuel => ?_⟩
    · rcases List.mem_cons.mp hcring with rfl | hcfree
      · dsimp only at hcsize
        omega
      · exact hcfree
    · have hrun := congrFun (hloop k) freeFuel
      rw [hcarve] at hrun
      exact hrun
  · exact .inr ⟨hall, fun k freeFuel => congrFun (hloop k) freeFuel⟩

/-- How a call of `malloc` can end, if `growproc` returns `r` and leaves `m1`. -/
inductive Ends (cur : Fin nproc) (m m1 : Machine) (r : Int) (nunits base : Nat)
    (free : List HeapBlock) : Ended → Prop
  | found {a : Nat} {h' : Heap} (hblock : ∃ b ∈ free, nunits ≤ b.2) (hsize : h'.size a = nunits)
      (hbase : base < a) (hend : a + sizeofHeader * nunits ≤ (m.proc cur).sz) :
      Ends cur m m1 r nunits base free (.returned (a + sizeofHeader) h' m)
  | refused {h' : Heap} (hsmall : ∀ b ∈ free, b.2 < nunits) (hr : r < 0)
      (hcode : m1.mapped cur 0) : Ends cur m m1 r nunits base free (.returned 0 h' m1)
  | fault (hsmall : ∀ b ∈ free, b.2 < nunits) (hgone : ¬m1.mapped cur 0 ∨
      0 ≤ r ∧ headerThere m1 cur (m.proc cur).sz = false) : Ends cur m m1 r nunits base free .fault
  | grown {a : Nat} {h' : Heap} (hsmall : ∀ b ∈ free, b.2 < nunits) (hr : 0 ≤ r)
      (hsize : h'.size a = nunits) (hbase : base < a)
      (hend : a + sizeofHeader * nunits ≤
        (m.proc cur).sz + sizeofHeader * Heap.moreUnits nunits) :
      Ends cur m m1 r nunits base free (.returned (a + sizeofHeader) h' m1)

theorem around_eq (hrun : (growproc cur (sbrkArg nunits)).run m = .ok (r, m1)) (h : Heap)
    (fuel freeFuel : Nat) : around cur nunits m h fuel freeFuel =
      if (m1.userPage cur 0).isNone = true then some .fault
      else if r < 0 then some (.returned 0 h m1)
      else if headerThere m1 cur (m.proc cur).sz = true then do
        let h1 ← (h.addRegion (m.proc cur).sz (Heap.moreUnits nunits)).free freeFuel
          ((m.proc cur).sz + sizeofHeader)
        growLoop cur freeFuel nunits fuel m1 h1 h1.freep (h1.ptr h1.freep)
      else some .fault := by
  rw [around, run_sysSbrk hrun]
  by_cases hr : r < 0
  · simp only [if_pos hr]
  · simp only [if_neg hr]

theorem free_of_morecore {fuel hp : Nat} {h1 : Heap}
    (hmore : h.morecore fuel nunits (some hp) = some (some h1)) :
    (h.addRegion hp (Heap.moreUnits nunits)).free fuel (hp + sizeofHeader) = some h1 := by
  rw [Heap.morecore] at hmore
  cases hfree : (h.addRegion hp (Heap.moreUnits nunits)).free fuel (hp + sizeofHeader) with
  | none =>
    rw [hfree] at hmore
    cases hmore
  | some h2 =>
    rw [hfree] at hmore
    cases hmore
    rfl

theorem Inv.growLoop (hinv : Inv h live free) (hunits : 0 < nunits)
    (hbase : h.base < (m.proc cur).sz)
    (hregions : ∀ r ∈ h.regions, r.1 + sizeofHeader * r.2 ≤ (m.proc cur).sz)
    (hrun : (growproc cur (sbrkArg nunits)).run m = .ok (r, m1)) :
    ∃ bound e, (∀ fuel, bound ≤ fuel →
      growLoop cur fuel nunits fuel m h h.freep (h.ptr h.freep) = some e) ∧
      Ends cur m m1 r nunits h.base free e := by
  rcases hinv.scan hunits hregions cur m with
    ⟨a, h', hsize, hlt, hend, hblock, hloop⟩ | ⟨hsmall, hloop⟩
  · refine ⟨free.length + 1, _, fun fuel hfuel => ?_, .found hblock hsize hlt hend⟩
    obtain ⟨k, hk⟩ := Nat.exists_eq_add_of_le' hfuel
    have hrun := hloop k fuel
    rwa [← hk] at hrun
  · have hstart : ∀ fuel, free.length + 1 ≤ fuel → ∃ k, fuel = k + (free.length + 1) ∧
        Umalloc.growLoop cur fuel nunits fuel m h h.freep (h.ptr h.freep) =
          around cur nunits m h k fuel := by
      intro fuel hfuel
      obtain ⟨k, hk⟩ := Nat.exists_eq_add_of_le' hfuel
      have hrun := hloop k fuel
      rw [← hk] at hrun
      exact ⟨k, hk, hrun⟩
    by_cases hcode : m1.mapped cur 0
    · have hstays : ¬(m1.userPage cur 0).isNone = true :=
        fun hnone => isNone_userPage_zero.mp hnone hcode
      by_cases hr : r < 0
      · refine ⟨free.length + 1, .returned 0 h m1, fun fuel hfuel => ?_, .refused hsmall hr hcode⟩
        obtain ⟨k, -, hloop⟩ := hstart fuel hfuel
        rw [hloop, around_eq hrun, if_neg hstays, if_pos hr]
      · by_cases hthere : headerThere m1 cur (m.proc cur).sz = true
        · obtain ⟨h1, free1, hmore, hinv1, hbase1, hregions1, b, hb, hbn⟩ :=
            hinv.grow nunits hbase hregions
          have hend1 : ∀ r ∈ h1.regions, r.1 + sizeofHeader * r.2 ≤
              (m.proc cur).sz + sizeofHeader * Heap.moreUnits nunits := by
            intro r hr
            rw [hregions1] at hr
            rcases List.mem_append.mp hr with hr | hr
            · exact (hregions r hr).trans (Nat.le_add_right _ _)
            · rw [List.mem_singleton.mp hr]
          -- the second scan meets the new block
          rcases hinv1.scan hunits hend1 cur m1 with
            ⟨a, h', hsize, hlt, hend, -, hloop1⟩ | ⟨hsmall1, -⟩
          · refine ⟨free.length + free1.length + 2, _, fun fuel hfuel => ?_,
              .grown hsmall (by omega) hsize (hbase1 ▸ hlt) hend⟩
            obtain ⟨k, hk, hloop⟩ := hstart fuel (by omega)
            have hfree := free_of_morecore (hmore fuel (by omega))
            obtain ⟨j, hj⟩ : ∃ j, k = j + (free1.length + 1) :=
              ⟨k - (free1.length + 1), by omega⟩
            rw [hloop, around_eq hrun, if_neg hstays, if_neg hr, if_pos hthere, hfree, hj]
            exact hloop1 j fuel
          · exact absurd hbn (Nat.not_le.mpr (hsmall1 b hb))
        · refine ⟨free.length + 1, .fault, fun fuel hfuel => ?_,
            .fault hsmall (.inr ⟨by omega, Bool.not_eq_true _ ▸ hthere⟩)⟩
          obtain ⟨k, -, hloop⟩ := hstart fuel hfuel
          rw [hloop, around_eq hrun, if_neg hstays, if_neg hr, if_neg hthere]
    · refine ⟨free.length + 1, .fault, fun fuel hfuel => ?_, .fault hsmall (.inl hcode)⟩
      obtain ⟨k, -, hloop⟩ := hstart fuel hfuel
      rw [hloop, around_eq hrun, if_pos (isNone_userPage_zero.mpr hcode)]

end Loop

structure User.Ok (s : User) (free : List HeapBlock) : Prop where
  base : sizeofHeader ≤ s.heap.base
  top : s.heap.base < (s.machine.proc s.cur).sz
  sized : Sized s.machine s.cur
  regions : ∀ r ∈ s.heap.regions, r.1 + sizeofHeader * r.2 ≤ (s.machine.proc s.cur).sz
  blocks : s.heap.freep = 0 ∧ s.live = [] ∧ s.heap.regions = [] ∧ free = [] ∨
    Inv s.heap s.live free

section Call

variable {s : User} {free : List HeapBlock} {nbytes : Nat} {m1 : Machine} {r : Int}

theorem User.Ok.inv (h : s.Ok free) : Inv (Process.init s.heap) s.live free ∧
    (Process.init s.heap).base = s.heap.base ∧
    (Process.init s.heap).regions = s.heap.regions := by
  have hpos : 0 < s.heap.base := lt_of_lt_of_le (by decide) h.base
  rcases h.blocks with ⟨hfreep, hlive, hnone, rfl⟩ | hinv
  · rw [hlive]
    refine ⟨Process.inv_init hpos hfreep hnone, ?_, ?_⟩ <;>
      rw [Process.init, if_pos hfreep] <;> rfl
  · rw [Process.init_of_inv hpos hinv]
    exact ⟨hinv, rfl, rfl⟩

theorem User.Ok.ends (h : s.Ok free)
    (hgrow : (growproc s.cur (sbrkArg (Heap.units nbytes))).run s.machine = .ok (r, m1)) :
    ∃ bound e, (∀ fuel, bound ≤ fuel → s.malloc fuel nbytes = some e) ∧
      Ends s.cur s.machine m1 r (Heap.units nbytes) s.heap.base free e := by
  obtain ⟨hinv, hbase, hregions⟩ := h.inv
  have hpos : 0 < Heap.units nbytes := Nat.succ_pos _
  have htop : (Process.init s.heap).base < (s.machine.proc s.cur).sz := by
    rw [hbase]
    exact h.top
  obtain ⟨bound, e, hrun, hends⟩ :=
    hinv.growLoop hpos htop (by rw [hregions]; exact h.regions) hgrow
  rw [hbase] at hends
  exact ⟨bound, e, hrun, hends⟩

end Call

end Umalloc

end Xv6
