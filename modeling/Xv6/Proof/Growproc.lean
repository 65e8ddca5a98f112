import Xv6.Proof.Booted
import Xv6.Proof.UserPages
import Xv6.Sbrk

/-!
# What `sbrk` promises

`growproc` is to change the size by `n`, with new pages cleared and open and removed pages gone, or
to fail and leave the address space as it is. It does so except in these cases: a process that gives
up all its memory loses it and is told that the call failed, a process that gives up more than it
has is told that the call succeeded, the result of `mappages` is ignored, which shows when the free
list runs out at the table of the last page, and a new page in a table that `fork` has closed cannot
be written.
-/

namespace Xv6

open Machine

structure Sized (s : Machine) (cur : Fin nproc) : Prop extends Growable s cur where
  size : (s.proc cur).sz < kernBase
  pgdir : (s.proc cur).pgdir ≠ 0
  mapped : ∀ a < 2 ^ 19, (s.mapped cur a ↔ a < s.pages cur)

theorem Layout.sized {s : Machine} {role : Nat → Role} {H : Fin nproc → Prop}
    (hL : Layout s role H) {cur : Fin nproc} (hcur : H cur) : Sized s cur := by
  have hsp := hL.space cur hcur
  have hnot : ∀ g, role g ≠ .free → g ∉ s.free := fun g hg hmem => hg (hL.pool.free g hmem)
  have htab : ∀ i < 512, (s.pde cur i).present = true → role (s.tab cur i) = .table i := by
    intro i hi hpres
    by_cases hlt : i < s.tables cur
    · exact (hsp.table i hlt).2
    · rw [hsp.noTable i (by omega) hi] at hpres
      cases hpres
  have hpage : ∀ a < 2 ^ 19, s.mapped cur a → role (s.frame cur a) = .page a := fun a ha hmap =>
    (hsp.page a ((hsp.mapped_iff ha).mp hmap)).2
  refine ⟨⟨⟨hL.pool.kend, fun i hi hpres => hsp.dir_ne_tab (by omega) hpres, ?_, ?_⟩,
    hL.pool.nodup, ?_, hL.pgdir_not_free hcur, ?_, ?_⟩, hL.sz_lt hcur, ?_,
    fun a ha => hsp.mapped_iff ha⟩
  · intro i j hi hj hpi hpj heq
    have hrole := htab i hi hpi
    rw [heq, htab j hj hpj] at hrole
    exact (Role.table.inj hrole).symm
  · intro a ha hmap
    have hrole := hpage a ha hmap
    refine ⟨fun heq => ?_, fun i hi hpres heq => ?_, hL.pool.range _ (by rw [hrole]; simp)⟩
    · rw [heq, hsp.dir] at hrole
      cases hrole
    · rw [heq, htab i hi hpres] at hrole
      cases hrole
  · exact fun f hf => hL.pool.range f (by rw [hL.pool.free f hf]; simp)
  · exact fun i hi hpres => hnot _ (by rw [htab i hi hpres]; simp)
  · exact fun a ha hmap => hnot _ (by rw [hpage a ha hmap]; simp)
  · have hrange := hL.pool.range (s.proc cur).pgdir (by rw [hsp.dir]; simp)
    have hkend := hL.pool.kend
    omega

structure Resized (s s' : Machine) (cur : Fin nproc) (n : Int) : Prop where
  size : ((s'.proc cur).sz : Int) = (s.proc cur).sz + n
  kept : ∀ a < s.pages cur, a < s'.pages cur → s'.mapped cur a ∧
    s'.pte cur a = s.pte cur a ∧ s'.pde cur (a / 1024) = s.pde cur (a / 1024)
  new : ∀ x, s.pages cur * pgSize ≤ x → x < (s'.proc cur).sz →
    s'.canWrite cur x = true ∧ s'.byteAt cur x = some 0
  none : ∀ a, s'.pages cur ≤ a → a < 2 ^ 19 → ¬s'.mapped cur a

structure Unresized (s s' : Machine) (cur : Fin nproc) : Prop where
  size : (s'.proc cur).sz = (s.proc cur).sz
  mapped : ∀ a < 2 ^ 19, (s'.mapped cur a ↔ s.mapped cur a)
  same : ∀ a < 2 ^ 19, s.mapped cur a →
    s'.pte cur a = s.pte cur a ∧ s'.pde cur (a / 1024) = s.pde cur (a / 1024)

def SbrkContract (s : Machine) (cur : Fin nproc) (n : Int) : Prop :=
  ∃ r s', (growproc cur n).run s = .ok (r, s') ∧
    (r = 0 ∧ Resized s s' cur n ∨ r = -1 ∧ Unresized s s' cur)

def grownPages (s : Machine) (cur : Fin nproc) (n : Int) : Nat :=
  npages ((s.proc cur).sz + n).toNat - s.pages cur

/-- What is free ends before the table of the last page: `allocuvm` does not notice. -/
def LosesTable (s : Machine) (cur : Fin nproc) (n : Int) : Prop :=
  s.free.length + 1 = growCost s cur (s.pages cur) (grownPages s cur n) ∧
    pageCost s cur (s.pages cur + grownPages s cur n - 1) = 2

/-- Whether `allocuvm` finds the pages it looks for. -/
def Affords (s : Machine) (cur : Fin nproc) (n : Int) : Prop :=
  growCost s cur (s.pages cur) (grownPages s cur n) ≤ s.free.length ∨ LosesTable s cur n

/-- When the contract is kept: something is left of a process that shrinks; a process that grows is
refused for its size, or all it needs is free and the tables it has are open, or what is missing is
not just the table of the last page. -/
def SbrkKept (s : Machine) (cur : Fin nproc) (n : Int) : Prop :=
  (n < 0 ∧ ((s.proc cur).sz = 0 ∨ 0 < (s.proc cur).sz + n)) ∨
    (0 ≤ n ∧ (kernBase ≤ (s.proc cur).sz + n ∨
      (growCost s cur (s.pages cur) (grownPages s cur n) ≤ s.free.length ∧
        ∀ b, s.pages cur ≤ b → b < s.pages cur + grownPages s cur n →
          (s.pde cur (b / 1024)).present = true →
            (s.pde cur (b / 1024)).writable = true ∧ (s.pde cur (b / 1024)).user = true) ∨
      (s.free.length < growCost s cur (s.pages cur) (grownPages s cur n) ∧
        ¬(s.free.length + 1 = growCost s cur (s.pages cur) (grownPages s cur n) ∧
          pageCost s cur (s.pages cur + grownPages s cur n - 1) = 2))))

def Machine.withSize (s : Machine) (cur : Fin nproc) (sz : Nat) : Machine :=
  s.setProc cur { s.proc cur with sz := sz }

section Size

variable {s t : Machine} {cur : Fin nproc}

theorem Machine.withSize_pgdir (s : Machine) (cur p : Fin nproc) (sz : Nat) :
    ((s.withSize cur sz).proc p).pgdir = (s.proc p).pgdir := by
  by_cases hp : p = cur
  · rw [hp, withSize, setProc_proc_self]
  · rw [withSize, setProc_proc_of_ne _ _ hp]

theorem Machine.withSize_sz (s : Machine) (cur : Fin nproc) (sz : Nat) :
    ((s.withSize cur sz).proc cur).sz = sz := by
  rw [withSize, setProc_proc_self]

theorem Machine.withSize_pde (s : Machine) (cur p : Fin nproc) (sz i : Nat) :
    (s.withSize cur sz).pde p i = s.pde p i := by
  rw [pde, withSize_pgdir]
  rfl

theorem Machine.withSize_pte (s : Machine) (cur p : Fin nproc) (sz a : Nat) :
    (s.withSize cur sz).pte p a = s.pte p a := by
  rw [pte, tab, withSize_pde]
  rfl

theorem Machine.withSize_mapped (s : Machine) (cur p : Fin nproc) (sz a : Nat) :
    (s.withSize cur sz).mapped p a ↔ s.mapped p a := by
  rw [mapped, withSize_pde, withSize_pte]
  rfl

theorem run_setSize (hdir : (s.proc cur).pgdir ≠ 0) (sz : Nat) :
    (setSize cur sz).run s = .ok (0, s.withSize cur sz) := by
  have hswitch : (switchuvm cur).run (s.withSize cur sz) = .ok ((), s.withSize cur sz) := by
    rw [switchuvm, Kernel.run_get_bind, if_neg (by rw [withSize_pgdir]; exact hdir),
      Kernel.run_pure]
  rw [setSize, modifyProc, Kernel.run_modify_bind]
  exact (Kernel.run_bind_of_ok hswitch).trans rfl

theorem npages_eq {sz : Nat} (h : sz ≤ kernBase) : pgRoundUp sz / pgSize = npages sz := by
  simp only [pgRoundUp, npages, pgSize, kernBase] at *
  omega

theorem npages_le {sz : Nat} (h : sz ≤ kernBase) : npages sz ≤ 2 ^ 19 := by
  simp only [npages, pgSize, kernBase] at *
  omega

theorem npages_mono {x y : Nat} (h : x ≤ y) : npages x ≤ npages y := by
  simp only [npages, pgSize] at *
  omega

theorem Sized.present (hS : Sized s cur) {a : Nat} (ha : a ≤ s.pages cur) (hmod : a % 1024 ≠ 0) :
    (s.pde cur (a / 1024)).present = true := by
  have hle := npages_le (le_of_lt hS.size)
  have hpages : s.pages cur = npages (s.proc cur).sz := rfl
  have hmap := (hS.mapped (a - 1) (by omega)).mpr (by omega)
  rw [show a / 1024 = (a - 1) / 1024 by omega]
  exact hmap.1

end Size

section Runs

variable {s t : Machine} {cur : Fin nproc}

theorem run_deallocuvm (hW : Walked s cur) {oldsz newsz : Nat} (hlt : newsz < oldsz)
    (hold : oldsz ≤ kernBase) (halign : npages newsz % 1024 ≠ 0 →
      (s.pde cur (npages newsz / 1024)).present = true) :
    ∃ t, (deallocuvm (s.proc cur).pgdir oldsz newsz).run s = .ok (newsz, t) ∧
      Removed s t cur (npages newsz) (npages oldsz) := by
  obtain ⟨t, hrun, hR⟩ := run_deallocPages (npages_le hold) hW
    (show npages oldsz ≤ npages newsz + (npages oldsz - npages newsz) by omega) fun _ => halign
  refine ⟨t, ?_, hR⟩
  rw [deallocuvm, if_neg (by omega), npages_eq (by omega)]
  exact (Kernel.run_bind_of_ok hrun).trans rfl

theorem Added.restored {t' : Machine} {m last : Nat} (hS : Sized s cur)
    (hadd : Added s t cur (s.pages cur) m) (hm : m ≤ last)
    (hrem : Removed t t' cur (s.pages cur) last) : Unresized s t' cur := by
  refine ⟨by rw [hrem.proc, hadd.proc], fun a ha => ?_, fun a ha hmap => ?_⟩
  · by_cases hin : s.pages cur ≤ a ∧ a < last
    · constructor
      · exact fun hmap => absurd hmap (hrem.gone a hin.1 hin.2)
      · intro hmap
        have := (hS.mapped a ha).mp hmap
        omega
    · rw [hrem.mapped ha (by omega), hadd.keep a ha (by omega)]
  · have hlt := (hS.mapped a ha).mp hmap
    have hpde := hadd.table _ (by omega) hmap.1
    refine ⟨?_, by rw [hrem.pde _ (by omega), hpde]⟩
    rw [hrem.keep a ha (Or.inl hlt) (by rw [hpde]; exact hmap.1), hadd.same a ha hmap]

theorem run_allocuvm (hS : Sized s cur) {newsz : Nat} (hlt : newsz < kernBase)
    (hle : (s.proc cur).sz ≤ newsz) {k : Nat} (hk : s.pages cur + k = npages newsz) :
    (growCost s cur (s.pages cur) k ≤ s.free.length ∧
      ∃ t, (allocuvm (s.proc cur).pgdir (s.proc cur).sz newsz).run s = .ok (newsz, t) ∧
        Added s t cur (s.pages cur) (s.pages cur + k)) ∨
    (s.free.length + 1 = growCost s cur (s.pages cur) k ∧ 0 < k ∧
      pageCost s cur (s.pages cur + k - 1) = 2 ∧
      ∃ t, (allocuvm (s.proc cur).pgdir (s.proc cur).sz newsz).run s = .ok (newsz, t) ∧
        Added s t cur (s.pages cur) (s.pages cur + k - 1)) ∨
    (s.free.length < growCost s cur (s.pages cur) k ∧
      ¬(s.free.length + 1 = growCost s cur (s.pages cur) k ∧
        pageCost s cur (s.pages cur + k - 1) = 2) ∧
      ∃ t t' m, (allocuvm (s.proc cur).pgdir (s.proc cur).sz newsz).run s = .ok (0, t') ∧
        m ≤ npages newsz ∧ Added s t cur (s.pages cur) m ∧
        Removed t t' cur (s.pages cur) (npages newsz)) := by
  have hlast := npages_le (le_of_lt hlt)
  have hstart : allocuvm (s.proc cur).pgdir (s.proc cur).sz newsz = (do
      if ← Kernel.allM (List.range' (s.pages cur) k) (allocPage (s.proc cur).pgdir) then pure newsz
      else do
        let _ ← deallocuvm (s.proc cur).pgdir newsz (s.proc cur).sz
        pure 0) := by
    rw [allocuvm, if_neg (by omega), if_neg (by omega), npages_eq (le_of_lt hS.size), ← hk]
    change (Kernel.allM (List.range' (s.pages cur) (s.pages cur + k - s.pages cur)) _ >>= _) = _
    rw [Nat.add_sub_cancel_left]
  obtain ⟨m, t, hm1, hm2, hadd, hG, hcases⟩ := run_allocLoop (k := k) hS.toGrowable (by omega)
    (fun b h1 h2 hmap => by
      have := (hS.mapped b h2).mp hmap
      omega) (fun _ => hS.present (Nat.le_refl _))
  rw [hstart]
  rcases hcases with ⟨h1, rfl, hrun⟩ | ⟨h1, h2, h3, h4, hrun⟩ | ⟨h1, h2, hrun⟩
  · exact Or.inl ⟨h1, t, by rw [Kernel.run_bind_of_ok hrun]; rfl, hadd⟩
  · obtain rfl : m = s.pages cur + k - 1 := by omega
    exact Or.inr (Or.inl ⟨h1, h2, h3, t, by rw [Kernel.run_bind_of_ok hrun]; rfl, hadd⟩)
  · have hkpos : 0 < k := by
      by_contra hk0
      obtain rfl : k = 0 := by omega
      exact absurd h1 (Nat.not_lt_zero _)
    have hless : (s.proc cur).sz < newsz := by
      by_contra hge
      have := npages_mono (show newsz ≤ (s.proc cur).sz by omega)
      have hpages : s.pages cur = npages (s.proc cur).sz := rfl
      omega
    have hpde : s.pages cur % 1024 ≠ 0 → (t.pde cur (s.pages cur / 1024)).present = true := by
      intro hmod
      have hpres := hS.present (Nat.le_refl _) hmod
      rw [hadd.table _ (by omega) hpres]
      exact hpres
    obtain ⟨t', hrun', hrem⟩ := run_deallocuvm hG.toWalked hless (le_of_lt hlt) hpde
    rw [hadd.proc] at hrun'
    refine Or.inr (Or.inr ⟨h1, h2, t, t', m, ?_, by omega, hadd, hrem⟩)
    rw [Kernel.run_bind_of_ok hrun]
    exact (Kernel.run_bind_of_ok hrun').trans rfl

/-- The ways `growproc` ends, with the state it leaves. -/
inductive Grew (s : Machine) (cur : Fin nproc) (n : Int) : Int → Machine → Prop
  | zero (hn : n = 0) : Grew s cur n 0 (s.withSize cur (s.proc cur).sz)
  | refused (hn : 0 < n) (hbig : kernBase ≤ (s.proc cur).sz + n) : Grew s cur n (-1) s
  | grown {t : Machine} {newsz : Nat} (hn : 0 < n) (hnew : (newsz : Int) = (s.proc cur).sz + n)
      (hlt : newsz < kernBase) (hk : s.pages cur + grownPages s cur n = npages newsz)
      (hlen : growCost s cur (s.pages cur) (grownPages s cur n) ≤ s.free.length)
      (hadd : Added s t cur (s.pages cur) (s.pages cur + grownPages s cur n)) :
      Grew s cur n 0 (t.withSize cur newsz)
  | lost {t : Machine} {newsz : Nat} (hn : 0 < n) (hnew : (newsz : Int) = (s.proc cur).sz + n)
      (hlt : newsz < kernBase) (hk : s.pages cur + grownPages s cur n = npages newsz)
      (hlen : s.free.length + 1 = growCost s cur (s.pages cur) (grownPages s cur n))
      (hpos : 0 < grownPages s cur n)
      (hcost : pageCost s cur (s.pages cur + grownPages s cur n - 1) = 2)
      (hadd : Added s t cur (s.pages cur) (s.pages cur + grownPages s cur n - 1)) :
      Grew s cur n 0 (t.withSize cur newsz)
  | short {t t' : Machine} {newsz m : Nat} (hn : 0 < n)
      (hnew : (newsz : Int) = (s.proc cur).sz + n) (hlt : newsz < kernBase)
      (hk : s.pages cur + grownPages s cur n = npages newsz)
      (hlen : s.free.length < growCost s cur (s.pages cur) (grownPages s cur n))
      (hother : ¬(s.free.length + 1 = growCost s cur (s.pages cur) (grownPages s cur n) ∧
        pageCost s cur (s.pages cur + grownPages s cur n - 1) = 2))
      (hm : m ≤ npages newsz) (hadd : Added s t cur (s.pages cur) m)
      (hrem : Removed t t' cur (s.pages cur) (npages newsz)) : Grew s cur n (-1) t'
  | wrapped (hn : n < 0) (hunder : (s.proc cur).sz + n < 0) (hsz : (s.proc cur).sz ≠ 0) :
      Grew s cur n 0 (s.withSize cur (s.proc cur).sz)
  | empty (hn : n < 0) (hsz : (s.proc cur).sz = 0) : Grew s cur n (-1) s
  | shrunk {t : Machine} {newsz : Nat} (hn : n < 0) (hnew : (newsz : Int) = (s.proc cur).sz + n)
      (hpos : 0 < newsz) (hrem : Removed s t cur (npages newsz) (s.pages cur)) :
      Grew s cur n 0 (t.withSize cur newsz)
  | emptied {t : Machine} (hn : n < 0) (hzero : (s.proc cur).sz + n = 0)
      (hrem : Removed s t cur 0 (s.pages cur)) : Grew s cur n (-1) t

variable {n : Int}

theorem run_growproc_grow (hS : Sized s cur) (hpos : 0 < n) (hn : n < 2 ^ 31) :
    ∃ r t, (growproc cur n).run s = .ok (r, t) ∧ Grew s cur n r t := by
  have hsz := hS.size
  obtain ⟨newsz, hnew⟩ : ∃ newsz : Nat, (newsz : Int) = (s.proc cur).sz + n :=
    ⟨((s.proc cur).sz + n).toNat, by omega⟩
  have hword : (((s.proc cur).sz + n) % 2 ^ 32).toNat = newsz := by
    simp only [kernBase] at hsz
    omega
  have hstart : (growproc cur n).run s =
      (allocuvm (s.proc cur).pgdir (s.proc cur).sz newsz >>= fun sz =>
        if sz = 0 then pure (-1) else setSize cur sz).run s := by
    rw [growproc, Kernel.run_get_bind, if_pos hpos, hword]
  by_cases hbig : kernBase ≤ newsz
  · refine ⟨-1, s, ?_, .refused hpos (by omega)⟩
    rw [hstart, allocuvm, if_pos hbig]
    rfl
  · have hpages : s.pages cur = npages (s.proc cur).sz := rfl
    have hmono := npages_mono (show (s.proc cur).sz ≤ newsz by omega)
    have hk : s.pages cur + grownPages s cur n = npages newsz := by
      have : ((s.proc cur).sz + n).toNat = newsz := by omega
      rw [grownPages, this]
      omega
    have hne : newsz ≠ 0 := by omega
    rcases run_allocuvm hS (by omega) (by omega) hk with
      ⟨h1, t, hrun, hadd⟩ | ⟨h1, h2, h3, t, hrun, hadd⟩ | ⟨h1, h2, t, t', m, hrun, hm, hadd, hrem⟩
    · refine ⟨0, t.withSize cur newsz, ?_, .grown hpos hnew (by omega) hk h1 hadd⟩
      rw [hstart, Kernel.run_bind_of_ok hrun, if_neg hne,
        run_setSize (by rw [hadd.proc]; exact hS.pgdir)]
    · refine ⟨0, t.withSize cur newsz, ?_, .lost hpos hnew (by omega) hk h1 h2 h3 hadd⟩
      rw [hstart, Kernel.run_bind_of_ok hrun, if_neg hne,
        run_setSize (by rw [hadd.proc]; exact hS.pgdir)]
    · refine ⟨-1, t', ?_, .short hpos hnew (by omega) hk h1 h2 hm hadd hrem⟩
      rw [hstart, Kernel.run_bind_of_ok hrun]
      rfl

theorem run_growproc_shrink (hS : Sized s cur) (hneg : n < 0) (hn : -2 ^ 31 ≤ n) :
    ∃ r t, (growproc cur n).run s = .ok (r, t) ∧ Grew s cur n r t := by
  have hsz := hS.size
  have hstart : (growproc cur n).run s =
      (deallocuvm (s.proc cur).pgdir (s.proc cur).sz (((s.proc cur).sz + n) % 2 ^ 32).toNat >>=
        fun sz => if sz = 0 then pure (-1) else setSize cur sz).run s := by
    rw [growproc, Kernel.run_get_bind, if_neg (by omega), if_pos hneg]
  by_cases hunder : (s.proc cur).sz + n < 0
  · -- the new size wraps around and nothing is done
    have hrun : (deallocuvm (s.proc cur).pgdir (s.proc cur).sz
        (((s.proc cur).sz + n) % 2 ^ 32).toNat).run s = .ok ((s.proc cur).sz, s) := by
      rw [deallocuvm, if_pos (by simp only [kernBase] at hsz; omega), Kernel.run_pure]
    rw [Kernel.run_bind_of_ok hrun] at hstart
    by_cases hzero : (s.proc cur).sz = 0
    · rw [if_pos hzero, Kernel.run_pure] at hstart
      exact ⟨-1, s, hstart, .empty hneg hzero⟩
    · rw [if_neg hzero, run_setSize hS.pgdir] at hstart
      exact ⟨0, _, hstart, .wrapped hneg hunder hzero⟩
  · obtain ⟨newsz, hnew⟩ : ∃ newsz : Nat, (newsz : Int) = (s.proc cur).sz + n :=
      ⟨((s.proc cur).sz + n).toNat, by omega⟩
    have hword : (((s.proc cur).sz + n) % 2 ^ 32).toNat = newsz := by
      simp only [kernBase] at hsz
      omega
    rw [hword] at hstart
    have hmono := npages_mono (show newsz ≤ (s.proc cur).sz by omega)
    obtain ⟨t, hrun, hrem⟩ := run_deallocuvm hS.toWalked (show newsz < (s.proc cur).sz by omega)
      (le_of_lt hsz) (fun hmod => hS.present hmono hmod)
    rw [Kernel.run_bind_of_ok hrun] at hstart
    by_cases hzero : newsz = 0
    · rw [if_pos hzero, Kernel.run_pure] at hstart
      rw [hzero] at hrem
      exact ⟨-1, t, hstart, .emptied hneg (by omega) hrem⟩
    · rw [if_neg hzero, run_setSize (by rw [hrem.proc]; exact hS.pgdir)] at hstart
      exact ⟨0, _, hstart, .shrunk hneg hnew (by omega) hrem⟩

theorem run_growproc (hS : Sized s cur) (hlow : -2 ^ 31 ≤ n) (hhigh : n < 2 ^ 31) :
    ∃ r t, (growproc cur n).run s = .ok (r, t) ∧ Grew s cur n r t := by
  rcases lt_trichotomy n 0 with hneg | rfl | hpos
  · exact run_growproc_shrink hS hneg hlow
  · refine ⟨0, _, ?_, .zero rfl⟩
    rw [growproc, Kernel.run_get_bind, if_neg (by decide), if_neg (by decide),
      run_setSize hS.pgdir]
  · exact run_growproc_grow hS hpos hhigh

end Runs

section Contract

variable {s t : Machine} {cur : Fin nproc} {n : Int}

theorem contract_of_run {r : Int} (h : (growproc cur n).run s = .ok (r, t)) :
    SbrkContract s cur n ↔ (r = 0 ∧ Resized s t cur n ∨ r = -1 ∧ Unresized s t cur) := by
  constructor
  · rintro ⟨r', t', hrun, hcases⟩
    rw [h] at hrun
    obtain ⟨rfl, rfl⟩ := Prod.mk.inj (Except.ok.inj hrun)
    exact hcases
  · exact fun hcases => ⟨r, t, h, hcases⟩

theorem Unresized.refl (s : Machine) (cur : Fin nproc) : Unresized s s cur :=
  ⟨rfl, fun _ _ => Iff.rfl, fun _ _ _ => ⟨rfl, rfl⟩⟩

theorem pages_withSize (sz : Nat) : (t.withSize cur sz).pages cur = npages sz := by
  rw [pages, withSize_sz]

theorem canWrite_iff (s : Machine) (cur : Fin nproc) (x : Nat) :
    s.canWrite cur x = true ↔ s.mapped cur (x / pgSize) ∧
      (s.pde cur (x / pgSize / 1024)).user = true ∧ (s.pte cur (x / pgSize)).user = true ∧
      (s.pde cur (x / pgSize / 1024)).writable = true ∧
      (s.pte cur (x / pgSize)).writable = true := by
  have hidx := div_pgSize_div_1024 x
  rw [canWrite, canRead, mapped, hidx]
  simp only [Bool.and_eq_true]
  tauto

theorem byteAt_of_zero {x : Nat} (hmap : s.mapped cur (x / pgSize))
    (hzero : s.word (s.frame cur (x / pgSize)) = fun _ => 0) : s.byteAt cur x = some 0 := by
  have hidx := div_pgSize_div_1024 x
  rw [mapped, hidx] at hmap
  rw [byteAt, hmap.1, hmap.2, hzero]
  simp [Word.getByte]

theorem Added.resized_iff {newsz k : Nat} (hS : Sized s cur) (hlt : newsz < kernBase)
    (hnew : (newsz : Int) = (s.proc cur).sz + n) (hk : s.pages cur + k = npages newsz)
    (hadd : Added s t cur (s.pages cur) (s.pages cur + k)) :
    Resized s (t.withSize cur newsz) cur n ↔
      ∀ b, s.pages cur ≤ b → b < s.pages cur + k → (s.pde cur (b / 1024)).present = true →
        (s.pde cur (b / 1024)).writable = true ∧ (s.pde cur (b / 1024)).user = true := by
  have hlast := npages_le (le_of_lt hlt)
  constructor
  · intro h b h1 h2 hpres
    have hx : b * pgSize < newsz := by
      rw [hk] at h2
      simp only [npages, pgSize] at *
      omega
    have hcan := (h.new (b * pgSize) (Nat.mul_le_mul_right _ h1)
      (by rw [withSize_sz]; exact hx)).1
    rw [canWrite_iff, Nat.mul_div_cancel _ (by decide), withSize_pde,
      hadd.table _ (by omega) hpres] at hcan
    exact ⟨hcan.2.2.2.1, hcan.2.1⟩
  · intro hopen
    refine ⟨by rw [withSize_sz]; exact hnew, fun a ha _ => ?_, fun x hx1 hx2 => ?_,
      fun a h1 h2 => ?_⟩
    · have hmap := (hS.mapped a (by omega)).mpr ha
      rw [withSize_mapped, withSize_pte, withSize_pde]
      exact ⟨(hadd.keep a (by omega) (Or.inl ha)).mpr hmap, hadd.same a (by omega) hmap,
        hadd.table _ (by omega) hmap.1⟩
    · rw [withSize_sz] at hx2
      have hb1 : s.pages cur ≤ x / pgSize := (Nat.le_div_iff_mul_le (by decide)).mpr hx1
      have hb2 : x / pgSize < s.pages cur + k := by
        rw [hk]
        simp only [npages, pgSize] at *
        omega
      obtain ⟨hmap, hw, hu, hzero⟩ := hadd.new _ hb1 hb2
      have hpde : (t.pde cur (x / pgSize / 1024)).writable = true ∧
          (t.pde cur (x / pgSize / 1024)).user = true := by
        cases hpres : (s.pde cur (x / pgSize / 1024)).present with
        | true =>
          rw [hadd.table _ (by omega) hpres]
          exact hopen _ hb1 hb2 hpres
        | false =>
          obtain ⟨-, h1, h2, -⟩ := hadd.newTable _ (by omega) hpres hmap.1
          exact ⟨h1, h2⟩
      refine ⟨?_, byteAt_of_zero ((t.withSize_mapped cur cur newsz _).mpr hmap) ?_⟩
      · rw [canWrite_iff, withSize_mapped, withSize_pde, withSize_pte]
        exact ⟨hmap, hpde.2, hu, hpde.1, hw⟩
      · rw [frame, withSize_pte]
        exact hzero
    · rw [pages_withSize, ← hk] at h1
      rw [withSize_mapped, hadd.keep a h2 (Or.inr h1), hS.mapped a h2]
      omega

theorem Added.not_resized {newsz k : Nat} (hS : Sized s cur) (hlt : newsz < kernBase)
    (hkpos : 0 < k) (hk : s.pages cur + k = npages newsz)
    (hadd : Added s t cur (s.pages cur) (s.pages cur + k - 1)) :
    ¬Resized s (t.withSize cur newsz) cur n := by
  have hlast := npages_le (le_of_lt hlt)
  intro h
  have hx : (s.pages cur + k - 1) * pgSize < newsz := by
    rw [hk]
    simp only [npages, pgSize] at *
    omega
  have hcan := (h.new _ (Nat.mul_le_mul_right pgSize (show s.pages cur ≤ s.pages cur + k - 1 by
    omega)) (by rw [withSize_sz]; exact hx)).1
  rw [canWrite_iff, Nat.mul_div_cancel _ (by decide), withSize_mapped,
    hadd.keep _ (by omega) (Or.inr le_rfl), hS.mapped _ (by omega)] at hcan
  omega

theorem kept_of_pos (hpos : 0 < n) : SbrkKept s cur n ↔ (kernBase ≤ (s.proc cur).sz + n ∨
      (growCost s cur (s.pages cur) (grownPages s cur n) ≤ s.free.length ∧
        ∀ b, s.pages cur ≤ b → b < s.pages cur + grownPages s cur n →
          (s.pde cur (b / 1024)).present = true →
            (s.pde cur (b / 1024)).writable = true ∧ (s.pde cur (b / 1024)).user = true) ∨
      (s.free.length < growCost s cur (s.pages cur) (grownPages s cur n) ∧
        ¬(s.free.length + 1 = growCost s cur (s.pages cur) (grownPages s cur n) ∧
          pageCost s cur (s.pages cur + grownPages s cur n - 1) = 2))) := by
  rw [SbrkKept, or_iff_right fun h => by omega, and_iff_right (by omega : 0 ≤ n)]

theorem kept_of_neg (hneg : n < 0) :
    SbrkKept s cur n ↔ ((s.proc cur).sz = 0 ∨ 0 < (s.proc cur).sz + n) := by
  rw [SbrkKept, or_iff_left fun h => by omega, and_iff_right hneg]

theorem Sized.resized_zero (hS : Sized s cur) (hn : n = 0) :
    Resized s (s.withSize cur (s.proc cur).sz) cur n := by
  have hpages : (s.withSize cur (s.proc cur).sz).pages cur = s.pages cur := pages_withSize _
  refine ⟨by rw [withSize_sz]; omega, fun a h1 _ => ?_, fun x h1 h2 => ?_,
    fun a h1 h2 => ?_⟩
  · have hlast := npages_le (le_of_lt hS.size)
    have hpages' : s.pages cur = npages (s.proc cur).sz := rfl
    rw [withSize_mapped, withSize_pte, withSize_pde]
    exact ⟨(hS.mapped a (by omega)).mpr h1, rfl, rfl⟩
  · rw [withSize_sz] at h2
    simp only [pages, npages, pgSize] at h1
    omega
  · rw [hpages] at h1
    rw [withSize_mapped, hS.mapped a h2]
    omega

theorem Removed.resized {newsz : Nat} (hS : Sized s cur) (hn : n < 0)
    (hnew : (newsz : Int) = (s.proc cur).sz + n)
    (hrem : Removed s t cur (npages newsz) (s.pages cur)) :
    Resized s (t.withSize cur newsz) cur n := by
  have hlast := npages_le (le_of_lt hS.size)
  have hpages : s.pages cur = npages (s.proc cur).sz := rfl
  refine ⟨by rw [withSize_sz]; exact hnew, fun a h1 h2 => ?_, fun x h1 h2 => ?_,
    fun a h1 h2 => ?_⟩
  · rw [pages_withSize] at h2
    have hmap := (hS.mapped a (by omega)).mpr h1
    rw [withSize_mapped, withSize_pte, withSize_pde]
    exact ⟨(hrem.mapped (by omega) (Or.inl h2)).mpr hmap,
      hrem.keep a (by omega) (Or.inl h2) hmap.1, hrem.pde _ (by omega)⟩
  · rw [withSize_sz] at h2
    rw [hpages] at h1
    simp only [npages, pgSize] at h1
    omega
  · rw [pages_withSize] at h1
    rw [withSize_mapped]
    by_cases hin : a < s.pages cur
    · exact hrem.gone a h1 hin
    · rw [hrem.mapped h2 (Or.inr (by omega)), hS.mapped a h2]
      exact hin

theorem Grew.contract_iff (hS : Sized s cur) {r : Int} (h : Grew s cur n r t) :
    (r = 0 ∧ Resized s t cur n ∨ r = -1 ∧ Unresized s t cur) ↔ SbrkKept s cur n := by
  cases h with
  | zero hn =>
    refine ⟨fun _ => Or.inr ⟨by omega, Or.inr (Or.inl ?_)⟩,
      fun _ => Or.inl ⟨rfl, hS.resized_zero hn⟩⟩
    have hnone : grownPages s cur n = 0 := by
      rw [grownPages, hn, Int.add_zero, Int.toNat_natCast]
      exact Nat.sub_self _
    rw [hnone]
    exact ⟨Nat.zero_le _, fun b h1 h2 => by omega⟩
  | refused hn hbig =>
    rw [kept_of_pos hn]
    exact ⟨fun _ => Or.inl hbig, fun _ => Or.inr ⟨rfl, .refl s cur⟩⟩
  | grown hn hnew hlt hk hlen hadd =>
    have hiff := hadd.resized_iff (n := n) hS hlt hnew hk
    rw [kept_of_pos hn]
    constructor
    · rintro (⟨-, h⟩ | ⟨h, -⟩)
      · exact Or.inr (Or.inl ⟨hlen, hiff.mp h⟩)
      · cases h
    · rintro (h | ⟨-, h⟩ | ⟨h, -⟩)
      · omega
      · exact Or.inl ⟨rfl, hiff.mpr h⟩
      · omega
  | lost hn hnew hlt hk hlen hpos hcost hadd =>
    rw [kept_of_pos hn]
    constructor
    · rintro (⟨-, h⟩ | ⟨h, -⟩)
      · exact absurd h (hadd.not_resized hS hlt hpos hk)
      · cases h
    · rintro (h | ⟨h, -⟩ | ⟨-, h⟩)
      · omega
      · omega
      · exact absurd ⟨hlen, hcost⟩ h
  | short hn hnew hlt hk hlen hother hm hadd hrem =>
    rw [kept_of_pos hn]
    exact ⟨fun _ => Or.inr (Or.inr ⟨hlen, hother⟩),
      fun _ => Or.inr ⟨rfl, hadd.restored hS hm hrem⟩⟩
  | wrapped hn hunder hsz =>
    rw [kept_of_neg hn]
    constructor
    · rintro (⟨-, h⟩ | ⟨h, -⟩)
      · have := h.size
        rw [withSize_sz] at this
        omega
      · cases h
    · rintro (h | h) <;> omega
  | empty hn hsz =>
    rw [kept_of_neg hn]
    exact ⟨fun _ => Or.inl hsz, fun _ => Or.inr ⟨rfl, .refl s cur⟩⟩
  | shrunk hn hnew hpos hrem =>
    rw [kept_of_neg hn]
    exact ⟨fun _ => Or.inr (by omega), fun _ => Or.inl ⟨rfl, hrem.resized hS hn hnew⟩⟩
  | emptied hn hzero hrem =>
    -- all memory is given up, and the call fails
    have hpos : 0 < s.pages cur := by
      simp only [pages, npages, pgSize]
      omega
    rw [kept_of_neg hn]
    constructor
    · rintro (⟨h, -⟩ | ⟨-, h⟩)
      · cases h
      · have hmap := (h.mapped 0 (by decide)).mpr ((hS.mapped 0 (by decide)).mpr hpos)
        exact absurd hmap (hrem.gone 0 (Nat.le_refl 0) hpos)
    · rintro (h | h) <;> omega

theorem SbrkContract.kept (hS : Sized s cur) (hlow : -2 ^ 31 ≤ n) (hhigh : n < 2 ^ 31)
    (h : SbrkContract s cur n) : SbrkKept s cur n := by
  obtain ⟨r, t, hrun, hgrew⟩ := run_growproc hS hlow hhigh
  exact (hgrew.contract_iff hS).mp ((contract_of_run hrun).mp h)

/-- `growproc` keeps its contract exactly in the cases of `SbrkKept`. -/
theorem growproc_contract_iff (hS : Sized s cur) (hlow : -2 ^ 31 ≤ n) (hhigh : n < 2 ^ 31) :
    SbrkContract s cur n ↔ SbrkKept s cur n := by
  refine ⟨SbrkContract.kept hS hlow hhigh, fun hkept => ?_⟩
  obtain ⟨r, t, hrun, hgrew⟩ := run_growproc hS hlow hhigh
  exact (contract_of_run hrun).mpr ((hgrew.contract_iff hS).mpr hkept)

end Contract

theorem booted_sized {n m : Nat} (h0 : 0 < n) (hn : n ≤ 1024) (hm : 20000 + m ≤ 57344) :
    Sized (booted n m) 2 :=
  (booted_layout h0 hn hm).sized (show (2 : Fin nproc).val < 3 by decide)

theorem growproc_contract_booted : SbrkKept (booted 3 80) 2 (-4096) ∧
    SbrkContract (booted 3 80) 2 (-4096) := by
  have hkept : SbrkKept (booted 3 80) 2 (-4096) :=
    Or.inl ⟨by decide, Or.inr (by decide)⟩
  exact ⟨hkept, (growproc_contract_iff (booted_sized (by decide) (by decide) (by decide))
    (by decide) (by decide)).mpr hkept⟩

/-- The program gives up all its memory, or more than it has; and a program of 1024 pages asks for
one byte when one page is free. -/
theorem growproc_contract_broken : ¬SbrkContract (booted 3 80) 2 (-12288) ∧
    ¬SbrkContract (booted 3 80) 2 (-12289) ∧ ¬SbrkContract (booted 1024 1) 2 1 := by
  have hS := booted_sized (n := 3) (m := 80) (by decide) (by decide) (by decide)
  have hL := booted_sized (n := 1024) (m := 1) (by decide) (by decide) (by decide)
  refine ⟨?_, ?_, ?_⟩
  · intro hbroken
    rcases hbroken.kept hS (by decide) (by decide) with ⟨-, h | h⟩ | ⟨h, -⟩
    · exact absurd h (by decide)
    · exact absurd h (by decide)
    · exact absurd h (by decide)
  · intro hbroken
    rcases hbroken.kept hS (by decide) (by decide) with ⟨-, h | h⟩ | ⟨h, -⟩
    · exact absurd h (by decide)
    · exact absurd h (by decide)
    · exact absurd h (by decide)
  · have habsent : ((booted 1024 1).pde 2 1).present = false := by
      rw [booted_pde_kernel (by decide) (by decide), if_neg (by decide)]
      rfl
    have hpage : pageCost (booted 1024 1) 2 1024 = 2 := if_pos ⟨rfl, habsent⟩
    have hpages : (booted 1024 1).pages 2 = 1024 := by decide
    have hgrown : grownPages (booted 1024 1) 2 1 = 1 := by decide
    have hcost : growCost (booted 1024 1) 2 1024 1 = 2 := by
      rw [growCost_succ, hpage]
      rfl
    have hfree : (booted 1024 1).free.length = 1 := rfl
    intro hbroken
    have hkept := hbroken.kept hL (by decide) (by decide)
    rw [SbrkKept, hpages, hgrown, hcost, hfree] at hkept
    rcases hkept with ⟨h, -⟩ | ⟨-, h | ⟨h, -⟩ | ⟨-, h⟩⟩
    · exact absurd h (by decide)
    · exact absurd h (by decide)
    · exact absurd h (by decide)
    · exact h ⟨rfl, hpage⟩

end Xv6
