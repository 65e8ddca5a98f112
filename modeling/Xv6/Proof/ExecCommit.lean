import Xv6.Proof.ExecArgs

/-!
# The new image in place of the old one

With the arguments on the stack, `exec` gives the process the new directory and frees the old one.
The two have no page in common, so the arguments are still there when it returns 0.

Nothing keeps a string that is longer than the image from wrapping the stack pointer, and `copyout`
from reading a null entry where no table is. A caller that chooses the word read for it, and the
bytes written through it, gets a 0 from `exec` with the stack pointer in the kernel half.
-/

namespace Xv6

section Commit

variable {s t : Machine} {cur : Fin nproc} {d sz : Nat} {S : Nat → Prop}
  {args : List (List (BitVec 8))}

theorem ArgsAt.congr {esp : Nat} (h : ArgsAt s d sz esp args) (hsz : sz % pgSize = 0)
    (hroom : 2 * pgSize ≤ sz) (hsize : sz ≤ kernBase) (htables : SameTables s t d)
    (hword : t.word (s.frameAt d (sz / pgSize - 1)) = s.word (s.frameAt d (sz / pgSize - 1))) :
    ArgsAt t d sz esp args := by
  have hlast : sz / pgSize - 1 < 2 ^ 20 := by
    simp only [pgSize, kernBase] at *
    omega
  have hframe := htables.frameAt hlast h.stack.1.1
  have hpage : ∀ va, sz - pgSize ≤ va → va < sz → va / pgSize = sz / pgSize - 1 :=
    fun _ hva hva' => (last_page hsz hroom hva hva').1
  have hwordIn : ∀ va, sz - pgSize ≤ va → va < sz → t.wordIn d va = s.wordIn d va := by
    intro va hva hva'
    rw [Machine.wordIn, hpage va hva hva', hframe, hword, Machine.wordIn, hpage va hva hva']
  have hbyteIn : ∀ va, sz - pgSize ≤ va → va < sz → t.byteIn d va = s.byteIn d va := by
    intro va hva hva'
    rw [Machine.byteIn, hpage va hva hva', hframe, Machine.pageByte, hword, Machine.byteIn,
      hpage va hva hva']
    rfl
  have hlow := h.low
  have hhigh := h.high
  obtain ⟨strs, hargs, hptr, hstr, hapart⟩ := h.strings
  have hcount : strs.length = args.length := by
    rw [← hargs, List.length_map]
  refine ⟨⟨(htables.mapsAt_iff hlast).mpr h.stack.1, ?_⟩, hlow, hhigh, ?_, ?_, ?_, ?_,
    strs, hargs, fun i x hx => ?_, fun x hx => ?_, hapart⟩
  · rw [htables.entryAt hlast h.stack.1.1]
    exact h.stack.2
  · rw [hwordIn _ (by omega) (by omega)]
    exact h.ret
  · rw [hwordIn _ (by omega) (by omega)]
    exact h.argc
  · rw [hwordIn _ (by omega) (by omega)]
    exact h.argv
  · rw [hwordIn _ (by omega) (by omega)]
    exact h.null
  · have hi : i < strs.length := (List.getElem?_eq_some_iff.mp hx).1
    rw [hwordIn _ (by omega) (by omega)]
    exact hptr i x hx
  · obtain ⟨hge, hend, hbytes⟩ := hstr x hx
    refine ⟨hge, hend, fun j b hj => ?_⟩
    have hjlt := (List.getElem?_eq_some_iff.mp hj).1
    rw [List.length_append, List.length_singleton] at hjlt
    rw [hbyteIn _ (by omega) (by omega)]
    exact hbytes j b hj

end Commit

def kernelEntry (i j : Nat) : Word :=
  mkEntry (if i < 568 then (i - 512) * 1024 + j else i * 1024 + j) (pteP ||| pteW)

def directory (n table kernel i : Nat) : Word :=
  if i < n then mkEntry (table + i) (pteP ||| pteW ||| pteU)
  else if 512 ≤ i ∧ i < 568 ∨ 1016 ≤ i ∧ i < 1024 then mkEntry (kernel + i) (pteP ||| pteW ||| pteU)
  else 0

/-- The directory of the new image is page 20000, with a guard page and a stack page. The caller's
is page 50000, with 8197 pages. The word at its address 0 has the form of an entry for page 20000,
and page 28784 that of a page table. The pages that follow are a string of bytes 7. -/
def wrapping : Machine :=
  { sparse with
    word := fun g i =>
      if g = 20000 then directory 1 20001 21000 i
      else if g = 20001 then
        if i = 0 then mkEntry 20002 (pteP ||| pteW)
        else if i = 1 then mkEntry 20003 (pteP ||| pteW ||| pteU)
        else 0
      else if 21000 ≤ g ∧ g < 22024 then kernelEntry (g - 21000) i
      else if g = 50000 then directory 9 50001 51000 i
      else if 50001 ≤ g ∧ g < 50010 then
        if (g - 50001) * 1024 + i < 8197 then
          mkEntry (28783 + ((g - 50001) * 1024 + i)) (pteP ||| pteW ||| pteU)
        else 0
      else if 51000 ≤ g ∧ g < 52024 then kernelEntry (g - 51000) i
      else if g = 28783 then if i = 0 then mkEntry 20000 (pteP ||| pteW ||| pteU) else 0
      else if g = 28784 then
        if i = 0 then mkEntry 20001 (pteP ||| pteW ||| pteU) else 0x07070707
      else if 28784 < g ∧ g < 36980 then if g = 36979 ∧ i = 7 then 0x070707 else 0x07070707
      else 0
    proc := fun _ => { sz := 8197 * 4096, pgdir := 50000, kstack := 0, state := .running, pid := 1,
                       parent := none, killed := false, name := "" } }

theorem run_uva2ka_sevens {t : Machine} {va table page : Nat} {w : Word}
    (hpresent : (t.word 20000 (pdx va)).present = true)
    (htable : pteAddr (t.word 20000 (pdx va)) = table) (hentry : t.word table (ptx va) = w)
    (huser : w.present && w.user) (hpage : pteAddr w = page) :
    (uva2ka 0 20000 va).run t = .ok (some page, t) := by
  rw [run_uva2ka 0 hpresent, htable, hentry, if_pos huser, hpage]

structure Sevens (t : Machine) : Prop where
  device : ∀ i, 1016 ≤ i → i < 1024 → t.word 20000 i = 0x07070707
  user : t.word 20000 0 = wrapping.word 20000 0
  table : ∀ i < 1024, t.word 20001 i = 0x07070707
  self : ∀ i < 1024, t.word 28784 i = 0x07070707

theorem Sevens.run_uva2ka {t : Machine} (h : Sevens t) {va : Nat}
    (hva : 1016 ≤ pdx va ∨ pdx va = 0) : (uva2ka 0 20000 va).run t = .ok (some 28784, t) := by
  have hptx : ptx va < 1024 := Nat.mod_lt _ (by decide)
  have hpdx : pdx va < 1024 := Nat.mod_lt _ (by decide)
  have haddr : pteAddr 0x07070707 = 28784 := by decide
  rcases hva with hdev | hzero
  · have hdir := h.device _ hdev hpdx
    exact run_uva2ka_sevens (by rw [hdir]; decide) (by rw [hdir, haddr]) (h.self _ hptx) (by decide)
      haddr
  · have hdir := h.user
    rw [← hzero] at hdir
    exact run_uva2ka_sevens (by rw [hdir, hzero]; decide)
      (by rw [hdir, hzero]; decide) (h.table _ hptx) (by decide) haddr

structure Overwritten (t : Machine) : Prop where
  proc : t.proc = wrapping.proc
  kend : t.kend = wrapping.kend
  free : t.free = wrapping.free
  dir : ∀ i < 1011, t.word 20000 i = wrapping.word 20000 i
  other : ∀ g ≠ 20000, g ≠ 20001 → g ≠ 28784 → t.word g = wrapping.word g

theorem Overwritten.putBytes {t : Machine} (h : Overwritten t) {page off : Nat}
    (hpage : page = 20001 ∨ page = 28784 ∨ page = 20000 ∧ 4044 ≤ off) (bytes : List (BitVec 8)) :
    Overwritten (t.putBytes page off bytes) := by
  obtain ⟨hproc, hkend, hfree⟩ := putBytes_same t page bytes off
  refine ⟨hproc.trans h.proc, hkend.trans h.kend, hfree.trans h.free, fun i hi => ?_,
    fun g h0 h1 h2 => ?_⟩
  · rw [← h.dir i hi]
    rcases hpage with rfl | rfl | ⟨rfl, hoff⟩
    · rw [putBytes_word_of_ne (by decide)]
    · rw [putBytes_word_of_ne (by decide)]
    · exact word_putBytes_of_notMem bytes (.inl (by omega))
  · rw [putBytes_word_of_ne (by omega), h.other g h0 h1 h2]

end Xv6
