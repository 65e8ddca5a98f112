import Xv6.Proof.EagerCopy
import Xv6.Proof.PageBytes

/-!
# The image that `exec` builds

When `exec` comes to the arguments, the pages of the program are mapped, the last one is the stack
and the one below it the guard page. `copyout` writes to the last page, and never gets past the
guard page.
-/

namespace Xv6

def Machine.byteIn (s : Machine) (d va : Nat) : BitVec 8 :=
  s.pageByte (s.frameAt d (va / pgSize)) (va % pgSize)

def Machine.wordIn (s : Machine) (d va : Nat) : Word :=
  s.word (s.frameAt d (va / pgSize)) (va % pgSize / 4)

/-- What `exec` has built when it comes to the arguments: pages up to `sz`, the last but one not
accessible to the user. -/
structure NewImage (s : Machine) (d sz : Nat) : Prop extends Disposable s d where
  aligned : sz % pgSize = 0
  room : 2 * pgSize ≤ sz
  size : sz ≤ kernBase
  mapped : ∀ a < sz / pgSize, s.MapsAt d a
  user : ∀ a < sz / pgSize, ((s.entryAt d a).user = true ↔ a + 2 ≠ sz / pgSize)

structure SameBut (s t : Machine) (d : Nat) (S : Nat → Prop) : Prop where
  proc : t.proc = s.proc
  kend : t.kend = s.kend
  free : t.free = s.free
  word : ∀ g, (∀ a, S a → g ≠ s.frameAt d a) → t.word g = s.word g

section Image

variable {s t u : Machine} {d sz : Nat} {S : Nat → Prop}

theorem SameBut.refl (s : Machine) (d : Nat) (S : Nat → Prop) : SameBut s s d S :=
  ⟨rfl, rfl, rfl, fun _ _ => rfl⟩

theorem SameBut.mono {S' : Nat → Prop} (h : SameBut s t d S) (hS : ∀ a, S a → S' a) :
    SameBut s t d S' :=
  ⟨h.proc, h.kend, h.free, fun g hg => h.word g fun a ha => hg a (hS a ha)⟩

theorem sameBut_putBytes (s : Machine) (d : Nat) {a : Nat} (ha : S a) (off : Nat)
    (bytes : List (BitVec 8)) : SameBut s (s.putBytes (s.frameAt d a) off bytes) d S := by
  obtain ⟨hproc, hkend, hfree⟩ := putBytes_same s (s.frameAt d a) bytes off
  exact ⟨hproc, hkend, hfree, fun g hg => putBytes_word_of_ne (hg a ha) bytes off s⟩

def UserPagesOf (s : Machine) (d : Nat) (S : Nat → Prop) : Prop :=
  ∀ a, S a → a < 2 ^ 19 ∧ s.MapsAt d a

theorem SameBut.sameTables (h : SameBut s t d S) (hD : DirSound s d) (hS : UserPagesOf s d S) :
    SameTables s t d := by
  refine ⟨h.word d fun a ha => (hD.frame a (hS a ha).1 (hS a ha).2).1.symm, fun i hi hp => ?_⟩
  exact h.word _ fun a ha => ((hD.frame a (hS a ha).1 (hS a ha).2).2.1 i hi hp).symm

theorem SameBut.trans (h : SameBut s t d S) (h' : SameBut t u d S) (hD : DirSound s d)
    (hS : UserPagesOf s d S) : SameBut s u d S := by
  refine ⟨h'.proc.trans h.proc, h'.kend.trans h.kend, h'.free.trans h.free, fun g hg => ?_⟩
  rw [h'.word g fun a ha => ?_, h.word g hg]
  rw [(h.sameTables hD hS).frameAt (by have := (hS a ha).1; omega) (hS a ha).2.1]
  exact hg a ha

theorem NewImage.pages_le (h : NewImage s d sz) : sz / pgSize ≤ 2 ^ 19 := by
  have hsize := h.size
  simp only [kernBase, pgSize] at *
  omega

theorem NewImage.userPages (h : NewImage s d sz) (hS : ∀ a, S a → a < sz / pgSize) :
    UserPagesOf s d S := fun a ha => ⟨(hS a ha).trans_le h.pages_le, h.mapped a (hS a ha)⟩

theorem NewImage.sameBut (h : NewImage s d sz) (hsame : SameBut s t d S)
    (hS : ∀ a, S a → a < sz / pgSize) : NewImage t d sz := by
  have htables := hsame.sameTables h.sound (h.userPages hS)
  have hle := h.pages_le
  refine ⟨htables.disposable hsame.kend (fun g hg => hsame.free ▸ hg) h.toDisposable, h.aligned,
    h.room, h.size, fun a ha => ?_, fun a ha => ?_⟩
  · exact (htables.mapsAt_iff (by omega)).mpr (h.mapped a ha)
  · rw [htables.entryAt (by omega) (h.mapped a ha).1]
    exact h.user a ha

/-- The call of `clearpteu` that makes the page below the stack the guard page. -/
theorem Disposable.run_clearpteu (hd : Disposable s d) (haligned : sz % pgSize = 0)
    (hroom : 2 * pgSize ≤ sz) (hsize : sz ≤ kernBase)
    (huser : ∀ a < sz / pgSize, s.MapsAt d a ∧ (s.entryAt d a).user = true) :
    ∃ t, (clearpteu d (sz - 2 * pgSize)).run s = .ok ((), t) ∧ NewImage t d sz := by
  obtain ⟨n, rfl⟩ : ∃ n, sz = (n + 2) * pgSize :=
    ⟨sz / pgSize - 2, by simp only [pgSize] at *; omega⟩
  have hn : n + 2 ≤ 2 ^ 19 := by simp only [kernBase, pgSize] at hsize; omega
  have hva : (n + 2) * pgSize - 2 * pgSize = n * pgSize := by rw [Nat.add_mul, Nat.add_sub_cancel]
  rw [Nat.mul_div_cancel _ (by decide)] at huser
  obtain ⟨hguard, -⟩ := huser n (by omega)
  have hwalk : walkPtr s d (n * pgSize) = some (s.tableAt d (n / 1024), n % 1024) := by
    rw [walkPtr, pdx_page (by omega), ptx_page, if_pos hguard.1]
    rfl
  rw [hva, clearpteu, run_updatePte hwalk]
  refine ⟨_, rfl, ?_⟩
  set t := s.setWord (s.tableAt d (n / 1024)) (n % 1024)
    (s.word (s.tableAt d (n / 1024)) (n % 1024) &&& ~~~pteU)
  have hdir : t.word d = s.word d :=
    Machine.setWord_word_of_ne _ _ _ (hd.sound.table _ (by omega) hguard.1).symm
  have hentry : ∀ a, t.entryAt d a = if s.tableAt d (a / 1024) = s.tableAt d (n / 1024) ∧
      a % 1024 = n % 1024 then s.entryAt d a &&& ~~~pteU else s.entryAt d a := by
    intro a
    rw [Machine.entryAt, Machine.tableAt, hdir]
    split
    · rename_i heq
      rw [← Machine.tableAt, heq.1, heq.2, Machine.setWord_word_self, Machine.entryAt, heq.1, heq.2]
    · rename_i hne
      by_cases htab : s.tableAt d (a / 1024) = s.tableAt d (n / 1024)
      · rw [← Machine.tableAt, htab, Machine.setWord_word_index _ _ _ _ fun h => hne ⟨htab, h⟩,
          ← htab]
        rfl
      · rw [← Machine.tableAt, Machine.setWord_word_of_ne _ _ _ htab]
        rfl
  have hframe : ∀ a, t.frameAt d a = s.frameAt d a ∧
      (t.entryAt d a).present = (s.entryAt d a).present := by
    intro a
    rw [Machine.frameAt, hentry]
    split
    · exact ⟨pteAddr_clearU _, present_clearU _⟩
    · exact ⟨rfl, rfl⟩
  have hmaps : ∀ a, t.MapsAt d a ↔ s.MapsAt d a := by
    intro a
    rw [Machine.MapsAt, Machine.MapsAt, hdir, (hframe a).2]
  refine ⟨hd.of_frames hdir rfl (fun _ => id) fun a _ hm => ⟨(hmaps a).mp hm, (hframe a).1⟩,
    haligned, hroom, hsize, ?_, ?_⟩
  · rw [Nat.mul_div_cancel _ (by decide)]
    exact fun a ha => (hmaps a).mpr (huser a ha).1
  · rw [Nat.mul_div_cancel _ (by decide)]
    intro a ha
    obtain ⟨hm, hu⟩ := huser a ha
    rw [hentry]
    by_cases han : a = n
    · subst han
      simp [Word.user, pteU]
    · -- another page of the image has another entry, since it has another frame
      rw [if_neg, hu]
      · simp [han]
      · rintro ⟨htab, hidx⟩
        refine han (hd.sound.distinct a n (by omega) (by omega) hm hguard ?_)
        rw [Machine.frameAt, Machine.frameAt, Machine.entryAt, Machine.entryAt, htab, hidx]

variable {cur : Fin nproc} {va : Nat} {buf : List (BitVec 8)}

theorem NewImage.run_uva2ka (h : NewImage s d sz) (hva : va / pgSize < sz / pgSize) :
    (uva2ka cur d (pgRoundDown va)).run s = .ok
      (if va / pgSize + 2 = sz / pgSize then none else some (s.frameAt d (va / pgSize)), s) := by
  have hle := h.pages_le
  have hpdx : pdx (pgRoundDown va) = va / pgSize / 1024 := pdx_page (by omega)
  have hptx : ptx (pgRoundDown va) = va / pgSize % 1024 := ptx_page _
  obtain ⟨hdir, hentry⟩ := h.mapped _ hva
  have hpresent : (s.word d (pdx (pgRoundDown va))).present = true := by
    rw [hpdx]
    exact hdir
  have hrun := Xv6.run_uva2ka cur hpresent
  rw [hpdx, hptx] at hrun
  change _ = Except.ok (if (s.entryAt d (va / pgSize)).present && (s.entryAt d (va / pgSize)).user
    then some (s.frameAt d (va / pgSize)) else none, s) at hrun
  rw [hrun, hentry, Bool.true_and]
  by_cases hguard : va / pgSize + 2 = sz / pgSize
  · rw [if_pos hguard, if_neg fun huser => (h.user _ hva).mp huser hguard]
  · rw [if_neg hguard, if_pos ((h.user _ hva).mpr hguard)]

theorem last_page (hsz : sz % pgSize = 0) (hroom : 2 * pgSize ≤ sz) (hlow : sz - pgSize ≤ va)
    (hhigh : va < sz) : va / pgSize = sz / pgSize - 1 ∧ va % pgSize = va - (sz - pgSize) := by
  simp only [pgSize] at *
  omega

end Image

end Xv6
