import Xv6.Proof.FsFiles
import Xv6.Proof.FsRead

/-!
# Reading above the log

In a sound file system every block below the size of a file is there, so `readi` allocates nothing:
if it returns, it has changed neither blocks nor inodes, and its bytes are those of the file.
-/

namespace Xv6

namespace Fs

open Xv6.Core

variable {sb : Superblock} {c : Core} {ip : Fin ninode}

theorem spec_bmapEntry_there (ho : Opened sb c ip) {k : Fin (ndirect + 1)}
    (hne : (c.view sb).slot (c.icache ip).inum k ≠ 0) :
    Spec sb (bmapEntry ip k) c fun b c' => b = (c.view sb).slot (c.icache ip).inum k ∧ c' = c := by
  rw [slot_of_opened ho] at hne ⊢
  refine spec_get fun s hs => ?_
  rw [hs, if_neg hne]
  exact spec_pure ⟨rfl, rfl⟩

theorem spec_bmap_there (ho : Opened sb c ip) {bn : Nat}
    (hne : (c.view sb).addr (c.icache ip).inum bn ≠ 0) :
    Spec sb (bmap ip bn) c fun b c' => b = (c.view sb).addr (c.icache ip).inum bn ∧ c' = c := by
  rw [bmap]
  split
  · rename_i hdirect
    rw [View.addr_direct _ hdirect] at hne ⊢
    exact spec_bmapEntry_there ho (k := ⟨bn, Nat.lt_succ_of_lt hdirect⟩) hne
  · rename_i hdirect
    obtain ⟨hind, hmax⟩ := View.indirect_of_addr hdirect hne
    have hlt : bn - ndirect < nindirect := Nat.sub_lt_left_of_lt_add (by omega) hmax
    obtain ⟨hdata, hlog⟩ := slot_area ho hind
    rw [View.addr_indirect hdirect hmax hind, view_blk hdata hlog] at hne ⊢
    rw [if_pos hlt]
    refine (spec_bmapEntry_there ho (k := Fin.last ndirect) hind).bind ?_
    rintro _ c1 ⟨rfl, hc1⟩
    rw [hc1]
    refine spec_bread hlog ?_
    have hne' : ¬getLE (c.blk ((c.view sb).slot (c.icache ip).inum (Fin.last ndirect)))
      (4 * (bn - ndirect)) 4 = 0 := hne
    simp only [if_neg hne']
    exact (spec_brelse _).next fun _ => spec_pure ⟨rfl, rfl⟩

theorem spec_readLoop (ho : Opened sb c ip) (fuel : Nat) {off n : Nat} (hfuel : n ≤ fuel)
    (hall : ∀ x, off ≤ x → x < off + n → (c.view sb).addr (c.icache ip).inum (x / bsize) ≠ 0) :
    Spec sb (readLoop ip fuel off n) c fun r c' => c' = c ∧
      r = (List.range n).map fun k => (c.view sb).byte (c.icache ip).inum (off + k) := by
  induction fuel generalizing off n with
  | zero =>
    obtain rfl := Nat.le_zero.mp hfuel
    exact spec_pure ⟨rfl, rfl⟩
  | succ fuel ih =>
    rw [readLoop]
    split
    · rename_i hn
      subst hn
      exact spec_pure ⟨rfl, rfl⟩
    · rename_i hn
      have hne := hall off le_rfl (by omega)
      obtain ⟨hdata, hlog⟩ := slot_area ho hne
      obtain ⟨m, hm⟩ : ∃ m, m = min n (bsize - off % bsize) := ⟨_, rfl⟩
      have hpos : 0 < bsize - off % bsize := Nat.sub_pos_of_lt (Nat.mod_lt _ (by decide))
      refine (spec_bmap_there ho hne).bind ?_
      rintro _ c1 ⟨rfl, hc1⟩
      rw [hc1]
      refine spec_bread hlog ((spec_brelse _).next fun _ => ?_)
      rw [← hm]
      refine (ih (by omega) fun x hx hlt => hall x (by omega) (by omega)).bind ?_
      rintro rest c2 ⟨hc2, rfl⟩
      refine spec_pure ⟨hc2, ?_⟩
      have hblk : (c.view sb).blk ((c.view sb).addr (c.icache ip).inum (off / bsize)) =
          c.blk ((c.view sb).addr (c.icache ip).inum (off / bsize)) := view_blk hdata hlog
      rw [← hblk, View.getBytes_blk (by omega), range_map_split _ (by omega : m ≤ n)]
      simp only [Nat.add_assoc]

def slice (v : View) (i off n : Nat) : List UInt8 :=
  (List.range (min n (v.size i - off))).map fun k => v.byte i (off + k)

theorem length_slice (v : View) (i off n : Nat) :
    (slice v i off n).length = min n (v.size i - off) := by
  rw [slice, List.length_map, List.length_range]

theorem spec_readi (ho : Opened sb c ip) (hdev : (c.icache ip).d.type ≠ tDev) (off n : Nat) :
    Spec sb (readi ip off n) c fun r c' => c' = c ∧
      r = if (c.view sb).size (c.icache ip).inum < off ∨ 2 ^ 32 ≤ off + n then none
        else some (slice (c.view sb) (c.icache ip).inum off n) := by
  have hsize : (c.view sb).size (c.icache ip).inum = (c.icache ip).d.size.toNat := by
    rw [View.size, ho.view_ino]
  rw [hsize]
  refine spec_get fun s hs => ?_
  rw [hs, if_neg hdev]
  split
  · rename_i hbad
    exact spec_pure ⟨rfl, rfl⟩
  · rename_i hbad
    obtain ⟨m, hm⟩ : ∃ m, m = min n ((c.icache ip).d.size.toNat - off) := ⟨_, rfl⟩
    have hcut : (if (c.icache ip).d.size.toNat < off + n then (c.icache ip).d.size.toNat - off
        else n) = m := by
      split <;> omega
    simp only [hcut]
    refine (spec_readLoop ho m le_rfl fun x _ hlt => ?_).bind ?_
    · refine ho.good.sound.full _ _ ho.ino_type ?_
      have := Nat.div_mul_le_self x bsize
      omega
    · rintro bytes c1 ⟨hc1, rfl⟩
      refine spec_pure ⟨hc1, ?_⟩
      rw [slice, hsize, hm]

end Fs

end Xv6
