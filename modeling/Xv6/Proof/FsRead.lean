import Mathlib.Data.List.GetD
import Xv6.Boot
import Xv6.Proof.FsView

/-!
# Reading files

Total correctness of the reading half of `fs.c`: with no buffer in use, blocks that are there are
read without a panic, and the state is the same afterwards but for the inode cache.
-/

namespace Xv6

namespace Fs

structure Quiet (s : Fs) : Prop where
  held : s.held = []
  dirty : s.dirty = []

variable {s : Fs} {b : Nat} {β : Type}

theorem Quiet.setInode (hq : s.Quiet) (ip : Fin ninode) (e : Inode) : (s.setInode ip e).Quiet :=
  ⟨hq.held, hq.dirty⟩

theorem Quiet.room (hq : s.Quiet) : s.pinned < nbuf := by
  simp [pinned, hq.held, hq.dirty, nbuf]

theorem run_bread (hq : s.Quiet) (b : Nat) :
    (bread b).run s = .ok (s.content b, { s with held := [b] }) := by
  rw [run_bread_of_lt (by simp [hq.held]) hq.room, hq.held]

theorem run_brelse (h : s.held = [b]) : (brelse b).run s = .ok ((), { s with held := [] }) := by
  rw [run_brelse_of_mem (by simp [h]), h, List.erase_cons_head]

theorem run_read_of_lt (hb : b ∉ s.held) (hpinned : s.pinned < nbuf) (f : Block → Kernel Fs β) :
    (bread b >>= fun data => brelse b >>= fun _ => f data).run s = (f (s.content b)).run s := by
  rw [Kernel.run_bind_of_ok (run_bread_of_lt hb hpinned),
    Kernel.run_bind_of_ok (run_brelse_of_mem List.mem_cons_self)]
  simp only [List.erase_cons_head]

theorem run_bread_brelse (hq : s.Quiet) (b : Nat) (f : Block → Kernel Fs β) :
    (bread b >>= fun data => brelse b >>= fun _ => f data).run s = (f (s.content b)).run s :=
  run_read_of_lt (by simp [hq.held]) hq.room f

structure Sees (s : Fs) (ip : Fin ninode) (v : View) (i : Nat) : Prop where
  quiet : s.Quiet
  addrs : (s.icache ip).d.addrs = (v.ino i).addrs
  blk : ∀ k, v.slot i k ≠ 0 → s.content (v.slot i k) = v.blk (v.slot i k)

structure Shows (s : Fs) (ip : Fin ninode) (v : View) (i : Nat) : Prop where
  held : s.held = []
  room : s.pinned < nbuf
  addrs : (s.icache ip).d.addrs = (v.ino i).addrs
  blk : ∀ k, v.slot i k ≠ 0 → s.content (v.slot i k) = v.blk (v.slot i k)

variable {ip : Fin ninode} {v : View} {i : Nat}

theorem Sees.shows (h : Sees s ip v i) : Shows s ip v i :=
  ⟨h.quiet.held, h.quiet.room, h.addrs, h.blk⟩

theorem Shows.notMem (h : Shows s ip v i) (b : Nat) : b ∉ s.held := by
  rw [h.held]
  exact List.not_mem_nil

theorem run_bmapEntry (h : Shows s ip v i) {k : Fin (ndirect + 1)} (hne : v.slot i k ≠ 0) :
    (bmapEntry ip k).run s = .ok (v.slot i k, s) := by
  have hslot : v.slot i k = ((s.icache ip).d.addrs k).toNat := by
    rw [View.slot_direct _ k.isLt, h.addrs]
  rw [hslot] at hne ⊢
  rw [bmapEntry, Kernel.run_get_bind, if_neg hne]
  rfl

theorem run_bmap (h : Shows s ip v i) {bn : Nat} (hne : v.addr i bn ≠ 0) :
    (bmap ip bn).run s = .ok (v.addr i bn, s) := by
  rw [bmap]
  split
  · rename_i hdirect
    rw [View.addr_direct i hdirect] at hne ⊢
    exact run_bmapEntry h (k := ⟨bn, Nat.lt_succ_of_lt hdirect⟩) hne
  · rename_i hdirect
    obtain ⟨hind, hmax⟩ := View.indirect_of_addr hdirect hne
    have hlt : bn - ndirect < nindirect := Nat.sub_lt_left_of_lt_add (by omega) hmax
    rw [View.addr_indirect hdirect hmax hind] at hne ⊢
    rw [if_pos hlt, Kernel.run_bind_of_ok (run_bmapEntry h (k := Fin.last ndirect) hind)]
    change (bread (v.slot i ndirect) >>= _).run s = _
    rw [Kernel.run_bind_of_ok (run_bread_of_lt (h.notMem _) h.room), h.blk ndirect hind]
    simp only [if_neg hne]
    rw [Kernel.run_bind_of_ok (run_brelse_of_mem List.mem_cons_self), Kernel.run_pure]
    simp only [Fin.val_last, List.erase_cons_head]

theorem range_map_split {α : Type} (f : Nat → α) {m n : Nat} (h : m ≤ n) :
    (List.range n).map f = (List.range m).map f ++ (List.range (n - m)).map fun k => f (m + k) := by
  obtain ⟨d, rfl⟩ := Nat.exists_eq_add_of_le h
  rw [List.range_add, List.map_append, List.map_map, Nat.add_sub_cancel_left]
  rfl

theorem run_readLoop (h : Shows s ip v i) (fuel : Nat) {off n : Nat} (hfuel : n ≤ fuel)
    (hall : ∀ x, off ≤ x → x < off + n → v.addr i (x / bsize) ≠ 0) :
    (readLoop ip fuel off n).run s = .ok ((List.range n).map fun k => v.byte i (off + k), s) := by
  induction fuel generalizing off n with
  | zero =>
    obtain rfl := Nat.le_zero.mp hfuel
    rfl
  | succ fuel ih =>
    rw [readLoop]
    split
    · rename_i hn
      subst hn
      rfl
    · rename_i hn
      have hne := hall off le_rfl (by omega)
      rw [Kernel.run_bind_of_ok (run_bmap h hne)]
      obtain ⟨m, hm⟩ : ∃ m, m = min n (bsize - off % bsize) := ⟨_, rfl⟩
      have hpos : 0 < bsize - off % bsize := Nat.sub_pos_of_lt (Nat.mod_lt _ (by decide))
      change (bread (v.addr i (off / bsize)) >>= fun data => brelse _ >>= fun _ => _).run s = _
      rw [run_read_of_lt (h.notMem _) h.room, ← hm]
      rw [Kernel.run_bind_of_ok (ih (by omega) fun x hx hlt => hall x (by omega) (by omega))]
      rw [range_map_split _ (by omega : m ≤ n)]
      have hblk : s.content (v.addr i (off / bsize)) = v.blk (v.addr i (off / bsize)) :=
        h.blk _ hne
      rw [hblk, View.getBytes_blk (by omega)]
      simp only [Nat.add_assoc]
      rfl

theorem run_readi (h : Sees s ip v i) {bytes : List UInt8} {off n : Nat}
    (hdev : (s.icache ip).d.type ≠ tDev) (hsize : off + n ≤ (s.icache ip).d.size.toNat)
    (hlen : off + n ≤ bytes.length) (hall : ∀ x < bytes.length, v.addr i (x / bsize) ≠ 0)
    (hbyte : ∀ x < bytes.length, v.byte i x = bytes.getD x 0) :
    (readi ip off n).run s = .ok (some ((bytes.drop off).take n), s) := by
  have hword := (s.icache ip).d.size.toNat_lt
  have hbad : ¬((s.icache ip).d.size.toNat < off ∨ 2 ^ 32 ≤ off + n) := by omega
  have hcut : ¬(s.icache ip).d.size.toNat < off + n := by omega
  rw [readi, Kernel.run_get_bind]
  simp only [if_neg hdev, if_neg hbad, if_neg hcut]
  rw [Kernel.run_bind_of_ok (run_readLoop h.shows n le_rfl fun x _ hlt => hall x (by omega))]
  have hlist : ((List.range n).map fun k => v.byte i (off + k)) = (bytes.drop off).take n := by
    refine List.ext_getElem ?_ fun k hk hk' => ?_
    · simp only [List.length_map, List.length_range, List.length_take, List.length_drop]
      omega
    · rw [List.length_map, List.length_range] at hk
      rw [List.getElem_map, List.getElem_range, List.getElem_take, List.getElem_drop,
        hbyte _ (by omega), List.getD_eq_getElem _ _ (by omega)]
  rw [hlist]
  rfl

end Fs

end Xv6
