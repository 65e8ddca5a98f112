import Xv6.Proof.FsCore

/-!
# Inodes and the bitmap as bytes of blocks

What `balloc`, `bfree`, `ialloc`, `iupdate` and the inode cache do, in terms of the inodes and bits
that the blocks encode. An inode, a bit and a data block do not overlap.
-/

namespace Xv6

theorem getLE_putLE_full {data : Block} {off len v : Nat} (hv : v < 256 ^ len) :
    getLE (putLE data off len v) off len = v := by
  rw [getLE_putLE_self, Nat.mod_eq_of_lt hv]

namespace Dinode

def storeAddrs (addrs : Fin (ndirect + 1) → UInt32) (off : Nat) (ks : List (Fin (ndirect + 1)))
    (data : Block) : Block :=
  ks.foldl (fun data (k : Fin (ndirect + 1)) => putLE data (off + 12 + 4 * k) 4 (addrs k).toNat)
    data

variable {addrs : Fin (ndirect + 1) → UInt32} {off : Nat}

theorem getLE_storeAddrs_of_forall (ks : List (Fin (ndirect + 1))) (data : Block) {off' len' : Nat}
    (h : ∀ k ∈ ks, off' + len' ≤ off + 12 + 4 * k ∨ off + 12 + 4 * k + 4 ≤ off') :
    getLE (storeAddrs addrs off ks data) off' len' = getLE data off' len' := by
  induction ks generalizing data with
  | nil => rfl
  | cons k ks ih =>
    rw [storeAddrs, List.foldl_cons]
    refine (ih _ fun j hj => h j (List.mem_cons_of_mem k hj)).trans ?_
    exact getLE_putLE_disjoint (h k List.mem_cons_self)

theorem getLE_storeAddrs_self (ks : List (Fin (ndirect + 1))) (hks : ks.Nodup) (data : Block)
    {k : Fin (ndirect + 1)} (hk : k ∈ ks) :
    getLE (storeAddrs addrs off ks data) (off + 12 + 4 * k) 4 = (addrs k).toNat := by
  induction ks generalizing data with
  | nil => cases hk
  | cons j ks ih =>
    obtain ⟨hj, hks⟩ := List.nodup_cons.mp hks
    rw [storeAddrs, List.foldl_cons]
    rcases List.mem_cons.mp hk with rfl | hk
    · refine (getLE_storeAddrs_of_forall ks _ fun i hi => ?_).trans
        (getLE_putLE_full (addrs k).toNat_lt)
      have hne : (i : Nat) ≠ k := fun heq => hj (Fin.ext heq ▸ hi)
      omega
    · exact ih hks _ hk

theorem store_eq (d : Dinode) (data : Block) (off : Nat) :
    d.store data off = storeAddrs d.addrs off (List.finRange (ndirect + 1))
      (putLE (putLE (putLE (putLE (putLE data off 2 d.type.toNat) (off + 2) 2 d.major.toNat)
        (off + 4) 2 d.minor.toNat) (off + 6) 2 d.nlink.toNat) (off + 8) 4 d.size.toNat) := rfl

theorem load_store_self (d : Dinode) (data : Block) (off : Nat) :
    load (d.store data off) off = d := by
  have haddrs : ∀ off' len', off' + len' ≤ off + 12 → ∀ b : Block,
      getLE (storeAddrs d.addrs off (List.finRange (ndirect + 1)) b) off' len' =
        getLE b off' len' :=
    fun off' len' h b => getLE_storeAddrs_of_forall _ b fun k _ => Or.inl (by omega)
  obtain ⟨type, major, minor, nlink, size, addrs⟩ := d
  rw [store_eq]
  simp only [load, mk.injEq]
  refine ⟨?_, ?_, ?_, ?_, ?_, ?_⟩
  · rw [haddrs _ _ (by omega), getLE_putLE_disjoint (by omega), getLE_putLE_disjoint (by omega),
      getLE_putLE_disjoint (by omega), getLE_putLE_disjoint (by omega),
      getLE_putLE_full type.toNat_lt, UInt16.ofNat_toNat]
  · rw [haddrs _ _ (by omega), getLE_putLE_disjoint (by omega), getLE_putLE_disjoint (by omega),
      getLE_putLE_disjoint (by omega), getLE_putLE_full major.toNat_lt, UInt16.ofNat_toNat]
  · rw [haddrs _ _ (by omega), getLE_putLE_disjoint (by omega), getLE_putLE_disjoint (by omega),
      getLE_putLE_full minor.toNat_lt, UInt16.ofNat_toNat]
  · rw [haddrs _ _ (by omega), getLE_putLE_disjoint (by omega), getLE_putLE_full nlink.toNat_lt,
      UInt16.ofNat_toNat]
  · rw [haddrs _ _ (by omega), getLE_putLE_full size.toNat_lt, UInt32.ofNat_toNat]
  · funext k
    rw [getLE_storeAddrs_self _ (List.nodup_finRange _) _ (List.mem_finRange k),
      UInt32.ofNat_toNat]

theorem getLE_store_of_disjoint (d : Dinode) (data : Block) {off off' len' : Nat}
    (h : off' + len' ≤ off ∨ off + 64 ≤ off') :
    getLE (d.store data off) off' len' = getLE data off' len' := by
  rw [store_eq, getLE_storeAddrs_of_forall, getLE_putLE_disjoint (by omega),
    getLE_putLE_disjoint (by omega), getLE_putLE_disjoint (by omega),
    getLE_putLE_disjoint (by omega), getLE_putLE_disjoint (by omega)]
  intro k _
  have hk : (k : Nat) < 13 := k.isLt
  omega

theorem load_store_of_disjoint (d : Dinode) (data : Block) {off off' : Nat}
    (h : off' + 64 ≤ off ∨ off + 64 ≤ off') : load (d.store data off) off' = load data off' := by
  simp only [load, mk.injEq]
  refine ⟨?_, ?_, ?_, ?_, ?_, funext fun k => ?_⟩
  on_goal 6 => have hk : (k : Nat) < 13 := k.isLt
  all_goals rw [getLE_store_of_disjoint d data (by omega)]

end Dinode

theorem toNat_mask {i : Nat} (hi : i < 8) : (1 <<< UInt8.ofNat i : UInt8).toNat = 2 ^ i := by
  revert i
  decide

theorem testBit_not_mask {i j : Nat} (hi : i < 8) (hj : j < 8) :
    (~~~(1 <<< UInt8.ofNat i) : UInt8).toNat.testBit j = decide (i ≠ j) := by
  revert j
  revert i
  decide

namespace Fs

theorem bitSet_setBit (data : Block) (bi bj : Nat) :
    bitSet (setBit data bi) bj = (decide (bi = bj) || bitSet data bj) := by
  simp only [bitSet, setBit]
  by_cases hbyte : bj / 8 = bi / 8
  · rw [hbyte, Function.update_self, UInt8.toNat_or, Nat.testBit_or,
      toNat_mask (Nat.mod_lt bi (by decide)), Nat.testBit_two_pow, Bool.or_comm]
    congr 1
    rw [decide_eq_decide]
    omega
  · rw [Function.update_of_ne hbyte]
    have hne : bi ≠ bj := fun heq => hbyte (heq ▸ rfl)
    simp [hne]

theorem bitSet_clearBit (data : Block) (bi bj : Nat) :
    bitSet (clearBit data bi) bj = (decide (bi ≠ bj) && bitSet data bj) := by
  simp only [bitSet, clearBit]
  by_cases hbyte : bj / 8 = bi / 8
  · rw [hbyte, Function.update_self, UInt8.toNat_and, Nat.testBit_and,
      testBit_not_mask (Nat.mod_lt bi (by decide)) (Nat.mod_lt bj (by decide)), Bool.and_comm]
    congr 1
    rw [decide_eq_decide]
    omega
  · rw [Function.update_of_ne hbyte]
    have hne : bi ≠ bj := fun heq => hbyte (heq ▸ rfl)
    simp [hne]

end Fs

namespace Core

variable (c : Core)

def din (i : Nat) : Dinode := Dinode.load (c.blk (Fs.iblock i)) (dinodeOff i)

def bit (sb : Superblock) (b : Nat) : Bool := Fs.bitSet (c.blk (sb.bblock b)) (b % bpb)

def setDin (i : Nat) (d : Dinode) : Core :=
  c.setBlk (Fs.iblock i) (d.store (c.blk (Fs.iblock i)) (dinodeOff i))

def mark (sb : Superblock) (b : Nat) : Core :=
  c.setBlk (sb.bblock b) (Fs.setBit (c.blk (sb.bblock b)) (b % bpb))

def unmark (sb : Superblock) (b : Nat) : Core :=
  c.setBlk (sb.bblock b) (Fs.clearBit (c.blk (sb.bblock b)) (b % bpb))

def locked (ip : Fin ninode) : Inode :=
  let e := c.icache ip
  { e with busy := true, valid := true, d := if e.valid then e.d else c.din e.inum }

variable {c} {sb : Superblock}

@[simp]
theorem setBlk_icache (b : Nat) (data : Block) : (c.setBlk b data).icache = c.icache := rfl

@[simp]
theorem mark_icache (b : Nat) : (c.mark sb b).icache = c.icache := rfl

@[simp]
theorem setInode_din (ip : Fin ninode) (e : Inode) : (c.setInode ip e).din = c.din := rfl

theorem setBlk_blk_of_ne {b x : Nat} (h : x ≠ b) (data : Block) :
    (c.setBlk b data).blk x = c.blk x := Function.update_of_ne h ..

@[simp]
theorem setBlk_blk_self (b : Nat) (data : Block) : (c.setBlk b data).blk b = data :=
  Function.update_self ..

theorem din_setBlk_of_ne {b : Nat} {i : Nat} (h : Fs.iblock i ≠ b) (data : Block) :
    (c.setBlk b data).din i = c.din i := by
  rw [din, setBlk_blk_of_ne h, din]

theorem bit_setBlk_of_ne {b x : Nat} (h : sb.bblock x ≠ b) (data : Block) :
    (c.setBlk b data).bit sb x = c.bit sb x := by
  rw [bit, setBlk_blk_of_ne h, bit]

theorem din_setDin (i j : Nat) (d : Dinode) :
    (c.setDin i d).din j = if j = i then d else c.din j := by
  split
  · rename_i hij
    subst hij
    rw [setDin, din, setBlk_blk_self, Dinode.load_store_self]
  · rename_i hij
    by_cases hblock : Fs.iblock j = Fs.iblock i
    · rw [setDin, din, hblock, setBlk_blk_self, Dinode.load_store_of_disjoint, ← hblock, din]
      simp only [Fs.iblock, dinodeOff, ipb] at hblock ⊢
      omega
    · exact din_setBlk_of_ne hblock _

theorem bit_mark (b x : Nat) : (c.mark sb b).bit sb x = (decide (b = x) || c.bit sb x) := by
  by_cases hblock : sb.bblock x = sb.bblock b
  · rw [mark, bit, hblock, setBlk_blk_self, Fs.bitSet_setBit, ← hblock, bit]
    congr 1
    rw [decide_eq_decide]
    simp only [Superblock.bblock, bpb] at hblock ⊢
    omega
  · have hne : b ≠ x := fun heq => hblock (heq ▸ rfl)
    rw [mark, bit_setBlk_of_ne hblock]
    simp [hne]

theorem bit_unmark (b x : Nat) : (c.unmark sb b).bit sb x = (decide (b ≠ x) && c.bit sb x) := by
  by_cases hblock : sb.bblock x = sb.bblock b
  · rw [unmark, bit, hblock, setBlk_blk_self, Fs.bitSet_clearBit, ← hblock, bit]
    congr 1
    rw [decide_eq_decide]
    simp only [Superblock.bblock, bpb] at hblock ⊢
    omega
  · have hne : b ≠ x := fun heq => hblock (heq ▸ rfl)
    rw [unmark, bit_setBlk_of_ne hblock]
    simp [hne]

end Core

section Regions

variable {sb : Superblock}

theorem iblock_lt_bblock {i : Nat} (hi : i < sb.ninodes) (b : Nat) : Fs.iblock i < sb.bblock b := by
  simp only [Fs.iblock, Superblock.bblock, ipb, bpb]
  omega

theorem bblock_lt_dataStart {b : Nat} (hb : b < sb.size) : sb.bblock b < sb.dataStart := by
  simp only [Superblock.bblock, Superblock.dataStart, ipb, bpb]
  omega

theorem one_lt_iblock (i : Nat) : 1 < Fs.iblock i := by
  simp only [Fs.iblock, ipb]
  omega

theorem one_lt_bblock (b : Nat) : 1 < sb.bblock b := by
  simp only [Superblock.bblock, ipb, bpb]
  omega

theorem iblock_lt_dataStart {i : Nat} (hi : i < sb.ninodes) : Fs.iblock i < sb.dataStart := by
  simp only [Fs.iblock, Superblock.dataStart, ipb, bpb]
  omega

end Regions

namespace Fs

variable {sb : Superblock} {c : Core} {β : Type} {R : β → Core → Prop}

theorem spec_readsb {g : Superblock → Kernel Fs β} (h : Spec sb (g sb) c R) :
    Spec sb (readsb >>= g) c R := by
  have hread : Spec sb readsb c fun r c' => r = sb ∧ c' = c := by
    rintro s hok rfl
    refine (bread_ensures 1).bind ?_
    rintro data s1 ⟨rfl, h1⟩
    refine (brelse_ensures 1).bind fun _ s2 h2 => Kernel.ensures_pure ?_
    exact ⟨(h1.trans h2).ok hok, hok.super, (h1.trans h2).core⟩
  refine hread.bind ?_
  rintro _ _ ⟨hr, hc⟩
  rw [hr, hc]
  exact h

theorem spec_bzero {b : Nat} (hb : b < sb.logStart) (hone : b ≠ 1) :
    Spec sb (bzero b) c fun _ c' => c' = c.setBlk b fun _ => 0 :=
  spec_bread hb (spec_logged hb hone (spec_brelse b))

theorem logStart_le_size : sb.logStart ≤ sb.size := Nat.sub_le ..

theorem bblock_lt_logStart (hfits : sb.Fits) {b : Nat} (hb : b < sb.size) :
    sb.bblock b < sb.logStart := (bblock_lt_dataStart hb).trans_le hfits.data

theorem iblock_lt_logStart (hfits : sb.Fits) {i : Nat} (hi : i < sb.ninodes) :
    Fs.iblock i < sb.logStart := (iblock_lt_dataStart hi).trans_le hfits.data

theorem bblock_add {k bi : Nat} (hbi : bi < bpb) :
    sb.bblock (k * bpb + bi) = sb.bblock (k * bpb) := by
  simp only [Superblock.bblock, bpb] at hbi ⊢
  omega

theorem bit_add {k bi : Nat} (hbi : bi < bpb) :
    c.bit sb (k * bpb + bi) = bitSet (c.blk (sb.bblock (k * bpb))) bi := by
  have hmod : (k * bpb + bi) % bpb = bi := by
    simp only [bpb] at hbi ⊢
    omega
  rw [Core.bit, bblock_add hbi, hmod]

theorem first_clear_bit {k x bi : Nat} (hkx : k * bpb ≤ x) (hfree : c.bit sb x = false)
    (hfind : (List.range (min bpb (sb.size - k * bpb))).find?
      (fun bi => !bitSet (c.blk (sb.bblock (k * bpb))) bi) = some bi) :
    bi < bpb ∧ c.bit sb (k * bpb + bi) = false ∧ k * bpb + bi ≤ x := by
  obtain ⟨hclear, hmem, hfirst⟩ := List.find?_range_eq_some.mp hfind
  rw [List.mem_range] at hmem
  have hbi : bi < bpb := by omega
  refine ⟨hbi, ?_, ?_⟩
  · rw [bit_add hbi]
    simpa using hclear
  · by_contra hlt
    have hset := hfirst (x - k * bpb) (by omega)
    rw [← bit_add (by omega), Nat.add_sub_cancel' hkx, hfree] at hset
    cases hset

theorem le_of_clear {k x : Nat} (hbelow : ∀ y < k * bpb, y < sb.size → c.bit sb y = true)
    (hx : x < sb.logStart) (hfree : c.bit sb x = false) : k * bpb ≤ x := by
  by_contra hlt
  rw [hbelow x (by omega) (hx.trans_le logStart_le_size)] at hfree
  cases hfree

theorem no_clear_bit {k : Nat} (hbelow : ∀ y < k * bpb, y < sb.size → c.bit sb y = true)
    (hfind : (List.range (min bpb (sb.size - k * bpb))).find?
      (fun bi => !bitSet (c.blk (sb.bblock (k * bpb))) bi) = none) :
    ∀ y < (k + 1) * bpb, y < sb.size → c.bit sb y = true := by
  intro y hy hys
  by_cases hlt : y < k * bpb
  · exact hbelow y hlt hys
  · have hyb : y - k * bpb < bpb := by
      rw [Nat.succ_mul] at hy
      omega
    have hset := List.find?_eq_none.mp hfind (y - k * bpb) (List.mem_range.mpr (by omega))
    rw [← bit_add hyb, Nat.add_sub_cancel' (by omega)] at hset
    simpa using hset

theorem spec_ballocLoop (hfits : sb.Fits) (hone : c.bit sb 1 = true) {x : Nat}
    (hx : x < sb.logStart) (hfree : c.bit sb x = false) (k m : Nat)
    (hbelow : ∀ y < k * bpb, y < sb.size → c.bit sb y = true) :
    Spec sb (ballocLoop sb (List.range' k m)) c fun b c' =>
      b < sb.logStart ∧ c.bit sb b = false ∧ c' = (c.mark sb b).setBlk b fun _ => 0 := by
  induction m generalizing k with
  | zero => exact spec_panic _
  | succ m ih =>
    have hsize : sb.logStart ≤ sb.size := logStart_le_size
    have hkx := le_of_clear hbelow hx hfree
    have hblock : sb.bblock (k * bpb) < sb.logStart := bblock_lt_logStart hfits (by omega)
    rw [List.range'_succ]
    refine spec_bread hblock ?_
    split
    · rename_i bi hfind
      obtain ⟨hbi, hbit, hle⟩ := first_clear_bit hkx hfree hfind
      have hne : k * bpb + bi ≠ 1 := fun heq => by
        rw [heq, hone] at hbit
        cases hbit
      have hmod : (k * bpb + bi) % bpb = bi := by
        simp only [bpb] at hbi ⊢
        omega
      refine spec_logged hblock (one_lt_bblock _).ne' ((spec_brelse _).next fun _ => ?_)
      refine (spec_bzero (hle.trans_lt hx) hne).next fun _ => ?_
      refine spec_pure ⟨hle.trans_lt hx, hbit, ?_⟩
      rw [Core.mark, bblock_add hbi, hmod]
    · rename_i hfind
      exact (spec_brelse _).next fun _ => ih (k + 1) (no_clear_bit hbelow hfind)

theorem spec_balloc (hfits : sb.Fits) (hone : c.bit sb 1 = true)
    (hroom : ∃ x < sb.logStart, c.bit sb x = false) :
    Spec sb balloc c fun b c' =>
      b < sb.logStart ∧ c.bit sb b = false ∧ c' = (c.mark sb b).setBlk b fun _ => 0 := by
  obtain ⟨x, hx, hfree⟩ := hroom
  refine spec_readsb ?_
  rw [List.range_eq_range']
  refine spec_ballocLoop hfits hone hx hfree 0 _ fun y hy => ?_
  rw [Nat.zero_mul] at hy
  cases hy

theorem spec_bfree (hfits : sb.Fits) {b : Nat} (hb : b < sb.size) :
    Spec sb (bfree b) c fun _ c' => c.bit sb b = true ∧ c' = c.unmark sb b := by
  have hblock := bblock_lt_logStart hfits hb
  refine spec_readsb (spec_bread hblock ?_)
  split
  · exact spec_panic _
  · rename_i hbit
    have hset : c.bit sb b = true := by simpa [Core.bit] using hbit
    refine spec_logged hblock (one_lt_bblock _).ne' ?_
    exact (spec_brelse _).mono fun _ _ hc => ⟨hset, hc⟩

theorem spec_iupdate (hfits : sb.Fits) {ip : Fin ninode} (hi : (c.icache ip).inum < sb.ninodes) :
    Spec sb (iupdate ip) c fun _ c' => c' = c.setDin (c.icache ip).inum (c.icache ip).d := by
  refine spec_get fun s hs => ?_
  have hblock := iblock_lt_logStart hfits hi
  rw [hs]
  exact spec_bread hblock (spec_logged hblock (one_lt_iblock _).ne' (spec_brelse _))

def Got (c : Core) (inum : Nat) (ip : Fin ninode) (c' : Core) : Prop :=
  0 < (c.icache ip).ref ∧ (c.icache ip).inum = inum ∧
      c' = c.setInode ip { c.icache ip with ref := (c.icache ip).ref + 1 } ∨
    (∀ jp, 0 < (c.icache jp).ref → (c.icache jp).inum ≠ inum) ∧ (c.icache ip).ref = 0 ∧
      c' = c.setInode ip
        { c.icache ip with inum := inum, ref := 1, busy := false, valid := false }

theorem spec_iget (inum : Nat) : Spec sb (iget inum) c fun ip c' => Got c inum ip c' := by
  refine spec_get fun s hs => ?_
  rw [hs]
  split
  · rename_i ip hfind
    have hip := List.find?_some hfind
    simp only [decide_eq_true_eq] at hip
    exact (spec_modifyInode rfl).next fun _ => spec_pure (Or.inl ⟨hip.1, hip.2, rfl⟩)
  · rename_i hnone
    split
    · exact spec_panic _
    · rename_i ip hfind
      have hip := List.find?_some hfind
      simp only [decide_eq_true_eq] at hip
      refine (spec_modifyInode rfl).next fun _ =>
        spec_pure (Or.inr ⟨fun jp href hinum => ?_, hip, rfl⟩)
      have := List.find?_eq_none.mp hnone jp (List.mem_finRange jp)
      simp [href, hinum] at this

theorem spec_idup (ip : Fin ninode) :
    Spec sb (idup ip) c fun r c' => r = ip ∧
      c' = c.setInode ip { c.icache ip with ref := (c.icache ip).ref + 1 } :=
  (spec_modifyInode rfl).next fun _ => spec_pure ⟨rfl, rfl⟩

theorem spec_ilock (hfits : sb.Fits) {ip : Fin ninode} (hi : (c.icache ip).inum < sb.ninodes) :
    Spec sb (ilock ip) c fun _ c' => 0 < (c.icache ip).ref ∧ (c.icache ip).busy = false ∧
      ((c.icache ip).valid = false → (c.din (c.icache ip).inum).type ≠ 0) ∧
      c' = c.setInode ip (c.locked ip) := by
  refine spec_get fun s hs => ?_
  rw [hs]
  split
  · exact spec_panic _
  · rename_i href
    split
    · exact spec_panic _
    · rename_i hbusy
      have href' : 0 < (c.icache ip).ref := by omega
      have hbusy' : (c.icache ip).busy = false := by simpa using hbusy
      refine (spec_modifyInode rfl).next fun _ => ?_
      split
      · rename_i hvalid
        refine spec_pure ⟨href', hbusy', (by rw [hvalid]; nofun), ?_⟩
        rw [Core.locked, if_pos hvalid]
        congr 1
        rw [← hvalid]
      · rename_i hvalid
        refine spec_bread (iblock_lt_logStart hfits hi) ((spec_modifyInode rfl).next fun _ => ?_)
        refine (spec_brelse _).next fun _ => ?_
        split
        · exact spec_panic _
        · rename_i htype
          refine spec_pure ⟨href', hbusy', fun _ => htype, ?_⟩
          rw [Core.locked, if_neg hvalid]
          simp [Core.setInode, Core.din]

theorem spec_iunlock (ip : Fin ninode) :
    Spec sb (iunlock ip) c fun _ c' => (c.icache ip).busy = true ∧ 0 < (c.icache ip).ref ∧
      c' = c.setInode ip { c.icache ip with busy := false } := by
  refine spec_get fun s hs => ?_
  rw [hs]
  split
  · exact spec_panic _
  · rename_i h
    simp only [Bool.not_eq_eq_eq_not, Bool.not_true, not_or, Bool.not_eq_false, not_lt] at h
    exact spec_modifyInode ⟨h.1, h.2, rfl⟩

end Fs

end Xv6
