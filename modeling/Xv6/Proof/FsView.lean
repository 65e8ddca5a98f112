import Mathlib.Data.Finset.Card
import Xv6.Proof.FsBlocks

/-!
# Files as blocks with one owner

The file system as its functions see it: inodes, used blocks and the data blocks. Every block of a
file is named by one entry of one inode or indirect block, and every block index below the size of a
file has a block.
-/

namespace Xv6

structure View where
  ino : Nat → Dinode
  bit : Nat → Bool
  blk : Nat → Block

namespace View

def nslot : Nat := ndirect + 1 + nindirect

variable (v : View)

def slot (i k : Nat) : Nat :=
  if h : k < ndirect + 1 then ((v.ino i).addrs ⟨k, h⟩).toNat
  else if ((v.ino i).addrs (Fin.last ndirect)).toNat = 0 ∨ nslot ≤ k then 0
  else getLE (v.blk ((v.ino i).addrs (Fin.last ndirect)).toNat) (4 * (k - (ndirect + 1))) 4

def own (i k : Nat) : Nat := if (v.ino i).type = 0 then 0 else v.slot i k

def slotOf (bn : Nat) : Nat := if bn < ndirect then bn else bn + 1

def addr (i bn : Nat) : Nat := v.slot i (slotOf bn)

def byte (i x : Nat) : UInt8 := v.blk (v.addr i (x / bsize)) (x % bsize)

def size (i : Nat) : Nat := (v.ino i).size.toNat

def setBlk (b : Nat) (data : Block) : View := { v with blk := Function.update v.blk b data }

def setIno (i : Nat) (d : Dinode) : View := { v with ino := Function.update v.ino i d }

def grab (b : Nat) : View :=
  { v with bit := Function.update v.bit b true, blk := Function.update v.blk b fun _ => 0 }

def room (sb : Superblock) : Nat :=
  ((Finset.range sb.logStart).filter fun b => v.bit b = false).card

structure Sound (sb : Superblock) : Prop where
  system : ∀ b < sb.dataStart, v.bit b = true
  used : ∀ i k, v.own i k ≠ 0 →
    sb.dataStart ≤ v.own i k ∧ v.own i k < sb.logStart ∧ v.bit (v.own i k) = true
  inj : ∀ i k j l, v.own i k = v.own j l → v.own i k ≠ 0 → i = j ∧ k = l
  fits : ∀ i, (v.ino i).type ≠ 0 → v.size i ≤ maxfile * bsize
  full : ∀ i bn, (v.ino i).type ≠ 0 → bn * bsize < v.size i → v.addr i bn ≠ 0

variable {v} {sb : Superblock}

theorem own_of_type {i : Nat} (h : (v.ino i).type ≠ 0) (k : Nat) : v.own i k = v.slot i k :=
  if_neg h

theorem slot_indirect (i : Nat) :
    v.slot i ndirect = ((v.ino i).addrs (Fin.last ndirect)).toNat := by
  rw [slot, dif_pos (by decide)]
  rfl

theorem slot_direct (i : Nat) {k : Nat} (hk : k < ndirect + 1) :
    v.slot i k = ((v.ino i).addrs ⟨k, hk⟩).toNat := dif_pos hk

theorem slot_of_indirect (i : Nat) {k : Nat} (hk : ¬k < ndirect + 1) :
    v.slot i k = if v.slot i ndirect = 0 ∨ nslot ≤ k then 0
      else getLE (v.blk (v.slot i ndirect)) (4 * (k - (ndirect + 1))) 4 := by
  rw [slot_indirect, slot, dif_neg hk]

theorem addr_direct (i : Nat) {bn : Nat} (h : bn < ndirect) : v.addr i bn = v.slot i bn := by
  rw [addr, slotOf, if_pos h]

theorem addr_of_not_direct (i : Nat) {bn : Nat} (h : ¬bn < ndirect) :
    v.addr i bn = if v.slot i ndirect = 0 ∨ maxfile ≤ bn then 0
      else getLE (v.blk (v.slot i ndirect)) (4 * (bn - ndirect)) 4 := by
  have hmax : nslot ≤ bn + 1 ↔ maxfile ≤ bn := by
    simp only [nslot, maxfile]
    omega
  rw [addr, slotOf, if_neg h, slot_of_indirect _ (by omega), Nat.add_sub_add_right]
  exact if_congr (or_congr_right hmax) rfl rfl

theorem addr_indirect {i bn : Nat} (h : ¬bn < ndirect) (hmax : bn < maxfile)
    (hind : v.slot i ndirect ≠ 0) :
    v.addr i bn = getLE (v.blk (v.slot i ndirect)) (4 * (bn - ndirect)) 4 := by
  rw [addr_of_not_direct i h, if_neg (not_or.mpr ⟨hind, Nat.not_le.mpr hmax⟩)]

theorem indirect_of_addr {i bn : Nat} (h : ¬bn < ndirect) (hne : v.addr i bn ≠ 0) :
    v.slot i ndirect ≠ 0 ∧ bn < maxfile := by
  rw [addr_of_not_direct i h] at hne
  obtain ⟨hind, hmax⟩ := not_or.mp fun hor => hne (if_pos hor)
  exact ⟨hind, Nat.not_le.mp hmax⟩

theorem getBytes_blk {i off m : Nat} (hm : m ≤ bsize - off % bsize) :
    Fs.getBytes (v.blk (v.addr i (off / bsize))) (off % bsize) m =
      (List.range m).map fun k => v.byte i (off + k) := by
  refine List.map_congr_left fun k hk => ?_
  have hk' := List.mem_range.mp hk
  have hdiv : (off + k) / bsize = off / bsize ∧ (off + k) % bsize = off % bsize + k := by
    simp only [bsize] at hm ⊢
    omega
  rw [byte, hdiv.1, hdiv.2]

theorem slot_congr {v' : View} {i : Nat} (haddrs : (v'.ino i).addrs = (v.ino i).addrs)
    (hblk : v.slot i ndirect ≠ 0 → v'.blk (v.slot i ndirect) = v.blk (v.slot i ndirect)) (k : Nat) :
    v'.slot i k = v.slot i k := by
  rw [slot_indirect] at hblk
  simp only [slot, haddrs]
  split
  · rfl
  · split
    · rfl
    · rename_i h
      rw [hblk fun hz => h (Or.inl hz)]

theorem own_congr {v' : View} {i : Nat} (htype : (v'.ino i).type = (v.ino i).type)
    (hslot : (v.ino i).type ≠ 0 → ∀ k, v'.slot i k = v.slot i k) (k : Nat) :
    v'.own i k = v.own i k := by
  rw [own, own, htype]
  split
  · rfl
  · rename_i h
    exact hslot h k

theorem Sound.of_own {v' : View} (hs : v.Sound sb) (hown : ∀ i k, v'.own i k = v.own i k)
    (hbit : ∀ b, v.bit b = true → v'.bit b = true)
    (hfits : ∀ i, (v'.ino i).type ≠ 0 → v'.size i ≤ maxfile * bsize)
    (hfull : ∀ i bn, (v'.ino i).type ≠ 0 → bn * bsize < v'.size i → v'.addr i bn ≠ 0) :
    v'.Sound sb where
  system b hb := hbit b (hs.system b hb)
  used i k := by
    rw [hown]
    intro h
    obtain ⟨hdata, hlog, hset⟩ := hs.used i k h
    exact ⟨hdata, hlog, hbit _ hset⟩
  inj i k j l := by
    rw [hown, hown]
    exact hs.inj i k j l
  fits := hfits
  full := hfull

theorem Sound.take {v' : View} (hs : v.Sound sb) (i0 k0 : Nat) {b : Nat} (hfree : v.bit b = false)
    (hlog : b < sb.logStart) (hown : ∀ i k, v'.own i k = if i = i0 ∧ k = k0 then b else v.own i k)
    (hbit : v'.bit = Function.update v.bit b true)
    (hfits : ∀ i, (v'.ino i).type ≠ 0 → v'.size i ≤ maxfile * bsize)
    (hfull : ∀ i bn, (v'.ino i).type ≠ 0 → bn * bsize < v'.size i → v'.addr i bn ≠ 0) :
    v'.Sound sb := by
  have hmono : ∀ x, v.bit x = true → v'.bit x = true := by
    intro x hx
    rw [hbit]
    by_cases hxb : x = b
    · rw [hxb, Function.update_self]
    · rw [Function.update_of_ne hxb]
      exact hx
  -- a free block is in nobody's entry
  have hfresh : ∀ i k, v.own i k ≠ 0 → v.own i k ≠ b := by
    intro i k h heq
    have := (hs.used i k h).2.2
    rw [heq, hfree] at this
    cases this
  refine ⟨fun x hx => hmono x (hs.system x hx), ?_, ?_, hfits, hfull⟩
  · intro i k
    rw [hown]
    split
    · intro _
      refine ⟨?_, hlog, by rw [hbit, Function.update_self]⟩
      by_contra hlt
      rw [hs.system b (by omega)] at hfree
      cases hfree
    · intro h
      obtain ⟨h1, h2, h3⟩ := hs.used i k h
      exact ⟨h1, h2, hmono _ h3⟩
  · intro i k j l
    rw [hown, hown]
    split
    · rename_i hik
      split
      · rename_i hjl
        intro _ _
        exact ⟨hik.1.trans hjl.1.symm, hik.2.trans hjl.2.symm⟩
      · intro heq hb
        exact absurd heq.symm (hfresh j l (heq ▸ hb))
    · split
      · intro heq h
        exact absurd heq (hfresh i k h)
      · exact hs.inj i k j l

theorem Sound.slot_ne_of_free (hs : v.Sound sb) {b : Nat} (hb : v.bit b = false) {i : Nat}
    (hi : (v.ino i).type ≠ 0) (k : Nat) (hz : v.slot i k ≠ 0) : v.slot i k ≠ b := by
  intro heq
  have hused := (hs.used i k (by rwa [own_of_type hi])).2.2
  rw [own_of_type hi, heq, hb] at hused
  cases hused

theorem Sound.slot_grab (hs : v.Sound sb) {b : Nat} (hb : v.bit b = false) {i : Nat}
    (hi : (v.ino i).type ≠ 0) (k : Nat) : (v.grab b).slot i k = v.slot i k := by
  have hblk : v.slot i ndirect ≠ 0 → (v.grab b).blk (v.slot i ndirect) = v.blk (v.slot i ndirect) :=
    fun hz => Function.update_of_ne (hs.slot_ne_of_free hb hi ndirect hz) ..
  have haddrs : ((v.grab b).ino i).addrs = (v.ino i).addrs := rfl
  exact slot_congr haddrs hblk k

theorem Sound.slot_setAddr (hs : v.Sound sb) {b : Nat} (hb : v.bit b = false) (hword : b < 2 ^ 32)
    {i : Nat} (hi : (v.ino i).type ≠ 0) {k : Fin (ndirect + 1)} (hempty : v.slot i k = 0)
    (l : Nat) :
    ((v.grab b).setIno i ((v.ino i).setAddr k b)).slot i l = if l = k then b else v.slot i l := by
  have hself : (((v.grab b).setIno i ((v.ino i).setAddr k b)).ino i).addrs =
      Function.update (v.ino i).addrs k (UInt32.ofNat b) := by
    simp [setIno, Dinode.setAddr]
  have htoNat : (UInt32.ofNat b).toNat = b := UInt32.toNat_ofNat_of_lt' hword
  by_cases hl : l < ndirect + 1
  · rw [slot, dif_pos hl, hself]
    split
    · rename_i hlk
      have : (⟨l, hl⟩ : Fin (ndirect + 1)) = k := Fin.ext hlk
      rw [this, Function.update_self, htoNat]
    · rename_i hlk
      rw [Function.update_of_ne fun heq => hlk (congrArg Fin.val heq), slot, dif_pos hl]
  · have hlk : l ≠ k := by
      have := k.isLt
      omega
    rw [if_neg hlk]
    by_cases hlast : k = Fin.last ndirect
    · -- the new indirect block is empty
      have hold : v.slot i l = 0 := by
        have hz : ((v.ino i).addrs (Fin.last ndirect)).toNat = 0 := by
          rw [← slot_indirect, ← hempty, hlast]
          rfl
        rw [slot, dif_neg hl, if_pos (Or.inl hz)]
      rw [hold, slot, dif_neg hl, hself, hlast, Function.update_self, htoNat]
      split
      · rfl
      · have hzero : ((v.grab b).setIno i ((v.ino i).setAddr (Fin.last ndirect) b)).blk b =
            fun _ => 0 := by
          simp [setIno, View.grab]
        rw [hzero]
        rfl
    · have hblk : v.slot i ndirect ≠ 0 →
          ((v.grab b).setIno i ((v.ino i).setAddr k b)).blk (v.slot i ndirect) =
            v.blk (v.slot i ndirect) :=
        fun hz => Function.update_of_ne (hs.slot_ne_of_free hb hi ndirect hz) ..
      rw [slot_indirect] at hblk
      rw [slot, dif_neg hl, hself, Function.update_of_ne fun heq => hlast heq.symm, slot,
        dif_neg hl]
      split
      · rfl
      · rename_i h
        rw [hblk fun hz => h (Or.inl hz)]

theorem slot_setIno_of_ne {i j : Nat} (h : j ≠ i) (d : Dinode) (k : Nat) :
    (v.setIno i d).slot j k = v.slot j k := by
  have hino : (v.setIno i d).ino j = v.ino j := Function.update_of_ne h ..
  simp only [slot, hino]
  rfl

theorem setIno_ino_self (i : Nat) (d : Dinode) : (v.setIno i d).ino i = d := Function.update_self ..

theorem setIno_ino_of_ne {i j : Nat} (h : j ≠ i) (d : Dinode) : (v.setIno i d).ino j = v.ino j :=
  Function.update_of_ne h ..

theorem Sound.pos_of_free (hs : v.Sound sb) {b : Nat} (hb : v.bit b = false) : b ≠ 0 := by
  rintro rfl
  rw [hs.system 0 (by simp only [Superblock.dataStart, ipb, bpb]; omega)] at hb
  cases hb

structure Took (v : View) (i k b : Nat) (v' : View) : Prop where
  slot : ∀ j l, (v.ino j).type ≠ 0 → v'.slot j l = if j = i ∧ l = k then b else v.slot j l
  bit : v'.bit = Function.update v.bit b true
  other : ∀ j ≠ i, v'.ino j = v.ino j
  self : ∃ addrs, v'.ino i = { v.ino i with addrs := addrs }
  blk : ∀ a ≠ b, a ≠ v.slot i ndirect → v'.blk a = v.blk a
  zero : v'.blk b = fun _ => 0

theorem Took.type {v' : View} {i k b : Nat} (h : Took v i k b v') (j : Nat) :
    (v'.ino j).type = (v.ino j).type := by
  by_cases hj : j = i
  · obtain ⟨addrs, hself⟩ := h.self
    rw [hj, hself]
  · rw [h.other j hj]

theorem Took.size {v' : View} {i k b : Nat} (h : Took v i k b v') (j : Nat) :
    v'.size j = v.size j := by
  rw [View.size, View.size]
  by_cases hj : j = i
  · obtain ⟨addrs, hself⟩ := h.self
    rw [hj, hself]
  · rw [h.other j hj]

theorem slotOf_ne_ndirect (bn : Nat) : slotOf bn ≠ ndirect := by
  rw [slotOf]
  split <;> omega

theorem slotOf_inj {m n : Nat} (h : slotOf m = slotOf n) : m = n := by
  simp only [slotOf] at h
  split at h <;> split at h <;> omega

theorem Took.sound {v' : View} {i k b : Nat} (h : Took v i k b v') (hs : v.Sound sb)
    (hi : (v.ino i).type ≠ 0) (hb : v.bit b = false) (hlog : b < sb.logStart) : v'.Sound sb := by
  refine hs.take i k hb hlog (fun j l => ?_) h.bit (fun j hj => ?_)
    fun j bn hj hlt => ?_
  · by_cases hj : (v.ino j).type = 0
    · have hji : j ≠ i := fun heq => hi (heq ▸ hj)
      rw [if_neg fun h => hji h.1, own, own, h.type, if_pos hj, if_pos hj]
    · rw [own_of_type (by rwa [h.type]), own_of_type hj, h.slot j l hj]
  · rw [h.size]
    exact hs.fits j (by rwa [← h.type])
  · rw [h.type] at hj
    rw [h.size] at hlt
    rw [addr, h.slot j _ hj]
    split
    · exact hs.pos_of_free hb
    · exact hs.full j bn hj hlt

theorem Took.addr {v' : View} {i k b : Nat} (h : Took v i k b v') (hempty : v.slot i k = 0)
    {j bn : Nat} (hj : (v.ino j).type ≠ 0) (hne : v.addr j bn ≠ 0) :
    v'.addr j bn = v.addr j bn := by
  rw [View.addr, h.slot j _ hj, if_neg, View.addr]
  rintro ⟨rfl, hk⟩
  rw [View.addr, hk] at hne
  exact hne hempty

theorem Took.byte {v' : View} {i k b : Nat} (h : Took v i k b v') (hs : v.Sound sb)
    (hi : (v.ino i).type ≠ 0) (hb : v.bit b = false) (hempty : v.slot i k = 0) {j x : Nat}
    (hj : (v.ino j).type ≠ 0) (hne : v.addr j (x / bsize) ≠ 0) : v'.byte j x = v.byte j x := by
  have hneb : v.addr j (x / bsize) ≠ b := hs.slot_ne_of_free hb hj _ hne
  have hnei : v.addr j (x / bsize) ≠ v.slot i ndirect := by
    intro heq
    have := hs.inj j (slotOf (x / bsize)) i ndirect
    rw [own_of_type hj, own_of_type hi] at this
    exact slotOf_ne_ndirect _ (this heq hne).2
  rw [View.byte, h.addr hempty hj hne, h.blk _ hneb hnei, View.byte]

theorem Sound.took_setAddr (hs : v.Sound sb) {b : Nat} (hb : v.bit b = false) (hword : b < 2 ^ 32)
    {i : Nat} (hi : (v.ino i).type ≠ 0) {k : Fin (ndirect + 1)} (hempty : v.slot i k = 0) :
    Took v i k b ((v.grab b).setIno i ((v.ino i).setAddr k b)) where
  slot j l hj := by
    by_cases hji : j = i
    · subst hji
      rw [hs.slot_setAddr hb hword hi hempty]
      simp
    · rw [slot_setIno_of_ne hji, hs.slot_grab hb hj, if_neg fun h => hji h.1]
  bit := rfl
  other j hj := setIno_ino_of_ne hj _
  self := ⟨_, setIno_ino_self ..⟩
  blk a hab _ := Function.update_of_ne hab ..
  zero := Function.update_self ..

theorem Sound.took_indirect (hs : v.Sound sb) {b : Nat} (hb : v.bit b = false)
    (hword : b < 2 ^ 32) {i m : Nat} (hi : (v.ino i).type ≠ 0) (hm : m < nindirect)
    (hind : v.slot i ndirect ≠ 0) :
    Took v i (ndirect + 1 + m) b ((v.grab b).setBlk (v.slot i ndirect)
      (putLE (v.blk (v.slot i ndirect)) (4 * m) 4 b)) where
  slot j l hj := by
    generalize ha : v.slot i ndirect = a at hind
    by_cases hji : j = i
    · subst hji
      by_cases hl : l < ndirect + 1
      · rw [if_neg (by omega), slot_direct _ hl, slot_direct _ hl]
        rfl
      · have hsame : ((v.grab b).setBlk a (putLE (v.blk a) (4 * m) 4 b)).slot j ndirect = a := by
          rw [slot_indirect, ← ha, slot_indirect]
          rfl
        rw [slot_of_indirect _ hl, slot_of_indirect _ hl, hsame, ha]
        by_cases hl2 : nslot ≤ l
        · rw [if_pos (Or.inr hl2), if_pos (Or.inr hl2), if_neg]
          simp only [nslot] at hl2
          omega
        · have hcond : ¬(a = 0 ∨ nslot ≤ l) := by
            rintro (h | h)
            · exact hind h
            · exact hl2 h
          have hblk : ((v.grab b).setBlk a (putLE (v.blk a) (4 * m) 4 b)).blk a =
              putLE (v.blk a) (4 * m) 4 b := Function.update_self ..
          rw [if_neg hcond, if_neg hcond, hblk]
          by_cases hlm : l = ndirect + 1 + m
          · rw [if_pos ⟨rfl, hlm⟩, hlm, Nat.add_sub_cancel_left, getLE_putLE_full (by omega)]
          · rw [if_neg fun h => hlm h.2, getLE_putLE_disjoint (by omega)]
    · rw [if_neg fun h => hji h.1]
      refine (slot_congr (v := v.grab b) ?_ ?_ l).trans (hs.slot_grab hb hj l)
      · rfl
      · intro hz
        rw [hs.slot_grab hb hj] at hz ⊢
        refine Function.update_of_ne (fun heq => hji ?_) ..
        have := hs.inj j ndirect i ndirect
        rw [own_of_type hj, own_of_type hi, ha] at this
        exact (this heq hz).1
  bit := rfl
  other _ _ := rfl
  self := ⟨_, rfl⟩
  blk a hab hai := by
    simp only [View.setBlk, View.grab]
    rw [Function.update_of_ne hai, Function.update_of_ne hab]
  zero := by
    simp only [View.setBlk, View.grab]
    rw [Function.update_of_ne (hs.slot_ne_of_free hb hi ndirect hind).symm, Function.update_self]

theorem Sound.slot_ne_indirect (hs : v.Sound sb) {i j k : Nat} (hi : (v.ino i).type ≠ 0)
    (hj : (v.ino j).type ≠ 0) (hk : k ≠ ndirect) (hz : v.slot i k ≠ 0) :
    v.slot j ndirect ≠ v.slot i k := by
  intro heq
  have := hs.inj i k j ndirect
  rw [own_of_type hi, own_of_type hj] at this
  exact hk (this heq.symm hz).2

theorem Sound.slot_setBlk (hs : v.Sound sb) {i bn : Nat} (hi : (v.ino i).type ≠ 0)
    (hz : v.addr i bn ≠ 0) (data : Block) {j : Nat} (hj : (v.ino j).type ≠ 0) (k : Nat) :
    (v.setBlk (v.addr i bn) data).slot j k = v.slot j k := by
  have hblk : v.slot j ndirect ≠ 0 →
      (v.setBlk (v.addr i bn) data).blk (v.slot j ndirect) = v.blk (v.slot j ndirect) :=
    fun _ => Function.update_of_ne (hs.slot_ne_indirect hi hj (slotOf_ne_ndirect bn) hz) ..
  have haddrs : ((v.setBlk (v.addr i bn) data).ino j).addrs = (v.ino j).addrs := rfl
  exact slot_congr haddrs hblk k

theorem Sound.setBlk (hs : v.Sound sb) {i bn : Nat} (hi : (v.ino i).type ≠ 0)
    (hz : v.addr i bn ≠ 0) (data : Block) : (v.setBlk (v.addr i bn) data).Sound sb := by
  have htype : ∀ j, ((v.setBlk (v.addr i bn) data).ino j).type = (v.ino j).type := fun _ => rfl
  refine hs.of_own (fun j k => own_congr (htype j) (fun hj k => hs.slot_setBlk hi hz data hj k) k)
    (fun _ hb => hb) hs.fits fun j n hj hlt => ?_
  rw [addr, hs.slot_setBlk hi hz data hj]
  exact hs.full j n hj hlt

theorem Sound.byte_setBlk (hs : v.Sound sb) {i bn : Nat} (hi : (v.ino i).type ≠ 0)
    (hz : v.addr i bn ≠ 0) (data : Block) {j : Nat} (hj : (v.ino j).type ≠ 0) (x : Nat) :
    (v.setBlk (v.addr i bn) data).byte j x =
      if j = i ∧ x / bsize = bn then data (x % bsize) else v.byte j x := by
  have haddr : (v.setBlk (v.addr i bn) data).addr j (x / bsize) = v.addr j (x / bsize) :=
    hs.slot_setBlk hi hz data hj _
  rw [byte, haddr]
  split
  · rename_i h
    rw [h.1, h.2]
    exact congrFun (Function.update_self ..) _
  · rename_i h
    rw [byte]
    refine congrFun (Function.update_of_ne (fun heq => h ?_) ..) _
    have := hs.inj i (slotOf bn) j (slotOf (x / bsize))
    rw [own_of_type hi, own_of_type hj] at this
    obtain ⟨hij, hslot⟩ := this heq.symm hz
    exact ⟨hij.symm, (slotOf_inj hslot).symm⟩

theorem slot_setIno {i : Nat} {d : Dinode} (haddrs : d.addrs = (v.ino i).addrs) (j k : Nat) :
    (v.setIno i d).slot j k = v.slot j k := by
  by_cases hj : j = i
  · subst hj
    have hself : ((v.setIno j d).ino j).addrs = (v.ino j).addrs := by
      rw [setIno_ino_self, haddrs]
    have hblk : v.slot j ndirect ≠ 0 →
        (v.setIno j d).blk (v.slot j ndirect) = v.blk (v.slot j ndirect) := fun _ => rfl
    exact slot_congr hself hblk k
  · exact slot_setIno_of_ne hj d k

theorem Sound.setIno (hs : v.Sound sb) {i : Nat} {d : Dinode} (haddrs : d.addrs = (v.ino i).addrs)
    (htype : d.type = 0 ↔ (v.ino i).type = 0) (hfits : d.size.toNat ≤ maxfile * bsize)
    (hfull : ∀ bn, bn * bsize < d.size.toNat → v.addr i bn ≠ 0) : (v.setIno i d).Sound sb := by
  have hslot := slot_setIno haddrs
  refine hs.of_own (fun j k => ?_) (fun _ hb => hb) (fun j hj => ?_) fun j bn hj hlt => ?_
  · by_cases hj : j = i
    · subst hj
      rw [own, own, setIno_ino_self, hslot, if_congr htype rfl rfl]
    · rw [own, own, setIno_ino_of_ne hj, hslot]
  · by_cases hji : j = i
    · subst hji
      rw [size, setIno_ino_self]
      exact hfits
    · rw [setIno_ino_of_ne hji] at hj
      rw [size, setIno_ino_of_ne hji]
      exact hs.fits j hj
  · rw [addr, hslot]
    by_cases hji : j = i
    · subst hji
      rw [size, setIno_ino_self] at hlt
      exact hfull bn hlt
    · rw [setIno_ino_of_ne hji] at hj
      rw [size, setIno_ino_of_ne hji] at hlt
      exact hs.full j bn hj hlt

theorem byte_setIno {i : Nat} {d : Dinode} (haddrs : d.addrs = (v.ino i).addrs) (j x : Nat) :
    (v.setIno i d).byte j x = v.byte j x := by
  rw [byte, addr, slot_setIno haddrs, byte, addr]
  rfl

theorem exists_free_of_room (h : 0 < v.room sb) : ∃ x < sb.logStart, v.bit x = false := by
  obtain ⟨x, hx⟩ := Finset.card_pos.mp h
  rw [Finset.mem_filter, Finset.mem_range] at hx
  exact ⟨x, hx⟩

theorem Took.room {v' : View} {i k b : Nat} (h : Took v i k b v') : v.room sb ≤ v'.room sb + 1 := by
  have hsub : ((Finset.range sb.logStart).filter fun x => v.bit x = false) ⊆
      insert b ((Finset.range sb.logStart).filter fun x => v'.bit x = false) := by
    intro x hx
    rw [Finset.mem_filter] at hx
    rw [Finset.mem_insert, Finset.mem_filter]
    by_cases hxb : x = b
    · exact Or.inl hxb
    · refine Or.inr ⟨hx.1, ?_⟩
      rw [h.bit, Function.update_of_ne hxb]
      exact hx.2
  exact (Finset.card_le_card hsub).trans (Finset.card_insert_le ..)

end View

end Xv6
