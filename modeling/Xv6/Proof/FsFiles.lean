import Xv6.Proof.FsView

/-!
# Reading and writing files

The view of a core takes an inode from the cache if it is there, and from its block otherwise. The
functions of `fs.c` on contents are described by what they do to the view: `bmap` adds blocks,
`readi` returns the bytes of the file, `writei` changes those it is given.
-/

namespace Xv6

namespace Core

variable (c : Core)

def Live (ip : Fin ninode) : Prop := 0 < (c.icache ip).ref ∧ (c.icache ip).valid = true

instance (ip : Fin ninode) : Decidable (c.Live ip) :=
  inferInstanceAs (Decidable (_ ∧ _))

def cached (i : Nat) : Option (Fin ninode) :=
  (List.finRange ninode).find? fun ip => c.Live ip ∧ (c.icache ip).inum = i

def ino (i : Nat) : Dinode :=
  match c.cached i with
  | some ip => (c.icache ip).d
  | none => c.din i

def view (sb : Superblock) : View where
  ino i := if i < sb.ninodes then c.ino i else Dinode.zero
  bit b := if b < sb.size then c.bit sb b else true
  blk b := if sb.dataStart ≤ b ∧ b < sb.logStart then c.blk b else fun _ => 0

structure CacheOk (sb : Superblock) : Prop where
  unique : ∀ ip jp, 0 < (c.icache ip).ref → 0 < (c.icache jp).ref →
    (c.icache ip).inum = (c.icache jp).inum → ip = jp
  range : ∀ ip, 0 < (c.icache ip).ref → (c.icache ip).inum < sb.ninodes

variable {c} {sb : Superblock} {ip : Fin ninode}

theorem cached_eq_some (hc : c.CacheOk sb) {ip : Fin ninode} (hip : c.Live ip) :
    c.cached (c.icache ip).inum = some ip := by
  cases h : c.cached (c.icache ip).inum with
  | none =>
    have := List.find?_eq_none.mp h ip (List.mem_finRange ip)
    simp [hip] at this
  | some jp =>
    have hjp := List.find?_some h
    simp only [decide_eq_true_eq] at hjp
    rw [hc.unique jp ip hjp.1.1 hip.1 hjp.2]

theorem ino_of_live (hc : c.CacheOk sb) {ip : Fin ninode} (hip : c.Live ip) :
    c.ino (c.icache ip).inum = (c.icache ip).d := by
  rw [ino, cached_eq_some hc hip]

theorem ino_of_not_live {i : Nat} (h : ∀ ip, c.Live ip → (c.icache ip).inum ≠ i) :
    c.ino i = c.din i := by
  have hnone : c.cached i = none := by
    rw [cached, List.find?_eq_none]
    intro ip _
    simp only [decide_eq_true_eq, not_and]
    exact h ip
  rw [ino, hnone]

theorem ino_congr {c' : Core} (hc : c.CacheOk sb) (hc' : c'.CacheOk sb) {i : Nat}
    (hlive : ∀ ip, c.Live ip → (c.icache ip).inum = i →
      c'.Live ip ∧ (c'.icache ip).inum = i ∧ (c'.icache ip).d = (c.icache ip).d)
    (hnew : ∀ ip, c'.Live ip → (c'.icache ip).inum = i →
      c.Live ip ∧ (c.icache ip).inum = i)
    (hdin : (∀ ip, c.Live ip → (c.icache ip).inum ≠ i) → c'.din i = c.din i) :
    c'.ino i = c.ino i := by
  by_cases h : ∃ ip, c.Live ip ∧ (c.icache ip).inum = i
  · obtain ⟨ip, hip, rfl⟩ := h
    obtain ⟨hip', hinum, hd⟩ := hlive ip hip rfl
    rw [ino_of_live hc hip, ← hinum, ino_of_live hc' hip', hd]
  · have hnone : ∀ ip, c.Live ip → (c.icache ip).inum ≠ i := fun ip hip heq => h ⟨ip, hip, heq⟩
    rw [ino_of_not_live hnone, ino_of_not_live fun ip hip heq => ?_, hdin hnone]
    exact hnone ip (hnew ip hip heq).1 (hnew ip hip heq).2

theorem view_ino {i : Nat} (hi : i < sb.ninodes) : (c.view sb).ino i = c.ino i := if_pos hi

theorem view_ino_of_live (hc : c.CacheOk sb) {ip : Fin ninode} (hip : c.Live ip) :
    (c.view sb).ino (c.icache ip).inum = (c.icache ip).d := by
  rw [view_ino (hc.range ip hip.1), ino_of_live hc hip]

theorem view_bit {b : Nat} (hb : b < sb.size) : (c.view sb).bit b = c.bit sb b := if_pos hb

theorem view_blk {b : Nat} (hdata : sb.dataStart ≤ b) (hlog : b < sb.logStart) :
    (c.view sb).blk b = c.blk b := if_pos ⟨hdata, hlog⟩

theorem ino_of_blocks {c' : Core} (hicache : c'.icache = c.icache) {i : Nat}
    (hblk : c'.blk (Fs.iblock i) = c.blk (Fs.iblock i)) : c'.ino i = c.ino i := by
  have hcached : c'.cached i = c.cached i := by
    obtain ⟨blk, icache⟩ := c
    obtain ⟨blk', icache'⟩ := c'
    obtain rfl : icache' = icache := hicache
    rfl
  simp only [ino, hcached, hicache, din, hblk]

theorem view_setBlk {b : Nat} (hdata : sb.dataStart ≤ b) (hlog : b < sb.logStart) (data : Block) :
    (c.setBlk b data).view sb = (c.view sb).setBlk b data := by
  simp only [view, View.setBlk, View.mk.injEq]
  refine ⟨?_, ?_, ?_⟩
  · funext i
    split
    · rename_i hi
      have hne : Fs.iblock i ≠ b := ((iblock_lt_dataStart hi).trans_le hdata).ne
      exact ino_of_blocks (setBlk_icache b data) (setBlk_blk_of_ne hne data)
    · rfl
  · funext x
    split
    · rename_i hx
      have hne : sb.bblock x ≠ b := ((bblock_lt_dataStart hx).trans_le hdata).ne
      exact bit_setBlk_of_ne hne data
    · rfl
  · funext x
    by_cases hx : x = b
    · subst hx
      rw [if_pos ⟨hdata, hlog⟩, setBlk_blk_self, Function.update_self]
    · rw [Function.update_of_ne hx, setBlk_blk_of_ne hx]

theorem view_mark {b : Nat} (hb : b < sb.size) :
    (c.mark sb b).view sb = { c.view sb with bit := Function.update (c.view sb).bit b true } := by
  simp only [view, View.mk.injEq]
  refine ⟨?_, ?_, ?_⟩
  · funext i
    split
    · rename_i hi
      exact ino_of_blocks (mark_icache b) (setBlk_blk_of_ne (iblock_lt_bblock hi b).ne _)
    · rfl
  · funext x
    by_cases hx : x = b
    · subst hx
      rw [Function.update_self, if_pos hb, bit_mark]
      simp
    · rw [Function.update_of_ne hx]
      split
      · rw [bit_mark]
        simp [Ne.symm hx]
      · rfl
  · funext x
    split
    · rename_i hx
      exact setBlk_blk_of_ne ((bblock_lt_dataStart hb).trans_le hx.1).ne' _
    · rfl

theorem view_grab {b : Nat} (hdata : sb.dataStart ≤ b) (hlog : b < sb.logStart) :
    ((c.mark sb b).setBlk b fun _ => 0).view sb = (c.view sb).grab b := by
  rw [view_setBlk hdata hlog, view_mark (hlog.trans_le (Nat.sub_le ..))]
  rfl

theorem view_setDin (hc : c.CacheOk sb) {ip : Fin ninode} (hip : c.Live ip) (d : Dinode) :
    (c.setDin (c.icache ip).inum d).view sb = c.view sb := by
  have hi := hc.range ip hip.1
  have hc' : (c.setDin (c.icache ip).inum d).CacheOk sb := ⟨hc.unique, hc.range⟩
  simp only [view, View.mk.injEq]
  refine ⟨?_, ?_, ?_⟩
  · funext j
    split
    · refine ino_congr hc hc' (fun jp hjp hj => ⟨hjp, hj, rfl⟩)
        (fun jp hjp hj => ⟨hjp, hj⟩) fun hnone => ?_
      rw [din_setDin, if_neg fun heq => hnone ip hip heq.symm]
    · rfl
  · funext x
    split
    · exact bit_setBlk_of_ne (iblock_lt_bblock hi x).ne' _
    · rfl
  · funext x
    split
    · rename_i hx
      exact setBlk_blk_of_ne ((iblock_lt_dataStart hi).trans_le hx.1).ne' _
    · rfl

theorem cacheOk_setInode (hc : c.CacheOk sb) {ip : Fin ninode} {e : Inode}
    (hinum : e.inum = (c.icache ip).inum) (href : 0 < e.ref → 0 < (c.icache ip).ref) :
    (c.setInode ip e).CacheOk sb := by
  have hother : ∀ jp ≠ ip, (c.setInode ip e).icache jp = c.icache jp :=
    fun jp h => Function.update_of_ne h ..
  have hself : (c.setInode ip e).icache ip = e := Function.update_self ..
  have hpos : ∀ jp, 0 < ((c.setInode ip e).icache jp).ref → 0 < (c.icache jp).ref ∧
      ((c.setInode ip e).icache jp).inum = (c.icache jp).inum := by
    intro jp h
    by_cases hj : jp = ip
    · subst hj
      rw [hself] at h ⊢
      exact ⟨href h, hinum⟩
    · rw [hother jp hj] at h ⊢
      exact ⟨h, rfl⟩
  refine ⟨fun jp kp hj hk heq => ?_, fun jp hj => ?_⟩
  · obtain ⟨hj, hji⟩ := hpos jp hj
    obtain ⟨hk, hki⟩ := hpos kp hk
    exact hc.unique jp kp hj hk (by rw [← hji, ← hki, heq])
  · obtain ⟨hj, hji⟩ := hpos jp hj
    rw [hji]
    exact hc.range jp hj

theorem view_setInode (hc : c.CacheOk sb) {ip : Fin ninode} (hip : c.Live ip) {e : Inode}
    (hinum : e.inum = (c.icache ip).inum) (href : 0 < e.ref) (hvalid : e.valid = true) :
    (c.setInode ip e).view sb = (c.view sb).setIno (c.icache ip).inum e.d := by
  have hc' : (c.setInode ip e).CacheOk sb := cacheOk_setInode hc hinum fun _ => hip.1
  have hself : (c.setInode ip e).icache ip = e := Function.update_self ..
  have hother : ∀ jp ≠ ip, (c.setInode ip e).icache jp = c.icache jp :=
    fun jp h => Function.update_of_ne h ..
  have hlive : (c.setInode ip e).Live ip := by
    rw [Live, hself]
    exact ⟨href, hvalid⟩
  simp only [view, View.setIno, View.mk.injEq]
  refine ⟨?_, rfl, rfl⟩
  funext j
  by_cases hj : j = (c.icache ip).inum
  · have hino := ino_of_live hc' hlive
    rw [hself, hinum] at hino
    rw [hj, Function.update_self, if_pos (hc.range ip hip.1), hino]
  · rw [Function.update_of_ne hj]
    split
    · refine ino_congr hc hc' (fun jp hjp hinumj => ?_) (fun jp hjp hinumj => ?_) fun _ => rfl
      · have hne : jp ≠ ip := fun heq => hj (by rw [← hinumj, heq])
        rw [Live, hother jp hne]
        exact ⟨hjp, hinumj, rfl⟩
      · have hne : jp ≠ ip := fun heq => hj (by rw [← hinumj, heq, hself, hinum])
        rw [Live, hother jp hne] at hjp
        rw [hother jp hne] at hinumj
        exact ⟨hjp, hinumj⟩
    · rfl

structure Good (sb : Superblock) (c : Core) : Prop where
  cache : c.CacheOk sb
  sound : (c.view sb).Sound sb

structure Opened (sb : Superblock) (c : Core) (ip : Fin ninode) : Prop where
  good : Good sb c
  live : c.Live ip
  type : (c.icache ip).d.type ≠ 0

theorem Opened.view_ino (h : Opened sb c ip) :
    (c.view sb).ino (c.icache ip).inum = (c.icache ip).d := view_ino_of_live h.good.cache h.live

theorem Opened.ino_type (h : Opened sb c ip) : ((c.view sb).ino (c.icache ip).inum).type ≠ 0 := by
  rw [h.view_ino]
  exact h.type

end Core

namespace Fs

open Xv6.Core

variable {sb : Superblock} {c c' : Core} {ip : Fin ninode}

structure Grew (sb : Superblock) (ip : Fin ninode) (m : Nat) (c c' : Core) : Prop where
  good : Good sb c'
  icache : ∃ addrs, c'.icache = Function.update c.icache ip
    { c.icache ip with d := { (c.icache ip).d with addrs := addrs } }
  din : ∀ i < sb.ninodes, c'.din i = c.din i
  other : ∀ j ≠ (c.icache ip).inum, (c'.view sb).ino j = (c.view sb).ino j
  addr : ∀ j bn, ((c.view sb).ino j).type ≠ 0 → (c.view sb).addr j bn ≠ 0 →
    (c'.view sb).addr j bn = (c.view sb).addr j bn
  byte : ∀ j x, ((c.view sb).ino j).type ≠ 0 → (c.view sb).addr j (x / bsize) ≠ 0 →
    (c'.view sb).byte j x = (c.view sb).byte j x
  room : (c.view sb).room sb ≤ (c'.view sb).room sb + m

theorem Grew.refl (h : Good sb c) (ip : Fin ninode) (m : Nat) : Grew sb ip m c c where
  good := h
  icache := ⟨(c.icache ip).d.addrs, by simp⟩
  din _ _ := rfl
  other _ _ := rfl
  addr _ _ _ _ := rfl
  byte _ _ _ _ := rfl
  room := Nat.le_add_right ..

theorem opened_of_addrs (ho : Opened sb c ip) (hgood : Good sb c')
    (hicache : ∃ addrs, c'.icache = Function.update c.icache ip
      { c.icache ip with d := { (c.icache ip).d with addrs := addrs } }) :
    Opened sb c' ip ∧ ∃ addrs, (c'.view sb).ino (c.icache ip).inum =
      { (c.view sb).ino (c.icache ip).inum with addrs := addrs } := by
  obtain ⟨addrs, hicache⟩ := hicache
  have ho' : Opened sb c' ip := by
    refine ⟨hgood, ?_, ?_⟩
    · rw [Live, hicache, Function.update_self]
      exact ho.live
    · rw [hicache, Function.update_self]
      exact ho.type
  have hinum : (c'.icache ip).inum = (c.icache ip).inum := by rw [hicache, Function.update_self]
  have hino := ho'.view_ino
  rw [hinum] at hino
  exact ⟨ho', addrs, by rw [hino, ho.view_ino, hicache, Function.update_self]⟩

theorem Grew.inum {m : Nat} (h : Grew sb ip m c c') :
    (c'.icache ip).inum = (c.icache ip).inum := by
  obtain ⟨addrs, hicache⟩ := h.icache
  rw [hicache, Function.update_self]

theorem Grew.opened {m : Nat} (h : Grew sb ip m c c') (ho : Opened sb c ip) : Opened sb c' ip :=
  (opened_of_addrs ho h.good h.icache).1

theorem Grew.self {m : Nat} (h : Grew sb ip m c c') (ho : Opened sb c ip) :
    ∃ addrs, (c'.view sb).ino (c.icache ip).inum =
      { (c.view sb).ino (c.icache ip).inum with addrs := addrs } :=
  (opened_of_addrs ho h.good h.icache).2

theorem Grew.type {m : Nat} (h : Grew sb ip m c c') (ho : Opened sb c ip) (j : Nat) :
    ((c'.view sb).ino j).type = ((c.view sb).ino j).type := by
  by_cases hj : j = (c.icache ip).inum
  · obtain ⟨addrs, hself⟩ := h.self ho
    rw [hj, hself]
  · rw [h.other j hj]

theorem Grew.trans {c1 c2 : Core} {m n : Nat} (h : Grew sb ip m c c1) (h' : Grew sb ip n c1 c2)
    (ho : Opened sb c ip) : Grew sb ip (m + n) c c2 where
  good := h'.good
  icache := by
    obtain ⟨addrs, h1⟩ := h.icache
    obtain ⟨addrs', h2⟩ := h'.icache
    refine ⟨addrs', ?_⟩
    rw [h2, h1, Function.update_self, Function.update_idem]
  din i hi := (h'.din i hi).trans (h.din i hi)
  other j hj := (h'.other j (by rwa [h.inum])).trans (h.other j hj)
  addr j bn hj hne := by
    have h1 := h.addr j bn hj hne
    rw [h'.addr j bn (by rwa [h.type ho]) (by rwa [h1]), h1]
  byte j x hj hne := by
    have h1 := h.addr j (x / bsize) hj hne
    rw [h'.byte j x (by rwa [h.type ho]) (by rwa [h1]), h.byte j x hj hne]
  room := by
    have h1 := h.room
    have h2 := h'.room
    omega

theorem slot_of_opened (h : Opened sb c ip) (k : Fin (ndirect + 1)) :
    (c.view sb).slot (c.icache ip).inum k = ((c.icache ip).d.addrs k).toNat := by
  rw [View.slot_direct _ k.isLt, h.view_ino]

theorem slot_area (ho : Opened sb c ip) {k : Nat}
    (hz : (c.view sb).slot (c.icache ip).inum k ≠ 0) :
    sb.dataStart ≤ (c.view sb).slot (c.icache ip).inum k ∧
      (c.view sb).slot (c.icache ip).inum k < sb.logStart := by
  have hused := ho.good.sound.used _ k (by rwa [View.own_of_type ho.ino_type])
  rw [View.own_of_type ho.ino_type] at hused
  exact ⟨hused.1, hused.2.1⟩

theorem dataStart_le_of_free (hs : (c.view sb).Sound sb) {b : Nat} (hlog : b < sb.logStart)
    (hfree : c.bit sb b = false) : sb.dataStart ≤ b ∧ (c.view sb).bit b = false := by
  have hview : (c.view sb).bit b = false := by
    rw [view_bit (hlog.trans_le logStart_le_size)]
    exact hfree
  refine ⟨?_, hview⟩
  by_contra hlt
  rw [hs.system b (by omega)] at hview
  cases hview

theorem bit_one_of_sound (hfits : sb.Fits) (hs : (c.view sb).Sound sb) : c.bit sb 1 = true := by
  have hlog := logStart_gt_one hfits
  have := hs.system 1 (by simp only [Superblock.dataStart, ipb, bpb]; omega)
  rwa [view_bit (hlog.trans_le logStart_le_size)] at this

theorem spec_balloc_of_sound (hfits : sb.Fits) (hs : (c.view sb).Sound sb)
    (hroom : 0 < (c.view sb).room sb) :
    Spec sb balloc c fun b c' => b < sb.logStart ∧ sb.dataStart ≤ b ∧ (c.view sb).bit b = false ∧
      c' = (c.mark sb b).setBlk b fun _ => 0 := by
  obtain ⟨x, hx, hfree⟩ := View.exists_free_of_room hroom
  rw [view_bit (hx.trans_le logStart_le_size)] at hfree
  refine (spec_balloc hfits (bit_one_of_sound hfits hs) ⟨x, hx, hfree⟩).mono ?_
  rintro b c' ⟨hlog, hbit, hc⟩
  obtain ⟨hdata, hview⟩ := dataStart_le_of_free hs hlog hbit
  exact ⟨hlog, hdata, hview, hc⟩

theorem grew_of_took (ho : Opened sb c ip) {k b : Nat}
    (htook : View.Took (c.view sb) (c.icache ip).inum k b (c'.view sb))
    (hempty : (c.view sb).slot (c.icache ip).inum k = 0) (hfree : (c.view sb).bit b = false)
    (hlog : b < sb.logStart) (hcache : c'.CacheOk sb)
    (hicache : ∃ addrs, c'.icache = Function.update c.icache ip
      { c.icache ip with d := { (c.icache ip).d with addrs := addrs } })
    (hdin : ∀ i < sb.ninodes, c'.din i = c.din i) : Grew sb ip 1 c c' where
  good := by
    refine ⟨hcache, htook.sound ho.good.sound ?_ hfree hlog⟩
    rw [ho.view_ino]
    exact ho.type
  icache := hicache
  din := hdin
  other := htook.other
  addr j bn hj hne := htook.addr hempty hj hne
  byte j x hj hne := by
    refine htook.byte ho.good.sound ?_ hfree hempty hj hne
    rw [ho.view_ino]
    exact ho.type
  room := htook.room

structure Filled (sb : Superblock) (ip : Fin ninode) (k : Nat) (c c' : Core) : Prop where
  grew : Grew sb ip 1 c c'
  other : ∀ l, l ≠ k →
    (c'.view sb).slot (c.icache ip).inum l = (c.view sb).slot (c.icache ip).inum l
  here : (c'.view sb).slot (c.icache ip).inum k ≠ 0
  room : (c.view sb).room sb ≤ (c'.view sb).room sb +
    if (c.view sb).slot (c.icache ip).inum k = 0 then 1 else 0

theorem Filled.refl (ho : Opened sb c ip) {k : Nat}
    (hne : (c.view sb).slot (c.icache ip).inum k ≠ 0) : Filled sb ip k c c :=
  ⟨Grew.refl ho.good ip 1, fun _ _ => rfl, hne, Nat.le_add_right ..⟩

theorem filled_of_took (ho : Opened sb c ip) {k b : Nat}
    (htook : View.Took (c.view sb) (c.icache ip).inum k b (c'.view sb))
    (hempty : (c.view sb).slot (c.icache ip).inum k = 0) (hfree : (c.view sb).bit b = false)
    (hgrew : Grew sb ip 1 c c') : Filled sb ip k c c' := by
  have hslot := fun l => htook.slot (c.icache ip).inum l ho.ino_type
  refine ⟨hgrew, fun l hl => ?_, ?_, ?_⟩
  · rw [hslot, if_neg fun h => hl h.2]
  · rw [hslot, if_pos ⟨rfl, rfl⟩]
    exact ho.good.sound.pos_of_free hfree
  · rw [if_pos hempty]
    exact htook.room

theorem spec_bmapEntry (hfits : sb.Fits) (ho : Opened sb c ip) (k : Fin (ndirect + 1))
    (hroom : (c.view sb).slot (c.icache ip).inum k = 0 → 0 < (c.view sb).room sb) :
    Spec sb (bmapEntry ip k) c fun b c' => Filled sb ip k c c' ∧
      b = (c'.view sb).slot (c.icache ip).inum k := by
  refine spec_get fun s hs => ?_
  by_cases hz : ((c.icache ip).d.addrs k).toNat = 0
  · rw [hs, if_pos hz]
    have hempty : (c.view sb).slot (c.icache ip).inum k = 0 := by rw [slot_of_opened ho, hz]
    refine (spec_balloc_of_sound hfits ho.good.sound (hroom hempty)).bind ?_
    rintro b _ ⟨hlog, hdata, hfree, rfl⟩
    refine (spec_modifyInode rfl).next fun _ => spec_pure ?_
    have hword : b < 2 ^ 32 := (hlog.trans_le logStart_le_size).trans hfits.words
    generalize hc1 : ((c.mark sb b).setBlk b fun _ => 0) = c1
    have hicache1 : c1.icache = c.icache := by rw [← hc1]; rfl
    have hview1 : c1.view sb = (c.view sb).grab b := by rw [← hc1, view_grab hdata hlog]
    have hcache1 : c1.CacheOk sb :=
      ⟨by rw [hicache1]; exact ho.good.cache.unique, by rw [hicache1]; exact ho.good.cache.range⟩
    have hlive1 : c1.Live ip := by rw [Live, hicache1]; exact ho.live
    have hc' : (c1.setInode ip { c1.icache ip with d := (c1.icache ip).d.setAddr k b }).view sb =
        ((c.view sb).grab b).setIno (c.icache ip).inum
          (((c.view sb).ino (c.icache ip).inum).setAddr k b) := by
      have hview := view_setInode hcache1 hlive1
        (e := { c1.icache ip with d := (c1.icache ip).d.setAddr k b }) rfl hlive1.1 hlive1.2
      rw [hview, hview1, hicache1, ho.view_ino]
    have htook := ho.good.sound.took_setAddr hfree hword ho.ino_type hempty
    rw [← hc'] at htook
    have hgrew := grew_of_took ho htook hempty hfree hlog
      (cacheOk_setInode hcache1 rfl fun _ => hlive1.1)
      ⟨_, by rw [Core.setInode, hicache1]; rfl⟩ fun i hi => by
        rw [setInode_din, ← hc1]
        refine (din_setBlk_of_ne ((iblock_lt_dataStart hi).trans_le hdata).ne _).trans ?_
        exact din_setBlk_of_ne (iblock_lt_bblock hi b).ne _
    refine ⟨filled_of_took ho htook hempty hfree hgrew, ?_⟩
    rw [htook.slot _ _ ho.ino_type, if_pos ⟨rfl, rfl⟩]
  · rw [hs, if_neg hz]
    have hslot := slot_of_opened ho k
    exact spec_pure ⟨Filled.refl ho (by rw [hslot]; exact hz), hslot.symm⟩

end Fs

end Xv6
