import Mathlib.Data.List.GetD
import Xv6.Proof.FsFiles

/-!
# Writing files

`bmap` gives a block index its block, and `writei` writes the bytes it is given and keeps all
others, as long as there are free blocks below the log for the ones it adds.
-/

namespace Xv6

namespace Fs

open Xv6.Core

variable {sb : Superblock} {c c' c1 : Core} {ip : Fin ninode}

structure Mapped (sb : Superblock) (ip : Fin ninode) (bn : Nat) (c c' : Core) : Prop where
  grew : Grew sb ip 2 c c'
  other : ∀ n, n ≠ bn →
    (c'.view sb).addr (c.icache ip).inum n = (c.view sb).addr (c.icache ip).inum n
  here : (c'.view sb).addr (c.icache ip).inum bn ≠ 0
  indirect : (c'.view sb).slot (c.icache ip).inum ndirect ≠ 0 ↔
    (c.view sb).slot (c.icache ip).inum ndirect ≠ 0 ∨ ndirect ≤ bn
  room : (c.view sb).room sb ≤ (c'.view sb).room sb +
    (if (c.view sb).addr (c.icache ip).inum bn = 0 then 1 else 0) +
    if ndirect ≤ bn ∧ (c.view sb).slot (c.icache ip).inum ndirect = 0 then 1 else 0

theorem Grew.weaken {m n : Nat} (h : Grew sb ip m c c') (hle : m ≤ n) : Grew sb ip n c c' :=
  ⟨h.good, h.icache, h.din, h.other, h.addr, h.byte, h.room.trans (by omega)⟩

theorem Filled.mapped_direct {bn : Nat} (hdirect : bn < ndirect) (h : Filled sb ip bn c c') :
    Mapped sb ip bn c c' := by
  have hslot : ∀ (v : View) i, v.addr i bn = v.slot i bn := fun v i => View.addr_direct i hdirect
  have hno : ¬(ndirect ≤ bn ∧ (c.view sb).slot (c.icache ip).inum ndirect = 0) := by omega
  refine ⟨h.grew.weaken (by omega), fun n hn => ?_, by rw [hslot]; exact h.here, ?_, ?_⟩
  · refine h.other _ fun heq => hn (View.slotOf_inj ?_)
    rw [heq, View.slotOf, if_pos hdirect]
  · rw [h.other ndirect (by omega)]
    exact ⟨Or.inl, fun hor => hor.resolve_right (by omega)⟩
  · rw [hslot, if_neg hno, Nat.add_zero]
    exact h.room

theorem Filled.mapped_indirect {bn : Nat} (ho : Opened sb c ip) (hdirect : ¬bn < ndirect)
    (h : Filled sb ip ndirect c c1) (h' : Filled sb ip (View.slotOf bn) c1 c') :
    Mapped sb ip bn c c' := by
  have hinum : (c1.icache ip).inum = (c.icache ip).inum := h.grew.inum
  have hne : ∀ n, View.slotOf n ≠ ndirect := View.slotOf_ne_ndirect
  have hadd : (c1.view sb).addr (c.icache ip).inum bn = (c.view sb).addr (c.icache ip).inum bn :=
    h.other _ (hne bn)
  have hother := h'.other
  have hhere := h'.here
  have hroom := h'.room
  rw [hinum] at hother hhere hroom
  refine ⟨h.grew.trans h'.grew ho, fun n hn => ?_, hhere, ?_, ?_⟩
  · exact (hother _ fun heq => hn (View.slotOf_inj heq)).trans (h.other _ (hne n))
  · rw [hother ndirect (hne bn).symm]
    exact iff_of_true h.here (Or.inr (by omega))
  · have hfirst := h.room
    rw [← View.addr, hadd] at hroom
    rw [if_congr (and_iff_right (by omega)) rfl rfl]
    omega

theorem filled_indirect (hfits : sb.Fits) (ho : Opened sb c ip) {bn b : Nat}
    (hdirect : ¬bn < ndirect) (hmax : bn < maxfile)
    (hind : (c.view sb).slot (c.icache ip).inum ndirect ≠ 0)
    (hempty : (c.view sb).addr (c.icache ip).inum bn = 0) (hlog : b < sb.logStart)
    (hdata : sb.dataStart ≤ b) (hfree : (c.view sb).bit b = false) :
    Filled sb ip (View.slotOf bn) c (((c.mark sb b).setBlk b fun _ => 0).setBlk
      ((c.view sb).slot (c.icache ip).inum ndirect)
      (putLE (c.blk ((c.view sb).slot (c.icache ip).inum ndirect)) (4 * (bn - ndirect)) 4 b)) ∧
    b = ((((c.mark sb b).setBlk b fun _ => 0).setBlk
      ((c.view sb).slot (c.icache ip).inum ndirect)
      (putLE (c.blk ((c.view sb).slot (c.icache ip).inum ndirect)) (4 * (bn - ndirect)) 4 b)).view
        sb).addr (c.icache ip).inum bn := by
  obtain ⟨hadata, halog⟩ := slot_area ho hind
  have hword : b < 2 ^ 32 := (hlog.trans_le logStart_le_size).trans hfits.words
  have hm : bn - ndirect < nindirect := Nat.sub_lt_left_of_lt_add (by omega) hmax
  have hslot : View.slotOf bn = ndirect + 1 + (bn - ndirect) := by
    rw [View.slotOf, if_neg hdirect]
    omega
  have htook := ho.good.sound.took_indirect hfree hword ho.ino_type hm hind
  rw [view_blk hadata halog, ← view_grab hdata hlog, ← view_setBlk hadata halog, ← hslot] at htook
  have hgrew := grew_of_took ho htook hempty hfree hlog ⟨ho.good.cache.unique, ho.good.cache.range⟩
    ⟨(c.icache ip).d.addrs, by simp⟩ fun i hi => by
      have hi' := iblock_lt_dataStart hi
      rw [din_setBlk_of_ne (hi'.trans_le hadata).ne, din_setBlk_of_ne (hi'.trans_le hdata).ne]
      exact din_setBlk_of_ne (iblock_lt_bblock hi b).ne _
  refine ⟨filled_of_took ho htook hempty hfree hgrew, ?_⟩
  rw [View.addr, htook.slot _ _ ho.ino_type, if_pos ⟨rfl, rfl⟩]

theorem addr_of_indirect (ho : Opened sb c ip) {bn : Nat} (hdirect : ¬bn < ndirect)
    (hmax : bn < maxfile) (hind : (c.view sb).slot (c.icache ip).inum ndirect ≠ 0) :
    (c.view sb).addr (c.icache ip).inum bn =
      getLE (c.blk ((c.view sb).slot (c.icache ip).inum ndirect)) (4 * (bn - ndirect)) 4 := by
  obtain ⟨hadata, halog⟩ := slot_area ho hind
  rw [View.addr_indirect hdirect hmax hind, view_blk hadata halog]

theorem ne_one_of_dataStart_le {b : Nat} (hb : sb.dataStart ≤ b) : b ≠ 1 := by
  simp only [Superblock.dataStart, ipb, bpb] at hb
  omega

theorem spec_bmap (hfits : sb.Fits) (ho : Opened sb c ip) {bn : Nat} (hmax : bn < maxfile)
    (hroom : (if (c.view sb).addr (c.icache ip).inum bn = 0 then 1 else 0) +
      (if ndirect ≤ bn ∧ (c.view sb).slot (c.icache ip).inum ndirect = 0 then 1 else 0) ≤
        (c.view sb).room sb) :
    Spec sb (bmap ip bn) c fun b c' => Mapped sb ip bn c c' ∧
      b = (c'.view sb).addr (c.icache ip).inum bn := by
  rw [bmap]
  split
  · rename_i hdirect
    refine (spec_bmapEntry hfits ho _ fun hz => ?_).mono ?_
    · rw [if_pos ((View.addr_direct _ hdirect).trans hz)] at hroom
      omega
    · rintro b c' ⟨hfilled, hb⟩
      exact ⟨hfilled.mapped_direct hdirect, hb.trans (View.addr_direct _ hdirect).symm⟩
  · rename_i hdirect
    have hlt : bn - ndirect < nindirect := Nat.sub_lt_left_of_lt_add (by omega) hmax
    rw [if_pos hlt]
    refine (spec_bmapEntry hfits ho (Fin.last ndirect) fun hz => ?_).bind ?_
    · have hcond : ndirect ≤ bn ∧ (c.view sb).slot (c.icache ip).inum ndirect = 0 :=
        ⟨by omega, hz⟩
      rw [if_pos hcond] at hroom
      omega
    · rintro a c1 ⟨hfilled, rfl⟩
      have hfilled' : Filled sb ip ndirect c c1 := hfilled
      have hinum : (c1.icache ip).inum = (c.icache ip).inum := hfilled.grew.inum
      have ho1 : Opened sb c1 ip := hfilled.grew.opened ho
      have hind : (c1.view sb).slot (c1.icache ip).inum ndirect ≠ 0 := by
        rw [hinum]
        exact hfilled'.here
      have haddr := addr_of_indirect ho1 hdirect hmax hind
      obtain ⟨hadata, halog⟩ := slot_area ho1 hind
      have hone := ne_one_of_dataStart_le hadata
      have hold : (c1.view sb).addr (c.icache ip).inum bn =
          (c.view sb).addr (c.icache ip).inum bn := hfilled'.other _ (View.slotOf_ne_ndirect bn)
      change Spec sb (bread ((c1.view sb).slot (c.icache ip).inum ndirect) >>= _) c1 _
      rw [← hinum]
      refine spec_bread halog ?_
      by_cases hz : getLE (c1.blk ((c1.view sb).slot (c1.icache ip).inum ndirect))
          (4 * (bn - ndirect)) 4 = 0
      · simp only [if_pos hz]
        have hroom1 : 0 < (c1.view sb).room sb := by
          have hzero : (c.view sb).addr (c.icache ip).inum bn = 0 := by
            rw [← hold, ← hinum, haddr, hz]
          have hfirst := hfilled'.room
          rw [if_pos hzero, if_congr (and_iff_right (by omega)) rfl rfl] at hroom
          omega
        refine (spec_balloc_of_sound hfits ho1.good.sound hroom1).bind ?_
        rintro b _ ⟨hlog, hdata, hfree, rfl⟩
        refine spec_logged halog hone ((spec_brelse _).next fun _ => spec_pure ?_)
        obtain ⟨hnew, hb⟩ :=
          filled_indirect hfits ho1 hdirect hmax hind (haddr.trans hz) hlog hdata hfree
        exact ⟨hfilled'.mapped_indirect ho hdirect hnew, hb⟩
      · simp only [if_neg hz]
        refine (spec_brelse _).next fun _ => spec_pure ?_
        have hne : (c1.view sb).addr (c1.icache ip).inum bn ≠ 0 := by rwa [haddr]
        exact ⟨hfilled'.mapped_indirect ho hdirect (Filled.refl ho1 hne), haddr.symm⟩

structure Written (sb : Superblock) (ip : Fin ninode) (off : Nat) (p : List UInt8) (c c' : Core) :
    Prop where
  good : Good sb c'
  icache : ∃ addrs, c'.icache = Function.update c.icache ip
    { c.icache ip with d := { (c.icache ip).d with addrs := addrs } }
  other : ∀ j ≠ (c.icache ip).inum, (c'.view sb).ino j = (c.view sb).ino j
  addr : ∀ j bn, ((c.view sb).ino j).type ≠ 0 → (c.view sb).addr j bn ≠ 0 →
    (c'.view sb).addr j bn = (c.view sb).addr j bn
  byte : ∀ j x, ((c.view sb).ino j).type ≠ 0 → (c.view sb).addr j (x / bsize) ≠ 0 →
    (j = (c.icache ip).inum → x < off ∨ off + p.length ≤ x) →
    (c'.view sb).byte j x = (c.view sb).byte j x
  here : ∀ k < p.length, (c'.view sb).addr (c.icache ip).inum ((off + k) / bsize) ≠ 0 ∧
    (c'.view sb).byte (c.icache ip).inum (off + k) = p.getD k 0

theorem Written.nil (h : Good sb c) (ip : Fin ninode) (off : Nat) : Written sb ip off [] c c :=
  ⟨h, ⟨(c.icache ip).d.addrs, by simp⟩, fun _ _ => rfl, fun _ _ _ _ => rfl, fun _ _ _ _ _ => rfl,
    fun _ hk => absurd hk (Nat.not_lt_zero _)⟩

theorem Written.entry {off : Nat} {p : List UInt8} (h : Written sb ip off p c c') :
    ∃ addrs, c'.icache ip = { c.icache ip with d := { (c.icache ip).d with addrs := addrs } } := by
  obtain ⟨addrs, hicache⟩ := h.icache
  exact ⟨addrs, by rw [hicache, Function.update_self]⟩

theorem Written.inum {off : Nat} {p : List UInt8} (h : Written sb ip off p c c') :
    (c'.icache ip).inum = (c.icache ip).inum := by
  obtain ⟨addrs, hentry⟩ := h.entry
  rw [hentry]

theorem Written.opened {off : Nat} {p : List UInt8} (h : Written sb ip off p c c')
    (ho : Opened sb c ip) : Opened sb c' ip := (opened_of_addrs ho h.good h.icache).1

theorem Written.type {off : Nat} {p : List UInt8} (h : Written sb ip off p c c')
    (ho : Opened sb c ip) (j : Nat) :
    ((c'.view sb).ino j).type = ((c.view sb).ino j).type := by
  by_cases hj : j = (c.icache ip).inum
  · obtain ⟨addrs, hself⟩ := (opened_of_addrs ho h.good h.icache).2
    rw [hj, hself]
  · rw [h.other j hj]

theorem Written.trans {off : Nat} {p q : List UInt8} (ho : Opened sb c ip)
    (h : Written sb ip off p c c1) (h' : Written sb ip (off + p.length) q c1 c') :
    Written sb ip off (p ++ q) c c' where
  good := h'.good
  icache := by
    obtain ⟨addrs, h1⟩ := h.icache
    obtain ⟨addrs', h2⟩ := h'.icache
    refine ⟨addrs', ?_⟩
    rw [h2, h1, Function.update_self, Function.update_idem]
  other j hj := (h'.other j (by rwa [h.inum])).trans (h.other j hj)
  addr j bn hj hne := by
    have h1 := h.addr j bn hj hne
    rw [h'.addr j bn (by rwa [h.type ho]) (by rwa [h1]), h1]
  byte j x hj hne hout := by
    rw [List.length_append] at hout
    have h1 := h.addr j (x / bsize) hj hne
    rw [h'.byte j x (by rwa [h.type ho]) (by rwa [h1]) (fun heq => by
      have := hout (heq.trans h.inum)
      omega), h.byte j x hj hne fun heq => by
      have := hout heq
      omega]
  here k hk := by
    have htype := (h.opened ho).ino_type
    rw [h.inum] at htype
    by_cases hp : k < p.length
    · obtain ⟨hne, hbyte⟩ := h.here k hp
      rw [h'.addr _ _ htype hne, h'.byte _ _ htype hne fun _ => by omega, hbyte,
        List.getD_append _ _ _ _ hp]
      exact ⟨hne, rfl⟩
    · rw [List.length_append] at hk
      have hlast := h'.here (k - p.length) (by omega)
      rw [h.inum, show off + p.length + (k - p.length) = off + k by omega] at hlast
      exact ⟨hlast.1, by rw [hlast.2, List.getD_append_right _ _ _ _ (by omega)]⟩

theorem Mapped.wrote (ho : Opened sb c ip) {off : Nat} {p : List UInt8}
    (h : Mapped sb ip (off / bsize) c c') (hp : p.length ≤ bsize - off % bsize) :
    Written sb ip off p c (c'.setBlk ((c'.view sb).addr (c.icache ip).inum (off / bsize))
      (putBytes (c'.blk ((c'.view sb).addr (c.icache ip).inum (off / bsize))) (off % bsize)
        p)) := by
  have ho' : Opened sb c' ip := h.grew.opened ho
  have hinum : (c'.icache ip).inum = (c.icache ip).inum := h.grew.inum
  have htype := ho'.ino_type
  have hz := h.here
  rw [hinum] at htype
  have harea := slot_area ho' (k := View.slotOf (off / bsize)) (by rw [hinum]; exact hz)
  rw [hinum, ← View.addr] at harea
  generalize hx : (c'.view sb).addr (c.icache ip).inum (off / bsize) = x at *
  have hblk : (c'.view sb).blk x = c'.blk x := view_blk harea.1 harea.2
  generalize hbuf : putBytes (c'.blk x) (off % bsize) p = buf
  have hview : (c'.setBlk x buf).view sb = (c'.view sb).setBlk x buf :=
    view_setBlk harea.1 harea.2 buf
  have hz' : (c'.view sb).addr (c.icache ip).inum (off / bsize) ≠ 0 := by rwa [hx]
  have hs := ho'.good.sound
  have haddr : ∀ j, ((c'.view sb).ino j).type ≠ 0 → ∀ bn,
      ((c'.view sb).setBlk x buf).addr j bn = (c'.view sb).addr j bn :=
    fun j hj bn => hx ▸ hs.slot_setBlk htype hz' buf hj _
  have hbyte : ∀ j, ((c'.view sb).ino j).type ≠ 0 → ∀ y,
      ((c'.view sb).setBlk x buf).byte j y =
        if j = (c.icache ip).inum ∧ y / bsize = off / bsize then buf (y % bsize)
        else (c'.view sb).byte j y :=
    fun j hj y => hx ▸ hs.byte_setBlk htype hz' buf hj y
  have hsound : ((c'.view sb).setBlk x buf).Sound sb := hx ▸ hs.setBlk htype hz' buf
  refine ⟨⟨⟨ho'.good.cache.unique, ho'.good.cache.range⟩, by rw [hview]; exact hsound⟩,
    h.grew.icache, fun j hj => ?_, fun j bn hj hne => ?_, fun j y hj hne hout => ?_,
    fun k hk => ?_⟩
  · rw [hview]
    exact h.grew.other j hj
  · rw [hview, haddr j (by rwa [h.grew.type ho]), h.grew.addr j bn hj hne]
  · rw [hview, hbyte j (by rwa [h.grew.type ho]), ← h.grew.byte j y hj hne]
    split
    · -- the same block, outside the bytes that are written
      rename_i hsame
      have hout' := hout hsame.1
      have hy := hsame.2
      rw [View.byte, hsame.1, hy, hx, hblk, ← hbuf, putBytes, if_neg]
      simp only [bsize] at hy ⊢
      omega
    · rfl
  · have hdiv : (off + k) / bsize = off / bsize := by
      simp only [bsize] at hp ⊢
      omega
    rw [hview, haddr _ htype, hdiv, hx, hbyte _ htype, if_pos ⟨rfl, hdiv⟩, ← hbuf, putBytes, if_pos]
    · refine ⟨hz, ?_⟩
      congr 1
      simp only [bsize] at hp ⊢
      omega
    · simp only [bsize] at hp ⊢
      omega

def missing (v : View) (i bn : Nat) : Nat → Nat
  | 0 => 0
  | k + 1 => (if v.addr i bn = 0 then 1 else 0) + missing v i (bn + 1) k

def needed (v : View) (i bn k : Nat) : Nat :=
  missing v i bn k + if ndirect < bn + k ∧ v.slot i ndirect = 0 then 1 else 0

theorem missing_congr {v v' : View} {i : Nat} (k : Nat) {bn : Nat}
    (h : ∀ n, bn ≤ n → v'.addr i n = v.addr i n) : missing v' i bn k = missing v i bn k := by
  induction k generalizing bn with
  | zero => rfl
  | succ k ih => rw [missing, missing, h bn le_rfl, ih fun n hn => h n (by omega)]

def span (off n : Nat) : Nat := (off + n + bsize - 1) / bsize - off / bsize

theorem span_pos {off n : Nat} (hn : 0 < n) : ∃ k, span off n = k + 1 := by
  refine ⟨span off n - 1, ?_⟩
  simp only [span, bsize]
  omega

theorem span_rest {off n m k : Nat} (hm : min n (bsize - off % bsize) = m) (hlt : m < n)
    (hk : span off n = k + 1) :
    (off + m) / bsize = off / bsize + 1 ∧ span (off + m) (n - m) = k := by
  simp only [span, bsize] at *
  have hdiv : (off + m) / 512 = off / 512 + 1 := by omega
  rw [hdiv, show off + m + (n - m) = off + n by omega]
  omega

theorem Mapped.needed_le {bn k : Nat} (h : Mapped sb ip bn c c')
    (hroom : needed (c.view sb) (c.icache ip).inum bn (k + 1) ≤ (c.view sb).room sb) :
    needed (c'.view sb) (c.icache ip).inum (bn + 1) k ≤ (c'.view sb).room sb := by
  have hmissing : missing (c'.view sb) (c.icache ip).inum (bn + 1) k =
      missing (c.view sb) (c.icache ip).inum (bn + 1) k :=
    missing_congr k fun n hn => h.other n (by omega)
  have hspent := h.room
  have hind := h.indirect
  rw [needed, missing] at hroom
  rw [needed, hmissing]
  generalize (if (c.view sb).addr (c.icache ip).inum bn = 0 then 1 else 0) = new at hroom hspent
  by_cases hold : (c.view sb).slot (c.icache ip).inum ndirect = 0
  · by_cases hbn : ndirect ≤ bn
    · have hnew := hind.mpr (Or.inr hbn)
      rw [if_neg fun hand => hnew hand.2]
      rw [if_pos ⟨by omega, hold⟩] at hroom
      rw [if_pos ⟨hbn, hold⟩] at hspent
      omega
    · rw [if_neg fun hand => hbn hand.1] at hspent
      have hle : (if ndirect < bn + 1 + k ∧ (c'.view sb).slot (c.icache ip).inum ndirect = 0
          then 1 else 0) ≤ if ndirect < bn + (k + 1) ∧
            (c.view sb).slot (c.icache ip).inum ndirect = 0 then 1 else 0 := by
        split
        · rename_i hand
          rw [if_pos ⟨by omega, hold⟩]
        · exact Nat.zero_le _
      omega
  · have hnew := hind.mpr (Or.inl hold)
    rw [if_neg fun hand => hnew hand.2]
    rw [if_neg fun hand => hold hand.2] at hroom hspent
    omega

theorem Mapped.room_of_needed {bn k : Nat}
    (hroom : needed (c.view sb) (c.icache ip).inum bn (k + 1) ≤ (c.view sb).room sb) :
    (if (c.view sb).addr (c.icache ip).inum bn = 0 then 1 else 0) +
      (if ndirect ≤ bn ∧ (c.view sb).slot (c.icache ip).inum ndirect = 0 then 1 else 0) ≤
        (c.view sb).room sb := by
  rw [needed, missing] at hroom
  have hle : (if ndirect ≤ bn ∧ (c.view sb).slot (c.icache ip).inum ndirect = 0 then 1 else 0) ≤
      if ndirect < bn + (k + 1) ∧ (c.view sb).slot (c.icache ip).inum ndirect = 0
        then 1 else 0 := by
    split
    · rename_i hand
      rw [if_pos ⟨by omega, hand.2⟩]
    · exact Nat.zero_le _
  omega

theorem needed_setBlk (ho : Opened sb c ip) {bn : Nat}
    (hz : (c.view sb).addr (c.icache ip).inum bn ≠ 0) (data : Block) (n k : Nat) :
    needed ((c.setBlk ((c.view sb).addr (c.icache ip).inum bn) data).view sb)
        (c.icache ip).inum n k = needed (c.view sb) (c.icache ip).inum n k ∧
      ((c.setBlk ((c.view sb).addr (c.icache ip).inum bn) data).view sb).room sb =
        (c.view sb).room sb := by
  obtain ⟨hdata, hlog⟩ := slot_area ho hz
  have hview : (c.setBlk ((c.view sb).addr (c.icache ip).inum bn) data).view sb =
      (c.view sb).setBlk ((c.view sb).addr (c.icache ip).inum bn) data :=
    view_setBlk hdata hlog data
  have hslot := ho.good.sound.slot_setBlk ho.ino_type hz data ho.ino_type
  rw [hview]
  refine ⟨?_, rfl⟩
  rw [needed, needed, hslot, missing_congr k fun m _ => hslot (View.slotOf m)]

theorem spec_writeLoop (hfits : sb.Fits) : ∀ (fuel : Nat) (src : List UInt8) (off : Nat) {c : Core},
    Opened sb c ip → src.length ≤ fuel → off + src.length ≤ maxfile * bsize →
    (src ≠ [] → needed (c.view sb) (c.icache ip).inum (off / bsize) (span off src.length) ≤
      (c.view sb).room sb) →
    Spec sb (writeLoop ip fuel src off) c fun _ c' => Written sb ip off src c c' := by
  intro fuel
  induction fuel with
  | zero =>
    intro src off c ho hlen _ _
    obtain rfl : src = [] := List.length_eq_zero_iff.mp (by omega)
    exact spec_pure (Written.nil ho.good ip off)
  | succ fuel ih =>
    intro src off c ho hlen hmax hroom
    by_cases hnil : src = []
    · subst hnil
      exact spec_pure (Written.nil ho.good ip off)
    rw [writeLoop, if_neg hnil]
    have hpos : 0 < src.length := List.length_pos_iff.mpr hnil
    generalize hm : min src.length (bsize - off % bsize) = m
    have hmpos : 0 < m := by
      have := Nat.mod_lt off (show 0 < bsize by decide)
      omega
    have hmle : m ≤ src.length := by omega
    -- the blocks that are left once the block of `off` is mapped
    obtain ⟨k, hk⟩ : ∃ k, span off src.length = k + 1 := span_pos hpos
    replace hroom := hroom hnil
    rw [hk] at hroom
    have hbn : off / bsize < maxfile := by
      rw [Nat.div_lt_iff_lt_mul (by decide)]
      omega
    refine (spec_bmap hfits ho hbn (Mapped.room_of_needed hroom)).bind ?_
    rintro b c1 ⟨hmapped, rfl⟩
    have ho1 : Opened sb c1 ip := hmapped.grew.opened ho
    have hinum : (c1.icache ip).inum = (c.icache ip).inum := hmapped.grew.inum
    have hz1 : (c1.view sb).addr (c1.icache ip).inum (off / bsize) ≠ 0 := by
      rw [hinum]
      exact hmapped.here
    obtain ⟨hdata, hlog⟩ := slot_area ho1 hz1
    rw [← View.addr, hinum] at hdata hlog
    have hone := ne_one_of_dataStart_le hdata
    refine spec_bread hlog (spec_logged hlog hone ?_)
    refine (spec_brelse _).next fun _ => ?_
    have htake : (src.take m).length = m := by
      rw [List.length_take]
      omega
    have hfit : (src.take m).length ≤ bsize - off % bsize := by omega
    have hround := hmapped.wrote ho hfit
    have ho2 := hround.opened ho
    have hinum2 := hround.inum
    have hleft := hmapped.needed_le hroom
    obtain ⟨hneed, hsame⟩ := needed_setBlk ho1 hz1
      (putBytes (c1.blk ((c1.view sb).addr (c.icache ip).inum (off / bsize))) (off % bsize)
        (src.take m)) (off / bsize + 1) k
    rw [hinum] at hneed hsame
    refine (ih (src.drop m) (off + m) ho2 ?_ ?_ ?_).mono fun _ c' hrest => ?_
    · rw [List.length_drop]
      omega
    · rw [List.length_drop]
      omega
    · -- bytes are left, so this round went up to the end of its block
      intro hleftover
      have hlt : m < src.length := by
        rw [ne_eq, List.drop_eq_nil_iff] at hleftover
        omega
      obtain ⟨hdiv, hspan⟩ := span_rest hm hlt hk
      rw [← List.length_drop] at hspan
      rw [hinum2, hsame, hdiv, hspan, hneed]
      exact hleft
    · rw [← List.take_append_drop m src]
      exact hround.trans ho (by rw [htake]; exact hrest)

structure Stored (sb : Superblock) (ip : Fin ninode) (off : Nat) (p : List UInt8) (c c' : Core) :
    Prop where
  opened : Opened sb c' ip
  entry : ∃ d, c'.icache ip = { c.icache ip with d := d } ∧ d.type = (c.icache ip).d.type ∧
    d.size.toNat = max (c.icache ip).d.size.toNat (off + p.length)
  byte : ∀ x, (c.view sb).addr (c.icache ip).inum (x / bsize) ≠ 0 → x < off →
    (c'.view sb).byte (c.icache ip).inum x = (c.view sb).byte (c.icache ip).inum x
  here : ∀ k, k < p.length →
    (c'.view sb).byte (c.icache ip).inum (off + k) = p.getD k 0

theorem Written.full (ho : Opened sb c ip) {off : Nat} {p : List UInt8}
    (h : Written sb ip off p c c') (hoff : off ≤ (c.icache ip).d.size.toNat) {bn : Nat}
    (hbn : bn * bsize < off + p.length) : (c'.view sb).addr (c.icache ip).inum bn ≠ 0 := by
  by_cases hold : bn * bsize < (c.icache ip).d.size.toNat
  · have hne := ho.good.sound.full (c.icache ip).inum bn ho.ino_type
      (by rw [View.size, ho.view_ino]; exact hold)
    rw [h.addr _ _ ho.ino_type hne]
    exact hne
  · have hlast := (h.here (bn * bsize - off) (by omega)).1
    rwa [show off + (bn * bsize - off) = bn * bsize by omega,
      Nat.mul_div_cancel _ (by decide)] at hlast

structure Resized (sb : Superblock) (ip : Fin ninode) (n : Nat) (c c' : Core) : Prop where
  opened : Opened sb c' ip
  entry : ∃ d, c'.icache ip = { c.icache ip with d := d } ∧ d.type = (c.icache ip).d.type ∧
    d.size.toNat = n ∧ d.addrs = ((c.view sb).ino (c.icache ip).inum).addrs ∧
    c'.view sb = (c.view sb).setIno (c.icache ip).inum d

theorem spec_writei_parts (hfits : sb.Fits) (src : List UInt8) (off : Nat) (ho : Opened sb c ip)
    (hdev : (c.icache ip).d.type ≠ tDev) (hoff : off ≤ (c.icache ip).d.size.toNat)
    (hmax : off + src.length ≤ maxfile * bsize)
    (hroom : src ≠ [] → needed (c.view sb) (c.icache ip).inum (off / bsize) (span off src.length) ≤
      (c.view sb).room sb) :
    Spec sb (writei ip src off) c fun r c' => r = some src.length ∧ ∃ c1,
      Written sb ip off src c c1 ∧
      Resized sb ip (max (c.icache ip).d.size.toNat (off + src.length)) c1 c' := by
  have hword : maxfile * bsize < 2 ^ 32 := by decide
  refine spec_get fun s hs => ?_
  rw [hs, if_neg hdev, if_neg (by omega), if_neg (by omega)]
  refine (spec_writeLoop hfits _ src off ho le_rfl hmax hroom).bind ?_
  intro _ c1 hwritten
  have ho1 := hwritten.opened ho
  have hinum := hwritten.inum
  obtain ⟨addrs, hentry⟩ := hwritten.entry
  by_cases hgrow : 0 < src.length ∧ (c.icache ip).d.size.toNat < off + src.length
  · rw [if_pos hgrow]
    have hsize : (UInt32.ofNat (off + src.length)).toNat = off + src.length := by
      rw [UInt32.toNat_ofNat']
      omega
    generalize hd : { (c1.icache ip).d with size := UInt32.ofNat (off + src.length) } = d
    have hdaddrs : d.addrs = ((c1.view sb).ino (c1.icache ip).inum).addrs := by
      rw [← hd, ho1.view_ino]
    have hdtype : d.type = (c1.icache ip).d.type := by rw [← hd]
    have hdsize : d.size.toNat = off + src.length := by rw [← hd]; exact hsize
    generalize hc2 : c1.setInode ip { c1.icache ip with d := d } = c2
    have hself : c2.icache ip = { c1.icache ip with d := d } := by
      rw [← hc2]
      exact Function.update_self ..
    have hcache2 : c2.CacheOk sb := hc2 ▸ cacheOk_setInode ho1.good.cache rfl fun h => h
    have hlive2 : c2.Live ip := by
      rw [Live, hself]
      exact ho1.live
    have hview2 : c2.view sb = (c1.view sb).setIno (c1.icache ip).inum d :=
      hc2 ▸ view_setInode ho1.good.cache ho1.live rfl ho1.live.1 ho1.live.2
    have hsound : (c2.view sb).Sound sb := by
      rw [hview2]
      refine ho1.good.sound.setIno hdaddrs ?_ (by omega) fun bn hbn => ?_
      · rw [hdtype, ho1.view_ino]
      · rw [hinum]
        exact hwritten.full ho hoff (by omega)
    have hrange : (c2.icache ip).inum < sb.ninodes := hcache2.range ip hlive2.1
    have hview3 : (c2.setDin (c2.icache ip).inum (c2.icache ip).d).view sb = c2.view sb :=
      view_setDin hcache2 hlive2 _
    refine (spec_modifyInode ?_).next fun _ => (spec_iupdate hfits hrange).next fun _ =>
      spec_pure ⟨rfl, c1, hwritten,
        ⟨⟨⟨hcache2.unique, hcache2.range⟩, by rw [hview3]; exact hsound⟩, hlive2, ?_⟩,
        d, hself, hdtype, by omega, hdaddrs, hview3.trans hview2⟩
    · rw [← hc2, ← hd]
    · change (c2.icache ip).d.type ≠ 0
      rw [hself]
      change d.type ≠ 0
      rw [hdtype]
      exact ho1.type
  · rw [if_neg hgrow]
    have hdsize : (c1.icache ip).d.size.toNat = (c.icache ip).d.size.toNat := by rw [hentry]
    refine spec_pure ⟨rfl, c1, hwritten, ho1, (c1.icache ip).d, rfl, rfl, by omega, ?_, ?_⟩
    · rw [ho1.view_ino]
    · rw [View.setIno, ← ho1.view_ino, Function.update_eq_self]

theorem spec_writei (hfits : sb.Fits) (src : List UInt8) (off : Nat) (ho : Opened sb c ip)
    (hdev : (c.icache ip).d.type ≠ tDev) (hoff : off ≤ (c.icache ip).d.size.toNat)
    (hmax : off + src.length ≤ maxfile * bsize)
    (hroom : src ≠ [] → needed (c.view sb) (c.icache ip).inum (off / bsize) (span off src.length) ≤
      (c.view sb).room sb) :
    Spec sb (writei ip src off) c fun r c' => r = some src.length ∧ Stored sb ip off src c c' := by
  refine (spec_writei_parts hfits src off ho hdev hoff hmax hroom).mono ?_
  rintro _ c' ⟨rfl, c1, hwritten, hopened, d, hself, htype, hsize, haddrs, hview⟩
  obtain ⟨addrs, hentry⟩ := hwritten.entry
  refine ⟨rfl, hopened, ⟨d, by rw [hself, hentry], by rw [htype, hentry], hsize⟩,
    fun x hne hx => ?_, fun k hk => ?_⟩
  · rw [hview, View.byte_setIno haddrs]
    exact hwritten.byte _ x ho.ino_type hne fun _ => Or.inl hx
  · rw [hview, View.byte_setIno haddrs]
    exact (hwritten.here k hk).2

end Fs

end Xv6
