import Xv6.Proof.FsWrite

/-!
# Room in a transaction

The log takes a limited number of blocks, and the buffer cache cannot recycle a buffer before the
commit writes it. A call that writes returns if the blocks it may touch fit: those already logged,
the bitmap, the inode, the indirect block and the blocks of the file.
-/

namespace Xv6

namespace Fs

open Xv6.Core

variable {sb : Superblock} {s s' : Fs} {c c' : Core} {ip : Fin ninode} {cap : Nat}
  {U : Finset Nat} {h : List Nat} {b : Nat} {data : Block} {β : Type} {R : β → Fs → Prop}

/-- In a transaction, with the blocks `h` held: the logged blocks are among `U`, which are at most
`cap`, and there are buffers for them and three more. -/
structure Ready (sb : Superblock) (cap : Nat) (U : Finset Nat) (h : List Nat) (s : Fs) : Prop where
  ok : s.Ok sb
  held : s.held = h
  below : ∀ b ∈ h, b < sb.logStart
  busy : s.log.busy = true
  nodup : s.dirty.Nodup
  dirty : ∀ b ∈ s.dirty, b ∈ s.log.sectors
  logged : ∀ b ∈ s.log.sectors, b ∈ U
  card : U.card ≤ cap
  buffers : cap + 3 ≤ nbuf
  log : cap + 1 < s.log.size

theorem Ready.mono {U' : Finset Nat} (hr : Ready sb cap U h s) (hU : U ⊆ U')
    (hcard : U'.card ≤ cap) : Ready sb cap U' h s :=
  { hr with logged := fun b hb => hU (hr.logged b hb), card := hcard }

theorem Ready.sectors_le (hr : Ready sb cap U h s) : s.log.sectors.length ≤ cap := by
  rw [← List.toFinset_card_of_nodup hr.ok.nodup]
  refine (Finset.card_le_card fun b hb => hr.logged b ?_).trans hr.card
  exact List.mem_toFinset.mp hb

theorem Ready.pinned_lt (hr : Ready sb cap U h s) (hlen : h.length ≤ 2) : s.pinned < nbuf := by
  have hdirty : s.dirty.length ≤ s.log.sectors.length :=
    (hr.nodup.subperm fun b hb => hr.dirty b hb).length_le
  have hfilter := List.length_filter_le (· ∉ s.held) s.dirty
  have hsectors := hr.sectors_le
  have hbuffers := hr.buffers
  rw [pinned, hr.held] at *
  omega

theorem returns_bread (hr : Ready sb cap U h s) (hb : b ∉ h) (hlog : b < sb.logStart)
    (hlen : h.length ≤ 2) :
    (bread b).Returns s fun data s' =>
      data = s.core.blk b ∧ Ready sb cap U (b :: h) s' ∧ s'.core = s.core := by
  refine ⟨_, _, run_bread_of_lt (by rwa [hr.held]) (hr.pinned_lt hlen),
    (core_blk hr.ok hlog).symm, ?_, rfl⟩
  have hsame : SameBlocks s { s with held := b :: s.held } := ⟨rfl, rfl, rfl⟩
  refine { hr with ok := hsame.ok hr.ok, held := by rw [← hr.held], below := fun x hx => ?_ }
  rcases List.mem_cons.mp hx with rfl | hx
  · exact hlog
  · exact hr.below x hx

theorem returns_brelse (hr : Ready sb cap U (b :: h) s) :
    (brelse b).Returns s fun _ s' => Ready sb cap U h s' ∧ s'.core = s.core := by
  have hheld : b ∈ s.held := by
    rw [hr.held]
    exact List.mem_cons_self
  have hsame : SameBlocks s { s with held := s.held.erase b } := ⟨rfl, rfl, rfl⟩
  refine ⟨_, _, run_brelse_of_mem hheld,
    { hr with ok := hsame.ok hr.ok, held := ?_, below := ?_ }, rfl⟩
  · change s.held.erase b = h
    rw [hr.held, List.erase_cons_head]
  · exact fun x hx => hr.below x (List.mem_cons_of_mem b hx)

def logged (s : Fs) (b : Nat) : Fs :=
  let slot := s.log.start + s.log.sectors.idxOf b + 1
  let dirty := s.dirty.filter (· ≠ slot)
  { s with
    content := Function.update s.content slot (s.content b)
    dirty := if b ∈ dirty then dirty else b :: dirty
    log := { s.log with sectors := logSectors s.log.sectors b } }

theorem run_logWrite (hsectors : s.log.sectors.length < logSize)
    (hsize : s.log.sectors.length + 1 < s.log.size) (hbusy : s.log.busy = true)
    (hpinned : s.pinned < nbuf) (hheld : s.log.start + s.log.sectors.idxOf b + 1 ∉ s.held) :
    (logWrite b).run s = .ok ((), s.logged b) := by
  rw [logWrite, Kernel.run_get_bind]
  dsimp only
  rw [if_neg (by omega), if_neg (by simp [hbusy]),
    Kernel.run_bind_of_ok (run_bread_of_lt hheld hpinned), setData, Kernel.run_modify_bind,
    Kernel.run_bind_of_ok (run_bwrite_of_mem List.mem_cons_self),
    Kernel.run_bind_of_ok (run_brelse_of_mem List.mem_cons_self), Kernel.run_modify]
  simp only [setBlock, List.erase_cons_head, logged, logSectors]
  rfl

theorem mem_logSectors_of_mem {sectors : List Nat} {x : Nat} (b : Nat) (hx : x = b ∨ x ∈ sectors) :
    x ∈ logSectors sectors b := by
  rcases logSectors_cases sectors b with ⟨-, -, heq⟩ | ⟨hmem, heq⟩
  · rw [heq, List.mem_append, List.mem_singleton]
    exact hx.symm
  · rw [heq]
    rcases hx with rfl | hx
    · exact hmem
    · exact hx

theorem Ready.logged_bind {g : Unit → Kernel Fs β} (hr : Ready sb cap U h s) (hb : b < sb.logStart)
    (hsuper : b ≠ 1) (hU : b ∈ U) (hlen : h.length ≤ 2)
    (hg : ∀ s', Ready sb cap U h s' → s'.core = s.core.setBlk b data → (g ()).Returns s' R) :
    (setData b data >>= fun _ => logWrite b >>= g).Returns s R := by
  have hsectors := hr.sectors_le
  have hbuffers := hr.buffers
  have hsize := hr.log
  have hsmall : nbuf = 10 ∧ logSize = 10 := ⟨rfl, rfl⟩
  have hslot : s.log.start + s.log.sectors.idxOf b + 1 ∉ s.held := fun hmem => by
    rw [hr.held] at hmem
    have hlt := hr.below _ hmem
    rw [hr.ok.start] at hlt
    omega
  have hrun : (logWrite b).run (s.setBlock b data) = .ok ((), (s.setBlock b data).logged b) := by
    refine run_logWrite ?_ ?_ hr.busy (hr.pinned_lt hlen) hslot
    · change s.log.sectors.length < logSize
      omega
    · change s.log.sectors.length + 1 < s.log.size
      omega
  have hall : ∀ {γ : Type} (f : Unit → Kernel Fs γ),
      (setData b data >>= fun _ => logWrite b >>= f).run s =
        (f ()).run ((s.setBlock b data).logged b) := fun f => by
    rw [setData, Kernel.run_modify_bind, Kernel.run_bind_of_ok hrun]
  have hspec : Spec sb (setData b data >>= fun _ => logWrite b >>= pure) s.core
      fun _ c' => c' = s.core.setBlk b data := spec_logged hb hsuper (spec_pure rfl)
  obtain ⟨hok, hcore⟩ := hspec s hr.ok rfl () _ (hall pure)
  have hfilter : ∀ x ∈ s.dirty.filter (· ≠ s.log.start + s.log.sectors.idxOf b + 1),
      x ∈ s.log.sectors := fun x hx => hr.dirty x (List.mem_of_mem_filter hx)
  have hnodup := hr.nodup.filter (· ≠ s.log.start + s.log.sectors.idxOf b + 1)
  have hready : Ready sb cap U h ((s.setBlock b data).logged b) := by
    refine ⟨hok, hr.held, hr.below, hr.busy, ?_, fun x hx => ?_, fun x hx => ?_, hr.card,
      hr.buffers, hr.log⟩
    · change (if _ then _ else _ : List Nat).Nodup
      split
      · exact hnodup
      · rename_i hmem
        exact List.nodup_cons.mpr ⟨hmem, hnodup⟩
    · change x ∈ (if _ then _ else _ : List Nat) at hx
      refine mem_logSectors_of_mem b ?_
      split at hx
      · exact Or.inr (hfilter x hx)
      · exact (List.mem_cons.mp hx).imp_right (hfilter x)
    · rcases mem_logSectors hx with rfl | hx
      · exact hU
      · exact hr.logged x hx
  obtain ⟨r, s2, hrest, hR⟩ := hg _ hready hcore
  exact ⟨r, s2, (hall g).trans hrest, hR⟩

theorem returns_readsb (hr : Ready sb cap U h s) (hone : 1 ∉ h) (hlog : 1 < sb.logStart)
    (hlen : h.length ≤ 2) :
    readsb.Returns s fun r s' => r = sb ∧ Ready sb cap U h s' ∧ s'.core = s.core := by
  refine (returns_bread hr hone hlog hlen).bind ?_
  rintro _ s1 ⟨rfl, hr1, hc1⟩
  refine (returns_brelse hr1).bind fun _ s2 ⟨hr2, hc2⟩ => Kernel.returns_pure ?_
  refine ⟨?_, hr2, hc2.trans hc1⟩
  rw [core_blk hr.ok hlog]
  exact hr.ok.super

theorem returns_bzero (hr : Ready sb cap U h s) (hb : b ∉ h) (hlog : b < sb.logStart)
    (hone : b ≠ 1) (hU : b ∈ U) (hlen : h.length ≤ 1) :
    (bzero b).Returns s fun _ s' => Ready sb cap U h s' := by
  refine (returns_bread hr hb hlog (by omega)).bind ?_
  rintro _ s1 ⟨-, hr1, -⟩
  refine hr1.logged_bind hlog hone hU (by simpa using hlen) fun s2 hr2 _ => ?_
  exact (returns_brelse hr2).mono fun _ _ h => h.1

def bitmapBlocks (sb : Superblock) : Finset Nat :=
  (Finset.range ((sb.size + bpb - 1) / bpb)).image fun k => sb.bblock (k * bpb)

theorem mem_bitmapBlocks {k : Nat} (hk : k * bpb < sb.size) :
    sb.bblock (k * bpb) ∈ bitmapBlocks sb := by
  refine Finset.mem_image_of_mem _ (Finset.mem_range.mpr ?_)
  simp only [bpb] at hk ⊢
  omega

theorem returns_ballocLoop (hfits : sb.Fits) (hone : c.bit sb 1 = true) {x : Nat}
    (hx : x < sb.logStart) (hfree : c.bit sb x = false) (hbitmap : bitmapBlocks sb ⊆ U)
    (hcard : U.card < cap) (hlen : h.length ≤ 1)
    (hh : ∀ y ∈ h, sb.dataStart ≤ y ∧ c.bit sb y = true) (k m : Nat) (hm : x < (k + m) * bpb)
    (hbelow : ∀ y < k * bpb, y < sb.size → c.bit sb y = true)
    (hr : Ready sb cap U h s) (hc : s.core = c) :
    (ballocLoop sb (List.range' k m)).Returns s fun b s' => Ready sb cap (insert b U) h s' := by
  induction m generalizing k s with
  | zero =>
    rw [hbelow x hm (hx.trans_le logStart_le_size)] at hfree
    cases hfree
  | succ m ih =>
    have hsize : sb.logStart ≤ sb.size := logStart_le_size
    have hkx := le_of_clear hbelow hx hfree
    have hblock : sb.bblock (k * bpb) < sb.logStart := bblock_lt_logStart hfits (by omega)
    have hnot : sb.bblock (k * bpb) ∉ h := fun hmem => by
      have hdata := bblock_lt_dataStart (show k * bpb < sb.size by omega)
      have := (hh _ hmem).1
      omega
    have hmem := hbitmap (mem_bitmapBlocks (show k * bpb < sb.size by omega))
    rw [List.range'_succ]
    refine (returns_bread hr hnot hblock (by omega)).bind ?_
    rintro _ s1 ⟨rfl, hr1, hc1⟩
    rw [hc]
    rw [hc] at hc1
    split
    · rename_i bi hfind
      obtain ⟨hbi, hbit, hle⟩ := first_clear_bit hkx hfree hfind
      have hne : k * bpb + bi ≠ 1 := fun heq => by
        rw [heq, hone] at hbit
        cases hbit
      have hfresh : k * bpb + bi ∉ h := fun hin => by
        rw [(hh _ hin).2] at hbit
        cases hbit
      refine hr1.logged_bind hblock (one_lt_bblock _).ne' hmem (by simpa using hlen)
        fun s2 hr2 _ => ?_
      refine (returns_brelse hr2).bind fun _ s3 ⟨hr3, _⟩ => ?_
      have hr4 : Ready sb cap (insert (k * bpb + bi) U) h s3 :=
        hr3.mono (Finset.subset_insert ..) ((Finset.card_insert_le ..).trans hcard)
      refine (returns_bzero hr4 hfresh (hle.trans_lt hx) hne (Finset.mem_insert_self ..)
        hlen).bind fun _ s5 hr5 => Kernel.returns_pure hr5
    · rename_i hfind
      refine (returns_brelse hr1).bind fun _ s2 ⟨hr2, hc2⟩ => ?_
      exact ih (k + 1) (by rwa [Nat.add_assoc, Nat.add_comm 1 m]) (no_clear_bit hbelow hfind) hr2
        (hc2.trans hc1)

theorem returns_balloc (hfits : sb.Fits) (hs : (s.core.view sb).Sound sb)
    (hroom : 0 < (s.core.view sb).room sb) (hr : Ready sb cap U h s)
    (hbitmap : bitmapBlocks sb ⊆ U) (hcard : U.card < cap) (hlen : h.length ≤ 1)
    (hh : ∀ y ∈ h, sb.dataStart ≤ y ∧ (s.core.view sb).bit y = true) :
    balloc.Returns s fun b s' => Ready sb cap (insert b U) h s' ∧ b < sb.logStart ∧
      sb.dataStart ≤ b ∧ (s.core.view sb).bit b = false ∧
      s'.core = (s.core.mark sb b).setBlk b fun _ => 0 := by
  have hlog := logStart_gt_one hfits
  obtain ⟨x, hx, hfree⟩ := View.exists_free_of_room hroom
  rw [view_bit (hx.trans_le logStart_le_size)] at hfree
  have hnot : 1 ∉ h := fun hmem => ne_one_of_dataStart_le (hh 1 hmem).1 rfl
  have hh' : ∀ y ∈ h, sb.dataStart ≤ y ∧ s.core.bit sb y = true := fun y hy => by
    have := hh y hy
    rwa [view_bit ((hr.below y hy).trans_le logStart_le_size)] at this
  have hprogress : balloc.Returns s fun b s' => Ready sb cap (insert b U) h s' := by
    refine (returns_readsb hr hnot hlog (by omega)).bind ?_
    rintro _ s1 ⟨rfl, hr1, hc1⟩
    rw [List.range_eq_range']
    refine returns_ballocLoop hfits (bit_one_of_sound hfits hs) hx hfree hbitmap hcard hlen hh' 0
      _ ?_ ?_ hr1 hc1
    · have hlt := hx.trans_le logStart_le_size
      simp only [bpb] at hlt ⊢
      omega
    · intro y hy
      rw [Nat.zero_mul] at hy
      cases hy
  exact (hprogress.and (spec_balloc_of_sound hfits hs hroom s hr.ok rfl)).mono
    fun b s' h => ⟨h.1, h.2.2⟩

theorem Ready.setInode (hr : Ready sb cap U h s) (e : Inode) :
    Ready sb cap U h (s.setInode ip e) :=
  { hr with ok := ⟨hr.ok.start, hr.ok.super, hr.ok.nodup, hr.ok.home, hr.ok.copies⟩ }

def indirect (c : Core) (ip : Fin ninode) : Nat :=
  ((c.icache ip).d.addrs (Fin.last ndirect)).toNat

theorem returns_bmapEntry (hfits : sb.Fits) (ho : Opened sb s.core ip) (k : Fin (ndirect + 1))
    (hroom : (s.core.view sb).slot (s.core.icache ip).inum k = 0 →
      0 < (s.core.view sb).room sb)
    (hr : Ready sb cap U [] s) (hbitmap : bitmapBlocks sb ⊆ U)
    (hcard : ((s.core.icache ip).d.addrs k).toNat = 0 ∨ ((s.core.icache ip).d.addrs k).toNat ∉ U →
      U.card < cap) :
    (bmapEntry ip k).Returns s fun b s' => Ready sb cap (insert b U) [] s' ∧
      (((s.core.icache ip).d.addrs k).toNat ≠ 0 → b = ((s.core.icache ip).d.addrs k).toNat) ∧
      Filled sb ip k s.core s'.core ∧ b = (s'.core.view sb).slot (s.core.icache ip).inum k := by
  have hprogress : (bmapEntry ip k).Returns s fun b s' => Ready sb cap (insert b U) [] s' ∧
      (((s.core.icache ip).d.addrs k).toNat ≠ 0 →
        b = ((s.core.icache ip).d.addrs k).toNat) := by
    rw [bmapEntry]
    refine Kernel.returns_get_bind ?_
    change (if ((s.core.icache ip).d.addrs k).toNat = 0 then _ else _ : Kernel Fs Nat).Returns s _
    by_cases hz : ((s.core.icache ip).d.addrs k).toNat = 0
    · rw [if_pos hz]
      refine (returns_balloc hfits ho.good.sound (hroom ((slot_of_opened ho k).trans hz)) hr hbitmap
        (hcard (Or.inl hz)) (Nat.zero_le _) nofun).bind ?_
      rintro b s1 ⟨hr1, -⟩
      refine Kernel.returns_modify_bind (Kernel.returns_pure ⟨hr1.setInode _, fun hne => ?_⟩)
      exact absurd hz hne
    · rw [if_neg hz]
      refine Kernel.returns_pure ⟨hr.mono (Finset.subset_insert ..) ?_, fun _ => rfl⟩
      by_cases hmem : ((s.core.icache ip).d.addrs k).toNat ∈ U
      · exact (congrArg Finset.card (Finset.insert_eq_of_mem hmem)).trans_le hr.card
      · exact (Finset.card_insert_le ..).trans (hcard (Or.inr hmem))
  exact (hprogress.and (spec_bmapEntry hfits ho k hroom s hr.ok rfl)).mono
    fun b s' h => ⟨h.1.1, h.1.2, h.2.2⟩

structure Reserve (cap : Nat) (U : Finset Nat) (c : Core) (ip : Fin ninode) (k : Nat) : Prop where
  blocks : U.card + k ≤ cap
  indirect : indirect c ip = 0 ∨ indirect c ip ∉ U → U.card + k + 1 ≤ cap

theorem reserve_insert {k : Nat} (hres : Reserve cap U c ip (k + 1))
    (hsame : indirect c' ip = indirect c ip) (b : Nat) : Reserve cap (insert b U) c' ip k := by
  have hcard : (insert b U).card ≤ U.card + 1 := Finset.card_insert_le ..
  have hblocks := hres.blocks
  refine ⟨by omega, fun hor => ?_⟩
  rw [hsame] at hor
  have := hres.indirect (hor.imp_right fun hnot hmem => hnot (Finset.mem_insert_of_mem hmem))
  omega

theorem card_insert_indirect {k a : Nat} (hres : Reserve cap U c ip (k + 1))
    (ha : indirect c ip ≠ 0 → a = indirect c ip) : (insert a U).card + (k + 1) ≤ cap := by
  by_cases hcounted : indirect c ip = 0 ∨ indirect c ip ∉ U
  · have := hres.indirect hcounted
    have : (insert a U).card ≤ U.card + 1 := Finset.card_insert_le ..
    omega
  · obtain ⟨hne, hmem⟩ := not_or.mp hcounted
    rw [ha hne, Finset.insert_eq_of_mem (not_not.mp hmem)]
    exact hres.blocks

theorem reserve_of_indirect {k a : Nat} (hcard : (insert a U).card + (k + 1) ≤ cap) (ha : a ≠ 0)
    (hsame : indirect c ip = a) (b : Nat) : Reserve cap (insert b (insert a U)) c ip k := by
  have hle : (insert b (insert a U)).card ≤ (insert a U).card + 1 := Finset.card_insert_le ..
  refine ⟨by omega, fun hor => ?_⟩
  rw [hsame] at hor
  exact absurd (Finset.mem_insert_of_mem (Finset.mem_insert_self ..)) (hor.resolve_left ha)

theorem returns_bmap_entry (hfits : sb.Fits) (ho : Opened sb s.core ip) {bn k a : Nat}
    (ha : indirect s.core ip = a) (hind : a ≠ 0)
    (hroom : getLE (s.core.blk a) (4 * (bn - ndirect)) 4 = 0 → 0 < (s.core.view sb).room sb)
    (hr : Ready sb cap (insert a U) [] s) (hbitmap : bitmapBlocks sb ⊆ U)
    (hcard : (insert a U).card + (k + 1) ≤ cap) :
    (do
      let data ← bread a
      let b := getLE data (4 * (bn - ndirect)) 4
      if b = 0 then do
        let b ← balloc
        setData a (putLE data (4 * (bn - ndirect)) 4 b)
        logWrite a
        brelse a
        pure b
      else do
        brelse a
        pure b : Kernel Fs Nat).Returns s fun b s' =>
      ∃ U', U ⊆ U' ∧ b ∈ U' ∧ Ready sb cap U' [] s' ∧ Reserve cap U' s'.core ip k := by
  have hslot : (s.core.view sb).slot (s.core.icache ip).inum ndirect = a :=
    (slot_of_opened ho (Fin.last ndirect)).trans ha
  obtain ⟨hadata, halog⟩ := slot_area ho (by rwa [hslot])
  have hused := ho.good.sound.used _ ndirect (by rwa [View.own_of_type ho.ino_type, hslot])
  rw [View.own_of_type ho.ino_type, hslot] at hused
  rw [hslot] at hadata halog
  have hdone : ∀ b s', Ready sb cap (insert b (insert a U)) [] s' →
      s'.core.icache = s.core.icache →
      ∃ U', U ⊆ U' ∧ b ∈ U' ∧ Ready sb cap U' [] s' ∧ Reserve cap U' s'.core ip k := by
    intro b s' hr' hicache
    have hsame : indirect s'.core ip = a := by rw [indirect, hicache, ← ha, indirect]
    exact ⟨_, (Finset.subset_insert ..).trans (Finset.subset_insert ..),
      Finset.mem_insert_self .., hr', reserve_of_indirect hcard hind hsame b⟩
  refine (returns_bread hr List.not_mem_nil halog (Nat.zero_le _)).bind ?_
  rintro _ s2 ⟨rfl, hr2, hc2⟩
  by_cases hz : getLE (s.core.blk a) (4 * (bn - ndirect)) 4 = 0
  · simp only [if_pos hz]
    refine (returns_balloc hfits (by rw [hc2]; exact ho.good.sound) (by rw [hc2]; exact hroom hz)
      hr2 (hbitmap.trans (Finset.subset_insert ..)) (by omega) (by simp) ?_).bind ?_
    · intro y hy
      rw [List.mem_singleton.mp hy, hc2]
      exact ⟨hadata, hused.2.2⟩
    rintro b s3 ⟨hr3, -, -, -, hc3⟩
    refine hr3.logged_bind halog (ne_one_of_dataStart_le hadata)
      (Finset.mem_insert_of_mem (Finset.mem_insert_self ..)) (by simp) fun s4 hr4 hc4 => ?_
    refine (returns_brelse hr4).bind fun _ s5 ⟨hr5, hc5⟩ => Kernel.returns_pure ?_
    refine hdone b s5 hr5 ?_
    rw [hc5, hc4, setBlk_icache, hc3, setBlk_icache, mark_icache, hc2]
  · simp only [if_neg hz]
    refine (returns_brelse hr2).bind fun _ s3 ⟨hr3, hc3⟩ => Kernel.returns_pure ?_
    refine hdone _ s3 (hr3.mono (Finset.subset_insert ..) ?_) (by rw [hc3, hc2])
    exact (Finset.card_insert_le ..).trans (by omega)

theorem returns_bmap (hfits : sb.Fits) (ho : Opened sb s.core ip) {bn k : Nat} (hmax : bn < maxfile)
    (hroom : (if (s.core.view sb).addr (s.core.icache ip).inum bn = 0 then 1 else 0) +
      (if ndirect ≤ bn ∧ (s.core.view sb).slot (s.core.icache ip).inum ndirect = 0
        then 1 else 0) ≤ (s.core.view sb).room sb)
    (hr : Ready sb cap U [] s) (hbitmap : bitmapBlocks sb ⊆ U)
    (hres : Reserve cap U s.core ip (k + 1)) :
    (bmap ip bn).Returns s fun b s' =>
      (∃ U', U ⊆ U' ∧ b ∈ U' ∧ Ready sb cap U' [] s' ∧ Reserve cap U' s'.core ip k) ∧
      Mapped sb ip bn s.core s'.core ∧ b = (s'.core.view sb).addr (s.core.icache ip).inum bn := by
  have hprogress : (bmap ip bn).Returns s fun b s' =>
      ∃ U', U ⊆ U' ∧ b ∈ U' ∧ Ready sb cap U' [] s' ∧ Reserve cap U' s'.core ip k := by
    rw [bmap]
    split
    · rename_i hdirect
      have hblocks := hres.blocks
      refine (returns_bmapEntry hfits ho ⟨bn, Nat.lt_succ_of_lt hdirect⟩ (fun hz => ?_) hr hbitmap
        fun _ => by omega).mono ?_
      · rw [if_pos ((View.addr_direct _ hdirect).trans hz)] at hroom
        omega
      · rintro b s1 ⟨hr1, -, hfilled, -⟩
        have hsame : indirect s1.core ip = indirect s.core ip := by
          have hother := hfilled.other ndirect (by simp only; omega)
          have hnew := slot_of_opened (hfilled.grew.opened ho) (Fin.last ndirect)
          rw [hfilled.grew.inum] at hnew
          exact hnew.symm.trans (hother.trans (slot_of_opened ho (Fin.last ndirect)))
        exact ⟨insert b U, Finset.subset_insert .., Finset.mem_insert_self .., hr1,
          reserve_insert hres hsame b⟩
    · rename_i hdirect
      rw [if_pos (by simp only [maxfile] at hmax; omega)]
      refine (returns_bmapEntry hfits ho (Fin.last ndirect) (fun hz => ?_) hr hbitmap fun hor => by
        have := hres.indirect hor
        omega).bind ?_
      · have hcond : ndirect ≤ bn ∧ (s.core.view sb).slot (s.core.icache ip).inum ndirect = 0 :=
          ⟨by omega, hz⟩
        rw [if_pos hcond] at hroom
        omega
      rintro a s1 ⟨hr1, hold, hfilled, ha⟩
      have hfilled' : Filled sb ip ndirect s.core s1.core := hfilled
      have hinum : (s1.core.icache ip).inum = (s.core.icache ip).inum := hfilled.grew.inum
      have ho1 : Opened sb s1.core ip := hfilled.grew.opened ho
      have ha' : a = (s1.core.view sb).slot (s1.core.icache ip).inum ndirect := by
        rw [hinum]
        exact ha
      have hind : (s1.core.view sb).slot (s1.core.icache ip).inum ndirect ≠ 0 := by
        rw [hinum]
        exact hfilled'.here
      have haind : indirect s1.core ip = a :=
        (slot_of_opened ho1 (Fin.last ndirect)).symm.trans ha'.symm
      refine returns_bmap_entry hfits ho1 haind (by rwa [ha']) (fun hz => ?_) hr1 hbitmap
        (card_insert_indirect hres hold)
      have hzero : (s.core.view sb).addr (s.core.icache ip).inum bn = 0 := by
        have haddr := addr_of_indirect ho1 hdirect hmax hind
        rw [← ha', hz, hinum] at haddr
        exact (hfilled'.other _ (View.slotOf_ne_ndirect bn)).symm.trans haddr
      have hfirst := hfilled'.room
      rw [if_pos hzero, if_congr (and_iff_right (by omega)) rfl rfl] at hroom
      omega
  exact (hprogress.and (spec_bmap hfits ho hmax hroom s hr.ok rfl)).mono
    fun b s' h => ⟨h.1, h.2.2⟩

theorem returns_writeLoop (hfits : sb.Fits) (fuel : Nat) {src : List UInt8} {off : Nat}
    (ho : Opened sb s.core ip) (hlen : src.length ≤ fuel)
    (hmax : off + src.length ≤ maxfile * bsize)
    (hroom : src ≠ [] → needed (s.core.view sb) (s.core.icache ip).inum (off / bsize)
      (span off src.length) ≤ (s.core.view sb).room sb)
    (hr : Ready sb cap U [] s) (hbitmap : bitmapBlocks sb ⊆ U)
    (hres : src ≠ [] → Reserve cap U s.core ip (span off src.length)) :
    (writeLoop ip fuel src off).Returns s fun _ s' => ∃ U', U ⊆ U' ∧ Ready sb cap U' [] s' := by
  induction fuel generalizing src off s U with
  | zero => exact Kernel.returns_pure ⟨U, Finset.Subset.refl U, hr⟩
  | succ fuel ih =>
    rw [writeLoop]
    split
    · exact Kernel.returns_pure ⟨U, Finset.Subset.refl U, hr⟩
    rename_i hnil
    replace hroom := hroom hnil
    replace hres := hres hnil
    have hpos : 0 < src.length := List.length_pos_iff.mpr hnil
    obtain ⟨m, hm⟩ : ∃ m, min src.length (bsize - off % bsize) = m := ⟨_, rfl⟩
    have hmpos : 0 < m := by
      have := Nat.mod_lt off (show 0 < bsize by decide)
      omega
    obtain ⟨k, hk⟩ : ∃ k, span off src.length = k + 1 := span_pos hpos
    rw [hk] at hroom hres
    have hbn : off / bsize < maxfile := by
      rw [Nat.div_lt_iff_lt_mul (by decide)]
      omega
    refine (returns_bmap hfits ho hbn (Mapped.room_of_needed hroom) hr hbitmap hres).bind ?_
    rintro _ s1 ⟨⟨U1, hU1, hb, hr1, hres1⟩, hmapped, rfl⟩
    have ho1 : Opened sb s1.core ip := hmapped.grew.opened ho
    have hinum : (s1.core.icache ip).inum = (s.core.icache ip).inum := hmapped.grew.inum
    have hz1 : (s1.core.view sb).addr (s1.core.icache ip).inum (off / bsize) ≠ 0 := by
      rw [hinum]
      exact hmapped.here
    obtain ⟨hdata, hlog⟩ := slot_area ho1 hz1
    rw [← View.addr, hinum] at hdata hlog
    refine (returns_bread hr1 List.not_mem_nil hlog (Nat.zero_le _)).bind ?_
    rintro _ s2 ⟨rfl, hr2, hc2⟩
    dsimp only
    rw [hm]
    refine hr2.logged_bind hlog (ne_one_of_dataStart_le hdata) hb (by simp) fun s3 hr3 hc3 => ?_
    refine (returns_brelse hr3).bind ?_
    rintro _ s4 ⟨hr4, hc4⟩
    rw [hc3, hc2] at hc4
    have htake : (src.take m).length ≤ bsize - off % bsize := by
      rw [List.length_take]
      omega
    have ho4 : Opened sb s4.core ip := by
      rw [hc4]
      exact (hmapped.wrote ho htake).opened ho
    have hinum4 : (s4.core.icache ip).inum = (s.core.icache ip).inum := by
      rw [hc4, setBlk_icache, hinum]
    have hlt : src.drop m ≠ [] → m < src.length := fun hleft => by
      rw [ne_eq, List.drop_eq_nil_iff] at hleft
      omega
    refine (ih ho4 ?_ ?_ (fun hleft => ?_) hr4 (hbitmap.trans hU1) fun hleft => ?_).mono ?_
    · rw [List.length_drop]
      omega
    · rw [List.length_drop]
      omega
    · obtain ⟨hdiv, hspan⟩ := span_rest hm (hlt hleft) hk
      obtain ⟨hneed, hsame⟩ := needed_setBlk ho1 hz1
        (putBytes (s1.core.blk ((s1.core.view sb).addr (s.core.icache ip).inum (off / bsize)))
          (off % bsize) (src.take m)) (off / bsize + 1) k
      rw [hinum] at hneed hsame
      rw [hinum4, hc4, hsame, hdiv, List.length_drop, hspan, hneed]
      exact hmapped.needed_le hroom
    · rw [List.length_drop, (span_rest hm (hlt hleft) hk).2]
      exact ⟨hres1.blocks, by rw [indirect, hc4]; exact hres1.indirect⟩
    · rintro _ s5 ⟨U5, hU5, hr5⟩
      exact ⟨U5, hU1.trans hU5, hr5⟩

theorem returns_iupdate (hfits : sb.Fits) (hr : Ready sb cap U [] s)
    (hi : (s.icache ip).inum < sb.ninodes) (hU : iblock (s.icache ip).inum ∈ U) :
    (iupdate ip).Returns s fun _ s' => Ready sb cap U [] s' := by
  refine Kernel.returns_get_bind ?_
  have hblock := iblock_lt_logStart hfits hi
  refine (returns_bread hr List.not_mem_nil hblock (Nat.zero_le _)).bind ?_
  rintro _ s1 ⟨-, hr1, -⟩
  refine hr1.logged_bind hblock (one_lt_iblock _).ne' hU (by simp) fun s2 hr2 _ => ?_
  exact (returns_brelse hr2).mono fun _ _ h => h.1

def touched (sb : Superblock) (s : Fs) (ip : Fin ninode) : Finset Nat :=
  insert (iblock (s.icache ip).inum) (s.log.sectors.toFinset ∪ bitmapBlocks sb)

/-- No buffer is held and only logged blocks are dirty, in a transaction that has room for the
inode, the bitmap, the indirect block and `n` blocks of the file. -/
structure Begun (sb : Superblock) (ip : Fin ninode) (n : Nat) (s : Fs) : Prop where
  held : s.held = []
  busy : s.log.busy = true
  nodup : s.dirty.Nodup
  dirty : ∀ b ∈ s.dirty, b ∈ s.log.sectors
  buffers : (touched sb s ip).card + n + 1 + 3 ≤ nbuf
  log : (touched sb s ip).card + n + 1 + 1 < s.log.size

theorem Begun.ready {n : Nat} (hok : s.Ok sb) (hb : Begun sb ip n s) :
    Ready sb ((touched sb s ip).card + n + 1) (touched sb s ip) [] s where
  ok := hok
  held := hb.held
  below := nofun
  busy := hb.busy
  nodup := hb.nodup
  dirty := hb.dirty
  logged b hmem :=
    Finset.mem_insert_of_mem (Finset.mem_union_left _ (List.mem_toFinset.mpr hmem))
  card := by omega
  buffers := hb.buffers
  log := hb.log

theorem returns_writei (hfits : sb.Fits) (hok : s.Ok sb) (src : List UInt8) (off : Nat)
    (ho : Opened sb s.core ip) (hdev : (s.icache ip).d.type ≠ tDev)
    (hoff : off ≤ (s.icache ip).d.size.toNat) (hmax : off + src.length ≤ maxfile * bsize)
    (hroom : src ≠ [] → needed (s.core.view sb) (s.icache ip).inum (off / bsize)
      (span off src.length) ≤ (s.core.view sb).room sb)
    (hbegun : src ≠ [] → Begun sb ip (span off src.length) s) :
    (writei ip src off).Returns s fun r s' => s'.Ok sb ∧ r = some src.length ∧ ∃ c1,
      Written sb ip off src s.core c1 ∧
      Resized sb ip (max (s.icache ip).d.size.toNat (off + src.length)) c1 s'.core := by
  have hword : maxfile * bsize < 2 ^ 32 := by decide
  have hprogress : (writei ip src off).Returns s fun _ _ => True := by
    refine Kernel.returns_get_bind ?_
    dsimp only
    rw [if_neg hdev, if_neg (by omega), if_neg (by omega)]
    by_cases hnil : src = []
    · subst hnil
      exact Kernel.returns_pure trivial
    replace hbegun := hbegun hnil
    have hbitmap : bitmapBlocks sb ⊆ touched sb s ip :=
      Finset.subset_union_right.trans (Finset.subset_insert ..)
    have hloop := returns_writeLoop hfits src.length ho le_rfl hmax hroom (hbegun.ready hok) hbitmap
      fun _ => ⟨by omega, fun _ => by omega⟩
    have hspec := spec_writeLoop hfits src.length src off ho le_rfl hmax hroom s hok rfl
    refine (hloop.and hspec).bind ?_
    rintro _ s1 ⟨⟨U1, hU1, hr1⟩, -, hwritten⟩
    have hinum : (s1.icache ip).inum = (s.icache ip).inum := hwritten.inum
    split
    · refine Kernel.returns_modify_bind ?_
      generalize hs2 : s1.setInode ip _ = s2
      have hr2 : Ready sb _ U1 [] s2 := hs2 ▸ hr1.setInode _
      have hinum2 : (s2.icache ip).inum = (s.icache ip).inum := by
        rw [← hs2, ← hinum, setInode]
        dsimp only
        rw [Function.update_self]
      refine (returns_iupdate hfits hr2 ?_ ?_).bind fun _ _ _ => Kernel.returns_pure trivial
      · rw [hinum2]
        exact ho.good.cache.range ip ho.live.1
      · rw [hinum2]
        exact hU1 (Finset.mem_insert_self ..)
    · exact Kernel.returns_pure trivial
  exact (hprogress.and (spec_writei_parts hfits src off ho hdev hoff hmax hroom s hok rfl)).mono
    fun r s' h => h.2

end Fs

end Xv6
