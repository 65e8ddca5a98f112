import Xv6.BlockUse
import Xv6.Proof.MkfsKernel

/-!
# The area that `balloc` allocates from

`mkfs` marks the blocks it has used and puts the log at the end of the disk; `balloc` takes the
lowest block that is not marked, up to the end of the disk. The log is not marked. As long as a
block below it is free, that one is taken; on a full disk the next block is the header of the log.
-/

namespace Xv6

namespace BlockUse

open Xv6.Mkfs (sb)

def IsData (b : Nat) : Prop := sb.dataStart ≤ b ∧ b < sb.logStart

def Room (s : BlockUse) : Prop := ∃ b < sb.logStart, s.used sb b = false

structure Inv (s : BlockUse) : Prop where
  ok : s.fs.Ok sb
  system : ∀ b < sb.dataStart, s.fs.core.bit sb b = true
  owned : ∀ b ∈ s.owned, IsData b
  handed : ∀ b ∈ s.handed, IsData b

variable {s s' : BlockUse}

theorem sb_fits : sb.Fits := ⟨by decide, by decide⟩

theorem after_eq_some {α : Type} {x : Kernel Fs α} {fs : Fs} {f : α → Fs → BlockUse}
    (h : after x fs f = some s') : ∃ a fs', x.run fs = .ok (a, fs') ∧ s' = f a fs' := by
  rw [after] at h
  split at h
  · rename_i a fs' hrun
    exact ⟨a, fs', hrun, (Option.some.inj h).symm⟩
  · cases h

theorem used_eq_bit (h : s.fs.Ok sb) {b : Nat} (hb : b < sb.size) :
    s.used sb b = s.fs.core.bit sb b := by
  rw [used, Core.bit, Fs.core_blk h (Fs.bblock_lt_logStart sb_fits hb)]

theorem room_iff (h : s.fs.Ok sb) :
    s.Room ↔ ∃ b < sb.logStart, s.fs.core.bit sb b = false := by
  refine exists_congr fun b => and_congr_right fun hb => ?_
  rw [used_eq_bit h (hb.trans_le Fs.logStart_le_size)]

theorem bit_setBlk {c : Core} {b x : Nat} (data : Block) (hx : x < sb.size)
    (hb : sb.dataStart ≤ b ∨ IsInodeBlock sb b) : (c.setBlk b data).bit sb x = c.bit sb x := by
  refine Core.bit_setBlk_of_ne (fun heq => ?_) data
  have hbitmap : sb.bblock x < sb.dataStart := bblock_lt_dataStart hx
  rcases hb with hdata | hinode
  · omega
  · have hlt := hinode.2
    rw [← heq] at hlt
    simp only [Superblock.bblock, bpb] at hlt
    omega

theorem spec_writeBlock {c : Core} {b : Nat} {data : Block} (hb : b < sb.logStart) (hone : b ≠ 1) :
    Fs.Spec sb (writeBlock b data) c fun _ c' => c' = c.setBlk b data :=
  Fs.spec_bread hb (Fs.spec_logged hb hone (Fs.spec_brelse b))

theorem isData_of_free (h : s.Inv) {b : Nat} (hb : b < sb.logStart)
    (hfree : s.fs.core.bit sb b = false) : IsData b := by
  refine ⟨?_, hb⟩
  by_contra hlt
  rw [h.system b (by omega)] at hfree
  cases hfree

theorem Inv.alloc (h : s.Inv) (hroom : s.Room) (hexec : s.exec sb .alloc = some s') : s'.Inv := by
  obtain ⟨b, fs', hrun, rfl⟩ := after_eq_some hexec
  have hone := h.system 1 (by decide)
  obtain ⟨hok, hlt, hfree, hcore⟩ :=
    Fs.spec_balloc sb_fits hone ((room_iff h.ok).mp hroom) s.fs h.ok rfl b fs' hrun
  have hdata := isData_of_free h hlt hfree
  refine ⟨hok, fun x hx => ?_, ?_, ?_⟩
  · have hsize : x < sb.size := hx.trans (by decide)
    change fs'.core.bit sb x = true
    rw [hcore, bit_setBlk _ hsize (Or.inl hdata.1), Core.bit_mark, h.system x hx, Bool.or_true]
  · exact List.forall_mem_cons.mpr ⟨hdata, h.owned⟩
  · exact List.forall_mem_cons.mpr ⟨hdata, h.handed⟩

theorem Inv.exec (h : s.Inv) {op : BlockOp} (hroom : op = .alloc → s.Room)
    (hexec : s.exec sb op = some s') : s'.Inv := by
  cases op with
  | begin =>
    obtain ⟨_, fs', hrun, rfl⟩ := after_eq_some hexec
    obtain ⟨hok, hcore⟩ := Fs.spec_beginTrans s.fs h.ok rfl _ fs' hrun
    exact ⟨hok, by rw [hcore]; exact h.system, h.owned, h.handed⟩
  | alloc => exact h.alloc (hroom rfl) hexec
  | free b =>
    simp only [BlockUse.exec] at hexec
    split at hexec
    · rename_i hmem
      obtain ⟨_, fs', hrun, rfl⟩ := after_eq_some hexec
      have hdata := h.owned b hmem
      obtain ⟨hok, -, hcore⟩ := Fs.spec_bfree sb_fits (hdata.2.trans_le Fs.logStart_le_size)
        s.fs h.ok rfl _ fs' hrun
      refine ⟨hok, fun x hx => ?_, fun x hx => h.owned x (List.mem_of_mem_erase hx), h.handed⟩
      have hne : b ≠ x := (hx.trans_le hdata.1).ne'
      change fs'.core.bit sb x = true
      rw [hcore, Core.bit_unmark, h.system x hx]
      simp [hne]
    · cases hexec
  | write b data =>
    simp only [BlockUse.exec] at hexec
    split at hexec
    · rename_i hmem
      obtain ⟨_, fs', hrun, rfl⟩ := after_eq_some hexec
      have harea : sb.dataStart ≤ b ∨ IsInodeBlock sb b :=
        hmem.imp_left fun hb => (h.owned b hb).1
      have hbound : b < sb.logStart ∧ b ≠ 1 := by
        have hnum : sb.dataStart = 29 ∧ sb.logStart = 1014 ∧ sb.ninodes / ipb + 3 = 28 := by
          decide
        rcases hmem with hb | hb
        · have hdata := h.owned b hb
          exact ⟨hdata.2, by have := hdata.1; omega⟩
        · have h1 := hb.1
          have h2 := hb.2
          omega
      obtain ⟨hok, hcore⟩ := spec_writeBlock hbound.1 hbound.2 s.fs h.ok rfl _ fs' hrun
      refine ⟨hok, fun x hx => ?_, h.owned, h.handed⟩
      change fs'.core.bit sb x = true
      rw [hcore, bit_setBlk _ (hx.trans (by decide)) harea, h.system x hx]
    · cases hexec
  | commit =>
    obtain ⟨_, fs', hrun, rfl⟩ := after_eq_some hexec
    obtain ⟨hok, hcore⟩ := Fs.spec_commitTrans sb_fits s.fs h.ok rfl _ fs' hrun
    exact ⟨hok, by rw [hcore]; exact h.system, h.owned, h.handed⟩

theorem ballocLoop_ensures {fs : Fs} (ks : List Nat) :
    (Fs.ballocLoop sb ks).Ensures fs fun b _ =>
      Fs.bitSet (fs.content (sb.bblock b)) (b % bpb) = false := by
  have htrue : ∀ {α : Type} (x : Kernel Fs α) (s : Fs), x.Ensures s fun _ _ => True :=
    fun _ _ _ _ _ => trivial
  induction ks generalizing fs with
  | nil => exact Kernel.ensures_panic _
  | cons k ks ih =>
    rw [Fs.ballocLoop]
    refine (Fs.bread_ensures _).bind ?_
    rintro _ s1 ⟨rfl, hsame⟩
    split
    · rename_i bi hfind
      obtain ⟨hclear, hmem, -⟩ := List.find?_range_eq_some.mp hfind
      have hbi : bi < bpb := by
        rw [List.mem_range] at hmem
        omega
      have hmod : (k * bpb + bi) % bpb = bi := by
        simp only [bpb] at hbi ⊢
        omega
      refine (htrue _ s1).bind fun _ s2 _ => (htrue _ s2).bind fun _ s3 _ =>
        (htrue _ s3).bind fun _ s4 _ => (htrue _ s4).bind fun _ _ _ => Kernel.ensures_pure ?_
      rw [Fs.bblock_add hbi, hmod]
      simpa using hclear
    · refine (Fs.brelse_ensures _).bind fun _ s2 hsame2 => ?_
      have hcontent : s2.content = fs.content := hsame2.content.trans hsame.content
      exact hcontent ▸ ih

theorem used_of_balloc (h : s.Inv) {b : Nat} {fs' : Fs}
    (hrun : Fs.balloc.run s.fs = .ok (b, fs')) : s.used sb b = false := by
  have hreadsb : Fs.readsb.Ensures s.fs fun r s' => r = sb ∧ s'.content = s.fs.content := by
    refine (Fs.bread_ensures 1).bind ?_
    rintro _ s1 ⟨rfl, h1⟩
    refine (Fs.brelse_ensures 1).bind fun _ s2 h2 => Kernel.ensures_pure ⟨h.ok.super, ?_⟩
    exact h2.content.trans h1.content
  have hballoc : Fs.balloc.Ensures s.fs fun b _ => s.used sb b = false := by
    refine hreadsb.bind ?_
    rintro _ s1 ⟨rfl, hcontent⟩
    refine (ballocLoop_ensures _).mono fun b _ hb => ?_
    rw [hcontent] at hb
    exact hb
  exact hballoc b fs' hrun

theorem Inv.alloc_iff (h : s.Inv) (hexec : s.exec sb .alloc = some s') :
    (∀ b ∈ s'.handed, IsData b) ↔ s.Room := by
  refine ⟨fun hdata => ?_, fun hroom => (h.alloc hroom hexec).handed⟩
  obtain ⟨b, fs', hrun, rfl⟩ := after_eq_some hexec
  exact ⟨b, (hdata b List.mem_cons_self).2, used_of_balloc h hrun⟩

theorem bitSet_bitmap (n b : Nat) : Fs.bitSet (Mkfs.bitmap n) b = decide (b < n) := by
  induction n with
  | zero => simp [Mkfs.bitmap, Fs.bitSet]
  | succ n ih =>
    rw [Mkfs.bitmap, Fs.bitSet_setBit, ih, ← Bool.decide_or, decide_eq_decide]
    omega

def boot (m : Mkfs) (fs : Fs) : BlockUse where
  fs := fs
  owned := List.range' sb.dataStart (m.freeblock - sb.dataStart)
  handed := []

section Boot

variable {files : List Mkfs.Input} {m m1 : Mkfs} {type : Nat → UInt16} {file : Nat → List UInt8}
  {fs : Fs}

theorem bitSet_img (hmade : Mkfs.Made files m1 type file m) {b : Nat} (hb : b < sb.size) :
    Fs.bitSet (m.img (sb.bblock b)) (b % bpb) = decide (b < m.freeblock) := by
  have hnum : sb.size = 1024 := rfl
  have hbblock : sb.bblock b = Mkfs.ninodes / ipb + 3 := by
    have hdiv : b / bpb = 0 := Nat.div_eq_of_lt (by simp only [bpb]; omega)
    rw [Superblock.bblock, hdiv, Nat.zero_add]
    rfl
  have hmod : b % bpb = b := Nat.mod_eq_of_lt (by simp only [bpb]; omega)
  have himg : m.img (Mkfs.ninodes / ipb + 3) = Mkfs.bitmap m1.freeblock := by
    rw [hmade.writes]
    simp [Mkfs.wrote]
  rw [hbblock, hmod, himg, bitSet_bitmap, hmade.freeblock]

theorem used_boot (hmade : Mkfs.Made files m1 type file m) (hboot : Fs.Booted m.img sb fs)
    {b : Nat} (hb : b < sb.size) : (boot m fs).used sb b = decide (b < m.freeblock) := by
  have hbblock : sb.bblock b ≠ sb.logStart := by
    have hnum : sb.size = 1024 := rfl
    have hdiv : b / bpb = 0 := Nat.div_eq_of_lt (by simp only [bpb]; omega)
    rw [Superblock.bblock, hdiv]
    decide
  rw [← bitSet_img hmade hb, ← hboot.content _ hbblock]
  rfl

theorem boot_inv (hmade : Mkfs.Made files m1 type file m) (hfree : m.freeblock ≤ sb.logStart)
    (hboot : Fs.Booted m.img sb fs) : (boot m fs).Inv := by
  have hok : fs.Ok sb := by
    refine ⟨by rw [hboot.log], ?_, by rw [hboot.log]; exact List.nodup_nil, ?_, ?_⟩
    · rw [hboot.content 1 (by decide), hmade.img_one]
    · rw [hboot.log]
      exact fun b hb => absurd hb List.not_mem_nil
    · rw [hboot.log]
      exact fun i b hb => by cases hb
  have hdata : sb.dataStart ≤ m.freeblock := hmade.freeblock ▸ hmade.image.dataStart_le
  refine ⟨hok, fun b hb => ?_, fun b hb => ?_, fun b hb => absurd hb List.not_mem_nil⟩
  · have hsize : b < sb.size := hb.trans (by decide)
    rw [← used_eq_bit hok hsize, used_boot hmade hboot hsize]
    exact decide_eq_true (hb.trans_le hdata)
  · obtain ⟨hle, hlt⟩ := List.mem_range'_1.mp hb
    exact ⟨hle, by omega⟩

theorem run_balloc_first (fs : Fs) (hquiet : fs.Quiet)
    (hlog : fs.log = { start := 1014, size := 10, busy := true, sectors := [] })
    (hsuper : Superblock.load (fs.content 1) = sb)
    {n : Nat} (hn : n = 31 ∨ n = 1014)
    (hbits : ∀ b < 1024, Fs.bitSet (fs.content 28) b = decide (b < n)) :
    ∃ fs', Fs.balloc.run fs = .ok (n, fs') := by
  have hlt : n < 1024 := by omega
  have hreadsb : Fs.readsb.run fs = .ok (sb, fs) := by
    rw [Fs.readsb, Fs.run_bread_brelse hquiet]
    exact congrArg (fun r => Except.ok (r, fs)) hsuper
  have hbitmap : sb.bblock (0 * bpb) = 28 := rfl
  have hfind : (List.range (min bpb (sb.size - 0 * bpb))).find?
      (fun bi => !Fs.bitSet (fs.content (sb.bblock (0 * bpb))) bi) = some n := by
    rw [hbitmap]
    refine List.find?_range_eq_some.mpr ⟨?_, List.mem_range.mpr hlt, fun j hj => ?_⟩
    · rw [hbits n hlt, decide_eq_false (Nat.lt_irrefl n)]
      rfl
    · rw [hbits j (by omega), decide_eq_true hj]
      rfl
  rw [Fs.balloc, Kernel.run_bind_of_ok hreadsb]
  change ∃ fs', (Fs.ballocLoop sb [0]).run fs = .ok (n, fs')
  rw [Fs.ballocLoop, Kernel.run_bind_of_ok (Fs.run_bread hquiet _), hfind]
  obtain ⟨content, held, dirty, log, icache⟩ := fs
  obtain rfl : held = [] := hquiet.held
  obtain rfl : dirty = [] := hquiet.dirty
  obtain rfl : log = _ := hlog
  rcases hn with rfl | rfl
  · exact ⟨_, rfl⟩
  · exact ⟨_, rfl⟩

/-- The first transaction after the boot takes the block at which `mkfs` stopped. -/
theorem exec_boot_alloc (hmade : Mkfs.Made files m1 type file m) (hboot : Fs.Booted m.img sb fs)
    (hn : m.freeblock = 31 ∨ m.freeblock = 1014) : ∃ s1 s2,
      (boot m fs).exec sb .begin = some s1 ∧ s1.used sb = (boot m fs).used sb ∧
        s1.exec sb .alloc = some s2 ∧ s2.handed = [m.freeblock] := by
  generalize hfs1 : ({ fs with log := { fs.log with busy := true } } : Fs) = fs1
  have hbegin : Fs.beginTrans.run fs = .ok ((), fs1) := by
    rw [Fs.beginTrans, Kernel.run_get_bind, if_neg (by rw [hboot.log]; decide), ← hfs1]
    rfl
  have hcontent : fs1.content = fs.content := by rw [← hfs1]
  obtain ⟨fs2, halloc⟩ := run_balloc_first fs1
    (by rw [← hfs1]; exact ⟨hboot.quiet.held, hboot.quiet.dirty⟩)
    (by rw [← hfs1]; simp only [hboot.log]; rfl)
    (by rw [hcontent, hboot.content 1 (by decide), hmade.img_one]) hn
    (fun b hb => by
      have hused := used_boot hmade hboot (b := b) hb
      rw [hcontent, ← hused, used]
      have hdiv : b / bpb = 0 := Nat.div_eq_of_lt (by simp only [bpb]; omega)
      have hmod : b % bpb = b := Nat.mod_eq_of_lt (by simp only [bpb]; omega)
      rw [Superblock.bblock, hdiv, hmod]
      rfl)
  refine ⟨{ boot m fs with fs := fs1 },
    ⟨fs2, m.freeblock :: (boot m fs).owned, [m.freeblock]⟩, ?_, ?_, ?_, rfl⟩
  · simp only [exec, after, boot, hbegin]
  · funext b
    simp only [used, boot, hcontent]
  · simp only [exec, after, halloc]
    rfl

end Boot

def RoomStep (s : BlockUse) (op : BlockOp) (s' : BlockUse) : Prop :=
  s.exec sb op = some s' ∧ (op = .alloc → s.Room)

/-- **Blocks handed out.** On every image of `mkfs`, in every run of transactions in which each
allocation finds a free block below the log, all blocks handed out are data blocks; and the next
allocation hands out a data block exactly if there is such a block. -/
theorem balloc_data_iff_room (files : List Mkfs.Input) (hfits : Mkfs.Fits files) :
    ∃ m fs, (Mkfs.main files).run Mkfs.start = .ok ((), m) ∧
      Fs.initlog.run (Fs.mounted m.img) = .ok ((), fs) ∧
      ∀ ops s, Run RoomStep (boot m fs) ops s →
        (∀ b ∈ s.handed, IsData b) ∧
          ∀ s', s.exec sb .alloc = some s' → ((∀ b ∈ s'.handed, IsData b) ↔ s.Room) := by
  obtain ⟨m, fs, m1, type, file, hmain, hinit, -, hfree, hmade, -, hboot⟩ := Mkfs.boots hfits
  refine ⟨m, fs, hmain, hinit, fun ops s hrun => ?_⟩
  have hinv : s.Inv := Run.invariant Inv (fun _ _ _ h hstep => h.exec hstep.2 hstep.1)
    (boot_inv hmade hfree hboot) hrun
  exact ⟨hinv.handed, fun s' hexec => hinv.alloc_iff hexec⟩

def letter : Mkfs.Input := { name := [97], chunks := [[7]], nul := by decide }

theorem letter_fits : Mkfs.Fits [letter] := by
  refine ⟨fun f hf => ?_, by decide, by decide⟩
  obtain rfl := List.mem_singleton.mp hf
  exact ⟨by decide, by decide⟩

/-- With a file of one byte on the disk, blocks 29 and 30 are used and 31 is handed out. -/
theorem balloc_data_iff_room_letter : ∃ m fs s,
    (Mkfs.main [letter]).run Mkfs.start = .ok ((), m) ∧
      Fs.initlog.run (Fs.mounted m.img) = .ok ((), fs) ∧
      Run RoomStep (boot m fs) [.begin, .alloc] s ∧ s.handed = [31] ∧ IsData 31 := by
  obtain ⟨m, fs, m1, type, file, hmain, hinit, hcount, -, hmade, -, hboot⟩ :=
    Mkfs.boots letter_fits
  have hfirst : m.freeblock = 31 := by
    rw [hcount]
    rfl
  obtain ⟨s1, s2, hbegin, hused, halloc, hhanded⟩ := exec_boot_alloc hmade hboot (Or.inl hfirst)
  have hroom : s1.Room := ⟨31, by decide, by
    rw [hused, used_boot hmade hboot (by decide), hfirst]
    rfl⟩
  have hrun : Run RoomStep (boot m fs) [.begin, .alloc] s2 :=
    .cons ⟨hbegin, fun h => by cases h⟩ (.cons ⟨halloc, fun _ => hroom⟩ (.nil s2))
  rw [hfirst] at hhanded
  obtain ⟨m', fs', hmain', hinit', hruns⟩ := balloc_data_iff_room [letter] letter_fits
  obtain rfl : m = m' := (Prod.mk.inj (Except.ok.inj (hmain.symm.trans hmain'))).2
  obtain rfl : fs = fs' := (Prod.mk.inj (Except.ok.inj (hinit.symm.trans hinit'))).2
  exact ⟨m, fs, s2, hmain, hinit, hrun, hhanded,
    (hruns _ s2 hrun).1 31 (by rw [hhanded]; exact List.mem_singleton.mpr rfl)⟩

def zeros (c : UInt8) (n : Nat) (hc : (0 : UInt8) ∉ [c]) : Mkfs.Input :=
  { name := [c], chunks := List.replicate n (List.replicate 512 0), nul := hc }

def fullDisk : List Mkfs.Input :=
  [zeros 97 140 (by decide), zeros 98 140 (by decide), zeros 99 140 (by decide),
   zeros 100 140 (by decide), zeros 101 140 (by decide), zeros 102 140 (by decide),
   zeros 103 137 (by decide)]

theorem length_zeros (c : UInt8) (n : Nat) (hc : (0 : UInt8) ∉ [c]) :
    (zeros c n hc).bytes.length = n * 512 := by
  rw [Mkfs.Input.bytes, zeros, List.length_flatten, List.map_replicate, List.length_replicate,
    List.sum_replicate_nat]

theorem blocksOf_fullDisk : Mkfs.blocksOf fullDisk = 984 := by
  simp only [Mkfs.blocksOf, fullDisk, List.map_cons, List.map_nil, length_zeros]
  rfl

theorem fullDisk_fits : Mkfs.Fits fullDisk := by
  refine ⟨fun f hf => ?_, by decide, ?_⟩
  · simp only [fullDisk, List.mem_cons, List.not_mem_nil, or_false] at hf
    rcases hf with rfl | rfl | rfl | rfl | rfl | rfl | rfl <;>
      exact ⟨by decide, by rw [length_zeros]; decide⟩
  · rw [blocksOf_fullDisk]
    decide

/-- On a full disk the first allocation returns the first block of the log. -/
theorem balloc_log_header : ∃ m fs s,
    Mkfs.Fits fullDisk ∧ (Mkfs.main fullDisk).run Mkfs.start = .ok ((), m) ∧
      Fs.initlog.run (Fs.mounted m.img) = .ok ((), fs) ∧
      Run (fun s op s' => s.exec sb op = some s') (boot m fs) [.begin, .alloc] s ∧
      s.handed = [1014] ∧ sb.logStart = 1014 ∧ ¬IsData 1014 := by
  obtain ⟨m, fs, m1, type, file, hmain, hinit, hcount, hfree, hmade, -, hboot⟩ :=
    Mkfs.boots fullDisk_fits
  have hfull : m.freeblock = 1014 := by
    rw [hcount, blocksOf_fullDisk]
    rfl
  obtain ⟨s1, s2, hbegin, -, halloc, hhanded⟩ := exec_boot_alloc hmade hboot (Or.inr hfull)
  rw [hfull] at hhanded
  exact ⟨m, fs, s2, fullDisk_fits, hmain, hinit, .cons hbegin (.cons halloc (.nil s2)), hhanded,
    rfl, fun h => absurd h.2 (by decide)⟩

end BlockUse

end Xv6
