import Xv6.Proof.FsProgress
import Xv6.Proof.FsReadi
import Xv6.Proof.SharedWrite

/-!
# Splice and slice

A file is the list of its bytes. `writei` replaces a part of it, or extends it, and leaves every
other file alone; `readi` returns a part of it. A write has to fit into the transaction it is part
of: the log panics on the block that does not fit.
-/

namespace Xv6

namespace View

def content (v : View) (i : Nat) : List UInt8 := (List.range (v.size i)).map (v.byte i)

variable {v v' : View} {i : Nat}

theorem length_content (v : View) (i : Nat) : (v.content i).length = v.size i := by
  rw [content, List.length_map, List.length_range]

theorem getElem?_content (v : View) (i x : Nat) :
    (v.content i)[x]? = if x < v.size i then some (v.byte i x) else none := by
  rw [content, List.getElem?_map]
  split
  · rename_i hx
    rw [List.getElem?_range hx, Option.map_some]
  · rename_i hx
    rw [List.getElem?_eq_none (by rw [List.length_range]; omega), Option.map_none]

theorem content_congr (hsize : v'.size i = v.size i)
    (hbyte : ∀ x < v.size i, v'.byte i x = v.byte i x) : v'.content i = v.content i := by
  rw [content, content, hsize]
  exact List.map_congr_left fun x hx => hbyte x (List.mem_range.mp hx)

end View

namespace Fs

open Xv6.Core

variable {sb : Superblock} {s : Fs} {c c' c1 : Core} {ip : Fin ninode} {b : Nat} {β : Type}

theorem slice_eq_content (v : View) (i off n : Nat) :
    slice v i off n = ((v.content i).drop off).take n := by
  refine List.ext_getElem? fun k => ?_
  rw [slice, List.getElem?_map, List.getElem?_take, List.getElem?_drop, View.getElem?_content]
  by_cases hk : k < min n (v.size i - off)
  · rw [List.getElem?_range hk, if_pos (by omega), if_pos (by omega), Option.map_some]
  · rw [List.getElem?_eq_none (by rw [List.length_range]; omega), Option.map_none]
    split
    · rw [if_neg (by omega)]
    · rfl

def splice (l : List UInt8) (off : Nat) (p : List UInt8) : List UInt8 :=
  l.take off ++ p ++ l.drop (off + p.length)

theorem getElem?_splice {l p : List UInt8} {off : Nat} (hoff : off ≤ l.length) (x : Nat) :
    (splice l off p)[x]? =
      if off ≤ x ∧ x < off + p.length then p[x - off]? else l[x]? := by
  rw [splice, List.append_assoc]
  by_cases hx : x < off
  · rw [List.getElem?_append_left (by rw [List.length_take]; omega), List.getElem?_take, if_pos hx,
      if_neg (by omega)]
  · rw [List.getElem?_append_right (by rw [List.length_take]; omega), List.length_take,
      Nat.min_eq_left hoff]
    by_cases hp : x < off + p.length
    · rw [List.getElem?_append_left (by omega), if_pos ⟨by omega, hp⟩]
    · rw [List.getElem?_append_right (by omega), List.getElem?_drop, if_neg (by omega)]
      congr 1
      omega

theorem pinned_of_held (hheld : s.held = []) : s.pinned = s.dirty.length := by
  rw [pinned, hheld]
  simp

theorem shows_of_opened (hok : s.Ok sb) (ho : Opened sb s.core ip) (hheld : s.held = [])
    (hdirty : s.dirty.length < nbuf) : Shows s ip (s.core.view sb) (s.icache ip).inum := by
  have hino : (s.core.view sb).ino (s.icache ip).inum = (s.icache ip).d := ho.view_ino
  refine ⟨hheld, by rwa [pinned_of_held hheld], by rw [hino], fun k hne => ?_⟩
  obtain ⟨hdata, hlog⟩ := slot_area ho hne
  exact ((view_blk hdata hlog).trans (core_blk hok hlog)).symm

theorem run_readi_there (hok : s.Ok sb) (ho : Opened sb s.core ip)
    (hdev : (s.icache ip).d.type ≠ tDev) (hheld : s.held = []) (hdirty : s.dirty.length < nbuf)
    (off n : Nat) :
    (readi ip off n).run s = .ok (if (s.core.view sb).size (s.icache ip).inum < off ∨
      2 ^ 32 ≤ off + n then none
      else some ((((s.core.view sb).content (s.icache ip).inum).drop off).take n), s) := by
  have hsize : (s.core.view sb).size (s.icache ip).inum = (s.icache ip).d.size.toNat := by
    have hino : (s.core.view sb).ino (s.icache ip).inum = (s.icache ip).d := ho.view_ino
    rw [View.size, hino]
  rw [readi, Kernel.run_get_bind]
  dsimp only
  rw [if_neg hdev, hsize]
  split
  · rfl
  · rename_i hbad
    obtain ⟨m, hm⟩ : ∃ m, m = min n ((s.icache ip).d.size.toNat - off) := ⟨_, rfl⟩
    have hcut : (if (s.icache ip).d.size.toNat < off + n then (s.icache ip).d.size.toNat - off
        else n) = m := by
      split <;> omega
    have hloop : (readLoop ip m off m).run s = .ok ((List.range m).map fun k =>
        (s.core.view sb).byte (s.icache ip).inum (off + k), s) := by
      refine run_readLoop (shows_of_opened hok ho hheld hdirty) m le_rfl fun x hx hlt => ?_
      have hx' : x < (s.core.view sb).size (s.icache ip).inum := by omega
      exact ho.good.sound.full _ _ ho.ino_type ((Nat.div_mul_le_self x bsize).trans_lt hx')
    rw [hcut, Kernel.run_bind_of_ok hloop, Kernel.run_pure, ← slice_eq_content, slice, hsize, hm]

section Contents

variable {off : Nat} {p : List UInt8} {n : Nat}

theorem content_written (ho : Opened sb c ip) (hw : Written sb ip off p c c1)
    (hres : Resized sb ip (max (c.icache ip).d.size.toNat (off + p.length)) c1 c')
    (hoff : off ≤ (c.icache ip).d.size.toNat) :
    (c'.view sb).content (c.icache ip).inum =
      splice ((c.view sb).content (c.icache ip).inum) off p := by
  obtain ⟨d, -, -, hsize, haddrs, hview⟩ := hres.entry
  rw [hw.inum] at haddrs hview
  have hold : (c.view sb).size (c.icache ip).inum = (c.icache ip).d.size.toNat := by
    rw [View.size, ho.view_ino]
  have hnew : (c'.view sb).size (c.icache ip).inum =
      max (c.icache ip).d.size.toNat (off + p.length) := by
    rw [hview, ← hsize, View.size, View.setIno]
    simp
  have hbyte : ∀ x, (c'.view sb).byte (c.icache ip).inum x =
      (c1.view sb).byte (c.icache ip).inum x := fun x => by
    rw [hview, View.byte_setIno haddrs]
  refine List.ext_getElem? fun x => ?_
  rw [getElem?_splice (by rw [View.length_content]; omega), View.getElem?_content,
    View.getElem?_content, hnew, hold, hbyte]
  by_cases hin : off ≤ x ∧ x < off + p.length
  · have hhere := (hw.here (x - off) (by omega)).2
    rw [Nat.add_sub_cancel' hin.1, List.getD_eq_getElem _ _ (by omega)] at hhere
    rw [if_pos (by omega), if_pos hin, hhere, List.getElem?_eq_getElem]
  · rw [if_neg hin]
    by_cases hx : x < (c.icache ip).d.size.toNat
    · have hne := ho.good.sound.full (c.icache ip).inum (x / bsize) ho.ino_type
        ((Nat.div_mul_le_self x bsize).trans_lt (by omega))
      rw [if_pos (by omega), if_pos hx, hw.byte _ x ho.ino_type hne fun _ => by omega]
    · rw [if_neg (by omega), if_neg hx]

theorem content_other (ho : Opened sb c ip) (hw : Written sb ip off p c c1)
    (hres : Resized sb ip n c1 c') {j : Nat} (hj : j ≠ (c.icache ip).inum)
    (htype : ((c.view sb).ino j).type ≠ 0) :
    (c'.view sb).ino j = (c.view sb).ino j ∧
      (c'.view sb).content j = (c.view sb).content j := by
  obtain ⟨d, -, -, -, haddrs, hview⟩ := hres.entry
  rw [hw.inum] at haddrs hview
  have hino : (c'.view sb).ino j = (c.view sb).ino j := by
    rw [hview, View.setIno]
    exact (Function.update_of_ne hj ..).trans (hw.other j hj)
  refine ⟨hino, View.content_congr (by rw [View.size, hino, View.size]) fun x hx => ?_⟩
  have hne := ho.good.sound.full j (x / bsize) htype
    ((Nat.div_mul_le_self x bsize).trans_lt hx)
  rw [hview, View.byte_setIno haddrs, hw.byte j x htype hne fun heq => absurd heq hj]

end Contents

/-- On a file that is open, in a file system that is sound: `writei` fails exactly on the bad
ranges, and then changes nothing; else it splices the bytes in, given free blocks and room in the
transaction. `readi` fails exactly on its bad ranges, and else returns the slice. -/
theorem writei_splices_readi_slices (hfits : sb.Fits) (hok : s.Ok sb) (ho : Opened sb s.core ip)
    (hdev : (s.icache ip).d.type ≠ tDev) (off n : Nat) (src : List UInt8) :
    ((s.core.view sb).size (s.icache ip).inum < off ∨ 2 ^ 32 ≤ off + src.length ∨
        maxfile * bsize < off + src.length → (writei ip src off).run s = .ok (none, s)) ∧
    (¬((s.core.view sb).size (s.icache ip).inum < off ∨ 2 ^ 32 ≤ off + src.length ∨
        maxfile * bsize < off + src.length) →
      (src ≠ [] → needed (s.core.view sb) (s.icache ip).inum (off / bsize)
        (span off src.length) ≤ (s.core.view sb).room sb ∧ Begun sb ip (span off src.length) s) →
      ∃ s', (writei ip src off).run s = .ok (some src.length, s') ∧ s'.Ok sb ∧
        Opened sb s'.core ip ∧
        (s'.core.view sb).size (s.icache ip).inum =
          max ((s.core.view sb).size (s.icache ip).inum) (off + src.length) ∧
        (s'.core.view sb).content (s.icache ip).inum =
          splice ((s.core.view sb).content (s.icache ip).inum) off src ∧
        ∀ j ≠ (s.icache ip).inum, ((s.core.view sb).ino j).type ≠ 0 →
          (s'.core.view sb).ino j = (s.core.view sb).ino j ∧
          (s'.core.view sb).content j = (s.core.view sb).content j) ∧
    (s.held = [] → s.dirty.length < nbuf → (readi ip off n).run s =
      .ok (if (s.core.view sb).size (s.icache ip).inum < off ∨ 2 ^ 32 ≤ off + n then none
        else some ((((s.core.view sb).content (s.icache ip).inum).drop off).take n), s)) := by
  have hsize : (s.core.view sb).size (s.icache ip).inum = (s.icache ip).d.size.toNat := by
    have hino : (s.core.view sb).ino (s.icache ip).inum = (s.icache ip).d := ho.view_ino
    rw [View.size, hino]
  refine ⟨fun hbad => ?_, fun hgood hfree => ?_, fun hheld hdirty =>
    run_readi_there hok ho hdev hheld hdirty off n⟩
  · rw [hsize] at hbad
    rw [writei, Kernel.run_get_bind]
    dsimp only
    rw [if_neg hdev]
    split
    · rfl
    · rw [if_pos (by omega)]
      rfl
  · rw [hsize] at hgood
    obtain ⟨r, s', hrun, hok', rfl, c1, hw, hres⟩ := returns_writei hfits hok src off ho hdev
      (by omega) (by omega) (fun hne => (hfree hne).1) fun hne => (hfree hne).2
    have hoff : off ≤ (s.core.icache ip).d.size.toNat := by
      change off ≤ (s.icache ip).d.size.toNat
      omega
    have hcontent := content_written ho hw hres hoff
    refine ⟨s', hrun, hok', hres.opened, ?_, hcontent, fun j hj htype =>
      content_other ho hw hres hj htype⟩
    have hsize' : (s.core.view sb).size (s.core.icache ip).inum =
        (s.core.icache ip).d.size.toNat := hsize
    change (s'.core.view sb).size (s.core.icache ip).inum =
      max ((s.core.view sb).size (s.core.icache ip).inum) (off + src.length)
    rw [← View.length_content, hcontent, splice]
    simp only [List.length_append, List.length_take, List.length_drop, View.length_content]
    omega

def smallBegun : Fs :=
  { (FileWrite.small 31).fs with log := { (FileWrite.small 31).fs.log with busy := true } }

/-- Bytes are written to the empty file and are its content. -/
theorem writei_splices_small : ∃ s',
    (writei FileWrite.firstEntry [7, 8, 9] 0).run smallBegun = .ok (some 3, s') ∧
      (s'.core.view FileWrite.smallDisk).content 1 = [7, 8, 9] := by
  have hstart := FileWrite.start_small (Or.inl rfl)
  have hok : smallBegun.Ok FileWrite.smallDisk := ⟨rfl, rfl, List.nodup_nil, nofun, nofun⟩
  have hempty : (smallBegun.core.view FileWrite.smallDisk).content 1 = [] := by decide
  have hbegun : Begun FileWrite.smallDisk FileWrite.firstEntry (span 0 3) smallBegun :=
    ⟨rfl, rfl, List.nodup_nil, nofun, by decide, by decide +kernel⟩
  obtain ⟨s', hrun, -, -, -, hcontent, -⟩ :=
    (writei_splices_readi_slices FileWrite.smallDisk_fits hok hstart.opened hstart.dev 0 0
      [7, 8, 9]).2.1
      (by decide) fun _ => ⟨by decide +kernel, hbegun⟩
  refine ⟨s', hrun, hcontent.trans ?_⟩
  change splice ((smallBegun.core.view FileWrite.smallDisk).content 1) 0 [7, 8, 9] = [7, 8, 9]
  rw [hempty]
  rfl

/-! ### A write that does not fit

A disk with 17 blocks for data and the log from block 22 on; inode 1 is an empty file. -/

def wideDisk : Superblock := { size := 32, nblocks := 17, ninodes := 8, nlog := 10 }

def wideContent (b : Nat) : Block :=
  if b = 1 then putLE (putLE (putLE (putLE (fun _ => 0) 0 4 32) 4 4 17) 8 4 8) 12 4 10
  else FileWrite.smallContent 31 b

def wide : Fs where
  content := wideContent
  held := []
  dirty := []
  log := { start := 22, size := 10, busy := true, sectors := [] }
  icache := (FileWrite.small 31).fs.icache

theorem wide_opened : Opened wideDisk wide.core FileWrite.firstEntry := by
  have hino : ∀ i : Fin 8, (wide.core.ino i).size = 0 ∧ ∀ k, (wide.core.ino i).addrs k = 0 := by
    decide
  have hsystem : ∀ b < wideDisk.dataStart, (wide.core.view wideDisk).bit b = true := by
    decide
  have hcache := FileWrite.cacheOk_small 31
  exact ⟨⟨⟨hcache.unique, hcache.range⟩,
    FileWrite.sound_of_empty_inodes hsystem fun i hi => hino ⟨i, hi⟩⟩,
    by decide, by decide⟩

def panicOf {α : Type} : Except String (α × Fs) → Option String
  | .error msg => some msg
  | .ok _ => none

theorem eq_error_of_panicOf {α : Type} {r : Except String (α × Fs)} {msg : String}
    (h : panicOf r = some msg) : r = .error msg := by
  cases r with
  | error m => rw [Option.some.inj h]
  | ok _ => cases h

/-- Eight blocks and the bitmap fill the log, and `writei` panics, although blocks are free. -/
theorem writei_panics_wide : wideDisk.Fits ∧ wide.Ok wideDisk ∧
    Opened wideDisk wide.core FileWrite.firstEntry ∧
    (wide.icache FileWrite.firstEntry).d.type ≠ tDev ∧
    (wide.core.view wideDisk).size 1 = 0 ∧ 0 + 4096 ≤ maxfile * bsize ∧
    needed (wide.core.view wideDisk) 1 0 (span 0 4096) ≤ (wide.core.view wideDisk).room wideDisk ∧
    (writei FileWrite.firstEntry (List.replicate 4096 7) 0).run wide =
      .error "too big a transaction" :=
  ⟨⟨by decide, by decide⟩, ⟨rfl, rfl, List.nodup_nil, nofun, nofun⟩, wide_opened, by decide,
    by decide, by decide, by decide +kernel, eq_error_of_panicOf (by decide +kernel)⟩

end Fs

end Xv6
