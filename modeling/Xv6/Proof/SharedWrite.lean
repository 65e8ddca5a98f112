import Xv6.FileWrite
import Xv6.Proof.FsWrite

/-!
# No write through a shared file is lost

As long as each round finds free blocks below the log for what it adds to the file, the bytes from
the first offset on are the pieces in the order of their transactions, and the pieces of a process
are its data in order. Without the free blocks `balloc` hands out a block of the log.
-/

namespace Xv6

namespace Fs

open Xv6.Core

variable {sb : Superblock} {c c' : Core} {ip : Fin ninode}

theorem view_setBusy (ho : Opened sb c ip) (b : Bool) :
    (c.setInode ip { c.icache ip with busy := b }).view sb = c.view sb := by
  have hinum : ({ c.icache ip with busy := b } : Inode).inum = (c.icache ip).inum := rfl
  refine (view_setInode ho.good.cache ho.live hinum ho.live.1 ho.live.2).trans ?_
  change (c.view sb).setIno (c.icache ip).inum (c.icache ip).d = c.view sb
  rw [View.setIno, ← ho.view_ino, Function.update_eq_self]

theorem opened_setBusy (ho : Opened sb c ip) (b : Bool) :
    Opened sb (c.setInode ip { c.icache ip with busy := b }) ip := by
  have hself : (c.setInode ip { c.icache ip with busy := b }).icache ip =
      { c.icache ip with busy := b } := Function.update_self ..
  refine ⟨⟨cacheOk_setInode ho.good.cache rfl fun h => h, ?_⟩, ?_, ?_⟩
  · rw [view_setBusy ho]
    exact ho.good.sound
  · rw [Live, hself]
    exact ho.live
  · rw [hself]
    exact ho.type

theorem spec_writePiece (hfits : sb.Fits) {src : List UInt8} {off : Nat} (ho : Opened sb c ip)
    (hdev : (c.icache ip).d.type ≠ tDev) (hoff : off ≤ (c.icache ip).d.size.toNat)
    (hmax : off + src.length ≤ maxfile * bsize)
    (hroom : needed (c.view sb) (c.icache ip).inum (off / bsize) (span off src.length) ≤
      (c.view sb).room sb) :
    Spec sb (FileWrite.writePiece ip src off) c fun r c' =>
      r = some src.length ∧ Stored sb ip off src c c' := by
  refine spec_beginTrans.next fun _ => ?_
  refine (spec_ilock hfits (ho.good.cache.range ip ho.live.1)).bind ?_
  rintro _ _ ⟨-, hbusy, -, rfl⟩
  have hlocked : c.locked ip = { c.icache ip with busy := true } := by
    have hvalid := ho.live.2
    simp only [locked, hvalid, if_true]
  rw [hlocked]
  have ho1 := opened_setBusy ho true
  have hview1 := view_setBusy ho true
  generalize hc1 : c.setInode ip { c.icache ip with busy := true } = c1 at ho1 hview1
  have hself : c1.icache ip = { c.icache ip with busy := true } := by
    rw [← hc1]
    exact Function.update_self ..
  refine (spec_writei hfits src off ho1 ?_ ?_ hmax fun _ => ?_).bind ?_
  · rw [hself]
    exact hdev
  · rw [hself]
    exact hoff
  · rw [hself, hview1]
    exact hroom
  rintro _ c2 ⟨rfl, hstored⟩
  refine (spec_iunlock ip).bind ?_
  rintro _ _ ⟨-, -, rfl⟩
  refine (spec_commitTrans hfits).next fun _ => spec_pure ⟨rfl, ?_⟩
  have hview3 := view_setBusy hstored.opened false
  obtain ⟨d, hentry, htype, hsize⟩ := hstored.entry
  have hbyte := hstored.byte
  have hhere := hstored.here
  rw [hself] at hentry htype hsize
  rw [hself, hview1] at hbyte
  rw [hself] at hhere
  refine ⟨opened_setBusy hstored.opened false, ⟨d, ?_, htype, hsize⟩, ?_, ?_⟩
  · rw [hentry, ← hbusy]
    exact Function.update_self ..
  · rw [hview3]
    exact hbyte
  · rw [hview3]
    exact hhere

theorem fileByte_eq {s : Fs} (hok : s.Ok sb) (ho : Opened sb s.core ip) {x : Nat}
    (hx : x < (s.icache ip).d.size.toNat) :
    s.fileByte ip x = (s.core.view sb).byte (s.icache ip).inum x := by
  have hic : s.core.icache = s.icache := rfl
  have hsize : (s.core.view sb).size (s.icache ip).inum = (s.icache ip).d.size.toNat := by
    have hino := ho.view_ino
    rw [hic] at hino
    rw [View.size, hino]
  have hbs : bsize = 512 := rfl
  have htype := ho.ino_type
  rw [hic] at htype
  have hne : (s.core.view sb).addr (s.icache ip).inum (x / bsize) ≠ 0 :=
    ho.good.sound.full _ _ htype (by rw [hsize, hbs]; omega)
  have hfit := ho.good.sound.fits _ htype
  have hbn : x / bsize < maxfile := by
    rw [Nat.div_lt_iff_lt_mul (by decide)]
    omega
  obtain ⟨hdata, hlog⟩ := slot_area ho hne
  have hblock : s.blockOf (s.icache ip).d (x / bsize) =
      (s.core.view sb).addr (s.icache ip).inum (x / bsize) := by
    rw [blockOf]
    split
    · rename_i hdirect
      have hslot := slot_of_opened ho ⟨x / bsize, by omega⟩
      exact hslot.symm.trans (View.addr_direct _ hdirect).symm
    · rename_i hdirect
      have hind : (s.core.view sb).slot (s.core.icache ip).inum ndirect ≠ 0 :=
        hic ▸ (View.indirect_of_addr hdirect hne).1
      have haddr := addr_of_indirect ho hdirect hbn hind
      obtain ⟨-, hindlog⟩ := slot_area ho hind
      have hslot : (s.core.view sb).slot (s.core.icache ip).inum ndirect =
          ((s.core.icache ip).d.addrs (Fin.last ndirect)).toNat :=
        slot_of_opened ho (Fin.last ndirect)
      rw [core_blk hok hindlog, hslot] at haddr
      exact haddr.symm
  have hblk : (s.core.view sb).blk ((s.core.view sb).addr (s.icache ip).inum (x / bsize)) =
      s.content ((s.core.view sb).addr (s.icache ip).inum (x / bsize)) :=
    (view_blk hdata hlog).trans (core_blk hok hlog)
  rw [fileByte, hblock, View.byte, hblk]

end Fs

namespace FileWrite

open Fs Xv6.Core

variable {sb : Superblock} {ip : Fin ninode} {o : Nat} {s s' : State}

/-- Before a round that writes: the file stays below the largest size, and the blocks it adds to the
file are free below the log. -/
def Fits (sb : Superblock) (ip : Fin ninode) (s : State) : Act → Prop
  | .call _ _ => True
  | .round p => ∀ c, s.calls p = some c → c.i < c.data.length →
    s.off + c.piece.length ≤ maxfile * bsize ∧
    needed (s.fs.core.view sb) (s.fs.icache ip).inum (s.off / bsize)
      (span s.off c.piece.length) ≤ (s.fs.core.view sb).room sb

structure Inv (sb : Superblock) (ip : Fin ninode) (o : Nat) (s : State) : Prop where
  ok : s.fs.Ok sb
  opened : Opened sb s.fs.core ip
  dev : (s.fs.icache ip).d.type ≠ tDev
  off : s.off = o + s.text.length
  size : s.off ≤ (s.fs.icache ip).d.size.toNat
  bytes : ∀ k, k < s.text.length →
    (s.fs.core.view sb).byte (s.fs.icache ip).inum (o + k) = s.text.getD k 0
  order : ∀ p, s.textOf p = s.doneBy p ++ s.doing p
  cut : ∀ q ∈ s.pieces, q.2 ≠ [] ∧ q.2.length ≤ maxWrite
  results : ∀ q ∈ s.returned, q.2.2 = (q.2.1.length : Int)
  calls : ∀ p c, s.calls p = some c → c.i ≤ c.data.length

theorem Inv.call (h : Inv sb ip o s) {p : Nat} {data : List UInt8} (hnone : s.calls p = none) :
    Inv sb ip o
      { s with calls := Function.update s.calls p (some { data := data, i := 0 }) } where
  ok := h.ok
  opened := h.opened
  dev := h.dev
  off := h.off
  size := h.size
  bytes := h.bytes
  order q := by
    refine (h.order q).trans (congrArg _ ?_)
    by_cases hq : q = p
    · subst hq
      simp only [State.doing, Function.update_self, hnone, List.take_zero]
    · simp only [State.doing, Function.update_of_ne hq]
  cut := h.cut
  results := h.results
  calls q c hc := by
    by_cases hq : q = p
    · subst hq
      simp only [Function.update_self, Option.some.injEq] at hc
      rw [← hc]
      exact Nat.zero_le _
    · simp only [Function.update_of_ne hq] at hc
      exact h.calls q c hc

theorem Inv.finish (h : Inv sb ip o s) {p : Nat} {c : Call} (hcall : s.calls p = some c)
    (hdone : ¬c.i < c.data.length) : Inv sb ip o (s.finish p c.data c.data.length) where
  ok := h.ok
  opened := h.opened
  dev := h.dev
  off := h.off
  size := h.size
  bytes := h.bytes
  order q := by
    refine (h.order q).trans ?_
    by_cases hq : q = p
    · subst hq
      have htake := List.take_of_length_le (not_lt.mp hdone)
      simp [State.doing, State.doneBy, State.finish, hcall, htake]
    · have hne : ¬p = q := fun heq => hq heq.symm
      simp [State.doing, State.doneBy, State.finish, Function.update_of_ne hq, hne]
  cut := h.cut
  results q hq := by
    rcases List.mem_append.mp hq with hq | hq
    · exact h.results q hq
    · rw [List.mem_singleton.mp hq]
  calls q c' hc := by
    by_cases hq : q = p
    · subst hq
      simp [State.finish] at hc
    · simp only [State.finish, Function.update_of_ne hq] at hc
      exact h.calls q c' hc

theorem Call.length_piece (c : Call) :
    c.piece.length = min maxWrite (c.data.length - c.i) := by
  rw [piece, List.length_take, List.length_drop]

theorem Call.take_piece (c : Call) :
    c.data.take c.i ++ c.piece = c.data.take (c.i + c.piece.length) := by
  rw [List.take_add, length_piece, piece]
  congr 1
  rw [List.take_eq_take_iff, List.length_drop]
  omega

theorem Inv.advance (h : Inv sb ip o s) {p : Nat} {c : Call} (hcall : s.calls p = some c)
    (hmore : c.i < c.data.length) {fs : Fs} (hok : fs.Ok sb)
    (hstored : Stored sb ip s.off c.piece s.fs.core fs.core) : Inv sb ip o (s.advance p c fs) := by
  obtain ⟨d, hentry, htype, hsize⟩ := hstored.entry
  have hentry' : fs.icache ip = { s.fs.icache ip with d := d } := hentry
  have hinum : (fs.icache ip).inum = (s.fs.icache ip).inum := by rw [hentry']
  have htext : (s.advance p c fs).text = s.text ++ c.piece := by
    simp [State.text, State.advance]
  have hmax : 0 < maxWrite := by decide
  have hlen := c.length_piece
  have hoff := h.off
  refine ⟨hok, hstored.opened, ?_, ?_, ?_, fun k hk => ?_, fun q => ?_, fun q hq => ?_, h.results,
    fun q c' hc => ?_⟩
  · change (fs.icache ip).d.type ≠ tDev
    rw [hentry']
    exact htype ▸ h.dev
  · rw [htext, List.length_append, ← Nat.add_assoc, ← h.off]
    rfl
  · change s.off + c.piece.length ≤ (fs.icache ip).d.size.toNat
    rw [hentry']
    exact hsize ▸ le_max_right _ _
  · change (fs.core.view sb).byte (fs.icache ip).inum (o + k) = _
    rw [htext] at hk ⊢
    rw [List.length_append] at hk
    rw [hinum]
    by_cases hold : k < s.text.length
    · rw [List.getD_append _ _ _ _ hold, ← h.bytes k hold]
      refine hstored.byte (o + k) ?_ (by omega)
      refine h.opened.good.sound.full _ _ h.opened.ino_type ?_
      have hino := h.opened.view_ino
      have hbs : bsize = 512 := rfl
      have := h.size
      rw [View.size, hino, hbs]
      change _ < (s.fs.icache ip).d.size.toNat
      omega
    · rw [List.getD_append_right _ _ _ _ (by omega)]
      have hnew := hstored.here (k - s.text.length) (by omega)
      rwa [show s.off + (k - s.text.length) = o + k by omega] at hnew
  · have hold := h.order q
    by_cases hq : q = p
    · subst hq
      have htextOf : (s.advance q c fs).textOf q = s.textOf q ++ c.piece := by
        simp [State.textOf, State.advance]
      have hdoing : (s.advance q c fs).doing q = s.doing q ++ c.piece := by
        simp only [State.doing, State.advance, Function.update_self, hcall]
        exact c.take_piece.symm
      rw [htextOf, hdoing, hold, List.append_assoc]
      rfl
    · have hne : ¬p = q := fun heq => hq heq.symm
      have htextOf : (s.advance p c fs).textOf q = s.textOf q := by
        simp [State.textOf, State.advance, hne]
      have hdoing : (s.advance p c fs).doing q = s.doing q := by
        simp only [State.doing, State.advance, Function.update_of_ne hq]
      rw [htextOf, hdoing, hold]
      rfl
  · rcases List.mem_append.mp hq with hq | hq
    · exact h.cut q hq
    · rw [List.mem_singleton.mp hq]
      refine ⟨fun hnil => ?_, hlen ▸ min_le_left ..⟩
      have : c.piece.length = 0 := by
        rw [show c.piece = [] from hnil]
        rfl
      omega
  · by_cases hq : q = p
    · subst hq
      simp only [State.advance, Function.update_self, Option.some.injEq] at hc
      rw [← hc]
      change c.i + c.piece.length ≤ c.data.length
      omega
    · simp only [State.advance, Function.update_of_ne hq] at hc
      exact h.calls q c' hc

theorem Inv.exec (hfits : sb.Fits) (h : Inv sb ip o s) {a : Act} (hroom : Fits sb ip s a)
    (he : s.exec ip a = some s') : Inv sb ip o s' := by
  cases a with
  | call p data =>
    cases hcall : s.calls p with
    | none =>
      simp only [State.exec, hcall, Option.some.injEq] at he
      exact he ▸ h.call hcall
    | some c => simp [State.exec, hcall] at he
  | round p =>
    cases hcall : s.calls p with
    | none => simp [State.exec, hcall] at he
    | some c =>
      simp only [State.exec, hcall] at he
      by_cases hmore : c.i < c.data.length
      · rw [if_pos hmore] at he
        obtain ⟨hmax, hneed⟩ := hroom c hcall hmore
        have hspec := spec_writePiece hfits h.opened h.dev h.size hmax hneed s.fs h.ok rfl
        cases hrun : (writePiece ip c.piece s.off).run s.fs with
        | error e => simp [hrun] at he
        | ok result =>
          obtain ⟨r, fs⟩ := result
          obtain ⟨hok, rfl, hstored⟩ := hspec r fs hrun
          simp only [hrun, if_true, Option.some.injEq] at he
          exact he ▸ h.advance hcall hmore hok hstored
      · rw [if_neg hmore, Option.some.injEq] at he
        exact he ▸ h.finish hcall hmore

structure Start (sb : Superblock) (ip : Fin ninode) (s : State) : Prop where
  ok : s.fs.Ok sb
  opened : Opened sb s.fs.core ip
  dev : (s.fs.icache ip).d.type ≠ tDev
  off : s.off ≤ (s.fs.icache ip).d.size.toNat
  calls : ∀ p, s.calls p = none
  pieces : s.pieces = []
  returned : s.returned = []

theorem Start.inv (h : Start sb ip s) : Inv sb ip s.off s where
  ok := h.ok
  opened := h.opened
  dev := h.dev
  off := by simp [State.text, h.pieces]
  size := h.off
  bytes k hk := by simp [State.text, h.pieces] at hk
  order p := by simp [State.textOf, State.doneBy, State.doing, h.pieces, h.returned, h.calls p]
  cut q hq := by simp [h.pieces] at hq
  results q hq := by simp [h.returned] at hq
  calls p c hc := by simp [h.calls p] at hc

/-- In a run whose rounds all fit, the offset has advanced by what was written; the file holds it
from the first offset on, piece after piece; the pieces of a process are its data in order; and
every call that has returned has returned its length. -/
theorem filewrite_interleaves (hfits : sb.Fits) {acts : List Act} (hstart : Start sb ip s)
    (hrun : Run (fun s a s' => s.exec ip a = some s' ∧ Fits sb ip s a) s acts s') :
    s'.off = s.off + s'.text.length ∧
      s'.off ≤ (s'.fs.icache ip).d.size.toNat ∧
      (∀ k < s'.text.length, s'.fs.fileByte ip (s.off + k) = s'.text.getD k 0) ∧
      (∀ p, s'.textOf p = s'.doneBy p ++ s'.doing p) ∧
      (∀ q ∈ s'.pieces, q.2 ≠ [] ∧ q.2.length ≤ 1536) ∧
      ∀ q ∈ s'.returned, q.2.2 = (q.2.1.length : Int) := by
  have hinv : Inv sb ip s.off s' :=
    hrun.invariant (Inv sb ip s.off) (fun _ _ _ h hstep => h.exec hfits hstep.2 hstep.1)
      hstart.inv
  refine ⟨hinv.off, hinv.size, fun k hk => ?_, hinv.order, hinv.cut, hinv.results⟩
  have hoff := hinv.off
  have hsize := hinv.size
  rw [fileByte_eq hinv.ok hinv.opened (by omega)]
  exact hinv.bytes k hk

/-! ### A small disk

Eight inodes, block 5 for data and the log from block 6 on. Inode 1 is an empty file. -/

def smallDisk : Superblock := { size := 16, nblocks := 1, ninodes := 8, nlog := 10 }

def emptyFile : Dinode := { Dinode.zero with type := tFile, nlink := 1 }

def smallContent (bits : Nat) (b : Nat) : Block :=
  if b = 1 then putLE (putLE (putLE (putLE (fun _ => 0) 0 4 16) 4 4 1) 8 4 8) 12 4 10
  else if b = 2 then putLE (putLE (fun _ => 0) 64 2 2) 70 2 1
  else if b = 4 then putLE (fun _ => 0) 0 1 bits
  else fun _ => 0

def firstEntry : Fin ninode := ⟨0, by decide⟩

def openFile : Inode := { inum := 1, ref := 1, busy := false, valid := true, d := emptyFile }

def noFile : Inode := { inum := 0, ref := 0, busy := false, valid := false, d := Dinode.zero }

def small (bits : Nat) : State where
  fs :=
    { content := smallContent bits
      held := []
      dirty := []
      log := { start := 6, size := 10, busy := false, sectors := [] }
      icache := fun ip => if ip = firstEntry then openFile else noFile }
  off := 0
  calls := fun _ => none
  pieces := []
  returned := []

theorem ref_small (bits : Nat) {ip : Fin ninode} (h : 0 < ((small bits).fs.core.icache ip).ref) :
    ip = firstEntry := by
  by_contra hne
  have hnone : (small bits).fs.core.icache ip = noFile := if_neg hne
  rw [hnone] at h
  exact absurd h (by decide)

theorem cacheOk_small (bits : Nat) : (small bits).fs.core.CacheOk smallDisk where
  unique ip jp hi hj _ := by rw [ref_small bits hi, ref_small bits hj]
  range ip hi := by
    rw [ref_small bits hi]
    change openFile.inum < smallDisk.ninodes
    decide

theorem sound_of_empty {v : View} (hsystem : ∀ b < sb.dataStart, v.bit b = true)
    (haddrs : ∀ i k, (v.ino i).addrs k = 0) (hsize : ∀ i, (v.ino i).size = 0) : v.Sound sb := by
  have hslot : ∀ i k, v.slot i k = 0 := fun i k => by
    rw [View.slot]
    simp [haddrs]
  have hown : ∀ i k, v.own i k = 0 := fun i k => by
    rw [View.own, hslot, ite_self]
  have hzero : ∀ i, v.size i = 0 := fun i => by
    rw [View.size, hsize]
    rfl
  exact ⟨hsystem, fun i k h => absurd (hown i k) h, fun i k j l _ h => absurd (hown i k) h,
    fun i _ => by rw [hzero]; exact Nat.zero_le _, fun i bn _ h => by rw [hzero] at h; omega⟩

theorem sound_of_empty_inodes {c : Core}
    (hsystem : ∀ b < sb.dataStart, (c.view sb).bit b = true)
    (hino : ∀ i < sb.ninodes, (c.ino i).size = 0 ∧ ∀ k, (c.ino i).addrs k = 0) :
    (c.view sb).Sound sb := by
  have hview : ∀ i, ((c.view sb).ino i).size = 0 ∧ ∀ k, ((c.view sb).ino i).addrs k = 0 := by
    intro i
    by_cases hi : i < sb.ninodes
    · rw [view_ino hi]
      exact hino i hi
    · have hzero : (c.view sb).ino i = Dinode.zero := if_neg hi
      rw [hzero]
      exact ⟨rfl, fun _ => rfl⟩
  exact sound_of_empty hsystem (fun i => (hview i).2) fun i => (hview i).1

theorem start_small {bits : Nat} (hbits : bits = 31 ∨ bits = 63) :
    Start smallDisk firstEntry (small bits) := by
  have hino : ∀ i : Fin 8, ((small bits).fs.core.ino i).size = 0 ∧
      ∀ k, ((small bits).fs.core.ino i).addrs k = 0 := by
    rcases hbits with rfl | rfl <;> decide
  have hsystem : ∀ b, b < smallDisk.dataStart →
      ((small bits).fs.core.view smallDisk).bit b = true := by
    rcases hbits with rfl | rfl <;> decide
  have hsound := sound_of_empty_inodes hsystem fun i hi => hino ⟨i, hi⟩
  have hlive : 0 < openFile.ref ∧ openFile.valid = true := by decide
  have htype : openFile.d.type ≠ 0 ∧ openFile.d.type ≠ tDev := by decide
  exact ⟨⟨rfl, rfl, List.nodup_nil, nofun, nofun⟩, ⟨⟨cacheOk_small bits, hsound⟩, hlive, htype.1⟩,
    htype.2, Nat.zero_le _, fun _ => rfl, rfl, rfl⟩

theorem smallDisk_fits : smallDisk.Fits := ⟨by decide, by decide⟩

instance (sb : Superblock) (ip : Fin ninode) (s : State) (a : Act) : Decidable (Fits sb ip s a) :=
  match a with
  | .call _ _ => isTrue trivial
  | .round p => inferInstanceAs (Decidable (∀ c ∈ s.calls p, c.i < c.data.length → _ ∧ _))

/-- With block 5 free two processes write, and what they wrote is there in the order of their
rounds. -/
theorem filewrite_interleaves_small : ∃ s',
    Run (fun s a s' => s.exec firstEntry a = some s' ∧ Fits smallDisk firstEntry s a) (small 31)
      [.call 0 [7, 8], .call 1 [9], .round 1, .round 0, .round 1] s' ∧ s'.text = [9, 7, 8] ∧
      s'.off = 3 ∧ ∀ k < 3, s'.fs.fileByte firstEntry (0 + k) = s'.text.getD k 0 := by
  have hexec : (execAll (fun s a => if Fits smallDisk firstEntry s a then s.exec firstEntry a
      else none) (small 31) [.call 0 [7, 8], .call 1 [9], .round 1, .round 0, .round 1]).map
        State.text = some [9, 7, 8] := by
    decide
  have hstep : ∀ s a s', (if Fits smallDisk firstEntry s a then s.exec firstEntry a else none) =
      some s' → s.exec firstEntry a = some s' ∧ Fits smallDisk firstEntry s a := by
    intro s a s' h
    split at h
    case isTrue hfits => exact ⟨h, hfits⟩
    case isFalse => cases h
  obtain ⟨s', hrun, htext⟩ := exists_run_of_execAll hstep _ hexec
  obtain ⟨hoff, -, hbytes, -⟩ :=
    filewrite_interleaves smallDisk_fits (start_small (Or.inl rfl)) hrun
  refine ⟨s', hrun, htext, ?_, fun k hk => hbytes k (by rw [htext]; exact hk)⟩
  rw [hoff, htext]
  rfl

structure Seen where
  off : Nat
  text : List UInt8
  returned : List (Nat × List UInt8 × Int)
  size : Nat
  first : UInt8
deriving DecidableEq

def State.seen (s : State) : Seen where
  off := s.off
  text := s.text
  returned := s.returned
  size := (s.fs.icache firstEntry).d.size.toNat
  first := s.fs.fileByte firstEntry 0

/-- With no block free below the log, the byte goes to the header of the log, which the commit
clears: the call returns 1 and the file holds 0. -/
theorem filewrite_lost_full : Start smallDisk firstEntry (small 63) ∧
    ∃ s', Run (fun s a s' => s.exec firstEntry a = some s') (small 63)
      [.call 0 [7], .round 0, .round 0] s' ∧
      s'.seen =
        { off := 1, text := [7], returned := [(0, [7], 1)], size := 1, first := 0 } := by
  have hexec : (execAll (State.exec firstEntry) (small 63)
      [.call 0 [7], .round 0, .round 0]).map State.seen = some
        { off := 1, text := [7], returned := [(0, [7], 1)], size := 1, first := 0 } := by
    decide
  exact ⟨start_small (Or.inr rfl), exists_run_of_execAll (fun _ _ _ h => h) _ hexec⟩

end FileWrite

end Xv6
