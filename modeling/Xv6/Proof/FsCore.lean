import Xv6.Fs

/-!
# What the log and the buffers leave of the file system

Above the log, the file system is the content of the blocks below it and the inode cache. A logged
write changes one block, a commit none: the log area holds a copy of every logged block, and
installing a copy that equals its home changes nothing. The rules below describe a computation by
what it does to blocks and inodes only.
-/

namespace Xv6

def Superblock.logStart (sb : Superblock) : Nat := sb.size - sb.nlog

def Superblock.dataStart (sb : Superblock) : Nat := sb.ninodes / ipb + 3 + (sb.size / bpb + 1)

structure Superblock.Fits (sb : Superblock) : Prop where
  data : sb.dataStart ≤ sb.logStart
  words : sb.size < 2 ^ 32

structure Core where
  blk : Nat → Block
  icache : Fin ninode → Inode

def Core.setBlk (c : Core) (b : Nat) (data : Block) : Core :=
  { c with blk := Function.update c.blk b data }

def Core.setInode (c : Core) (ip : Fin ninode) (e : Inode) : Core :=
  { c with icache := Function.update c.icache ip e }

namespace Fs

def core (s : Fs) : Core :=
  { blk := fun b => if b < s.log.start then s.content b else fun _ => 0, icache := s.icache }

structure Ok (sb : Superblock) (s : Fs) : Prop where
  start : s.log.start = sb.logStart
  super : Superblock.load (s.content 1) = sb
  nodup : s.log.sectors.Nodup
  home : ∀ b ∈ s.log.sectors, b < sb.logStart
  copies : ∀ i b, s.log.sectors[i]? = some b → s.content (sb.logStart + i + 1) = s.content b

variable {sb : Superblock} {s s' : Fs}

theorem core_blk (hok : s.Ok sb) {b : Nat} (hb : b < sb.logStart) : s.core.blk b = s.content b :=
  if_pos (hok.start ▸ hb)

theorem run_bread_of_lt {b : Nat} (hb : b ∉ s.held) (hpinned : s.pinned < nbuf) :
    (bread b).run s = .ok (s.content b, { s with held := b :: s.held }) := by
  rw [bread, Kernel.run_get_bind, if_neg hb, if_neg (fun hfull => by omega)]
  rfl

theorem run_bwrite_of_mem {b : Nat} (hb : b ∈ s.held) :
    (bwrite b).run s = .ok ((), { s with dirty := s.dirty.filter (· ≠ b) }) := by
  rw [bwrite, Kernel.run_get_bind, if_neg (not_not_intro hb)]
  rfl

theorem run_brelse_of_mem {b : Nat} (hb : b ∈ s.held) :
    (brelse b).run s = .ok ((), { s with held := s.held.erase b }) := by
  rw [brelse, Kernel.run_get_bind, if_neg (not_not_intro hb)]
  rfl

structure SameBlocks (s s' : Fs) : Prop where
  content : s'.content = s.content
  log : s'.log = s.log
  icache : s'.icache = s.icache

theorem SameBlocks.ok (h : SameBlocks s s') (hok : s.Ok sb) : s'.Ok sb := by
  obtain ⟨hstart, hsuper, hnodup, hhome, hcopies⟩ := hok
  refine ⟨?_, ?_, ?_, ?_, ?_⟩ <;> simpa only [h.content, h.log]

theorem SameBlocks.core (h : SameBlocks s s') : s'.core = s.core := by
  simp only [Fs.core, h.content, h.log, h.icache]

theorem bread_ensures (b : Nat) :
    (bread b).Ensures s fun data s' => data = s.content b ∧ SameBlocks s s' := by
  refine Kernel.ensures_get_bind ?_
  split
  · exact Kernel.ensures_panic _
  · split
    · exact Kernel.ensures_panic _
    · exact (Kernel.ensures_modify (R := fun _ s' => SameBlocks s s') ⟨rfl, rfl, rfl⟩).bind
        fun _ _ h => Kernel.ensures_pure ⟨rfl, h⟩

theorem bwrite_ensures (b : Nat) : (bwrite b).Ensures s fun _ s' => SameBlocks s s' := by
  refine Kernel.ensures_get_bind ?_
  split
  · exact Kernel.ensures_panic _
  · exact Kernel.ensures_modify ⟨rfl, rfl, rfl⟩

theorem brelse_ensures (b : Nat) : (brelse b).Ensures s fun _ s' => SameBlocks s s' := by
  refine Kernel.ensures_get_bind ?_
  split
  · exact Kernel.ensures_panic _
  · exact Kernel.ensures_modify ⟨rfl, rfl, rfl⟩

structure Wrote (b : Nat) (data : Block) (s s' : Fs) : Prop where
  content : s'.content = Function.update s.content b data
  log : s'.log = s.log
  icache : s'.icache = s.icache

theorem SameBlocks.trans {s1 : Fs} (h : SameBlocks s s1) (h' : SameBlocks s1 s') :
    SameBlocks s s' :=
  ⟨h'.content.trans h.content, h'.log.trans h.log, h'.icache.trans h.icache⟩

theorem Wrote.after {s1 : Fs} {b : Nat} {data : Block} (h : SameBlocks s s1)
    (h' : Wrote b data s1 s') : Wrote b data s s' :=
  ⟨by rw [h'.content, h.content], h'.log.trans h.log, h'.icache.trans h.icache⟩

theorem Wrote.before {s1 : Fs} {b : Nat} {data : Block} (h : Wrote b data s s1)
    (h' : SameBlocks s1 s') : Wrote b data s s' :=
  ⟨by rw [h'.content, h.content], h'.log.trans h.log, h'.icache.trans h.icache⟩

theorem setData_ensures (b : Nat) (data : Block) :
    (setData b data).Ensures s fun _ s' => Wrote b data s s' :=
  Kernel.ensures_modify ⟨rfl, rfl, rfl⟩

theorem writeHead_ensures :
    writeHead.Ensures s fun _ s' => ∃ data, Wrote s.log.start data s s' := by
  refine Kernel.ensures_get_bind ((bread_ensures _).bind ?_)
  rintro data s1 ⟨-, h1⟩
  refine (setData_ensures _ _).bind fun _ s2 h2 => ?_
  refine (bwrite_ensures _).bind fun _ s3 h3 => ?_
  exact (brelse_ensures _).mono fun _ s4 h4 => ⟨_, (h2.after h1).before (h3.trans h4)⟩

theorem installBlock_ensures (tail home : Nat) :
    (installBlock tail home).Ensures s fun _ s' =>
      Wrote home (s.content (s.log.start + tail + 1)) s s' := by
  refine Kernel.ensures_get_bind ((bread_ensures _).bind ?_)
  rintro data s1 ⟨rfl, h1⟩
  refine (bread_ensures _).bind ?_
  rintro _ s2 ⟨-, h2⟩
  refine (setData_ensures _ _).bind fun _ s3 h3 => ?_
  refine (bwrite_ensures _).bind fun _ s4 h4 => ?_
  refine (brelse_ensures _).bind fun _ s5 h5 => ?_
  exact (brelse_ensures _).mono fun _ s6 h6 =>
    (h3.after (h1.trans h2)).before (h4.trans (h5.trans h6))

theorem installTrans_ensures (homes : List Nat) (tail : Nat)
    (hcopies : ∀ i b, homes[i]? = some b →
      s.content (s.log.start + (tail + i) + 1) = s.content b) :
    (installTrans tail homes).Ensures s fun _ s' => SameBlocks s s' := by
  induction homes generalizing s tail with
  | nil => exact Kernel.ensures_pure ⟨rfl, rfl, rfl⟩
  | cons home rest ih =>
    refine (installBlock_ensures tail home).bind fun _ s1 h1 => ?_
    have hsame : SameBlocks s s1 := by
      have hhome : s.content (s.log.start + tail + 1) = s.content home := hcopies 0 home rfl
      refine ⟨?_, h1.log, h1.icache⟩
      rw [h1.content, hhome, Function.update_eq_self]
    refine (ih (tail + 1) fun i b hi => ?_).mono fun _ s2 h2 => hsame.trans h2
    rw [hsame.content, hsame.log, Nat.add_assoc tail 1 i, Nat.add_comm 1 i]
    exact hcopies (i + 1) b hi

def logSectors (sectors : List Nat) (b : Nat) : List Nat :=
  if sectors.idxOf b = sectors.length then sectors ++ [b] else sectors

theorem logWrite_ensures (b : Nat) :
    (logWrite b).Ensures s fun _ s' =>
      s'.content = Function.update s.content (s.log.start + s.log.sectors.idxOf b + 1)
        (s.content b) ∧
      s'.log = { s.log with sectors := logSectors s.log.sectors b } ∧ s'.icache = s.icache := by
  refine Kernel.ensures_get_bind ?_
  dsimp only
  split
  · exact Kernel.ensures_panic _
  · split
    · exact Kernel.ensures_panic _
    · refine (bread_ensures _).bind ?_
      rintro _ s1 ⟨-, h1⟩
      refine (setData_ensures _ _).bind fun _ s2 h2 => ?_
      refine (bwrite_ensures _).bind fun _ s3 h3 => ?_
      refine (brelse_ensures _).bind fun _ s4 h4 => ?_
      have hw := (h2.after h1).before (h3.trans h4)
      refine Kernel.ensures_modify ⟨hw.content, ?_, hw.icache⟩
      simp only [hw.log, logSectors]

/-- From blocks and inodes `c`, the computation keeps the log in order and, if it returns, its value
and the new blocks and inodes satisfy `Q`. -/
def Spec {α : Type} (sb : Superblock) (x : Kernel Fs α) (c : Core) (Q : α → Core → Prop) : Prop :=
  ∀ s : Fs, s.Ok sb → s.core = c → x.Ensures s fun a s' => s'.Ok sb ∧ Q a s'.core

variable {α β : Type} {c : Core} {x : Kernel Fs α} {f : α → Kernel Fs β} {P Q : α → Core → Prop}
  {R : β → Core → Prop}

theorem Spec.mono (hx : Spec sb x c P) (hPQ : ∀ a c', P a c' → Q a c') : Spec sb x c Q :=
  fun s hok hcore => (hx s hok hcore).mono fun a _ h => ⟨h.1, hPQ a _ h.2⟩

theorem Spec.bind (hx : Spec sb x c P) (hf : ∀ a c', P a c' → Spec sb (f a) c' R) :
    Spec sb (x >>= f) c R := fun s hok hcore =>
  (hx s hok hcore).bind fun a s' h => hf a s'.core h.2 s' h.1 rfl

theorem spec_pure {a : α} (h : Q a c) : Spec sb (pure a) c Q := fun _ hok hcore =>
  Kernel.ensures_pure ⟨hok, hcore ▸ h⟩

theorem spec_panic (msg : String) : Spec sb (Kernel.panic msg) c Q := fun _ _ _ =>
  Kernel.ensures_panic msg

theorem spec_get {g : Fs → Kernel Fs β}
    (h : ∀ s : Fs, s.icache = c.icache → Spec sb (g s) c R) : Spec sb (Kernel.get >>= g) c R :=
  fun s hok hcore => Kernel.ensures_get_bind (h s (by rw [← hcore]; rfl) s hok hcore)

theorem spec_modifyInode {ip : Fin ninode} {g : Inode → Inode} {Q : Unit → Core → Prop}
    (h : Q () (c.setInode ip (g (c.icache ip)))) : Spec sb (modifyInode ip g) c Q := by
  rintro s hok rfl
  exact Kernel.ensures_modify ⟨⟨hok.start, hok.super, hok.nodup, hok.home, hok.copies⟩, h⟩

theorem Spec.next {c1 : Core} (hx : Spec sb x c fun _ c' => c' = c1)
    (hf : ∀ a, Spec sb (f a) c1 R) : Spec sb (x >>= f) c R :=
  hx.bind fun a _ hc => hc ▸ hf a

theorem spec_bread {b : Nat} {g : Block → Kernel Fs β} (hb : b < sb.logStart)
    (h : Spec sb (g (c.blk b)) c R) : Spec sb (bread b >>= g) c R := by
  rintro s hok rfl
  refine (bread_ensures b).bind ?_
  rintro data s' ⟨rfl, hsame⟩
  rw [← core_blk hok hb]
  exact h s' (hsame.ok hok) hsame.core

theorem spec_brelse (b : Nat) : Spec sb (brelse b) c fun _ c' => c' = c := by
  rintro s hok rfl
  exact (brelse_ensures b).mono fun _ _ hsame => ⟨hsame.ok hok, hsame.core⟩

theorem logSectors_cases (sectors : List Nat) (b : Nat) :
    b ∉ sectors ∧ sectors.idxOf b = sectors.length ∧ logSectors sectors b = sectors ++ [b] ∨
      b ∈ sectors ∧ logSectors sectors b = sectors := by
  by_cases hmem : b ∈ sectors
  · have hlt := List.idxOf_lt_length_of_mem hmem
    exact Or.inr ⟨hmem, if_neg (by omega)⟩
  · have heq := List.idxOf_eq_length hmem
    exact Or.inl ⟨hmem, heq, if_pos heq⟩

theorem nodup_logSectors {sectors : List Nat} (h : sectors.Nodup) (b : Nat) :
    (logSectors sectors b).Nodup := by
  rcases logSectors_cases sectors b with ⟨hmem, -, heq⟩ | ⟨-, heq⟩
  · rw [heq]
    refine List.nodup_append.mpr ⟨h, by simp, ?_⟩
    rintro x hx y hy rfl
    exact hmem (List.mem_singleton.mp hy ▸ hx)
  · rw [heq]
    exact h

theorem mem_logSectors {sectors : List Nat} {b x : Nat} (h : x ∈ logSectors sectors b) :
    x = b ∨ x ∈ sectors := by
  rcases logSectors_cases sectors b with ⟨-, -, heq⟩ | ⟨-, heq⟩
  · rw [heq] at h
    simpa [or_comm] using h
  · rw [heq] at h
    exact Or.inr h

theorem getElem?_logSectors {sectors : List Nat} (hnodup : sectors.Nodup) {b i x : Nat}
    (h : (logSectors sectors b)[i]? = some x) :
    x = b ∧ i = sectors.idxOf b ∨ x ≠ b ∧ i ≠ sectors.idxOf b ∧ sectors[i]? = some x := by
  have hself : ∀ j y, sectors[j]? = some y → y = b → j = sectors.idxOf b := by
    rintro j y hj rfl
    obtain ⟨hlt, rfl⟩ := List.getElem?_eq_some_iff.mp hj
    exact (hnodup.idxOf_getElem j hlt).symm
  have hother : ∀ j y, sectors[j]? = some y → y ≠ b → j ≠ sectors.idxOf b := by
    rintro j y hj hne rfl
    obtain ⟨hlt, rfl⟩ := List.getElem?_eq_some_iff.mp hj
    exact hne (List.getElem_idxOf hlt)
  have hold : sectors[i]? = some x →
      x = b ∧ i = sectors.idxOf b ∨ x ≠ b ∧ i ≠ sectors.idxOf b ∧ sectors[i]? = some x := by
    intro hi
    by_cases hx : x = b
    · exact Or.inl ⟨hx, hself i x hi hx⟩
    · exact Or.inr ⟨hx, hother i x hi hx, hi⟩
  rcases logSectors_cases sectors b with ⟨-, hidx, heq⟩ | ⟨-, heq⟩
  · rw [heq, List.getElem?_append] at h
    split at h
    · exact hold h
    · rename_i hle
      obtain ⟨hlt, hx⟩ := List.getElem?_eq_some_iff.mp h
      rw [List.length_singleton] at hlt
      refine Or.inl ⟨?_, by omega⟩
      rw [← hx]
      simp
  · exact hold (heq ▸ h)

theorem spec_logged {b : Nat} {data : Block} {g : Unit → Kernel Fs β} (hb : b < sb.logStart)
    (hsuper : b ≠ 1) (h : Spec sb (g ()) (c.setBlk b data) R) :
    Spec sb (setData b data >>= fun _ => logWrite b >>= g) c R := by
  rintro s hok rfl
  refine (setData_ensures b data).bind fun _ s1 h1 => (logWrite_ensures b).bind ?_
  rintro _ s2 ⟨hcontent, hlog, hicache⟩
  rw [h1.log, hok.start, h1.content, Function.update_self] at hcontent
  rw [h1.log] at hlog
  generalize hslot : sb.logStart + s.log.sectors.idxOf b + 1 = slot at hcontent
  have hbelow : ∀ x < sb.logStart, s2.content x = Function.update s.content b data x := by
    intro x hx
    rw [hcontent, Function.update_of_ne (by omega)]
  have hother : ∀ x < sb.logStart, x ≠ b → s2.content x = s.content x := by
    intro x hx hne
    rw [hbelow x hx, Function.update_of_ne hne]
  have hok2 : s2.Ok sb := by
    refine ⟨?_, ?_, ?_, ?_, ?_⟩
    · rw [hlog]
      exact hok.start
    · by_cases hlt : 1 < sb.logStart
      · rw [hother 1 hlt (Ne.symm hsuper)]
        exact hok.super
      · rw [hcontent, Function.update_of_ne (by omega), Function.update_of_ne (Ne.symm hsuper)]
        exact hok.super
    · rw [hlog]
      exact nodup_logSectors hok.nodup b
    · rw [hlog]
      intro x hx
      rcases mem_logSectors hx with rfl | hx
      · exact hb
      · exact hok.home x hx
    · rw [hlog]
      intro i x hi
      rcases getElem?_logSectors hok.nodup hi with ⟨rfl, rfl⟩ | ⟨hne, hidx, hi⟩
      · rw [hbelow x hb, Function.update_self, hslot, hcontent, Function.update_self]
      · have hx := hok.home x (List.mem_of_getElem? hi)
        rw [hother x hx hne, hcontent, Function.update_of_ne (by omega),
          Function.update_of_ne (by omega)]
        exact hok.copies i x hi
  refine h s2 hok2 ?_
  have hblk : s2.core.blk = Function.update s.core.blk b data := by
    funext x
    have hstart : s2.log.start = sb.logStart := hok2.start
    by_cases hx : x < sb.logStart
    · rw [core_blk hok2 hx, hbelow x hx]
      by_cases hxb : x = b
      · rw [hxb, Function.update_self, Function.update_self]
      · rw [Function.update_of_ne hxb, Function.update_of_ne hxb, core_blk hok hx]
    · rw [Function.update_of_ne (by omega)]
      simp only [Fs.core]
      rw [if_neg (by omega), if_neg (by rw [hok.start]; exact hx)]
  have hcache : s2.icache = s.icache := hicache.trans h1.icache
  rw [Core.setBlk, ← hblk]
  change s2.core = { blk := s2.core.blk, icache := s.icache }
  rw [← hcache]
  rfl

theorem spec_beginTrans : Spec sb beginTrans c fun _ c' => c' = c := by
  rintro s hok rfl
  refine Kernel.ensures_get_bind ?_
  split
  · exact Kernel.ensures_panic _
  · exact Kernel.ensures_modify ⟨⟨hok.start, hok.super, hok.nodup, hok.home, hok.copies⟩, rfl⟩

structure SameHomes (s s' : Fs) : Prop where
  content : ∀ x ≠ s.log.start, s'.content x = s.content x
  icache : s'.icache = s.icache

theorem SameHomes.wrote {s1 : Fs} {data : Block} (h : SameHomes s s1)
    (h' : Wrote s.log.start data s1 s') : SameHomes s s' where
  content x hx := by
    rw [h'.content, Function.update_of_ne hx]
    exact h.content x hx
  icache := h'.icache.trans h.icache

theorem logStart_gt_one (hfits : sb.Fits) : 1 < sb.logStart := by
  have := hfits.data
  simp only [Superblock.dataStart, ipb, bpb] at this
  omega

theorem spec_emptied (hfits : sb.Fits) (hok : s.Ok sb) {s1 : Fs} (h : SameHomes s s1) :
    (setLog { s.log with sectors := [], busy := false }).Ensures s1 fun _ s' =>
      s'.Ok sb ∧ s'.core = s.core := by
  have hone := logStart_gt_one hfits
  refine Kernel.ensures_modify ⟨⟨hok.start, ?_, List.nodup_nil, by simp, by simp⟩, ?_⟩
  · change Superblock.load (s1.content 1) = sb
    rw [h.content 1 (by rw [hok.start]; omega)]
    exact hok.super
  · simp only [Fs.core, h.icache, Core.mk.injEq, and_true]
    funext x
    split
    · rename_i hx
      exact h.content x (by omega)
    · rfl

theorem spec_commitTrans (hfits : sb.Fits) : Spec sb commitTrans c fun _ c' => c' = c := by
  rintro s hok rfl
  refine Kernel.ensures_get_bind ?_
  dsimp only
  split
  · refine writeHead_ensures.bind ?_
    rintro _ s1 ⟨_, h1⟩
    have hcopies : ∀ i b, s.log.sectors[i]? = some b →
        s1.content (s1.log.start + (0 + i) + 1) = s1.content b := by
      intro i b hi
      have hb := hok.home b (List.mem_of_getElem? hi)
      rw [h1.log, h1.content, hok.start, Nat.zero_add, Function.update_of_ne (by omega),
        Function.update_of_ne (by omega)]
      exact hok.copies i b hi
    refine (installTrans_ensures _ 0 hcopies).bind fun _ s2 h2 => ?_
    have hw := h1.before h2
    have hhomes : SameHomes s s2 := SameHomes.wrote ⟨fun _ _ => rfl, rfl⟩ hw
    have hlog : (setLog { s.log with sectors := [] }).Ensures s2 fun _ s3 =>
        SameHomes s s3 ∧ s3.log.start = s.log.start :=
      Kernel.ensures_modify ⟨⟨hhomes.content, hhomes.icache⟩, rfl⟩
    refine hlog.bind ?_
    rintro _ s3 ⟨h3, hstart⟩
    refine writeHead_ensures.bind ?_
    rintro _ s4 ⟨_, h4⟩
    rw [hstart] at h4
    exact spec_emptied hfits hok (h3.wrote h4)
  · exact spec_emptied hfits hok ⟨fun _ _ => rfl, rfl⟩

end Fs

end Xv6
