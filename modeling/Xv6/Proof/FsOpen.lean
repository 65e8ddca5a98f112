import Xv6.Proof.DirLookup

/-!
# Starting the file system and opening a path

Total correctness of `initlog` on an image whose log is empty, and of the functions of the inode
cache that `namei` calls.
-/

namespace Xv6

namespace Fs

variable {s : Fs} {ip : Fin ninode}

theorem setInode_setInode (e e' : Inode) :
    (s.setInode ip e).setInode ip e' = s.setInode ip e' := by
  simp only [setInode, Function.update_idem]

theorem setInode_icache_self (e : Inode) : (s.setInode ip e).icache ip = e :=
  Function.update_self ..

theorem setInode_icache_of_ne {jp : Fin ninode} (h : jp ≠ ip) (e : Inode) :
    (s.setInode ip e).icache jp = s.icache jp := Function.update_of_ne h ..

structure Booted (img : Nat → Block) (sb : Superblock) (s : Fs) : Prop where
  quiet : s.Quiet
  log : s.log = { start := sb.logStart, size := sb.nlog, busy := false, sectors := [] }
  content : ∀ b ≠ sb.logStart, s.content b = img b
  icache : s.icache = (mounted img).icache

theorem mounted_quiet (img : Nat → Block) : (mounted img).Quiet := ⟨rfl, rfl⟩

theorem run_writeHead (hq : s.Quiet) :
    writeHead.run s =
      .ok ((), s.setBlock s.log.start (s.log.header.store (s.content s.log.start))) := by
  obtain ⟨content, held, dirty, log, icache⟩ := s
  obtain rfl : held = [] := hq.held
  obtain rfl : dirty = [] := hq.dirty
  rw [writeHead, Kernel.run_get_bind, Kernel.run_bind_of_ok (run_bread hq _), setData,
    Kernel.run_modify_bind]
  have hwrite : (bwrite log.start).run (setBlock ⟨content, [log.start], [], log, icache⟩ log.start
      (log.header.store (content log.start))) = .ok ((), setBlock
        ⟨content, [log.start], [], log, icache⟩ log.start
          (log.header.store (content log.start))) := by
    rw [bwrite, Kernel.run_get_bind, if_neg (by simp [setBlock])]
    rfl
  rw [Kernel.run_bind_of_ok hwrite, run_brelse rfl]
  rfl

theorem headerN_zero : headerN (fun _ => 0) = 0 := rfl

theorem initlog_returns {img : Nat → Block} {sb : Superblock}
    (hsuper : Superblock.load (img 1) = sb) (hzero : img sb.logStart = fun _ => 0) :
    initlog.Returns (mounted img) fun _ s => Booted img sb s := by
  have hreadsb : readsb.run (mounted img) = .ok (sb, mounted img) := by
    rw [readsb, run_bread_brelse (mounted_quiet img)]
    exact congrArg (fun sb => Except.ok (sb, mounted img)) hsuper
  rw [initlog, Kernel.Returns, Kernel.run_bind_of_ok hreadsb]
  generalize hs1 : ({ mounted img with log := { (mounted img).log with
    start := sb.size - sb.nlog, size := sb.nlog } } : Fs) = s1
  have hq1 : s1.Quiet := by rw [← hs1]; exact ⟨rfl, rfl⟩
  have hstart : s1.log.start = sb.logStart := by rw [← hs1]; rfl
  have hcontent : s1.content = img := by rw [← hs1]; rfl
  have hsectors : s1.log.sectors = [] := by rw [← hs1]; rfl
  -- the header has no sectors
  have hhead : readHead.run s1 = .ok ((), s1) := by
    rw [readHead, Kernel.run_get_bind, Kernel.run_bind_of_ok (run_bread hq1 _), hcontent, hstart,
      hzero, headerN_zero]
    rw [← hs1]
    simp [setLog, brelse, Superblock.logStart, mounted]
  change ∃ a s', recoverFromLog.run (({ mounted img with log := { (mounted img).log with
    start := sb.size - sb.nlog, size := sb.nlog } } : Fs)) = .ok (a, s') ∧ _
  rw [hs1, recoverFromLog, Kernel.run_bind_of_ok hhead, Kernel.run_get_bind, hsectors]
  have hlog : ({ s1 with log := { s1.log with sectors := [] } } : Fs) = s1 := by
    rw [← hs1]
    rfl
  change ∃ a s', writeHead.run ({ s1 with log := { s1.log with sectors := [] } } : Fs) =
    .ok (a, s') ∧ _
  rw [hlog]
  refine ⟨(), _, run_writeHead hq1, ⟨hq1.held, hq1.dirty⟩, by rw [← hs1]; rfl, fun b hb => ?_,
    by rw [← hs1]; rfl⟩
  rw [← hcontent]
  exact Function.update_of_ne (hstart ▸ hb) ..

def fresh (e : Inode) (inum : Nat) : Inode :=
  { e with inum := inum, ref := 1, busy := false, valid := false }

theorem iget_returns (s : Fs) (inum : Nat)
    (hnone : ∀ ip, ¬(0 < (s.icache ip).ref ∧ (s.icache ip).inum = inum))
    (hfree : ∃ ip, (s.icache ip).ref = 0) :
    (iget inum).Returns s fun ip s' => (s.icache ip).ref = 0 ∧
      s' = s.setInode ip (fresh (s.icache ip) inum) := by
  have hfind : ((List.finRange ninode).find?
      fun ip => 0 < (s.icache ip).ref ∧ (s.icache ip).inum = inum) = none :=
    List.find?_eq_none.mpr fun ip _ => by simpa using hnone ip
  obtain ⟨jp, hjp⟩ := hfree
  cases hempty : (List.finRange ninode).find? fun ip => (s.icache ip).ref = 0 with
  | none =>
    have := List.find?_eq_none.mp hempty jp (List.mem_finRange jp)
    simp [hjp] at this
  | some ip =>
    have hip : (s.icache ip).ref = 0 := by simpa using List.find?_some hempty
    refine ⟨ip, s.setInode ip (fresh (s.icache ip) inum), ?_, hip, rfl⟩
    rw [iget, Kernel.run_get_bind]
    simp only [hfind, hempty]
    rfl

def loaded (s : Fs) (ip : Fin ninode) : Inode :=
  let e := s.icache ip
  { e with busy := true, valid := true
           d := Dinode.load (s.content (iblock e.inum)) (dinodeOff e.inum) }

theorem run_ilock (hq : s.Quiet) (href : 0 < (s.icache ip).ref) (hbusy : (s.icache ip).busy = false)
    (hvalid : (s.icache ip).valid = false) (htype : (s.loaded ip).d.type ≠ 0) :
    (ilock ip).run s = .ok ((), s.setInode ip (s.loaded ip)) := by
  rw [ilock, Kernel.run_get_bind, if_neg (by omega), if_neg (by simp [hbusy])]
  rw [modifyInode, Kernel.run_modify_bind, if_neg (by simp [hvalid])]
  have hq1 := hq.setInode ip { s.icache ip with busy := true }
  rw [Kernel.run_bind_of_ok (run_bread hq1 _)]
  change (modifyInode ip _ >>= _).run _ = _
  rw [modifyInode, Kernel.run_modify_bind, Kernel.run_bind_of_ok (run_brelse rfl)]
  have htype' : ¬(Dinode.load ((s.setInode ip { s.icache ip with busy := true }).content
      (iblock (s.icache ip).inum)) (dinodeOff (s.icache ip).inum)).type = 0 := htype
  rw [if_neg htype']
  refine congrArg (fun s' => Except.ok ((), s')) ?_
  obtain ⟨content, held, dirty, log, icache⟩ := s
  have hheld : held = [] := hq.held
  simp only [setInode, loaded, Function.update_self, Function.update_idem, hheld]

theorem run_iunlockput (hbusy : (s.icache ip).busy = true) (href : (s.icache ip).ref = 1)
    (hnlink : (s.icache ip).d.nlink ≠ 0) :
    (iunlockput ip).run s =
      .ok ((), s.setInode ip { s.icache ip with busy := false, ref := 0 }) := by
  have hunlock : (iunlock ip).run s =
      .ok ((), s.setInode ip { s.icache ip with busy := false }) := by
    rw [iunlock, Kernel.run_get_bind, if_neg (by simp [hbusy, href])]
    rfl
  rw [iunlockput, Kernel.run_bind_of_ok hunlock, iput, Kernel.run_get_bind]
  have hkeep : ¬(((s.setInode ip { s.icache ip with busy := false }).icache ip).ref = 1 ∧
      ((s.setInode ip { s.icache ip with busy := false }).icache ip).valid = true ∧
      ((s.setInode ip { s.icache ip with busy := false }).icache ip).d.nlink = 0) := by
    rw [setInode_icache_self]
    exact fun h => hnlink h.2.2
  simp only [if_neg hkeep]
  refine congrArg (fun s' => Except.ok ((), s')) ?_
  simp only [setInode_icache_self, setInode_setInode, href]

theorem run_namexLoop {s1 s2 s3 : Fs} {path rest : List UInt8} {name : Name} {next : Fin ninode}
    {off : Nat} (fuel : Nat) (hskip : skipelem path = some (rest, name))
    (hlock : (ilock ip).run s = .ok ((), s1)) (htype : (s1.icache ip).d.type = tDir)
    (hlookup : (dirlookup ip (Name.bytes name)).run s1 = .ok (some (next, off), s2))
    (hput : (iunlockput ip).run s2 = .ok ((), s3)) :
    (namexLoop false (fuel + 1) ip path).run s = (namexLoop false fuel next rest).run s3 := by
  rw [namexLoop.eq_def]
  simp only [hskip]
  rw [Kernel.run_bind_of_ok hlock, Kernel.run_get_bind, if_neg fun h => h htype,
    if_neg (by simp), Kernel.run_bind_of_ok hlookup]
  simp only
  rw [Kernel.run_bind_of_ok hput]

end Fs

end Xv6
