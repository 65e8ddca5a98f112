import Mathlib.Data.List.TakeWhile
import Xv6.Proof.FsOpen
import Xv6.Proof.FsFiles

/-!
# The kernel on an image of `mkfs`

What `mkfs` wrote is what the kernel finds: on the image of any list of files that fits, `namei`
returns for each name an inode of the file's type and size, and `readi` returns its bytes.
-/

namespace Xv6

namespace Mkfs

variable {m m1 : Mkfs} {files : List Input} {type : Nat → UInt16} {file : Nat → List UInt8}

theorem load_superblock : Superblock.load superblock = sb := rfl

theorem Made.freeblock (h : Made files m1 type file m) : m.freeblock = m1.freeblock := by
  rw [h.writes]
  rfl

theorem Made.img_one (h : Made files m1 type file m) : Superblock.load (m.img 1) = sb := by
  have hone : (m1.put rootIno (rootInode (m1.view.ino rootIno))).img 1 = superblock :=
    (put_img_of_ne (one_ne_i2b rootIno) _).trans h.image.super
  have hwrote : m.img 1 = superblock := by
    rw [h.writes]
    exact (Function.update_of_ne (by decide : 1 ≠ ninodes / ipb + 3) (bitmap m1.freeblock) _).trans
      hone
  rw [hwrote, load_superblock]

theorem Made.img_data (h : Made files m1 type file m) {b : Nat} (hb : area.dataStart ≤ b) :
    m.img b = m1.img b := by
  have hdata : area.dataStart = 29 := rfl
  have hbitmap : ninodes / ipb + 3 = 28 := rfl
  have hroot : i2b rootIno = 2 := rfl
  rw [h.writes]
  refine (Function.update_of_ne (by omega) ..).trans (put_img_of_ne (by omega) _)

theorem Made.load (h : Made files m1 type file m) {i : Nat} (hi : i < ninodes) :
    Dinode.load (m.img (Fs.iblock i)) (dinodeOff i) =
      if i = rootIno then rootInode (m1.view.ino rootIno) else m1.view.ino i := by
  have hroot : rootIno < ninodes := by decide
  have hput := congrArg (fun v => v.ino i)
    (view_put (m := m1) hroot (rootInode (m1.view.ino rootIno)))
  have hblock : Fs.iblock i ≠ ninodes / ipb + 3 := by
    simp only [Fs.iblock, ipb, ninodes] at hi ⊢
    omega
  have himg : m.img (Fs.iblock i) =
      (m1.put rootIno (rootInode (m1.view.ino rootIno))).img (Fs.iblock i) := by
    rw [h.writes]
    exact Function.update_of_ne hblock ..
  have hview : (m1.put rootIno (rootInode (m1.view.ino rootIno))).view.ino i =
      Dinode.load ((m1.put rootIno (rootInode (m1.view.ino rootIno))).img (Fs.iblock i))
        (dinodeOff i) := if_pos hi
  rw [himg, ← hview]
  refine hput.trans ?_
  split
  · rename_i heq
    rw [heq]
    exact View.setIno_ino_self ..
  · rename_i hne
    exact View.setIno_ino_of_ne hne _

theorem stripName_sublist (name : List UInt8) : (stripName name).Sublist name := by
  unfold stripName
  split
  · exact List.sublist_cons_self ..
  · exact List.Sublist.refl _

theorem nul_notMem_stripName (f : Input) : (0 : UInt8) ∉ stripName f.name :=
  fun h => f.nul ((stripName_sublist f.name).subset h)

structure Names (files : List Input) : Prop where
  nonempty : ∀ f ∈ files, stripName f.name ≠ []
  dot : ∀ f ∈ files, (stripName f.name).take dirSiz ≠ dots 1
  dotdot : ∀ f ∈ files, (stripName f.name).take dirSiz ≠ dots 2
  nodup : (files.map fun f => (stripName f.name).take dirSiz).Nodup

def dotEntry : Fs.Entry :=
  { inum := rootIno, name := dots 1, pos := by decide, short := by decide, nul := by decide }

def dotdotEntry : Fs.Entry :=
  { inum := rootIno, name := dots 2, pos := by decide, short := by decide, nul := by decide }

def inputEntry (k : Nat) (f : Input) (hk : 2 + k < 65536) : Fs.Entry :=
  { inum := 2 + k, name := stripName f.name, pos := by omega, short := hk
    nul := nul_notMem_stripName f }

theorem exists_entries (h : Fits files) : ∃ es : List Fs.Entry,
    Fs.dirBytes (dotEntry :: dotdotEntry :: es) = rootBytes files ∧ es.length = files.length ∧
      ∀ k f, files[k]? = some f → ∃ e, es[k]? = some e ∧ e.inum = 2 + k ∧
        e.name = stripName f.name := by
  have hgen : ∀ (l : List Input) (n : Nat), 2 + n + l.length ≤ ninodes → ∃ es : List Fs.Entry,
      Fs.dirBytes es = entries (2 + n) l ∧ es.length = l.length ∧
        ∀ k f, l[k]? = some f → ∃ e, es[k]? = some e ∧ e.inum = 2 + n + k ∧
          e.name = stripName f.name := by
    intro l
    induction l with
    | nil => exact fun n _ => ⟨[], rfl, rfl, fun k f hk => by cases hk⟩
    | cons f l ih =>
      intro n hn
      rw [List.length_cons] at hn
      have hnum : ninodes = 200 := rfl
      obtain ⟨es, hbytes, hlen, hes⟩ := ih (n + 1) (by omega)
      refine ⟨inputEntry n f (by omega) :: es, ?_, by rw [List.length_cons, hlen]; rfl, ?_⟩
      · rw [Fs.dirBytes, List.flatMap_cons, ← Fs.dirBytes, hbytes]
        rfl
      · intro k g hk
        cases k with
        | zero =>
          obtain rfl : f = g := Option.some.inj hk
          exact ⟨_, rfl, rfl, rfl⟩
        | succ k =>
          obtain ⟨e, he, hinum, hname⟩ := hes k g hk
          exact ⟨e, he, by omega, hname⟩
  obtain ⟨es, hbytes, hlen, hes⟩ := hgen files 0 (by have := h.inodes; omega)
  refine ⟨es, ?_, hlen, hes⟩
  rw [Fs.dirBytes, List.flatMap_cons, List.flatMap_cons, ← Fs.dirBytes, hbytes, rootBytes,
    List.append_assoc]
  rfl

theorem skipelem_slash {name : List UInt8} (hne : name ≠ []) (hslash : Fs.slash ∉ name) :
    Fs.skipelem (Fs.slash :: name) = some ([], name.take dirSiz) := by
  have hall : ∀ c ∈ name, decide (c ≠ Fs.slash) = true :=
    fun c hc => decide_eq_true fun heq => hslash (heq ▸ hc)
  have hdrop : (Fs.slash :: name).dropWhile (· = Fs.slash) = name := by
    cases name with
    | nil => exact absurd rfl hne
    | cons c name =>
      have hc : c ≠ Fs.slash := fun heq => hslash (heq ▸ List.mem_cons_self)
      simp [hc]
  have htake : name.takeWhile (· ≠ Fs.slash) = name := List.takeWhile_eq_self_iff.mpr hall
  have hrest : name.dropWhile (· ≠ Fs.slash) = [] := List.dropWhile_eq_nil_iff.mpr hall
  simp only [Fs.skipelem, hdrop, if_neg hne, htake, hrest, List.dropWhile_nil]

variable {s0 s : Fs} {ip : Fin ninode} {i : Nat}

structure OnImage (m : Mkfs) (s : Fs) : Prop where
  quiet : s.Quiet
  content : ∀ b ≠ sb.logStart, s.content b = m.img b

theorem OnImage.setInode (h : OnImage m s) (ip : Fin ninode) (e : Inode) :
    OnImage m (s.setInode ip e) := ⟨h.quiet.setInode ip e, h.content⟩

theorem OnImage.load (h : OnImage m s) (hmade : Made files m1 type file m) (hi : i < ninodes) :
    Dinode.load (s.content (Fs.iblock i)) (dinodeOff i) =
      if i = rootIno then rootInode (m1.view.ino rootIno) else m1.view.ino i := by
  have hblock : Fs.iblock i ≠ sb.logStart := by
    have hlog : sb.logStart = 1014 := rfl
    simp only [Fs.iblock, ipb, ninodes] at hi ⊢
    omega
  rw [h.content _ hblock, hmade.load hi]

theorem Made.slot_lt (h : Made files m1 type file m) (hfree : m.freeblock ≤ sb.logStart)
    (htype : (m1.view.ino i).type ≠ 0) {k : Nat} (hz : m1.view.slot i k ≠ 0) :
    area.dataStart ≤ m1.view.slot i k ∧ m1.view.slot i k < sb.logStart := by
  obtain ⟨hdata, -, hbit⟩ := h.image.sound.used i k (by rwa [View.own_of_type htype])
  rw [View.own_of_type htype] at hdata hbit
  exact ⟨hdata, (of_decide_eq_true hbit).trans_le (h.freeblock ▸ hfree)⟩

theorem OnImage.sees (h : OnImage m s) (hmade : Made files m1 type file m)
    (hfree : m.freeblock ≤ sb.logStart) (htype : (m1.view.ino i).type ≠ 0)
    (haddrs : (s.icache ip).d.addrs = (m1.view.ino i).addrs) : Fs.Sees s ip m1.view i where
  quiet := h.quiet
  addrs := haddrs
  blk k hz := by
    obtain ⟨hdata, hlt⟩ := hmade.slot_lt hfree htype hz
    rw [h.content _ hlt.ne, hmade.img_data hdata]
    exact (if_pos hdata).symm

theorem Made.addr_ne_zero (h : Made files m1 type file m) (hpos : 0 < i) (hi : i < m1.freeinode)
    {x : Nat} (hx : x < (file i).length) : m1.view.addr i (x / bsize) ≠ 0 := by
  obtain ⟨htype, hholds⟩ := h.image.allocated i hpos hi
  refine h.image.sound.full i _ (by rw [hholds.type]; exact htype) ?_
  rw [hholds.size]
  exact (Nat.div_mul_le_self ..).trans_lt hx

theorem Made.root_lt (h : Made files m1 type file m) : rootIno < m1.freeinode := by
  have hroot : rootIno = 1 := rfl
  rw [h.count]
  omega

theorem OnImage.directory (h : OnImage m s) (hmade : Made files m1 type file m)
    (hfree : m.freeblock ≤ sb.logStart)
    (hd : (s.icache ip).d = rootInode (m1.view.ino rootIno)) {es : List Fs.Entry}
    (hes : Fs.dirBytes es = rootBytes files) : Fs.Directory s ip es := by
  have hrootlt := hmade.root_lt
  obtain ⟨htype, hholds⟩ := hmade.image.allocated rootIno (by decide) hrootlt
  have hlen : (m1.view.ino rootIno).size.toNat = direntSize * es.length := by
    rw [← Fs.length_dirBytes, hes, ← hmade.root.2]
    exact hholds.size
  have hbound : (m1.view.ino rootIno).size.toNat ≤ maxfile * bsize :=
    hmade.image.sound.fits rootIno (by rw [hholds.type]; exact htype)
  have hsize : ((m1.view.ino rootIno).size.toNat / bsize + 1) * bsize < 2 ^ 32 := by
    simp only [maxfile, ndirect, nindirect, bsize] at hbound ⊢
    omega
  refine ⟨?_, ?_, m1.view, rootIno, ?_, fun x hx => ?_, fun x hx => ?_⟩
  · rw [hd]
    exact hholds.type.trans hmade.root.1
  · rw [hd, rootInode, UInt32.toNat_ofNat_of_lt' hsize, ← hlen]
    simp only [bsize]
    omega
  · exact h.sees hmade hfree (by rw [hholds.type]; exact htype) (by rw [hd]; rfl)
  · rw [hes, ← hmade.root.2] at hx
    exact hmade.addr_ne_zero (by decide) hrootlt hx
  · rw [hes, ← hmade.root.2] at hx ⊢
    exact hholds.byte x hx

theorem root_locked (hmade : Made files m1 type file m) (hboot : Fs.Booted m.img sb s0) :
    ∃ ip e e', (Fs.iget rootIno).run s0 = .ok (ip, s0.setInode ip e) ∧
      (Fs.ilock ip).run (s0.setInode ip e) = .ok ((), s0.setInode ip e') ∧
      e'.ref = 1 ∧ e'.inum = rootIno ∧ e'.busy = true ∧
      e'.d = rootInode (m1.view.ino rootIno) := by
  have hzero : ∀ ip, (s0.icache ip).ref = 0 := fun ip => by rw [hboot.icache]; rfl
  obtain ⟨ip, s1, hget, -, rfl⟩ := Fs.iget_returns s0 rootIno
    (fun ip h => by rw [hzero ip] at h; exact absurd h.1 (lt_irrefl 0)) ⟨⟨0, by decide⟩, hzero _⟩
  generalize he : Fs.fresh (s0.icache ip) rootIno = e at hget
  have hon : OnImage m (s0.setInode ip e) :=
    (⟨hboot.quiet, hboot.content⟩ : OnImage m s0).setInode ip e
  have hself : (s0.setInode ip e).icache ip = e := Fs.setInode_icache_self e
  have hinum : e.inum = rootIno := by rw [← he]; rfl
  have href : e.ref = 1 := by rw [← he]; rfl
  have hd : ((s0.setInode ip e).loaded ip).d = rootInode (m1.view.ino rootIno) := by
    have hload := hon.load hmade (by decide : rootIno < ninodes)
    rw [if_pos rfl] at hload
    simp only [Fs.loaded, hself, hinum]
    exact hload
  obtain ⟨-, hholds⟩ := hmade.image.allocated rootIno (by decide) hmade.root_lt
  have htype : ((s0.setInode ip e).loaded ip).d.type ≠ 0 := by
    rw [hd]
    change (m1.view.ino rootIno).type ≠ 0
    rw [hholds.type, hmade.root.1]
    decide
  have hlock := @Fs.run_ilock (s0.setInode ip e) ip hon.quiet (by rw [hself, href]; decide)
    (by rw [hself, ← he]; rfl) (by rw [hself, ← he]; rfl) htype
  rw [Fs.setInode_setInode] at hlock
  refine ⟨ip, e, _, hget, hlock, ?_, ?_, rfl, hd⟩
  · change ((s0.setInode ip e).icache ip).ref = 1
    rw [hself, href]
  · change ((s0.setInode ip e).icache ip).inum = rootIno
    rw [hself, hinum]

theorem Names.other (hnames : Names files) {es : List Fs.Entry}
    (hinputs : ∀ k f, files[k]? = some f →
      ∃ e, es[k]? = some e ∧ e.inum = 2 + k ∧ e.name = stripName f.name)
    {k : Nat} {f : Input} (hf : files[k]? = some f) (j : Nat) (e' : Fs.Entry) (hj : j < k + 2)
    (he' : (dotEntry :: dotdotEntry :: es)[j]? = some e') :
    (stripName f.name).take dirSiz ≠ e'.name.take dirSiz := by
  have hmem : f ∈ files := List.mem_of_getElem? hf
  obtain ⟨hk, hfk⟩ := List.getElem?_eq_some_iff.mp hf
  match j with
  | 0 =>
    obtain rfl : dotEntry = e' := Option.some.inj he'
    exact hnames.dot f hmem
  | 1 =>
    obtain rfl : dotdotEntry = e' := Option.some.inj he'
    exact hnames.dotdot f hmem
  | j + 2 =>
    have hjlt : j < files.length := by omega
    obtain ⟨e, he, -, hname⟩ := hinputs j files[j] (List.getElem?_eq_getElem hjlt)
    obtain rfl : e = e' := Option.some.inj (he.symm.trans he')
    have hkj := @List.Nodup.getElem_inj_iff _ _ hnames.nodup k (by simpa using hk) j
      (by simpa using hjlt)
    simp only [List.getElem_map, hfk] at hkj
    rw [hname]
    intro heq
    have : k = j := hkj.mp heq
    omega

theorem namei_returns (hmade : Made files m1 type file m) (hfits : Fits files)
    (hnames : Names files) (hfree : m.freeblock ≤ sb.logStart)
    (hboot : Fs.Booted m.img sb s0) {k : Nat} {f : Input} (hf : files[k]? = some f)
    (cwd : Fin ninode) :
    (Fs.namei cwd (Fs.slash :: stripName f.name)).Returns s0 fun r s => ∃ ip, r = some ip ∧
      OnImage m s ∧ s.icache ip = Fs.fresh (s.icache ip) (2 + k) := by
  have hmem : f ∈ files := List.mem_of_getElem? hf
  have hslash : Fs.slash ∉ stripName f.name :=
    fun h => (hfits.inputs f hmem).name ((stripName_sublist f.name).subset h)
  have hzero : ∀ ip, (s0.icache ip).ref = 0 := fun ip => by rw [hboot.icache]; rfl
  obtain ⟨ip0, e1, e2, hget, hlock, href2, hinum2, hbusy2, hd⟩ := root_locked hmade hboot
  have hon2 : OnImage m (s0.setInode ip0 e2) :=
    (⟨hboot.quiet, hboot.content⟩ : OnImage m s0).setInode ip0 e2
  have hself2 : (s0.setInode ip0 e2).icache ip0 = e2 := Fs.setInode_icache_self e2
  -- the name is found at its entry
  obtain ⟨es, hes, hlen, hinputs⟩ := exists_entries hfits
  obtain ⟨e, he, hinum, hname⟩ := hinputs k f hf
  have hdir := hon2.directory hmade hfree (hself2 ▸ hd) hes
  have hlookup := Fs.run_dirlookup hdir (nul_notMem_stripName f) (t := k + 2) he (by rw [hname])
    (hnames.other hinputs hf)
  rw [hinum] at hlookup
  -- its inode gets another entry of the cache
  obtain ⟨jp, hjp⟩ : ∃ jp : Fin ninode, jp ≠ ip0 := by
    by_cases h0 : ip0 = ⟨0, by decide⟩
    · exact ⟨⟨1, by decide⟩, by rw [h0]; decide⟩
    · exact ⟨⟨0, by decide⟩, fun heq => h0 heq.symm⟩
  obtain ⟨ip1, s3, hget1, href1, rfl⟩ := Fs.iget_returns (s0.setInode ip0 e2) (2 + k)
    (fun ip h => by
      by_cases hip : ip = ip0
      · have hroot : rootIno = 1 := rfl
        rw [hip, hself2, hinum2] at h
        omega
      · rw [Fs.setInode_icache_of_ne hip, hzero ip] at h
        exact absurd h.1 (lt_irrefl 0))
    ⟨jp, by rw [Fs.setInode_icache_of_ne hjp]; exact hzero jp⟩
  have hne : ip1 ≠ ip0 := by
    intro heq
    rw [heq, hself2, href2] at href1
    cases href1
  generalize he3 : Fs.fresh ((s0.setInode ip0 e2).icache ip1) (2 + k) = e3 at hget1
  rw [Kernel.run_bind_of_ok hget1] at hlookup
  -- the root inode is put back
  have hself3 : ((s0.setInode ip0 e2).setInode ip1 e3).icache ip0 = e2 := by
    rw [Fs.setInode_icache_of_ne hne.symm, hself2]
  obtain ⟨-, hholds⟩ := hmade.image.allocated rootIno (by decide) hmade.root_lt
  have hput := @Fs.run_iunlockput ((s0.setInode ip0 e2).setInode ip1 e3) ip0
    (by rw [hself3]; exact hbusy2) (by rw [hself3]; exact href2) (by
      rw [hself3, hd]
      change (m1.view.ino rootIno).nlink ≠ 0
      rw [hholds.nlink]
      decide)
  generalize he4 : ({ ((s0.setInode ip0 e2).setInode ip1 e3).icache ip0 with
    busy := false, ref := 0 } : Inode) = e4 at hput
  refine ⟨some ip1, ((s0.setInode ip0 e2).setInode ip1 e3).setInode ip0 e4, ?_, ip1, rfl,
    (hon2.setInode ip1 e3).setInode ip0 e4, ?_⟩
  · have hloop : (Fs.namexLoop false (stripName f.name).length ip1 []).run
        (((s0.setInode ip0 e2).setInode ip1 e3).setInode ip0 e4) =
          .ok (some (ip1, []), ((s0.setInode ip0 e2).setInode ip1 e3).setInode ip0 e4) := by
      cases (stripName f.name).length <;> rfl
    have hnamex : (Fs.namex cwd (Fs.slash :: stripName f.name) false).run s0 =
        .ok (some (ip1, []), ((s0.setInode ip0 e2).setInode ip1 e3).setInode ip0 e4) := by
      rw [Fs.namex, List.head?_cons, if_pos rfl, Kernel.run_bind_of_ok hget, List.length_cons]
      exact (Fs.run_namexLoop _ (skipelem_slash (hnames.nonempty f hmem) hslash) hlock hdir.type
        hlookup hput).trans hloop
    rw [Fs.namei, Kernel.run_bind_of_ok hnamex]
    rfl
  · rw [Fs.setInode_icache_of_ne hne, Fs.setInode_icache_self, ← he3]
    rfl

theorem own_booted (hmade : Made files m1 type file m) (hfree : m.freeblock ≤ sb.logStart)
    (hboot : Fs.Booted m.img sb s0) (i k : Nat) :
    (s0.core.view sb).own i k = m1.view.own i k := by
  have hon0 : OnImage m s0 := ⟨hboot.quiet, hboot.content⟩
  have hstart : s0.log.start = sb.logStart := by rw [hboot.log]
  have hcore : ∀ b < sb.logStart, s0.core.blk b = s0.content b :=
    fun b hb => if_pos (hstart ▸ hb)
  by_cases hi : i < ninodes
  · have hino : (s0.core.view sb).ino i =
        if i = rootIno then rootInode (m1.view.ino rootIno) else m1.view.ino i := by
      have hdead : ∀ ip, s0.core.Live ip → (s0.core.icache ip).inum ≠ i := by
        intro ip hlive
        have hicache : s0.core.icache ip = (Fs.mounted m.img).icache ip := congrFun hboot.icache ip
        rw [Core.Live, hicache] at hlive
        exact absurd hlive.1 (lt_irrefl 0)
      have hblock : Fs.iblock i < sb.logStart := (i2b_lt hi).trans (by decide)
      rw [Core.view_ino hi, Core.ino_of_not_live hdead, Core.din, hcore _ hblock,
        hon0.load hmade hi]
    have htype : ((s0.core.view sb).ino i).type = (m1.view.ino i).type := by
      rw [hino]
      split
      · rename_i heq
        rw [heq]
        rfl
      · rfl
    have haddrs : ((s0.core.view sb).ino i).addrs = (m1.view.ino i).addrs := by
      rw [hino]
      split
      · rename_i heq
        rw [heq]
        rfl
      · rfl
    refine View.own_congr htype (fun hne k => View.slot_congr haddrs (fun hz => ?_) k) k
    obtain ⟨hdata, hlt⟩ := hmade.slot_lt hfree hne hz
    have hblk : (s0.core.view sb).blk (m1.view.slot i ndirect) =
        s0.core.blk (m1.view.slot i ndirect) := if_pos ⟨hdata, hlt⟩
    rw [hblk, hcore _ hlt, hon0.content _ hlt.ne, hmade.img_data hdata]
    exact (if_pos hdata).symm
  · have hzero : ∀ v : View, v.ino i = Dinode.zero → v.own i k = 0 :=
      fun v hv => if_pos (by rw [hv]; rfl)
    rw [hzero _ (if_neg hi), hzero _ (if_neg hi)]

theorem boots {files : List Input} (hfits : Fits files) : ∃ m s0 m1 type file,
    (main files).run start = .ok ((), m) ∧ Fs.initlog.run (Fs.mounted m.img) = .ok ((), s0) ∧
      m.freeblock = sb.dataStart + (blocks (direntSize * (2 + files.length)) + blocksOf files) ∧
      m.freeblock ≤ sb.logStart ∧ Made files m1 type file m ∧ m1.Tight ∧ Fs.Booted m.img sb s0 := by
  obtain ⟨_, m, hmain, hcount, m1, type, file, hmade, htight⟩ := main_returns hfits
  have hfree : m.freeblock ≤ sb.logStart := by
    have hnum : sb.dataStart + nblocks = sb.logStart := by decide
    have hblocks := hfits.blocks
    omega
  have hzero : m.img sb.logStart = fun _ => 0 := by
    rw [hmade.img_data (by decide)]
    exact hmade.image.zero _ (hmade.freeblock ▸ hfree)
  obtain ⟨_, s0, hinit, hboot⟩ := Fs.initlog_returns hmade.img_one hzero
  exact ⟨m, s0, m1, type, file, hmain, hinit, hcount, hfree, hmade, htight, hboot⟩

/-- **The kernel finds the files.** For every list of inputs that fits, however they are read,
`mkfs` makes an image, the kernel boots on it, `namei` finds each file under its name with its
type and size, `readi` returns its bytes, and no two inodes have a block in common. -/
theorem namei_readi_of_mkfs (files : List Input) (hfits : Fits files) (hnames : Names files) :
    ∃ m s0, (main files).run start = .ok ((), m) ∧
      Fs.initlog.run (Fs.mounted m.img) = .ok ((), s0) ∧
      (∀ f ∈ files, ∀ cwd, ∃ ip s1 s2,
        (Fs.namei cwd (Fs.slash :: stripName f.name)).run s0 = .ok (some ip, s1) ∧
        (Fs.ilock ip).run s1 = .ok ((), s2) ∧
        (s2.icache ip).d.type = tFile ∧ (s2.icache ip).d.size.toNat = f.bytes.length ∧
        (Fs.readi ip 0 (s2.icache ip).d.size.toNat).run s2 = .ok (some f.bytes, s2)) ∧
      ∀ i j k l, i ≠ j → (s0.core.view sb).own i k ≠ 0 →
        (s0.core.view sb).own i k ≠ (s0.core.view sb).own j l := by
  obtain ⟨m, s0, m1, type, file, hmain, hinit, -, hfree, hmade, -, hboot⟩ := boots hfits
  refine ⟨m, s0, hmain, hinit, fun f hf cwd => ?_, fun i j k l hij hz => ?_⟩
  · obtain ⟨k, hk, hfk⟩ := List.getElem_of_mem hf
    have hk' : files[k]? = some f := by rw [List.getElem?_eq_getElem hk, hfk]
    obtain ⟨_, s1, hnamei, ip, rfl, hon1, hentry⟩ :=
      namei_returns hmade hfits hnames hfree hboot hk' cwd
    have hi : 2 + k < m1.freeinode := by
      rw [hmade.count]
      omega
    have hlt : 2 + k < ninodes := hi.trans_le hmade.image.last
    have hne : 2 + k ≠ rootIno := by
      have hroot : rootIno = 1 := rfl
      omega
    obtain ⟨htype, hfile⟩ := hmade.inputs k f hk'
    obtain ⟨htype0, hholds⟩ := hmade.image.allocated (2 + k) (by omega) hi
    have hinum : (s1.icache ip).inum = 2 + k := by rw [hentry]; rfl
    have hd : (s1.loaded ip).d = m1.view.ino (2 + k) := by
      have hload := hon1.load hmade hlt
      rw [if_neg hne] at hload
      simp only [Fs.loaded, hinum]
      exact hload
    have hlock := @Fs.run_ilock s1 ip hon1.quiet (by rw [hentry]; exact Nat.one_pos)
      (by rw [hentry]; rfl) (by rw [hentry]; rfl) (by rw [hd, hholds.type]; exact htype0)
    have hself : (s1.setInode ip (s1.loaded ip)).icache ip = s1.loaded ip :=
      Fs.setInode_icache_self _
    have hsize : (m1.view.ino (2 + k)).size.toNat = f.bytes.length := by
      rw [Input.bytes, ← hfile]
      exact hholds.size
    refine ⟨ip, s1, s1.setInode ip (s1.loaded ip), hnamei, hlock, ?_, ?_, ?_⟩
    · rw [hself, hd, hholds.type, htype]
    · rw [hself, hd, hsize]
    · have hsees : Fs.Sees (s1.setInode ip (s1.loaded ip)) ip m1.view (2 + k) :=
        (hon1.setInode ip (s1.loaded ip)).sees hmade hfree
          (by rw [hholds.type]; exact htype0) (by rw [hself, hd])
      have hread : (Fs.readi ip 0 f.bytes.length).run (s1.setInode ip (s1.loaded ip)) =
          .ok (some ((f.bytes.drop 0).take f.bytes.length), s1.setInode ip (s1.loaded ip)) :=
        Fs.run_readi hsees (by rw [hself, hd, hholds.type, htype]; decide)
          (by rw [hself, hd, hsize]; omega) (by omega)
          (fun x hx => hmade.addr_ne_zero (by omega) hi (by rw [hfile]; exact hx)) fun x hx => by
            have hbyte := hholds.byte x
            rw [hfile] at hbyte
            exact hbyte hx
      rw [hself, hd, hsize, hread, List.drop_zero, List.take_length]
  · rw [own_booted hmade hfree hboot, own_booted hmade hfree hboot] at *
    exact fun heq => hij (hmade.image.sound.inj i k j l heq hz).1

def catAndReadme : List Input :=
  [{ name := [95, 99, 97, 116], chunks := [[1, 2, 3], [4]], nul := by decide },
   { name := [82, 69, 65, 68, 77, 69], chunks := [], nul := by decide }]

theorem namei_readi_of_mkfs_catAndReadme : ∃ m s0 ip s1 s2,
    (main catAndReadme).run start = .ok ((), m) ∧
      Fs.initlog.run (Fs.mounted m.img) = .ok ((), s0) ∧
      (Fs.namei ⟨0, by decide⟩ [47, 99, 97, 116]).run s0 = .ok (some ip, s1) ∧
      (Fs.ilock ip).run s1 = .ok ((), s2) ∧
      (Fs.readi ip 0 (s2.icache ip).d.size.toNat).run s2 = .ok (some [1, 2, 3, 4], s2) := by
  have hinputs : ∀ f ∈ catAndReadme, f.Fits := by
    intro f hf
    rcases List.mem_cons.mp hf with rfl | hf
    · exact ⟨by decide, by decide⟩
    · rw [List.mem_singleton.mp hf]
      exact ⟨by decide, by decide⟩
  obtain ⟨m, s0, hmain, hinit, hfiles, -⟩ := namei_readi_of_mkfs catAndReadme
    ⟨hinputs, by decide, by decide⟩ ⟨by decide, by decide, by decide, by decide⟩
  obtain ⟨ip, s1, s2, hnamei, hlock, -, -, hread⟩ :=
    hfiles _ List.mem_cons_self ⟨0, by decide⟩
  exact ⟨m, s0, ip, s1, s2, hmain, hinit, hnamei, hlock, hread⟩

end Mkfs

end Xv6
