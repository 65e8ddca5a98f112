import Xv6.Proof.MkfsFiles

/-!
# `mkfs` writes every list of files that fits

A file of `mkfs` has the blocks its bytes take and no others. So the number of blocks that a list of
files takes is known beforehand, and if there are that many, no assertion fails and no sector past
the end of the image is read.
-/

namespace Xv6

namespace Mkfs

def blocks (n : Nat) : Nat := (n + 511) / bsize + if ndirect * bsize < n then 1 else 0

structure Exact (v : View) (i n : Nat) : Prop where
  direct : ∀ bn < maxfile, (v.addr i bn ≠ 0 ↔ bn * bsize < n)
  indirect : v.slot i ndirect ≠ 0 ↔ ndirect * bsize < n

variable {m m' : Mkfs} {i : Nat} {din din' : Dinode} {type : Nat → UInt16}
  {file : Nat → List UInt8}

theorem Exact.congr {v v' : View} {n : Nat} (h : Exact v i n)
    (hslot : ∀ k, v'.slot i k = v.slot i k) : Exact v' i n := by
  refine ⟨fun bn hbn => ?_, ?_⟩
  · rw [View.addr, hslot]
    exact h.direct bn hbn
  · rw [hslot]
    exact h.indirect

theorem ite_one_cases (p : Prop) [Decidable p] :
    ((if p then 1 else 0 : Nat) = 1 ∧ p) ∨ ((if p then 1 else 0 : Nat) = 0 ∧ ¬p) := by
  split
  · exact Or.inl ⟨rfl, ‹_›⟩
  · exact Or.inr ⟨rfl, ‹_›⟩

theorem blocks_mono {a b : Nat} (h : a ≤ b) : blocks a ≤ blocks b := by
  have ha := ite_one_cases (ndirect * bsize < a)
  have hb := ite_one_cases (ndirect * bsize < b)
  simp only [blocks, bsize, ndirect] at ha hb ⊢
  omega

theorem Reached.exact {off n1 : Nat} (h : Reached i (off / 512) m din m' din')
    (he : Exact (m.appending i din) i off) (hpos : 0 < n1)
    (hn : off + n1 ≤ (off / 512 + 1) * 512) :
    Exact (m'.appending i din') i (off + n1) := by
  refine ⟨fun bn hbn => ?_, ?_⟩
  · by_cases heq : bn = off / 512
    · subst heq
      refine iff_of_true h.here ?_
      simp only [bsize]
      omega
    · rw [h.other bn heq, he.direct bn hbn]
      simp only [bsize]
      omega
  · rw [h.indirect, he.indirect]
    simp only [bsize, ndirect]
    omega

theorem count_eq {off n1 : Nat} (he : Exact (m.appending i din) i off)
    (hmax : off / 512 < maxfile) (hpos : 0 < n1) (hn : off + n1 ≤ (off / 512 + 1) * 512) :
    (if (m.appending i din).addr i (off / 512) = 0 then 1 else 0) +
      (if ndirect ≤ off / 512 ∧ (m.appending i din).slot i ndirect = 0 then 1 else 0) +
      blocks off = blocks (off + n1) := by
  have hdirect := he.direct _ hmax
  have hindirect := he.indirect
  have h1 := ite_one_cases ((m.appending i din).addr i (off / 512) = 0)
  have h2 := ite_one_cases (ndirect ≤ off / 512 ∧ (m.appending i din).slot i ndirect = 0)
  have h3 := ite_one_cases (ndirect * bsize < off)
  have h4 := ite_one_cases (ndirect * bsize < off + n1)
  simp only [blocks, bsize, ndirect, ne_eq] at hdirect hindirect h1 h2 h3 h4 ⊢
  omega

theorem Inv.slot_lt_size (h : m.Inv i din) {k : Nat} (hz : (m.appending i din).slot i k ≠ 0) :
    (m.appending i din).slot i k < size := by
  have hlt := (h.sound.used i k (by rwa [View.own_of_type h.ino_type])).2.1
  rwa [View.own_of_type h.ino_type] at hlt

theorem rsect_returns {sec : Nat} (h : sec < size) :
    (rsect sec).Returns m fun buf m' => buf = m.img sec ∧ m = m' := by
  refine ⟨m.img sec, m, ?_, rfl, rfl⟩
  rw [rsect, Kernel.run_get_bind, if_pos h]
  rfl

theorem assert_returns {cond : Prop} [Decidable cond] (msg : String) (h : cond) :
    (assert cond msg).Returns m fun _ m' => m = m' := by
  rw [assert, if_pos h]
  exact Kernel.returns_pure rfl

theorem entry_returns (h : m.Inv i din) (k : Fin (ndirect + 1))
    (hroom : (m.appending i din).slot i k = 0 → m.freeblock < size) :
    (entry din k).Returns m fun r _ => r.2 < size := by
  have hslot : (m.appending i din).slot i k = (din.addrs k).toNat := by
    rw [View.slot_direct _ k.isLt, appending_ino_self]
  rw [entry]
  split
  · rename_i hz
    exact ⟨_, _, rfl, hroom (hslot.trans hz)⟩
  · rename_i hz
    refine Kernel.returns_pure ?_
    rw [← hslot]
    exact h.slot_lt_size (by rwa [hslot])

theorem sector_returns (h : m.Inv i din) {fbn : Nat} (hmax : fbn < maxfile)
    (hroom : m.freeblock + (if (m.appending i din).addr i fbn = 0 then 1 else 0) +
      (if ndirect ≤ fbn ∧ (m.appending i din).slot i ndirect = 0 then 1 else 0) ≤ size) :
    (sector din fbn).Returns m fun r _ => r.2 < size := by
  rw [sector]
  split
  · rename_i hdirect
    refine entry_returns h _ fun hz => ?_
    rw [if_pos ((View.addr_direct i hdirect).trans hz)] at hroom
    omega
  · rename_i hdirect
    have hlast : (m.appending i din).slot i ndirect = 0 → m.freeblock < size := by
      intro hz
      have hcond : ndirect ≤ fbn ∧ (m.appending i din).slot i ndirect = 0 := ⟨by omega, hz⟩
      rw [if_pos hcond] at hroom
      omega
    refine ((entry_returns h (Fin.last ndirect) hlast).and (entry_ensures h _)).bind ?_
    rintro ⟨din1, a⟩ m1 ⟨hlt, hentry⟩
    obtain ⟨hgained, ha⟩ := hentry hlt
    obtain rfl : a = (m1.appending i din1).slot i ndirect := ha
    refine (rsect_returns hlt).bind ?_
    rintro _ _ ⟨rfl, rfl⟩
    have hinv := hgained.grown.kept.inv
    have haddr := addr_of_indirect hinv hdirect hmax hgained.here
    rw [← haddr]
    split
    · rename_i hz
      refine ⟨_, _, rfl, ?_⟩
      have hold : (m1.appending i din1).addr i fbn = (m.appending i din).addr i fbn :=
        hgained.other _ (View.slotOf_ne_ndirect fbn)
      have hcount : m1.freeblock =
          m.freeblock + if (m.appending i din).slot i ndirect = 0 then 1 else 0 := hgained.count
      rw [if_pos (hold ▸ hz), if_congr (and_iff_right (by omega)) rfl rfl] at hroom
      change m1.freeblock < size
      omega
    · rename_i hz
      exact Kernel.returns_pure (hinv.slot_lt_size hz)

theorem appendLoop_returns (fuel : Nat) {off : Nat} {p : List UInt8} (h : m.Inv i din)
    (he : Exact (m.appending i din) i off) (hfuel : p.length ≤ fuel)
    (hoff : off + p.length ≤ maxfile * bsize)
    (hroom : m.freeblock + blocks (off + p.length) ≤ size + blocks off) :
    (appendLoop fuel din off p).Returns m fun r m' =>
      Exact (m'.appending i r.1) i (off + p.length) ∧
        m'.freeblock + blocks off = m.freeblock + blocks (off + p.length) := by
  induction fuel generalizing m din off p with
  | zero =>
    obtain rfl := List.length_eq_zero_iff.mp (Nat.le_zero.mp hfuel)
    exact Kernel.returns_pure ⟨he, rfl⟩
  | succ fuel ih =>
    rw [appendLoop]
    split
    · rename_i hp
      subst hp
      exact Kernel.returns_pure ⟨he, rfl⟩
    · rename_i hp
      have hpos : 0 < p.length := List.length_pos_iff.mpr hp
      have hmax : off / 512 < maxfile := by
        simp only [bsize] at hoff
        omega
      obtain ⟨n1, hn⟩ : ∃ n1, n1 = min p.length ((off / 512 + 1) * 512 - off) := ⟨_, rfl⟩
      have hsplit : 0 < n1 ∧ n1 ≤ p.length ∧ off + n1 ≤ (off / 512 + 1) * 512 := by omega
      obtain ⟨hn1, hle, hblock⟩ := hsplit
      have htake : (p.take n1).length = n1 := by
        rw [List.length_take]
        omega
      have hdrop : (p.drop n1).length = p.length - n1 := List.length_drop
      have hmono : blocks (off + n1) ≤ blocks (off + p.length) := blocks_mono (by omega)
      -- the round takes no more than the blocks up to its end
      have hsector : m.freeblock +
          (if (m.appending i din).addr i (off / 512) = 0 then 1 else 0) +
          (if ndirect ≤ off / 512 ∧ (m.appending i din).slot i ndirect = 0 then 1 else 0) ≤
            size := by
        have hcount := count_eq he hmax hn1 hblock
        omega
      refine (assert_returns _ hmax).bind ?_
      rintro _ _ rfl
      refine ((sector_returns h hmax hsector).and (sector_ensures h hmax)).bind ?_
      rintro ⟨din1, x⟩ m1 ⟨hlt, hreached⟩
      obtain ⟨hreached, hx⟩ := hreached hlt
      have hne : x ≠ 0 := ne_of_eq_of_ne hx hreached.here
      refine (rsect_returns hlt).bind ?_
      rintro _ _ ⟨rfl, rfl⟩
      have hround := appended_block hreached.grown hx hne (p := p.take n1) (by omega)
      have hcount : m1.freeblock + blocks off = m.freeblock + blocks (off + n1) := by
        have hnew := hreached.count
        have hround := count_eq he hmax hn1 hblock
        omega
      have hexact := hreached.exact he hn1 hblock
      generalize hm2 : m1.wrote x
        (Fs.putBytes (m1.img x) (off - off / 512 * 512) (p.take n1)) = m2 at hround
      have hfree : m2.freeblock = m1.freeblock := by rw [← hm2]; rfl
      have hslot : ∀ k, (m2.appending i din1).slot i k = (m1.appending i din1).slot i k := by
        intro k
        have hinv1 := hreached.grown.kept.inv
        have hz : (m1.appending i din1).addr i (off / 512) ≠ 0 := hreached.here
        obtain ⟨hdata, -⟩ := hinv1.block hz
        rw [← View.addr] at hdata
        obtain rfl : x = (m1.appending i din1).addr i (off / 512) := hx
        rw [← hm2, appending_wsect hdata]
        exact hinv1.sound.slot_setBlk hinv1.ino_type hz _ hinv1.ino_type k
      rw [← hn]
      refine (?_ : (wsect x _).Returns m1 fun _ m' => m2 = m').bind ?_
      · exact ⟨(), _, rfl, hm2.symm⟩
      rintro _ _ rfl
      have htotal : off + n1 + (p.drop n1).length = off + p.length := by omega
      refine (ih hround.kept.inv (hexact.congr hslot) (by omega) (by omega) (by
        rw [htotal]
        omega)).mono ?_
      rw [htotal]
      rintro ⟨din2, off2⟩ m3 ⟨hexact', hcount'⟩
      exact ⟨hexact', by omega⟩

def Tight (m : Mkfs) : Prop := ∀ i, 0 < i → i < m.freeinode → Exact m.view i (m.view.size i)

theorem i2b_lt_size (hi : i < ninodes) : i2b i < size := (i2b_lt hi).trans (by decide)

theorem winode_returns (hi : i < ninodes) (d : Dinode) :
    (winode i d).Returns m fun _ m' => m.put i d = m' := by
  refine (rsect_returns (i2b_lt_size hi)).bind ?_
  rintro _ _ ⟨rfl, rfl⟩
  exact ⟨(), _, rfl, rfl⟩

theorem rinode_returns (hi : i < ninodes) :
    (rinode i).Returns m fun d m' => d = m.view.ino i ∧ m = m' := by
  have hino : m.view.ino i = Dinode.load (m.img (i2b i)) (dinodeOff i) := if_pos hi
  refine (rsect_returns (i2b_lt_size hi)).bind ?_
  rintro _ _ ⟨rfl, rfl⟩
  exact Kernel.returns_pure ⟨hino.symm, rfl⟩

theorem iappend_returns (h : m.Image type file) (ht : m.Tight) (hpos : 0 < i)
    (hi : i < m.freeinode) {p : List UInt8}
    (hlen : (file i).length + p.length ≤ maxfile * bsize)
    (hroom : m.freeblock + blocks ((file i).length + p.length) ≤
      size + blocks (file i).length) :
    (iappend i p).Returns m fun _ m' => m'.Tight ∧ m'.freeblock + blocks (file i).length =
      m.freeblock + blocks ((file i).length + p.length) := by
  have hlt : i < ninodes := hi.trans_le h.last
  have hinv := h.inv hpos hi
  obtain ⟨-, hholds⟩ := h.allocated i hpos hi
  have hexact := ht i hpos hi
  rw [← hholds.size] at hlen hroom ⊢
  have hfits : m.view.size i ≤ maxfile * bsize := by omega
  refine (rinode_returns hlt).bind ?_
  rintro _ _ ⟨rfl, rfl⟩
  refine ((appendLoop_returns p.length hinv (by rw [appending_self]; exact hexact) le_rfl hlen
    hroom).and (appendLoop_ensures p.length hinv le_rfl hfits)).bind ?_
  rintro ⟨din, off⟩ m1 ⟨⟨hexact1, hcount⟩, happ, hoff, hmax⟩
  refine (winode_returns hlt _).mono ?_
  rintro _ _ rfl
  refine ⟨?_, hcount⟩
  have hoff' : off = m.view.size i + p.length := hoff
  change (m1.put i (closed din off)).Tight
  intro j hjpos hj
  have hj' : j < m.freeinode := happ.kept.freeinode ▸ hj
  by_cases hji : j = i
  · subst hji
    rw [View.size, ino_closed_self hlt, toNat_closed_size din hmax, hoff', view_closed hlt]
    exact Exact.congr hexact1 fun k => View.slot_setIno (closed_addrs ..) j k
  · have hslot := fun k => happ.kept.slot j k hji
    rw [appending_self] at hslot
    rw [View.size, ino_closed_of_ne hlt happ hji, view_closed hlt]
    refine (ht j hjpos hj').congr fun k => ?_
    rw [View.slot_setIno_of_ne hji]
    exact hslot k (h.inv hjpos hj').type

theorem ialloc_returns (ht : m.Tight) (hlt : m.freeinode < ninodes) (t : UInt16) :
    (ialloc t).Returns m fun _ m' => m'.Tight ∧ m'.freeblock = m.freeblock := by
  generalize hm1 : ({ m with freeinode := m.freeinode + 1 } : Mkfs) = m1
  generalize hd : ({ Dinode.zero with type := t, nlink := 1 } : Dinode) = d
  have hput := winode_returns (m := m1) hlt d
  obtain ⟨_, _, hrun, rfl⟩ := hput
  refine ⟨m.freeinode, m1.put m.freeinode d, ?_, ?_, by rw [← hm1]; rfl⟩
  · rw [ialloc, Kernel.run_get_bind, Kernel.run_modify_bind, hm1, hd, Kernel.run_bind_of_ok hrun]
    rfl
  · have hview : (m1.put m.freeinode d).view = m.view.setIno m.freeinode d := by
      rw [view_put hlt, ← hm1]
      rfl
    intro j hpos hj
    rw [hview]
    by_cases hji : j = m.freeinode
    · subst hji
      have hslot := slot_of_addrs_zero (v := m.view.setIno m.freeinode d) (i := m.freeinode) (by
        rw [View.setIno_ino_self, ← hd]
        rfl)
      have hsize : (m.view.setIno m.freeinode d).size m.freeinode = 0 := by
        rw [View.size, View.setIno_ino_self, ← hd]
        rfl
      rw [hsize]
      refine ⟨fun bn _ => ?_, ?_⟩
      · exact iff_of_false (fun hne => hne (hslot _)) (Nat.not_lt_zero _)
      · exact iff_of_false (fun hne => hne (hslot _)) (Nat.not_lt_zero _)
    · have hj' : j < m.freeinode + 1 := by rw [← hm1] at hj; exact hj
      have hsize : (m.view.setIno m.freeinode d).size j = m.view.size j := by
        rw [View.size, View.setIno_ino_of_ne hji, View.size]
      rw [hsize]
      exact (ht j hpos (by omega)).congr fun k => View.slot_setIno_of_ne hji d k

theorem appendAll_returns (chunks : List (List UInt8)) (h : m.Image type file) (ht : m.Tight)
    (hpos : 0 < i) (hi : i < m.freeinode)
    (hlen : (file i).length + chunks.flatten.length ≤ maxfile * bsize)
    (hroom : m.freeblock + blocks ((file i).length + chunks.flatten.length) ≤
      size + blocks (file i).length) :
    (Kernel.forEach chunks (iappend i)).Returns m fun _ m' => m'.Tight ∧
      m'.freeblock + blocks (file i).length =
        m.freeblock + blocks ((file i).length + chunks.flatten.length) := by
  induction chunks generalizing m file with
  | nil => exact Kernel.returns_pure ⟨ht, rfl⟩
  | cons p chunks ih =>
    rw [List.flatten_cons, List.length_append, ← Nat.add_assoc] at hlen hroom ⊢
    have hmono : blocks ((file i).length + p.length) ≤
        blocks ((file i).length + p.length + chunks.flatten.length) :=
      blocks_mono (Nat.le_add_right ..)
    refine ((iappend_returns h ht hpos hi (by omega) (by omega)).and
      (iappend_ensures h hpos hi p)).bind ?_
    rintro _ m1 ⟨⟨ht1, hcount1⟩, h1, hfree⟩
    have hfile : (Function.update file i (file i ++ p) i).length =
        (file i).length + p.length := by
      rw [Function.update_self, List.length_append]
    refine (ih h1 ht1 (hfree ▸ hi) (by rw [hfile]; omega) (by rw [hfile]; omega)).mono ?_
    rw [hfile]
    rintro _ m2 ⟨ht2, hcount2⟩
    exact ⟨ht2, by omega⟩

theorem length_strncpy (t : Block) (i n : Nat) : (Fs.strncpy t i n).length = n := by
  induction n generalizing i with
  | zero => rfl
  | succ n ih =>
    rw [Fs.strncpy, List.length_cons]
    split
    · rw [List.length_replicate]
    · rw [ih]

theorem length_direntBytes (inum : Nat) (name : Block) :
    (Fs.direntBytes inum name).length = direntSize := by
  rw [Fs.direntBytes, List.length_cons, List.length_cons, length_strncpy]
  rfl

def Input.bytes (f : Input) : List UInt8 := f.chunks.flatten

structure Input.Fits (f : Input) : Prop where
  name : Fs.slash ∉ f.name
  size : f.bytes.length ≤ maxfile * bsize

theorem addFile_returns (h : m.Image type file) (ht : m.Tight) (hroot : rootIno < m.freeinode)
    (hlt : m.freeinode < ninodes) {f : Input} (hf : f.Fits)
    (hdir : (file rootIno).length + direntSize ≤ maxfile * bsize)
    (hroom : m.freeblock + blocks ((file rootIno).length + direntSize) + blocks f.bytes.length ≤
      size + blocks (file rootIno).length) :
    (addFile f).Returns m fun _ m' => m'.Tight ∧ m'.freeblock + blocks (file rootIno).length =
      m.freeblock + blocks ((file rootIno).length + direntSize) + blocks f.bytes.length := by
  refine (assert_returns _ hf.name).bind ?_
  rintro _ _ rfl
  refine ((ialloc_returns ht hlt tFile).and (ialloc_ensures h hlt (by decide))).bind ?_
  rintro _ m1 ⟨⟨ht1, hblock1⟩, rfl, hfree1, h1⟩
  have hne : rootIno ≠ m.freeinode := hroot.ne
  have hentry : (Fs.direntBytes m.freeinode (Fs.Name.bytes (stripName f.name))).length =
      direntSize := length_direntBytes ..
  have hrootlen : (Function.update file m.freeinode [] rootIno).length =
      (file rootIno).length := by rw [Function.update_of_ne hne]
  refine ((iappend_returns h1 ht1 (by decide) (by omega) (by rw [hrootlen, hentry]; exact hdir)
    (by rw [hrootlen, hentry]; omega)).and (iappend_ensures h1 (by decide) (by omega) _)).bind ?_
  rw [hrootlen, hentry]
  rintro _ m2 ⟨⟨ht2, hcount2⟩, h2, hfree2⟩
  have hempty : (Function.update (Function.update file m.freeinode []) rootIno
      (Function.update file m.freeinode [] rootIno ++
        Fs.direntBytes m.freeinode (Fs.Name.bytes (stripName f.name))) m.freeinode).length = 0 := by
    rw [Function.update_of_ne hne.symm, Function.update_self]
    rfl
  have hzero : blocks 0 = 0 := rfl
  have hbytes : f.chunks.flatten.length = f.bytes.length := rfl
  have hsize := hf.size
  refine (appendAll_returns f.chunks h2 ht2 (by omega) (by omega)
    (by rw [hempty, Nat.zero_add, hbytes]; exact hsize)
    (by rw [hempty, Nat.zero_add, hbytes, hzero]; omega)).mono ?_
  rw [hempty, Nat.zero_add, hbytes, hzero]
  rintro _ m3 ⟨ht3, hcount3⟩
  exact ⟨ht3, by omega⟩

def blocksOf (files : List Input) : Nat := (files.map fun f => blocks f.bytes.length).sum

theorem addFiles_returns (files : List Input) (h : m.Image type file) (ht : m.Tight)
    (hroot : rootIno < m.freeinode) (hlast : m.freeinode + files.length ≤ ninodes)
    (hfiles : ∀ f ∈ files, f.Fits)
    (hdir : (file rootIno).length + direntSize * files.length ≤ maxfile * bsize)
    (hroom : m.freeblock + blocks ((file rootIno).length + direntSize * files.length) +
      blocksOf files ≤ size + blocks (file rootIno).length) :
    (Kernel.forEach files addFile).Returns m fun _ m' => m'.Tight ∧
      m'.freeblock + blocks (file rootIno).length = m.freeblock +
        blocks ((file rootIno).length + direntSize * files.length) + blocksOf files := by
  induction files generalizing m type file with
  | nil => exact Kernel.returns_pure ⟨ht, rfl⟩
  | cons f files ih =>
    rw [List.length_cons] at hlast
    have hlen : (file rootIno).length + direntSize * (f :: files).length =
        (file rootIno).length + direntSize + direntSize * files.length := by
      rw [List.length_cons, Nat.mul_succ]
      omega
    have hsum : blocksOf (f :: files) = blocks f.bytes.length + blocksOf files := rfl
    rw [hlen] at hdir
    rw [hlen, hsum] at hroom ⊢
    have hmono : blocks ((file rootIno).length + direntSize) ≤
        blocks ((file rootIno).length + direntSize + direntSize * files.length) :=
      blocks_mono (Nat.le_add_right ..)
    refine ((addFile_returns h ht hroot (by omega) (hfiles f List.mem_cons_self) (by omega)
      (by omega)).and (addFile_ensures h hroot (by omega) f)).bind ?_
    rintro _ m1 ⟨⟨ht1, hcount1⟩, hfree1, h1⟩
    have hne : rootIno ≠ m.freeinode := hroot.ne
    have hrootlen : (Function.update (Function.update file rootIno
        (file rootIno ++ entryOf m.freeinode f)) m.freeinode f.chunks.flatten rootIno).length =
          (file rootIno).length + direntSize := by
      rw [Function.update_of_ne hne, Function.update_self, List.length_append, entryOf,
        length_direntBytes]
    refine (ih h1 ht1 (by omega) (by omega) (fun g hg => hfiles g (List.mem_cons_of_mem f hg))
      (by rw [hrootlen]; exact hdir) (by rw [hrootlen]; omega)).mono ?_
    rw [hrootlen]
    rintro _ m2 ⟨ht2, hcount2⟩
    exact ⟨ht2, by omega⟩

structure Fits (files : List Input) : Prop where
  inputs : ∀ f ∈ files, f.Fits
  inodes : 2 + files.length ≤ ninodes
  blocks : blocks (direntSize * (2 + files.length)) + blocksOf files ≤ nblocks

theorem balloc_returns {used : Nat} (h : used < 512 * 8) :
    (balloc used).Returns m fun _ m' => m' = m.wrote (ninodes / ipb + 3) (bitmap used) := by
  refine (assert_returns _ h).bind ?_
  rintro _ _ rfl
  exact ⟨(), _, rfl, rfl⟩

theorem start_tight : start.Tight := by
  intro i hpos hi
  have hfree : start.freeinode = 1 := rfl
  omega

theorem main_returns {files : List Input} (h : Fits files) :
    (main files).Returns start fun _ m =>
      m.freeblock = sb.dataStart + (blocks (direntSize * (2 + files.length)) + blocksOf files) ∧
        ∃ m1 type file, Made files m1 type file m ∧ m1.Tight := by
  have hnum : sb.dataStart = 29 ∧ size = 1024 ∧ nblocks = 985 := by decide
  obtain ⟨hdata, hsize, hnblocks⟩ := hnum
  generalize htot : blocks (direntSize * (2 + files.length)) + blocksOf files = total
  have hblocks : total ≤ nblocks := htot ▸ h.blocks
  have hinodes := h.inodes
  refine (assert_returns _ (by decide)).bind ?_
  rintro _ _ rfl
  have h0 := start_image (fun _ => 0) fun _ => []
  refine ((ialloc_returns start_tight (by decide) tDir).and
    (ialloc_ensures h0 (by decide) (by decide))).bind ?_
  rintro _ m1 ⟨⟨ht1, hblock1⟩, rfl, hfree1, h1⟩
  refine (assert_returns _ rfl).bind ?_
  rintro _ _ rfl
  have hone : start.freeinode = rootIno := rfl
  have hstart : start.freeblock = 29 := rfl
  rw [hone] at hfree1 h1 ⊢
  have hroot : rootIno = 1 := rfl
  have hdirent : direntSize = 16 := rfl
  have hzero : blocks 0 = 0 := rfl
  have h16 : blocks 16 = 1 := rfl
  have h32 : blocks 32 = 1 := rfl
  have hmax : maxfile * bsize = 71680 := rfl
  have hdot := length_direntBytes rootIno (Fs.Name.bytes (dots 1))
  have hdots := length_direntBytes rootIno (Fs.Name.bytes (dots 2))
  have hlen1 : (Function.update (fun _ => []) rootIno ([] : List UInt8) rootIno).length = 0 := by
    rw [Function.update_self]
    rfl
  refine ((iappend_returns h1 ht1 (by decide) (by omega) (by rw [hlen1, hdot]; decide)
    (by rw [hlen1, hdot, hzero, Nat.zero_add, hdirent, h16]; omega)).and
      (iappend_ensures h1 (by decide) (by omega) _)).bind ?_
  rw [hlen1, hdot, hzero, Nat.zero_add, hdirent, h16]
  rintro _ m2 ⟨⟨ht2, hcount2⟩, h2, hfree2⟩
  simp only [Function.update_self, Function.update_idem, List.nil_append] at h2
  have hlen2 : (Function.update (fun _ => []) rootIno
      (Fs.direntBytes rootIno (Fs.Name.bytes (dots 1))) rootIno).length = 16 := by
    rw [Function.update_self]
    exact hdot
  refine ((iappend_returns h2 ht2 (by decide) (by omega) (by rw [hlen2, hdots]; decide)
    (by rw [hlen2, hdots, hdirent, h32, h16]; omega)).and
      (iappend_ensures h2 (by decide) (by omega) _)).bind ?_
  rw [hlen2, hdots, hdirent, h32, h16]
  rintro _ m3 ⟨⟨ht3, hcount3⟩, h3, hfree3⟩
  simp only [Function.update_self, Function.update_idem] at h3
  have hlen3 : (Function.update (fun _ => []) rootIno
      (Fs.direntBytes rootIno (Fs.Name.bytes (dots 1)) ++
        Fs.direntBytes rootIno (Fs.Name.bytes (dots 2))) rootIno).length = 32 := by
    rw [Function.update_self, List.length_append, hdot, hdots]
    rfl
  have htotal : direntSize * (2 + files.length) = 32 + direntSize * files.length := by
    rw [hdirent]
    omega
  rw [htotal] at htot
  have hninodes : ninodes = 200 := rfl
  have hdir : 32 + direntSize * files.length ≤ maxfile * bsize := by
    rw [hdirent]
    omega
  refine ((addFiles_returns files h3 ht3 (by omega) (by omega) h.inputs (by rw [hlen3]; exact hdir)
    (by rw [hlen3, h32]; omega)).and (addFiles_ensures files h3 (by omega) (by omega))).bind ?_
  rw [hlen3, h32]
  rintro _ m4 ⟨⟨ht4, hcount4⟩, hfree4, type, file, h4, hadded⟩
  have hfree : m3.freeinode = 2 := by omega
  rw [hfree] at hadded hfree4
  refine (rinode_returns (by decide)).bind ?_
  rintro _ _ ⟨rfl, rfl⟩
  refine (winode_returns (by decide) _).bind ?_
  rintro _ _ rfl
  have hused : m4.usedblocks < 512 * 8 := by
    have := h4.used
    omega
  refine (balloc_returns hused).mono ?_
  rintro _ _ rfl
  refine ⟨?_, m4, type, file, ⟨h4, hfree4, ?_, ⟨?_, ?_⟩, hadded.new⟩, ht4⟩
  · change m4.freeblock = _
    omega
  · rw [← h4.used]
    rfl
  · rw [(hadded.old rootIno (by decide)).1, Function.update_self]
  · rw [hadded.root, Function.update_self]
    rfl

end Mkfs

end Xv6
