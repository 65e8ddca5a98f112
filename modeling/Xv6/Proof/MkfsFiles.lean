import Xv6.Proof.MkfsImage

/-!
# The files of an image

An image holds a list of bytes for each of its inodes. `ialloc` adds an empty file, `iappend`
appends to one, and so `mkfs` makes a root directory of its entries and a file of each input,
however the input was read.
-/

namespace Xv6

namespace Mkfs

structure Holds (v : View) (i : Nat) (t : UInt16) (bytes : List UInt8) : Prop where
  type : (v.ino i).type = t
  nlink : (v.ino i).nlink = 1
  size : v.size i = bytes.length
  byte : ∀ x < bytes.length, v.byte i x = bytes.getD x 0

structure Image (m : Mkfs) (type : Nat → UInt16) (file : Nat → List UInt8) : Prop where
  sound : m.view.Sound area
  zero : ∀ b, m.freeblock ≤ b → m.img b = fun _ => 0
  used : m.usedblocks = m.freeblock
  super : m.img 1 = superblock
  first : 0 < m.freeinode
  last : m.freeinode ≤ ninodes
  vacant : ∀ i, i = 0 ∨ m.freeinode ≤ i → m.view.ino i = Dinode.zero
  allocated : ∀ i, 0 < i → i < m.freeinode → type i ≠ 0 ∧ Holds m.view i (type i) (file i)

variable {m m' : Mkfs} {type : Nat → UInt16} {file : Nat → List UInt8} {i : Nat}

def put (m : Mkfs) (i : Nat) (d : Dinode) : Mkfs :=
  m.wrote (i2b i) (d.store (m.img (i2b i)) (dinodeOff i))

theorem winode_ensures {d : Dinode} {Q : Unit → Mkfs → Prop} (h : Q () (m.put i d)) :
    (winode i d).Ensures m Q := by
  refine (rsect_ensures (Q := fun buf m' => buf = m.img (i2b i) ∧ m = m') fun _ =>
    ⟨rfl, rfl⟩).bind ?_
  rintro _ _ ⟨rfl, rfl⟩
  exact wsect_ensures h

theorem i2b_lt (hi : i < ninodes) : i2b i < area.dataStart := @iblock_lt_dataStart area i hi

theorem view_put (hi : i < ninodes) (d : Dinode) : (m.put i d).view = m.view.setIno i d := by
  have hcore : (m.put i d).core = m.core.setDin i d := rfl
  simp only [view, View.setIno, View.mk.injEq]
  refine ⟨?_, rfl, ?_⟩
  · funext j
    by_cases hj : j = i
    · rw [hj, Function.update_self, if_pos hi, hcore, Core.din_setDin, if_pos rfl]
    · rw [Function.update_of_ne hj]
      split
      · rw [hcore, Core.din_setDin, if_neg hj]
      · rfl
  · funext b
    split
    · rename_i hb
      exact Function.update_of_ne ((i2b_lt hi).trans_le hb).ne' ..
    · rfl

theorem rinode_ensures {Q : Dinode → Mkfs → Prop} (hi : i < ninodes)
    (h : Q (m.view.ino i) m) : (rinode i).Ensures m Q := by
  have hino : m.view.ino i = Dinode.load (m.img (i2b i)) (dinodeOff i) := if_pos hi
  refine (rsect_ensures (Q := fun buf m' => buf = m.img (i2b i) ∧ m = m') fun _ =>
    ⟨rfl, rfl⟩).bind ?_
  rintro _ _ ⟨rfl, rfl⟩
  exact Kernel.ensures_pure (hino ▸ h)

theorem put_img_of_ne {b : Nat} (hb : b ≠ i2b i) (d : Dinode) : (m.put i d).img b = m.img b :=
  Function.update_of_ne hb ..

theorem one_ne_i2b (i : Nat) : 1 ≠ i2b i := (one_lt_iblock i).ne

theorem Image.dataStart_le (h : m.Image type file) : area.dataStart ≤ m.freeblock := by
  by_contra hlt
  have hbit := h.sound.system m.freeblock (by omega)
  exact lt_irrefl _ (of_decide_eq_true hbit)

theorem Inv.dataStart_le {din : Dinode} (h : m.Inv i din) : area.dataStart ≤ m.freeblock := by
  by_contra hlt
  have hbit := h.sound.system m.freeblock (by omega)
  rw [h.free] at hbit
  cases hbit

theorem appending_self (m : Mkfs) (i : Nat) : m.appending i (m.view.ino i) = m.view := by
  rw [appending, View.setIno, Function.update_eq_self]

theorem Image.inv (h : m.Image type file) (hpos : 0 < i) (hi : i < m.freeinode) :
    m.Inv i (m.view.ino i) := by
  obtain ⟨htype, hholds⟩ := h.allocated i hpos hi
  refine ⟨by rw [appending_self]; exact h.sound, h.zero, h.used, ?_⟩
  rw [hholds.type]
  exact htype

theorem full_of_appended (h : m.Image type file) (hpos : 0 < i) (hi : i < m.freeinode)
    {p : List UInt8} {din : Dinode}
    (happ : Appended i m (m.view.ino i) (m.view.size i) p m' din) (bn : Nat)
    (hlt : bn * bsize < m.view.size i + p.length) : (m'.appending i din).addr i bn ≠ 0 := by
  have hinv := h.inv hpos hi
  by_cases hold : bn * bsize < m.view.size i
  · have hne := h.sound.full i bn hinv.type hold
    have hsame := happ.kept.addr i bn hinv.ino_type
    rw [appending_self] at hsame
    rwa [hsame hne]
  · have hhere := (happ.here (bn * bsize - m.view.size i) (by omega)).1
    rw [show m.view.size i + (bn * bsize - m.view.size i) = bn * bsize by omega,
      Nat.mul_div_cancel _ (by decide)] at hhere
    exact hhere

def closed (din : Dinode) (off : Nat) : Dinode := { din with size := UInt32.ofNat off }

theorem closed_addrs (m : Mkfs) (i : Nat) (din : Dinode) (off : Nat) :
    (closed din off).addrs = ((m.appending i din).ino i).addrs := by
  rw [appending_ino_self]
  rfl

theorem toNat_closed_size (din : Dinode) {off : Nat} (hmax : off ≤ maxfile * bsize) :
    (closed din off).size.toNat = off :=
  UInt32.toNat_ofNat_of_lt' (hmax.trans_lt (by decide))

theorem view_closed (hi : i < ninodes) (din : Dinode) (off : Nat) :
    (m.put i (closed din off)).view = (m.appending i din).setIno i (closed din off) := by
  rw [view_put hi]
  simp only [appending, View.setIno, Function.update_idem]

section Closed

variable {p : List UInt8} {din : Dinode} {off : Nat}

theorem ino_closed_self (hi : i < ninodes) :
    (m.put i (closed din off)).view.ino i = closed din off := by
  rw [view_closed hi, View.setIno_ino_self]

theorem ino_closed_of_ne (hi : i < ninodes)
    (happ : Appended i m (m.view.ino i) (m.view.size i) p m' din) {j : Nat} (hj : j ≠ i) :
    (m'.put i (closed din off)).view.ino j = m.view.ino j := by
  have hkept := happ.kept.ino hj
  rw [appending_self] at hkept
  rw [view_closed hi, View.setIno_ino_of_ne hj, hkept]

theorem byte_closed (hi : i < ninodes) (hs : m.view.Sound area)
    (happ : Appended i m (m.view.ino i) (m.view.size i) p m' din) {j x : Nat}
    (hj : (m.view.ino j).type ≠ 0) (hx : x < m.view.size j) :
    (m'.put i (closed din off)).view.byte j x = m.view.byte j x := by
  have hne : m.view.addr j (x / bsize) ≠ 0 :=
    hs.full j _ hj ((Nat.div_mul_le_self ..).trans_lt hx)
  have hkept := happ.byte j x
  rw [appending_self] at hkept
  rw [view_closed hi, View.byte_setIno (closed_addrs ..), hkept hj hne fun heq => heq ▸ hx]

theorem Holds.closed_of_ne (hi : i < ninodes) (hs : m.view.Sound area)
    (happ : Appended i m (m.view.ino i) (m.view.size i) p m' din) {j : Nat} (hj : j ≠ i)
    {t : UInt16} {bytes : List UInt8} (ht : t ≠ 0) (h : Holds m.view j t bytes) :
    Holds (m'.put i (closed din off)).view j t bytes where
  type := by rw [ino_closed_of_ne hi happ hj, h.type]
  nlink := by rw [ino_closed_of_ne hi happ hj, h.nlink]
  size := by
    rw [View.size, ino_closed_of_ne hi happ hj]
    exact h.size
  byte x hx := by
    rw [byte_closed hi hs happ (by rw [h.type]; exact ht) (by rw [h.size]; exact hx), h.byte x hx]

theorem Holds.closed_self (hi : i < ninodes) (hs : m.view.Sound area)
    (happ : Appended i m (m.view.ino i) (m.view.size i) p m' din)
    (hoff : off = m.view.size i + p.length) (hmax : off ≤ maxfile * bsize) {t : UInt16}
    {bytes : List UInt8} (ht : t ≠ 0) (h : Holds m.view i t bytes) :
    Holds (m'.put i (closed din off)).view i t (bytes ++ p) := by
  obtain ⟨addrs, hdin⟩ := happ.kept.inode
  refine ⟨?_, ?_, ?_, fun x hx => ?_⟩
  · rw [ino_closed_self hi, closed, hdin]
    exact h.type
  · rw [ino_closed_self hi, closed, hdin]
    exact h.nlink
  · rw [View.size, ino_closed_self hi, toNat_closed_size din hmax, hoff, h.size, List.length_append]
  · by_cases hold : x < bytes.length
    · rw [byte_closed hi hs happ (by rw [h.type]; exact ht) (by rw [h.size]; exact hold),
        h.byte x hold, List.getD_append _ _ _ _ hold]
    · rw [List.length_append] at hx
      obtain ⟨-, hnew⟩ := happ.here (x - bytes.length) (by omega)
      rw [h.size, show bytes.length + (x - bytes.length) = x by omega] at hnew
      rw [view_closed hi, View.byte_setIno (closed_addrs ..), hnew,
        List.getD_append_right _ _ _ _ (by omega)]

end Closed

theorem iappend_ensures (h : m.Image type file) (hpos : 0 < i) (hi : i < m.freeinode)
    (p : List UInt8) :
    (iappend i p).Ensures m fun _ m' =>
      m'.Image type (Function.update file i (file i ++ p)) ∧ m'.freeinode = m.freeinode := by
  have hlt : i < ninodes := hi.trans_le h.last
  have hinv := h.inv hpos hi
  have hfits : m.view.size i ≤ maxfile * bsize := h.sound.fits i hinv.type
  refine (rinode_ensures (Q := fun d m' => d = m.view.ino i ∧ m = m') hlt ⟨rfl, rfl⟩).bind ?_
  rintro _ _ ⟨rfl, rfl⟩
  refine (appendLoop_ensures p.length hinv le_rfl hfits).bind ?_
  rintro ⟨din, off⟩ m1 ⟨happ, hoff, hmax⟩
  refine winode_ensures ?_
  have hoff' : off = m.view.size i + p.length := hoff
  change (m1.put i (closed din off)).Image type _ ∧ _
  refine ⟨⟨?_, fun b hb => ?_, happ.kept.inv.used, ?_, ?_, ?_, fun j hj => ?_,
    fun j hjpos hj => ?_⟩, happ.kept.freeinode⟩
  · rw [view_closed hlt]
    refine happ.kept.inv.sound.setIno (closed_addrs ..) ?_ ?_ fun bn hbn => ?_
    · rw [appending_ino_self]
      rfl
    · rw [toNat_closed_size din hmax]
      exact hmax
    · rw [toNat_closed_size din hmax] at hbn
      exact full_of_appended h hpos hi happ bn (hoff' ▸ hbn)
  · have hb' : m1.freeblock ≤ b := hb
    have hne := (i2b_lt hlt).trans_le (happ.kept.inv.dataStart_le.trans hb')
    rw [put_img_of_ne hne.ne', happ.kept.inv.zero b hb']
  · rw [put_img_of_ne (one_ne_i2b i), happ.kept.low 1 (by decide), h.super]
  · exact happ.kept.freeinode ▸ h.first
  · exact happ.kept.freeinode ▸ h.last
  · have hj' : j = 0 ∨ m.freeinode ≤ j := happ.kept.freeinode ▸ hj
    rw [ino_closed_of_ne hlt happ (by omega), h.vacant j hj']
  · have hj' : j < m.freeinode := happ.kept.freeinode ▸ hj
    obtain ⟨hjtype, hholds⟩ := h.allocated j hjpos hj'
    refine ⟨hjtype, ?_⟩
    by_cases hji : j = i
    · subst hji
      rw [Function.update_self]
      exact hholds.closed_self hlt h.sound happ hoff' hmax hjtype
    · rw [Function.update_of_ne hji]
      exact hholds.closed_of_ne hlt h.sound happ hji hjtype

theorem slot_of_addrs_zero {v : View} (h : (v.ino i).addrs = fun _ => 0) (k : Nat) :
    v.slot i k = 0 := by
  rw [View.slot]
  split
  · rw [h]
    rfl
  · rw [if_pos (Or.inl (by rw [h]; rfl))]

theorem sound_setIno_of_vacant {v : View} (hs : v.Sound area) (hvacant : (v.ino i).type = 0)
    {d : Dinode} (haddrs : d.addrs = fun _ => 0) (hsize : d.size = 0) :
    (v.setIno i d).Sound area := by
  have hself : ((v.setIno i d).ino i) = d := View.setIno_ino_self ..
  have hzero : (v.setIno i d).size i = 0 := by
    rw [View.size, hself, hsize]
    rfl
  refine hs.of_own (fun j k => ?_) (fun _ hb => hb) (fun j hj => ?_) fun j bn hj hlt => ?_
  · by_cases hji : j = i
    · subst hji
      have hslot : (v.setIno j d).slot j k = 0 := slot_of_addrs_zero (by rw [hself, haddrs]) k
      rw [View.own, hslot, View.own, if_pos hvacant, ite_self]
    · rw [View.own, View.own, View.setIno_ino_of_ne hji, View.slot_setIno_of_ne hji]
  · by_cases hji : j = i
    · subst hji
      rw [hzero]
      exact Nat.zero_le _
    · rw [View.setIno_ino_of_ne hji] at hj
      rw [View.size, View.setIno_ino_of_ne hji]
      exact hs.fits j hj
  · by_cases hji : j = i
    · subst hji
      rw [hzero] at hlt
      exact absurd hlt (Nat.not_lt_zero _)
    · rw [View.setIno_ino_of_ne hji] at hj
      rw [View.size, View.setIno_ino_of_ne hji] at hlt
      rw [View.addr, View.slot_setIno_of_ne hji]
      exact hs.full j bn hj hlt

theorem ialloc_ensures (h : m.Image type file) (hlt : m.freeinode < ninodes) {t : UInt16}
    (ht : t ≠ 0) :
    (ialloc t).Ensures m fun inum m' => inum = m.freeinode ∧ m'.freeinode = m.freeinode + 1 ∧
      m'.Image (Function.update type m.freeinode t) (Function.update file m.freeinode []) := by
  refine Kernel.ensures_get_bind ((Kernel.ensures_modify
    (R := fun _ m' => m' = { m with freeinode := m.freeinode + 1 }) rfl).bind ?_)
  rintro _ _ rfl
  refine (winode_ensures (Q := fun _ m' => m' = _) rfl).bind ?_
  rintro _ _ rfl
  refine Kernel.ensures_pure ⟨rfl, rfl, ?_⟩
  generalize hd : ({ Dinode.zero with type := t, nlink := 1 } : Dinode) = d
  generalize hm1 : ({ m with freeinode := m.freeinode + 1 } : Mkfs) = m1
  have himg : m1.img = m.img := by rw [← hm1]
  have hinode : (m1.put m.freeinode d).freeinode = m.freeinode + 1 := by rw [← hm1]; rfl
  have hview : (m1.put m.freeinode d).view = m.view.setIno m.freeinode d := by
    rw [view_put hlt, ← hm1]
    rfl
  have hvacant := h.vacant m.freeinode (Or.inr le_rfl)
  refine ⟨?_, fun b hb => ?_, by rw [← hm1]; exact h.used, ?_, ?_, ?_, fun j hj => ?_,
    fun j hpos hj => ?_⟩
  · rw [hview]
    exact sound_setIno_of_vacant h.sound (by rw [hvacant]; rfl) (by rw [← hd]; rfl)
      (by rw [← hd]; rfl)
  · have hb' : m.freeblock ≤ b := by rw [← hm1] at hb; exact hb
    rw [put_img_of_ne ((i2b_lt hlt).trans_le (h.dataStart_le.trans hb')).ne', himg, h.zero b hb']
  · rw [put_img_of_ne (one_ne_i2b _), himg, h.super]
  · rw [hinode]
    omega
  · rw [hinode]
    omega
  · rw [hinode] at hj
    have hpos := h.first
    rw [hview, View.setIno_ino_of_ne (by omega), h.vacant j (by omega)]
  · rw [hinode] at hj
    by_cases hji : j = m.freeinode
    · rw [hji, Function.update_self, Function.update_self, hview]
      refine ⟨ht, ?_, ?_, ?_, fun x hx => absurd hx (Nat.not_lt_zero x)⟩
      · rw [View.setIno_ino_self, ← hd]
      · rw [View.setIno_ino_self, ← hd]
      · rw [View.size, View.setIno_ino_self, ← hd]
        rfl
    · obtain ⟨htype, hholds⟩ := h.allocated j hpos (by omega)
      rw [Function.update_of_ne hji, Function.update_of_ne hji, hview]
      refine ⟨htype, ?_, ?_, ?_, fun x hx => ?_⟩
      · rw [View.setIno_ino_of_ne hji, hholds.type]
      · rw [View.setIno_ino_of_ne hji, hholds.nlink]
      · rw [View.size, View.setIno_ino_of_ne hji]
        exact hholds.size
      · rw [View.byte, View.addr, View.slot_setIno_of_ne hji]
        exact hholds.byte x hx

theorem appendAll_ensures (chunks : List (List UInt8)) (h : m.Image type file) (hpos : 0 < i)
    (hi : i < m.freeinode) :
    (Kernel.forEach chunks (iappend i)).Ensures m fun _ m' =>
      m'.Image type (Function.update file i (file i ++ chunks.flatten)) ∧
        m'.freeinode = m.freeinode := by
  induction chunks generalizing m file with
  | nil =>
    refine Kernel.ensures_pure ⟨?_, rfl⟩
    rw [List.flatten_nil, List.append_nil, Function.update_eq_self]
    exact h
  | cons p chunks ih =>
    refine (iappend_ensures h hpos hi p).bind ?_
    rintro _ m1 ⟨h1, hfree⟩
    refine (ih h1 (hfree ▸ hi)).mono ?_
    rintro _ m2 ⟨h2, hfree2⟩
    rw [Function.update_self, Function.update_idem, List.append_assoc] at h2
    exact ⟨h2, hfree2.trans hfree⟩

def entryOf (inum : Nat) (f : Input) : List UInt8 :=
  Fs.direntBytes inum (Fs.Name.bytes (stripName f.name))

theorem addFile_ensures (h : m.Image type file) (hroot : rootIno < m.freeinode)
    (hlt : m.freeinode < ninodes) (f : Input) :
    (addFile f).Ensures m fun _ m' => m'.freeinode = m.freeinode + 1 ∧
      m'.Image (Function.update type m.freeinode tFile)
        (Function.update (Function.update file rootIno (file rootIno ++ entryOf m.freeinode f))
          m.freeinode f.chunks.flatten) := by
  refine (assert_ensures (Q := fun _ m' => m = m') fun _ => rfl).bind ?_
  rintro _ _ rfl
  refine (ialloc_ensures h hlt (by decide : tFile ≠ 0)).bind ?_
  rintro _ m1 ⟨rfl, hfree1, h1⟩
  refine (iappend_ensures h1 (by decide) (by omega) _).bind ?_
  rintro _ m2 ⟨h2, hfree2⟩
  refine (appendAll_ensures f.chunks h2 (by omega) (by omega)).mono ?_
  rintro _ m3 ⟨h3, hfree3⟩
  refine ⟨by omega, ?_⟩
  have hne : rootIno ≠ m.freeinode := hroot.ne
  rw [Function.update_of_ne hne.symm, Function.update_self, List.nil_append,
    Function.update_of_ne hne, Function.update_comm hne.symm, Function.update_idem] at h3
  exact h3

def entries : Nat → List Input → List UInt8
  | _, [] => []
  | inum, f :: files => entryOf inum f ++ entries (inum + 1) files

structure Added (inum : Nat) (files : List Input) (type : Nat → UInt16) (file : Nat → List UInt8)
    (type' : Nat → UInt16) (file' : Nat → List UInt8) : Prop where
  root : file' rootIno = file rootIno ++ entries inum files
  old : ∀ j < inum, type' j = type j ∧ (j ≠ rootIno → file' j = file j)
  new : ∀ k f, files[k]? = some f →
    type' (inum + k) = tFile ∧ file' (inum + k) = f.chunks.flatten

theorem addFiles_ensures (files : List Input) (h : m.Image type file)
    (hroot : rootIno < m.freeinode) (hlast : m.freeinode + files.length ≤ ninodes) :
    (Kernel.forEach files addFile).Ensures m fun _ m' =>
      m'.freeinode = m.freeinode + files.length ∧
        ∃ type' file', m'.Image type' file' ∧ Added m.freeinode files type file type' file' := by
  induction files generalizing m type file with
  | nil =>
    refine Kernel.ensures_pure ⟨rfl, type, file, h, ?_, fun _ _ => ⟨rfl, fun _ => rfl⟩, ?_⟩
    · exact (List.append_nil _).symm
    · intro k f hk
      cases hk
  | cons f files ih =>
    rw [List.length_cons] at hlast
    refine (addFile_ensures h hroot (by omega) f).bind ?_
    rintro _ m1 ⟨hfree1, h1⟩
    refine (ih h1 (by omega) (by omega)).mono ?_
    rintro _ m2 ⟨hfree2, type', file', h2, hadded⟩
    rw [hfree1] at hadded
    have hne : rootIno ≠ m.freeinode := hroot.ne
    refine ⟨by rw [hfree2, List.length_cons]; omega, type', file', h2, ?_, ?_, ?_⟩
    · rw [hadded.root, Function.update_of_ne hne, Function.update_self, entries,
        List.append_assoc]
    · intro j hj
      obtain ⟨htype, hfile⟩ := hadded.old j (by omega)
      rw [Function.update_of_ne hj.ne] at htype
      refine ⟨htype, fun hjr => ?_⟩
      rw [hfile hjr, Function.update_of_ne hj.ne, Function.update_of_ne hjr]
    · intro k g hk
      cases k with
      | zero =>
        obtain rfl : f = g := Option.some.inj hk
        obtain ⟨htype, hfile⟩ := hadded.old m.freeinode (by omega)
        rw [Nat.add_zero, htype, hfile hne.symm, Function.update_self, Function.update_self]
        exact ⟨rfl, rfl⟩
      | succ k =>
        have hnew := hadded.new k g hk
        rwa [show m.freeinode + 1 + k = m.freeinode + (k + 1) by omega] at hnew

theorem load_zero (off : Nat) : Dinode.load (fun _ => 0) off = Dinode.zero := by
  have hzero : ∀ len off, getLE (fun _ => 0) off len = 0 := by
    intro len
    induction len with
    | zero => exact fun _ => rfl
    | succ len ih =>
      intro off
      rw [getLE, ih]
      rfl
  simp only [Dinode.load, hzero]
  rfl

theorem start_image (type : Nat → UInt16) (file : Nat → List UInt8) : start.Image type file := by
  have hino : ∀ i, start.view.ino i = Dinode.zero := by
    intro i
    simp only [view]
    split
    · have himg : start.img (Fs.iblock i) = fun _ => 0 :=
        Function.update_of_ne (one_lt_iblock i).ne' superblock _
      simp only [Core.din, core, himg, load_zero]
    · rfl
  have hown : ∀ i k, start.view.own i k = 0 := fun i k => if_pos (by rw [hino]; rfl)
  refine ⟨⟨fun b hb => decide_eq_true hb, fun i k h => absurd (hown i k) h,
    fun i k _ _ _ h => absurd (hown i k) h, fun i h => absurd (by rw [hino]; rfl) h,
    fun i _ h => absurd (by rw [hino]; rfl) h⟩, fun b hb => ?_, rfl,
    by simp [start], Nat.one_pos, by decide, fun i _ => hino i, fun i hpos hi => ?_⟩
  · have hfree : start.freeblock = 29 := rfl
    have hne : b ≠ 1 := by omega
    simp [start, hne]
  · have hfree : start.freeinode = 1 := rfl
    omega

def rootBytes (files : List Input) : List UInt8 :=
  Fs.direntBytes rootIno (Fs.Name.bytes (dots 1)) ++
    Fs.direntBytes rootIno (Fs.Name.bytes (dots 2)) ++ entries 2 files

def rootInode (d : Dinode) : Dinode :=
  { d with size := UInt32.ofNat ((d.size.toNat / bsize + 1) * bsize) }

structure Made (files : List Input) (m1 : Mkfs) (type : Nat → UInt16) (file : Nat → List UInt8)
    (m : Mkfs) : Prop where
  image : m1.Image type file
  count : m1.freeinode = 2 + files.length
  writes : m = (m1.put rootIno (rootInode (m1.view.ino rootIno))).wrote (ninodes / ipb + 3)
    (bitmap m1.freeblock)
  root : type rootIno = tDir ∧ file rootIno = rootBytes files
  inputs : ∀ k f, files[k]? = some f →
    type (2 + k) = tFile ∧ file (2 + k) = f.chunks.flatten

end Mkfs

end Xv6
