import Mathlib.Data.List.GetD
import Xv6.Mkfs
import Xv6.Proof.FsView

/-!
# What `mkfs` appends to a file

While `iappend` runs, the inode it works on is a local variable: the image is seen as if that inode
were in its place. `mkfs` takes blocks in order, so that the used blocks are the ones below
`freeblock` and the others are zero. It does not stop at the log: its blocks lie below the end of
the image, which is the log area of a superblock with no log.
-/

namespace Xv6

namespace Mkfs

def area : Superblock := { sb with nlog := 0 }

def core (m : Mkfs) : Core where
  blk := m.img
  icache _ := { inum := 0, ref := 0, busy := false, valid := false, d := Dinode.zero }

def view (m : Mkfs) : View where
  ino i := if i < ninodes then m.core.din i else Dinode.zero
  bit b := decide (b < m.freeblock)
  blk b := if area.dataStart ≤ b then m.img b else fun _ => 0

def appending (m : Mkfs) (i : Nat) (din : Dinode) : View := m.view.setIno i din

structure Inv (m : Mkfs) (i : Nat) (din : Dinode) : Prop where
  sound : (m.appending i din).Sound area
  zero : ∀ b, m.freeblock ≤ b → m.img b = fun _ => 0
  used : m.usedblocks = m.freeblock
  type : din.type ≠ 0

variable {m m' : Mkfs} {i : Nat} {din din' : Dinode}

theorem appending_ino_self : (m.appending i din).ino i = din := View.setIno_ino_self ..

theorem Inv.ino_type (h : m.Inv i din) : ((m.appending i din).ino i).type ≠ 0 := by
  rw [appending_ino_self]
  exact h.type

theorem Inv.block (h : m.Inv i din) {k : Nat} (hz : (m.appending i din).slot i k ≠ 0) :
    area.dataStart ≤ (m.appending i din).slot i k ∧
      (m.appending i din).slot i k < m.freeblock := by
  obtain ⟨hdata, -, hbit⟩ := h.sound.used i k (by rwa [View.own_of_type h.ino_type])
  rw [View.own_of_type h.ino_type] at hdata hbit
  exact ⟨hdata, of_decide_eq_true hbit⟩

theorem Inv.blk (h : m.Inv i din) {k : Nat} (hz : (m.appending i din).slot i k ≠ 0) :
    (m.appending i din).blk ((m.appending i din).slot i k) =
      m.img ((m.appending i din).slot i k) := if_pos (h.block hz).1

theorem Inv.free (_ : m.Inv i din) : (m.appending i din).bit m.freeblock = false :=
  decide_eq_false (lt_irrefl _)

structure Kept (i : Nat) (m : Mkfs) (din : Dinode) (m' : Mkfs) (din' : Dinode) : Prop where
  inv : m'.Inv i din'
  inode : ∃ addrs, din' = { din with addrs := addrs }
  low : ∀ b < area.dataStart, m'.img b = m.img b
  freeinode : m'.freeinode = m.freeinode
  addr : ∀ j bn, ((m.appending i din).ino j).type ≠ 0 → (m.appending i din).addr j bn ≠ 0 →
    (m'.appending i din').addr j bn = (m.appending i din).addr j bn
  slot : ∀ j l, j ≠ i → ((m.appending i din).ino j).type ≠ 0 →
    (m'.appending i din').slot j l = (m.appending i din).slot j l

theorem Kept.refl (h : m.Inv i din) : Kept i m din m din where
  inv := h
  inode := ⟨din.addrs, rfl⟩
  low _ _ := rfl
  freeinode := rfl
  addr _ _ _ _ := rfl
  slot _ _ _ _ := rfl

theorem Kept.ino (h : Kept i m din m' din') {j : Nat} (hj : j ≠ i) :
    (m'.appending i din').ino j = (m.appending i din).ino j := by
  rw [appending, View.setIno_ino_of_ne hj, appending, View.setIno_ino_of_ne hj]
  simp only [view]
  split
  · rename_i hlt
    have hblock : Fs.iblock j < area.dataStart := @iblock_lt_dataStart area j hlt
    simp only [Core.din, core, h.low _ hblock]
  · rfl

theorem Kept.type (h : Kept i m din m' din') (j : Nat) :
    ((m'.appending i din').ino j).type = ((m.appending i din).ino j).type := by
  by_cases hj : j = i
  · subst hj
    obtain ⟨addrs, hdin⟩ := h.inode
    rw [appending_ino_self, appending_ino_self, hdin]
  · rw [h.ino hj]

theorem Kept.trans {m1 : Mkfs} {din1 : Dinode} (h : Kept i m din m1 din1)
    (h' : Kept i m1 din1 m' din') : Kept i m din m' din' where
  inv := h'.inv
  inode := by
    obtain ⟨addrs, h1⟩ := h.inode
    obtain ⟨addrs', h2⟩ := h'.inode
    exact ⟨addrs', by rw [h2, h1]⟩
  low b hb := (h'.low b hb).trans (h.low b hb)
  freeinode := h'.freeinode.trans h.freeinode
  addr j bn hj hne := by
    have h1 := h.addr j bn hj hne
    rw [h'.addr j bn (by rwa [h.type]) (by rwa [h1]), h1]
  slot j l hji hj := (h'.slot j l hji (by rwa [h.type])).trans (h.slot j l hji hj)

structure Grown (i : Nat) (m : Mkfs) (din : Dinode) (m' : Mkfs) (din' : Dinode) : Prop where
  kept : Kept i m din m' din'
  byte : ∀ j x, ((m.appending i din).ino j).type ≠ 0 → (m.appending i din).addr j (x / bsize) ≠ 0 →
    (m'.appending i din').byte j x = (m.appending i din).byte j x

theorem Grown.refl (h : m.Inv i din) : Grown i m din m din := ⟨Kept.refl h, fun _ _ _ _ => rfl⟩

theorem Grown.trans {m1 : Mkfs} {din1 : Dinode} (h : Grown i m din m1 din1)
    (h' : Grown i m1 din1 m' din') : Grown i m din m' din' where
  kept := h.kept.trans h'.kept
  byte j x hj hne := by
    have h1 := h.kept.addr j (x / bsize) hj hne
    rw [h'.byte j x (by rwa [h.kept.type]) (by rwa [h1]), h.byte j x hj hne]

def taken (m : Mkfs) : Mkfs :=
  { m with freeblock := m.freeblock + 1, usedblocks := m.usedblocks + 1 }

theorem takeBlock_ensures {Q : Nat → Mkfs → Prop} (h : Q m.freeblock m.taken) :
    takeBlock.Ensures m Q :=
  Kernel.ensures_get_bind <| (Kernel.ensures_modify (R := fun _ m' => m' = m.taken) rfl).bind
    fun _ _ hm => hm ▸ Kernel.ensures_pure h

theorem rsect_ensures {sec : Nat} {Q : Block → Mkfs → Prop} (h : sec < size → Q (m.img sec) m) :
    (rsect sec).Ensures m Q := by
  refine Kernel.ensures_get_bind ?_
  split
  · rename_i hsec
    exact Kernel.ensures_pure (h hsec)
  · exact Kernel.ensures_panic _

def wrote (m : Mkfs) (sec : Nat) (buf : Block) : Mkfs :=
  { m with img := Function.update m.img sec buf }

theorem wsect_ensures {sec : Nat} {buf : Block} {Q : Unit → Mkfs → Prop}
    (h : Q () (m.wrote sec buf)) : (wsect sec buf).Ensures m Q :=
  Kernel.ensures_modify h

theorem assert_ensures {cond : Prop} [Decidable cond] {msg : String} {Q : Unit → Mkfs → Prop}
    (h : cond → Q () m) : (assert cond msg).Ensures m Q := by
  rw [assert]
  split
  · rename_i hcond
    exact Kernel.ensures_pure (h hcond)
  · exact Kernel.ensures_panic _

theorem appending_taken (h : m.Inv i din) (din' : Dinode) :
    m.taken.appending i din' = ((m.appending i din).grab m.freeblock).setIno i din' := by
  simp only [appending, View.setIno, View.grab, View.mk.injEq]
  refine ⟨(Function.update_idem ..).symm, ?_, ?_⟩
  · funext b
    by_cases hb : b = m.freeblock
    · rw [hb, Function.update_self]
      exact decide_eq_true (Nat.lt_succ_self _)
    · rw [Function.update_of_ne hb]
      have hiff : b < m.freeblock + 1 ↔ b < m.freeblock := by omega
      exact decide_eq_decide.mpr hiff
  · funext b
    by_cases hb : b = m.freeblock
    · rw [hb, Function.update_self]
      simp only [view, taken]
      split
      · exact h.zero _ le_rfl
      · rfl
    · rw [Function.update_of_ne hb]
      rfl

structure Gained (i k : Nat) (m : Mkfs) (din : Dinode) (m' : Mkfs) (din' : Dinode) : Prop where
  grown : Grown i m din m' din'
  other : ∀ l ≠ k, (m'.appending i din').slot i l = (m.appending i din).slot i l
  here : (m'.appending i din').slot i k ≠ 0
  new : (m.appending i din).slot i k = 0 → (m'.appending i din').slot i k = m.freeblock
  count : m'.freeblock = m.freeblock + if (m.appending i din).slot i k = 0 then 1 else 0

theorem Gained.refl (h : m.Inv i din) {k : Nat} (hne : (m.appending i din).slot i k ≠ 0) :
    Gained i k m din m din :=
  ⟨Grown.refl h, fun _ _ => rfl, hne, fun hz => absurd hz hne, by rw [if_neg hne]; rfl⟩

theorem gained_of_took (h : m.Inv i din) {k : Nat}
    (htook : View.Took (m.appending i din) i k m.freeblock (m'.appending i din'))
    (hempty : (m.appending i din).slot i k = 0) (hlt : m.freeblock < size)
    (hfree : m'.freeblock = m.freeblock + 1)
    (hzero : ∀ b, m'.freeblock ≤ b → m'.img b = fun _ => 0) (hused : m'.usedblocks = m'.freeblock)
    (hlow : ∀ b < area.dataStart, m'.img b = m.img b)
    (hinode : m'.freeinode = m.freeinode) : Gained i k m din m' din' := by
  have hself : ∃ addrs, din' = { din with addrs := addrs } := by
    obtain ⟨addrs, hself⟩ := htook.self
    rw [appending_ino_self, appending_ino_self] at hself
    exact ⟨addrs, hself⟩
  have htype : din'.type ≠ 0 := by
    obtain ⟨addrs, hself⟩ := hself
    rw [hself]
    exact h.type
  have hslot := fun l => htook.slot i l h.ino_type
  refine ⟨⟨⟨⟨htook.sound h.sound h.ino_type h.free hlt, hzero, hused, htype⟩, hself, hlow, hinode,
    fun j bn hj hne => htook.addr hempty hj hne,
    fun j l hji hj => by rw [htook.slot j l hj, if_neg fun heq => hji heq.1]⟩,
    fun j x hj hne => htook.byte h.sound h.ino_type h.free hempty hj hne⟩, ?_, ?_, ?_, ?_⟩
  · intro l hl
    rw [hslot, if_neg fun heq => hl heq.2]
  · rw [hslot, if_pos ⟨rfl, rfl⟩]
    exact h.sound.pos_of_free h.free
  · intro _
    rw [hslot, if_pos ⟨rfl, rfl⟩]
  · rw [if_pos hempty, hfree]

theorem size_lt_word {b : Nat} (hb : b < size) : b < 2 ^ 32 := hb.trans (by decide)

theorem entry_ensures (h : m.Inv i din) (k : Fin (ndirect + 1)) :
    (entry din k).Ensures m fun r m' => r.2 < size →
      Gained i k m din m' r.1 ∧ r.2 = (m'.appending i r.1).slot i k := by
  have hslot : ∀ (m : Mkfs) (din : Dinode),
      (m.appending i din).slot i k = (din.addrs k).toNat := by
    intro m din
    rw [View.slot_direct _ k.isLt, appending_ino_self]
  rw [entry]
  split
  · rename_i hz
    refine (takeBlock_ensures (Q := fun b m' => b = m.freeblock ∧ m' = m.taken) ⟨rfl, rfl⟩).bind ?_
    rintro _ _ ⟨rfl, rfl⟩
    refine Kernel.ensures_pure fun hlt => ?_
    have hword := size_lt_word hlt
    have hempty : (m.appending i din).slot i k = 0 := by rw [hslot, hz]
    have htook := h.sound.took_setAddr h.free hword h.ino_type hempty
    rw [appending_ino_self, ← appending_taken h] at htook
    refine ⟨gained_of_took h htook hempty hlt rfl (fun b hb => h.zero b (Nat.le_of_succ_le hb))
      (congrArg (· + 1) h.used) (fun _ _ => rfl) rfl, ?_⟩
    rw [hslot]
    simp only [Dinode.setAddr, Function.update_self]
    exact (UInt32.toNat_ofNat_of_lt' hword).symm
  · rename_i hz
    exact Kernel.ensures_pure fun _ =>
      ⟨Gained.refl h (by rw [hslot]; exact hz), (hslot m din).symm⟩

theorem appending_wsect {b : Nat} (hb : area.dataStart ≤ b) (data : Block) :
    (m.wrote b data).appending i din =
      (m.appending i din).setBlk b data := by
  simp only [appending, View.setIno, View.setBlk, View.mk.injEq]
  refine ⟨?_, rfl, ?_⟩
  · congr 1
    funext j
    simp only [view]
    split
    · rename_i hj
      have hne : Fs.iblock j ≠ b := ((@iblock_lt_dataStart area j hj).trans_le hb).ne
      simp only [Core.din, core, wrote]
      rw [Function.update_of_ne hne]
    · rfl
  · funext x
    by_cases hx : x = b
    · rw [hx, Function.update_self]
      simp only [view, wrote]
      rw [if_pos hb, Function.update_self]
    · rw [Function.update_of_ne hx]
      simp only [view, wrote]
      rw [Function.update_of_ne hx]

theorem addr_of_indirect (h : m.Inv i din) {fbn : Nat} (hdirect : ¬fbn < ndirect)
    (hmax : fbn < maxfile) (hind : (m.appending i din).slot i ndirect ≠ 0) :
    (m.appending i din).addr i fbn =
      getLE (m.img ((m.appending i din).slot i ndirect)) (4 * (fbn - ndirect)) 4 := by
  rw [View.addr_indirect hdirect hmax hind, h.blk hind]

structure Reached (i fbn : Nat) (m : Mkfs) (din : Dinode) (m' : Mkfs) (din' : Dinode) : Prop where
  grown : Grown i m din m' din'
  other : ∀ bn ≠ fbn, (m'.appending i din').addr i bn = (m.appending i din).addr i bn
  here : (m'.appending i din').addr i fbn ≠ 0
  indirect : (m'.appending i din').slot i ndirect ≠ 0 ↔
    (m.appending i din).slot i ndirect ≠ 0 ∨ ndirect ≤ fbn
  count : m'.freeblock = m.freeblock + (if (m.appending i din).addr i fbn = 0 then 1 else 0) +
    if ndirect ≤ fbn ∧ (m.appending i din).slot i ndirect = 0 then 1 else 0

theorem Gained.reached_direct {fbn : Nat} (hdirect : fbn < ndirect)
    (h : Gained i fbn m din m' din') : Reached i fbn m din m' din' := by
  have hslot : ∀ v : View, v.addr i fbn = v.slot i fbn := fun v => View.addr_direct i hdirect
  refine ⟨h.grown, fun bn hbn => ?_, by rw [hslot]; exact h.here, ?_, ?_⟩
  · refine h.other _ fun heq => hbn (View.slotOf_inj ?_)
    rw [heq, View.slotOf, if_pos hdirect]
  · rw [h.other ndirect (by omega)]
    exact ⟨Or.inl, fun hor => hor.resolve_right (by omega)⟩
  · have hno : ¬(ndirect ≤ fbn ∧ (m.appending i din).slot i ndirect = 0) := by omega
    rw [hslot, h.count, if_neg hno, Nat.add_zero]

theorem Gained.reached_indirect {fbn : Nat} {m1 : Mkfs} {din1 : Dinode} (hdirect : ¬fbn < ndirect)
    (h : Gained i ndirect m din m1 din1) (h' : Gained i (View.slotOf fbn) m1 din1 m' din') :
    Reached i fbn m din m' din' := by
  have hne : ∀ bn, View.slotOf bn ≠ ndirect := View.slotOf_ne_ndirect
  have hadd : (m1.appending i din1).addr i fbn = (m.appending i din).addr i fbn :=
    h.other _ (hne fbn)
  refine ⟨h.grown.trans h'.grown, fun bn hbn => ?_, h'.here, ?_, ?_⟩
  · exact (h'.other _ fun heq => hbn (View.slotOf_inj heq)).trans (h.other _ (hne bn))
  · rw [h'.other ndirect (hne fbn).symm]
    exact iff_of_true h.here (Or.inr (by omega))
  · rw [h'.count, h.count, ← View.addr, hadd, if_congr (and_iff_right (by omega)) rfl rfl]
    omega

theorem gained_indirect (h : m.Inv i din) {fbn : Nat} (hdirect : ¬fbn < ndirect)
    (hmax : fbn < maxfile) (hind : (m.appending i din).slot i ndirect ≠ 0)
    (hempty : (m.appending i din).addr i fbn = 0) (hlt : m.freeblock < size) :
    Gained i (View.slotOf fbn) m din
      (m.taken.wrote ((m.appending i din).slot i ndirect)
        (putLE (m.img ((m.appending i din).slot i ndirect)) (4 * (fbn - ndirect)) 4 m.freeblock))
      din := by
  have hblk := h.blk hind
  obtain ⟨hdata, hused⟩ := h.block hind
  have hm : fbn - ndirect < nindirect := Nat.sub_lt_left_of_lt_add (by omega) hmax
  have hslot : View.slotOf fbn = ndirect + 1 + (fbn - ndirect) := by
    rw [View.slotOf, if_neg hdirect]
    omega
  have hview : (m.appending i din).grab m.freeblock = m.taken.appending i din := by
    rw [appending_taken h, View.setIno]
    simp only [View.grab, appending, View.setIno, Function.update_idem]
  have htook := h.sound.took_indirect h.free (size_lt_word hlt) h.ino_type hm hind
  rw [hblk, hview, ← appending_wsect hdata, ← hslot] at htook
  refine gained_of_took h htook hempty hlt rfl (fun b hb => ?_) (congrArg (· + 1) h.used)
    (fun b hb => ?_) rfl
  · have hb' : m.freeblock + 1 ≤ b := hb
    exact (Function.update_of_ne (by omega) ..).trans (h.zero b (by omega))
  · exact Function.update_of_ne (hb.trans_le hdata).ne ..

theorem sector_ensures (h : m.Inv i din) {fbn : Nat} (hmax : fbn < maxfile) :
    (sector din fbn).Ensures m fun r m' => r.2 < size →
      Reached i fbn m din m' r.1 ∧ r.2 = (m'.appending i r.1).addr i fbn := by
  rw [sector]
  split
  · rename_i hdirect
    refine (entry_ensures h _).mono fun r m' hr hlt => ?_
    obtain ⟨hgained, hr⟩ := hr hlt
    exact ⟨hgained.reached_direct hdirect, hr.trans (View.addr_direct i hdirect).symm⟩
  · rename_i hdirect
    refine (entry_ensures h _).bind ?_
    rintro ⟨din1, a⟩ m1 hentry
    refine (rsect_ensures (Q := fun buf m' => a < size ∧ buf = m1.img a ∧ m1 = m')
      fun hlt => ⟨hlt, rfl, rfl⟩).bind ?_
    rintro _ _ ⟨hlt, rfl, rfl⟩
    obtain ⟨hgained, ha⟩ := hentry hlt
    obtain rfl : a = (m1.appending i din1).slot i ndirect := ha
    have hind := hgained.here
    have hinv := hgained.grown.kept.inv
    have haddr := addr_of_indirect hinv hdirect hmax hind
    rw [← haddr]
    split
    · rename_i hz
      refine (takeBlock_ensures
        (Q := fun b m' => b = m1.freeblock ∧ m' = m1.taken) ⟨rfl, rfl⟩).bind ?_
      rintro _ _ ⟨rfl, rfl⟩
      refine (wsect_ensures (Q := fun _ m' => m' = _) rfl).bind ?_
      rintro _ _ rfl
      refine Kernel.ensures_pure fun hlt' => ?_
      have hnew := gained_indirect hinv hdirect hmax hind hz hlt'
      exact ⟨hgained.reached_indirect hdirect hnew, (hnew.new hz).symm⟩
    · rename_i hz
      exact Kernel.ensures_pure fun _ =>
        ⟨hgained.reached_indirect hdirect (Gained.refl hinv hz), rfl⟩

structure Appended (i : Nat) (m : Mkfs) (din : Dinode) (off : Nat) (p : List UInt8) (m' : Mkfs)
    (din' : Dinode) : Prop where
  kept : Kept i m din m' din'
  byte : ∀ j x, ((m.appending i din).ino j).type ≠ 0 → (m.appending i din).addr j (x / bsize) ≠ 0 →
    (j = i → x < off) → (m'.appending i din').byte j x = (m.appending i din).byte j x
  here : ∀ k < p.length, (m'.appending i din').addr i ((off + k) / bsize) ≠ 0 ∧
    (m'.appending i din').byte i (off + k) = p.getD k 0

theorem Appended.nil (h : m.Inv i din) (off : Nat) : Appended i m din off [] m din :=
  ⟨Kept.refl h, fun _ _ _ _ _ => rfl, fun _ hk => absurd hk (Nat.not_lt_zero _)⟩

theorem Appended.trans {m1 : Mkfs} {din1 : Dinode} {off : Nat} {p q : List UInt8}
    (h : Appended i m din off p m1 din1) (h' : Appended i m1 din1 (off + p.length) q m' din') :
    Appended i m din off (p ++ q) m' din' where
  kept := h.kept.trans h'.kept
  byte j x hj hne hlt := by
    have h1 := h.kept.addr j (x / bsize) hj hne
    rw [h'.byte j x (by rwa [h.kept.type]) (by rwa [h1]) fun heq => (hlt heq).trans_le
      (Nat.le_add_right ..), h.byte j x hj hne hlt]
  here k hk := by
    have htype := h.kept.inv.ino_type
    by_cases hp : k < p.length
    · obtain ⟨hne, hbyte⟩ := h.here k hp
      rw [h'.kept.addr i _ htype hne, h'.byte i _ htype hne fun _ => by omega, hbyte,
        List.getD_append _ _ _ _ hp]
      exact ⟨hne, rfl⟩
    · rw [List.length_append] at hk
      obtain ⟨hne, hbyte⟩ := h'.here (k - p.length) (by omega)
      rw [show off + p.length + (k - p.length) = off + k by omega] at hne hbyte
      exact ⟨hne, by rw [hbyte, List.getD_append_right _ _ _ _ (by omega)]⟩

theorem appended_block (hg : Grown i m din m' din') {off x : Nat} {p : List UInt8}
    (hx : x = (m'.appending i din').addr i (off / 512)) (hne : x ≠ 0)
    (hp : p.length ≤ (off / 512 + 1) * 512 - off) :
    Appended i m din off p
      (m'.wrote x (Fs.putBytes (m'.img x) (off - off / 512 * 512) p)) din' := by
  have hinv := hg.kept.inv
  have htype := hinv.ino_type
  have hz : (m'.appending i din').addr i (off / 512) ≠ 0 := hx ▸ hne
  obtain ⟨hdata, hfree⟩ := hinv.block hz
  have hblk := hinv.blk hz
  rw [← View.addr, ← hx] at hdata hfree hblk
  generalize hbuf : Fs.putBytes (m'.img x) (off - off / 512 * 512) p = buf
  have hview : (m'.wrote x buf).appending i din' = (m'.appending i din').setBlk x buf :=
    appending_wsect hdata buf
  have hsound := hinv.sound.setBlk htype hz buf
  rw [← hx] at hsound
  have hbyte : ∀ j, ((m'.appending i din').ino j).type ≠ 0 → ∀ y,
      ((m'.appending i din').setBlk x buf).byte j y =
        if j = i ∧ y / bsize = off / 512 then buf (y % bsize) else (m'.appending i din').byte j y :=
    fun j hj y => hx ▸ hinv.sound.byte_setBlk htype hz buf hj y
  have haddr : ∀ j, ((m'.appending i din').ino j).type ≠ 0 → ∀ bn,
      ((m'.appending i din').setBlk x buf).addr j bn = (m'.appending i din').addr j bn :=
    fun j hj bn => hx ▸ hinv.sound.slot_setBlk htype hz buf hj _
  have hkept : Kept i m' din' (m'.wrote x buf) din' := by
    refine ⟨⟨by rw [hview]; exact hsound, fun b hb => ?_, hinv.used, hinv.type⟩, ⟨_, rfl⟩,
      fun b hb => Function.update_of_ne (hb.trans_le hdata).ne .., rfl, fun j bn hj _ => ?_,
      fun j l _ hj => ?_⟩
    · exact (Function.update_of_ne (hfree.trans_le hb).ne' ..).trans (hinv.zero b hb)
    · rw [hview, haddr j hj]
    · rw [hview, hx]
      exact hinv.sound.slot_setBlk htype hz buf hj l
  refine ⟨hg.kept.trans hkept, fun j y hj hne' hlt => ?_, fun k hk => ?_⟩
  · have hj' : ((m'.appending i din').ino j).type ≠ 0 := by rwa [hg.kept.type]
    rw [hview, hbyte j hj', ← hg.byte j y hj hne']
    split
    · -- the same block, before the offset
      rename_i hsame
      obtain ⟨rfl, hy⟩ := hsame
      have hlt := hlt rfl
      simp only [bsize] at hy
      rw [View.byte, show y / bsize = off / 512 from hy, ← hx, hblk, ← hbuf, Fs.putBytes, if_neg]
      simp only [bsize]
      omega
    · rfl
  · have hdiv : (off + k) / bsize = off / 512 := by
      simp only [bsize]
      omega
    rw [hview, haddr i htype, hdiv, hbyte i htype, if_pos ⟨rfl, hdiv⟩, ← hbuf, Fs.putBytes, if_pos]
    · refine ⟨hz, ?_⟩
      congr 1
      simp only [bsize]
      omega
    · simp only [bsize]
      omega

theorem appendLoop_ensures (fuel : Nat) {off : Nat} {p : List UInt8} (h : m.Inv i din)
    (hfuel : p.length ≤ fuel) (hoff : off ≤ maxfile * bsize) :
    (appendLoop fuel din off p).Ensures m fun r m' =>
      Appended i m din off p m' r.1 ∧ r.2 = off + p.length ∧ r.2 ≤ maxfile * bsize := by
  induction fuel generalizing m din off p with
  | zero =>
    obtain rfl := List.length_eq_zero_iff.mp (Nat.le_zero.mp hfuel)
    exact Kernel.ensures_pure ⟨Appended.nil h off, rfl, hoff⟩
  | succ fuel ih =>
    rw [appendLoop]
    split
    · rename_i hp
      subst hp
      exact Kernel.ensures_pure ⟨Appended.nil h off, rfl, hoff⟩
    · rename_i hp
      have hpos : 0 < p.length := List.length_pos_iff.mpr hp
      refine (assert_ensures (Q := fun _ m' => off / 512 < maxfile ∧ m = m')
        fun hmax => ⟨hmax, rfl⟩).bind ?_
      rintro _ _ ⟨hmax, rfl⟩
      refine (sector_ensures h hmax).bind ?_
      rintro ⟨din1, x⟩ m1 hsector
      refine (rsect_ensures (Q := fun buf m' => x < size ∧ buf = m1.img x ∧ m1 = m')
        fun hlt => ⟨hlt, rfl, rfl⟩).bind ?_
      rintro _ _ ⟨hlt, rfl, rfl⟩
      obtain ⟨hreached, hx⟩ := hsector hlt
      have hne : x ≠ 0 := ne_of_eq_of_ne hx hreached.here
      refine (wsect_ensures (Q := fun _ m' => m' = _) rfl).bind ?_
      rintro _ _ rfl
      generalize hn : min p.length ((off / 512 + 1) * 512 - off) = n1
      have htake : (p.take n1).length = n1 := by
        rw [List.length_take]
        omega
      have hround := appended_block hreached.grown hx hne (p := p.take n1) (by omega)
      have hnext : off + n1 ≤ maxfile * bsize := by
        simp only [bsize]
        omega
      refine (ih hround.kept.inv (by rw [List.length_drop]; omega) hnext).mono ?_
      rintro ⟨din2, off2⟩ m2 ⟨happ, hoff2, hle⟩
      refine ⟨?_, ?_, hle⟩
      · have hboth := hround.trans (by rw [htake]; exact happ)
        rwa [List.take_append_drop] at hboth
      · have hdrop : (p.drop n1).length = p.length - n1 := List.length_drop
        omega

end Mkfs

end Xv6
