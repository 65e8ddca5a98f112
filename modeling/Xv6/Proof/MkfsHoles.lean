import Mathlib.Algebra.BigOperators.Intervals
import Xv6.Proof.BlockArea

/-!
# Holes in an image

`mkfs` gives every file the blocks of its size and no others, and it takes the blocks in order. So
the blocks in use are counted: they are all the blocks of files. The size of the root directory is
rounded up at the end, past a block that was never taken if its entries fill their last block.
-/

namespace Xv6

namespace Mkfs

open Finset

def blockCount (n : Nat) : Nat := (n + 511) / bsize

def slots (v : View) (i : Nat) : Finset Nat := (range View.nslot).filter fun k => v.slot i k ≠ 0

theorem slotOf_lt {bn : Nat} (h : bn < maxfile) : View.slotOf bn < View.nslot := by
  simp only [View.slotOf, View.nslot, maxfile] at *
  split_ifs <;> omega

theorem exists_slotOf {k : Nat} (hk : k < View.nslot) (hne : k ≠ ndirect) :
    ∃ bn < maxfile, View.slotOf bn = k := by
  simp only [View.nslot, maxfile] at *
  by_cases hlt : k < ndirect
  · exact ⟨k, by omega, if_pos hlt⟩
  · refine ⟨k - 1, by omega, ?_⟩
    rw [View.slotOf, if_neg (by omega)]
    omega

theorem lt_blockCount {bn n : Nat} : bn < blockCount n ↔ bn * bsize < n := by
  simp only [blockCount, bsize]
  omega

theorem blockCount_le {n : Nat} (hn : n ≤ maxfile * bsize) : blockCount n ≤ maxfile := by
  simp only [blockCount, bsize] at *
  omega

theorem mem_slots_iff {v : View} {i n : Nat} (h : Exact v i n) (hn : n ≤ maxfile * bsize)
    {k : Nat} :
    k ∈ slots v i ↔ (∃ bn < blockCount n, View.slotOf bn = k) ∨
      ndirect * bsize < n ∧ k = ndirect := by
  have hcount := blockCount_le hn
  rw [slots, mem_filter, mem_range]
  constructor
  · rintro ⟨hk, hz⟩
    by_cases hne : k = ndirect
    · subst hne
      exact .inr ⟨h.indirect.mp hz, rfl⟩
    · obtain ⟨bn, hbn, rfl⟩ := exists_slotOf hk hne
      exact .inl ⟨bn, lt_blockCount.mpr ((h.direct bn hbn).mp hz), rfl⟩
  · rintro (⟨bn, hbn, rfl⟩ | ⟨hlt, rfl⟩)
    · exact ⟨slotOf_lt (by omega), (h.direct bn (by omega)).mpr (lt_blockCount.mp hbn)⟩
    · exact ⟨by decide, h.indirect.mpr hlt⟩

theorem card_slots {v : View} {i n : Nat} (h : Exact v i n) (hn : n ≤ maxfile * bsize) :
    (slots v i).card = blocks n := by
  have hslots : slots v i = (range (blockCount n)).image View.slotOf ∪
      (if ndirect * bsize < n then {ndirect} else ∅) := by
    ext k
    rw [mem_slots_iff h hn, mem_union, mem_image]
    split_ifs with hlt
    · simp [hlt]
    · simp [hlt]
  rw [hslots, card_union_of_disjoint]
  · rw [card_image_of_injective _ fun _ _ => View.slotOf_inj, card_range, blocks, blockCount]
    split_ifs <;> rfl
  · split_ifs
    · rw [disjoint_singleton_right, mem_image]
      rintro ⟨bn, -, hbn⟩
      exact View.slotOf_ne_ndirect bn hbn
    · exact disjoint_empty_right _

section Image

variable {m m1 : Mkfs} {files : List Input} {type : Nat → UInt16} {file : Nat → List UInt8}
  {i : Nat}

theorem length_entries (inum : Nat) (files : List Input) :
    (entries inum files).length = direntSize * files.length := by
  induction files generalizing inum with
  | nil => rfl
  | cons f files ih =>
    rw [entries, List.length_append, entryOf, length_direntBytes, ih, List.length_cons,
      Nat.mul_succ, Nat.add_comm]

theorem length_rootBytes (files : List Input) :
    (rootBytes files).length = direntSize * (2 + files.length) := by
  rw [rootBytes, List.length_append, List.length_append, length_direntBytes, length_direntBytes,
    length_entries]
  simp only [direntSize]
  omega

theorem Made.type_ne (h : Made files m1 type file m) (hpos : 0 < i) (hi : i < m1.freeinode) :
    (m1.view.ino i).type ≠ 0 := by
  obtain ⟨htype, hholds⟩ := h.image.allocated i hpos hi
  rwa [hholds.type]

theorem Made.root_size (h : Made files m1 type file m) :
    m1.view.size rootIno = direntSize * (2 + files.length) := by
  rw [(h.image.allocated rootIno (by decide) h.root_lt).2.size, h.root.2, length_rootBytes]

theorem Made.size_le (h : Made files m1 type file m) (hpos : 0 < i) (hi : i < m1.freeinode) :
    m1.view.size i ≤ maxfile * bsize :=
  h.image.sound.fits i (h.type_ne hpos hi)

theorem sum_map_eq_sum_range {α : Type} (g : α → Nat) (l : List α) :
    (l.map g).sum = ∑ k ∈ range l.length, (l[k]?.map g).getD 0 := by
  induction l with
  | nil => rfl
  | cons a l ih =>
    rw [List.map_cons, List.sum_cons, ih, List.length_cons, sum_range_succ']
    simp [Nat.add_comm]

theorem Made.sum_blocks (h : Made files m1 type file m) :
    ∑ i ∈ Ico 1 m1.freeinode, blocks (m1.view.size i) =
      blocks (direntSize * (2 + files.length)) + blocksOf files := by
  have hsize : ∀ k, k < files.length →
      blocks (m1.view.size (1 + (k + 1))) =
        (files[k]?.map fun f => blocks f.bytes.length).getD 0 := by
    intro k hk
    have hf : files[k]? = some files[k] := List.getElem?_eq_getElem hk
    have hi : 2 + k < m1.freeinode := by
      rw [h.count]
      omega
    rw [show 1 + (k + 1) = 2 + k by omega, (h.image.allocated (2 + k) (by omega) hi).2.size,
      (h.inputs k _ hf).2, hf]
    rfl
  rw [sum_Ico_eq_sum_range, h.count, show 2 + files.length - 1 = files.length + 1 by omega,
    sum_range_succ', blocksOf, sum_map_eq_sum_range, Nat.add_comm]
  congr 1
  · exact congrArg blocks h.root_size
  · exact sum_congr rfl fun k hk => hsize k (mem_range.mp hk)

theorem Made.owned (h : Made files m1 type file m) (htight : m1.Tight)
    (hcount : m1.freeblock = sb.dataStart +
      (blocks (direntSize * (2 + files.length)) + blocksOf files)) {b : Nat}
    (hlow : sb.dataStart ≤ b) (hhigh : b < m1.freeblock) :
    ∃ i k, 0 < i ∧ i < m1.freeinode ∧ k ∈ slots m1.view i ∧ m1.view.slot i k = b := by
  let used : Finset (Σ _ : Nat, Nat) := (Ico 1 m1.freeinode).sigma fun i => slots m1.view i
  have hmem : ∀ p ∈ used, 0 < p.1 ∧ p.1 < m1.freeinode ∧ m1.view.slot p.1 p.2 ≠ 0 := by
    intro p hp
    obtain ⟨h1, h2⟩ := mem_sigma.mp hp
    rw [mem_Ico] at h1
    exact ⟨h1.1, h1.2, (mem_filter.mp h2).2⟩
  have hown : ∀ p ∈ used, m1.view.own p.1 p.2 = m1.view.slot p.1 p.2 := fun p hp =>
    View.own_of_type (h.type_ne (hmem p hp).1 (hmem p hp).2.1) _
  have hinj : Set.InjOn (fun p : Σ _ : Nat, Nat => m1.view.slot p.1 p.2) used := by
    intro p hp q hq heq
    have hz := (hmem p hp).2.2
    simp only at heq
    rw [← hown p hp, ← hown q hq] at heq
    rw [← hown p hp] at hz
    obtain ⟨h1, h2⟩ := h.image.sound.inj _ _ _ _ heq hz
    exact Sigma.ext h1 (heq_of_eq h2)
  have hsub : used.image (fun p => m1.view.slot p.1 p.2) ⊆ Ico sb.dataStart m1.freeblock := by
    intro b hb
    obtain ⟨p, hp, rfl⟩ := mem_image.mp hb
    have hz := (hmem p hp).2.2
    rw [← hown p hp] at hz
    obtain ⟨h1, -, h3⟩ := h.image.sound.used _ _ hz
    rw [hown p hp] at h1 h3
    exact mem_Ico.mpr ⟨h1, of_decide_eq_true h3⟩
  have hcard : (Ico sb.dataStart m1.freeblock).card ≤
      (used.image fun p => m1.view.slot p.1 p.2).card := by
    rw [card_image_of_injOn hinj, card_sigma, Nat.card_Ico, hcount, Nat.add_sub_cancel_left,
      ← h.sum_blocks]
    apply le_of_eq
    apply sum_congr rfl
    intro i hi
    rw [mem_Ico] at hi
    exact (card_slots (htight i hi.1 hi.2) (h.size_le hi.1 hi.2)).symm
  have hb : b ∈ used.image fun p => m1.view.slot p.1 p.2 := by
    rw [eq_of_subset_of_card_le hsub hcard]
    exact mem_Ico.mpr ⟨hlow, hhigh⟩
  obtain ⟨p, hp, rfl⟩ := mem_image.mp hb
  exact ⟨p.1, p.2, (hmem p hp).1, (hmem p hp).2.1, (mem_sigma.mp hp).2, rfl⟩

theorem Made.view_ino (h : Made files m1 type file m) (i : Nat) :
    m.view.ino i = if i = rootIno then rootInode (m1.view.ino rootIno) else m1.view.ino i := by
  by_cases hi : i < ninodes
  · exact (if_pos hi).trans (h.load hi)
  · have hne : i ≠ rootIno := by
      rintro rfl
      exact hi (by decide)
    have hzero : ∀ m : Mkfs, m.view.ino i = Dinode.zero := fun m => if_neg hi
    rw [if_neg hne, hzero, hzero]

theorem Made.view_type (h : Made files m1 type file m) (i : Nat) :
    (m.view.ino i).type = (m1.view.ino i).type := by
  rw [h.view_ino]
  split_ifs with heq
  · rw [heq]
    rfl
  · rfl

theorem Made.view_slot (h : Made files m1 type file m) (htype : (m1.view.ino i).type ≠ 0)
    (k : Nat) : m.view.slot i k = m1.view.slot i k := by
  apply View.slot_congr
  · rw [h.view_ino]
    split_ifs with heq
    · rw [heq]
      rfl
    · rfl
  · intro hz
    obtain ⟨hdata, -, -⟩ := h.image.sound.used i ndirect (by rwa [View.own_of_type htype])
    rw [View.own_of_type htype] at hdata
    have hblk : ∀ m : Mkfs, m.view.blk (m1.view.slot i ndirect) = m.img (m1.view.slot i ndirect) :=
      fun m => if_pos hdata
    rw [hblk, hblk, h.img_data hdata]

theorem Made.view_addr (h : Made files m1 type file m) (htype : (m1.view.ino i).type ≠ 0)
    (bn : Nat) : m.view.addr i bn = m1.view.addr i bn := h.view_slot htype _

theorem Made.size_of_ne (h : Made files m1 type file m) (hne : i ≠ rootIno) :
    m.view.size i = m1.view.size i := by
  rw [View.size, h.view_ino, if_neg hne]
  rfl

theorem Made.root_rounded (h : Made files m1 type file m) :
    m.view.size rootIno = (direntSize * (2 + files.length) / bsize + 1) * bsize := by
  have hsize := h.root_size
  have hle := h.size_le (by decide) h.root_lt
  rw [View.size] at hsize hle
  rw [View.size, h.view_ino, if_pos rfl, rootInode, hsize]
  have hlt : (direntSize * (2 + files.length) / bsize + 1) * bsize < 2 ^ 32 := by
    simp only [maxfile, ndirect, nindirect, bsize, direntSize] at *
    omega
  exact UInt32.toNat_ofNat_of_lt' hlt

theorem Made.taken (h : Made files m1 type file m) (htype : (m1.view.ino i).type ≠ 0) :
    0 < i ∧ i < m1.freeinode := by
  by_contra hout
  apply htype
  rw [h.image.vacant i (by omega)]
  rfl

/-- Every block below a size has an address, no two the same one, below the log; and the bitmap
marks the blocks before the data area, the blocks of the files and their indirect blocks. -/
structure NoHoles (m : Mkfs) : Prop where
  full : ∀ i bn, (m.view.ino i).type ≠ 0 → bn < blockCount (m.view.size i) → m.view.addr i bn ≠ 0
  distinct : ∀ i bn j bn', (m.view.ino i).type ≠ 0 → (m.view.ino j).type ≠ 0 →
    bn < blockCount (m.view.size i) → bn' < blockCount (m.view.size j) →
    m.view.addr i bn = m.view.addr j bn' → i = j ∧ bn = bn'
  low : ∀ i bn, (m.view.ino i).type ≠ 0 → bn < blockCount (m.view.size i) →
    m.view.addr i bn < sb.size - sb.nlog
  marked : ∀ b < sb.size, (Fs.bitSet (m.img (sb.bblock b)) (b % bpb) = true ↔
    b < sb.dataStart ∨ b ≠ 0 ∧ ∃ i, (m.view.ino i).type ≠ 0 ∧
      ((∃ bn < blockCount (m.view.size i), m.view.addr i bn = b) ∨
        m.view.slot i ndirect = b))

theorem Made.below (h : Made files m1 type file m) (hrest : (2 + files.length) % 32 ≠ 0)
    (bn : Nat) : bn < blockCount (m.view.size i) ↔ bn * bsize < m1.view.size i := by
  by_cases hi : i = rootIno
  · subst hi
    rw [h.root_rounded, h.root_size, lt_blockCount]
    simp only [bsize, direntSize]
    omega
  · rw [h.size_of_ne hi, lt_blockCount]

theorem Made.mapped_iff (h : Made files m1 type file m) (htight : m1.Tight)
    (hrest : (2 + files.length) % 32 ≠ 0) (htype : (m.view.ino i).type ≠ 0) {bn : Nat}
    (hbn : bn < maxfile) : m.view.addr i bn ≠ 0 ↔ bn < blockCount (m.view.size i) := by
  rw [h.view_type] at htype
  obtain ⟨hpos, hlt⟩ := h.taken htype
  rw [h.view_addr htype, h.below hrest]
  exact (htight i hpos hlt).direct bn hbn

theorem Made.count_le (h : Made files m1 type file m) (hrest : (2 + files.length) % 32 ≠ 0)
    (htype : (m.view.ino i).type ≠ 0) {bn : Nat} (hbn : bn < blockCount (m.view.size i)) :
    bn < maxfile := by
  rw [h.view_type] at htype
  obtain ⟨hpos, hlt⟩ := h.taken htype
  have hle := h.size_le hpos hlt
  have hlow := (h.below hrest bn).mp hbn
  exact Nat.lt_of_mul_lt_mul_right (hlow.trans_le hle)

theorem Made.noHoles (h : Made files m1 type file m) (htight : m1.Tight)
    (hcount : m1.freeblock = sb.dataStart +
      (blocks (direntSize * (2 + files.length)) + blocksOf files))
    (hfree : m.freeblock ≤ sb.logStart) (hrest : (2 + files.length) % 32 ≠ 0) : m.NoHoles := by
  have hfull : ∀ i bn, (m.view.ino i).type ≠ 0 → bn < blockCount (m.view.size i) →
      m.view.addr i bn ≠ 0 := fun i bn htype hbn =>
    (h.mapped_iff htight hrest htype (h.count_le hrest htype hbn)).mpr hbn
  have hslot : ∀ {i k}, (m.view.ino i).type ≠ 0 → m.view.slot i k = m1.view.own i k := by
    intro i k htype
    rw [h.view_type] at htype
    rw [h.view_slot htype, View.own_of_type htype]
  have hdata : ∀ {i k}, (m.view.ino i).type ≠ 0 → m.view.slot i k ≠ 0 →
      sb.dataStart ≤ m.view.slot i k ∧ m.view.slot i k < m1.freeblock := by
    intro i k htype hz
    rw [hslot htype] at hz ⊢
    obtain ⟨h1, -, h3⟩ := h.image.sound.used i k hz
    exact ⟨h1, of_decide_eq_true h3⟩
  refine ⟨hfull, ?_, ?_, ?_⟩
  · intro i bn j bn' hi hj hbn hbn' heq
    have hz := hfull i bn hi hbn
    rw [View.addr, View.addr, hslot hi, hslot hj] at heq
    rw [View.addr, hslot hi] at hz
    obtain ⟨hij, hk⟩ := h.image.sound.inj _ _ _ _ heq hz
    exact ⟨hij, View.slotOf_inj hk⟩
  · intro i bn hi hbn
    exact (hdata hi (hfull i bn hi hbn)).2.trans_le (h.freeblock ▸ hfree)
  · intro b hb
    rw [BlockUse.bitSet_img h hb, h.freeblock, decide_eq_true_iff]
    constructor
    · intro hlt
      by_cases hlow : b < sb.dataStart
      · exact .inl hlow
      · obtain ⟨i, k, hpos, hi, hk, rfl⟩ := h.owned htight hcount (by omega) hlt
        have htype := h.type_ne hpos hi
        have htype' := htype
        rw [← h.view_type] at htype'
        refine .inr ⟨(mem_filter.mp hk).2, i, htype', ?_⟩
        rcases (mem_slots_iff (htight i hpos hi) (h.size_le hpos hi)).mp hk with
          ⟨bn, hbn, rfl⟩ | ⟨-, rfl⟩
        · exact .inl ⟨bn, (h.below hrest bn).mpr (lt_blockCount.mp hbn), h.view_addr htype bn⟩
        · exact .inr (h.view_slot htype _)
    · rintro (hlow | ⟨hz, i, hi, ⟨bn, hbn, rfl⟩ | rfl⟩)
      · exact hlow.trans_le (by rw [hcount]; omega)
      · exact (hdata hi hz).2
      · exact (hdata hi hz).2

theorem Made.root_hole (h : Made files m1 type file m) (htight : m1.Tight)
    (hrest : (2 + files.length) % 32 = 0) :
    m.view.addr rootIno (direntSize * (2 + files.length) / bsize) = 0 := by
  have hcount := h.count
  have hlast := h.image.last
  have hlt : direntSize * (2 + files.length) / bsize < maxfile := by
    simp only [maxfile, ndirect, nindirect, bsize, direntSize, ninodes] at *
    omega
  have hexact := (htight rootIno (by decide) h.root_lt).direct _ hlt
  rw [h.view_addr (h.type_ne (by decide) h.root_lt)]
  by_contra hz
  have hend := hexact.mp hz
  rw [h.root_size] at hend
  simp only [bsize, direntSize] at hend
  omega

theorem Made.hole (h : Made files m1 type file m) (htight : m1.Tight)
    (hrest : (2 + files.length) % 32 = 0) : ¬m.NoHoles := by
  intro hno
  apply hno.full rootIno (direntSize * (2 + files.length) / bsize)
  · rw [h.view_type]
    exact h.type_ne (by decide) h.root_lt
  · rw [h.root_rounded, lt_blockCount]
    simp only [bsize]
    omega
  · exact h.root_hole htight hrest

/-- The directory is read without a change: either no entry has the name, or the lookup ends with
`iget` for the first that has it. -/
def QuietLookup (s : Fs) (dp : Fin ninode) : Prop :=
  ∀ name, (Fs.dirlookup dp name).run s = .ok (none, s) ∨ ∃ inum off,
    (Fs.dirlookup dp name).run s = (do
      let ip ← Fs.iget inum
      pure (some (ip, off))).run s

variable {s s0 : Fs} {dp : Fin ninode} {v : View}

theorem run_readDirent_of_sees (hsees : Fs.Sees s dp v i) (htype : (s.icache dp).d.type = tDir)
    (hall : ∀ x < (s.icache dp).d.size.toNat, v.addr i (x / bsize) ≠ 0) {off : Nat}
    (hoff : off + direntSize ≤ (s.icache dp).d.size.toNat) (msg : String) :
    ∃ de, (Fs.readDirent dp off msg).run s = .ok (de, s) := by
  let bytes := (List.range (s.icache dp).d.size.toNat).map (v.byte i)
  have hlen : bytes.length = (s.icache dp).d.size.toNat := by
    rw [List.length_map, List.length_range]
  have hread := Fs.run_readi hsees (by rw [htype]; decide) hoff (hlen ▸ hoff)
    (fun x hx => hall x (hlen ▸ hx)) (fun x hx => by
      rw [List.getD_eq_getElem _ _ hx, List.getElem_map, List.getElem_range])
  have hfull : ((bytes.drop off).take direntSize).length = direntSize := by
    rw [List.length_take, List.length_drop]
    omega
  refine ⟨Fs.Dirent.load ((bytes.drop off).take direntSize), ?_⟩
  rw [Fs.readDirent, Kernel.run_bind_of_ok hread]
  simp only [hfull, ne_eq, not_true_eq_false, if_false]
  rfl

theorem quietLookup (hsees : Fs.Sees s dp v i) (htype : (s.icache dp).d.type = tDir)
    (hall : ∀ x < (s.icache dp).d.size.toNat, v.addr i (x / bsize) ≠ 0)
    (hdvd : direntSize ∣ (s.icache dp).d.size.toNat) : QuietLookup s dp := by
  intro name
  have hloop : ∀ offs : List Nat, (∀ off ∈ offs, off + direntSize ≤ (s.icache dp).d.size.toNat) →
      (Fs.dirlookupLoop dp name offs).run s = .ok (none, s) ∨ ∃ inum off,
        (Fs.dirlookupLoop dp name offs).run s = (do
          let ip ← Fs.iget inum
          pure (some (ip, off))).run s := by
    intro offs hoffs
    induction offs with
    | nil => exact .inl rfl
    | cons off offs ih =>
      obtain ⟨de, hde⟩ := run_readDirent_of_sees hsees htype hall
        (hoffs off List.mem_cons_self) "dirlink read"
      rw [Fs.dirlookupLoop, Kernel.run_bind_of_ok hde]
      by_cases hfound : de.inum ≠ 0 ∧ Fs.namecmpEq name de.name = true
      · rw [if_pos hfound]
        exact .inr ⟨de.inum, off, rfl⟩
      · rw [if_neg hfound]
        exact ih fun off h => hoffs off (List.mem_cons_of_mem _ h)
  rw [Fs.dirlookup, Kernel.run_get_bind, if_neg (by rw [htype]; exact fun hne => hne rfl)]
  apply hloop
  intro off hoff
  obtain ⟨k, hk, rfl⟩ := List.mem_map.mp hoff
  rw [List.mem_range'_1] at hk
  obtain ⟨c, hc⟩ := hdvd
  simp only [direntSize] at *
  omega

theorem Made.root_quiet (h : Made files m1 type file m) (hno : m.NoHoles)
    (hfree : m.freeblock ≤ sb.logStart) (hboot : Fs.Booted m.img sb s0) :
    ∃ ip s1 s2, (Fs.iget rootIno).run s0 = .ok (ip, s1) ∧ (Fs.ilock ip).run s1 = .ok ((), s2) ∧
      QuietLookup s2 ip := by
  obtain ⟨ip, e, e', hget, hlock, -, -, -, hd⟩ := root_locked h hboot
  have htype := h.type_ne (by decide) h.root_lt
  have hself : ((s0.setInode ip e').icache ip).d = m.view.ino rootIno := by
    rw [Fs.setInode_icache_self, hd, h.view_ino, if_pos rfl]
  have hsees : Fs.Sees (s0.setInode ip e') ip m1.view rootIno :=
    ((⟨hboot.quiet, hboot.content⟩ : OnImage m s0).setInode ip e').sees h hfree htype (by
      rw [Fs.setInode_icache_self, hd]
      rfl)
  refine ⟨ip, _, _, hget, hlock, quietLookup hsees ?_ ?_ ?_⟩
  · rw [hself, h.view_type, (h.image.allocated rootIno (by decide) h.root_lt).2.type, h.root.1]
  · intro x hx
    rw [hself] at hx
    rw [← h.view_addr htype]
    apply hno.full rootIno _ (by rwa [h.view_type])
    rw [lt_blockCount]
    exact (Nat.div_mul_le_self ..).trans_lt hx
  · rw [hself]
    change direntSize ∣ m.view.size rootIno
    rw [h.root_rounded]
    exact Dvd.dvd.mul_left (by decide) _

end Image

/-- **Holes in an image.** For every list of files that fits, `mkfs` makes an image on which the
kernel boots. Its inodes have all the blocks below their sizes, all distinct and below the log, the
bitmap marks exactly the blocks in use, and lookups in the root directory allocate nothing, exactly
if the entries of the root directory do not fill its last block. -/
theorem mkfs_noHoles_iff (files : List Input) (hfits : Fits files) :
    ∃ m s0, (main files).run start = .ok ((), m) ∧
      Fs.initlog.run (Fs.mounted m.img) = .ok ((), s0) ∧
      ((m.NoHoles ∧ ∃ ip s1 s2, (Fs.iget rootIno).run s0 = .ok (ip, s1) ∧
        (Fs.ilock ip).run s1 = .ok ((), s2) ∧ QuietLookup s2 ip) ↔
          (2 + files.length) % 32 ≠ 0) := by
  obtain ⟨m, s0, m1, type, file, hmain, hinit, hcount, hfree, hmade, htight, hboot⟩ := boots hfits
  refine ⟨m, s0, hmain, hinit, ?_, fun hrest => ?_⟩
  · rintro ⟨hno, -⟩ hrest
    exact hmade.hole htight hrest hno
  · have hno := hmade.noHoles htight (hmade.freeblock ▸ hcount) hfree hrest
    exact ⟨hno, hmade.root_quiet hno hfree hboot⟩

theorem mkfs_noHoles_catAndReadme : ∃ m, (main catAndReadme).run start = .ok ((), m) ∧
    m.NoHoles := by
  have hinputs : ∀ f ∈ catAndReadme, f.Fits := by
    intro f hf
    rcases List.mem_cons.mp hf with rfl | hf
    · exact ⟨by decide, by decide⟩
    · rw [List.mem_singleton.mp hf]
      exact ⟨by decide, by decide⟩
  obtain ⟨m, s0, hmain, -, hiff⟩ := mkfs_noHoles_iff catAndReadme ⟨hinputs, by decide, by decide⟩
  exact ⟨m, hmain, (hiff.mpr (by decide)).1⟩

def thirty : List Input :=
  (List.finRange 30).map fun (k : Fin 30) =>
    { name := [UInt8.ofNat (65 + k.val)], chunks := [], nul := by decide +revert }

/-- The second block of the root directory lies below its size and has no address. -/
theorem mkfs_root_hole : ∃ m, (main thirty).run start = .ok ((), m) ∧
    m.view.size rootIno = 1024 ∧ m.view.addr rootIno 1 = 0 ∧ ¬m.NoHoles := by
  have hinputs : ∀ f ∈ thirty, f.Fits := by
    intro f hf
    obtain ⟨k, -, rfl⟩ := List.mem_map.mp hf
    clear hf
    exact ⟨by decide +revert, by decide +revert⟩
  obtain ⟨m, s0, m1, type, file, hmain, -, -, -, hmade, htight, -⟩ :=
    boots ⟨hinputs, by decide, by decide⟩
  have hrest : (2 + thirty.length) % 32 = 0 := by decide
  exact ⟨m, hmain, hmade.root_rounded, hmade.root_hole htight hrest, hmade.hole htight hrest⟩

end Mkfs

end Xv6
