import Mathlib.Tactic
import Xv6.BufferCache

/-!
# The invariant of the buffer cache

Every buffer is on the ring once, no sector has two buffers, and a busy buffer has one holder. A
valid buffer that was not changed holds what was last left for its sector, and so does the disk for
a sector without a dirty buffer.
-/

namespace Xv6

variable {n : Nat} {ι B : Type}

def Sector.Real (k : Sector) : Prop := k.1 ≠ noDevice

structure BufHolders (s : Bcache n ι B) : Prop where
  heldBusy : ∀ p b, b ∈ s.held p → (s.buf b).busy = true
  busyHeld : ∀ b, (s.buf b).busy = true → ∃ p, b ∈ s.held p
  heldOnce : ∀ p q b, b ∈ s.held p → b ∈ s.held q → p = q
  heldNodup : ∀ p, (s.held p).Nodup

structure BufContent (s : Bcache n ι B) : Prop where
  unique : ∀ b c, (s.buf b).key = (s.buf c).key → (s.buf b).key.Real → b = c
  empty : ∀ b, ¬(s.buf b).key.Real →
    (s.buf b).busy = false ∧ (s.buf b).valid = false ∧ (s.buf b).dirty = false
  asked : ∀ p k, (s.pc p = .getting k ∨ ∃ b, s.pc p = .waiting b k) → k.Real
  reading : ∀ p b k, s.pc p = .reading b k → b ∈ s.held p ∧ (s.buf b).key = k ∧
    (s.buf b).valid = false ∧ (s.buf b).dirty = false
  writing : ∀ p b, s.pc p = .writing b → b ∈ s.held p ∧ (s.buf b).valid = true ∧
    s.modified b = false
  invalid : ∀ b, (s.buf b).valid = false → ¬(s.buf b).key.Real ∨
    ∃ p k, s.pc p = .reading b k
  dirtyValid : ∀ b, (s.buf b).dirty = true → (s.buf b).valid = true
  modifiedBusy : ∀ b, s.modified b = true → (s.buf b).busy = true
  fresh : ∀ b, (s.buf b).valid = true → s.modified b = false →
    (s.buf b).data = s.left (s.buf b).key
  onDisk : ∀ k, k.Real → (∀ b, (s.buf b).key = k → (s.buf b).dirty = false) →
    s.disk k = s.left k

structure BcacheInv (s : Bcache n ι B) : Prop where
  ring : ∃ l, IsRing s.links l ∧ l.Perm (List.finRange n)
  holders : BufHolders s
  content : BufContent s

theorem isRing_foldl_insertFront {k : Links (Fin n)} {l : List (Fin n)} (h : IsRing k l)
    (bs : List (Fin n)) (hnodup : bs.Nodup) (hdisj : ∀ b ∈ bs, b ∉ l) :
    IsRing (bs.foldl Links.insertFront k) (bs.reverse ++ l) := by
  induction bs generalizing k l with
  | nil => exact h
  | cons b bs ih =>
    obtain ⟨hb, hnodup⟩ := List.nodup_cons.mp hnodup
    rw [List.foldl_cons, List.reverse_cons, List.append_assoc]
    refine ih (h.insertFront (hdisj b List.mem_cons_self)) hnodup fun c hc hmem => ?_
    rcases List.mem_cons.mp hmem with rfl | hmem
    · exact hb hc
    · exact hdisj c (List.mem_cons_of_mem _ hc) hmem

theorem binit_ring (n : Nat) :
    ∃ l, IsRing (Bcache.binit n) l ∧ l.Perm (List.finRange n) := by
  refine ⟨(List.finRange n).reverse ++ [], isRing_foldl_insertFront .nil _ (List.nodup_finRange n)
    (by simp), ?_⟩
  rw [List.append_nil]
  exact List.reverse_perm _

theorem ring_brelse {k : Links (Fin n)} (b : Fin n)
    (h : ∃ l, IsRing k l ∧ l.Perm (List.finRange n)) :
    ∃ l, IsRing ((k.unlink b).insertFront b) l ∧ l.Perm (List.finRange n) := by
  obtain ⟨l, hring, hperm⟩ := h
  obtain ⟨l1, l2, rfl⟩ := List.append_of_mem (hperm.mem_iff.mpr (List.mem_finRange b))
  have hb : b ∉ l1 ++ l2 := by
    have hnodup := hring.nodup
    rw [List.nodup_middle] at hnodup
    exact (List.nodup_cons.mp hnodup).1
  exact ⟨b :: (l1 ++ l2), hring.unlink.insertFront hb, List.perm_middle.symm.trans hperm⟩

section Scan

variable {s s' : Bcache n ι B} {b : Fin n} {k : Sector}

theorem mem_walk_next (hinv : BcacheInv s) (b : Fin n) :
    b ∈ walk s.links.next n (s.links.next none) := by
  obtain ⟨l, hring, hperm⟩ := hinv.ring
  have hlen : l.length ≤ n := by rw [hperm.length_eq, List.length_finRange]
  rw [hring.forward.walk_eq hlen]
  exact hperm.mem_iff.mpr (List.mem_finRange b)

theorem lookup_some (h : s.lookup k = some b) : (s.buf b).key = k := by
  simpa using List.find?_some h

theorem lookup_none (hinv : BcacheInv s) (h : s.lookup k = none) (b : Fin n) :
    (s.buf b).key ≠ k := by
  simpa using List.find?_eq_none.mp h b (mem_walk_next hinv b)

theorem recycle_some (h : s.recycle = some b) :
    (s.buf b).busy = false ∧ (s.buf b).dirty = false := by
  simpa using List.find?_some h

end Scan

variable {s s' : Bcache n ι B} {p q : ι} {b : Fin n} {k : Sector}

theorem wakeup_pc_cases (s : Bcache n ι B) (b : Fin n) (q : ι) :
    (s.wakeup b).pc q = s.pc q ∨ ∃ k, s.pc q = .waiting b k ∧ (s.wakeup b).pc q = .getting k := by
  simp only [Bcache.wakeup]
  cases s.pc q with
  | waiting c k =>
    by_cases hc : c = b
    · subst hc
      exact .inr ⟨k, rfl, if_pos rfl⟩
    · exact .inl (if_neg hc)
  | _ => exact .inl rfl

theorem BufContent.wakeup (h : BufContent s) (b : Fin n) : BufContent (s.wakeup b) := by
  have hpc := wakeup_pc_cases s b
  obtain ⟨h1, h2, h3, h4, h5, h6, h7, h8, h9, h10⟩ := h
  refine ⟨h1, h2, ?_, ?_, ?_, ?_, h7, h8, h9, h10⟩
  · intro p k hk
    rcases hpc p with heq | ⟨k', hw, heq⟩
    · rw [heq] at hk
      exact h3 p k hk
    · rw [heq] at hk
      have hkk : k' = k := by simpa using hk
      exact h3 p k (.inr ⟨b, hkk ▸ hw⟩)
  · intro p c k hk
    rcases hpc p with heq | ⟨k', hw, heq⟩
    · rw [heq] at hk
      exact h4 p c k hk
    · rw [heq] at hk
      cases hk
  · intro p c hk
    rcases hpc p with heq | ⟨k', hw, heq⟩
    · rw [heq] at hk
      exact h5 p c hk
    · rw [heq] at hk
      cases hk
  · intro c hc
    refine (h6 c hc).imp_right ?_
    rintro ⟨p, k, hk⟩
    refine ⟨p, k, ?_⟩
    rcases hpc p with heq | ⟨k', hw, -⟩
    · rw [heq, hk]
    · rw [hk] at hw
      cases hw

theorem BcacheInv.valid_of_holding (h : BcacheInv s) (hold : s.holding p b) :
    (s.buf b).valid = true ∧ (s.buf b).busy = true := by
  obtain ⟨hpc, hmem⟩ := hold
  have hbusy := h.holders.heldBusy p b hmem
  refine ⟨?_, hbusy⟩
  by_contra hvalid
  rcases h.content.invalid b (by simpa using hvalid) with hdev | ⟨q, k, hq⟩
  · rw [(h.content.empty b hdev).1] at hbusy
    cases hbusy
  · have hmem' := (h.content.reading q b k hq).1
    rw [h.holders.heldOnce p q b hmem hmem', hq] at hpc
    cases hpc

structure BufChange (s s' : Bcache n ι B) (b : Fin n) : Prop where
  buf : ∀ c ≠ b, s'.buf c = s.buf c
  modified : ∀ c ≠ b, s'.modified c = s.modified c
  pc : ∀ q, s'.pc q = s.pc q
  held : ∀ q, s'.held q = s.held q

theorem BufContent.modify (h : BufContent s) (hbusy : (s.buf b).busy = true)
    (hnot : ∀ q, s.pc q ≠ .writing b) (data : B) : BufContent (s.modify b data) := by
  have hself : (s.modify b data).buf b = { s.buf b with data := data } := Function.update_self ..
  have hmself : (s.modify b data).modified b = true := Function.update_self ..
  have hchange : BufChange s (s.modify b data) b := ⟨fun c hc => Function.update_of_ne hc ..,
    fun c hc => Function.update_of_ne hc .., fun _ => rfl, fun _ => rfl⟩
  have hdisk : ∀ k, (s.modify b data).disk k = s.disk k := fun _ => rfl
  have hleft : ∀ k, (s.modify b data).left k = s.left k := fun _ => rfl
  generalize s.modify b data = s' at *
  obtain ⟨hother, hmother, hpc, hheld⟩ := hchange
  obtain ⟨h1, h2, h3, h4, h5, h6, h7, h8, h9, h10⟩ := h
  constructor <;> grind -ring -linarith

theorem BufContent.leave (h : BufContent s) (hvalid : (s.buf b).valid = true)
    (hbusy : (s.buf b).busy = true) : BufContent (s.leave b) := by
  have hself : (s.leave b).buf b = { s.buf b with dirty := true } := Function.update_self ..
  have hmself : (s.leave b).modified b = false := Function.update_self ..
  have hchange : BufChange s (s.leave b) b := ⟨fun c hc => Function.update_of_ne hc ..,
    fun c hc => Function.update_of_ne hc .., fun _ => rfl, fun _ => rfl⟩
  have hdisk : ∀ k, (s.leave b).disk k = s.disk k := fun _ => rfl
  have hleft : (s.leave b).left (s.buf b).key = (s.buf b).data := Function.update_self ..
  have hlother : ∀ k ≠ (s.buf b).key, (s.leave b).left k = s.left k :=
    fun k hk => Function.update_of_ne hk ..
  generalize s.leave b = s' at *
  obtain ⟨hother, hmother, hpc, hheld⟩ := hchange
  obtain ⟨h1, h2, h3, h4, h5, h6, h7, h8, h9, h10⟩ := h
  constructor <;> grind -ring -linarith

variable [DecidableEq ι]

theorem BufContent.goto {pc : BufPc n} (h : BufContent s)
    (hold : ∀ c k, s.pc p ≠ .reading c k)
    (hask : ∀ k, (pc = .getting k ∨ ∃ c, pc = .waiting c k) → k.Real)
    (hread : ∀ c k, pc ≠ .reading c k)
    (hwrite : ∀ c, pc = .writing c →
      c ∈ s.held p ∧ (s.buf c).valid = true ∧ s.modified c = false) :
    BufContent (s.goto p pc) := by
  have hself : (s.goto p pc).pc p = pc := Function.update_self ..
  have hother : ∀ q ≠ p, (s.goto p pc).pc q = s.pc q := fun q hq => Function.update_of_ne hq ..
  obtain ⟨h1, h2, h3, h4, h5, h6, h7, h8, h9, h10⟩ := h
  refine ⟨h1, h2, ?_, ?_, ?_, ?_, h7, h8, h9, h10⟩
  · intro q k hk
    by_cases hq : q = p
    · subst hq
      rw [hself] at hk
      exact hask k hk
    · rw [hother q hq] at hk
      exact h3 q k hk
  · intro q c k hk
    by_cases hq : q = p
    · subst hq
      rw [hself] at hk
      exact absurd hk (hread c k)
    · rw [hother q hq] at hk
      exact h4 q c k hk
  · intro q c hk
    by_cases hq : q = p
    · subst hq
      rw [hself] at hk
      exact hwrite c hk
    · rw [hother q hq] at hk
      exact h5 q c hk
  · intro c hc
    refine (h6 c hc).imp_right ?_
    rintro ⟨q, k, hk⟩
    have hq : q ≠ p := fun heq => hold c k (heq ▸ hk)
    exact ⟨q, k, (hother q hq).trans hk⟩

omit [DecidableEq ι] in
theorem BufContent.real_of_busy (h : BufContent s) (hbusy : (s.buf b).busy = true) :
    (s.buf b).key.Real := by
  by_contra hnot
  rw [(h.empty b hnot).1] at hbusy
  cases hbusy

theorem BufContent.transfer (h : BufContent s) (hpc : ∀ c k, s.pc p = .reading c k → c = b)
    (hbusy : (s.buf b).busy = true) (hone : ∀ q, b ∈ s.held q → q = p) {data : B}
    (hdata : data = s.left (s.buf b).key) {disk : Sector → B}
    (hdself : disk (s.buf b).key = data) (hdother : ∀ k ≠ (s.buf b).key, disk k = s.disk k) :
    BufContent (({ s with disk := disk }.setBuf b
      { s.buf b with data := data, valid := true, dirty := false }).goto p .idle) := by
  have hreal := h.real_of_busy hbusy
  generalize hs : ({ s with disk := disk }.setBuf b
    { s.buf b with data := data, valid := true, dirty := false }).goto p .idle = s'
  have hself : s'.buf b = { s.buf b with data := data, valid := true, dirty := false } :=
    hs ▸ Function.update_self ..
  have hother : ∀ c ≠ b, s'.buf c = s.buf c := fun c hc => hs ▸ Function.update_of_ne hc ..
  have hpself : s'.pc p = .idle := hs ▸ Function.update_self ..
  have hpother : ∀ q ≠ p, s'.pc q = s.pc q := fun q hq => hs ▸ Function.update_of_ne hq ..
  have hmod : ∀ c, s'.modified c = s.modified c := fun c => hs ▸ rfl
  have hheld : ∀ q, s'.held q = s.held q := fun q => hs ▸ rfl
  have hdisk : ∀ k, s'.disk k = disk k := fun k => hs ▸ rfl
  have hleft : ∀ k, s'.left k = s.left k := fun k => hs ▸ rfl
  clear hs
  obtain ⟨h1, h2, h3, h4, h5, h6, h7, h8, h9, h10⟩ := h
  constructor
  case reading =>
    intro q c k' hq
    have hqp : q ≠ p := by
      rintro rfl
      rw [hpself] at hq
      cases hq
    rw [hpother q hqp] at hq
    have hread := h4 q c k' hq
    have hcb : c ≠ b := fun heq => hqp (hone q (heq ▸ hread.1))
    rw [hother c hcb, hheld]
    exact hread
  case onDisk =>
    intro k hk hclean
    rw [hdisk, hleft]
    by_cases hkb : k = (s.buf b).key
    · rw [hkb, hdself, hdata]
    · rw [hdother k hkb]
      refine h10 k hk fun c hc => ?_
      have hcb : c ≠ b := fun heq => hkb (heq ▸ hc.symm)
      have := hclean c
      rw [hother c hcb] at this
      exact this hc
  all_goals grind -ring -linarith

theorem BufContent.ideread (h : BufContent s) (hpc : s.pc p = .reading b k)
    (hbusy : (s.buf b).busy = true) (hone : ∀ q, b ∈ s.held q → q = p) :
    BufContent (s.ideread p b) := by
  refine BufContent.wakeup ?_ b
  have hreal := h.real_of_busy hbusy
  refine h.transfer (by simp [hpc]) hbusy hone (h.onDisk _ hreal fun c hc => ?_) rfl
    fun _ _ => rfl
  rw [← h.unique b c hc.symm hreal]
  exact (h.reading p b k hpc).2.2.2

theorem BufContent.idewrite (h : BufContent s) (hpc : s.pc p = .writing b)
    (hbusy : (s.buf b).busy = true) (hone : ∀ q, b ∈ s.held q → q = p) :
    BufContent (s.idewrite p b) := by
  obtain ⟨-, hvalid, hmod⟩ := h.writing p b hpc
  exact (h.transfer (by simp [hpc]) hbusy hone (h.fresh b hvalid hmod) (Function.update_self ..)
    fun k hk => Function.update_of_ne hk ..).wakeup b

theorem BufContent.startWrite (h : BufContent s) (hpc : s.pc p = .idle) (hmem : b ∈ s.held p)
    (hvalid : (s.buf b).valid = true) (hmod : s.modified b = false) :
    BufContent (s.goto p (.writing b)) := by
  refine h.goto (by simp [hpc]) (by simp) (by simp) ?_
  rintro c ⟨⟩
  exact ⟨hmem, hvalid, hmod⟩

structure BufTaken (s : Bcache n ι B) (p : ι) (b : Fin n) (k : Sector) (c : CacheBuf B)
    (s' : Bcache n ι B) : Prop where
  self : s'.buf b = { c with busy := true }
  other : ∀ d ≠ b, s'.buf d = s.buf d
  pcSelf : s'.pc p = if c.valid then .idle else .reading b k
  pcOther : ∀ q ≠ p, s'.pc q = s.pc q
  heldSelf : s'.held p = b :: s.held p
  heldOther : ∀ q ≠ p, s'.held q = s.held q
  modified : ∀ d, s'.modified d = s.modified d
  disk : ∀ k, s'.disk k = s.disk k
  left : ∀ k, s'.left k = s.left k
  links : s'.links = s.links

omit [DecidableEq ι] in
theorem BufTaken.reading {c : CacheBuf B} {d : Fin n} {k' : Sector} (htake : BufTaken s p b k c s')
    (h : BufContent s) (hone : ∀ q, b ∉ s.held q) (hqp : q ≠ p) (hq : s'.pc q = .reading d k') :
    d ∈ s'.held q ∧ (s'.buf d).key = k' ∧ (s'.buf d).valid = false ∧ (s'.buf d).dirty = false := by
  rw [htake.pcOther q hqp] at hq
  have hread := h.reading q d k' hq
  have hdb : d ≠ b := fun heq => hone q (heq ▸ hread.1)
  rw [htake.other d hdb, htake.heldOther q hqp]
  exact hread

omit [DecidableEq ι] in
theorem BufTaken.writing {c : CacheBuf B} {d : Fin n} (htake : BufTaken s p b k c s')
    (h : BufContent s) (hone : ∀ q, b ∉ s.held q) (hqp : q ≠ p) (hq : s'.pc q = .writing d) :
    d ∈ s'.held q ∧ (s'.buf d).valid = true ∧ s'.modified d = false := by
  rw [htake.pcOther q hqp] at hq
  have hwrite := h.writing q d hq
  have hdb : d ≠ b := fun heq => hone q (heq ▸ hwrite.1)
  rw [htake.other d hdb, htake.heldOther q hqp, htake.modified]
  exact hwrite

omit [DecidableEq ι] in
theorem BufContent.hit (h : BufContent s) (hpc : s.pc p = .getting k) (hkey : (s.buf b).key = k)
    (hvalid : (s.buf b).valid = true) (hone : ∀ q, b ∉ s.held q)
    (htake : BufTaken s p b k (s.buf b) s') : BufContent s' := by
  have hreal := h.asked p k (.inl hpc)
  have hread := fun q d k' (hqp : q ≠ p) (hq : s'.pc q = .reading d k') =>
    htake.reading h hone hqp hq
  have hwrite := fun q d (hqp : q ≠ p) (hq : s'.pc q = .writing d) => htake.writing h hone hqp hq
  obtain ⟨hself, hother, hpself, hpother, hheld, hhother, hmod, hdisk, hleft, -⟩ := htake
  rw [if_pos hvalid] at hpself
  obtain ⟨h1, h2, h3, h4, h5, h6, h7, h8, h9, h10⟩ := h
  constructor
  case reading =>
    intro q d k' hq
    refine hread q d k' (fun heq => ?_) hq
    rw [heq, hpself] at hq
    cases hq
  case writing =>
    intro q d hq
    refine hwrite q d (fun heq => ?_) hq
    rw [heq, hpself] at hq
    cases hq
  all_goals
    clear h4 h5 hread hwrite
    grind -ring -linarith

theorem BufContent.miss {c : CacheBuf B} (h : BufContent s) (hpc : s.pc p = .getting k)
    (hnone : ∀ d, (s.buf d).key ≠ k) (hdirty : (s.buf b).dirty = false)
    (hone : ∀ q, b ∉ s.held q) (hc : c.key = k ∧ c.valid = false ∧ c.dirty = false)
    (hmodf : s.modified b = false) (htake : BufTaken s p b k c s') : BufContent s' := by
  have hreal := h.asked p k (.inl hpc)
  have hread := fun q d k' (hqp : q ≠ p) (hq : s'.pc q = .reading d k') =>
    htake.reading h hone hqp hq
  have hwrite := fun q d (hqp : q ≠ p) (hq : s'.pc q = .writing d) => htake.writing h hone hqp hq
  obtain ⟨hck, hcv, hcd⟩ := hc
  obtain ⟨hself, hother, hpself, hpother, hheld, hhother, hmod, hdisk, hleft, -⟩ := htake
  rw [if_neg (by rw [hcv]; decide)] at hpself
  obtain ⟨h1, h2, h3, h4, h5, h6, h7, h8, h9, h10⟩ := h
  constructor
  case onDisk =>
    intro k' hk' hclean
    rw [hdisk, hleft]
    refine h10 k' hk' fun d hd => ?_
    by_cases hdb : d = b
    · rw [hdb, hdirty]
    · have := hclean d
      rw [hother d hdb] at this
      exact this hd
  case reading =>
    intro q d k' hq
    by_cases hqp : q = p
    · subst hqp
      rw [hpself] at hq
      cases hq
      rw [hself, hheld]
      exact ⟨List.mem_cons_self, hck, hcv, hcd⟩
    · exact hread q d k' hqp hq
  case writing =>
    intro q d hq
    refine hwrite q d (fun heq => ?_) hq
    rw [heq, hpself] at hq
    cases hq
  case invalid =>
    intro d hd
    by_cases hdb : d = b
    · subst hdb
      exact .inr ⟨p, k, hpself⟩
    · rw [hother d hdb] at hd ⊢
      refine (h6 d hd).imp_right ?_
      rintro ⟨q, k', hq⟩
      have hqp : q ≠ p := by
        rintro rfl
        rw [hpc] at hq
        cases hq
      exact ⟨q, k', (hpother q hqp).trans hq⟩
  all_goals
    clear h10 h4 h5 h6 hread hwrite
    grind -ring -linarith

theorem BufTaken.mem_held {c : CacheBuf B} (htake : BufTaken s p b k c s') (q : ι) (d : Fin n) :
    d ∈ s'.held q ↔ d ∈ s.held q ∨ q = p ∧ d = b := by
  by_cases hqp : q = p
  · subst hqp
    rw [htake.heldSelf, List.mem_cons]
    tauto
  · rw [htake.heldOther q hqp]
    tauto

theorem BufHolders.taken {c : CacheBuf B} (h : BufHolders s) (hfree : (s.buf b).busy = false)
    (htake : BufTaken s p b k c s') : BufHolders s' := by
  have hmem := htake.mem_held
  have hself : (s'.buf b).busy = true := by rw [htake.self]
  have hother := htake.other
  have hone : ∀ q, b ∉ s.held q := fun q hq => by
    rw [h.heldBusy q b hq] at hfree
    cases hfree
  constructor
  · intro q d hd
    by_cases hdb : d = b
    · rw [hdb, hself]
    · rw [hmem] at hd
      rw [hother d hdb]
      exact h.heldBusy q d (hd.resolve_right fun hb => hdb hb.2)
  · intro d hd
    by_cases hdb : d = b
    · exact ⟨p, (hmem p d).mpr (.inr ⟨rfl, hdb⟩)⟩
    · rw [hother d hdb] at hd
      obtain ⟨q, hq⟩ := h.busyHeld d hd
      exact ⟨q, (hmem q d).mpr (.inl hq)⟩
  · intro q r d hq hr
    rw [hmem] at hq hr
    rcases hq with hq | ⟨rfl, rfl⟩
    · rcases hr with hr | ⟨rfl, rfl⟩
      · exact h.heldOnce q r d hq hr
      · exact absurd hq (hone q)
    · rcases hr with hr | ⟨rfl, -⟩
      · exact absurd hr (hone r)
      · rfl
  · intro q
    by_cases hqp : q = p
    · rw [hqp, htake.heldSelf]
      exact List.nodup_cons.mpr ⟨hone p, h.heldNodup p⟩
    · rw [htake.heldOther q hqp]
      exact h.heldNodup q

end Xv6
