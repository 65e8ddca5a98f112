import Xv6.Proof.BufferCacheInv

/-!
# The buffer cache is a map from sectors to contents

Every step keeps the invariant, a buffer that changes its sector is free and clean, and what `bread`
returns is what `bwrite` or `log_write` left last.
-/

namespace Xv6

variable {n : Nat} {ι B : Type} [DecidableEq ι] {s s' : Bcache n ι B} {p q : ι} {b : Fin n}
  {k : Sector}

omit [DecidableEq ι] in
theorem BufHolders.congr (h : BufHolders s) (hheld : s'.held = s.held)
    (hbusy : ∀ c, (s'.buf c).busy = (s.buf c).busy) : BufHolders s' := by
  refine ⟨fun q c => ?_, fun c => ?_, fun q r c => ?_, fun q => ?_⟩
  · rw [hheld, hbusy]
    exact h.heldBusy q c
  · rw [hheld, hbusy]
    exact h.busyHeld c
  · rw [hheld]
    exact h.heldOnce q r c
  · rw [hheld]
    exact h.heldNodup q

omit [DecidableEq ι] in
theorem setBuf_busy {c : CacheBuf B} (hc : c.busy = (s.buf b).busy) (d : Fin n) :
    ((s.setBuf b c).buf d).busy = (s.buf d).busy := by
  by_cases hd : d = b
  · subst hd
    have hself : (s.setBuf d c).buf d = c := Function.update_self ..
    rw [hself, hc]
  · have hother : (s.setBuf b c).buf d = s.buf d := Function.update_of_ne hd ..
    rw [hother]

theorem bget_cases (hinv : BcacheInv s) (h : s.bget p k = some s') :
    (∃ b, s' = s.goto p (.waiting b k)) ∨
    (∃ b, s.lookup k = some b ∧ (s.buf b).busy = false ∧ BufTaken s p b k (s.buf b) s') ∨
    ∃ b c, s.lookup k = none ∧ (s.buf b).busy = false ∧ (s.buf b).dirty = false ∧ c.key = k ∧
      c.valid = false ∧ c.dirty = false ∧ BufTaken s p b k c s' := by
  unfold Bcache.bget at h
  split at h
  · rename_i b hlook
    cases h
    split
    · exact .inl ⟨b, rfl⟩
    · rename_i hfree
      exact .inr (.inl ⟨b, hlook, by simpa using hfree, Function.update_self ..,
        fun d hd => Function.update_of_ne hd .., Function.update_self ..,
        fun q hq => Function.update_of_ne hq .., Function.update_self ..,
        fun q hq => Function.update_of_ne hq .., fun _ => rfl, fun _ => rfl, fun _ => rfl, rfl⟩)
  · rename_i hlook
    split at h
    · cases h
    · rename_i b hrec
      cases h
      obtain ⟨hfree, hclean⟩ := recycle_some hrec
      have hmod : s.modified b = false := by
        by_contra hmod
        rw [hinv.content.modifiedBusy b (by simpa using hmod)] at hfree
        cases hfree
      refine .inr (.inr ⟨b, { s.buf b with key := k, valid := false, dirty := false }, hlook, hfree,
        hclean, rfl, rfl, rfl, Function.update_self ..,
        fun d hd => Function.update_of_ne hd .., Function.update_self ..,
        fun q hq => Function.update_of_ne hq .., Function.update_self ..,
        fun q hq => Function.update_of_ne hq .., fun d => ?_, fun _ => rfl, fun _ => rfl, rfl⟩)
      by_cases hd : d = b
      · subst hd
        exact (Function.update_self ..).trans hmod.symm
      · exact Function.update_of_ne hd ..

omit [DecidableEq ι] in
theorem BcacheInv.not_held (h : BcacheInv s) (hfree : (s.buf b).busy = false) (q : ι) :
    b ∉ s.held q := fun hq => by
  rw [h.holders.heldBusy q b hq] at hfree
  cases hfree

omit [DecidableEq ι] in
theorem BcacheInv.valid_of_lookup (h : BcacheInv s) (hpc : s.pc p = .getting k)
    (hlook : s.lookup k = some b) (hfree : (s.buf b).busy = false) : (s.buf b).valid = true := by
  by_contra hvalid
  rcases h.content.invalid b (by simpa using hvalid) with hreal | ⟨q, k', hq⟩
  · rw [lookup_some hlook] at hreal
    exact hreal (h.content.asked p k (.inl hpc))
  · exact h.not_held hfree q (h.content.reading q b k' hq).1

theorem BcacheInv.bget (h : BcacheInv s) (hpc : s.pc p = .getting k)
    (hstep : s.bget p k = some s') : BcacheInv s' := by
  rcases bget_cases h hstep with ⟨b, rfl⟩ | ⟨b, hlook, hfree, htake⟩ |
    ⟨b, c, hlook, hfree, hclean, hck, hcv, hcd, htake⟩
  · refine ⟨h.ring, h.holders.congr rfl fun _ => rfl, h.content.goto (by simp [hpc]) ?_ (by simp)
      (by simp)⟩
    intro k' hk'
    have hkk : k = k' := by simpa using hk'
    exact hkk ▸ h.content.asked p k (.inl hpc)
  · refine ⟨by rw [htake.links]; exact h.ring, h.holders.taken hfree htake, ?_⟩
    exact h.content.hit hpc (lookup_some hlook) (h.valid_of_lookup hpc hlook hfree)
      (h.not_held hfree) htake
  · refine ⟨by rw [htake.links]; exact h.ring, h.holders.taken hfree htake, ?_⟩
    have hmod : s.modified b = false := by
      by_contra hmod
      rw [h.content.modifiedBusy b (by simpa using hmod)] at hfree
      cases hfree
    exact h.content.miss hpc (lookup_none h hlook) hclean (h.not_held hfree) ⟨hck, hcv, hcd⟩ hmod
      htake

theorem BufHolders.release (h : BufHolders s) (hmem : b ∈ s.held p) :
    BufHolders (s.brelse p b) := by
  have hself : ((s.brelse p b).buf b).busy = false := by
    simp [Bcache.brelse, Bcache.wakeup, Bcache.setBuf]
  have hother : ∀ d ≠ b, (s.brelse p b).buf d = s.buf d := fun d hd =>
    Function.update_of_ne hd ..
  have hheld : (s.brelse p b).held p = (s.held p).erase b := Function.update_self ..
  have hhother : ∀ q ≠ p, (s.brelse p b).held q = s.held q :=
    fun q hq => Function.update_of_ne hq ..
  generalize s.brelse p b = s' at *
  have hin : ∀ q d, d ∈ s'.held q ↔ d ∈ s.held q ∧ d ≠ b := by
    intro q d
    by_cases hqp : q = p
    · subst hqp
      rw [hheld, (h.heldNodup q).mem_erase_iff]
      tauto
    · rw [hhother q hqp]
      refine ⟨fun hd => ⟨hd, fun heq => hqp (h.heldOnce q p b (heq ▸ hd) hmem)⟩, And.left⟩
  refine ⟨fun q d hd => ?_, fun d hd => ?_, fun q r d hq hr => ?_, fun q => ?_⟩
  · obtain ⟨hd, hdb⟩ := (hin q d).mp hd
    rw [hother d hdb]
    exact h.heldBusy q d hd
  · have hdb : d ≠ b := by
      rintro rfl
      rw [hself] at hd
      cases hd
    rw [hother d hdb] at hd
    obtain ⟨q, hq⟩ := h.busyHeld d hd
    exact ⟨q, (hin q d).mpr ⟨hq, hdb⟩⟩
  · exact h.heldOnce q r d ((hin q d).mp hq).1 ((hin r d).mp hr).1
  · by_cases hqp : q = p
    · rw [hqp, hheld]
      exact (h.heldNodup p).erase b
    · rw [hhother q hqp]
      exact h.heldNodup q

theorem BufContent.release (h : BufContent s) (hpc : s.pc p = .idle)
    (hvalid : (s.buf b).valid = true) (hmodf : s.modified b = false) :
    BufContent (s.brelse p b) := by
  have hwake : BufContent { s.setBuf b { s.buf b with busy := false } with
      links := (s.links.unlink b).insertFront b
      held := Function.update s.held p ((s.held p).erase b) } := by
    generalize hs : ({ s.setBuf b { s.buf b with busy := false } with
      links := (s.links.unlink b).insertFront b
      held := Function.update s.held p ((s.held p).erase b) } : Bcache n ι B) = s'
    have hself : s'.buf b = { s.buf b with busy := false } := hs ▸ Function.update_self ..
    have hother : ∀ c ≠ b, s'.buf c = s.buf c := fun c hc => hs ▸ Function.update_of_ne hc ..
    have hpcs : ∀ q, s'.pc q = s.pc q := fun q => hs ▸ rfl
    have hheld : ∀ q ≠ p, s'.held q = s.held q := fun q hq => hs ▸ Function.update_of_ne hq ..
    have hmod : ∀ c, s'.modified c = s.modified c := fun c => hs ▸ rfl
    have hdisk : ∀ k, s'.disk k = s.disk k := fun k => hs ▸ rfl
    have hleft : ∀ k, s'.left k = s.left k := fun k => hs ▸ rfl
    clear hs
    obtain ⟨h1, h2, h3, h4, h5, h6, h7, h8, h9, h10⟩ := h
    have hbusy : ∀ q, s.pc q ≠ .idle → q ≠ p := fun q hq heq => hq (heq ▸ hpc)
    constructor
    case reading =>
      intro q c k' hq
      rw [hpcs] at hq
      have hread := h4 q c k' hq
      have hcb : c ≠ b := by
        rintro rfl
        rw [hread.2.2.1] at hvalid
        cases hvalid
      rw [hheld q (hbusy q (by simp [hq])), hother c hcb]
      exact hread
    case writing =>
      intro q c hq
      rw [hpcs] at hq
      have hwrite := h5 q c hq
      rw [hheld q (hbusy q (by simp [hq])), hmod]
      refine ⟨hwrite.1, ?_, hwrite.2.2⟩
      by_cases hcb : c = b
      · rw [hcb, hself, hvalid]
      · rw [hother c hcb]
        exact hwrite.2.1
    all_goals
      clear h4 h5 hbusy
      grind -ring -linarith
  exact hwake.wakeup b

omit [DecidableEq ι] in
theorem BcacheInv.one (h : BcacheInv s) (hmem : b ∈ s.held p) (q : ι) (hq : b ∈ s.held q) : q = p :=
  h.holders.heldOnce q p b hq hmem

theorem bcacheInv_step {e : BufEvent n ι B} (h : BcacheInv s) (hstep : BufStep s e s') :
    BcacheInv s' := by
  cases e with
  | bread p k =>
    simp only [BufStep, Bcache.exec] at hstep
    split at hstep
    · rename_i hcond
      obtain ⟨hpc, hk⟩ := hcond
      cases hstep
      refine ⟨h.ring, h.holders.congr rfl fun _ => rfl,
        h.content.goto (by simp [hpc]) ?_ (by simp) (by simp)⟩
      intro k' hk'
      have hkk : k = k' := by simpa using hk'
      exact hkk ▸ hk
    · cases hstep
  | bget p =>
    simp only [BufStep, Bcache.exec] at hstep
    split at hstep
    · rename_i k hpc
      exact h.bget hpc hstep
    · cases hstep
  | ideread p =>
    simp only [BufStep, Bcache.exec] at hstep
    split at hstep
    · rename_i b k hpc
      cases hstep
      have hmem := (h.content.reading p b k hpc).1
      exact ⟨h.ring, h.holders.congr rfl (setBuf_busy rfl),
        h.content.ideread hpc (h.holders.heldBusy p b hmem) (h.one hmem)⟩
    · cases hstep
  | modify p b data =>
    simp only [BufStep, Bcache.exec] at hstep
    split at hstep
    · rename_i hold
      cases hstep
      obtain ⟨-, hbusy⟩ := h.valid_of_holding hold
      refine ⟨h.ring, h.holders.congr rfl (setBuf_busy rfl), h.content.modify hbusy ?_ data⟩
      intro q hq
      have hqp := h.one hold.2 q (h.content.writing q b hq).1
      rw [hqp, hold.1] at hq
      cases hq
    · cases hstep
  | bwrite p b =>
    simp only [BufStep, Bcache.exec] at hstep
    split at hstep
    · rename_i hold
      cases hstep
      obtain ⟨hvalid, hbusy⟩ := h.valid_of_holding hold
      have hself : (s.leave b).buf b = { s.buf b with dirty := true } := Function.update_self ..
      refine ⟨h.ring, h.holders.congr rfl (setBuf_busy rfl), ?_⟩
      exact (h.content.leave hvalid hbusy).startWrite hold.1 hold.2 (by rw [hself]; exact hvalid)
        (Function.update_self ..)
    · cases hstep
  | idewrite p =>
    simp only [BufStep, Bcache.exec] at hstep
    split at hstep
    · rename_i b hpc
      cases hstep
      have hmem := (h.content.writing p b hpc).1
      exact ⟨h.ring, h.holders.congr rfl (setBuf_busy rfl),
        h.content.idewrite hpc (h.holders.heldBusy p b hmem) (h.one hmem)⟩
    · cases hstep
  | logWrite p b =>
    simp only [BufStep, Bcache.exec] at hstep
    split at hstep
    · rename_i hold
      cases hstep
      obtain ⟨hvalid, hbusy⟩ := h.valid_of_holding hold
      exact ⟨h.ring, h.holders.congr rfl (setBuf_busy rfl), h.content.leave hvalid hbusy⟩
    · cases hstep
  | brelse p b =>
    simp only [BufStep, Bcache.exec] at hstep
    split at hstep
    · rename_i hcond
      obtain ⟨hold, hmod⟩ := hcond
      cases hstep
      exact ⟨ring_brelse b h.ring, h.holders.release hold.2,
        h.content.release hold.1 (h.valid_of_holding hold).1 hmod⟩
    · cases hstep

omit [DecidableEq ι] in
theorem bcacheInv_init (data : Fin n → B) (disk : Sector → B) :
    BcacheInv (Bcache.init data disk : Bcache n ι B) := by
  refine ⟨binit_ring n, ?_, ?_⟩
  · constructor <;> simp [Bcache.init]
  · constructor <;> simp [Bcache.init, Sector.Real]

/-- The plain map the cache stands for: `bwrite` and `log_write` bind the sector of the buffer to
its data, and nothing else does. -/
def Bcache.bind (s : Bcache n ι B) (m : Sector → B) : BufEvent n ι B → Sector → B
  | .bwrite _ b | .logWrite _ b => Function.update m (s.buf b).key (s.buf b).data
  | _ => m

theorem key_changed {e : BufEvent n ι B} (h : BcacheInv s) (hstep : BufStep s e s')
    (hkey : (s'.buf b).key ≠ (s.buf b).key) :
    (s.buf b).busy = false ∧ (s.buf b).dirty = false := by
  have hset : ∀ d (c : CacheBuf B), s'.buf = Function.update s.buf d c → c.key ≠ (s.buf d).key := by
    intro d c hbuf hc
    rw [hbuf] at hkey
    by_cases hbd : b = d
    · subst hbd
      rw [Function.update_self] at hkey
      exact hkey hc
    · rw [Function.update_of_ne hbd] at hkey
      exact hkey rfl
  cases e with
  | bget p =>
    simp only [BufStep, Bcache.exec] at hstep
    split at hstep
    · rename_i k hpc
      rcases bget_cases h hstep with ⟨d, rfl⟩ | ⟨d, -, -, htake⟩ |
        ⟨d, c, -, hfree, hclean, -, -, -, htake⟩
      · exact absurd rfl hkey
      · refine absurd ?_ hkey
        by_cases hbd : b = d
        · rw [hbd, htake.self]
        · rw [htake.other b hbd]
      · have hbd : b = d := by
          by_contra hbd
          exact hkey (by rw [htake.other b hbd])
        rw [hbd]
        exact ⟨hfree, hclean⟩
    · cases hstep
  | bread p k =>
    simp only [BufStep, Bcache.exec] at hstep
    split at hstep
    · cases hstep
      exact absurd rfl hkey
    · cases hstep
  | ideread p =>
    simp only [BufStep, Bcache.exec] at hstep
    split at hstep
    · cases hstep
      exact (hset _ _ rfl rfl).elim
    · cases hstep
  | idewrite p =>
    simp only [BufStep, Bcache.exec] at hstep
    split at hstep
    · cases hstep
      exact (hset _ _ rfl rfl).elim
    · cases hstep
  | modify p d data =>
    simp only [BufStep, Bcache.exec] at hstep
    split at hstep
    · cases hstep
      exact (hset _ _ rfl rfl).elim
    · cases hstep
  | bwrite p d =>
    simp only [BufStep, Bcache.exec] at hstep
    split at hstep
    · cases hstep
      exact (hset _ _ rfl rfl).elim
    · cases hstep
  | logWrite p d =>
    simp only [BufStep, Bcache.exec] at hstep
    split at hstep
    · cases hstep
      exact (hset _ _ rfl rfl).elim
    · cases hstep
  | brelse p d =>
    simp only [BufStep, Bcache.exec] at hstep
    split at hstep
    · cases hstep
      exact (hset _ _ rfl rfl).elim
    · cases hstep

theorem result_fresh {e : BufEvent n ι B} (h : BcacheInv s) (hstep : BufStep s e s')
    (hres : s.result e = some (k, b)) :
    (s'.buf b).key = k ∧ (s'.buf b).data = s.left k := by
  cases e with
  | bget p =>
    simp only [BufStep, Bcache.exec] at hstep
    simp only [Bcache.result] at hres
    split at hres
    · rename_i k' hpc
      rw [hpc] at hstep
      split at hres
      · rename_i d hlook
        split at hres
        · rename_i hfree
          cases hres
          rw [Bool.and_eq_true, Bool.not_eq_true'] at hfree
          have hmod : s.modified b = false := by
            by_contra hmod
            rw [h.content.modifiedBusy b (by simpa using hmod)] at hfree
            cases hfree.1
          have hfresh := h.content.fresh b hfree.2 hmod
          rcases bget_cases h hstep with ⟨d, rfl⟩ | ⟨d, hlook', -, htake⟩ | ⟨d, c, hnone, -⟩
          · rw [lookup_some hlook] at hfresh
            exact ⟨lookup_some hlook, hfresh⟩
          · rw [hlook] at hlook'
            cases hlook'
            rw [htake.self]
            rw [lookup_some hlook] at hfresh
            exact ⟨lookup_some hlook, hfresh⟩
          · rw [hlook] at hnone
            cases hnone
        · cases hres
      · cases hres
    · cases hres
  | ideread p =>
    simp only [BufStep, Bcache.exec] at hstep
    simp only [Bcache.result] at hres
    split at hres
    · rename_i d k' hpc
      rw [hpc] at hstep
      cases hres
      cases hstep
      obtain ⟨hmem, hkey, hvalid, hdirty⟩ := h.content.reading p b k hpc
      have hself : (s.ideread p b).buf b = { s.buf b with
          data := s.disk (s.buf b).key, valid := true, dirty := false } := Function.update_self ..
      have hreal : (s.buf b).key.Real := by
        by_contra hnot
        have hbusy := h.holders.heldBusy p b hmem
        rw [(h.content.empty b hnot).1] at hbusy
        cases hbusy
      rw [hself, ← hkey]
      refine ⟨rfl, h.content.onDisk _ hreal fun c hc => ?_⟩
      rwa [← h.content.unique b c hc.symm hreal]
    · cases hres
  | _ => cases hres

structure BcacheMap (s : Bcache n ι B) : Prop where
  ring : ∃ l, IsRing s.links l ∧ l.Perm (List.finRange n)
  unique : ∀ b c, (s.buf b).key = (s.buf c).key → (s.buf b).key.1 ≠ noDevice → b = c
  holder : ∀ b, (s.buf b).busy = true ↔ ∃! p, b ∈ s.held p
  recycled : ∀ e s', BufStep s e s' → ∀ b, (s'.buf b).key ≠ (s.buf b).key →
    (s.buf b).busy = false ∧ (s.buf b).dirty = false
  bound : ∀ e s', BufStep s e s' → s'.left = s.bind s.left e
  returned : ∀ e s' k b, BufStep s e s' → s.result e = some (k, b) →
    (s'.buf b).key = k ∧ (s'.buf b).data = s.left k

theorem left_step {e : BufEvent n ι B} (h : BcacheInv s) (hstep : BufStep s e s') :
    s'.left = s.bind s.left e := by
  cases e with
  | bget p =>
    simp only [BufStep, Bcache.exec] at hstep
    split at hstep
    · rcases bget_cases h hstep with ⟨d, rfl⟩ | ⟨d, -, -, htake⟩ | ⟨d, c, -, -, -, -, -, -, htake⟩
      · rfl
      · exact funext htake.left
      · exact funext htake.left
    · cases hstep
  | ideread p =>
    simp only [BufStep, Bcache.exec] at hstep
    split at hstep
    · cases hstep
      rfl
    · cases hstep
  | idewrite p =>
    simp only [BufStep, Bcache.exec] at hstep
    split at hstep
    · cases hstep
      rfl
    · cases hstep
  | _ =>
    simp only [BufStep, Bcache.exec] at hstep
    split at hstep
    · cases hstep
      rfl
    · cases hstep

/-- In every interleaving the cache refines the map from sectors to the contents last left. -/
theorem bcache_refines_map (n : Nat) {ι B : Type} [DecidableEq ι] (data : Fin n → B)
    (disk : Sector → B) (events : List (BufEvent n ι B)) (s : Bcache n ι B)
    (hrun : Run BufStep (Bcache.init data disk) events s) : BcacheMap s := by
  have h := Run.invariant BcacheInv (fun _ _ _ h hstep => bcacheInv_step h hstep)
    (bcacheInv_init data disk) hrun
  refine ⟨h.ring, h.content.unique, fun b => ⟨fun hb => ?_, ?_⟩,
    fun e s' hstep b => key_changed h hstep, fun e s' => left_step h,
    fun e s' k b => result_fresh h⟩
  · obtain ⟨p, hp⟩ := h.holders.busyHeld b hb
    exact ⟨p, hp, fun q hq => h.holders.heldOnce q p b hq hp⟩
  · rintro ⟨p, hp, -⟩
    exact h.holders.heldBusy p b hp

/-- Sector 5 is changed, sector 6 gives its buffer to sector 7, and sector 5 is looked for again. -/
def twoBuffers : List (BufEvent 2 (Fin 2) Nat) :=
  [.bread 0 (1, 5), .bget 0, .bread 1 (1, 6), .ideread 0, .bget 1, .ideread 1, .modify 0 0 77,
    .logWrite 0 0, .brelse 1 1, .brelse 0 0, .bread 1 (1, 7), .bget 1, .ideread 1, .bread 0 (1, 5)]

theorem bcache_refines_map_twoBuffers : ∃ s : Bcache 2 (Fin 2) Nat,
    Run BufStep (Bcache.init (fun _ => 0) fun _ => 3) twoBuffers s ∧
      s.result (.bget 0) = some ((1, 5), 0) ∧ s.left (1, 5) = 77 ∧ BcacheMap s := by
  have hexec : (execAll Bcache.exec (Bcache.init (fun _ => 0) fun _ => 3) twoBuffers).map
      (fun s : Bcache 2 (Fin 2) Nat => (s.result (.bget 0), s.left (1, 5))) =
        some (some ((1, 5), 0), 77) := by
    decide
  have hstep : ∀ (s : Bcache 2 (Fin 2) Nat) e s', s.exec e = some s' → BufStep s e s' :=
    fun _ _ _ h => h
  obtain ⟨s, hrun, hs⟩ := exists_run_of_execAll hstep _ hexec
  obtain ⟨hres, hleft⟩ := Prod.mk.inj hs
  exact ⟨s, hrun, hres, hleft, bcache_refines_map 2 _ _ _ s hrun⟩

end Xv6
