import Xv6.Proof.FaultContents

/-!
# Adding and removing user pages

`allocuvm` and `deallocuvm` go through the pages of a range one by one. What is said about a page
that is added or removed says which entries change and which pages of memory are written, so that
the two loops are compositions of such steps. `deallocuvm` skips 1024 pages from where it finds no
table; it is at the start of a table then, which is the invariant of its loop.
-/

namespace Xv6

open Machine

structure Walked (s : Machine) (cur : Fin nproc) : Prop where
  kend : 0 < s.kend
  table : ∀ i < 512, (s.pde cur i).present = true → s.tab cur i ≠ (s.proc cur).pgdir
  apart : ∀ i j, i < 512 → j < 512 → (s.pde cur i).present = true →
    (s.pde cur j).present = true → s.tab cur i = s.tab cur j → i = j
  page : ∀ a < 2 ^ 19, s.mapped cur a → s.frame cur a ≠ (s.proc cur).pgdir ∧
    (∀ i < 512, (s.pde cur i).present = true → s.frame cur a ≠ s.tab cur i) ∧
    s.kend ≤ s.frame cur a ∧ s.frame cur a * pgSize < physTop

structure Removed (s t : Machine) (cur : Fin nproc) (first last : Nat) : Prop where
  proc : t.proc = s.proc
  kend : t.kend = s.kend
  kdata : t.kdata = s.kdata
  pde : ∀ i < 512, t.pde cur i = s.pde cur i
  keep : ∀ b < 2 ^ 19, (b < first ∨ last ≤ b) → (s.pde cur (b / 1024)).present = true →
    t.pte cur b = s.pte cur b
  gone : ∀ b, first ≤ b → b < last → ¬t.mapped cur b
  word : ∀ g, (∀ b, first ≤ b → b < last → s.mapped cur b →
    g ≠ s.frame cur b ∧ g ≠ s.tab cur (b / 1024)) → t.word g = s.word g
  free : ∀ g ∈ t.free, g ∈ s.free ∨ ∃ b, first ≤ b ∧ b < last ∧ s.mapped cur b ∧ g = s.frame cur b
  stays : ∀ g ∈ s.free, g ∈ t.free
  freed : ∀ b, first ≤ b → b < last → s.mapped cur b → s.frame cur b ∈ t.free

section Remove

variable {s t : Machine} {cur : Fin nproc}

theorem Removed.mapped {first last : Nat} (h : Removed s t cur first last) {b : Nat}
    (hb : b < 2 ^ 19) (hout : b < first ∨ last ≤ b) : t.mapped cur b ↔ s.mapped cur b := by
  have hpde := h.pde (b / 1024) (by omega)
  constructor
  · rintro ⟨h1, h2⟩
    rw [hpde] at h1
    rw [h.keep b hb hout h1] at h2
    exact ⟨h1, h2⟩
  · rintro ⟨h1, h2⟩
    refine ⟨by rw [hpde]; exact h1, ?_⟩
    rw [h.keep b hb hout h1]
    exact h2

theorem Removed.refl (s : Machine) (cur : Fin nproc) {first last : Nat} (h : last ≤ first) :
    Removed s s cur first last :=
  ⟨rfl, rfl, rfl, fun _ _ => rfl, fun _ _ _ _ => rfl, fun b h1 h2 => absurd h2 (by omega),
    fun _ _ => rfl, fun _ hg => Or.inl hg, fun _ hg => hg, fun b h1 h2 => absurd h2 (by omega)⟩

theorem Removed.extend {first first' last : Nat} (h : Removed s t cur first last)
    (hlast : last ≤ 2 ^ 19) (hle : first' ≤ first)
    (hno : ∀ b, first' ≤ b → b < first → b < last → ¬s.mapped cur b) :
    Removed s t cur first' last where
  proc := h.proc
  kend := h.kend
  kdata := h.kdata
  pde := h.pde
  keep b hb hout := h.keep b hb (by omega)
  gone b h1 h2 := by
    by_cases hb : b < first
    · rw [h.mapped (by omega) (Or.inl hb)]
      exact hno b h1 hb h2
    · exact h.gone b (by omega) h2
  word g hg := h.word g fun b h1 h2 => hg b (by omega) h2
  free g hg := (h.free g hg).imp_right fun ⟨b, h1, h2, hb⟩ => ⟨b, by omega, h2, hb⟩
  stays := h.stays
  freed b h1 h2 hmap := by
    by_cases hb : b < first
    · exact absurd hmap (hno b h1 hb h2)
    · exact h.freed b (by omega) h2 hmap

def Machine.withoutPage (s : Machine) (cur : Fin nproc) (a : Nat) : Machine :=
  { s.setPage (s.frame cur a) (freedPage s.free) with free := s.frame cur a :: s.free }.setWord
    (s.tab cur (a / 1024)) (a % 1024) 0

theorem Walked.withoutPage_pde (hW : Walked s cur) {a : Nat} (ha : a < 2 ^ 19)
    (hmap : s.mapped cur a) (i : Nat) : (s.withoutPage cur a).pde cur i = s.pde cur i := by
  change ((setWord _ _ _ _).word (s.proc cur).pgdir) i = _
  rw [setWord_word_of_ne _ _ _ (hW.table _ (by omega) hmap.1).symm]
  exact congrFun (setPage_word_of_ne s _ (hW.page a ha hmap).1.symm) i

theorem Walked.withoutPage_pte (hW : Walked s cur) {a b : Nat} (ha : a < 2 ^ 19)
    (hb : b < 2 ^ 19) (hmap : s.mapped cur a) (hne : b ≠ a)
    (hpres : (s.pde cur (b / 1024)).present = true) :
    (s.withoutPage cur a).pte cur b = s.pte cur b := by
  have htab : (s.withoutPage cur a).tab cur (b / 1024) = s.tab cur (b / 1024) := by
    rw [tab, hW.withoutPage_pde ha hmap]
    rfl
  have hword : (s.setPage (s.frame cur a) (freedPage s.free)).word (s.tab cur (b / 1024)) =
      s.word (s.tab cur (b / 1024)) :=
    setPage_word_of_ne s _ ((hW.page a ha hmap).2.1 _ (by omega) hpres).symm
  rw [pte, htab]
  change (setWord _ _ _ _).word _ _ = _
  by_cases hidx : s.tab cur (b / 1024) = s.tab cur (a / 1024)
  · have := hW.apart _ _ (by omega) (by omega) hpres hmap.1 hidx
    rw [setWord_word_index _ _ _ _ (by omega)]
    exact congrFun hword _
  · rw [setWord_word_of_ne _ _ _ hidx]
    exact congrFun hword _

theorem Walked.withoutPage_gone (hW : Walked s cur) {a : Nat} (ha : a < 2 ^ 19)
    (hmap : s.mapped cur a) : ¬(s.withoutPage cur a).mapped cur a := by
  rintro ⟨-, hpres⟩
  have htab : (s.withoutPage cur a).tab cur (a / 1024) = s.tab cur (a / 1024) := by
    rw [tab, hW.withoutPage_pde ha hmap]
    rfl
  rw [pte, htab] at hpres
  change (Word.present ((setWord _ _ _ _).word _ _)) = true at hpres
  rw [setWord_word_self] at hpres
  exact absurd hpres (by decide)

theorem Walked.removed (hW : Walked s cur) {a : Nat} (ha : a < 2 ^ 19) (hmap : s.mapped cur a) :
    Removed s (s.withoutPage cur a) cur a (a + 1) where
  proc := rfl
  kend := rfl
  kdata := rfl
  pde i _ := hW.withoutPage_pde ha hmap i
  keep b hb hout hpres := hW.withoutPage_pte ha hb hmap (by omega) hpres
  gone b h1 h2 := by
    obtain rfl : b = a := by omega
    exact hW.withoutPage_gone ha hmap
  word g hg := by
    obtain ⟨hf, ht⟩ := hg a (Nat.le_refl a) (Nat.lt_succ_self a) hmap
    change (setWord _ _ _ _).word g = _
    rw [setWord_word_of_ne _ _ _ ht]
    exact setPage_word_of_ne s _ hf
  free g hg := by
    rcases List.mem_cons.mp (show g ∈ s.frame cur a :: s.free from hg) with rfl | hg
    · exact Or.inr ⟨a, Nat.le_refl a, Nat.lt_succ_self a, hmap, rfl⟩
    · exact Or.inl hg
  stays g hg := List.mem_cons_of_mem _ hg
  freed b h1 h2 _ := by
    obtain rfl : b = a := by omega
    exact List.mem_cons_self

theorem Removed.walked {first last : Nat} (h : Removed s t cur first last) (hW : Walked s cur) :
    Walked t cur := by
  have htab : ∀ i < 512, t.tab cur i = s.tab cur i := fun i hi => by
    rw [tab, h.pde i hi]
    rfl
  refine ⟨?_, fun i hi => ?_, fun i j hi hj => ?_, fun a ha hmap => ?_⟩
  · rw [h.kend]
    exact hW.kend
  · rw [h.pde i hi, htab i hi, h.proc]
    exact hW.table i hi
  · rw [h.pde i hi, h.pde j hj, htab i hi, htab j hj]
    exact hW.apart i j hi hj
  · have hout : a < first ∨ last ≤ a := by
      by_contra hin
      exact h.gone a (by omega) (by omega) hmap
    have hmaps := (h.mapped ha hout).mp hmap
    obtain ⟨h1, h2, h3, h4⟩ := hW.page a ha hmaps
    rw [frame, h.keep a ha hout hmaps.1, h.proc, h.kend]
    exact ⟨h1, fun i hi hpres => by
      rw [h.pde i hi] at hpres
      rw [htab i hi]
      exact h2 i hi hpres, h3, h4⟩

theorem Removed.trans {s1 : Machine} {a last : Nat} (hlast : last ≤ 2 ^ 19)
    (h : Removed s s1 cur a (a + 1)) (h' : Removed s1 t cur (a + 1) last) (ha : a < last) :
    Removed s t cur a last := by
  have hpde1 := h.pde
  have hback : ∀ b, a + 1 ≤ b → b < last → s1.mapped cur b →
      s.mapped cur b ∧ s1.frame cur b = s.frame cur b ∧
        s1.tab cur (b / 1024) = s.tab cur (b / 1024) := by
    intro b h1 h2 hmap
    have hmaps := (h.mapped (b := b) (by omega) (Or.inr h1)).mp hmap
    refine ⟨hmaps, ?_, ?_⟩
    · rw [frame, h.keep b (by omega) (Or.inr h1) hmaps.1]
      rfl
    · rw [tab, hpde1 _ (by omega)]
      rfl
  refine ⟨h'.proc.trans h.proc, h'.kend.trans h.kend, h'.kdata.trans h.kdata,
    fun i hi => (h'.pde i hi).trans (hpde1 i hi), fun b hb hout hpres => ?_, fun b h1 h2 => ?_,
    fun g hg => ?_, fun g hg => ?_, fun g hg => h'.stays g (h.stays g hg), fun b h1 h2 hmap => ?_⟩
  · rw [h'.keep b hb (by omega) (by rw [hpde1 _ (by omega)]; exact hpres),
      h.keep b hb (by omega) hpres]
  · by_cases hb : b = a
    · rw [hb, h'.mapped (by omega) (Or.inl (by omega))]
      exact h.gone a (Nat.le_refl a) (Nat.lt_succ_self a)
    · exact h'.gone b (by omega) h2
  · rw [h'.word g fun b h1 h2 hmap => ?_, h.word g fun b h1 h2 => hg b (by omega) (by omega)]
    obtain ⟨hmaps, hframe, htab⟩ := hback b h1 h2 hmap
    rw [hframe, htab]
    exact hg b (by omega) h2 hmaps
  · rcases h'.free g hg with hg | ⟨b, h1, h2, hmap, rfl⟩
    · rcases h.free g hg with hg | ⟨b, h1, h2, hmap, rfl⟩
      · exact Or.inl hg
      · exact Or.inr ⟨b, h1, by omega, hmap, rfl⟩
    · obtain ⟨hmaps, hframe, -⟩ := hback b h1 h2 hmap
      exact Or.inr ⟨b, by omega, h2, hmaps, hframe⟩
  · by_cases hb : b = a
    · rw [hb] at hmap ⊢
      exact h'.stays _ (h.freed a (Nat.le_refl a) (Nat.lt_succ_self a) hmap)
    · have hmap1 := (h.mapped (b := b) (by omega) (by omega)).mpr hmap
      obtain ⟨-, hframe, -⟩ := hback b (by omega) h2 hmap1
      rw [← hframe]
      exact h'.freed b (by omega) h2 hmap1

theorem run_deallocPages {last : Nat} (hlast : last ≤ 2 ^ 19) :
    ∀ {fuel a : Nat} {s : Machine}, Walked s cur → last ≤ a + fuel →
      (a < last → a % 1024 ≠ 0 → (s.pde cur (a / 1024)).present = true) →
      ∃ t, (deallocPages (s.proc cur).pgdir last fuel a).run s = .ok ((), t) ∧
        Removed s t cur a last := by
  intro fuel
  induction fuel with
  | zero => exact fun {a s} _ hfuel _ => ⟨s, rfl, .refl s cur (by omega)⟩
  | succ fuel ih =>
    intro a s hW hfuel halign
    by_cases ha : a < last
    · have hva : a * pgSize < 2 ^ 32 := by
        simp only [pgSize]
        omega
      have hdiv : a * pgSize / pgSize = a := Nat.mul_div_cancel _ (by decide)
      rw [deallocPages, if_pos ha, Kernel.run_bind_of_ok (run_walkpgdir s _ _),
        walkPtr_eq s cur hva, hdiv]
      by_cases hpres : (s.pde cur (a / 1024)).present = true
      · rw [if_pos hpres]
        have hnext : a + 1 < last → (a + 1) % 1024 ≠ 0 →
            (s.pde cur ((a + 1) / 1024)).present = true := by
          intro _ hne
          rwa [show (a + 1) / 1024 = a / 1024 by omega]
        simp only [Kernel.run_get_bind]
        by_cases hpte : (s.word (s.tab cur (a / 1024)) (a % 1024)).present = true
        · have hmap : s.mapped cur a := ⟨hpres, hpte⟩
          obtain ⟨-, -, hlow, hhigh⟩ := hW.page a (by omega) hmap
          have hpos := hW.kend
          have hrem := hW.removed (by omega) hmap
          obtain ⟨t, hrun, hR⟩ := ih (a := a + 1) (s := s.withoutPage cur a)
            (hrem.walked hW) (by omega) (fun h1 h2 => by
              rw [hrem.pde _ (by omega)]
              exact hnext h1 h2)
          refine ⟨t, ?_, hrem.trans hlast hR ha⟩
          have hzero : ¬pteAddr (s.word (s.tab cur (a / 1024)) (a % 1024)) = 0 := by
            change ¬s.frame cur a = 0
            omega
          rw [if_pos hpte, if_neg hzero]
          exact (Kernel.run_bind_of_ok (run_kfree hlow hhigh)).trans hrun
        · rw [if_neg hpte]
          obtain ⟨t, hrun, hR⟩ := ih (a := a + 1) hW (by omega) hnext
          refine ⟨t, hrun, hR.extend hlast (Nat.le_succ a) fun b h1 h2 _ hmap => ?_⟩
          obtain rfl : b = a := by omega
          exact hpte hmap.2
      · rw [if_neg hpres]
        have hzero : a % 1024 = 0 := by
          by_contra hne
          exact hpres (halign ha hne)
        obtain ⟨t, hrun, hR⟩ := ih (a := a + nptEntries) hW
          (by simp only [nptEntries]; omega) (fun _ hne => absurd (by
            simp only [nptEntries]
            omega) hne)
        refine ⟨t, hrun, hR.extend hlast (Nat.le_add_right _ _) fun b h1 h2 _ hmap => ?_⟩
        have hidx : b / 1024 = a / 1024 := by
          simp only [nptEntries] at h2
          omega
        exact hpres (hidx ▸ hmap.1)
    · rw [deallocPages, if_neg ha]
      exact ⟨s, rfl, .refl s cur (by omega)⟩

end Remove

structure Growable (s : Machine) (cur : Fin nproc) : Prop extends Walked s cur where
  nodup : s.free.Nodup
  range : ∀ f ∈ s.free, s.kend ≤ f ∧ f * pgSize < physTop
  dir : (s.proc cur).pgdir ∉ s.free
  used : ∀ i < 512, (s.pde cur i).present = true → s.tab cur i ∉ s.free
  backed : ∀ a < 2 ^ 19, s.mapped cur a → s.frame cur a ∉ s.free

structure Added (s t : Machine) (cur : Fin nproc) (first last : Nat) : Prop where
  proc : t.proc = s.proc
  kend : t.kend = s.kend
  kdata : t.kdata = s.kdata
  taken : ∃ used, s.free = used ++ t.free
  table : ∀ i < 512, (s.pde cur i).present = true → t.pde cur i = s.pde cur i
  newTable : ∀ i < 512, (s.pde cur i).present = false → (t.pde cur i).present = true →
    (∃ b, first ≤ b ∧ b < last ∧ b / 1024 = i) ∧ (t.pde cur i).writable = true ∧
      (t.pde cur i).user = true ∧ t.tab cur i ∈ s.free
  keep : ∀ b < 2 ^ 19, (b < first ∨ last ≤ b) → (t.mapped cur b ↔ s.mapped cur b)
  same : ∀ b < 2 ^ 19, s.mapped cur b → t.pte cur b = s.pte cur b
  new : ∀ b, first ≤ b → b < last → t.mapped cur b ∧ (t.pte cur b).writable = true ∧
    (t.pte cur b).user = true ∧ t.word (t.frame cur b) = fun _ => 0
  fresh : ∀ b, first ≤ b → b < last → t.frame cur b ∈ s.free
  word : ∀ g, g ∉ s.free → g ≠ (s.proc cur).pgdir →
    (∀ b, first ≤ b → b < last → (s.pde cur (b / 1024)).present = true →
      g ≠ s.tab cur (b / 1024)) → t.word g = s.word g

section Add

variable {s t : Machine} {cur : Fin nproc}

theorem Growable.lt (hG : Growable s cur) {f : Nat} (hf : f ∈ s.free) : f < 2 ^ 20 := by
  have hrange := (hG.range f hf).2
  simp only [pgSize, physTop] at hrange
  omega

theorem Added.refl (s : Machine) (cur : Fin nproc) (a : Nat) : Added s s cur a a :=
  ⟨rfl, rfl, rfl, ⟨[], rfl⟩, fun _ _ _ => rfl,
    fun _ _ h1 h2 => absurd (h1.symm.trans h2) Bool.false_ne_true, fun _ _ _ => Iff.rfl,
    fun _ _ _ => rfl, fun _ h1 h2 => absurd h2 (Nat.not_lt.mpr h1),
    fun _ h1 h2 => absurd h2 (Nat.not_lt.mpr h1), fun _ _ _ _ => rfl⟩

theorem Added.mem_free {first last : Nat} (h : Added s t cur first last) {g : Nat}
    (hg : g ∈ t.free) : g ∈ s.free := by
  obtain ⟨used, hfree⟩ := h.taken
  rw [hfree]
  exact List.mem_append_right _ hg

theorem Added.trans {s1 : Machine} {a last : Nat} (hlast : last ≤ 2 ^ 19)
    (hG1 : Growable s1 cur) (h : Added s s1 cur a (a + 1)) (h' : Added s1 t cur (a + 1) last)
    (ha : a + 1 ≤ last) : Added s t cur a last := by
  have hpres : ∀ i < 512, (s.pde cur i).present = true →
      (s1.pde cur i).present = true ∧ s1.tab cur i = s.tab cur i := by
    intro i hi hp
    have heq := h.table i hi hp
    exact ⟨by rw [heq]; exact hp, by rw [tab, heq]; rfl⟩
  refine ⟨h'.proc.trans h.proc, h'.kend.trans h.kend, h'.kdata.trans h.kdata, ?_, ?_, ?_, ?_, ?_,
    ?_, ?_, ?_⟩
  · obtain ⟨used, hfree⟩ := h.taken
    obtain ⟨used', hfree'⟩ := h'.taken
    exact ⟨used ++ used', by rw [hfree, hfree', List.append_assoc]⟩
  · intro i hi hp
    rw [h'.table i hi (hpres i hi hp).1, h.table i hi hp]
  · intro i hi habsent hp
    cases hp1 : (s1.pde cur i).present with
    | true =>
      obtain ⟨⟨b, h1, h2, hb⟩, hw, hu, htab⟩ := h.newTable i hi habsent hp1
      rw [tab, h'.table i hi hp1]
      exact ⟨⟨b, h1, by omega, hb⟩, hw, hu, htab⟩
    | false =>
      obtain ⟨⟨b, h1, h2, hb⟩, hw, hu, htab⟩ := h'.newTable i hi hp1 hp
      exact ⟨⟨b, by omega, h2, hb⟩, hw, hu, h.mem_free htab⟩
  · intro b hb hout
    rw [h'.keep b hb (by omega), h.keep b hb (by omega)]
  · intro b hb hmap
    by_cases hba : b = a
    · subst hba
      rw [h'.same b hb (h.new b (Nat.le_refl b) (Nat.lt_succ_self b)).1, h.same b hb hmap]
    · rw [h'.same b hb ((h.keep b hb (by omega)).mpr hmap), h.same b hb hmap]
  · intro b h1 h2
    by_cases hba : b = a
    · subst hba
      obtain ⟨hmap, hw, hu, hzero⟩ := h.new b (Nat.le_refl b) (Nat.lt_succ_self b)
      have hb : b < 2 ^ 19 := by omega
      have hpte := h'.same b hb hmap
      have hframe : t.frame cur b = s1.frame cur b := by
        rw [frame, hpte]
        rfl
      obtain ⟨hdir, htab, -, -⟩ := hG1.page b hb hmap
      refine ⟨⟨?_, by rw [hpte]; exact hmap.2⟩, by rw [hpte]; exact hw, by rw [hpte]; exact hu, ?_⟩
      · rw [h'.table _ (by omega) hmap.1]
        exact hmap.1
      · -- the later pages do not touch the page that backs `b`
        rw [hframe, h'.word _ (hG1.backed b hb hmap) hdir fun c hc1 hc2 hp =>
          htab _ (by omega) hp]
        exact hzero
    · exact h'.new b (by omega) h2
  · intro b h1 h2
    by_cases hba : b = a
    · subst hba
      rw [frame, h'.same b (by omega) (h.new b (Nat.le_refl b) (Nat.lt_succ_self b)).1]
      exact h.fresh b (Nat.le_refl b) (Nat.lt_succ_self b)
    · exact h.mem_free (h'.fresh b (by omega) h2)
  · intro g hg hdir htab
    rw [h'.word g (fun hmem => hg (h.mem_free hmem)) (by rw [h.proc]; exact hdir) ?_,
      h.word g hg hdir fun b h1 h2 => htab b h1 (by omega)]
    intro b h1 h2 hp
    cases hps : (s.pde cur (b / 1024)).present with
    | true =>
      rw [(hpres _ (by omega) hps).2]
      exact htab b (by omega) h2 hps
    | false =>
      rintro rfl
      exact hg (h.newTable _ (by omega) hps hp).2.2.2

/-- The machine when the entry of page `a` is about to be stored: `mem` is taken and cleared, and
the table is there. -/
structure Prepared (s t : Machine) (cur : Fin nproc) (a mem : Nat) : Prop where
  proc : t.proc = s.proc
  kend : t.kend = s.kend
  kdata : t.kdata = s.kdata
  taken : ∃ used, s.free = used ++ t.free ∧ mem ∈ used
  table : ∀ i < 512, (s.pde cur i).present = true → t.pde cur i = s.pde cur i
  present : (t.pde cur (a / 1024)).present = true
  newTable : ∀ i < 512, (s.pde cur i).present = false → (t.pde cur i).present = true →
    i = a / 1024 ∧ (t.pde cur i).writable = true ∧ (t.pde cur i).user = true ∧
      t.tab cur i ∈ s.free ∧ t.tab cur i ∉ t.free ∧ t.tab cur i ≠ mem ∧
      t.word (t.tab cur i) = fun _ => 0
  word : ∀ g, g ∉ s.free → g ≠ (s.proc cur).pgdir → t.word g = s.word g
  zero : t.word mem = fun _ => 0

def Machine.withPage (t : Machine) (cur : Fin nproc) (a mem : Nat) : Machine :=
  t.setWord (t.tab cur (a / 1024)) (a % 1024) (mkEntry mem (pteW ||| pteU ||| pteP))

section Prepared

variable {a mem : Nat}

theorem Prepared.mem_free (h : Prepared s t cur a mem) {g : Nat} (hg : g ∈ t.free) :
    g ∈ s.free := by
  obtain ⟨used, hfree, -⟩ := h.taken
  rw [hfree]
  exact List.mem_append_right _ hg

theorem Prepared.page_free (hG : Growable s cur) (h : Prepared s t cur a mem) :
    mem ∈ s.free ∧ mem ∉ t.free := by
  obtain ⟨used, hfree, hmem⟩ := h.taken
  have hnodup := hG.nodup
  rw [hfree] at hnodup
  rw [hfree]
  exact ⟨List.mem_append_left _ hmem, fun hin =>
    (List.nodup_append.mp hnodup).2.2 mem hmem mem hin rfl⟩

theorem Prepared.tab_cases (h : Prepared s t cur a mem) {i : Nat} (hi : i < 512)
    (hp : (t.pde cur i).present = true) :
    ((s.pde cur i).present = true ∧ t.pde cur i = s.pde cur i ∧ t.tab cur i = s.tab cur i) ∨
      ((s.pde cur i).present = false ∧ i = a / 1024 ∧ t.tab cur i ∈ s.free ∧
        t.tab cur i ∉ t.free ∧ t.tab cur i ≠ mem ∧ t.word (t.tab cur i) = fun _ => 0) := by
  cases hps : (s.pde cur i).present with
  | true =>
    have heq := h.table i hi hps
    exact Or.inl ⟨rfl, heq, by rw [tab, heq]; rfl⟩
  | false =>
    obtain ⟨hidx, -, -, h1, h2, h3, h4⟩ := h.newTable i hi hps hp
    exact Or.inr ⟨rfl, hidx, h1, h2, h3, h4⟩

theorem Prepared.tab_ne_dir (hG : Growable s cur) (h : Prepared s t cur a mem) {i : Nat}
    (hi : i < 512) (hp : (t.pde cur i).present = true) : t.tab cur i ≠ (s.proc cur).pgdir := by
  rcases h.tab_cases hi hp with ⟨hps, -, htab⟩ | ⟨-, -, hfree, -⟩
  · rw [htab]
    exact hG.table i hi hps
  · intro heq
    exact hG.dir (heq ▸ hfree)

theorem Prepared.tab_ne_mem (hG : Growable s cur) (h : Prepared s t cur a mem) {i : Nat}
    (hi : i < 512) (hp : (t.pde cur i).present = true) : t.tab cur i ≠ mem := by
  rcases h.tab_cases hi hp with ⟨hps, -, htab⟩ | ⟨-, -, -, -, hne, -⟩
  · rw [htab]
    intro heq
    exact hG.used i hi hps (heq ▸ (h.page_free hG).1)
  · exact hne

theorem Prepared.pde (hG : Growable s cur) (ha : a < 2 ^ 19) (h : Prepared s t cur a mem)
    (i : Nat) : (t.withPage cur a mem).pde cur i = t.pde cur i := by
  refine congrFun (setWord_word_of_ne t _ _ ?_) i
  change (t.proc cur).pgdir ≠ _
  rw [h.proc]
  exact (h.tab_ne_dir hG (by omega) h.present).symm

theorem Prepared.pte_self (hG : Growable s cur) (ha : a < 2 ^ 19) (h : Prepared s t cur a mem) :
    (t.withPage cur a mem).pte cur a = mkEntry mem (pteW ||| pteU ||| pteP) := by
  rw [pte, tab, h.pde hG ha]
  exact setWord_word_self _ _ _ _

theorem Prepared.pte_ne (hG : Growable s cur) (ha : a < 2 ^ 19) (h : Prepared s t cur a mem)
    {b : Nat} (hb : b < 2 ^ 19) (hne : b ≠ a) (hps : (s.pde cur (b / 1024)).present = true) :
    (t.withPage cur a mem).pte cur b = s.pte cur b := by
  have htab : t.tab cur (b / 1024) = s.tab cur (b / 1024) := by
    rw [tab, h.table _ (by omega) hps]
    rfl
  have hword : t.word (s.tab cur (b / 1024)) = s.word (s.tab cur (b / 1024)) :=
    h.word _ (hG.used _ (by omega) hps) (hG.table _ (by omega) hps)
  have hstore : (t.withPage cur a mem).word (s.tab cur (b / 1024)) (b % 1024) =
      t.word (s.tab cur (b / 1024)) (b % 1024) := by
    by_cases hidx : s.tab cur (b / 1024) = t.tab cur (a / 1024)
    · refine setWord_word_index _ _ _ _ ?_ _
      rcases h.tab_cases (by omega) h.present with ⟨hpa, -, htaba⟩ | ⟨-, -, hfree, -⟩
      · have := hG.apart _ _ (by omega) (by omega) hps hpa (hidx.trans htaba)
        omega
      · exact absurd (hidx ▸ hfree) (hG.used _ (by omega) hps)
    · exact congrFun (setWord_word_of_ne t _ _ hidx) _
  rw [Machine.pte, Machine.tab, h.pde hG ha, ← Machine.tab, htab, hstore, hword]
  rfl

theorem Prepared.mapped (hG : Growable s cur) (ha : a < 2 ^ 19) (h : Prepared s t cur a mem)
    {b : Nat} (hb : b < 2 ^ 19) (hne : b ≠ a) :
    (t.withPage cur a mem).mapped cur b ↔ s.mapped cur b := by
  rw [Machine.mapped, h.pde hG ha]
  cases hps : (s.pde cur (b / 1024)).present with
  | true =>
    rw [h.table _ (by omega) hps, h.pte_ne hG ha hb hne hps, Machine.mapped]
  | false =>
    constructor
    · rintro ⟨hp, hpte⟩
      obtain ⟨hidx, -, -, -, -, -, hzero⟩ := h.newTable _ (by omega) hps hp
      rw [pte, tab, h.pde hG ha, ← tab, hidx] at hpte
      change (Word.present ((setWord _ _ _ _).word _ _)) = true at hpte
      rw [setWord_word_index _ _ _ _ (by omega), ← hidx, hzero] at hpte
      exact absurd (show Word.present 0 = true from hpte) (by decide)
    · rintro ⟨hp, -⟩
      rw [hps] at hp
      cases hp

theorem Prepared.added (hG : Growable s cur) (ha : a < 2 ^ 19) (h : Prepared s t cur a mem)
    (hno : ¬s.mapped cur a) : Added s (t.withPage cur a mem) cur a (a + 1) := by
  have hlt := hG.lt (h.page_free hG).1
  have hself := h.pte_self hG ha
  obtain ⟨used, hfree, -⟩ := h.taken
  refine ⟨h.proc, h.kend, h.kdata, ⟨used, hfree⟩, ?_, ?_, ?_, ?_, ?_, ?_, ?_⟩
  · intro i hi hp
    rw [h.pde hG ha, h.table i hi hp]
  · intro i hi habsent hp
    rw [h.pde hG ha] at hp
    obtain ⟨hidx, hw, hu, htab, -⟩ := h.newTable i hi habsent hp
    rw [tab, h.pde hG ha]
    exact ⟨⟨a, Nat.le_refl a, Nat.lt_succ_self a, hidx.symm⟩, hw, hu, htab⟩
  · intro b hb hout
    exact h.mapped hG ha hb (by omega)
  · intro b hb hmap
    have hne : b ≠ a := by
      rintro rfl
      exact hno hmap
    exact h.pte_ne hG ha hb hne hmap.1
  · intro b h1 h2
    obtain rfl : b = a := by omega
    rw [Machine.mapped, h.pde hG ha, Machine.frame, hself, pteAddr_mkEntry_user hlt]
    refine ⟨⟨h.present, present_mkEntry⟩, writable_mkEntry, user_mkEntry, ?_⟩
    rw [← h.zero]
    exact setWord_word_of_ne t _ _ (h.tab_ne_mem hG (by omega) h.present).symm
  · intro b h1 h2
    obtain rfl : b = a := by omega
    rw [frame, hself, pteAddr_mkEntry_user hlt]
    exact (h.page_free hG).1
  · intro g hg hdir htab
    rw [← h.word g hg hdir]
    refine setWord_word_of_ne t _ _ ?_
    rcases h.tab_cases (by omega) h.present with ⟨hps, -, heq⟩ | ⟨-, -, hmem, -⟩
    · rw [heq]
      exact htab a (Nat.le_refl a) (Nat.lt_succ_self a) hps
    · rintro rfl
      exact hg hmem

theorem Prepared.growable (hG : Growable s cur) (ha : a < 2 ^ 19) (h : Prepared s t cur a mem) :
    Growable (t.withPage cur a mem) cur := by
  have hpde := h.pde hG ha
  have hself := h.pte_self hG ha
  obtain ⟨hmem, hmemt⟩ := h.page_free hG
  have hlt := hG.lt hmem
  have htab : ∀ i, (t.withPage cur a mem).tab cur i = t.tab cur i := fun i => by
    rw [tab, hpde]
    rfl
  have hproc : (t.withPage cur a mem).proc cur = s.proc cur := congrFun h.proc cur
  have hkend : (t.withPage cur a mem).kend = s.kend := h.kend
  -- a mapped page is the new one or one of before
  have hpage : ∀ b < 2 ^ 19, (t.withPage cur a mem).mapped cur b →
      (b = a ∧ (t.withPage cur a mem).frame cur b = mem) ∨
        (s.mapped cur b ∧ (t.withPage cur a mem).frame cur b = s.frame cur b) := by
    intro b hb hmap
    by_cases hba : b = a
    · left
      rw [hba, frame, hself, pteAddr_mkEntry_user hlt]
      exact ⟨rfl, rfl⟩
    · have hmaps := (h.mapped hG ha hb hba).mp hmap
      rw [frame, h.pte_ne hG ha hb hba hmaps.1]
      exact Or.inr ⟨hmaps, rfl⟩
  refine ⟨⟨?_, ?_, ?_, ?_⟩, ?_, ?_, ?_, ?_, ?_⟩
  · rw [hkend]
    exact hG.kend
  · intro i hi hp
    rw [hpde] at hp
    rw [htab, hproc]
    exact h.tab_ne_dir hG hi hp
  · intro i j hi hj hpi hpj heq
    rw [hpde] at hpi hpj
    rw [htab, htab] at heq
    rcases h.tab_cases hi hpi with ⟨hsi, -, hti⟩ | ⟨-, hii, hfi, -⟩
    · rcases h.tab_cases hj hpj with ⟨hsj, -, htj⟩ | ⟨-, -, hfj, -⟩
      · exact hG.apart i j hi hj hsi hsj (by rw [← hti, ← htj]; exact heq)
      · exact absurd (heq ▸ hfj) (by rw [hti]; exact hG.used i hi hsi)
    · rcases h.tab_cases hj hpj with ⟨hsj, -, htj⟩ | ⟨-, hjj, -⟩
      · exact absurd (heq ▸ hfi) (by rw [htj]; exact hG.used j hj hsj)
      · rw [hii, hjj]
  · intro b hb hmap
    rw [hproc, hkend]
    rcases hpage b hb hmap with ⟨-, hframe⟩ | ⟨hmaps, hframe⟩
    · rw [hframe]
      refine ⟨fun heq => hG.dir (heq ▸ hmem), fun i hi hp => ?_, (hG.range mem hmem).1,
        (hG.range mem hmem).2⟩
      rw [hpde] at hp
      rw [htab]
      exact (h.tab_ne_mem hG hi hp).symm
    · obtain ⟨h1, h2, h3, h4⟩ := hG.page b hb hmaps
      rw [hframe]
      refine ⟨h1, fun i hi hp => ?_, h3, h4⟩
      rw [hpde] at hp
      rw [htab]
      rcases h.tab_cases hi hp with ⟨hps, -, heq⟩ | ⟨-, -, hfree, -⟩
      · rw [heq]
        exact h2 i hi hps
      · intro heq
        exact hG.backed b hb hmaps (heq ▸ hfree)
  · obtain ⟨used, hfree, -⟩ := h.taken
    have hnodup := hG.nodup
    rw [hfree] at hnodup
    exact (List.nodup_append.mp hnodup).2.1
  · intro f hf
    rw [hkend]
    exact hG.range f (h.mem_free hf)
  · rw [hproc]
    exact fun hin => hG.dir (h.mem_free hin)
  · intro i hi hp hin
    rw [hpde] at hp
    rw [htab] at hin
    rcases h.tab_cases hi hp with ⟨hps, -, heq⟩ | ⟨-, -, -, hout, -⟩
    · exact hG.used i hi hps (heq ▸ h.mem_free hin)
    · exact hout hin
  · intro b hb hmap hin
    rcases hpage b hb hmap with ⟨-, hframe⟩ | ⟨hmaps, hframe⟩
    · rw [hframe] at hin
      exact hmemt hin
    · rw [hframe] at hin
      exact hG.backed b hb hmaps (h.mem_free hin)

end Prepared

def pageCost (s : Machine) (cur : Fin nproc) (a : Nat) : Nat :=
  if a % 1024 = 0 ∧ (s.pde cur (a / 1024)).present = false then 2 else 1

def Machine.withCleared (s : Machine) (mem : Nat) (rest : List Nat) : Machine :=
  { s with free := rest }.setPage mem fun _ => 0

def Machine.withNewTable (s : Machine) (cur : Fin nproc) (a tb : Nat) (rest : List Nat) : Machine :=
  ({ s with free := rest }.setPage tb fun _ => 0).setWord (s.proc cur).pgdir (a / 1024)
    (mkEntry tb (pteP ||| pteW ||| pteU))

section AllocPage

variable {a mem : Nat} {rest : List Nat}

theorem Growable.cleared_pde (hG : Growable s cur) (hfree : s.free = mem :: rest) (i : Nat) :
    (s.withCleared mem rest).pde cur i = s.pde cur i := by
  refine congrFun (setPage_word_of_ne _ _ fun heq => ?_) i
  have hdir : (s.proc cur).pgdir = mem := heq
  exact hG.dir (by rw [hdir, hfree]; exact List.mem_cons_self)

theorem Growable.cleared_word (hfree : s.free = mem :: rest) {g : Nat} (hg : g ∉ s.free) :
    (s.withCleared mem rest).word g = s.word g := by
  refine setPage_word_of_ne _ _ ?_
  rintro rfl
  exact hg (by rw [hfree]; exact List.mem_cons_self)

theorem Growable.prepared_present (hG : Growable s cur) (hfree : s.free = mem :: rest)
    (hpres : (s.pde cur (a / 1024)).present = true) :
    Prepared s (s.withCleared mem rest) cur a mem where
  proc := rfl
  kend := rfl
  kdata := rfl
  taken := ⟨[mem], hfree, List.mem_singleton_self mem⟩
  table i _ _ := hG.cleared_pde hfree i
  present := by
    rw [hG.cleared_pde hfree]
    exact hpres
  newTable i _ habsent hp := by
    rw [hG.cleared_pde hfree, habsent] at hp
    cases hp
  word g hg _ := Growable.cleared_word hfree hg
  zero := setPage_word_self _ _ _

theorem mkEntry_newTable (tb : Nat) :
    (mkEntry tb (pteP ||| pteW ||| pteU)).present = true ∧
      (mkEntry tb (pteP ||| pteW ||| pteU)).writable = true ∧
      (mkEntry tb (pteP ||| pteW ||| pteU)).user = true := by
  refine ⟨?_, ?_, ?_⟩
  · rw [Word.present, getLsbD_mkEntry (by decide)]
    decide
  · rw [Word.writable, getLsbD_mkEntry (by decide)]
    decide
  · rw [Word.user, getLsbD_mkEntry (by decide)]
    decide

theorem Growable.prepared_newTable (hG : Growable s cur) {tb : Nat}
    (hfree : s.free = mem :: tb :: rest)
    (habsent : (s.pde cur (a / 1024)).present = false) :
    Prepared s ((s.withCleared mem (tb :: rest)).withNewTable cur a tb rest) cur a mem := by
  set t := (s.withCleared mem (tb :: rest)).withNewTable cur a tb rest with ht
  have hnodup := hG.nodup
  rw [hfree] at hnodup
  simp only [List.nodup_cons, List.mem_cons, not_or] at hnodup
  obtain ⟨⟨hne, -⟩, htb, -⟩ := hnodup
  have htbfree : tb ∈ s.free := by
    rw [hfree]
    simp
  have hdir : (s.proc cur).pgdir ≠ tb := fun heq => hG.dir (heq ▸ htbfree)
  have hpde : ∀ i ≠ a / 1024, t.pde cur i = s.pde cur i := by
    intro i hi
    change ((setPage _ _ _).setWord _ _ _).word (s.proc cur).pgdir i = _
    rw [setWord_word_index _ _ _ _ hi, setPage_word_of_ne _ _ hdir]
    exact hG.cleared_pde hfree i
  have hnew : t.pde cur (a / 1024) = mkEntry tb (pteP ||| pteW ||| pteU) :=
    setWord_word_self _ _ _ _
  have htab : t.tab cur (a / 1024) = tb := by
    rw [tab, hnew, pteAddr_mkEntry (hG.lt htbfree) (by decide)]
  obtain ⟨hp, hw, hu⟩ := mkEntry_newTable tb
  have hword : ∀ g ≠ (s.proc cur).pgdir, g ≠ tb →
      t.word g = (s.withCleared mem (tb :: rest)).word g := by
    intro g h1 h2
    change ((setPage _ _ _).setWord (s.proc cur).pgdir _ _).word g = _
    rw [setWord_word_of_ne _ _ _ h1, setPage_word_of_ne _ _ h2]
  refine ⟨rfl, rfl, rfl, ⟨[mem, tb], hfree, by simp⟩, ?_, by rw [hnew]; exact hp, ?_, ?_, ?_⟩
  · intro i _ hpres
    refine hpde i ?_
    rintro rfl
    rw [habsent] at hpres
    cases hpres
  · intro i _ hnone hpres
    by_cases hi : i = a / 1024
    · subst hi
      rw [hnew, htab]
      refine ⟨rfl, hw, hu, htbfree, htb, Ne.symm hne, ?_⟩
      change ((setPage _ _ _).setWord (s.proc cur).pgdir _ _).word tb = _
      rw [setWord_word_of_ne _ _ _ hdir.symm, setPage_word_self]
    · rw [hpde i hi, hnone] at hpres
      cases hpres
  · intro g hg hgd
    rw [hword g hgd fun heq => hg (heq ▸ htbfree)]
    exact Growable.cleared_word hfree hg
  · rw [hword mem (fun heq => hG.dir (by rw [← heq, hfree]; exact List.mem_cons_self)) hne]
    exact setPage_word_self _ _ _

theorem run_mappages_one {pgdir pa : Nat} {perm : Word} (ha : a < 2 ^ 19) {ok : Bool}
    (h : (mapPage pgdir (a * pgSize) pa perm).run s = .ok (ok, t)) :
    (mappages pgdir (a * pgSize) pgSize pa perm).run s = .ok (ok, t) := by
  have hcount : ((a * pgSize + pgSize + 2 ^ 32 - 1) % 2 ^ 32 / pgSize + 2 ^ 20 - a) %
      2 ^ 20 + 1 = 1 := by
    simp only [pgSize]
    omega
  rw [mappages_eq_mapRun pgdir pa perm (by omega) hcount, mapRun, Kernel.run_bind_of_ok h]
  cases ok with
  | true => rfl
  | false => rfl

theorem mkEntry_or (page : Nat) : BitVec.ofNat 32 (page * pgSize) ||| (pteW ||| pteU) ||| pteP =
    mkEntry page (pteW ||| pteU ||| pteP) := by
  rw [mkEntry, BitVec.or_assoc]

theorem run_allocPage_start {pgdir : Nat} (hfree : s.free = mem :: rest) {ok : Bool}
    (h : (mappages pgdir (a * pgSize) pgSize (mem * pgSize) (pteW ||| pteU)).run
      (s.withCleared mem rest) = .ok (ok, t)) :
    (allocPage pgdir a).run s = .ok (true, t) := by
  rw [allocPage, Kernel.run_bind_of_ok (run_kalloc_cons hfree)]
  simp only [clearPage, Kernel.run_modify_bind]
  exact (Kernel.run_bind_of_ok h).trans rfl

theorem run_allocPage_nil {pgdir : Nat} (hfree : s.free = []) :
    (allocPage pgdir a).run s = .ok (false, s) := by
  rw [allocPage, Kernel.run_bind_of_ok (run_kalloc_nil hfree), Kernel.run_pure]

theorem run_allocPage_lost (hG : Growable s cur) (ha : a < 2 ^ 19) (hfree : s.free = [mem])
    (habsent : (s.pde cur (a / 1024)).present = false) :
    (allocPage (s.proc cur).pgdir a).run s = .ok (true, s.withCleared mem []) := by
  refine run_allocPage_start hfree (run_mappages_one ha (run_mapPage_noFree ?_ rfl))
  rw [pdx_page (by omega)]
  change ((s.withCleared mem []).pde cur (a / 1024)).present = false
  rw [hG.cleared_pde hfree]
  exact habsent

theorem run_allocPage (hG : Growable s cur) (ha : a < 2 ^ 19) (hno : ¬s.mapped cur a)
    (halign : a % 1024 ≠ 0 → (s.pde cur (a / 1024)).present = true)
    (hlen : pageCost s cur a ≤ s.free.length) :
    ∃ t, (allocPage (s.proc cur).pgdir a).run s = .ok (true, t) ∧ Added s t cur a (a + 1) ∧
      Growable t cur ∧ t.free.length + pageCost s cur a = s.free.length := by
  have hpdx : pdx (a * pgSize) = a / 1024 := pdx_page (by omega)
  have hptx : ptx (a * pgSize) = a % 1024 := ptx_page a
  cases hpres : (s.pde cur (a / 1024)).present with
  | true =>
    have hcost : pageCost s cur a = 1 := if_neg (by rw [hpres]; simp)
    rw [hcost] at hlen ⊢
    cases hfree : s.free with
    | nil =>
      rw [hfree] at hlen
      cases hlen
    | cons mem rest =>
      have hP := hG.prepared_present hfree hpres
      have hnone : (s.pte cur a).present = false := by
        cases hpte : (s.pte cur a).present with
        | false => rfl
        | true => exact absurd ⟨hpres, hpte⟩ hno
      have htab : (s.withCleared mem rest).tab cur (a / 1024) = s.tab cur (a / 1024) := by
        rw [tab, hG.cleared_pde hfree]
        rfl
      have hentry : ((s.withCleared mem rest).word ((s.withCleared mem rest).tab cur
          (a / 1024)) (ptx (a * pgSize))).present = false := by
        rw [hptx, htab, Growable.cleared_word hfree (hG.used _ (by omega) hpres)]
        exact hnone
      have hrun := run_allocPage_start hfree (run_mappages_one ha (run_mapPage_present
        (d := (s.proc cur).pgdir) (by rw [hpdx]; exact hP.present) (by rw [hpdx]; rfl) hentry))
      rw [hptx, mkEntry_or] at hrun
      exact ⟨_, hrun, hP.added hG ha hno, hP.growable hG ha, rfl⟩
  | false =>
    have hzero : a % 1024 = 0 := by
      by_contra hne
      rw [halign hne] at hpres
      cases hpres
    have hcost : pageCost s cur a = 2 := if_pos ⟨hzero, hpres⟩
    rw [hcost] at hlen ⊢
    obtain ⟨mem, tail, hfree⟩ := List.exists_cons_of_length_pos (by omega : 0 < s.free.length)
    rw [hfree, List.length_cons] at hlen
    obtain ⟨tb, rest, rfl⟩ := List.exists_cons_of_length_pos (by omega : 0 < tail.length)
    rw [hfree]
    have hP := hG.prepared_newTable hfree hpres
    have htbfree : tb ∈ s.free := by
      rw [hfree]
      simp
    have htab : ((s.withCleared mem (tb :: rest)).withNewTable cur a tb rest).tab cur
        (a / 1024) = tb := by
      have hnew : ((s.withCleared mem (tb :: rest)).withNewTable cur a tb rest).pde cur
          (a / 1024) = mkEntry tb (pteP ||| pteW ||| pteU) :=
        setWord_word_self _ _ _ _
      rw [tab, hnew, pteAddr_mkEntry (hG.lt htbfree) (by decide)]
    refine ⟨_, run_allocPage_start hfree (run_mappages_one ha
      (run_mapPage_newTable ?_ rfl fun heq => hG.dir (heq ▸ htbfree))), ?_⟩
    · rw [hpdx]
      change ((s.withCleared mem (tb :: rest)).pde cur (a / 1024)).present = false
      rw [hG.cleared_pde hfree]
      exact hpres
    · have hadded := hP.added hG ha hno
      have hgrow := hP.growable hG ha
      rw [withPage, htab] at hadded hgrow
      rw [hptx, hpdx, mkEntry_or]
      exact ⟨hadded, hgrow, rfl⟩

theorem Growable.lost (hG : Growable s cur) (hfree : s.free = [mem]) (a : Nat) :
    Added s (s.withCleared mem []) cur a a ∧ Growable (s.withCleared mem []) cur := by
  have hpde := hG.cleared_pde hfree
  have htab : ∀ i, (s.withCleared mem []).tab cur i = s.tab cur i := fun i => by
    rw [tab, hpde]
    rfl
  have hpte : ∀ b < 2 ^ 19, (s.pde cur (b / 1024)).present = true →
      (s.withCleared mem []).pte cur b = s.pte cur b := by
    intro b hb hp
    rw [pte, htab, Growable.cleared_word hfree (hG.used _ (by omega) hp)]
    rfl
  have hmapped : ∀ b < 2 ^ 19, ((s.withCleared mem []).mapped cur b ↔ s.mapped cur b) := by
    intro b hb
    rw [mapped, mapped, hpde]
    exact and_congr_right fun hp => by rw [hpte b hb hp]
  have hframe : ∀ b < 2 ^ 19, s.mapped cur b →
      (s.withCleared mem []).frame cur b = s.frame cur b := by
    intro b hb hmap
    rw [frame, hpte b hb hmap.1]
    rfl
  refine ⟨⟨rfl, rfl, rfl, ⟨[mem], hfree⟩, fun i _ _ => hpde i, fun i _ h1 h2 => ?_,
    fun b hb _ => hmapped b hb, fun b hb hmap => hpte b hb hmap.1,
    fun b h1 h2 => absurd h2 (Nat.not_lt.mpr h1), fun b h1 h2 => absurd h2 (Nat.not_lt.mpr h1),
    fun g hg _ _ => Growable.cleared_word hfree hg⟩,
    ⟨hG.kend, ?_, ?_, ?_⟩, List.nodup_nil, by simp [withCleared], by
      simp [withCleared], by simp [withCleared], by simp [withCleared]⟩
  · rw [hpde, h1] at h2
    cases h2
  · intro i hi hp
    rw [hpde] at hp
    rw [htab]
    exact hG.table i hi hp
  · intro i j hi hj hpi hpj heq
    rw [hpde] at hpi hpj
    rw [htab, htab] at heq
    exact hG.apart i j hi hj hpi hpj heq
  · intro b hb hmap
    have hmaps := (hmapped b hb).mp hmap
    rw [hframe b hb hmaps]
    obtain ⟨h1, h2, h3, h4⟩ := hG.page b hb hmaps
    refine ⟨h1, fun i hi hp => ?_, h3, h4⟩
    rw [hpde] at hp
    rw [htab]
    exact h2 i hi hp

end AllocPage

def growCost (s : Machine) (cur : Fin nproc) (a k : Nat) : Nat :=
  ((List.range' a k).map (pageCost s cur)).sum

section Loop

variable {a k : Nat}

theorem one_le_pageCost (s : Machine) (cur : Fin nproc) (a : Nat) : 1 ≤ pageCost s cur a := by
  rw [pageCost]
  split
  · decide
  · decide

theorem growCost_succ (s : Machine) (cur : Fin nproc) (a k : Nat) :
    growCost s cur a (k + 1) = pageCost s cur a + growCost s cur (a + 1) k := by
  rw [growCost, List.range'_succ, List.map_cons, List.sum_cons, growCost]

theorem le_growCost (s : Machine) (cur : Fin nproc) (a k : Nat) : k ≤ growCost s cur a k := by
  induction k generalizing a with
  | zero => exact Nat.zero_le _
  | succ k ih =>
    rw [growCost_succ]
    have h1 := one_le_pageCost s cur a
    have h2 := ih (a + 1)
    omega

theorem pageCost_le_growCost (s : Machine) (cur : Fin nproc) {b : Nat} (h1 : a ≤ b)
    (h2 : b < a + k) : pageCost s cur b ≤ growCost s cur a k := by
  induction k generalizing a with
  | zero => omega
  | succ k ih =>
    rw [growCost_succ]
    by_cases hb : b = a
    · rw [hb]
      exact Nat.le_add_right _ _
    · exact le_trans (ih (by omega) (by omega)) (Nat.le_add_left _ _)

theorem Added.pageCost (h : Added s t cur a (a + 1)) {b : Nat} (hab : a < b) (hb : b < 2 ^ 19) :
    pageCost t cur b = pageCost s cur b := by
  by_cases hzero : b % 1024 = 0
  · have hpres : (t.pde cur (b / 1024)).present = (s.pde cur (b / 1024)).present := by
      cases hps : (s.pde cur (b / 1024)).present with
      | true => rw [h.table _ (by omega) hps, hps]
      | false =>
        by_contra hpt
        obtain ⟨⟨c, hc1, hc2, hc⟩, -⟩ := h.newTable _ (by omega) hps (by simpa using hpt)
        omega
    rw [Xv6.pageCost, Xv6.pageCost, hpres]
  · rw [Xv6.pageCost, Xv6.pageCost, if_neg fun hc => hzero hc.1, if_neg fun hc => hzero hc.1]

theorem Added.growCost (h : Added s t cur a (a + 1)) (hk : a + 1 + k ≤ 2 ^ 19) :
    growCost t cur (a + 1) k = growCost s cur (a + 1) k := by
  rw [Xv6.growCost, Xv6.growCost]
  congr 1
  refine List.map_congr_left fun b hb => ?_
  obtain ⟨h1, h2⟩ := List.mem_range'_1.mp hb
  exact h.pageCost (by omega) (by omega)

/-- Three ways the loop of `allocuvm` ends, by the number of free pages: all pages are added; all
but the last, whose table could not be allocated; or it stops and reports failure. -/
theorem run_allocLoop : ∀ {k a : Nat} {s : Machine}, Growable s cur → a + k ≤ 2 ^ 19 →
    (∀ b, a ≤ b → b < 2 ^ 19 → ¬s.mapped cur b) →
    (0 < k → a % 1024 ≠ 0 → (s.pde cur (a / 1024)).present = true) →
    ∃ m t, a ≤ m ∧ m ≤ a + k ∧ Added s t cur a m ∧ Growable t cur ∧
      ((growCost s cur a k ≤ s.free.length ∧ m = a + k ∧
          (Kernel.allM (List.range' a k) (allocPage (s.proc cur).pgdir)).run s = .ok (true, t)) ∨
        (s.free.length + 1 = growCost s cur a k ∧ 0 < k ∧ pageCost s cur (a + k - 1) = 2 ∧
          m + 1 = a + k ∧
          (Kernel.allM (List.range' a k) (allocPage (s.proc cur).pgdir)).run s = .ok (true, t)) ∨
        (s.free.length < growCost s cur a k ∧
          ¬(s.free.length + 1 = growCost s cur a k ∧ pageCost s cur (a + k - 1) = 2) ∧
          (Kernel.allM (List.range' a k) (allocPage (s.proc cur).pgdir)).run s =
            .ok (false, t))) := by
  intro k
  induction k with
  | zero =>
    intro a s hG _ _ _
    exact ⟨a, s, le_rfl, le_rfl, .refl s cur a, hG, Or.inl ⟨Nat.zero_le _, rfl, rfl⟩⟩
  | succ k ih =>
    intro a s hG hk hno halign
    have hcost := growCost_succ s cur a k
    have hrest := le_growCost s cur (a + 1) k
    have hone := one_le_pageCost s cur a
    by_cases hlen : pageCost s cur a ≤ s.free.length
    · -- the page is added, and the loop goes on
      obtain ⟨s1, hrun1, hadd, hG1, hlen1⟩ := run_allocPage hG (by omega)
        (hno a le_rfl (by omega)) (halign (by omega)) hlen
      have hproc : (s1.proc cur).pgdir = (s.proc cur).pgdir := by rw [hadd.proc]
      have hno1 : ∀ b, a + 1 ≤ b → b < 2 ^ 19 → ¬s1.mapped cur b := fun b h1 h2 => by
        rw [hadd.keep b h2 (Or.inr h1)]
        exact hno b (by omega) h2
      have halign1 : 0 < k → (a + 1) % 1024 ≠ 0 →
          (s1.pde cur ((a + 1) / 1024)).present = true := fun _ hne => by
        rw [show (a + 1) / 1024 = a / 1024 by omega]
        exact (hadd.new a le_rfl (Nat.lt_succ_self a)).1.1
      obtain ⟨m, t, hm1, hm2, hadd', hG', hcases⟩ := ih hG1 (by omega) hno1 halign1
      have hgrow := hadd.growCost (k := k) (by omega)
      rw [hproc, hgrow] at hcases
      refine ⟨m, t, by omega, by omega, hadd.trans (by omega) hG1 hadd' hm1, hG', ?_⟩
      rw [List.range'_succ, Kernel.run_allM_cons_true hrun1]
      rcases hcases with ⟨h1, h2, h3⟩ | ⟨h1, h2, h3, h4, h5⟩ | ⟨h1, h2, h3⟩
      · exact Or.inl ⟨by omega, by omega, h3⟩
      · rw [hadd.pageCost (by omega) (by omega),
          show a + 1 + k - 1 = a + (k + 1) - 1 by omega] at h3
        exact Or.inr (Or.inl ⟨by omega, by omega, h3, by omega, h5⟩)
      · refine Or.inr (Or.inr ⟨by omega, fun ⟨h4, h5⟩ => h2 ⟨by omega, ?_⟩, h3⟩)
        have hkpos : 0 < k := by
          by_contra hk0
          have hk0' : k = 0 := by omega
          subst hk0'
          exact absurd h1 (Nat.not_lt_zero _)
        rw [hadd.pageCost (by omega) (by omega),
          show a + 1 + k - 1 = a + (k + 1) - 1 by omega]
        exact h5
    · have hlast := pageCost_le_growCost s cur (a := a) (k := k + 1)
        (b := a + (k + 1) - 1) (by omega) (by omega)
      match hfree : s.free with
      | [] =>
        refine ⟨a, s, le_rfl, by omega, .refl s cur a, hG, Or.inr (Or.inr ⟨?_, ?_, ?_⟩)⟩
        · rw [List.length_nil]
          omega
        · rw [List.length_nil]
          omega
        · rw [List.range'_succ]
          exact Kernel.run_allM_cons_false (run_allocPage_nil hfree)
      | [mem] =>
        have htwo : pageCost s cur a = 2 := by
          rw [hfree, List.length_singleton] at hlen
          rw [pageCost] at hlen ⊢
          split
          · rfl
          · rename_i hc
            rw [if_neg hc] at hlen
            omega
        have habsent : (s.pde cur (a / 1024)).present = false := by
          rw [pageCost] at htwo
          split at htwo
          · rename_i hc
            exact hc.2
          · cases htwo
        obtain ⟨hadd, hG1⟩ := hG.lost hfree a
        have hrun1 := run_allocPage_lost hG (by omega) hfree habsent
        refine ⟨a, s.withCleared mem [], le_rfl, by omega, hadd, hG1, ?_⟩
        rw [List.range'_succ, Kernel.run_allM_cons_true hrun1, List.length_singleton]
        cases k with
        | zero =>
          have hsum : growCost s cur a (0 + 1) = 2 := by
            rw [hcost, htwo]
            rfl
          exact Or.inr (Or.inl ⟨hsum.symm, by omega, htwo, rfl, rfl⟩)
        | succ k =>
          refine Or.inr (Or.inr ⟨by omega, by omega, ?_⟩)
          rw [List.range'_succ]
          exact Kernel.run_allM_cons_false (run_allocPage_nil rfl)
      | mem :: tb :: rest =>
        rw [hfree, List.length_cons, List.length_cons] at hlen
        rw [pageCost] at hlen
        split at hlen <;> omega

end Loop

end Add

end Xv6
