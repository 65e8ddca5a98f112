import Mathlib.Data.Finset.Card
import Xv6.Proof.SetupKvm

/-!
# Changes that keep the layout

Allocating and freeing a page, overwriting a page no directory leads to, changing status bits, and
replacing one table or one page of a process by a copy.
-/

namespace Xv6

open Machine

section Space

variable {s : Machine} {role : Nat → Role} {p : Fin nproc}

theorem Space.role_tab (hs : Space s role p) {i : Nat} (hi : i < 1024)
    (hpres : (s.pde p i).present = true) :
    role (s.tab p i) = if i < 512 then .table i else .ktable p i := by
  by_cases hlow : i < 512
  · rw [if_pos hlow]
    by_cases htab : i < s.tables p
    · exact (hs.table i htab).2
    · rw [hs.noTable i (by omega) hlow] at hpres
      exact absurd hpres (by simp)
  · rw [if_neg hlow]
    exact (hs.ktable i (by omega) hi hpres).1

theorem Space.tables_lt (hs : Space s role p) {a : Nat} (ha : a < s.pages p) : a / 1024 < 1024 := by
  have h1 := hs.low
  have h2 := tables_le_of_lt ha
  omega

theorem Space.pde_present (hs : Space s role p) {a : Nat} (ha : a < s.pages p) :
    (s.pde p (a / 1024)).present = true :=
  (hs.table _ (tables_le_of_lt ha)).1

theorem Space.tab_injective (hs : Space s role p) {i j : Nat} (hi : i < s.tables p)
    (hj : j < s.tables p) (h : s.tab p i = s.tab p j) : i = j := by
  have hrole := (hs.table i hi).2
  rw [h, (hs.table j hj).2] at hrole
  exact (Role.table.inj hrole).symm

theorem Space.apart (hs : Space s role p) {f : Nat} (hdir : role f ≠ .dir p)
    (htable : ∀ i, role f = .table i → s.tab p i = f → (s.pde p i).present = true → False)
    (hktable : ∀ i, role f ≠ .ktable p i) : Apart s p f where
  dir heq := hdir (heq ▸ hs.dir)
  tab i hi hpres heq := by
    have hrole := hs.role_tab hi hpres
    rw [heq] at hrole
    by_cases hlow : i < 512
    · rw [if_pos hlow] at hrole
      exact htable i hrole heq hpres
    · rw [if_neg hlow] at hrole
      exact hktable i hrole

end Space

theorem SameMaps.of_apart_same {s s' : Machine} {p : Fin nproc} (hproc : s'.proc p = s.proc p)
    {P : Nat → Prop} (hword : ∀ g, ¬P g → ∀ j, SameEntry (s'.word g j) (s.word g j))
    (happart : ∀ f, P f → Apart s p f) : SameMaps s' s p := by
  have hdir : ¬P (s.proc p).pgdir := fun h => (happart _ h).dir rfl
  refine ⟨by rw [hproc], by rw [hproc], fun i _ => ?_, fun i hi hpres j _ => ?_⟩
  · rw [pde, hproc]
    exact hword _ hdir i
  · exact hword _ (fun h => (happart _ h).tab i hi hpres rfl) j

theorem SameMaps.of_apart {s s' : Machine} {p : Fin nproc} (hproc : s'.proc p = s.proc p)
    {P : Nat → Prop} (hword : ∀ g, ¬P g → s'.word g = s.word g)
    (happart : ∀ f, P f → Apart s p f) : SameMaps s' s p :=
  .of_apart_same hproc (fun g hg j => .of_eq (by rw [hword g hg])) happart

theorem Layout.of_apart {s s' : Machine} {role : Nat → Role} {H : Fin nproc → Prop}
    (hL : Layout s role H) (hproc : ∀ p, H p → s'.proc p = s.proc p) {P : Nat → Prop}
    (hword : ∀ g, ¬P g → s'.word g = s.word g) (happart : ∀ f, P f → ∀ p, H p → Apart s p f)
    (hpool : Pool s' role) : Layout s' role H where
  pool := hpool
  space p hp := (hL.space p hp).of_sameMaps
    (.of_apart (hproc p hp) hword fun f hf => happart f hf p hp) (by rw [hproc p hp])
    fun _ _ => rfl

theorem Layout.setPage {s : Machine} {role : Nat → Role} {H : Fin nproc → Prop}
    (hL : Layout s role H) {f : Nat} (content : Nat → Word) (h : ∀ p, H p → Apart s p f) :
    Layout (s.setPage f content) role H := by
  refine hL.of_apart (P := fun g => g = f) (fun _ _ => rfl)
    (fun g hg => setPage_word_of_ne _ _ hg) ?_ ?_
  · rintro _ rfl
    exact h
  · exact ⟨hL.pool.nodup, hL.pool.free, hL.pool.range, hL.pool.kend, hL.pool.kdata⟩

theorem SameMaps.of_words {s s' : Machine} {p : Fin nproc} (hproc : s'.proc p = s.proc p)
    (h : ∀ f j, SameEntry (s'.word f j) (s.word f j)) : SameMaps s' s p := by
  refine ⟨by rw [hproc], by rw [hproc], fun i _ => ?_, fun i _ _ j _ => h _ j⟩
  rw [pde, hproc]
  exact h _ i

theorem sameEntry_setWord {s : Machine} {f j : Nat} {w : Word} (h : SameEntry w (s.word f j))
    (g i : Nat) : SameEntry ((s.setWord f j w).word g i) (s.word g i) := by
  by_cases hg : g = f
  · by_cases hi : i = j
    · rw [hg, hi, setWord_word_self]
      exact h
    · rw [setWord_word_index _ _ _ _ hi]
      exact .refl _
  · rw [setWord_word_of_ne _ _ _ hg]
    exact .refl _

theorem SameMaps.setWord {s : Machine} (p : Fin nproc) {f j : Nat} {w : Word}
    (h : SameEntry w (s.word f j)) : SameMaps (s.setWord f j w) s p :=
  .of_words rfl (sameEntry_setWord h)

theorem Layout.of_words {s s' : Machine} {role : Nat → Role} {H : Fin nproc → Prop}
    (hL : Layout s role H) (hrest : s' = { s with word := s'.word })
    (hword : ∀ f j, SameEntry (s'.word f j) (s.word f j)) : Layout s' role H where
  pool := by
    rw [hrest]
    exact ⟨hL.pool.nodup, hL.pool.free, hL.pool.range, hL.pool.kend, hL.pool.kdata⟩
  space p hp := by
    have hproc : s'.proc p = s.proc p := by rw [hrest]
    exact (hL.space p hp).of_sameMaps (.of_words hproc hword) (by rw [hproc]) fun _ _ => rfl

theorem sameEntry_mark {s : Machine} (p : Fin nproc) (va : Nat) {flags : Word}
    (hflags : ∀ w : Word, SameEntry (w ||| flags) w) (f j : Nat) :
    SameEntry ((s.mark p va flags).word f j) (s.word f j) := by
  have hidx := div_pgSize_div_1024 va
  have hdir : SameEntry (s.pde p (va / 2 ^ 22) ||| pteA)
      (s.word (s.proc p).pgdir (va / 2 ^ 22)) := sameEntry_setA _
  rw [mark, pte, hidx]
  refine (sameEntry_setWord ?_ f j).trans (sameEntry_setWord hdir f j)
  exact (hflags _).trans (sameEntry_setWord hdir _ _).symm

theorem Pool.alloc {s : Machine} {role : Nat → Role} (hp : Pool s role) {f : Nat}
    {rest : List Nat} (hfree : s.free = f :: rest) (r : Role) :
    Pool { s with free := rest } (Function.update role f r) where
  nodup := by
    have h := hp.nodup
    rw [hfree] at h
    exact (List.nodup_cons.mp h).2
  free g hg := by
    have hne : g ≠ f := by
      rintro rfl
      have h := hp.nodup
      rw [hfree] at h
      exact (List.nodup_cons.mp h).1 hg
    rw [Function.update_of_ne hne]
    exact hp.free g (hfree ▸ List.mem_cons_of_mem f hg)
  range g hg := by
    by_cases hgf : g = f
    · subst hgf
      have hrole := hp.free g (by rw [hfree]; exact List.mem_cons_self)
      exact hp.range g (by rw [hrole]; simp)
    · rw [Function.update_of_ne hgf] at hg
      exact hp.range g hg
  kend := hp.kend
  kdata := hp.kdata

theorem Pool.role_head {s : Machine} {role : Nat → Role} (hp : Pool s role) {f : Nat}
    {rest : List Nat} (hfree : s.free = f :: rest) : role f = .free :=
  hp.free f (by rw [hfree]; exact List.mem_cons_self)

theorem Pool.lt {s : Machine} {role : Nat → Role} (hp : Pool s role) {f : Nat}
    (h : role f ≠ .other) : f < 2 ^ 20 := by
  have := (hp.range f h).2
  simp only [physTop, pgSize] at this
  omega

theorem Layout.pages_le {s : Machine} {role : Nat → Role} {H : Fin nproc → Prop}
    (hL : Layout s role H) {p : Fin nproc} (hp : H p) : s.pages p ≤ 57344 := by
  have hsp := hL.space p hp
  have hmaps : Set.MapsTo (s.frame p) (Finset.range (s.pages p)) (Finset.range 57344) := by
    intro a ha
    have hrole := (hsp.page a (by simpa using ha)).2
    have hrange := (hL.pool.range (s.frame p a) (by rw [hrole]; simp)).2
    simp only [physTop, pgSize] at hrange
    simp only [Finset.coe_range, Set.mem_Iio]
    omega
  have hinj : Set.InjOn (s.frame p) (Finset.range (s.pages p)) := by
    intro a ha b hb heq
    have hra := (hsp.page a (by simpa using ha)).2
    rw [heq, (hsp.page b (by simpa using hb)).2] at hra
    exact (Role.page.inj hra).symm
  simpa using Finset.card_le_card_of_injOn _ hmaps hinj

theorem Layout.tables_le {s : Machine} {role : Nat → Role} {H : Fin nproc → Prop}
    (hL : Layout s role H) {p : Fin nproc} (hp : H p) : s.tables p ≤ 56 := by
  have := hL.pages_le hp
  simp only [tables]
  omega

theorem Layout.sz_lt {s : Machine} {role : Nat → Role} {H : Fin nproc → Prop}
    (hL : Layout s role H) {p : Fin nproc} (hp : H p) : (s.proc p).sz < kernBase := by
  have h := hL.pages_le hp
  simp only [pages, npages, pgSize, kernBase] at *
  omega

theorem Layout.alloc {s : Machine} {role : Nat → Role} {H : Fin nproc → Prop}
    (hL : Layout s role H) {f : Nat} {rest : List Nat} (hfree : s.free = f :: rest) (r : Role)
    (content : Nat → Word) :
    Layout ({ s with free := rest }.setPage f content) (Function.update role f r) H := by
  have hrole := hL.pool.role_head hfree
  have happart : ∀ p, H p → Apart s p f := fun p hp =>
    apart_of_not_uses ((hL.space p hp).not_uses_of_free hrole)
  have hmaps : ∀ p, H p → SameMaps ({ s with free := rest }.setPage f content) s p := fun p hp =>
    .of_apart (P := fun g => g = f) rfl (fun g hg => setPage_word_of_ne _ _ hg)
      (by rintro _ rfl; exact happart p hp)
  refine ⟨?_, fun p hp => (hL.space p hp).of_sameMaps (hmaps p hp) rfl ?_⟩
  · have h := hL.pool.alloc hfree r
    exact ⟨h.nodup, h.free, h.range, h.kend, h.kdata⟩
  · intro g hg
    apply Function.update_of_ne
    rintro rfl
    exact (hL.space p hp).not_uses_of_free hrole hg

theorem Layout.take {s s' : Machine} {role : Nat → Role} {H : Fin nproc → Prop}
    (hL : Layout s role H) {taken : List Nat} (hfree : s.free = taken ++ s'.free)
    (hkend : s'.kend = s.kend) (hkdata : s'.kdata = s.kdata)
    (hproc : ∀ p, H p → s'.proc p = s.proc p)
    (hword : ∀ g, g ∉ s.free → ∀ j, SameEntry (s'.word g j) (s.word g j)) (r : Nat → Role) :
    Layout s' (fun g => if g ∈ taken then r g else role g) H := by
  have hnodup := hL.pool.nodup
  rw [hfree, List.nodup_append] at hnodup
  have hmem : ∀ g ∈ taken, role g = .free := fun g hg =>
    hL.pool.free g (by rw [hfree]; exact List.mem_append_left _ hg)
  refine ⟨⟨hnodup.2.1, ?_, ?_, by rw [hkend]; exact hL.pool.kend,
    by rw [hkdata]; exact hL.pool.kdata⟩, fun p hp => ?_⟩
  · intro g hg
    rw [if_neg fun htaken => hnodup.2.2 g htaken g hg rfl]
    exact hL.pool.free g (by rw [hfree]; exact List.mem_append_right _ hg)
  · intro g hg
    rw [hkend]
    apply hL.pool.range
    by_cases htaken : g ∈ taken
    · rw [hmem g htaken]
      simp
    · simpa only [if_neg htaken] using hg
  · have hsp := hL.space p hp
    refine hsp.of_sameMaps (.of_apart_same (P := fun g => g ∈ s.free) (hproc p hp) hword ?_)
      (by rw [hproc p hp]) ?_
    · intro f hf
      exact apart_of_not_uses (hsp.not_uses_of_free (hL.pool.free f hf))
    · intro g hg
      apply if_neg
      intro htaken
      exact hsp.not_uses_of_free (hmem g htaken) hg

section Replace

variable {s : Machine} {role : Nat → Role} {p : Fin nproc}

theorem Space.dir_ne_tab (hs : Space s role p) {i : Nat} (hi : i < 1024)
    (hpres : (s.pde p i).present = true) : s.tab p i ≠ (s.proc p).pgdir := by
  intro heq
  have hrole := hs.role_tab hi hpres
  rw [heq, hs.dir] at hrole
  split at hrole <;> cases hrole

theorem Space.replaceTable (hs : Space s role p) {i t : Nat} (hi : i < s.tables p)
    (hrole : role t = .table i) (hlt : t < 2 ^ 20)
    (hcopy : s.word t = s.word (s.tab p i)) :
    Space (s.setWord (s.proc p).pgdir i (mkEntry t (pteW ||| pteU ||| pteP))) role p := by
  set s' := s.setWord (s.proc p).pgdir i (mkEntry t (pteW ||| pteU ||| pteP)) with hs'
  have hlow := hs.low
  have hpde_self : s'.pde p i = mkEntry t (pteW ||| pteU ||| pteP) :=
    setWord_word_self _ _ _ _
  have hpde : ∀ k ≠ i, s'.pde p k = s.pde p k := fun k hk =>
    setWord_word_index _ _ _ _ hk _
  have htab_self : s'.tab p i = t := by
    rw [tab, hpde_self, pteAddr_mkEntry_user hlt]
  have htab : ∀ k ≠ i, s'.tab p k = s.tab p k := fun k hk => by
    rw [tab, hpde k hk, ← tab]
  have htd : t ≠ (s.proc p).pgdir := by
    rintro rfl
    rw [hs.dir] at hrole
    cases hrole
  have hword : ∀ k < 1024, (s.pde p k).present = true → s'.word (s'.tab p k) =
      s.word (s.tab p k) := by
    intro k hk hpres
    by_cases hki : k = i
    · rw [hki, htab_self, hs', setWord_word_of_ne _ _ _ htd, hcopy]
    · rw [htab k hki, hs', setWord_word_of_ne _ _ _ (hs.dir_ne_tab hk hpres)]
  have hpte : ∀ a, a / 1024 < s.tables p → s'.pte p a = s.pte p a := by
    intro a ha
    rw [pte, hword _ (by omega) (hs.table _ ha).1, ← pte]
  refine ⟨hs.dir, hs.kstack, hs.low, ?_, ?_, ?_, ?_, ?_⟩
  · intro k hk
    by_cases hki : k = i
    · rw [hki, hpde_self, htab_self]
      exact ⟨present_mkEntry, hrole⟩
    · rw [hpde k hki, htab k hki]
      exact hs.table k hk
  · intro k hk hlt'
    have hki : k ≠ i := fun h => Nat.not_le.mpr hi (h ▸ hk)
    rw [hpde k hki]
    exact hs.noTable k hk hlt'
  · intro a ha
    rw [frame, hpte a (tables_le_of_lt ha)]
    exact hs.page a ha
  · intro a ha hlt'
    rw [hpte a hlt']
    exact hs.noPage a ha hlt'
  · intro k hk hlt' hpres
    have hki : k ≠ i := by omega
    rw [hpde k hki] at hpres
    rw [hword k hlt' hpres, htab k hki]
    exact hs.ktable k hk hlt' hpres

theorem Layout.replaceTable {H : Fin nproc → Prop} (hL : Layout s role H) (hp : H p) {i t : Nat}
    (hi : i < s.tables p) (hrole : role t = .table i) (hcopy : s.word t = s.word (s.tab p i)) :
    Layout (s.setWord (s.proc p).pgdir i (mkEntry t (pteW ||| pteU ||| pteP))) role H where
  pool := ⟨hL.pool.nodup, hL.pool.free, hL.pool.range, hL.pool.kend, hL.pool.kdata⟩
  space q hq := by
    by_cases hqp : q = p
    · subst hqp
      exact (hL.space q hq).replaceTable hi hrole (hL.pool.lt (by rw [hrole]; simp)) hcopy
    · have hdir := (hL.space p hp).dir
      have happart : Apart s q (s.proc p).pgdir := by
        refine (hL.space q hq).apart ?_ ?_ ?_
        · rw [hdir]
          simpa using fun h => hqp h.symm
        · intro i h
          rw [hdir] at h
          cases h
        · intro i h
          rw [hdir] at h
          cases h
      refine (hL.space q hq).of_sameMaps (.of_apart (P := fun g => g = (s.proc p).pgdir) rfl
        (fun g hg => setWord_word_of_ne _ _ _ hg) ?_) rfl (fun _ _ => rfl)
      rintro _ rfl
      exact happart

theorem Space.setEntry (hs : Space s role p) {tab i k : Nat} {e : Word}
    (htable : role tab = .table k)
    (hpage : ∀ a < s.pages p, s.tab p (a / 1024) = tab → a % 1024 = i →
      e.present = true ∧ role (pteAddr e) = .page a)
    (hnone : ∀ a, s.pages p ≤ a → a / 1024 < s.tables p → s.tab p (a / 1024) = tab →
      a % 1024 = i → e.present = false) : Space (s.setWord tab i e) role p := by
  set s' := s.setWord tab i e with hs'
  have hdir : (s.proc p).pgdir ≠ tab := by
    rintro rfl
    rw [hs.dir] at htable
    cases htable
  have hpde : ∀ k, s'.pde p k = s.pde p k := fun k => by
    rw [pde, hs', setWord_proc, setWord_word_of_ne _ _ _ hdir]
    rfl
  have htab : ∀ k, s'.tab p k = s.tab p k := fun k => by
    rw [Machine.tab, hpde, ← Machine.tab]
  have hpte_self : ∀ a, s.tab p (a / 1024) = tab ∧ a % 1024 = i → s'.pte p a = e := by
    rintro a ⟨heq, hmod⟩
    rw [pte, htab, heq, hmod]
    exact setWord_word_self ..
  have hpte_other : ∀ a, ¬(s.tab p (a / 1024) = tab ∧ a % 1024 = i) → s'.pte p a = s.pte p a := by
    intro a hne
    rw [pte, htab]
    by_cases heq : s.tab p (a / 1024) = tab
    · rw [hs', setWord_word_index _ _ _ _ fun hmod => hne ⟨heq, hmod⟩]
      rfl
    · rw [hs', setWord_word_of_ne _ _ _ heq]
      rfl
  refine ⟨hs.dir, hs.kstack, hs.low, ?_, ?_, ?_, ?_, ?_⟩
  · intro k hk
    rw [hpde, htab]
    exact hs.table k hk
  · intro k hk hlt
    rw [hpde]
    exact hs.noTable k hk hlt
  · intro a ha
    by_cases hself : s.tab p (a / 1024) = tab ∧ a % 1024 = i
    · rw [frame, hpte_self a hself]
      exact hpage a ha hself.1 hself.2
    · rw [frame, hpte_other a hself]
      exact hs.page a ha
  · intro a ha hlt
    by_cases hself : s.tab p (a / 1024) = tab ∧ a % 1024 = i
    · rw [hpte_self a hself]
      exact hnone a ha hlt hself.1 hself.2
    · rw [hpte_other a hself]
      exact hs.noPage a ha hlt
  · intro k hk hlt hpres
    rw [hpde] at hpres
    have hk' := hs.ktable k hk hlt hpres
    have hne : s.tab p k ≠ tab := by
      intro heq
      rw [heq, htable] at hk'
      cases hk'.1
    rw [htab, hs', setWord_word_of_ne _ _ _ hne]
    exact hk'

theorem Space.replaceFrame (hs : Space s role p) {a f tab : Nat} (hf : role f = .page a)
    (hlt : f < 2 ^ 20) (htable : role tab = .table (a / 1024))
    (hmapped : s.tab p (a / 1024) = tab → a / 1024 < s.tables p → a < s.pages p) :
    Space (s.setWord tab (a % 1024) (mkEntry f (pteW ||| pteU ||| pteP))) role p := by
  -- the role of the table says which page the entry is for
  have hindex : ∀ b, b / 1024 < s.tables p → s.tab p (b / 1024) = tab → b % 1024 = a % 1024 →
      b = a := by
    intro b hb heq hmod
    have hrole := (hs.table _ hb).2
    rw [heq, htable] at hrole
    have hdiv := Role.table.inj hrole
    omega
  refine hs.setEntry htable (fun b hb heq hmod => ?_) fun b hb hlt' heq hmod => ?_
  · obtain rfl := hindex b (tables_le_of_lt hb) heq hmod
    rw [pteAddr_mkEntry_user hlt]
    exact ⟨present_mkEntry, hf⟩
  · obtain rfl := hindex b hlt' heq hmod
    exact absurd (hmapped heq hlt') (Nat.not_lt.mpr hb)

theorem Layout.replaceFrame {H : Fin nproc → Prop} (hL : Layout s role H) (hp : H p) {a f : Nat}
    (ha : a < s.pages p) (hf : role f = .page a) :
    Layout (s.setWord (s.tab p (a / 1024)) (a % 1024) (mkEntry f (pteW ||| pteU ||| pteP)))
      role H where
  pool := ⟨hL.pool.nodup, hL.pool.free, hL.pool.range, hL.pool.kend, hL.pool.kdata⟩
  space q hq := by
    have hsp := hL.space p hp
    refine (hL.space q hq).replaceFrame hf (hL.pool.lt (by rw [hf]; simp))
      (hsp.table _ (tables_le_of_lt ha)).2 ?_
    -- the entry is present, so the page is one of every process that has the table
    intro hsame htab
    by_contra hge
    have hno := (hL.space q hq).noPage a (by omega) htab
    rw [pte, hsame] at hno
    rw [← pte, (hsp.page a ha).1] at hno
    cases hno

theorem Space.clearU (hs : Space s role p) {tab i k : Nat} (htable : role tab = .table k) :
    Space (s.setWord tab i (s.word tab i &&& ~~~pteU)) role p := by
  refine hs.setEntry htable (fun a ha heq hmod => ?_) fun a ha hlt heq hmod => ?_
  · have hpage := hs.page a ha
    rw [frame, pte, heq, hmod] at hpage
    simpa using hpage
  · have hnone := hs.noPage a ha hlt
    rw [pte, heq, hmod] at hnone
    simpa using hnone

end Replace

end Xv6
