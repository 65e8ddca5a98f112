import Mathlib.Data.Finset.Card
import Xv6.Proof.DeallocRange

/-!
# Building page tables

`mappages` goes page by page and takes a page for a table where one is missing. In a directory whose
entries name different tables each step changes the translation of one page, so that a whole run
translates its range as asked and every other address as before. `setupkvm` is four such runs.
-/

namespace Xv6

open Machine

namespace Machine

def pageAt (s : Machine) (d a : Nat) : Option Word :=
  if (s.word d (a / 1024)).present && (s.entryAt d a).present then some (s.entryAt d a) else none

def translate (s : Machine) (d va : Nat) : Option (Nat × Word) :=
  let pde := s.word d (pdx va)
  let pte := s.word (pteAddr pde) (ptx va)
  if pde.present && pte.present then some (pteAddr pte * pgSize + va % pgSize, pte &&& 0xfff)
  else none

end Machine

def leafEntry (pa : Nat) (perm : Word) : Word := BitVec.ofNat 32 pa ||| perm ||| pteP

theorem leafEntry_congr {pa pa' : Nat} (perm : Word) (h : pa % 2 ^ 32 = pa' % 2 ^ 32) :
    leafEntry pa perm = leafEntry pa' perm := by
  have hword : BitVec.ofNat 32 pa = BitVec.ofNat 32 pa' := by
    apply BitVec.eq_of_toNat_eq
    rw [BitVec.toNat_ofNat, BitVec.toNat_ofNat, h]
  rw [leafEntry, leafEntry, hword]

theorem leafEntry_eq {pa : Nat} {perm : Word} (hpa : pa % pgSize = 0) :
    leafEntry pa perm = mkEntry (pa % 2 ^ 32 / pgSize) (perm ||| pteP) := by
  have hpage : pa % 2 ^ 32 / pgSize * pgSize = pa % 2 ^ 32 := by
    simp only [pgSize] at *
    omega
  rw [leafEntry_congr perm (Nat.mod_mod pa (2 ^ 32)).symm, leafEntry, mkEntry, hpage,
    BitVec.or_assoc]

theorem leafEntry_present (pa : Nat) (perm : Word) : (leafEntry pa perm).present = true := by
  rw [leafEntry, Word.present, BitVec.getLsbD_or]
  simp [pteP]

theorem perm_or_lt {perm : Word} (hperm : perm.toNat < pgSize) :
    (perm ||| pteP).toNat < 2 ^ 12 := by
  rw [BitVec.toNat_or]
  exact Nat.or_lt_two_pow hperm (by decide)

theorem mkEntry_flags {page : Nat} {flags : Word} (h : flags.toNat < 2 ^ 12) :
    mkEntry page flags &&& 0xfff = flags := by
  ext i hi
  rw [← BitVec.getLsbD_eq_getElem, ← BitVec.getLsbD_eq_getElem, BitVec.getLsbD_and]
  by_cases hlow : i < 12
  · rw [getLsbD_mkEntry hlow]
    have hmask : (0xfff : Word).getLsbD i = true := by
      revert i
      decide
    rw [hmask, Bool.and_true]
  · rw [getLsbD_of_flags h (by omega)]
    have hmask : (0xfff : Word).getLsbD i = false := getLsbD_of_flags (by decide) (by omega)
    rw [hmask, Bool.and_false]

section Translate

variable {s : Machine} {d va pa : Nat} {perm : Word}

theorem translate_eq (hva : va < 2 ^ 32) : s.translate d va = (s.pageAt d (va / pgSize)).map
    fun pte => (pteAddr pte * pgSize + va % pgSize, pte &&& 0xfff) := by
  have hdir : pdx va = va / pgSize / 1024 := by
    simp only [pdx, pgSize]
    omega
  have htab : ptx va = va / pgSize % 1024 := by
    simp only [ptx, pgSize]
    omega
  have hwalk : s.translate d va =
      if (s.word d (va / pgSize / 1024)).present && (s.entryAt d (va / pgSize)).present then
        some (pteAddr (s.entryAt d (va / pgSize)) * pgSize + va % pgSize,
          s.entryAt d (va / pgSize) &&& 0xfff)
      else none := by
    rw [Machine.translate, hdir, htab]
    rfl
  rw [hwalk, pageAt]
  split_ifs <;> rfl

theorem translate_leaf (hva : va < 2 ^ 32) (hpa : pa % pgSize = 0) (hperm : perm.toNat < pgSize)
    (h : s.pageAt d (va / pgSize) = some (leafEntry pa perm)) :
    s.translate d va = some ((pa + va % pgSize) % 2 ^ 32, perm ||| pteP) := by
  have hpage : pa % 2 ^ 32 / pgSize < 2 ^ 20 := by
    simp only [pgSize]
    omega
  have haddr : pa % 2 ^ 32 / pgSize * pgSize + va % pgSize = (pa + va % pgSize) % 2 ^ 32 := by
    simp only [pgSize] at *
    omega
  rw [translate_eq hva, h, Option.map_some, leafEntry_eq hpa,
    pteAddr_mkEntry hpage (perm_or_lt hperm), mkEntry_flags (perm_or_lt hperm), haddr]

theorem translate_range {v n o : Nat} (hend : v + n ≤ 2 ^ 20) (hpa : pa % pgSize = 0)
    (hperm : perm.toNat < pgSize)
    (h : ∀ k < n, s.pageAt d (v + k) = some (leafEntry (pa + k * pgSize) perm))
    (ho : o < n * pgSize) :
    s.translate d (v * pgSize + o) = some ((pa + o) % 2 ^ 32, perm ||| pteP) := by
  have hlt : v * pgSize + o < 2 ^ 32 := by
    simp only [pgSize] at *
    omega
  have hk : o / pgSize < n := by
    simp only [pgSize] at *
    omega
  have hpage : (v * pgSize + o) / pgSize = v + o / pgSize := by
    simp only [pgSize]
    omega
  have hpa' : (pa + o / pgSize * pgSize) % pgSize = 0 := by
    simp only [pgSize] at *
    omega
  have hsum : pa + o / pgSize * pgSize + (v * pgSize + o) % pgSize = pa + o := by
    simp only [pgSize]
    omega
  rw [translate_leaf hlt hpa' hperm (by rw [hpage]; exact h _ hk), hsum]

end Translate

structure Tables (s : Machine) (d : Nat) : Prop where
  injective : ∀ i j, i < 1024 → j < 1024 → (s.word d i).present = true →
    (s.word d j).present = true → s.tableAt d i = s.tableAt d j → i = j
  ne_dir : ∀ i < 1024, (s.word d i).present = true → s.tableAt d i ≠ d
  used : ∀ i < 1024, (s.word d i).present = true → s.tableAt d i ∉ s.free
  fresh : FreshPages s d

section Step

variable {s s' : Machine} {d v : Nat}

theorem pageAt_of_absent {a : Nat} (h : (s.word d (a / 1024)).present = false) :
    s.pageAt d a = none := by
  rw [pageAt, h]
  rfl

theorem pageAt_of_present {a : Nat} (h : (s.word d (a / 1024)).present = true) :
    s.pageAt d a = if (s.entryAt d a).present then some (s.entryAt d a) else none := by
  rw [pageAt, h, Bool.true_and]

theorem Tables.setEntry (h : Tables s d) (hv : v < 2 ^ 20) {w : Word} (hw : w.present = true)
    (hpres : (s.word d (v / 1024)).present = true)
    (hs' : s' = s.setWord (s.tableAt d (v / 1024)) (v % 1024) w) :
    Tables s' d ∧ s'.word d = s.word d ∧
      ∀ a < 2 ^ 20, s'.pageAt d a = if a = v then some w else s.pageAt d a := by
  have hdir : s'.word d = s.word d := by
    rw [hs']
    exact setWord_word_of_ne _ _ _ (h.ne_dir _ (by omega) hpres).symm
  have hfree : s'.free = s.free := by rw [hs', setWord_free]
  have htable : ∀ i, s'.tableAt d i = s.tableAt d i := fun i => by
    rw [tableAt, hdir]
    rfl
  have hentry : ∀ a < 2 ^ 20, (s.word d (a / 1024)).present = true →
      s'.entryAt d a = if a = v then w else s.entryAt d a := by
    intro a ha hpresa
    rw [entryAt, htable, hs']
    by_cases hav : a = v
    · rw [if_pos hav, hav, setWord_word_self]
    · rw [if_neg hav]
      by_cases htab : s.tableAt d (a / 1024) = s.tableAt d (v / 1024)
      · have hidx := h.injective _ _ (by omega) (by omega) hpresa hpres htab
        exact setWord_word_index s _ _ w (by omega) _
      · rw [setWord_word_of_ne _ _ _ htab]
        rfl
  refine ⟨⟨?_, ?_, ?_, ⟨hfree ▸ h.fresh.nodup, hfree ▸ h.fresh.dir, hfree ▸ h.fresh.lt⟩⟩, hdir,
    fun a ha => ?_⟩
  · intro i j
    rw [hdir, htable, htable]
    exact h.injective i j
  · intro i
    rw [hdir, htable]
    exact h.ne_dir i
  · intro i
    rw [hdir, htable, hfree]
    exact h.used i
  · cases hpresa : (s.word d (a / 1024)).present with
    | false =>
      have hav : a ≠ v := by
        rintro rfl
        rw [hpres] at hpresa
        cases hpresa
      rw [if_neg hav, pageAt_of_absent hpresa, pageAt_of_absent (by rw [hdir]; exact hpresa)]
    | true =>
      rw [pageAt_of_present (by rw [hdir]; exact hpresa), hentry a ha hpresa]
      by_cases hav : a = v
      · rw [if_pos hav, if_pos hav, if_pos hw]
      · rw [if_neg hav, if_neg hav, pageAt_of_present hpresa]

theorem Tables.addTable (h : Tables s d) {i t : Nat} {rest : List Nat}
    (habsent : (s.word d i).present = false) (hfree : s.free = t :: rest)
    (hs' : s' = ({ s with free := rest }.setPage t fun _ => 0).setWord d i
      (mkEntry t (pteP ||| pteW ||| pteU))) :
    Tables s' d ∧ s'.tableAt d i = t ∧ s'.free = rest ∧
      (∀ j, (s'.word d j).present = true ↔ (s.word d j).present = true ∨ j = i) ∧
      ∀ a < 2 ^ 20, s'.pageAt d a = s.pageAt d a := by
  have hmem : t ∈ s.free := by
    rw [hfree]
    exact List.mem_cons_self
  have htd : t ≠ d := fun heq => h.fresh.dir (heq ▸ hmem)
  have hself : s'.word d i = mkEntry t (pteP ||| pteW ||| pteU) := by
    rw [hs', setWord_word_self]
  have hother : ∀ j ≠ i, s'.word d j = s.word d j := by
    intro j hj
    rw [hs', setWord_word_index _ _ _ _ hj, setPage_word_of_ne _ _ htd.symm]
  have hselfpres : (s'.word d i).present = true := by
    rw [hself, mkEntry_table_eq]
    exact present_mkEntry
  have htable : s'.tableAt d i = t := by
    rw [tableAt, hself, mkEntry_table_eq]
    exact pteAddr_mkEntry_user (h.fresh.lt t hmem)
  have htables : ∀ j ≠ i, s'.tableAt d j = s.tableAt d j := by
    intro j hj
    rw [tableAt, hother j hj]
    rfl
  have hrest : s'.free = rest := by
    rw [hs']
    rfl
  have hsub : ∀ f ∈ rest, f ∈ s.free := fun f hf => by
    rw [hfree]
    exact List.mem_cons_of_mem _ hf
  have hnodup := h.fresh.nodup
  rw [hfree, List.nodup_cons] at hnodup
  have hpres : ∀ j, (s'.word d j).present = true ↔ (s.word d j).present = true ∨ j = i := by
    intro j
    by_cases hj : j = i
    · simp [hj, hselfpres]
    · simp [hj, hother j hj]
  have hold : ∀ j < 1024, j ≠ i → (s'.word d j).present = true → s'.tableAt d j ≠ t := by
    intro j hj hne hp
    rw [hother j hne] at hp
    rw [htables j hne]
    exact fun heq => h.used j hj hp (heq ▸ hmem)
  refine ⟨⟨?_, ?_, ?_, ⟨?_, ?_, ?_⟩⟩, htable, hrest, hpres, ?_⟩
  · intro j k hj hk hpj hpk heq
    by_cases hji : j = i
    · by_contra hne
      rw [hji, htable] at heq
      exact hold k hk (fun hki => hne (hji.trans hki.symm)) hpk heq.symm
    · by_cases hki : k = i
      · rw [hki, htable] at heq
        exact absurd heq (hold j hj hji hpj)
      · rw [htables j hji, htables k hki] at heq
        rw [hother j hji] at hpj
        rw [hother k hki] at hpk
        exact h.injective j k hj hk hpj hpk heq
  · intro j hj hp
    by_cases hji : j = i
    · rw [hji, htable]
      exact htd
    · rw [htables j hji]
      exact h.ne_dir j hj (by rwa [← hother j hji])
  · intro j hj hp
    rw [hrest]
    by_cases hji : j = i
    · rw [hji, htable]
      exact hnodup.1
    · rw [htables j hji]
      exact fun hf => h.used j hj (by rwa [← hother j hji]) (hsub _ hf)
  · rw [hrest]
    exact hnodup.2
  · rw [hrest]
    exact fun hf => h.fresh.dir (hsub d hf)
  · rw [hrest]
    exact fun f hf => h.fresh.lt f (hsub f hf)
  · intro a ha
    by_cases hai : a / 1024 = i
    · have hzero : s'.entryAt d a = 0 := by
        rw [entryAt, hai, htable, hs', setWord_word_of_ne _ _ _ htd,
          setPage_word_self]
      rw [pageAt_of_present (hai ▸ hselfpres), hzero, pageAt_of_absent (hai ▸ habsent)]
      rfl
    · have hentry : (s.word d (a / 1024)).present = true → s'.entryAt d a = s.entryAt d a := by
        intro hp
        have hne := h.ne_dir _ (by omega) hp
        have hnt : s.tableAt d (a / 1024) ≠ t := fun heq => h.used _ (by omega) hp (heq ▸ hmem)
        rw [entryAt, htables _ hai, hs', setWord_word_of_ne _ _ _ hne,
          setPage_word_of_ne _ _ hnt]
        rfl
      cases hp : (s.word d (a / 1024)).present with
      | false =>
        rw [pageAt_of_absent hp, pageAt_of_absent (by rw [hother _ hai]; exact hp)]
      | true =>
        rw [pageAt_of_present hp, pageAt_of_present (by rw [hother _ hai]; exact hp), hentry hp]

structure PageMapped (s s' : Machine) (d v : Nat) (w : Word) : Prop where
  tables : Tables s' d
  present : ∀ i, (s'.word d i).present = true ↔ (s.word d i).present = true ∨ i = v / 1024
  pages : ∀ a < 2 ^ 20, s'.pageAt d a = if a = v then some w else s.pageAt d a
  kept : ∀ i, (s.word d i).present = true → s'.tableAt d i = s.tableAt d i
  word : ∀ g ≠ d, g ≠ s'.tableAt d (v / 1024) → s'.word g = s.word g
  free : (s.word d (v / 1024)).present = true ∧ s'.free = s.free ∨
    (s.word d (v / 1024)).present = false ∧ s.free = s'.tableAt d (v / 1024) :: s'.free
  kend : s'.kend = s.kend
  proc : s'.proc = s.proc

theorem Tables.mapPage (h : Tables s d) (hv : v < 2 ^ 20) (hnone : s.pageAt d v = none) (pa : Nat)
    (perm : Word) :
    (s.free = [] ∧ (s.word d (v / 1024)).present = false ∧
        (mapPage d (v * pgSize) pa perm).run s = .ok (false, s)) ∨
      ∃ s', (mapPage d (v * pgSize) pa perm).run s = .ok (true, s') ∧
        PageMapped s s' d v (leafEntry pa perm) := by
  cases hpres : (s.word d (v / 1024)).present with
  | true =>
    have hentry : (s.word (s.tableAt d (v / 1024)) (ptx (v * pgSize))).present = false := by
      rw [pageAt_of_present hpres, entryAt] at hnone
      rw [ptx_page]
      by_contra hp
      rw [Bool.not_eq_false] at hp
      rw [if_pos hp] at hnone
      cases hnone
    have hrun : (Xv6.mapPage d (v * pgSize) pa perm).run s = .ok (true,
        s.setWord (s.tableAt d (v / 1024)) (ptx (v * pgSize)) (leafEntry pa perm)) :=
      run_mapPage_present (by rw [pdx_page hv]; exact hpres) (by rw [pdx_page hv]; rfl) hentry
    rw [ptx_page] at hrun
    obtain ⟨htabs, hdir, hpages⟩ := h.setEntry hv (leafEntry_present pa perm) hpres rfl
    refine .inr ⟨_, hrun, htabs, fun i => ?_, hpages, fun i _ => ?_, fun g _ hg => ?_,
      .inl ⟨hpres, rfl⟩, rfl, rfl⟩
    · rw [hdir]
      constructor
      · exact .inl
      · rintro (hi | rfl)
        · exact hi
        · exact hpres
    · rw [tableAt, hdir]
      rfl
    · apply setWord_word_of_ne
      rw [tableAt, hdir] at hg
      exact hg
  | false =>
    have habsent : (s.word d (pdx (v * pgSize))).present = false := by
      rw [pdx_page hv]
      exact hpres
    cases hfree : s.free with
    | nil => exact .inl ⟨rfl, rfl, run_mapPage_noFree habsent hfree⟩
    | cons t rest =>
      have htd : t ≠ d := by
        rintro rfl
        exact h.fresh.dir (by rw [hfree]; exact List.mem_cons_self)
      have hrun := @run_mapPage_newTable s d (v * pgSize) pa t perm rest habsent hfree htd
      rw [pdx_page hv, ptx_page, ← leafEntry] at hrun
      obtain ⟨htabs, htable, hrest, hpres1, hpages1⟩ := h.addTable hpres hfree rfl
      have hself := (hpres1 (v / 1024)).mpr (.inr rfl)
      obtain ⟨htabs2, hdir2, hpages2⟩ := htabs.setEntry hv (leafEntry_present pa perm) hself rfl
      rw [htable] at htabs2 hdir2 hpages2
      refine .inr ⟨_, hrun, htabs2, fun i => ?_, fun a ha => ?_, fun i hi => ?_,
        fun g hgd hg => ?_, .inr ⟨hpres, ?_⟩, rfl, rfl⟩
      · rw [hdir2]
        exact hpres1 i
      · rw [hpages2 a ha, hpages1 a ha]
      · have hne : i ≠ v / 1024 := by
          rintro rfl
          rw [hpres] at hi
          cases hi
        rw [tableAt, hdir2, setWord_word_index _ _ _ _ hne,
          setPage_word_of_ne _ _ htd.symm]
        rfl
      · have hgt : g ≠ t := by
          rw [tableAt, hdir2] at hg
          exact fun heq => hg (heq.trans htable.symm)
        rw [setWord_word_of_ne _ _ _ hgt, setWord_word_of_ne _ _ _ hgd,
          setPage_word_of_ne _ _ hgt]
      · rw [hfree, tableAt, hdir2]
        exact congrArg (· :: rest) htable.symm

end Step

def missingTables (s : Machine) (d v n : Nat) : Finset Nat :=
  ((Finset.range n).image fun k => (v + k) / 1024).filter fun i => (s.word d i).present = false

structure Laid (s s' : Machine) (d v n pa : Nat) (perm : Word) : Prop where
  tables : Tables s' d
  range : ∀ k < n, s'.pageAt d (v + k) = some (leafEntry (pa + k * pgSize) perm)
  other : ∀ a < 2 ^ 20, ¬(v ≤ a ∧ a < v + n) → s'.pageAt d a = s.pageAt d a

section Range

variable {s s' : Machine} {d v n : Nat}

theorem mem_missingTables {i : Nat} : i ∈ missingTables s d v n ↔
    (∃ k < n, (v + k) / 1024 = i) ∧ (s.word d i).present = false := by
  rw [missingTables, Finset.mem_filter, Finset.mem_image]
  simp only [Finset.mem_range]

theorem missingTables_succ_subset
    (hpres : ∀ i, (s'.word d i).present = true ↔ (s.word d i).present = true ∨ i = v / 1024) :
    missingTables s' d (v + 1) n ⊆ (missingTables s d v (n + 1)).erase (v / 1024) := by
  intro i hi
  obtain ⟨⟨k, hk, hki⟩, habsent⟩ := mem_missingTables.mp hi
  have hnot := (not_congr (hpres i)).mp (by rw [habsent]; exact Bool.false_ne_true)
  rw [not_or, Bool.not_eq_true] at hnot
  rw [Finset.mem_erase, mem_missingTables]
  exact ⟨hnot.2, ⟨k + 1, by omega, by rw [← hki]; congr 1; omega⟩, hnot.1⟩

theorem Tables.mapRun (perm : Word) {n : Nat} : ∀ {s : Machine} {v pa : Nat}, Tables s d →
    v + n ≤ 2 ^ 20 → (∀ k < n, s.pageAt d (v + k) = none) →
    ∃ ok s', (mapRun d (v * pgSize % 2 ^ 32) pa perm n).run s = .ok (ok, s') ∧
      (ok = true → Laid s s' d v n pa perm) ∧
      (ok = false → s.free.length < (missingTables s d v n).card) := by
  induction n with
  | zero =>
    intro s v pa h _ _
    exact ⟨true, s, rfl, fun _ => ⟨h, fun k hk => absurd hk (Nat.not_lt_zero k),
      fun _ _ _ => rfl⟩, fun hok => by cases hok⟩
  | succ n ih =>
    intro s v pa h hend hnone
    have hva : v * pgSize % 2 ^ 32 = v * pgSize := by
      simp only [pgSize]
      omega
    have hnext : (v * pgSize + pgSize) % 2 ^ 32 = (v + 1) * pgSize % 2 ^ 32 := by
      rw [Nat.add_mul, Nat.one_mul]
    have hfirst : s.pageAt d v = none := hnone 0 (by omega)
    rw [Xv6.mapRun, hva]
    rcases h.mapPage (by omega) hfirst pa perm with
      ⟨hfree, habsent, hrun⟩ | ⟨s1, hrun, hmap⟩
    · refine ⟨false, s, ?_, fun hok => absurd hok Bool.false_ne_true, fun _ => ?_⟩
      · rw [Kernel.run_bind_of_ok hrun]
        rfl
      · rw [hfree, List.length_nil, Finset.card_pos]
        exact ⟨v / 1024, mem_missingTables.mpr ⟨⟨0, by omega, rfl⟩, habsent⟩⟩
    · have hrest : ∀ k < n, s1.pageAt d (v + 1 + k) = none := by
        intro k hk
        rw [hmap.pages _ (by omega), if_neg (by omega), Nat.add_assoc, Nat.add_comm 1 k]
        exact hnone (k + 1) (by omega)
      obtain ⟨ok, s', hrun', hlaid, hfail⟩ :=
        @ih s1 (v + 1) ((pa + pgSize) % 2 ^ 32) hmap.tables (by omega) hrest
      refine ⟨ok, s', ?_, fun hok => ?_, fun hok => ?_⟩
      · rw [Kernel.run_bind_of_ok hrun, if_pos rfl, hnext]
        exact hrun'
      · have hl := hlaid hok
        refine ⟨hl.tables, fun k hk => ?_, fun a ha hout => ?_⟩
        · cases k with
          | zero =>
            rw [hl.other _ (by omega) (by omega), hmap.pages _ (by omega),
              if_pos (Nat.add_zero v), Nat.zero_mul, Nat.add_zero]
          | succ k =>
            have hpa : ((pa + pgSize) % 2 ^ 32 + k * pgSize) % 2 ^ 32 =
                (pa + (k + 1) * pgSize) % 2 ^ 32 := by
              simp only [pgSize]
              omega
            rw [show v + (k + 1) = v + 1 + k by omega, hl.range k (by omega),
              leafEntry_congr perm hpa]
        · rw [hl.other a ha (by omega), hmap.pages a ha, if_neg (by omega)]
      · -- the first page took a table exactly if it was missing
        have hlt := hfail hok
        have hsub := missingTables_succ_subset (n := n) hmap.present
        rcases hmap.free with ⟨-, hfree⟩ | ⟨habsent, hfree⟩
        · rw [hfree] at hlt
          exact hlt.trans_le (Finset.card_le_card (hsub.trans (Finset.erase_subset _ _)))
        · have hmem : v / 1024 ∈ missingTables s d v (n + 1) :=
            mem_missingTables.mpr ⟨⟨0, by omega, rfl⟩, habsent⟩
          have hcard := Finset.card_le_card hsub
          rw [Finset.card_erase_of_mem hmem] at hcard
          rw [hfree, List.length_cons]
          omega

theorem Tables.mappages (h : Tables s d) (perm : Word) {pa size : Nat} (hpos : 0 < size)
    (hend : v * pgSize + size ≤ 2 ^ 32)
    (hnone : ∀ k < npages size, s.pageAt d (v + k) = none) :
    ∃ ok s', (mappages d (v * pgSize) size pa perm).run s = .ok (ok, s') ∧
      (ok = true → Laid s s' d v (npages size) pa perm) ∧
      (ok = false → s.free.length < (missingTables s d v (npages size)).card) := by
  have hva : v * pgSize = v * pgSize % 2 ^ 32 := by
    simp only [pgSize] at *
    omega
  have hcount : ((v * pgSize + size + 2 ^ 32 - 1) % 2 ^ 32 / pgSize + 2 ^ 20 - v) %
      2 ^ 20 + 1 = npages size := by
    simp only [npages, pgSize] at *
    omega
  have hlast : v + npages size ≤ 2 ^ 20 := by
    simp only [npages, pgSize] at *
    omega
  have hv : v < 2 ^ 20 := by
    simp only [pgSize] at hend
    omega
  rw [mappages_eq_mapRun d pa perm hv hcount, hva]
  exact h.mapRun perm hlast hnone

theorem Ascending.not_inRegions {v : Nat} {regions : List (Nat × Nat)} (h : Ascending v regions)
    {a : Nat} (ha : a < v) : ¬InRegions regions a := by
  induction regions generalizing v with
  | nil =>
    rintro ⟨r, hr, -⟩
    exact List.not_mem_nil hr
  | cons r regions ih =>
    rintro ⟨r', hr', hle, hlt⟩
    have hfirst := h.1
    rcases List.mem_cons.mp hr' with rfl | hr'
    · omega
    · exact ih h.2 (by omega) ⟨r', hr', hle, hlt⟩

theorem Tables.mapKernel {ks : List Kmap} {regions : List (Nat × Nat)}
    (hks : List.Forall₂ (fun k r => KmapRegion k r.1 r.2) ks regions) :
    ∀ {s : Machine} {v : Nat}, Tables s d → Ascending v regions →
    (∀ a, v ≤ a → a < 2 ^ 20 → s.pageAt d a = none) →
    ∃ ok s', (mapKernel d ks).run s = .ok (ok, s') ∧ (ok = true → Tables s' d ∧
      (∀ a < 2 ^ 20, ¬InRegions regions a → s'.pageAt d a = s.pageAt d a) ∧
      ∀ k ∈ ks, ∃ v n, KmapRegion k v n ∧ v + n ≤ 2 ^ 20 ∧ ∀ j, j < n →
        s'.pageAt d (v + j) = some (leafEntry (k.physStart + j * pgSize) k.perm)) := by
  induction hks with
  | nil =>
    intro s v h _ _
    exact ⟨true, s, rfl, fun _ => ⟨h, fun _ _ _ => rfl, fun k hk => absurd hk List.not_mem_nil⟩⟩
  | @cons k r ks regions hk _ ih =>
    intro s v h hasc hnone
    have hle := hasc.2.le
    have hfirst := hasc.1
    have hpages : npages (r.2 * pgSize) = r.2 := by
      simp only [npages, pgSize]
      omega
    have hlast : r.1 * pgSize + r.2 * pgSize ≤ 2 ^ 32 := by
      simp only [pgSize]
      omega
    have hclear : ∀ j < npages (r.2 * pgSize), s.pageAt d (r.1 + j) = none := by
      intro j hj
      rw [hpages] at hj
      exact hnone _ (by omega) (by omega)
    obtain ⟨ok, s1, hrun, hlaid, -⟩ := @Tables.mappages s d r.1 h k.perm k.physStart _
      (Nat.mul_pos hk.pos (by decide)) hlast hclear
    rw [hpages] at hlaid
    rw [← hk.virt, ← hk.size, ← mapRegion] at hrun
    rw [Xv6.mapKernel]
    cases ok with
    | false =>
      rw [Kernel.run_allM_cons_false hrun]
      exact ⟨false, s1, rfl, fun hok => absurd hok Bool.false_ne_true⟩
    | true =>
      have hl := hlaid rfl
      obtain ⟨ok, s', hrun', hrest⟩ := ih hl.tables hasc.2 (fun a ha hlt => by
        rw [hl.other a hlt (by omega)]
        exact hnone a (by omega) hlt)
      rw [Xv6.mapKernel] at hrun'
      rw [Kernel.run_allM_cons_true hrun]
      refine ⟨ok, s', hrun', fun hok => ?_⟩
      obtain ⟨htabs, hother, hin⟩ := hrest hok
      refine ⟨htabs, fun a ha hout => ?_, fun k' hk' => ?_⟩
      · have hout' : ¬InRegions regions a := by
          rintro ⟨r', hr', hin⟩
          exact hout ⟨r', List.mem_cons_of_mem _ hr', hin⟩
        rw [hother a ha hout', hl.other a ha fun hin => hout ⟨r, List.mem_cons_self, hin⟩]
      · rcases List.mem_cons.mp hk' with rfl | hk'
        · refine ⟨r.1, r.2, hk, hle, fun j hj => ?_⟩
          rw [hother _ (by omega) (hasc.2.not_inRegions (by omega)), hl.range j hj]
        · exact hin k' hk'

theorem kmap_perm_lt {kdata : Nat} {k : Kmap} (h : k ∈ kmap kdata) : k.perm.toNat < pgSize := by
  have hwrite : pteW.toNat < pgSize := by decide
  have hread : (0 : Word).toNat < pgSize := by decide
  simp only [kmap, List.mem_cons, List.not_mem_nil, or_false] at h
  rcases h with rfl | rfl | rfl | rfl
  · exact hwrite
  · exact hread
  · exact hwrite
  · exact hwrite

theorem setupkvm_pages (hkdata : extMem < s.kdata * pgSize ∧ s.kdata * pgSize < physTop)
    (hnodup : s.free.Nodup) (hlt : ∀ f ∈ s.free, f < 2 ^ 20) (hlen : 65 ≤ s.free.length) :
    ∃ d s', setupkvm.run s = .ok (some d, s') ∧
      (∀ a < 2 ^ 20, ¬InRegions (kernelRegions s.kdata) a → s'.pageAt d a = none) ∧
      ∀ k ∈ kmap s.kdata, ∃ v n, KmapRegion k v n ∧ v + n ≤ 2 ^ 20 ∧ ∀ j, j < n →
        s'.pageAt d (v + j) = some (leafEntry (k.physStart + j * pgSize) k.perm) := by
  rcases setupkvm_spec hkdata hnodup hlt with ⟨hshort, -⟩ | ⟨d, rest, s', -, hfree, hrun, -⟩
  · omega
  · rw [hfree] at hnodup hlt
    have hk : 256 < s.kdata ∧ s.kdata < 57344 := by
      simp only [extMem, physTop, pgSize] at hkdata
      omega
    have hzero : ∀ i,
        (({ s with free := rest }.setPage d fun _ => 0).word d i).present = false := by
      intro i
      rw [setPage_word_self]
      exact present_zero
    have hempty : Tables ({ s with free := rest }.setPage d fun _ => 0) d := by
      refine ⟨?_, ?_, ?_, ⟨(List.nodup_cons.mp hnodup).2, (List.nodup_cons.mp hnodup).1,
        fun f hf => hlt f (List.mem_cons_of_mem d hf)⟩⟩
      · intro i j _ _ hi
        rw [hzero] at hi
        cases hi
      · intro i _ hi
        rw [hzero] at hi
        cases hi
      · intro i _ hi
        rw [hzero] at hi
        cases hi
    obtain ⟨ok, s'', hrun', hspec⟩ := hempty.mapKernel (kmap_regions hkdata)
      (kernelRegions_ascending hk) fun a _ _ => pageAt_of_absent (hzero _)
    have hwhole := run_setupkvm_cons hfree hrun'
    rw [hrun] at hwhole
    cases ok with
    | false => cases hwhole
    | true =>
      obtain ⟨-, hother, hin⟩ := hspec rfl
      refine ⟨d, s'', run_setupkvm_cons hfree hrun', fun a ha hout => ?_, hin⟩
      rw [hother a ha hout]
      exact pageAt_of_absent (hzero _)

end Range

/-- **Page tables.** Where the entries of the directory name different tables, `mappages` translates
its range as asked and leaves every other translation as it was; `setupkvm` translates the ranges of
`kmap` as listed and nothing below `KERNBASE`. -/
theorem mappages_setupkvm_translate :
    (∀ (s : Machine) (d va pa size : Nat) (perm : Word), Tables s d → va % pgSize = 0 →
      pa % pgSize = 0 → 0 < size → va + size ≤ 2 ^ 32 → perm.toNat < pgSize →
      (∀ o < size, s.translate d (va + o) = none) →
      (missingTables s d (va / pgSize) (npages size)).card ≤ s.free.length →
      ∃ s', (mappages d va size pa perm).run s = .ok (true, s') ∧
        (∀ o, o < npages size * pgSize →
          s'.translate d (va + o) = some ((pa + o) % 2 ^ 32, perm ||| pteP)) ∧
        ∀ x < 2 ^ 32, ¬(va ≤ x ∧ x < va + npages size * pgSize) →
          s'.translate d x = s.translate d x) ∧
    ∀ s : Machine, extMem < s.kdata * pgSize ∧ s.kdata * pgSize < physTop → s.free.Nodup →
      (∀ f ∈ s.free, f < 2 ^ 20) → 65 ≤ s.free.length →
      ∃ d s', setupkvm.run s = .ok (some d, s') ∧
        (∀ k ∈ kmap s.kdata, ∀ o, o < k.size →
          s'.translate d (k.virt + o) = some ((k.physStart + o) % 2 ^ 32, k.perm ||| pteP)) ∧
        ∀ x < kernBase, s'.translate d x = none := by
  constructor
  · intro s d va pa size perm h hva hpa hpos hend hperm hnone hroom
    obtain ⟨v, rfl⟩ : ∃ v, va = v * pgSize := ⟨va / pgSize, by simp only [pgSize] at *; omega⟩
    have hdiv : v * pgSize / pgSize = v := Nat.mul_div_cancel _ (by decide)
    rw [hdiv] at hroom
    have hclear : ∀ k < npages size, s.pageAt d (v + k) = none := by
      intro k hk
      have hlt : k * pgSize < size := by
        simp only [npages, pgSize] at *
        omega
      have hpage : (v * pgSize + k * pgSize) / pgSize = v + k := by
        rw [← Nat.add_mul]
        exact Nat.mul_div_cancel _ (by decide)
      have hwalk := hnone (k * pgSize) hlt
      rw [translate_eq (by omega), hpage, Option.map_eq_none_iff] at hwalk
      exact hwalk
    obtain ⟨ok, s', hrun, hlaid, hfail⟩ := h.mappages perm hpos hend hclear
    cases ok with
    | false => exact absurd (hfail rfl) (Nat.not_lt_of_le hroom)
    | true =>
      have hl := hlaid rfl
      refine ⟨s', hrun, fun o ho => ?_, fun x hx hout => ?_⟩
      · exact translate_range (by simp only [npages, pgSize] at *; omega) hpa hperm hl.range ho
      · have hpage : ¬(v ≤ x / pgSize ∧ x / pgSize < v + npages size) := by
          simp only [pgSize] at *
          omega
        rw [translate_eq hx, translate_eq hx,
          hl.other _ (by simp only [pgSize]; omega) hpage]
  · intro s hkdata hnodup hlt hlen
    obtain ⟨d, s', hrun, hother, hin⟩ := setupkvm_pages hkdata hnodup hlt hlen
    have hk : 256 < s.kdata ∧ s.kdata < 57344 := by
      simp only [extMem, physTop, pgSize] at hkdata
      omega
    refine ⟨d, s', hrun, fun k hkm o ho => ?_, fun x hx => ?_⟩
    · obtain ⟨v, n, hregion, hle, hpages⟩ := hin k hkm
      rw [hregion.size] at ho
      rw [hregion.virt]
      exact translate_range hle hregion.aligned (kmap_perm_lt hkm) hpages ho
    · have hpage : x / pgSize < 512 * 1024 := by
        simp only [kernBase, pgSize] at *
        omega
      rw [translate_eq (by simp only [kernBase] at hx; omega), hother _ (by omega)
        ((kernelRegions_ascending hk).not_inRegions hpage)]
      rfl

def stocked : Machine := { sparse with free := List.range' 3000 65 }

theorem stocked_tables : Tables stocked 20000 where
  injective i j _ _ hi hj _ := (sparse_dir hi).trans (sparse_dir hj).symm
  ne_dir i _ hi := by
    rw [sparse_dir hi]
    decide
  used i _ hi := by
    rw [sparse_dir hi]
    decide
  fresh := ⟨by decide, by decide, by decide⟩

theorem mappages_setupkvm_translate_stocked :
    (∃ s', (mappages 20000 0 5000 0x6000 pteW).run stocked = .ok (true, s') ∧
      s'.translate 20000 4100 = some (0x7004, pteW ||| pteP) ∧
      s'.translate 20000 0x400004 = stocked.translate 20000 0x400004) ∧
    ∃ d s', setupkvm.run stocked = .ok (some d, s') ∧ s'.translate d 0 = none ∧
      s'.translate d 0xFFFFFFFF = some (0xFFFFFFFF, pteW ||| pteP) := by
  have habsent : ∀ o < 5000, stocked.translate 20000 (0 + o) = none := by
    intro o ho
    have hdir : (0 + o) / pgSize / 1024 = 0 := by
      simp only [pgSize]
      omega
    have hzero : (stocked.word 20000 ((0 + o) / pgSize / 1024)).present = false := by
      rw [hdir]
      decide
    rw [translate_eq (by omega), pageAt_of_absent hzero]
    rfl
  have hroom : (missingTables stocked 20000 (0 / pgSize) (npages 5000)).card ≤
      stocked.free.length :=
    (Finset.card_filter_le _ _).trans (Finset.card_image_le.trans (by decide))
  constructor
  · obtain ⟨s', hrun, hrange, hother⟩ := mappages_setupkvm_translate.1 stocked 20000 0 0x6000 5000
      pteW stocked_tables (by decide) (by decide) (by decide) (by decide) (by decide) habsent hroom
    exact ⟨s', hrun, hrange 4100 (by decide), hother 0x400004 (by decide) (by decide)⟩
  · obtain ⟨d, s', hrun, hkmap, hlow⟩ := mappages_setupkvm_translate.2 stocked (by decide)
      (by decide) (by decide) (by decide)
    refine ⟨d, s', hrun, hlow 0 (by decide), ?_⟩
    exact hkmap ⟨devSpace, devSpace, 0, pteW⟩ (by simp [kmap]) 0x1FFFFFF (by decide)

def aliased : Machine :=
  { sparse with
    word := fun page i =>
      if page = 20000 ∧ i < 2 then mkEntry 20001 (pteP ||| pteW ||| pteU) else 0 }

/-- With a shared table the page 4 megabytes above is mapped too. -/
theorem mappages_shared_table : ∃ s',
    (mappages 20000 0 4096 0x6000 pteW).run aliased = .ok (true, s') ∧
    aliased.translate 20000 0 = none ∧ aliased.translate 20000 0x400000 = none ∧
    s'.translate 20000 0x400000 = some (0x6000, pteW ||| pteP) := by
  refine ⟨aliased.setWord 20001 0 (leafEntry 0x6000 pteW), ?_, by decide, by decide, by decide⟩
  rfl

end Xv6
