import Xv6.Proof.Freevm
import Xv6.Proof.PageTables
import Xv6.Proof.UserPages

/-!
# Copying and freeing an address space

`copyuvm` builds the copy from the free list: a directory, tables, and a frame for each page.
`freevm` takes it down in another order, frames first, then all tables, then the directory. `CopyOf`
says of every page taken so far what it has become, so that the pages given back are the pages
taken.
-/

namespace Xv6

structure InUse (s : Machine) (pgdir : Nat) : Prop where
  dir : pgdir ∉ s.free
  table : ∀ i < 512, (s.word pgdir i).present = true → s.tableAt pgdir i ∉ s.free
  frame : ∀ a < 2 ^ 19, s.MapsAt pgdir a → s.frameAt pgdir a ∉ s.free

def Source (s : Machine) (pgdir a : Nat) : Prop :=
  s.MapsAt pgdir a ∧ s.tableAt pgdir (a / 1024) ∉ s.free ∧ s.frameAt pgdir a ∉ s.free

structure Freeable (s0 : Machine) : Prop where
  kend : 0 < s0.kend
  range : ∀ f ∈ s0.free, s0.kend ≤ f ∧ f * pgSize < physTop

/-- The pages `taken` from the free list are the directory `d`, the tables `tabs` and the `frames`
of the first pages, copies of those of `pgdir`. -/
structure CopyOf (s0 t : Machine) (pgdir d : Nat) (taken tabs frames : List Nat) : Prop where
  free : s0.free = taken ++ t.free
  parts : taken.Perm (d :: (tabs ++ frames))
  tables : Tables t d
  named : ∀ g, g ∈ tabs ↔ ∃ i < 1024, (t.word d i).present = true ∧ t.tableAt d i = g
  pages : ∀ a < 2 ^ 19, t.pageAt d a =
    frames[a]?.map fun f => leafEntry (f * pgSize) (pteW ||| pteU)
  copy : ∀ a f, frames[a]? = some f → t.word f = s0.word (s0.frameAt pgdir a)
  other : ∀ g, g ∉ s0.free → t.word g = s0.word g
  kend : t.kend = s0.kend
  proc : t.proc = s0.proc

section Taking

variable {s s' : Machine} {d : Nat}

theorem Tables.takePage (h : Tables s d) {mem : Nat} {rest : List Nat}
    (hfree : s.free = mem :: rest)
    {content : Nat → Word} (hs' : s' = { s with free := rest }.setPage mem content) :
    Tables s' d ∧ s'.word d = s.word d ∧ ∀ a < 2 ^ 20, s'.pageAt d a = s.pageAt d a := by
  have hmem : mem ∈ s.free := by
    rw [hfree]
    exact List.mem_cons_self
  have hsub : ∀ f ∈ rest, f ∈ s.free := fun f hf => by
    rw [hfree]
    exact List.mem_cons_of_mem _ hf
  have hword : ∀ g ≠ mem, s'.word g = s.word g := by
    intro g hg
    rw [hs']
    exact Machine.setPage_word_of_ne _ _ hg
  have hrest : s'.free = rest := by
    rw [hs']
    rfl
  have hdir : s'.word d = s.word d := hword d fun heq => h.fresh.dir (heq ▸ hmem)
  have htable : ∀ i, s'.tableAt d i = s.tableAt d i := fun i => by
    rw [Machine.tableAt, hdir]
    rfl
  have hnodup := h.fresh.nodup
  rw [hfree, List.nodup_cons] at hnodup
  refine ⟨⟨?_, ?_, ?_, ⟨?_, ?_, ?_⟩⟩, hdir, fun a ha => ?_⟩
  · intro i j
    rw [hdir, htable, htable]
    exact h.injective i j
  · intro i
    rw [hdir, htable]
    exact h.ne_dir i
  · intro i hi hp
    rw [hdir] at hp
    rw [htable, hrest]
    exact fun hf => h.used i hi hp (hsub _ hf)
  · rw [hrest]
    exact hnodup.2
  · rw [hrest]
    exact fun hf => h.fresh.dir (hsub d hf)
  · rw [hrest]
    exact fun f hf => h.fresh.lt f (hsub f hf)
  · cases hp : (s.word d (a / 1024)).present with
    | false => rw [pageAt_of_absent hp, pageAt_of_absent (by rw [hdir]; exact hp)]
    | true =>
      have hne : s.tableAt d (a / 1024) ≠ mem := fun heq => h.used _ (by omega) hp (heq ▸ hmem)
      have hentry : s'.entryAt d a = s.entryAt d a := by
        rw [Machine.entryAt, htable, hword _ hne]
        rfl
      rw [pageAt_of_present hp, pageAt_of_present (by rw [hdir]; exact hp), hentry]

theorem PageMapped.extra {v : Nat} {w : Word} (h : PageMapped s s' d v w) (hv : v / 1024 < 1024)
    {tabs : List Nat}
    (hnamed : ∀ g, g ∈ tabs ↔ ∃ i < 1024, (s.word d i).present = true ∧ s.tableAt d i = g) :
    ∃ extra, s.free = extra ++ s'.free ∧ extra.length ≤ 1 ∧
      (∀ g, g ∈ tabs ++ extra ↔
        ∃ i < 1024, (s'.word d i).present = true ∧ s'.tableAt d i = g) ∧
      s'.tableAt d (v / 1024) ∈ tabs ++ extra := by
  rcases h.free with ⟨hpres, hsame⟩ | ⟨habsent, hcons⟩
  · have hiff : ∀ i, (s'.word d i).present = true ↔ (s.word d i).present = true := by
      intro i
      rw [h.present]
      exact ⟨fun hi => hi.elim id fun heq => heq ▸ hpres, .inl⟩
    refine ⟨[], by rw [hsame]; rfl, Nat.zero_le _, fun g => ?_, ?_⟩
    · rw [List.append_nil, hnamed]
      constructor
      · rintro ⟨i, hi, hp, rfl⟩
        exact ⟨i, hi, (hiff i).mpr hp, h.kept i hp⟩
      · rintro ⟨i, hi, hp, rfl⟩
        exact ⟨i, hi, (hiff i).mp hp, (h.kept i ((hiff i).mp hp)).symm⟩
    · rw [List.append_nil, h.kept _ hpres, hnamed]
      exact ⟨_, hv, hpres, rfl⟩
  · refine ⟨[s'.tableAt d (v / 1024)], hcons, Nat.le_refl _, fun g => ?_,
      List.mem_append_right _ List.mem_cons_self⟩
    rw [List.mem_append, List.mem_singleton, hnamed]
    constructor
    · rintro (⟨i, hi, hp, rfl⟩ | rfl)
      · exact ⟨i, hi, (h.present i).mpr (.inl hp), h.kept i hp⟩
      · exact ⟨_, hv, (h.present _).mpr (.inr rfl), rfl⟩
    · rintro ⟨i, hi, hp, rfl⟩
      rcases (h.present i).mp hp with hp | rfl
      · exact .inl ⟨i, hi, hp, (h.kept i hp).symm⟩
      · exact .inr rfl

end Taking

section Copying

variable {s0 t : Machine} {pgdir d : Nat} {taken tabs frames : List Nat}

theorem CopyOf.nodup (h : CopyOf s0 t pgdir d taken tabs frames) (hnodup : s0.free.Nodup) :
    (d :: (tabs ++ frames)).Nodup := by
  rw [h.free] at hnodup
  exact h.parts.nodup_iff.mp (List.nodup_append.mp hnodup).1

theorem CopyOf.mem_free (h : CopyOf s0 t pgdir d taken tabs frames) {g : Nat}
    (hg : g ∈ d :: (tabs ++ frames)) : g ∈ s0.free := by
  rw [h.free]
  exact List.mem_append_left _ (h.parts.mem_iff.mpr hg)

theorem pageAt_eq_some {a : Nat} {w : Word} :
    t.pageAt d a = some w ↔ t.MapsAt d a ∧ t.entryAt d a = w := by
  rw [Machine.pageAt, Machine.MapsAt, ← Bool.and_eq_true]
  split_ifs with h
  · simp [h]
  · simp [h]

theorem CopyOf.mapsAt_iff (h : CopyOf s0 t pgdir d taken tabs frames) {a : Nat} (ha : a < 2 ^ 19) :
    t.MapsAt d a ↔ a < frames.length := by
  constructor
  · intro hmaps
    have hpage := pageAt_eq_some.mpr ⟨hmaps, rfl⟩
    rw [h.pages a ha] at hpage
    obtain ⟨f, hf, -⟩ := Option.map_eq_some_iff.mp hpage
    exact (List.getElem?_eq_some_iff.mp hf).1
  · intro hlt
    have hpage := h.pages a ha
    rw [List.getElem?_eq_getElem hlt] at hpage
    exact (pageAt_eq_some.mp hpage).1

theorem CopyOf.frameAt (h : CopyOf s0 t pgdir d taken tabs frames)
    (hlt20 : ∀ f ∈ s0.free, f < 2 ^ 20) {a : Nat} (ha : a < 2 ^ 19) (hlt : a < frames.length) :
    t.frameAt d a = frames[a] := by
  have hpage := h.pages a ha
  rw [List.getElem?_eq_getElem hlt] at hpage
  have hmem : frames[a] ∈ s0.free := h.mem_free
    (List.mem_cons_of_mem _ (List.mem_append_right _ (List.getElem_mem hlt)))
  have hentry : t.entryAt d a = leafEntry (frames[a] * pgSize) (pteW ||| pteU) :=
    (pageAt_eq_some.mp hpage).2
  rw [Machine.frameAt, hentry, leafEntry, mkEntry_or]
  exact pteAddr_mkEntry_user (hlt20 _ hmem)

theorem Freeable.lt (hr : Freeable s0) {f : Nat} (hf : f ∈ s0.free) : f < 2 ^ 20 := by
  have hrange := (hr.range f hf).2
  simp only [pgSize, physTop] at hrange
  omega

theorem CopyOf.dirSound (h : CopyOf s0 t pgdir d taken tabs frames) (hnodup : s0.free.Nodup)
    (hr : Freeable s0) : DirSound t d := by
  have hframe : ∀ a < 2 ^ 19, t.MapsAt d a →
      ∃ hlt : a < frames.length, t.frameAt d a = frames[a] := fun a ha hmaps =>
    ⟨(h.mapsAt_iff ha).mp hmaps, h.frameAt (fun _ => hr.lt) ha ((h.mapsAt_iff ha).mp hmaps)⟩
  obtain ⟨hd, hall⟩ := List.nodup_cons.mp (h.nodup hnodup)
  obtain ⟨-, hframes, hdisj⟩ := List.nodup_append.mp hall
  refine ⟨by rw [h.kend]; exact hr.kend, h.tables.ne_dir, ?_, ?_, ?_, ?_⟩
  · intro i j hi hj hj' hpi hpj heq
    have := h.tables.injective i j (by omega) hj' hpi hpj heq
    omega
  · intro a ha hmaps
    obtain ⟨hlt, hf⟩ := hframe a ha hmaps
    have hmem : frames[a] ∈ frames := List.getElem_mem hlt
    have hrange := hr.range _ (h.mem_free (List.mem_cons_of_mem _ (List.mem_append_right _ hmem)))
    rw [hf, h.kend]
    refine ⟨fun heq => hd (heq ▸ List.mem_append_right _ hmem), fun i hi hp heq => ?_, hrange⟩
    exact hdisj _ ((h.named _).mpr ⟨i, hi, hp, rfl⟩) _ hmem heq.symm
  · intro a b ha hb hma hmb heq
    obtain ⟨hla, hfa⟩ := hframe a ha hma
    obtain ⟨hlb, hfb⟩ := hframe b hb hmb
    rw [hfa, hfb] at heq
    exact (List.Nodup.getElem_inj_iff hframes).mp heq
  · intro a ha hmaps hin
    obtain ⟨hlt, hf⟩ := hframe a ha hmaps
    rw [hf] at hin
    rw [h.free] at hnodup
    refine (List.nodup_append.mp hnodup).2.2 _ (h.parts.mem_iff.mpr ?_) _ hin rfl
    exact List.mem_cons_of_mem _ (List.mem_append_right _ (List.getElem_mem hlt))

theorem CopyOf.disposable (h : CopyOf s0 t pgdir d taken tabs frames) (hnodup : s0.free.Nodup)
    (hr : Freeable s0) : Disposable t d := by
  refine ⟨h.dirSound hnodup hr, ?_, fun i hi hp => ?_⟩
  · rw [h.kend]
    exact hr.range d (h.mem_free List.mem_cons_self)
  · rw [h.kend]
    exact hr.range _ (h.mem_free (List.mem_cons_of_mem _
      (List.mem_append_left _ ((h.named _).mpr ⟨i, hi, hp, rfl⟩))))

theorem CopyOf.owns (h : CopyOf s0 t pgdir d taken tabs frames) (hr : Freeable s0) {g : Nat}
    (hg : t.Owns d g) : g ∈ d :: (tabs ++ frames) := by
  rcases hg with rfl | hg | ⟨a, ha, hmaps, rfl⟩
  · exact List.mem_cons_self
  · exact List.mem_cons_of_mem _ (List.mem_append_left _ ((h.named g).mpr hg))
  · have hlt := (h.mapsAt_iff ha).mp hmaps
    rw [h.frameAt (fun _ => hr.lt) ha hlt]
    exact List.mem_cons_of_mem _ (List.mem_append_right _ (List.getElem_mem hlt))

structure CanGiveUp (s0 t : Machine) (d : Nat) : Prop where
  proc : t.proc = s0.proc
  kend : t.kend = s0.kend
  other : ∀ g, g ∉ s0.free → t.word g = s0.word g
  disposable : Disposable t d
  owns : ∀ g, t.Owns d g → g ∈ s0.free

theorem CopyOf.canGiveUp (h : CopyOf s0 t pgdir d taken tabs frames) (hnodup : s0.free.Nodup)
    (hr : Freeable s0) : CanGiveUp s0 t d :=
  ⟨h.proc, h.kend, h.other, h.disposable hnodup hr, fun _ hg => h.mem_free (h.owns hr hg)⟩

theorem CopyOf.canGiveUp_taken (h : CopyOf s0 t pgdir d taken tabs frames)
    (hnodup : s0.free.Nodup) (hr : Freeable s0) {mem : Nat} {rest : List Nat}
    (hfree : t.free = mem :: rest) (content : Nat → Word) :
    CanGiveUp s0 ({ t with free := rest }.setPage mem content) d := by
  have hmem : mem ∈ s0.free := by
    rw [h.free, hfree]
    exact List.mem_append_right _ List.mem_cons_self
  have hnot : ∀ g, t.Owns d g → g ≠ mem := by
    rintro g hg rfl
    rw [h.free, hfree] at hnodup
    exact (List.nodup_append.mp hnodup).2.2 g (h.parts.mem_iff.mpr (h.owns hr hg)) g
      List.mem_cons_self rfl
  have htables : SameTables t ({ t with free := rest }.setPage mem content) d :=
    ⟨Machine.setPage_word_of_ne _ _ (hnot d (.inl rfl)),
      fun i hi hp => Machine.setPage_word_of_ne _ _ (hnot _ (.inr (.inl ⟨i, hi, hp, rfl⟩)))⟩
  have hg := h.canGiveUp hnodup hr
  refine ⟨hg.proc, hg.kend, fun g hfresh => ?_, htables.disposable rfl (fun g hin => ?_)
    hg.disposable, fun g ho => hg.owns g ((htables.owns_iff g).mp ho)⟩
  · have hne : g ≠ mem := fun heq => hfresh (heq ▸ hmem)
    exact (Machine.setPage_word_of_ne _ _ hne).trans (hg.other g hfresh)
  · rw [hfree]
    exact List.mem_cons_of_mem mem hin

theorem CanGiveUp.run_freevm (h : CanGiveUp s0 t d) : ∃ t', (freevm d).run t = .ok ((), t') ∧
    t'.proc = s0.proc ∧ t'.kend = s0.kend ∧ ∀ g, g ∉ s0.free → t'.word g = s0.word g := by
  obtain ⟨t', -, hrun, hproc, hkend, hkeep, -⟩ := h.disposable.run_freevm
  refine ⟨t', hrun, hproc.trans h.proc, hkend.trans h.kend, fun g hg => ?_⟩
  rw [hkeep g fun ho => hg (h.owns g ho), h.other g hg]

theorem run_copyuvmPage {a : Nat} (ha : a < 2 ^ 20) (hmaps : t.MapsAt pgdir a) :
    (copyuvmPage d pgdir a).run t = (kalloc >>= fun
      | none => pure false
      | some mem => do
        copyPageOf mem (t.frameAt pgdir a)
        mappages d (a * pgSize) pgSize (mem * pgSize) (pteW ||| pteU)).run t := by
  have hwalk : walkPtr t pgdir (a * pgSize) = some (t.tableAt pgdir (a / 1024), a % 1024) := by
    rw [walkPtr, pdx_page ha, ptx_page, if_pos hmaps.1]
    rfl
  have hentry : (t.word (t.tableAt pgdir (a / 1024)) (a % 1024)).present = true := hmaps.2
  rw [copyuvmPage, Kernel.run_bind_of_ok (run_walkpgdir t _ _), hwalk]
  simp only [Kernel.run_get_bind, hentry, Bool.not_true, if_neg Bool.false_ne_true]
  rfl

theorem run_copyuvmPage_cons {a mem : Nat} {rest : List Nat} (ha : a < 2 ^ 20)
    (hmaps : t.MapsAt pgdir a) (hfree : t.free = mem :: rest) :
    (copyuvmPage d pgdir a).run t =
      (mappages d (a * pgSize) pgSize (mem * pgSize) (pteW ||| pteU)).run
      ({ t with free := rest }.setPage mem (t.word (t.frameAt pgdir a))) := by
  rw [run_copyuvmPage ha hmaps, Kernel.run_bind_of_ok (run_kalloc_cons hfree)]
  simp only [copyPageOf, Kernel.run_modify_bind]

theorem run_copyuvmPage_nil {a : Nat} (ha : a < 2 ^ 20) (hmaps : t.MapsAt pgdir a)
    (hfree : t.free = []) : (copyuvmPage d pgdir a).run t = .ok (false, t) := by
  rw [run_copyuvmPage ha hmaps, Kernel.run_bind_of_ok (run_kalloc_nil hfree), Kernel.run_pure]

theorem CopyOf.source (h : CopyOf s0 t pgdir d taken tabs frames) (hu : pgdir ∉ s0.free) {a : Nat}
    (hsrc : Source s0 pgdir a) : t.MapsAt pgdir a ∧
      t.frameAt pgdir a = s0.frameAt pgdir a ∧
      t.word (s0.frameAt pgdir a) = s0.word (s0.frameAt pgdir a) := by
  obtain ⟨hmaps, htab, hframe⟩ := hsrc
  have hdir := h.other pgdir hu
  have htable : t.tableAt pgdir (a / 1024) = s0.tableAt pgdir (a / 1024) := by
    rw [Machine.tableAt, hdir]
    rfl
  have hentry : t.entryAt pgdir a = s0.entryAt pgdir a := by
    rw [Machine.entryAt, htable, h.other _ htab]
    rfl
  refine ⟨?_, ?_, h.other _ hframe⟩
  · rw [Machine.MapsAt, hdir, hentry]
    exact hmaps
  · rw [Machine.frameAt, hentry]
    rfl

theorem getElem?_concat {α : Type} (l : List α) (x : α) (a : Nat) :
    (l ++ [x])[a]? = if a = l.length then some x else l[a]? := by
  by_cases ha : a = l.length
  · rw [if_pos ha, ha, List.getElem?_concat_length]
  · rw [if_neg ha]
    by_cases hlt : a < l.length
    · rw [List.getElem?_append_left hlt]
    · rw [List.getElem?_eq_none (by rw [List.length_append, List.length_singleton]; omega),
        List.getElem?_eq_none (by omega)]

theorem CopyOf.mapped (h : CopyOf s0 t pgdir d taken tabs frames) (hnodup : s0.free.Nodup)
    (ha : frames.length < 2 ^ 19) {mem : Nat} {rest : List Nat} (hfree : t.free = mem :: rest)
    {t1 t2 : Machine} (ht1 : { t with free := rest }.setPage mem
      (s0.word (s0.frameAt pgdir frames.length)) = t1)
    (hmap : PageMapped t1 t2 d frames.length (leafEntry (mem * pgSize) (pteW ||| pteU))) :
    ∃ extra, t.free = mem :: (extra ++ t2.free) ∧ extra.length ≤ 1 ∧
      CopyOf s0 t2 pgdir d (taken ++ mem :: extra) (tabs ++ extra) (frames ++ [mem]) := by
  obtain ⟨-, hdir1, hpages1⟩ := h.tables.takePage hfree ht1.symm
  have hnamed : ∀ g, g ∈ tabs ↔
      ∃ i < 1024, (t1.word d i).present = true ∧ t1.tableAt d i = g := by
    simp only [Machine.tableAt, hdir1]
    exact h.named
  obtain ⟨extra, hextra, hlen, htab, hmemtab⟩ := hmap.extra (by omega) hnamed
  have hextra' : rest = extra ++ t2.free := by
    rw [← hextra, ← ht1]
    rfl
  have htaken : s0.free = (taken ++ mem :: extra) ++ t2.free := by
    rw [h.free, hfree, hextra', List.append_assoc, List.cons_append]
  have hparts : (taken ++ mem :: extra).Perm (d :: ((tabs ++ extra) ++ (frames ++ [mem]))) := by
    refine (h.parts.append_right (mem :: extra)).trans ?_
    rw [List.cons_append, List.perm_cons, List.append_assoc, List.append_assoc]
    refine List.Perm.append_left tabs ?_
    rw [← List.singleton_append, ← List.append_assoc]
    exact List.perm_append_comm
  have hnew : (d :: ((tabs ++ extra) ++ (frames ++ [mem]))).Nodup := by
    rw [htaken] at hnodup
    exact hparts.nodup_iff.mp (List.nodup_append.mp hnodup).1
  obtain ⟨hd, hnew⟩ := List.nodup_cons.mp hnew
  obtain ⟨-, hframes, hdisj⟩ := List.nodup_append.mp hnew
  refine ⟨extra, by rw [hfree, hextra'], hlen, htaken, hparts, hmap.tables, htab, fun a halt => ?_,
    fun a f hf => ?_, fun g hg => ?_, ?_, ?_⟩
  · rw [hmap.pages a (by omega), hpages1 a (by omega), h.pages a halt, getElem?_concat]
    by_cases haf : a = frames.length
    · rw [if_pos haf, if_pos haf]
      rfl
    · rw [if_neg haf, if_neg haf]
  · -- a frame is neither the directory nor the table that was written
    have hmem := List.mem_of_getElem? hf
    have hkeep : t2.word f = t1.word f := by
      apply hmap.word
      · rintro rfl
        exact hd (List.mem_append_right _ hmem)
      · exact fun heq => hdisj _ hmemtab f hmem heq.symm
    rw [getElem?_concat] at hf
    rw [hkeep, ← ht1]
    by_cases haf : a = frames.length
    · rw [if_pos haf] at hf
      cases hf
      rw [haf, Machine.setPage_word_self]
    · rw [if_neg haf] at hf
      have hne : f ≠ mem := by
        rintro rfl
        exact (List.nodup_append.mp hframes).2.2 f (List.mem_of_getElem? hf) f
          List.mem_cons_self rfl
      rw [Machine.setPage_word_of_ne _ _ hne]
      exact h.copy a f hf
  · have hout : ∀ g', g' ∈ d :: ((tabs ++ extra) ++ (frames ++ [mem])) → g ≠ g' := by
      rintro g' hg' rfl
      rw [htaken] at hg
      exact hg (List.mem_append_left _ (hparts.mem_iff.mpr hg'))
    rw [hmap.word g (hout d List.mem_cons_self)
      (hout _ (List.mem_cons_of_mem _ (List.mem_append_left _ hmemtab))), ← ht1,
      Machine.setPage_word_of_ne _ _ (hout mem (by simp))]
    exact h.other g hg
  · rw [hmap.kend, ← ht1]
    exact h.kend
  · rw [hmap.proc, ← ht1]
    exact h.proc

theorem CopyOf.copyuvmPage (h : CopyOf s0 t pgdir d taken tabs frames) (hnodup : s0.free.Nodup)
    (hr : Freeable s0) (hu : pgdir ∉ s0.free) (ha : frames.length < 2 ^ 19)
    (hsrc : Source s0 pgdir frames.length) :
    ∃ ok t', (copyuvmPage d pgdir frames.length).run t = .ok (ok, t') ∧
      (ok = false → t.free.length < 2 ∧ CanGiveUp s0 t' d) ∧
      (ok = true → ∃ mem extra, t.free = mem :: (extra ++ t'.free) ∧ extra.length ≤ 1 ∧
        CopyOf s0 t' pgdir d (taken ++ mem :: extra) (tabs ++ extra) (frames ++ [mem])) := by
  obtain ⟨hmapst, hframe, hsource⟩ := h.source hu hsrc
  cases hfree : t.free with
  | nil =>
    exact ⟨false, t, run_copyuvmPage_nil (by omega) hmapst hfree,
      fun _ => ⟨by decide, h.canGiveUp hnodup hr⟩, fun hok => absurd hok Bool.false_ne_true⟩
  | cons mem rest =>
    rw [run_copyuvmPage_cons (by omega) hmapst hfree, hframe, hsource]
    generalize ht1 : { t with free := rest }.setPage mem
      (s0.word (s0.frameAt pgdir frames.length)) = t1
    obtain ⟨htabs1, -, hpages1⟩ := h.tables.takePage hfree ht1.symm
    have hnone : t1.pageAt d frames.length = none := by
      rw [hpages1 _ (by omega), h.pages _ ha, List.getElem?_eq_none (Nat.le_refl _)]
      rfl
    rcases htabs1.mapPage (by omega) hnone (mem * pgSize) (pteW ||| pteU) with
      ⟨hempty, -, hrun⟩ | ⟨t2, hrun, hmap⟩
    · refine ⟨false, t1, run_mappages_one ha hrun, fun _ => ⟨?_, ?_⟩,
        fun hok => absurd hok Bool.false_ne_true⟩
      · have hrest : rest = [] := by
          rw [← hempty, ← ht1]
          rfl
        rw [hrest]
        exact Nat.lt_succ_self 1
      · rw [← ht1]
        exact h.canGiveUp_taken hnodup hr hfree _
    · obtain ⟨extra, hextra, hlen, hnext⟩ := h.mapped hnodup ha hfree ht1 hmap
      rw [hfree] at hextra
      exact ⟨true, t2, run_mappages_one ha hrun, fun hok => absurd hok.symm Bool.false_ne_true,
        fun _ => ⟨mem, extra, hextra, hlen, hnext⟩⟩

theorem CopyOf.run_copyLoop (hnodup : s0.free.Nodup) (hr : Freeable s0) (hu : pgdir ∉ s0.free)
    (n : Nat) :
    ∀ {t : Machine} {taken tabs frames : List Nat}, CopyOf s0 t pgdir d taken tabs frames →
    frames.length + n ≤ 2 ^ 19 → (∀ b < frames.length + n, Source s0 pgdir b) →
    ∃ ok t', (Kernel.allM (List.range' frames.length n) (Xv6.copyuvmPage d pgdir)).run t =
        .ok (ok, t') ∧
      (2 * n ≤ t.free.length → ok = true) ∧ (ok = false → CanGiveUp s0 t' d) ∧
      (ok = true → ∃ taken' tabs' frames', frames'.length = frames.length + n ∧
        CopyOf s0 t' pgdir d taken' tabs' frames') := by
  induction n with
  | zero =>
    intro t taken tabs frames h _ _
    exact ⟨true, t, rfl, fun _ => rfl, fun hok => absurd hok.symm Bool.false_ne_true,
      fun _ => ⟨taken, tabs, frames, rfl, h⟩⟩
  | succ n ih =>
    intro t taken tabs frames h hend hsrc
    obtain ⟨ok, t1, hrun, hfail, hnext⟩ :=
      h.copyuvmPage hnodup hr hu (by omega) (hsrc _ (by omega))
    rw [List.range'_succ]
    cases ok with
    | false =>
      refine ⟨false, t1, Kernel.run_allM_cons_false hrun, fun hroom => ?_,
        fun _ => (hfail rfl).2, fun hok => absurd hok Bool.false_ne_true⟩
      have := (hfail rfl).1
      omega
    | true =>
      obtain ⟨mem, extra, hfree, hlen, h1⟩ := hnext rfl
      have hlength : (frames ++ [mem]).length = frames.length + 1 := by
        rw [List.length_append, List.length_singleton]
      obtain ⟨ok, t', hrun', hroom, hgive, hdone⟩ :=
        ih h1 (by omega) fun b hb => hsrc b (by omega)
      rw [hlength] at hrun'
      refine ⟨ok, t', (Kernel.run_allM_cons_true hrun).trans hrun', fun henough => hroom ?_,
        hgive, fun hok => ?_⟩
      · rw [hfree, List.length_cons, List.length_append] at henough
        omega
      · obtain ⟨taken', tabs', frames', hframes, h'⟩ := hdone hok
        exact ⟨taken', tabs', frames', by omega, h'⟩

theorem KernelDir.copyOf {rest : List Nat} {tabs : List (Nat × Nat)} (hnodup : s0.free.Nodup)
    (hlt : ∀ f ∈ s0.free, f < 2 ^ 20) (hfree : s0.free = d :: rest)
    (h : KernelDir { s0 with free := rest } t d tabs (2 ^ 20)) (pgdir : Nat) :
    CopyOf s0 t pgdir d (d :: tabs.map Prod.snd) (tabs.map Prod.snd) [] := by
  have htaken : rest = tabs.map Prod.snd ++ t.free := h.taken
  rw [hfree] at hnodup
  obtain ⟨hd, hrest⟩ := List.nodup_cons.mp hnodup
  have hf : FreshPages { s0 with free := rest } d :=
    ⟨hrest, hd, fun f hf => hlt f (by rw [hfree]; exact List.mem_cons_of_mem d hf)⟩
  have hindex : ∀ i < 1024, (t.word d i).present = true →
      ∃ e ∈ tabs, e.1 = i ∧ t.tableAt d i = e.2 := by
    intro i hi hpres
    have hmem : i ∈ tabs.map Prod.fst := by
      by_contra hnot
      rw [h.absent i hi hnot] at hpres
      exact absurd hpres (by decide)
    obtain ⟨e, he, rfl⟩ := List.mem_map.mp hmem
    exact ⟨e, he, rfl, (h.dir_entry hf he).2⟩
  have hsub : ∀ g ∈ t.free, g ∈ rest := fun g hg => by
    rw [htaken]
    exact List.mem_append_right _ hg
  have hsplit := hrest
  rw [htaken] at hsplit
  obtain ⟨-, hfresh, hdisj⟩ := List.nodup_append.mp hsplit
  refine ⟨by rw [hfree, htaken]; rfl, by rw [List.append_nil],
    ⟨?_, ?_, ?_, ⟨hfresh, fun hin => hd (hsub d hin), fun f hin => hf.lt f (hsub f hin)⟩⟩,
    fun g => ?_, fun a ha => ?_, fun a f hnone => ?_, fun g hg => ?_, ?_, ?_⟩
  · intro i j hi hj hpi hpj heq
    obtain ⟨e, he, rfl, htab⟩ := hindex i hi hpi
    obtain ⟨e', he', rfl, htab'⟩ := hindex j hj hpj
    rw [h.table_injective hf he he' (by rw [← htab, ← htab', heq])]
  · intro i hi hp
    obtain ⟨e, he, -, htab⟩ := hindex i hi hp
    rw [htab]
    exact h.ne_dir hf he
  · intro i hi hp hin
    obtain ⟨e, he, -, htab⟩ := hindex i hi hp
    rw [htab] at hin
    exact hdisj _ (List.mem_map_of_mem he) _ hin rfl
  · constructor
    · intro hg
      obtain ⟨e, he, rfl⟩ := List.mem_map.mp hg
      have hentry := h.dir_entry hf he
      exact ⟨e.1, (h.index e he).2, hentry.1, hentry.2⟩
    · rintro ⟨i, hi, hp, rfl⟩
      obtain ⟨e, he, -, htab⟩ := hindex i hi hp
      rw [htab]
      exact List.mem_map_of_mem he
  · rw [List.getElem?_nil]
    apply pageAt_of_absent
    by_contra hp
    rw [Bool.not_eq_false] at hp
    obtain ⟨e, he, hidx, -⟩ := hindex _ (by omega) hp
    have := (h.index e he).1
    omega
  · rw [List.getElem?_nil] at hnone
    cases hnone
  · rw [hfree, List.mem_cons, not_or] at hg
    exact h.other g hg.1 fun hin => hg.2 (by rw [htaken]; exact List.mem_append_left _ hin)
  · rw [h.rest]
  · rw [h.rest]

theorem CopyOf.run_freevm (h : CopyOf s0 t pgdir d taken tabs frames) (hnodup : s0.free.Nodup)
    (hr : Freeable s0) (hlen : frames.length ≤ 2 ^ 19) : ∃ t' returned,
      (freevm d).run t = .ok ((), t') ∧ t'.free = returned ++ t.free ∧ returned.Perm taken := by
  obtain ⟨t', pages, hrun, -, -, -, hpnodup, hpages, hfree⟩ := (h.disposable hnodup hr).run_freevm
  have hframes : (pages.map (t.frameAt d)).Perm frames := by
    have hperm : pages.Perm (List.range frames.length) := by
      apply (List.perm_ext_iff_of_nodup hpnodup List.nodup_range).mpr
      intro b
      rw [hpages, List.mem_range]
      exact ⟨fun hb => (h.mapsAt_iff hb.1).mp hb.2,
        fun hb => ⟨by omega, (h.mapsAt_iff (by omega)).mpr hb⟩⟩
    refine (hperm.map _).trans (List.Perm.of_eq ?_)
    apply List.ext_getElem
    · rw [List.length_map, List.length_range]
    · intro a ha ha'
      rw [List.getElem_map, List.getElem_range]
      exact h.frameAt (fun _ => hr.lt) (by omega) ha'
  have htabs : (((List.range npdEntries).filter fun i => (t.word d i).present).map
      (t.tableAt d)).Perm tabs := by
    have hmem : ∀ i, i ∈ (List.range npdEntries).filter (fun i => (t.word d i).present) ↔
        i < 1024 ∧ (t.word d i).present = true := by
      intro i
      rw [List.mem_filter, List.mem_range]
      rfl
    have hleft : (((List.range npdEntries).filter fun i => (t.word d i).present).map
        (t.tableAt d)).Nodup := by
      apply List.Nodup.map_on _ (List.nodup_range.filter _)
      intro i hi j hj heq
      rw [hmem] at hi hj
      exact h.tables.injective i j hi.1 hj.1 hi.2 hj.2 heq
    have hright : tabs.Nodup :=
      (List.nodup_append.mp (List.nodup_cons.mp (h.nodup hnodup)).2).1
    apply (List.perm_ext_iff_of_nodup hleft hright).mpr
    intro g
    rw [List.mem_map, h.named]
    constructor
    · rintro ⟨i, hi, rfl⟩
      exact ⟨i, ((hmem i).mp hi).1, ((hmem i).mp hi).2, rfl⟩
    · rintro ⟨i, hi, hp, rfl⟩
      exact ⟨i, (hmem i).mpr ⟨hi, hp⟩, rfl⟩
  exact ⟨t', _, hrun, hfree, (List.Perm.cons d (((List.reverse_perm _).trans htabs).append
    hframes)).trans h.parts.symm⟩

end Copying

/-- `copyuvm` makes a copy or gives up, and writes pages that were free only. With two pages for
each page and 65 for the directory and the kernel's tables it makes a copy. -/
theorem run_copyuvm {s0 : Machine}
    (hkdata : extMem < s0.kdata * pgSize ∧ s0.kdata * pgSize < physTop) (hnodup : s0.free.Nodup)
    (hr : Freeable s0) {pgdir sz : Nat} (hu : pgdir ∉ s0.free) (hsz : npages sz ≤ 2 ^ 19)
    (hsrc : ∀ b < npages sz, Source s0 pgdir b) :
    ∃ r t, (copyuvm pgdir sz).run s0 = .ok (r, t) ∧ t.proc = s0.proc ∧ t.kend = s0.kend ∧
      (∀ g, g ∉ s0.free → t.word g = s0.word g) ∧
      (∀ d, r = some d → ∃ taken tabs frames,
        frames.length = npages sz ∧ CopyOf s0 t pgdir d taken tabs frames) ∧
      (65 + 2 * npages sz ≤ s0.free.length → ∃ d, r = some d) := by
  rcases setupkvm_spec hkdata hnodup (fun _ => hr.lt) with
    ⟨hshort, t, hrun, hproc, hkend, hword⟩ | ⟨d, rest, t, ktabs, hfree, hrun, hkdir, -, hcount⟩
  · refine ⟨none, t, ?_, hproc, hkend, hword, nofun, fun hroom => by omega⟩
    rw [copyuvm, Kernel.run_bind_of_ok hrun]
    simp only [Kernel.run_pure]
  · obtain ⟨ok, t', hloop, hroom, hgive, hdone⟩ := CopyOf.run_copyLoop hnodup hr hu (npages sz)
      (hkdir.copyOf hnodup (fun _ => hr.lt) hfree pgdir)
      (by rw [List.length_nil]; omega) (fun b hb => hsrc b (by rw [List.length_nil] at hb; omega))
    rw [List.length_nil, ← List.range_eq_range'] at hloop
    have hstart : (copyuvm pgdir sz).run s0 = (if ok then pure (some d) else do
        freevm d
        pure none : Kernel Machine (Option Nat)).run t' := by
      rw [copyuvm, Kernel.run_bind_of_ok hrun]
      simp only
      rw [Kernel.run_bind_of_ok hloop]
    cases ok with
    | true =>
      obtain ⟨taken, tabs, frames, hlen, h⟩ := hdone rfl
      rw [List.length_nil, Nat.zero_add] at hlen
      refine ⟨some d, t', hstart, h.proc, h.kend, h.other, fun d' hd => ?_, fun _ => ⟨d, rfl⟩⟩
      cases hd
      exact ⟨taken, tabs, frames, hlen, h⟩
    | false =>
      obtain ⟨t'', hfreevm, hproc, hkend, hword⟩ := (hgive rfl).run_freevm
      refine ⟨none, t'', ?_, hproc, hkend, hword, nofun, fun henough => ?_⟩
      · rw [hstart, if_neg Bool.false_ne_true, Kernel.run_bind_of_ok hfreevm, Kernel.run_pure]
      · have htaken : rest = ktabs.map Prod.snd ++ t.free := hkdir.taken
        rw [hfree, List.length_cons, htaken, List.length_append, List.length_map] at henough
        exact absurd (hroom (by omega)) Bool.false_ne_true

theorem InUse.source {s : Machine} {pgdir a : Nat} (hu : InUse s pgdir) (ha : a < 2 ^ 19)
    (hmaps : s.MapsAt pgdir a) : Source s pgdir a :=
  ⟨hmaps, hu.table _ (by omega) hmaps.1, hu.frame a ha hmaps⟩

/-- **Copy and free.** When `copyuvm` succeeds, the new directory maps the pages below the size, and
only these, to frames that the old one does not map and that hold the same bytes. What was in use is
unchanged, the old directory with it. `freevm` of the copy gives back the pages taken, each once. -/
theorem copyuvm_freevm {s t : Machine} {pgdir sz d : Nat}
    (hkdata : extMem < s.kdata * pgSize ∧ s.kdata * pgSize < physTop) (hnodup : s.free.Nodup)
    (hr : Freeable s) (hu : InUse s pgdir) (hsz : sz ≤ kernBase)
    (hsrc : ∀ b < npages sz, s.MapsAt pgdir b)
    (hrun : (copyuvm pgdir sz).run s = .ok (some d, t)) :
    (∀ a < npages sz, t.MapsAt d a ∧
      (∀ b < 2 ^ 19, s.MapsAt pgdir b → t.frameAt d a ≠ s.frameAt pgdir b) ∧
      t.word (t.frameAt d a) = s.word (s.frameAt pgdir a)) ∧
    (∀ g, g ∉ s.free → t.word g = s.word g) ∧
    (∀ a < 2 ^ 19, npages sz ≤ a → ¬t.MapsAt d a) ∧
    ∃ t' taken returned, s.free = taken ++ t.free ∧ (freevm d).run t = .ok ((), t') ∧
      t'.free = returned ++ t.free ∧ returned.Perm taken := by
  have hpages : npages sz ≤ 2 ^ 19 := by
    simp only [npages, kernBase, pgSize] at *
    omega
  obtain ⟨r, t1, hrun1, -, -, -, hcopy, -⟩ := run_copyuvm hkdata hnodup hr hu.dir hpages
    fun b hb => hu.source (by omega) (hsrc b hb)
  rw [hrun] at hrun1
  cases hrun1
  obtain ⟨taken, tabs, frames, hlen, h⟩ := hcopy d rfl
  refine ⟨fun a ha => ?_, h.other, fun a ha hle hmaps => ?_, ?_⟩
  · have hlt : a < frames.length := by omega
    have hframe := h.frameAt (fun _ => hr.lt) (by omega) hlt
    rw [hframe]
    refine ⟨(h.mapsAt_iff (by omega)).mpr hlt, fun b hb hmaps heq => ?_,
      h.copy a _ (List.getElem?_eq_getElem hlt)⟩
    apply hu.frame b hb hmaps
    rw [← heq]
    exact h.mem_free (List.mem_cons_of_mem _ (List.mem_append_right _ (List.getElem_mem hlt)))
  · have := (h.mapsAt_iff ha).mp hmaps
    omega
  · obtain ⟨t', returned, hfree, hback, hperm⟩ := h.run_freevm hnodup hr (by omega)
    exact ⟨t', taken, returned, h.free, hfree, hback, hperm⟩

def twoPages : Machine :=
  { sparse with
    word := fun page i =>
      if page = 20000 ∧ i = 0 then mkEntry 20001 (pteP ||| pteW ||| pteU)
      else if page = 20001 ∧ i = 0 then mkEntry 20002 (pteP ||| pteW ||| pteU)
      else if page = 20001 ∧ i = 1 then mkEntry 20003 (pteP ||| pteW ||| pteU)
      else if page = 20002 then 7
      else if page = 20003 then 8
      else 0
    free := List.range' 3000 69 }

theorem twoPages_dir {i : Nat} (h : (twoPages.word 20000 i).present = true) : i = 0 := by
  by_contra hi
  rw [twoPages] at h
  simp only [hi, and_false, false_and, if_false, Nat.reduceEqDiff] at h
  exact absurd h (by decide)

theorem twoPages_mapsAt {a : Nat} (h : twoPages.MapsAt 20000 a) : a < 2 := by
  have hdir := twoPages_dir h.1
  have htab : twoPages.tableAt 20000 (a / 1024) = 20001 := by
    rw [hdir]
    decide
  have hpres := h.2
  rw [Machine.entryAt, htab] at hpres
  by_contra hne
  have hfirst : a % 1024 ≠ 0 := by omega
  have hsecond : a % 1024 ≠ 1 := by omega
  rw [twoPages] at hpres
  simp only [hfirst, hsecond, and_false, if_false, Nat.reduceEqDiff] at hpres
  exact absurd hpres (by decide)

theorem twoPages_inUse : InUse twoPages 20000 where
  dir := by decide
  table i _ h := by
    rw [twoPages_dir h]
    decide
  frame a _ h := by
    have hlt := twoPages_mapsAt h
    obtain rfl | rfl : a = 0 ∨ a = 1 := by omega
    · decide
    · decide

theorem copyuvm_freevm_twoPages : ∃ d t t', (copyuvm 20000 8192).run twoPages = .ok (some d, t) ∧
    t.word (t.frameAt d 0) 5 = 7 ∧ t.word (t.frameAt d 1) 5 = 8 ∧ (freevm d).run t = .ok ((), t') ∧
    t'.free.Perm twoPages.free := by
  have hr : Freeable twoPages := ⟨by decide, by decide⟩
  have hkdata : extMem < twoPages.kdata * pgSize ∧ twoPages.kdata * pgSize < physTop := by decide
  have hsrc : ∀ b < npages 8192, twoPages.MapsAt 20000 b := by
    intro b hb
    have hlt : b < 2 := hb
    obtain rfl | rfl : b = 0 ∨ b = 1 := by omega
    · constructor <;> decide
    · constructor <;> decide
  obtain ⟨r, t, hrun, -, -, -, -, henough⟩ := run_copyuvm hkdata (by decide) hr twoPages_inUse.dir
    (by decide) fun b hb => twoPages_inUse.source (hb.trans (by decide)) (hsrc b hb)
  obtain ⟨d, rfl⟩ := henough (by decide)
  obtain ⟨hpages, -, -, t', taken, returned, hfree, hback, hfree', hperm⟩ :=
    copyuvm_freevm hkdata (by decide) hr twoPages_inUse (by decide) hsrc hrun
  refine ⟨d, t, t', hrun, ?_, ?_, hback, ?_⟩
  · rw [(hpages 0 (by decide)).2.2]
    decide
  · rw [(hpages 1 (by decide)).2.2]
    decide
  · rw [hfree, hfree']
    exact hperm.append_right _

end Xv6
