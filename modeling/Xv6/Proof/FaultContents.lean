import Xv6.Proof.CopyOnWrite

/-!
# Serving a fault keeps the contents of memory

`copypage` replaces a table or a page by a copy of it, or sets a write bit. However directories,
tables and pages are shared, and whatever level of sharing `isshared` reports, every process finds
the same bytes at its addresses afterwards. All that is used is that a page of memory is of one
kind: it is free, or a directory, or a page table, or a page of user memory.
-/

namespace Xv6

open Machine

inductive PageKind
  | free
  | dir
  | table
  | page
  | other
  deriving DecidableEq

namespace Machine

def mapped (s : Machine) (p : Fin nproc) (a : Nat) : Prop :=
  (s.pde p (a / 1024)).present = true ∧ (s.pte p a).present = true

def byteAt (s : Machine) (p : Fin nproc) (va : Nat) : Option (BitVec 8) :=
  if (s.pde p (va / 2 ^ 22)).present && (s.pte p (va / pgSize)).present then
    some ((s.word (s.frame p (va / pgSize)) (va % pgSize / 4)).getByte (va % 4))
  else none

end Machine

theorem Space.mapped_iff {s : Machine} {role : Nat → Role} {p : Fin nproc} (h : Space s role p)
    {a : Nat} (ha : a < 2 ^ 19) : s.mapped p a ↔ a < s.pages p := by
  constructor
  · intro hmap
    have htab : a / 1024 < s.tables p := by
      by_contra hout
      have habsent := h.noTable (a / 1024) (by omega) (by omega)
      rw [hmap.1] at habsent
      cases habsent
    by_contra hpage
    have habsent := h.noPage a (by omega) htab
    rw [hmap.2] at habsent
    cases habsent
  · exact fun hpage => ⟨h.pde_present hpage, (h.page a hpage).1⟩

/-- Pages of memory are of one kind each. Processes of `H` have directories of their own; tables and
pages may be shared in any way. -/
structure Sorted (s : Machine) (kind : Nat → PageKind) (H : Fin nproc → Prop) : Prop where
  nodup : s.free.Nodup
  free : ∀ f ∈ s.free, kind f = .free ∧ f < 2 ^ 20
  dir : ∀ p, H p → kind (s.proc p).pgdir = .dir
  own : ∀ p q, H p → H q → (s.proc p).pgdir = (s.proc q).pgdir → p = q
  table : ∀ p, H p → ∀ i < 1024, (s.pde p i).present = true → kind (s.tab p i) = .table
  page : ∀ p, H p → ∀ a < 2 ^ 19, s.mapped p a → kind (s.frame p a) = .page

structure Kept (H : Fin nproc → Prop) (cur : Fin nproc) (s s' : Machine) : Prop where
  pages : ∀ p, H p → ∀ a < 2 ^ 19, s.mapped p a →
    s'.mapped p a ∧ s'.word (s'.frame p a) = s.word (s.frame p a)
  dirs : ∀ p, H p → p ≠ cur → ∀ i < 1024, s'.pde p i = s.pde p i

section Steps

variable {s s' : Machine} {kind : Nat → PageKind} {H : Fin nproc → Prop} {cur : Fin nproc}

theorem Kept.trans {s1 : Machine} (h : Kept H cur s s1) (h' : Kept H cur s1 s') :
    Kept H cur s s' where
  pages p hp a ha hmap := by
    obtain ⟨hmap1, hword1⟩ := h.pages p hp a ha hmap
    obtain ⟨hmap2, hword2⟩ := h'.pages p hp a ha hmap1
    exact ⟨hmap2, hword2.trans hword1⟩
  dirs p hp hne i hi := (h'.dirs p hp hne i hi).trans (h.dirs p hp hne i hi)

theorem page_lt_of_lt_kernBase {va : Nat} (hva : va < kernBase) : va / pgSize < 2 ^ 19 := by
  simp only [kernBase, pgSize] at *
  omega

theorem Kept.byteAt (h : Kept H cur s s') {p : Fin nproc} (hp : H p) {va : Nat}
    (hva : va < kernBase) {b : BitVec 8} (hb : s.byteAt p va = some b) :
    s'.byteAt p va = some b := by
  have hidx := div_pgSize_div_1024 va
  have ha := page_lt_of_lt_kernBase hva
  rw [Machine.byteAt] at hb
  split at hb
  · rename_i hpres
    rw [Bool.and_eq_true, ← hidx] at hpres
    obtain ⟨hmap, hword⟩ := h.pages p hp _ ha hpres
    rw [mapped, hidx] at hmap
    rw [Machine.byteAt, hmap.1, hmap.2, hword]
    exact hb
  · cases hb

structure Untouched (H : Fin nproc → Prop) (s s' : Machine) : Prop where
  pde : ∀ p, H p → ∀ i, s'.pde p i = s.pde p i
  pte : ∀ p, H p → ∀ a, a / 1024 < 1024 → (s.pde p (a / 1024)).present = true →
    s'.pte p a = s.pte p a
  word : ∀ p, H p → ∀ a < 2 ^ 19, s.mapped p a → s'.word (s.frame p a) = s.word (s.frame p a)

theorem Sorted.untouched (hS : Sorted s kind H) {P : Nat → Prop}
    (hproc : ∀ p, H p → (s'.proc p).pgdir = (s.proc p).pgdir)
    (hword : ∀ g, ¬P g → s'.word g = s.word g)
    (hP : ∀ g, P g → kind g = .free ∨ kind g = .other) : Untouched H s s' := by
  have hnot : ∀ g, kind g ≠ .free → kind g ≠ .other → s'.word g = s.word g := fun g h1 h2 =>
    hword g fun hg => (hP g hg).elim h1 h2
  have hpde : ∀ p, H p → ∀ i, s'.pde p i = s.pde p i := by
    intro p hp i
    rw [pde, hproc p hp, hnot _ (by rw [hS.dir p hp]; decide) (by rw [hS.dir p hp]; decide)]
    rfl
  refine ⟨hpde, fun p hp a ha hpres => ?_, fun p hp a ha hmap => ?_⟩
  · have hkind := hS.table p hp _ ha hpres
    rw [Machine.pte, Machine.tab, hpde p hp, ← Machine.tab,
      hnot _ (by rw [hkind]; decide) (by rw [hkind]; decide)]
    rfl
  · have hkind := hS.page p hp a ha hmap
    exact hnot _ (by rw [hkind]; decide) (by rw [hkind]; decide)

theorem Untouched.mapped (h : Untouched H s s') {p : Fin nproc} (hp : H p) {a : Nat}
    (ha : a / 1024 < 1024) : s'.mapped p a ↔ s.mapped p a := by
  rw [Machine.mapped, Machine.mapped, h.pde p hp]
  refine and_congr_right fun hpres => ?_
  rw [h.pte p hp a ha hpres]

theorem Untouched.frame (h : Untouched H s s') {p : Fin nproc} (hp : H p) {a : Nat}
    (ha : a / 1024 < 1024) (hmap : s.mapped p a) : s'.frame p a = s.frame p a := by
  rw [Machine.frame, h.pte p hp a ha hmap.1, ← Machine.frame]

theorem Untouched.kept (h : Untouched H s s') : Kept H cur s s' where
  pages p hp a ha hmap := by
    have hlt : a / 1024 < 1024 := by omega
    refine ⟨(h.mapped hp hlt).mpr hmap, ?_⟩
    rw [h.frame hp hlt hmap, h.word p hp a ha hmap]
  dirs p hp _ i _ := h.pde p hp i

theorem Sorted.head (hS : Sorted s kind H) {f : Nat} {rest : List Nat}
    (hfree : s.free = f :: rest) : kind f = .free ∧ f < 2 ^ 20 :=
  hS.free f (by rw [hfree]; exact List.mem_cons_self)

theorem Sorted.alloc (hS : Sorted s kind H) {f : Nat} {rest : List Nat}
    (hfree : s.free = f :: rest) (content : Nat → Word) (r : PageKind) :
    Sorted ({ s with free := rest }.setPage f content) (Function.update kind f r) H ∧
      Untouched H s ({ s with free := rest }.setPage f content) := by
  have hkind := (hS.head hfree).1
  have hun : Untouched H s ({ s with free := rest }.setPage f content) :=
    hS.untouched (P := fun g => g = f) (fun _ _ => rfl)
      (fun g hg => setPage_word_of_ne _ _ hg) (by rintro _ rfl; exact Or.inl hkind)
  have hnodup := hS.nodup
  rw [hfree, List.nodup_cons] at hnodup
  have hold : ∀ g, kind g ≠ .free → Function.update kind f r g = kind g := fun g hg =>
    Function.update_of_ne (by rintro rfl; exact hg hkind) _ _
  refine ⟨⟨hnodup.2, fun g hg => ?_, fun p hp => ?_, hS.own, fun p hp i hi hpres => ?_,
    fun p hp a ha hmap => ?_⟩, hun⟩
  · have hmem : g ∈ s.free := by rw [hfree]; exact List.mem_cons_of_mem f hg
    rw [Function.update_of_ne (by rintro rfl; exact hnodup.1 hg)]
    exact hS.free g hmem
  · have hdir := hS.dir p hp
    exact (hold _ (ne_of_eq_of_ne hdir (by decide))).trans hdir
  · rw [hun.pde p hp] at hpres
    have htab := hS.table p hp i hi hpres
    rw [tab, hun.pde p hp, ← tab, hold _ (by rw [htab]; decide), htab]
  · rw [hun.mapped hp (by omega)] at hmap
    have hpage := hS.page p hp a ha hmap
    rw [hun.frame hp (by omega) hmap, hold _ (by rw [hpage]; decide), hpage]

theorem Sorted.replaceTable (hS : Sorted s kind H) (hcur : H cur) {i t : Nat}
    (hpres : (s.pde cur i).present = true) (ht : kind t = .table) (hlt : t < 2 ^ 20)
    (hcopy : s.word t = s.word (s.tab cur i)) :
    Sorted (s.setWord (s.proc cur).pgdir i (mkEntry t (pteW ||| pteU ||| pteP))) kind H ∧
      Kept H cur s (s.setWord (s.proc cur).pgdir i (mkEntry t (pteW ||| pteU ||| pteP))) := by
  set s' := s.setWord (s.proc cur).pgdir i (mkEntry t (pteW ||| pteU ||| pteP)) with hs'
  have hword : ∀ g ≠ (s.proc cur).pgdir, s'.word g = s.word g := fun g hg =>
    setWord_word_of_ne _ _ _ hg
  have hother : ∀ p, H p → p ≠ cur → ∀ j, s'.pde p j = s.pde p j := by
    intro p hp hne j
    exact congrFun (hword _ fun heq => hne (hS.own p cur hp hcur heq)) j
  have hself : s'.pde cur i = mkEntry t (pteW ||| pteU ||| pteP) :=
    setWord_word_self _ _ _ _
  have hindex : ∀ j ≠ i, s'.pde cur j = s.pde cur j := fun j hj =>
    setWord_word_index _ _ _ _ hj _
  -- an entry is present as before, and its table is of the same kind and has the same contents
  have htab : ∀ p, H p → ∀ j, (s'.pde p j).present = (s.pde p j).present ∧
      (j < 1024 → (s.pde p j).present = true →
        kind (s'.tab p j) = .table ∧ s.word (s'.tab p j) = s.word (s.tab p j)) := by
    intro p hp j
    by_cases hij : p = cur ∧ j = i
    · obtain ⟨rfl, rfl⟩ := hij
      have haddr : s'.tab p j = t := by rw [tab, hself, pteAddr_mkEntry_user hlt]
      rw [hself, present_mkEntry, hpres, haddr]
      exact ⟨rfl, fun _ _ => ⟨ht, hcopy⟩⟩
    · have heq : s'.pde p j = s.pde p j := by
        by_cases hp' : p = cur
        · subst hp'
          exact hindex j fun h => hij ⟨rfl, h⟩
        · exact hother p hp hp' j
      rw [heq, tab, heq]
      exact ⟨rfl, fun hj hpr => ⟨hS.table p hp j hj hpr, rfl⟩⟩
  have hpte : ∀ p, H p → ∀ a, a / 1024 < 1024 → (s.pde p (a / 1024)).present = true →
      s'.pte p a = s.pte p a := by
    intro p hp a ha hpr
    obtain ⟨hkind, hsame⟩ := (htab p hp (a / 1024)).2 ha hpr
    have hne : s'.tab p (a / 1024) ≠ (s.proc cur).pgdir := by
      intro heq
      rw [heq, hS.dir cur hcur] at hkind
      cases hkind
    rw [pte, hword _ hne, hsame]
    rfl
  have hmapped : ∀ p, H p → ∀ a < 2 ^ 19, (s'.mapped p a ↔ s.mapped p a) := by
    intro p hp a ha
    rw [mapped, mapped, (htab p hp _).1]
    refine and_congr_right fun hpr => ?_
    rw [hpte p hp a (by omega) hpr]
  have hframe : ∀ p, H p → ∀ a < 2 ^ 19, s.mapped p a → s'.frame p a = s.frame p a := by
    intro p hp a ha hmap
    rw [frame, hpte p hp a (by omega) hmap.1, ← frame]
  refine ⟨⟨hS.nodup, hS.free, hS.dir, hS.own, fun p hp j hj hpr => ?_, fun p hp a ha hmap => ?_⟩,
    ⟨fun p hp a ha hmap => ⟨(hmapped p hp a ha).mpr hmap, ?_⟩,
      fun p hp hne j _ => hother p hp hne j⟩⟩
  · rw [(htab p hp j).1] at hpr
    exact ((htab p hp j).2 hj hpr).1
  · rw [hmapped p hp a ha] at hmap
    rw [hframe p hp a ha hmap]
    exact hS.page p hp a ha hmap
  · rw [hframe p hp a ha hmap, hword]
    intro heq
    have hkind := hS.page p hp a ha hmap
    rw [heq, hS.dir cur hcur] at hkind
    cases hkind

theorem Sorted.setEntry (hS : Sorted s kind H) (cur : Fin nproc) {t j : Nat} {e : Word}
    (ht : kind t = .table) (hold : (s.word t j).present = true) (hnew : e.present = true)
    (hkind : kind (pteAddr (s.word t j)) = .page → kind (pteAddr e) = .page)
    (hcopy : s.word (pteAddr e) = s.word (pteAddr (s.word t j))) :
    Sorted (s.setWord t j e) kind H ∧ Kept H cur s (s.setWord t j e) := by
  set s' := s.setWord t j e with hs'
  have hword : ∀ g, kind g ≠ .table → s'.word g = s.word g := fun g hg =>
    setWord_word_of_ne _ _ _ (by rintro rfl; exact hg ht)
  have hpde : ∀ p, H p → ∀ i, s'.pde p i = s.pde p i := fun p hp i =>
    congrFun (hword _ (ne_of_eq_of_ne (hS.dir p hp) (by decide))) i
  have htab : ∀ p, H p → ∀ i, s'.tab p i = s.tab p i := fun p hp i => by
    rw [tab, hpde p hp, ← tab]
  -- an entry of a table is the one that was stored, or as before
  have hentry : ∀ g i, s'.word g i = s.word g i ∨
      g = t ∧ i = j ∧ s'.word g i = e ∧ s.word g i = s.word t j := by
    intro g i
    by_cases hg : g = t
    · by_cases hi : i = j
      · rw [hg, hi]
        exact Or.inr ⟨rfl, rfl, setWord_word_self _ _ _ _, rfl⟩
      · exact Or.inl (setWord_word_index _ _ _ _ hi _)
    · exact Or.inl (congrFun (setWord_word_of_ne _ _ _ hg) i)
  have hpte : ∀ p, H p → ∀ a, s'.pte p a = s.pte p a ∨
      s'.pte p a = e ∧ s.pte p a = s.word t j := by
    intro p hp a
    rw [pte, htab p hp]
    rcases hentry (s.tab p (a / 1024)) (a % 1024) with h | ⟨-, -, h1, h2⟩
    · exact Or.inl h
    · exact Or.inr ⟨h1, h2⟩
  have hmapped : ∀ p, H p → ∀ a, (s'.mapped p a ↔ s.mapped p a) := by
    intro p hp a
    rw [mapped, mapped, hpde p hp]
    refine and_congr_right fun _ => ?_
    rcases hpte p hp a with h | ⟨h1, h2⟩
    · rw [h]
    · rw [h1, h2, hnew, hold]
  refine ⟨⟨hS.nodup, hS.free, hS.dir, hS.own, fun p hp i hi hpr => ?_, fun p hp a ha hmap => ?_⟩,
    ⟨fun p hp a ha hmap => ⟨(hmapped p hp a).mpr hmap, ?_⟩, fun p hp _ i _ => hpde p hp i⟩⟩
  · rw [hpde p hp] at hpr
    rw [htab p hp]
    exact hS.table p hp i hi hpr
  · rw [hmapped p hp] at hmap
    have hpage := hS.page p hp a ha hmap
    rcases hpte p hp a with h | ⟨h1, h2⟩
    · rw [frame, h]
      exact hpage
    · rw [frame, h2] at hpage
      rw [frame, h1]
      exact hkind hpage
  · have hpage := hS.page p hp a ha hmap
    rcases hpte p hp a with h | ⟨h1, h2⟩
    · rw [frame, h, ← frame]
      exact hword _ (by rw [hpage]; decide)
    · rw [frame, h2] at hpage
      rw [frame, h1, frame, h2, ← hcopy]
      exact hword _ (by rw [hkind hpage]; decide)

end Steps

/-- The machine after a fault at `va` was served, by the level of sharing found. -/
inductive Copied (s : Machine) (cur : Fin nproc) (va : Nat) : Machine → Prop
  | nothing (hlevel : isshared s cur va = some .nothing)
      (hpres : (s.pde cur (va / pgSize / 1024)).present = true) :
      Copied s cur va (s.setWord (s.tab cur (va / pgSize / 1024)) (va / pgSize % 1024)
        (s.pte cur (va / pgSize) ||| pteW))
  | frame {f : Nat} {rest : List Nat} (hlevel : isshared s cur va = some .frame)
      (hmap : s.mapped cur (va / pgSize)) (hfree : s.free = f :: rest) :
      Copied s cur va (s.withFrame cur (va / pgSize) f rest)
  | table {t f : Nat} {rest : List Nat} (hlevel : isshared s cur va = some .table)
      (hmap : s.mapped cur (va / pgSize)) (hfree : s.free = t :: f :: rest) :
      Copied s cur va
        ((s.withTable cur (va / pgSize / 1024) t (f :: rest)).withFrame cur (va / pgSize) f rest)

section Copypage

variable {s s' : Machine} {kind : Nat → PageKind} {H : Fin nproc → Prop} {cur : Fin nproc}
variable {va : Nat}

/-- What the walk to the page `a` of `cur` goes through is not free. -/
structure Reach (s : Machine) (cur : Fin nproc) (a : Nat) : Prop where
  nodup : s.free.Nodup
  lt : ∀ f ∈ s.free, f < 2 ^ 20
  dir : (s.proc cur).pgdir ∉ s.free
  table : (s.pde cur (a / 1024)).present = true →
    s.tab cur (a / 1024) ∉ s.free ∧ s.tab cur (a / 1024) ≠ (s.proc cur).pgdir
  frame : s.mapped cur a → s.frame cur a ∉ s.free

theorem Sorted.reach (hS : Sorted s kind H) (hcur : H cur) {a : Nat} (ha : a < 2 ^ 19) :
    Reach s cur a := by
  have hkind : ∀ x, kind x ≠ .free → x ∉ s.free := fun x hx hmem => hx (hS.free x hmem).1
  have hdir := hS.dir cur hcur
  refine ⟨hS.nodup, fun f hf => (hS.free f hf).2, hkind _ (by simp [hdir]), fun hpres => ?_,
    fun hmap => hkind _ (by simp [hS.page cur hcur a ha hmap])⟩
  have htab := hS.table cur hcur _ (by omega) hpres
  exact ⟨hkind _ (by simp [htab]), fun heq => by simp [heq, hdir] at htab⟩

theorem ne_head {x f : Nat} {l rest : List Nat} (hx : x ∉ l) (hl : l = f :: rest) : x ≠ f := by
  rintro rfl
  exact hx (hl ▸ List.mem_cons_self)

namespace Reach

variable {a f t : Nat} {rest : List Nat}

theorem run_copyTable (hR : Reach s cur (va / pgSize)) (hva : va < kernBase)
    (hpres : (s.pde cur (va / pgSize / 1024)).present = true) (hfree : s.free = t :: rest) :
    (copyTable (s.proc cur).pgdir va).run s =
      .ok ((), s.withTable cur (va / pgSize / 1024) t rest) := by
  have hne := ne_head (hR.table hpres).1 hfree
  simp only [copyTable, Kernel.run_get_bind, pdx_eq (lt_two_pow_of_lt_kernBase hva)]
  change (s.word (s.proc cur).pgdir (va / pgSize / 1024)).present = true at hpres
  rw [hpres, if_neg (by simp), Kernel.run_bind_of_ok (run_kallocOr hfree), clearPage,
    Kernel.run_modify_bind, copyPageOf, Kernel.run_modify_bind, Kernel.run_modify,
    setPage_setPage, withTable]
  change pteAddr (s.word (s.proc cur).pgdir (va / pgSize / 1024)) ≠ t at hne
  rw [setPage_word_of_ne _ _ hne]
  rfl

theorem run_copyFrame (hR : Reach s cur (va / pgSize)) (msg : String) (hva : va < kernBase)
    (hmap : s.mapped cur (va / pgSize)) (hfree : s.free = f :: rest) :
    (copyFrame msg cur (s.proc cur).pgdir va).run s =
      .ok ((), s.withFrame cur (va / pgSize) f rest) := by
  have hdir := ne_head hR.dir hfree
  refine Xv6.run_copyFrame msg hva hmap.1 hmap.2 hfree hdir (ne_head (hR.table hmap.1).1 hfree)
    (ne_head (hR.frame hmap) hfree) hdir ?_
  rw [walkPtr_eq s cur (lt_two_pow_of_lt_kernBase hva), if_pos hmap.1]

theorem copyTable_spec (hR : Reach s cur (va / pgSize)) (hva : va < kernBase)
    (h : (copyTable (s.proc cur).pgdir va).run s = .ok ((), s')) :
    ∃ t rest, s.free = t :: rest ∧ (s.pde cur (va / pgSize / 1024)).present = true ∧
      s' = s.withTable cur (va / pgSize / 1024) t rest := by
  have hrun := h
  simp only [copyTable, Kernel.run_get_bind, pdx_eq (lt_two_pow_of_lt_kernBase hva)] at h
  cases hpres : (s.word (s.proc cur).pgdir (va / pgSize / 1024)).present with
  | false => simp [hpres] at h
  | true =>
    rw [if_neg (by simp [hpres]), Kernel.run_bind_eq_ok] at h
    obtain ⟨t, s1, halloc, -⟩ := h
    obtain ⟨rest, hfree, -⟩ := kallocOr_spec halloc
    rw [hR.run_copyTable hva hpres hfree] at hrun
    exact ⟨t, rest, hfree, hpres, (congrArg Prod.snd (Except.ok.inj hrun)).symm⟩

theorem mapped_of_setPage (hR : Reach s cur a) (hfree : s.free = f :: rest)
    (content : Nat → Word) (h : ({ s with free := rest }.setPage f content).mapped cur a) :
    s.mapped cur a := by
  have hpde : ({ s with free := rest }.setPage f content).pde cur (a / 1024) =
      s.pde cur (a / 1024) := congrFun (setPage_word_of_ne _ _ (ne_head hR.dir hfree)) _
  obtain ⟨hpres, hpte⟩ := h
  rw [hpde] at hpres
  rw [pte, tab, hpde] at hpte
  refine ⟨hpres, (congrArg Word.present ?_).trans hpte⟩
  exact (congrFun (setPage_word_of_ne _ _ (ne_head (hR.table hpres).1 hfree)) _).symm

theorem copyFrame_spec (hR : Reach s cur (va / pgSize)) {msg : String} (hva : va < kernBase)
    (h : (copyFrame msg cur (s.proc cur).pgdir va).run s = .ok ((), s')) :
    ∃ f rest, s.free = f :: rest ∧ s.mapped cur (va / pgSize) ∧
      s' = s.withFrame cur (va / pgSize) f rest := by
  have hround : pgRoundDown va < 2 ^ 32 :=
    lt_of_le_of_lt (pgRoundDown_le va) (lt_two_pow_of_lt_kernBase hva)
  have hrun := h
  rw [copyFrame, Kernel.run_bind_eq_ok] at h
  obtain ⟨f, s1, halloc, h⟩ := h
  obtain ⟨rest, hfree, rfl⟩ := kallocOr_spec halloc
  have hmap : s.mapped cur (va / pgSize) := by
    rw [clearPage, Kernel.run_modify_bind, Kernel.run_bind_eq_ok] at h
    obtain ⟨_, s2, hcopy, -⟩ := h
    rw [copyUserPage, Kernel.run_get_bind, userPage_eq _ cur hround, pgRoundDown_div]
      at hcopy
    by_contra hmap
    have hmap1 := fun h1 => hmap (hR.mapped_of_setPage hfree (fun _ => 0) h1)
    rw [mapped, ← Bool.and_eq_true] at hmap1
    rw [if_neg hmap1] at hcopy
    cases hcopy
  rw [hR.run_copyFrame msg hva hmap hfree] at hrun
  exact ⟨f, rest, hfree, hmap, (congrArg Prod.snd (Except.ok.inj hrun)).symm⟩

theorem withTable_entry (hR : Reach s cur a) (hfree : s.free = t :: rest) :
    (s.withTable cur (a / 1024) t rest).pde cur (a / 1024) = mkEntry t (pteW ||| pteU ||| pteP) ∧
      (s.withTable cur (a / 1024) t rest).pte cur a = s.pte cur a := by
  have hlt := hR.lt t (hfree ▸ List.mem_cons_self)
  have hpde : (s.withTable cur (a / 1024) t rest).pde cur (a / 1024) =
      mkEntry t (pteW ||| pteU ||| pteP) := setWord_word_self _ _ _ _
  refine ⟨hpde, ?_⟩
  rw [pte, tab, hpde, pteAddr_mkEntry_user hlt, withTable,
    setWord_word_of_ne _ _ _ (ne_head hR.dir hfree).symm, setPage_word_self]
  rfl

theorem withTable (hR : Reach s cur a) (hpres : (s.pde cur (a / 1024)).present = true)
    (hfree : s.free = t :: rest) : Reach (s.withTable cur (a / 1024) t rest) cur a := by
  obtain ⟨hpde, hpte⟩ := hR.withTable_entry hfree
  have htab : (s.withTable cur (a / 1024) t rest).tab cur (a / 1024) = t := by
    rw [tab, hpde, pteAddr_mkEntry_user (hR.lt t (hfree ▸ List.mem_cons_self))]
  have hsub : ∀ x ∈ rest, x ∈ s.free := fun x hx => hfree ▸ List.mem_cons_of_mem t hx
  have hnodup := hR.nodup
  rw [hfree] at hnodup
  obtain ⟨hnew, hrest⟩ := List.nodup_cons.mp hnodup
  refine ⟨hrest, fun x hx => hR.lt x (hsub x hx), fun hmem => hR.dir (hsub _ hmem),
    fun _ => ?_, fun hmap hmem => ?_⟩
  · rw [htab]
    exact ⟨hnew, (ne_head hR.dir hfree).symm⟩
  · rw [Machine.frame, hpte] at hmem
    exact hR.frame ⟨hpres, hpte ▸ hmap.2⟩ (hsub _ hmem)

theorem withFrame_entry (hR : Reach s cur a) (hmap : s.mapped cur a) (hfree : s.free = f :: rest) :
    (s.withFrame cur a f rest).pde cur (a / 1024) = s.pde cur (a / 1024) ∧
      (s.withFrame cur a f rest).pte cur a = mkEntry f (pteW ||| pteU ||| pteP) := by
  have hpde : (s.withFrame cur a f rest).pde cur (a / 1024) = s.pde cur (a / 1024) := by
    change (setWord _ (s.tab cur (a / 1024)) _ _).word (s.proc cur).pgdir _ = _
    rw [setWord_word_of_ne _ _ _ (hR.table hmap.1).2.symm,
      setPage_word_of_ne _ _ (ne_head hR.dir hfree)]
    rfl
  refine ⟨hpde, ?_⟩
  rw [pte, tab, hpde]
  exact setWord_word_self _ _ _ _

theorem setptew_withFrame (hR : Reach s cur (va / pgSize)) (hva : va < kernBase)
    (hmap : s.mapped cur (va / pgSize)) (hfree : s.free = f :: rest)
    (h : (setptew (s.proc cur).pgdir (pgRoundDown va)).run
      (s.withFrame cur (va / pgSize) f rest) = .ok ((), s')) :
    s' = s.withFrame cur (va / pgSize) f rest := by
  obtain ⟨hpde, hpte⟩ := hR.withFrame_entry hmap hfree
  have hrun := run_setptew (s.withFrame cur (va / pgSize) f rest) cur hva
    (by rw [hpde]; exact hmap.1)
  have hset := setWord_eq_self (s.withFrame cur (va / pgSize) f rest)
    (f := (s.withFrame cur (va / pgSize) f rest).tab cur (va / pgSize / 1024))
    (i := va / pgSize % 1024) (w := (s.withFrame cur (va / pgSize) f rest).pte cur (va / pgSize) |||
      pteW) (by rw [hpte, mkEntry_or_pteW, ← hpte]; rfl)
  rw [hset] at hrun
  change (setptew (s.proc cur).pgdir (pgRoundDown va)).run _ = _ at hrun
  rw [hrun] at h
  exact ((Prod.mk.inj (Except.ok.inj h)).2).symm

theorem copypage_spec (hR : Reach s cur (va / pgSize)) (hva : va < kernBase)
    (h : (copypage cur va).run s = .ok ((), s')) : Copied s cur va s' := by
  have hround : pgRoundDown va < 2 ^ 32 :=
    lt_of_le_of_lt (pgRoundDown_le va) (lt_two_pow_of_lt_kernBase hva)
  simp only [copypage, Kernel.run_get_bind] at h
  cases hlevel : isshared s cur va with
  | none => simp [hlevel] at h
  | some level =>
    cases level with
    | directory => simp [hlevel] at h
    | nothing =>
      simp only [hlevel] at h
      obtain ⟨t, i, hwalk, rfl⟩ := updatePte_spec h
      rw [walkPtr_eq s cur hround, pgRoundDown_div] at hwalk
      split at hwalk
      · rename_i hpres
        simp only [Option.some.injEq, Prod.mk.injEq] at hwalk
        rw [← hwalk.1, ← hwalk.2]
        exact Copied.nothing hlevel hpres
      · cases hwalk
    | frame =>
      simp only [hlevel] at h
      rw [Kernel.run_bind_eq_ok] at h
      obtain ⟨_, s1, hcopy, h⟩ := h
      obtain ⟨f, rest, hfree, hmap, rfl⟩ := hR.copyFrame_spec hva hcopy
      rw [hR.setptew_withFrame hva hmap hfree h]
      exact Copied.frame hlevel hmap hfree
    | table =>
      simp only [hlevel] at h
      rw [Kernel.run_bind_eq_ok] at h
      obtain ⟨_, s1, hcopy, h⟩ := h
      obtain ⟨t, rest, hfree, hpres, rfl⟩ := hR.copyTable_spec hva hcopy
      rw [Kernel.run_bind_eq_ok] at h
      obtain ⟨_, s2, hcopy2, h⟩ := h
      have hR1 := hR.withTable hpres hfree
      obtain ⟨f, rest', hfree', hmap1, rfl⟩ := hR1.copyFrame_spec hva hcopy2
      rw [hR1.setptew_withFrame hva hmap1 hfree' h]
      have hrest : rest = f :: rest' := hfree'
      subst hrest
      refine Copied.table hlevel ⟨hpres, ?_⟩ hfree
      rw [← (hR.withTable_entry hfree).2]
      exact hmap1.2

end Reach

theorem Sorted.withFrame (hS : Sorted s kind H) (hcur : H cur) {a f : Nat} {rest : List Nat}
    (ha : a < 2 ^ 19) (hmap : s.mapped cur a) (hfree : s.free = f :: rest) :
    Sorted (s.withFrame cur a f rest) (Function.update kind f .page) H ∧
      Kept H cur s (s.withFrame cur a f rest) := by
  have hlt := (hS.head hfree).2
  obtain ⟨hS1, hun⟩ := hS.alloc hfree (s.word (s.frame cur a)) .page
  have hidx : a / 1024 < 1024 := by omega
  have hR := hS.reach hcur ha
  have htab := ne_head (hR.table hmap.1).1 hfree
  have hne := ne_head (hR.frame hmap) hfree
  have hentry : ({ s with free := rest }.setPage f (s.word (s.frame cur a))).word
      (s.tab cur (a / 1024)) (a % 1024) = s.pte cur a :=
    congrFun (setPage_word_of_ne _ _ htab) _
  have haddr : pteAddr (mkEntry f (pteW ||| pteU ||| pteP)) = f := pteAddr_mkEntry_user hlt
  obtain ⟨hS2, hkept⟩ := hS1.setEntry cur (t := s.tab cur (a / 1024)) (j := a % 1024)
    (e := mkEntry f (pteW ||| pteU ||| pteP))
    (by rw [Function.update_of_ne htab]; exact hS.table cur hcur _ hidx hmap.1)
    (by rw [hentry]; exact hmap.2) present_mkEntry
    (fun _ => by rw [haddr, Function.update_self])
    (by
      rw [hentry, haddr, setPage_word_self]
      exact (setPage_word_of_ne _ _ hne).symm)
  exact ⟨hS2, hun.kept.trans hkept⟩

theorem Sorted.withTable (hS : Sorted s kind H) (hcur : H cur) {i t : Nat} {rest : List Nat}
    (hi : i < 1024) (hpres : (s.pde cur i).present = true) (hfree : s.free = t :: rest) :
    Sorted (s.withTable cur i t rest) (Function.update kind t .table) H ∧
      Kept H cur s (s.withTable cur i t rest) := by
  obtain ⟨ht, hlt⟩ := hS.head hfree
  obtain ⟨hS1, hun⟩ := hS.alloc hfree (s.word (s.tab cur i)) .table
  have htab : s.tab cur i ≠ t := by
    rintro rfl
    rw [hS.table cur hcur i hi hpres] at ht
    cases ht
  have hpde := hun.pde cur hcur i
  have hcopy : ({ s with free := rest }.setPage t (s.word (s.tab cur i))).word t =
      ({ s with free := rest }.setPage t (s.word (s.tab cur i))).word (s.tab cur i) := by
    rw [setPage_word_self]
    exact (setPage_word_of_ne _ _ htab).symm
  have hsame : ({ s with free := rest }.setPage t (s.word (s.tab cur i))).tab cur i =
      s.tab cur i := congrArg pteAddr hpde
  obtain ⟨hS2, hkept⟩ := hS1.replaceTable hcur (i := i) (t := t) (by rw [hpde]; exact hpres)
    (Function.update_self _ _ _) hlt (by rw [hsame]; exact hcopy)
  exact ⟨hS2, hun.kept.trans hkept⟩

theorem Copied.kept (hS : Sorted s kind H) (hcur : H cur) (hva : va < kernBase)
    (hmap : s.mapped cur (va / pgSize)) (h : Copied s cur va s') :
    ∃ kind', Sorted s' kind' H ∧ Kept H cur s s' := by
  have ha := page_lt_of_lt_kernBase hva
  cases h with
  | nothing hlevel hpres =>
    refine ⟨kind, hS.setEntry cur (hS.table cur hcur _ (by omega) hpres) hmap.2 ?_ ?_ ?_⟩
    · rw [present_setW]
      exact hmap.2
    · rw [pteAddr_setW]
      exact id
    · rw [pteAddr_setW]
      rfl
  | frame hlevel hmap hfree => exact ⟨_, hS.withFrame hcur ha hmap hfree⟩
  | @table t f rest hlevel hmap hfree =>
    obtain ⟨hS1, hkept⟩ := hS.withTable hcur (by omega) hmap.1 hfree
    have hmap1 := (hkept.pages cur hcur _ ha hmap).1
    obtain ⟨hS2, hkept2⟩ := hS1.withFrame hcur ha hmap1 (rfl : _ = f :: rest)
    exact ⟨_, hS2, hkept.trans hkept2⟩

/-- **Serving a fault never changes memory contents.** A `copypage` that returns leaves the byte at
every mapped user address of every process as it was, and the directory entries of all processes but
the current one. -/
theorem copypage_keeps_contents (hS : Sorted s kind H) (hcur : H cur) (hva : va < kernBase)
    (hmap : s.mapped cur (va / pgSize)) (h : (copypage cur va).run s = .ok ((), s')) :
    (∀ p, H p → ∀ x < kernBase, ∀ b, s.byteAt p x = some b → s'.byteAt p x = some b) ∧
      ∀ p, H p → p ≠ cur → ∀ i < 1024, s'.pde p i = s.pde p i := by
  have hR := hS.reach hcur (page_lt_of_lt_kernBase hva)
  obtain ⟨kind', -, hkept⟩ := (hR.copypage_spec hva h).kept hS hcur hva hmap
  exact ⟨fun p hp x hx b hb => hkept.byteAt hp hx hb, hkept.dirs⟩

end Copypage

def Role.kind : Role → PageKind
  | .free => .free
  | .dir _ => .dir
  | .table _ => .table
  | .ktable _ _ => .table
  | .page _ => .page
  | .kstack _ => .other
  | .other => .other

section Layout

variable {s s' : Machine} {role : Nat → Role} {H : Fin nproc → Prop} {cur : Fin nproc}

theorem Layout.sorted (hL : Layout s role H) : Sorted s (fun g => (role g).kind) H where
  nodup := hL.pool.nodup
  free f hf := by
    have hrole := hL.pool.free f hf
    exact ⟨by rw [hrole]; rfl, hL.pool.lt (by rw [hrole]; simp)⟩
  dir p hp := by
    rw [(hL.space p hp).dir]
    rfl
  own p q hp hq heq := by
    have hrole := (hL.space p hp).dir
    rw [heq, (hL.space q hq).dir] at hrole
    exact (Role.dir.inj hrole).symm
  table p hp i hi hpres := by
    have hsp := hL.space p hp
    by_cases hlow : i < 512
    · by_cases htab : i < s.tables p
      · rw [(hsp.table i htab).2]
        rfl
      · rw [hsp.noTable i (by omega) hlow] at hpres
        cases hpres
    · rw [(hsp.ktable i (by omega) hi hpres).1]
      rfl
  page p hp a ha hmap := by
    have hsp := hL.space p hp
    rw [(hsp.page a ((hsp.mapped_iff ha).mp hmap)).2]
    rfl

end Layout

def sharedTable : Machine where
  word f i :=
    if i = 0 ∧ (f = 1 ∨ f = 2) then mkEntry 3 (pteU ||| pteP)
    else if i = 0 ∧ f = 3 then mkEntry 4 (pteU ||| pteP)
    else if f = 4 then 0x01020304 else 0
  free := [5, 6]
  proc p :=
    { sz := 4096, pgdir := p.val + 1, kstack := 0
      state := if p.val < 2 then .runnable else .unused
      pid := if p.val < 2 then BitVec.ofNat 32 (p.val + 1) else 0
      parent := none, killed := false, name := "" }
  nextpid := 3
  initproc := 0
  kend := 1
  kdata := 1

def sharedTableKind (f : Nat) : PageKind :=
  if f = 1 ∨ f = 2 then .dir else if f = 3 then .table else if f = 4 then .page else .free

theorem sharedTable_pde {p : Fin nproc} (hp : p.val < 2) (i : Nat) :
    sharedTable.pde p i = if i = 0 then mkEntry 3 (pteU ||| pteP) else 0 := by
  have hdir : p.val + 1 = 1 ∨ p.val + 1 = 2 := by omega
  change (if i = 0 ∧ (p.val + 1 = 1 ∨ p.val + 1 = 2) then _ else _) = _
  by_cases hi : i = 0
  · rw [if_pos ⟨hi, hdir⟩, if_pos hi]
  · have hne : ¬p.val + 1 = 4 := by omega
    rw [if_neg fun h => hi h.1, if_neg fun h => hi h.1, if_neg hi]
    exact if_neg hne

theorem sharedTable_sorted : Sorted sharedTable sharedTableKind fun p => p.val < 2 where
  nodup := by decide
  free := by decide
  dir p hp := if_pos (by change p.val + 1 = 1 ∨ p.val + 1 = 2; omega)
  own p q _ _ h := Fin.ext (Nat.succ.inj h)
  table p hp i _ hpres := by
    rw [sharedTable_pde hp] at hpres
    by_cases hi : i = 0
    · rw [tab, sharedTable_pde hp, if_pos hi]
      decide
    · rw [if_neg hi] at hpres
      exact absurd hpres (by decide)
  page p hp a _ hmap := by
    obtain ⟨hpde, hpte⟩ := hmap
    rw [sharedTable_pde hp] at hpde
    by_cases hi : a / 1024 = 0
    · have htab : sharedTable.tab p (a / 1024) = 3 := by
        rw [tab, sharedTable_pde hp, if_pos hi]
        decide
      rw [pte, htab] at hpte
      rw [frame, pte, htab]
      by_cases hj : a % 1024 = 0
      · rw [hj]
        decide
      · have hzero : sharedTable.word 3 (a % 1024) = 0 := by simp [sharedTable, hj]
        rw [hzero] at hpte
        exact absurd hpte (by decide)
    · rw [if_neg hi] at hpde
      exact absurd hpde (by decide)

/-- Slot 0 is served a fault on the shared table: both processes find the same bytes. -/
theorem copypage_keeps_contents_sharedTable : ∃ s', (copypage 0 0).run sharedTable = .ok ((), s') ∧
    sharedTable.byteAt 1 1 = some 3 ∧ s'.byteAt 1 1 = some 3 ∧ s'.byteAt 0 1 = some 3 := by
  cases hrun : (copypage 0 0).run sharedTable with
  | error msg =>
    have hok : ((copypage 0 0).run sharedTable).toBool = true := by decide
    rw [hrun] at hok
    cases hok
  | ok r =>
    obtain ⟨⟨⟩, s'⟩ := r
    have hcur : (0 : Fin nproc).val < 2 := by decide
    have h := copypage_keeps_contents sharedTable_sorted hcur (by decide)
      ⟨by decide, by decide +kernel⟩ hrun
    have hbyte : sharedTable.byteAt 1 1 = some 3 ∧ sharedTable.byteAt 0 1 = some 3 := by
      decide
    exact ⟨s', rfl, hbyte.1, h.1 1 (by decide) 1 (by decide) 3 hbyte.1,
      h.1 0 (by decide) 1 (by decide) 3 hbyte.2⟩

end Xv6
