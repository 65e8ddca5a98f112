import Xv6.Proof.FaultContents

/-!
# The level of sharing and the flags of table entries

`isshared` compares whole entries. An entry of a private copy of a table has its own write, accessed
and dirty bits, so that two processes with the same page behind an address may look as if they
shared nothing. The scan is cut in two here: directories decide where it stops whatever the flags
are, and a table entry equal to that of the current process ends it before.
-/

namespace Xv6

def Word.frameBits (w : Word) : Word := w &&& ~~~(pteW ||| pteA ||| pteD)

theorem Word.frameBits_clear (w : Word) : (w &&& ~~~pteW).frameBits = w.frameBits := by
  rw [Word.frameBits, BitVec.and_assoc]
  rfl

theorem Word.frameBits_set (w : Word) : (w ||| pteW).frameBits = w.frameBits := by
  rw [Word.frameBits, BitVec.and_comm, BitVec.and_or_distrib_left, BitVec.and_comm]
  exact BitVec.or_zero

theorem Word.set_ne_clear (v w : Word) : v &&& ~~~pteW ≠ w ||| pteW := by
  intro h
  have hbit : (v &&& ~~~pteW).getLsbD 1 = (w ||| pteW).getLsbD 1 := congrArg (·.getLsbD 1) h
  rw [BitVec.getLsbD_and, BitVec.getLsbD_or, show pteW.getLsbD 1 = true from rfl,
    show (~~~pteW).getLsbD 1 = false from rfl, Bool.and_false, Bool.or_true] at hbit
  cases hbit

namespace Machine

def compared (s : Machine) (cur q : Fin nproc) : Bool :=
  (s.proc q).pid ≠ 0 ∧ (s.proc q).state ≠ .zombie ∧ q ≠ cur

def stopsAt (s : Machine) (cur : Fin nproc) (i : Nat) (q : Fin nproc) : Bool :=
  (s.proc cur).pgdir = (s.proc q).pgdir ∨ s.pde cur i = s.pde q i

def stopLevel (s : Machine) (cur : Fin nproc) (i : Nat) : List (Fin nproc) → SharedMemoryLevel
  | [] => .nothing
  | q :: rest =>
    if (s.proc cur).pgdir = (s.proc q).pgdir then .directory
    else if s.pde cur i = s.pde q i then .table
    else s.stopLevel cur i rest

def others (s : Machine) (cur : Fin nproc) : List (Fin nproc) :=
  (List.finRange nproc).filter (s.compared cur)

def lookedAt (s : Machine) (cur : Fin nproc) (i : Nat) : List (Fin nproc) :=
  (s.others cur).takeWhile fun q => !s.stopsAt cur i q

def sharesFrame (s : Machine) (cur q : Fin nproc) (a : Nat) : Prop :=
  (s.pte cur a).present = true ∧ (s.pte q a).present = true ∧ s.frame q a = s.frame cur a

end Machine

/-- A process table without gaps, where the current process and the processes it is compared with
have a directory and a table at `va`. -/
structure Comparable (s : Machine) (cur : Fin nproc) (va : Nat) : Prop where
  gaps : ∀ p q, p ≤ q → (s.proc q).pid ≠ 0 → (s.proc p).pid ≠ 0
  walk : ∀ q, q = cur ∨ s.compared cur q = true →
    (s.proc q).pgdir ≠ 0 ∧ (s.pde q (va / pgSize / 1024)).present = true

section Scan

variable {s : Machine} {cur : Fin nproc} {va : Nat}

theorem issharedScan_eq (h : Comparable s cur va) (hva : va < 2 ^ 32) (l : List (Fin nproc))
    (hl : l.Pairwise (· < ·)) :
    issharedScan s cur va l = some
      (if ((l.filter (s.compared cur)).takeWhile fun q => !s.stopsAt cur (va / pgSize / 1024) q).any
          fun q => s.pte cur (va / pgSize) = s.pte q (va / pgSize) then .frame
        else s.stopLevel cur (va / pgSize / 1024) (l.filter (s.compared cur))) := by
  induction l with
  | nil => rfl
  | cons q rest ih =>
    obtain ⟨hlt, hrest⟩ := List.pairwise_cons.mp hl
    by_cases hpid : (s.proc q).pid = 0
    · -- without gaps the slots after an empty one are empty too
      have hnone : (q :: rest).filter (s.compared cur) = [] := by
        rw [List.filter_eq_nil_iff]
        intro p hp hcmp
        have hpp : (s.proc p).pid ≠ 0 := (of_decide_eq_true hcmp).1
        rcases List.mem_cons.mp hp with rfl | hp
        · exact hpp hpid
        · exact h.gaps q p (le_of_lt (hlt p hp)) hpp hpid
      rw [hnone, issharedScan, if_pos hpid]
      rfl
    · by_cases hskip : (s.proc q).state = .zombie ∨ q = cur
      · have hcmp : s.compared cur q = false := by
          refine decide_eq_false fun hc => ?_
          exact hskip.elim hc.2.1 hc.2.2
        rw [issharedScan, if_neg hpid, if_pos hskip, ih hrest,
          List.filter_cons_of_neg (by rw [hcmp]; decide)]
      · obtain ⟨hstate, hne⟩ := not_or.mp hskip
        have hcmp : s.compared cur q = true := decide_eq_true ⟨hpid, hstate, hne⟩
        obtain ⟨hdirc, hpresc⟩ := h.walk cur (Or.inl rfl)
        obtain ⟨hdirq, hpresq⟩ := h.walk q (Or.inr hcmp)
        rw [issharedScan_slot hva rest hpid hstate hne ⟨hdirc, hdirq⟩ hpresc hpresq, ih hrest,
          List.filter_cons_of_pos hcmp]
        by_cases hdir : (s.proc cur).pgdir = (s.proc q).pgdir
        · simp [Machine.stopsAt, Machine.stopLevel, hdir]
        · by_cases htab : s.pde cur (va / pgSize / 1024) = s.pde q (va / pgSize / 1024)
          · simp [Machine.stopsAt, Machine.stopLevel, hdir, htab]
          · by_cases hpte : s.pte cur (va / pgSize) = s.pte q (va / pgSize)
            · simp [Machine.stopsAt, hdir, htab, hpte]
            · simp [Machine.stopsAt, Machine.stopLevel, hdir, htab, hpte]

theorem isshared_eq (h : Comparable s cur va) (hva : va < 2 ^ 32) :
    isshared s cur va = some
      (if (s.lookedAt cur (va / pgSize / 1024)).any
          fun q => s.pte cur (va / pgSize) = s.pte q (va / pgSize) then .frame
        else s.stopLevel cur (va / pgSize / 1024) (s.others cur)) :=
  issharedScan_eq h hva _ (List.pairwise_lt_finRange nproc)

theorem stopLevel_ne_frame (i : Nat) (l : List (Fin nproc)) : s.stopLevel cur i l ≠ .frame := by
  induction l with
  | nil => exact fun h => by cases h
  | cons q rest ih =>
    rw [Machine.stopLevel]
    split
    · exact fun h => by cases h
    · split
      · exact fun h => by cases h
      · exact ih

theorem stopLevel_eq_nothing (i : Nat) (l : List (Fin nproc)) :
    s.stopLevel cur i l = .nothing ↔ ∀ q ∈ l, s.stopsAt cur i q = false := by
  induction l with
  | nil => simp [Machine.stopLevel]
  | cons q rest ih =>
    rw [Machine.stopLevel, List.forall_mem_cons, ← ih]
    by_cases hdir : (s.proc cur).pgdir = (s.proc q).pgdir
    · simp [Machine.stopsAt, hdir]
    · by_cases htab : s.pde cur i = s.pde q i
      · simp [Machine.stopsAt, hdir, htab]
      · simp [Machine.stopsAt, hdir, htab]

theorem isshared_eq_frame (h : Comparable s cur va) (hva : va < 2 ^ 32) :
    isshared s cur va = some .frame ↔ ∃ q ∈ s.lookedAt cur (va / pgSize / 1024),
      s.pte cur (va / pgSize) = s.pte q (va / pgSize) := by
  rw [isshared_eq h hva]
  split
  · rename_i hany
    obtain ⟨q, hq, heq⟩ := List.any_eq_true.mp hany
    exact ⟨fun _ => ⟨q, hq, of_decide_eq_true heq⟩, fun _ => rfl⟩
  · rename_i hany
    refine ⟨fun hlevel => absurd (Option.some.inj hlevel) (stopLevel_ne_frame _ _), ?_⟩
    rintro ⟨q, hq, heq⟩
    exact absurd (List.any_eq_true.mpr ⟨q, hq, decide_eq_true heq⟩) hany

theorem isshared_of_no_frame (h : Comparable s cur va) (hva : va < 2 ^ 32)
    (hno : ∀ q ∈ s.lookedAt cur (va / pgSize / 1024),
      s.pte cur (va / pgSize) ≠ s.pte q (va / pgSize)) :
    isshared s cur va = some (s.stopLevel cur (va / pgSize / 1024) (s.others cur)) := by
  rw [isshared_eq h hva, if_neg]
  intro hany
  obtain ⟨q, hq, heq⟩ := List.any_eq_true.mp hany
  exact hno q hq (of_decide_eq_true heq)

end Scan

structure SameButFlags (s t : Machine) : Prop where
  rest : t = { s with word := t.word }
  word : ∀ f j, t.word f j ≠ s.word f j → (t.word f j).frameBits = (s.word f j).frameBits ∧
    ∃ p i, (s.proc p).pid ≠ 0 ∧ i < 1024 ∧ (s.pde p i).present = true ∧ f = s.tab p i

def TablesApart (s : Machine) : Prop :=
  ∀ p q i, (s.proc p).pid ≠ 0 → (s.proc q).pid ≠ 0 → i < 1024 → (s.pde p i).present = true →
    s.tab p i ≠ (s.proc q).pgdir

/-- The flags cannot show: a process the scan looks at has the very table of the current process,
or none of them has its page, and if nothing at all is found nobody else has the page. -/
def FlagsHidden (s : Machine) (cur : Fin nproc) (va : Nat) : Prop :=
  let i := va / pgSize / 1024
  let a := va / pgSize
  (∃ q ∈ s.lookedAt cur i, s.tab q i = s.tab cur i) ∨
    (∀ q ∈ s.lookedAt cur i, (s.pte q a).frameBits ≠ (s.pte cur a).frameBits) ∧
      ((∀ q ∈ s.others cur, s.stopsAt cur i q = false) →
        ∀ q ≠ cur, s.live q → ¬s.sharesFrame cur q a)

section Flags

variable {s t : Machine} {cur : Fin nproc} {va : Nat}

theorem SameButFlags.proc (h : SameButFlags s t) : t.proc = s.proc := by
  rw [h.rest]

theorem SameButFlags.frameBits (h : SameButFlags s t) (f j : Nat) :
    (t.word f j).frameBits = (s.word f j).frameBits := by
  by_cases heq : t.word f j = s.word f j
  · rw [heq]
  · exact (h.word f j heq).1

theorem SameButFlags.pde (h : SameButFlags s t) (hapart : TablesApart s) {q : Fin nproc}
    (hq : (s.proc q).pid ≠ 0) (i : Nat) : t.pde q i = s.pde q i := by
  rw [Machine.pde, h.proc]
  by_contra hne
  obtain ⟨-, p, k, hp, hk, hpres, htab⟩ := h.word _ _ hne
  exact hapart p q k hp hq hk hpres htab.symm

theorem SameButFlags.compared (h : SameButFlags s t) : t.compared cur = s.compared cur := by
  funext q
  rw [Machine.compared, Machine.compared, h.proc]

theorem SameButFlags.stopsAt (h : SameButFlags s t) (hapart : TablesApart s)
    (hcur : (s.proc cur).pid ≠ 0) {q : Fin nproc} (hq : (s.proc q).pid ≠ 0) (i : Nat) :
    t.stopsAt cur i q = s.stopsAt cur i q := by
  rw [Machine.stopsAt, Machine.stopsAt, h.proc, h.pde hapart hcur, h.pde hapart hq]

theorem SameButFlags.others (h : SameButFlags s t) : t.others cur = s.others cur := by
  rw [Machine.others, Machine.others, h.compared]

theorem mem_others {q : Fin nproc} : q ∈ s.others cur ↔ s.compared cur q = true := by
  rw [Machine.others, List.mem_filter]
  exact and_iff_right (List.mem_finRange q)

theorem compared_iff {q : Fin nproc} : s.compared cur q = true ↔
    (s.proc q).pid ≠ 0 ∧ (s.proc q).state ≠ .zombie ∧ q ≠ cur :=
  decide_eq_true_iff

theorem SameButFlags.lookedAt (h : SameButFlags s t) (hapart : TablesApart s)
    (hcur : (s.proc cur).pid ≠ 0) (i : Nat) : t.lookedAt cur i = s.lookedAt cur i := by
  have hall : ∀ q ∈ s.others cur, (s.proc q).pid ≠ 0 := fun q hq =>
    (compared_iff.mp (mem_others.mp hq)).1
  rw [Machine.lookedAt, h.others, Machine.lookedAt]
  generalize s.others cur = l at hall
  induction l with
  | nil => rfl
  | cons q rest ih =>
    obtain ⟨hq, hrest⟩ := List.forall_mem_cons.mp hall
    rw [List.takeWhile_cons, List.takeWhile_cons, h.stopsAt hapart hcur hq, ih hrest]

theorem SameButFlags.stopLevel (h : SameButFlags s t) (hapart : TablesApart s)
    (hcur : (s.proc cur).pid ≠ 0) (i : Nat) :
    t.stopLevel cur i (t.others cur) = s.stopLevel cur i (s.others cur) := by
  have hall : ∀ q ∈ s.others cur, (s.proc q).pid ≠ 0 := fun q hq =>
    (compared_iff.mp (mem_others.mp hq)).1
  rw [h.others]
  generalize s.others cur = l at hall
  induction l with
  | nil => rfl
  | cons q rest ih =>
    obtain ⟨hq, hrest⟩ := List.forall_mem_cons.mp hall
    rw [Machine.stopLevel, Machine.stopLevel, ih hrest, h.proc, h.pde hapart hcur,
      h.pde hapart hq]

theorem SameButFlags.comparable (h : SameButFlags s t) (hapart : TablesApart s)
    (hcur : (s.proc cur).pid ≠ 0) (hC : Comparable s cur va) : Comparable t cur va := by
  refine ⟨?_, fun q hq => ?_⟩
  · rw [h.proc]
    exact hC.gaps
  · rw [h.compared] at hq
    have hpid : (s.proc q).pid ≠ 0 := by
      rcases hq with rfl | hq
      · exact hcur
      · exact (compared_iff.mp hq).1
    rw [h.proc, h.pde hapart hpid]
    exact hC.walk q hq

theorem lookedAt_compared {i : Nat} {q : Fin nproc} (hq : q ∈ s.lookedAt cur i) :
    s.compared cur q = true :=
  mem_others.mp ((List.takeWhile_sublist _).subset hq)

theorem SameButFlags.pte (h : SameButFlags s t) (hapart : TablesApart s) {q : Fin nproc}
    (hq : (s.proc q).pid ≠ 0) (a : Nat) :
    t.pte q a = t.word (s.tab q (a / 1024)) (a % 1024) := by
  rw [Machine.pte, Machine.tab, h.pde hapart hq]
  rfl

theorem sameButFlags_setWord {q : Fin nproc} {a : Nat} (hq : (s.proc q).pid ≠ 0)
    (ha : a / 1024 < 1024) (hpres : (s.pde q (a / 1024)).present = true)
    (hbits : (s.pte q a).frameBits = (s.pte cur a).frameBits) :
    SameButFlags s (s.setWord (s.tab q (a / 1024)) (a % 1024) (s.pte cur a)) := by
  refine ⟨rfl, fun f j hne => ?_⟩
  by_cases hf : f = s.tab q (a / 1024)
  · subst hf
    by_cases hj : j = a % 1024
    · subst hj
      rw [Machine.setWord_word_self]
      exact ⟨hbits.symm, q, _, hq, ha, hpres, rfl⟩
    · exact absurd (Machine.setWord_word_index s _ _ _ hj _) hne
  · exact absurd (congrFun (Machine.setWord_word_of_ne s _ _ hf) j) hne

def splitFlags (s : Machine) (cur : Fin nproc) (a : Nat) : Machine :=
  { s with
    word := fun f j =>
      if j = a % 1024 ∧ f = s.tab cur (a / 1024) then s.word f j ||| pteW
      else if j = a % 1024 ∧ ∃ q ∈ s.lookedAt cur (a / 1024), f = s.tab q (a / 1024) then
        s.word f j &&& ~~~pteW
      else s.word f j }

theorem sameButFlags_splitFlags (hC : Comparable s cur va) (hva : va < 2 ^ 32)
    (hcur : (s.proc cur).pid ≠ 0) : SameButFlags s (splitFlags s cur (va / pgSize)) := by
  have hidx : va / pgSize / 1024 < 1024 := by
    simp only [pgSize]
    omega
  refine ⟨rfl, fun f j hne => ?_⟩
  change (if _ then _ else if _ then _ else _) ≠ s.word f j at hne
  change (Word.frameBits (if _ then _ else if _ then _ else _)) = _ ∧ _
  split at hne
  · rename_i h
    rw [if_pos h]
    exact ⟨Word.frameBits_set _, cur, _, hcur, hidx, (hC.walk cur (Or.inl rfl)).2, h.2⟩
  · rename_i h
    rw [if_neg h]
    split at hne
    · rename_i h'
      rw [if_pos h']
      obtain ⟨-, q, hq, hf⟩ := h'
      have hcmp := lookedAt_compared hq
      exact ⟨Word.frameBits_clear _, q, _, (compared_iff.mp hcmp).1, hidx,
        (hC.walk q (Or.inr hcmp)).2, hf⟩
    · exact absurd rfl hne

theorem FlagsHidden.of_ignores (hC : Comparable s cur va) (hva : va < 2 ^ 32)
    (hcur : (s.proc cur).pid ≠ 0) (hapart : TablesApart s)
    (hall : ∀ t, SameButFlags s t → isshared t cur va = isshared s cur va)
    (hnone : isshared s cur va = some .nothing →
      ∀ q ≠ cur, s.live q → ¬s.sharesFrame cur q (va / pgSize)) : FlagsHidden s cur va := by
  by_cases htab : ∃ q ∈ s.lookedAt cur (va / pgSize / 1024),
      s.tab q (va / pgSize / 1024) = s.tab cur (va / pgSize / 1024)
  · exact Or.inl htab
  · -- with the flags set apart no entry the scan looks at is that of the current process
    have hsplit := sameButFlags_splitFlags hC hva hcur
    have hlevel : isshared s cur va =
        some (s.stopLevel cur (va / pgSize / 1024) (s.others cur)) := by
      rw [← hall _ hsplit, ← hsplit.stopLevel hapart hcur]
      refine isshared_of_no_frame (hsplit.comparable hapart hcur hC) hva fun q hq => ?_
      rw [hsplit.lookedAt hapart hcur] at hq
      rw [hsplit.pte hapart hcur, hsplit.pte hapart (compared_iff.mp (lookedAt_compared hq)).1]
      have hne : s.tab q (va / pgSize / 1024) ≠ s.tab cur (va / pgSize / 1024) :=
        fun h => htab ⟨q, hq, h⟩
      change (if _ then _ else _) ≠ (if _ then _ else if _ then _ else _)
      rw [if_pos ⟨rfl, rfl⟩, if_neg fun h => hne h.2, if_pos ⟨rfl, q, hq, rfl⟩]
      exact (Word.set_ne_clear _ _).symm
    refine Or.inr ⟨fun q hq hbits => ?_, fun hstops => ?_⟩
    · -- with the flags of the current process the entry of `q` ends the scan
      have hcmp := lookedAt_compared hq
      have hpid := (compared_iff.mp hcmp).1
      have hset := sameButFlags_setWord hpid
        (by simp only [pgSize]; omega) (hC.walk q (Or.inr hcmp)).2 hbits
      have hframe := (isshared_eq_frame (hset.comparable hapart hcur hC) hva).mpr
        ⟨q, by rw [hset.lookedAt hapart hcur]; exact hq, by
          rw [hset.pte hapart hcur, hset.pte hapart hpid, Machine.setWord_word_self]
          by_cases h : s.tab cur (va / pgSize / 1024) = s.tab q (va / pgSize / 1024)
          · rw [h, Machine.setWord_word_self]
          · rw [Machine.setWord_word_of_ne s _ _ h]
            rfl⟩
      rw [hall _ hset, hlevel] at hframe
      exact stopLevel_ne_frame _ _ (Option.some.inj hframe)
    · exact hnone (hlevel.trans (congrArg some ((stopLevel_eq_nothing _ _).mpr hstops)))

theorem FlagsHidden.level_eq (h : FlagsHidden s cur va) (hC : Comparable s cur va)
    (hva : va < 2 ^ 32) (hcur : (s.proc cur).pid ≠ 0) (hapart : TablesApart s)
    (ht : SameButFlags s t) : isshared t cur va = isshared s cur va := by
  have hCt := ht.comparable hapart hcur hC
  rcases h with ⟨q, hq, htab⟩ | ⟨hbits, -⟩
  · -- one entry is read for both processes
    have hpid := (compared_iff.mp (lookedAt_compared hq)).1
    have hs : isshared s cur va = some .frame :=
      (isshared_eq_frame hC hva).mpr ⟨q, hq, by rw [Machine.pte, Machine.pte, htab]⟩
    rw [hs, isshared_eq_frame hCt hva, ht.lookedAt hapart hcur]
    exact ⟨q, hq, by rw [ht.pte hapart hcur, ht.pte hapart hpid, htab]⟩
  · rw [isshared_of_no_frame hC hva fun q hq heq => hbits q hq (congrArg _ heq.symm),
      ← ht.stopLevel hapart hcur]
    refine isshared_of_no_frame hCt hva fun q hq heq => ?_
    rw [ht.lookedAt hapart hcur] at hq
    have hpid := (compared_iff.mp (lookedAt_compared hq)).1
    rw [ht.pte hapart hcur, ht.pte hapart hpid] at heq
    exact hbits q hq ((ht.frameBits _ _).symm.trans
      ((congrArg Word.frameBits heq.symm).trans (ht.frameBits _ _)))

/-- The level does not depend on the flags of table entries, and `NOTHING` means that nobody else
has the page, exactly when the flags cannot show. -/
theorem isshared_ignores_flags_iff (hC : Comparable s cur va) (hva : va < 2 ^ 32)
    (hcur : (s.proc cur).pid ≠ 0) (hapart : TablesApart s) :
    ((∀ t, SameButFlags s t → isshared t cur va = isshared s cur va) ∧
      (isshared s cur va = some .nothing →
        ∀ q ≠ cur, s.live q → ¬s.sharesFrame cur q (va / pgSize))) ↔
      FlagsHidden s cur va := by
  constructor
  · rintro ⟨hall, hnone⟩
    exact .of_ignores hC hva hcur hapart hall hnone
  · refine fun h => ⟨fun t ht => h.level_eq hC hva hcur hapart ht, fun hlevel => ?_⟩
    rcases h with ⟨q, hq, htab⟩ | ⟨hbits, hnone⟩
    · have hs : isshared s cur va = some .frame :=
        (isshared_eq_frame hC hva).mpr ⟨q, hq, by rw [Machine.pte, Machine.pte, htab]⟩
      rw [hs] at hlevel
      cases hlevel
    · rw [isshared_of_no_frame hC hva fun q hq heq => hbits q hq (congrArg _ heq.symm)] at hlevel
      exact hnone ((stopLevel_eq_nothing _ _).mp (Option.some.inj hlevel))

end Flags

theorem eq_zero_or_one {p : Fin nproc} (h : p.val < 2) : p = 0 ∨ p = 1 :=
  match p, h with
  | ⟨0, _⟩, _ => Or.inl rfl
  | ⟨1, _⟩, _ => Or.inr rfl

theorem sharedTable_pid {p : Fin nproc} (h : (sharedTable.proc p).pid ≠ 0) : p.val < 2 := by
  by_contra hp
  exact h (if_neg hp)

theorem sharedTable_comparable : Comparable sharedTable 0 0 where
  gaps := fun p q hpq hq => by
    rcases eq_zero_or_one (lt_of_le_of_lt hpq (sharedTable_pid hq) : p.val < 2) with rfl | rfl
    · exact (by decide : (1 : Word) ≠ 0)
    · exact (by decide : (2 : Word) ≠ 0)
  walk q hq := by
    have hlt : q.val < 2 := by
      rcases hq with rfl | hq
      · decide
      · exact sharedTable_pid (compared_iff.mp hq).1
    rw [sharedTable_pde hlt]
    exact ⟨Nat.succ_ne_zero _, by decide⟩

theorem sharedTable_apart : TablesApart sharedTable := by
  intro p q i hp hq _ hpres
  have hplt := sharedTable_pid hp
  have hqlt := sharedTable_pid hq
  rw [sharedTable_pde hplt] at hpres
  by_cases hi : i = 0
  · have htab : sharedTable.tab p i = 3 := by
      rw [Machine.tab, sharedTable_pde hplt, if_pos hi]
      decide
    rw [htab]
    change 3 ≠ q.val + 1
    omega
  · rw [if_neg hi] at hpres
    exact absurd hpres (by decide)

/-- The scan ends at the directory entry of slot 1 and looks at no table entry. -/
theorem isshared_ignores_flags_sharedTable : FlagsHidden sharedTable 0 0 ∧
    ∀ t, SameButFlags sharedTable t → isshared t 0 0 = isshared sharedTable 0 0 := by
  have hlooked : sharedTable.lookedAt 0 0 = [] := by decide +kernel
  have hstops : ∃ q ∈ sharedTable.others 0, sharedTable.stopsAt 0 0 q = true := by
    decide +kernel
  have hhidden : FlagsHidden sharedTable 0 0 := by
    refine Or.inr ⟨fun q hq => ?_, fun hno => ?_⟩
    · exact absurd (hlooked ▸ hq) (List.not_mem_nil)
    · obtain ⟨q, hq, hstop⟩ := hstops
      have hgo := hno q hq
      rw [show 0 / pgSize / 1024 = 0 from rfl, hstop] at hgo
      cases hgo
  exact ⟨hhidden, ((isshared_ignores_flags_iff sharedTable_comparable (by decide) (by decide)
    sharedTable_apart).mpr hhidden).1⟩

def privateTables (flags : Word) : Machine where
  word f i :=
    if i = 0 ∧ (f = 1 ∨ f = 2) then mkEntry (f + 2) (pteU ||| pteP)
    else if i = 0 ∧ f = 3 then mkEntry 5 (pteU ||| pteP)
    else if i = 0 ∧ f = 4 then mkEntry 5 (pteU ||| pteP ||| flags)
    else 0
  free := [6, 7]
  proc := sharedTable.proc
  nextpid := 3
  initproc := 0
  kend := 1
  kdata := 1

theorem privateTables_pid {flags : Word} {p : Fin nproc}
    (h : ((privateTables flags).proc p).pid ≠ 0) : p.val < 2 := by
  by_contra hp
  exact h (if_neg hp)

theorem privateTables_pde (flags : Word) {p : Fin nproc} (hp : p.val < 2) (i : Nat) :
    (privateTables flags).pde p i = if i = 0 then mkEntry (p.val + 3) (pteU ||| pteP) else 0 := by
  have hdir : p.val + 1 = 1 ∨ p.val + 1 = 2 := by omega
  change (if i = 0 ∧ (p.val + 1 = 1 ∨ p.val + 1 = 2) then mkEntry (p.val + 1 + 2) _ else _) = _
  by_cases hi : i = 0
  · rw [if_pos ⟨hi, hdir⟩, if_pos hi]
  · rw [if_neg fun h => hi h.1, if_neg fun h => hi h.1, if_neg fun h => hi h.1, if_neg hi]

theorem privateTables_comparable (flags : Word) : Comparable (privateTables flags) 0 0 where
  gaps := fun p q hpq hq => by
    rcases eq_zero_or_one (lt_of_le_of_lt hpq (privateTables_pid hq) : p.val < 2) with rfl | rfl
    · exact (by decide : (1 : Word) ≠ 0)
    · exact (by decide : (2 : Word) ≠ 0)
  walk q hq := by
    have hlt : q.val < 2 := by
      rcases hq with rfl | hq
      · decide
      · exact privateTables_pid (compared_iff.mp hq).1
    rw [privateTables_pde flags hlt]
    refine ⟨Nat.succ_ne_zero _, ?_⟩
    rcases eq_zero_or_one hlt with rfl | rfl
    · rfl
    · rfl

theorem privateTables_sameButFlags : SameButFlags (privateTables 0) (privateTables pteD) := by
  refine ⟨rfl, fun f j hne => ?_⟩
  by_cases h : j = 0 ∧ f = 4
  · obtain ⟨rfl, rfl⟩ := h
    exact ⟨by decide, 1, 0, by decide, by decide, by decide, by decide⟩
  · refine absurd ?_ hne
    change (if _ then _ else if _ then _ else if _ then _ else _) =
      (if _ then _ else if _ then _ else if _ then _ else _)
    rw [if_neg (c := j = 0 ∧ f = 4) h, if_neg (c := j = 0 ∧ f = 4) h]

/-- One dirty bit decides between `FRAME` and `NOTHING`, for a page that two processes have. -/
theorem isshared_depends_on_dirty : Comparable (privateTables 0) 0 0 ∧
    SameButFlags (privateTables 0) (privateTables pteD) ∧
    isshared (privateTables 0) 0 0 = some .frame ∧
    isshared (privateTables pteD) 0 0 = some .nothing ∧
    (privateTables pteD).live 1 ∧ (privateTables pteD).sharesFrame 0 1 0 :=
  ⟨privateTables_comparable 0, privateTables_sameButFlags, by decide +kernel, by decide +kernel,
    ⟨by decide, by decide⟩, by decide +kernel, by decide +kernel, by decide +kernel⟩

end Xv6
