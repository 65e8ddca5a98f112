import Xv6.Icache
import Xv6.Lib.Holders

/-!
# Cached inodes agree with the disk

An inode has at most one entry in use, one use at a time has it locked, and the copy that `ilock`
hands out is the inode on disk, also when the inode was freed and allocated anew since it was read.
-/

namespace Xv6.Icache

variable {A H : Type}

/-- The reference through which an entry is locked. -/
def Pc.inside : Pc H → Option H
  | .idle | .waiting _ => none
  | .loading h | .locked h _ | .freeing h | .freed h => some h

/-- What the entry `e` of a use has to do with the inode `d` on disk. -/
def Holds (e : Inode) (d : Dinode) : Pc H → Prop
  | .locked _ clean => e.valid = true ∧ e.d.type ≠ 0 ∧ d.type ≠ 0 ∧ (clean = true → e.d = d)
  | .freeing _ => d.type ≠ 0
  | _ => True

theorem inside_uses {k : Pc H} {h : H} (hk : k.inside = some h) : k.uses = some h := by
  cases k <;> simp_all [Pc.inside, Pc.uses]

variable [Fintype H]

/-- What holds between any two steps. A copy that the next `ilock` will hand out is the inode on
disk (`free`); it is that until its holder changes it, and again after `iupdate` (`held`). -/
structure Coherent (s : Sys A H) : Prop where
  refs : ∀ i, (s.inode i).ref = holders s.ptr i
  unique : ∀ i j, 0 < (s.inode i).ref → 0 < (s.inode j).ref → (s.inode i).inum = (s.inode j).inum →
    i = j
  uses : ∀ a h, (s.pc a).uses = some h → ∃ i, s.ptr h = some i
  sole : ∀ a b h, s.pc a = .freeing h ∨ s.pc a = .freed h → (s.pc b).uses = some h → b = a
  busy : ∀ a h i, (s.pc a).inside = some h → s.ptr h = some i → (s.inode i).busy = true
  one : ∀ a b h h' i, (s.pc a).inside = some h → (s.pc b).inside = some h' → s.ptr h = some i →
    s.ptr h' = some i → a = b
  free : ∀ i, 0 < (s.inode i).ref → (s.inode i).busy = false → (s.inode i).valid = true →
    (s.inode i).d = s.disk (s.inode i).inum ∧ (s.inode i).d.type ≠ 0
  held : ∀ a h i, (s.pc a).inside = some h → s.ptr h = some i →
    Holds (s.inode i) (s.disk (s.inode i).inum) (s.pc a)

variable {s s' : Sys A H} {a : A} {h : H} {i : Fin ninode}

theorem Coherent.ref_pos (hinv : Coherent s) (hptr : s.ptr h = some i) : 0 < (s.inode i).ref := by
  rw [hinv.refs]
  exact holders_pos.mpr ⟨h, hptr⟩

theorem Coherent.recount (hinv : Coherent s) {inode : Fin ninode → Inode}
    {ptr : H → Option (Fin ninode)}
    (hsame : ∀ i, (inode i).inum = (s.inode i).inum ∧ (inode i).busy = (s.inode i).busy ∧
      (inode i).valid = (s.inode i).valid ∧ (inode i).d = (s.inode i).d)
    (hrefs : ∀ i, (inode i).ref = holders ptr i)
    (hlive : ∀ i, 0 < (inode i).ref → 0 < (s.inode i).ref)
    (hptr : ∀ b h, (s.pc b).uses = some h → ptr h = s.ptr h) :
    Coherent { s with inode := inode, ptr := ptr } := by
  have hin := fun b h hb => hptr b h (inside_uses hb)
  refine ⟨hrefs, ?_, ?_, hinv.sole, ?_, ?_, ?_, ?_⟩
  · intro i j hi hj heq
    rw [(hsame i).1, (hsame j).1] at heq
    exact hinv.unique i j (hlive i hi) (hlive j hj) heq
  · intro b h hb
    obtain ⟨i, hi⟩ := hinv.uses b h hb
    exact ⟨i, (hptr b h hb).trans hi⟩
  · intro b h i hb hi
    rw [(hsame i).2.1]
    exact hinv.busy b h i hb (hin b h hb ▸ hi)
  · intro b c h h' i hb hc hi hi'
    exact hinv.one b c h h' i hb hc (hin b h hb ▸ hi) (hin c h' hc ▸ hi')
  · intro i hi hbusy hvalid
    obtain ⟨hinum, hb, hv, hd⟩ := hsame i
    rw [hinum, hd]
    exact hinv.free i (hlive i hi) (hb ▸ hbusy) (hv ▸ hvalid)
  · intro b h i hb hi
    have hold := hinv.held b h i hb (hin b h hb ▸ hi)
    obtain ⟨hinum, -, hv, hd⟩ := hsame i
    rw [hinum]
    revert hold
    cases s.pc b <;> simp [Holds, hv, hd]

theorem Coherent.ialloc (hinv : Coherent s) {inum : Nat} (hzero : (s.disk inum).type = 0)
    {d : Dinode} (hd : d.type ≠ 0) : Coherent (s.setDisk inum d) := by
  obtain ⟨hrefs, hunique, hused, hsole, hbusy, hone, hfree, hheld⟩ := hinv
  refine ⟨hrefs, hunique, hused, hsole, hbusy, hone, ?_, ?_⟩
  · simp only [Sys.setDisk]
    grind [Function.update_apply]
  · intro b h i hb hi
    have hold := hheld b h i hb hi
    simp only [Sys.setDisk]
    cases hk : s.pc b <;> grind [Function.update_apply, Holds]

section

variable [DecidableEq H]

theorem Coherent.recycle (hinv : Coherent s) (hnone : s.ptr h = none) (hzero : (s.inode i).ref = 0)
    {inum : Nat} (hnew : ∀ j, 0 < (s.inode j).ref → (s.inode j).inum ≠ inum) :
    Coherent ((s.recycle i inum).setPtr h (some i)) := by
  have hcount := holders_set hnone i
  have hoff : ∀ h', s.ptr h' ≠ some i := fun h' hh' => by
    have hpos := hinv.ref_pos hh'
    omega
  obtain ⟨hrefs, hunique, hused, hsole, hbusy, hone, hfree, hheld⟩ := hinv
  have hin := fun b h' hb => hused b h' (inside_uses hb)
  refine ⟨?_, ?_, ?_, hsole, ?_, ?_, ?_, ?_⟩
  all_goals
    simp only [Sys.recycle, Sys.setInode, Sys.setPtr]
    grind [Function.update_apply]

theorem Coherent.idup (hinv : Coherent s) (hnone : s.ptr h = none) (hpos : 0 < (s.inode i).ref) :
    Coherent (s.idup i h) := by
  have hcount := holders_set hnone i
  have hrefs := hinv.refs
  have hused := hinv.uses
  refine hinv.recount ?_ ?_ ?_ ?_
  all_goals
    simp only [Sys.setInode]
    grind [Function.update_apply]

theorem Coherent.drop (hinv : Coherent s) (hptr : s.ptr h = some i)
    (hunused : ∀ b, (s.pc b).uses ≠ some h) :
    Coherent ((s.setInode i { s.inode i with ref := (s.inode i).ref - 1 }).setPtr h none) := by
  have hcount := holders_clear hptr
  have hrefs := hinv.refs
  refine hinv.recount ?_ ?_ ?_ ?_
  all_goals
    simp only [Sys.setInode]
    grind [Function.update_apply]

theorem Coherent.iget (hinv : Coherent s) (hnone : s.ptr h = none) {inum : Nat}
    (hget : s.iget inum h = some s') : Coherent s' := by
  unfold Sys.iget at hget
  split at hget
  · rename_i i hfind
    cases hget
    have hi := List.find?_some hfind
    simp only [decide_eq_true_eq] at hi
    exact hinv.idup hnone hi.1
  · rename_i hfind
    obtain ⟨i, hempty, rfl⟩ := Option.map_eq_some_iff.mp hget
    have hi := List.find?_some hempty
    simp only [decide_eq_true_eq] at hi
    refine hinv.recycle hnone hi fun j hj heq => ?_
    have hmiss := List.find?_eq_none.mp hfind j (List.mem_finRange j)
    exact hmiss (decide_eq_true ⟨hj, heq⟩)

end

variable [DecidableEq A]

/-- The use `a` of the entry `i`, which no other use has locked, goes on at `k`. -/
theorem Coherent.change (hinv : Coherent s) (hptr : s.ptr h = some i) {k : Pc H} {e : Inode}
    {disk : Nat → Dinode} (hsame : e.ref = (s.inode i).ref ∧ e.inum = (s.inode i).inum)
    (hdisk : ∀ n ≠ (s.inode i).inum, disk n = s.disk n)
    (halone : (s.pc a).inside = some h ∨ (s.inode i).busy = false)
    (huses : k = .idle ∨ k.uses = some h)
    (hlast : (s.pc a).uses = some h ∧ (k = .freeing h ∨ k = .freed h → s.pc a = .freeing h) ∨
      ∀ b, (s.pc b).uses ≠ some h)
    (hbusy : k.inside = some h → e.busy = true)
    (hfree : e.busy = false → e.valid = true → e.d = disk e.inum ∧ e.d.type ≠ 0)
    (hheld : Holds e (disk e.inum) k) :
    Coherent { s with
      inode := Function.update s.inode i e, disk := disk, pc := Function.update s.pc a k } := by
  have hinum : ∀ j, (Function.update s.inode i e j).inum = (s.inode j).inum := by
    grind [Function.update_apply]
  have href : ∀ j, (Function.update s.inode i e j).ref = (s.inode j).ref := by
    grind [Function.update_apply]
  have hdisk' : ∀ j, 0 < (s.inode j).ref → j ≠ i →
      disk (s.inode j).inum = s.disk (s.inode j).inum := fun j hj hne =>
    hdisk _ fun heq => hne (hinv.unique j i hj (hinv.ref_pos hptr) heq)
  have hin : k.inside = none ∨ k.inside = some h := by
    rcases huses with rfl | huses
    · exact .inl rfl
    · cases k <;> simp_all [Pc.uses, Pc.inside]
  have hpos := fun h' j => hinv.ref_pos (h := h') (i := j)
  obtain ⟨hrefs, hunique, hused, hsole', hbusy', hone, hfree', hheld'⟩ := hinv
  have hother : ∀ b h', b ≠ a → (s.pc b).inside = some h' → s.ptr h' ≠ some i := by
    grind
  have hsole : ∀ b ≠ a, k = .freeing h ∨ k = .freed h → (s.pc b).uses ≠ some h := by
    grind
  have hdrop : ∀ b ≠ a, s.pc b = .freeing h ∨ s.pc b = .freed h → k = .idle := by
    grind [Pc.uses]
  refine ⟨fun j => (href j).trans (hrefs j), fun j j' hj hj' heq => ?_, ?_, ?_, ?_, ?_,
    fun j hj => ?_, fun b h' j hb hj => ?_⟩
  · simp only [href, hinum] at hj hj' heq
    exact hunique j j' hj hj' heq
  · grind [Function.update_apply, Pc.uses]
  · grind [Function.update_apply, Pc.uses]
  · grind [Function.update_apply]
  · grind [Function.update_apply]
  · simp only [href, hinum] at hj ⊢
    grind [Function.update_apply]
  · simp only [hinum]
    grind [Function.update_apply, Holds]

theorem Coherent.wait (hinv : Coherent s) (hptr : s.ptr h = some i)
    (hok : ∀ b, s.pc b ≠ .freeing h ∧ s.pc b ≠ .freed h) : Coherent (s.goto a (.waiting h)) := by
  obtain ⟨hrefs, hunique, hused, hsole, hbusy, hone, hfree, hheld⟩ := hinv
  refine ⟨hrefs, hunique, ?_, ?_, ?_, ?_, hfree, ?_⟩
  all_goals
    simp only [Sys.goto]
    grind [Function.update_apply, Pc.uses, Pc.inside, Holds]

theorem Coherent.grab (hinv : Coherent s) (hpc : s.pc a = .waiting h) (hptr : s.ptr h = some i)
    (hidle : (s.inode i).busy = false) :
    Coherent ((s.setInode i { s.inode i with busy := true }).goto a
      (if (s.inode i).valid then .locked h true else .loading h)) := by
  have hfree := hinv.free i (hinv.ref_pos hptr) hidle
  refine hinv.change hptr ⟨rfl, rfl⟩ (fun _ _ => rfl) (.inr hidle) (.inr ?_) (.inl ⟨?_, ?_⟩)
    (fun _ => rfl) (by simp) ?_
  · split <;> rfl
  · rw [hpc]
    rfl
  · split <;> simp
  · split
    · rename_i hvalid
      obtain ⟨hd, htype⟩ := hfree hvalid
      exact ⟨hvalid, htype, hd ▸ htype, fun _ => hd⟩
    · trivial

theorem Coherent.load (hinv : Coherent s) (hpc : s.pc a = .loading h) (hptr : s.ptr h = some i)
    (htype : (s.disk (s.inode i).inum).type ≠ 0) :
    Coherent ((s.setInode i { s.inode i with d := s.disk (s.inode i).inum, valid := true }).goto a
      (.locked h true)) := by
  have hin : (s.pc a).inside = some h := by rw [hpc]; rfl
  have hbusy := hinv.busy a h i hin hptr
  exact hinv.change hptr ⟨rfl, rfl⟩ (fun _ _ => rfl) (.inl hin) (.inr rfl)
    (.inl ⟨inside_uses hin, by simp⟩) (fun _ => hbusy) (by simp [hbusy])
    ⟨rfl, htype, htype, fun _ => rfl⟩

theorem Coherent.edit (hinv : Coherent s) {clean : Bool} (hpc : s.pc a = .locked h clean)
    (hptr : s.ptr h = some i) {d : Dinode} (htype : d.type ≠ 0) :
    Coherent ((s.setInode i { s.inode i with d := d }).goto a (.locked h false)) := by
  have hin : (s.pc a).inside = some h := by rw [hpc]; rfl
  have hbusy := hinv.busy a h i hin hptr
  have hheld := hinv.held a h i hin hptr
  rw [hpc] at hheld
  exact hinv.change hptr ⟨rfl, rfl⟩ (fun _ _ => rfl) (.inl hin) (.inr rfl)
    (.inl ⟨inside_uses hin, by simp⟩) (fun _ => hbusy) (by simp [hbusy])
    ⟨hheld.1, htype, hheld.2.2.1, by simp⟩

theorem Coherent.iupdate (hinv : Coherent s) {clean : Bool} (hpc : s.pc a = .locked h clean)
    (hptr : s.ptr h = some i) :
    Coherent ((s.setDisk (s.inode i).inum (s.inode i).d).goto a (.locked h true)) := by
  have hin : (s.pc a).inside = some h := by rw [hpc]; rfl
  have hbusy := hinv.busy a h i hin hptr
  have hheld := hinv.held a h i hin hptr
  rw [hpc] at hheld
  have hgo := hinv.change (k := .locked h true) (e := s.inode i) hptr ⟨rfl, rfl⟩
    (fun n hn => Function.update_of_ne hn (s.inode i).d s.disk) (.inl hin) (.inr rfl)
    (.inl ⟨inside_uses hin, by simp⟩) (fun _ => hbusy) (by simp [hbusy])
    (by simpa [Holds] using ⟨hheld.1, hheld.2.1⟩)
  rwa [Function.update_eq_self] at hgo

theorem Coherent.iunlock (hinv : Coherent s) (hpc : s.pc a = .locked h true)
    (hptr : s.ptr h = some i) :
    Coherent ((s.setInode i { s.inode i with busy := false }).goto a .idle) := by
  have hin : (s.pc a).inside = some h := by rw [hpc]; rfl
  have hheld := hinv.held a h i hin hptr
  rw [hpc] at hheld
  exact hinv.change hptr ⟨rfl, rfl⟩ (fun _ _ => rfl) (.inl hin) (.inl rfl)
    (.inl ⟨inside_uses hin, by simp⟩) (by simp [Pc.inside])
    (fun _ _ => ⟨hheld.2.2.2 rfl, hheld.2.1⟩) trivial

/-- `iput` drops the last reference to a file without links. -/
theorem Coherent.iputLast (hinv : Coherent s) (hptr : s.ptr h = some i)
    (hvalid : (s.inode i).valid = true) (hidle : (s.inode i).busy = false)
    (hunused : ∀ b, (s.pc b).uses ≠ some h) :
    Coherent ((s.setInode i { s.inode i with busy := true }).goto a (.freeing h)) := by
  have hfree := hinv.free i (hinv.ref_pos hptr) hidle hvalid
  exact hinv.change hptr ⟨rfl, rfl⟩ (fun _ _ => rfl) (.inr hidle) (.inr rfl) (.inr hunused)
    (fun _ => rfl) (by simp) (hfree.1 ▸ hfree.2)

variable [DecidableEq H]

/-- The use `a` is alone with the entry that it gives up. -/
theorem Coherent.finish (hinv : Coherent s) (hpc : s.pc a = .freed h) (hptr : s.ptr h = some i) :
    Coherent (((s.setInode i
      { s.inode i with busy := false, valid := false, ref := (s.inode i).ref - 1 }).setPtr h
        none).goto a .idle) := by
  have hin : (s.pc a).inside = some h := by rw [hpc]; rfl
  have hgo := hinv.change (k := .idle) (e := { s.inode i with busy := false, valid := false })
    hptr ⟨rfl, rfl⟩ (fun _ _ => rfl) (.inl hin) (.inl rfl) (.inl ⟨inside_uses hin, by simp⟩)
    (by simp [Pc.inside]) (by simp) trivial
  have hunused : ∀ b, (Function.update s.pc a .idle b).uses ≠ some h := by
    intro b hb
    by_cases hba : b = a
    · subst hba
      simp [Pc.uses] at hb
    · rw [Function.update_of_ne hba] at hb
      exact hba (hinv.sole a b h (.inr hpc) hb)
  have hdrop := hgo.drop hptr hunused
  simpa [Sys.setInode, Sys.setPtr, Sys.goto] using hdrop

/-- What each event does to the cache is in the lemma of its name. -/
theorem Coherent.exec (hinv : Coherent s) {e : Event H} (hok : s.Allowed a e)
    (hexec : s.exec a e = some s') : Coherent s' := by
  unfold Sys.exec at hexec
  split at hexec
  · obtain ⟨hnone, hget⟩ := Option.ite_none_right_eq_some.mp hexec
    exact hinv.iget hnone hget
  · obtain ⟨i, hptr, hdup⟩ := Option.bind_eq_some_iff.mp hexec
    obtain ⟨hnone, hdup⟩ := Option.ite_none_right_eq_some.mp hdup
    cases hdup
    exact hinv.idup hnone (hinv.ref_pos hptr)
  · obtain ⟨hzero, hset⟩ := Option.ite_none_right_eq_some.mp hexec
    cases hset
    exact hinv.ialloc hzero hok
  · obtain ⟨i, hptr, hwait⟩ := Option.bind_eq_some_iff.mp hexec
    cases (Option.ite_none_left_eq_some.mp hwait).2
    exact hinv.wait hptr hok
  · rename_i h hpc
    obtain ⟨i, hptr, rfl⟩ := Option.map_eq_some_iff.mp hexec
    split
    · exact hinv
    · rename_i hidle
      exact hinv.grab hpc hptr (Bool.eq_false_of_not_eq_true hidle)
  · rename_i h hpc
    obtain ⟨i, hptr, hload⟩ := Option.bind_eq_some_iff.mp hexec
    obtain ⟨htype, hload⟩ := Option.ite_none_left_eq_some.mp hload
    cases hload
    exact hinv.load hpc hptr htype
  · rename_i d h clean hpc
    obtain ⟨i, hptr, rfl⟩ := Option.map_eq_some_iff.mp hexec
    exact hinv.edit hpc hptr hok
  · rename_i h clean hpc
    obtain ⟨i, hptr, rfl⟩ := Option.map_eq_some_iff.mp hexec
    exact hinv.iupdate hpc hptr
  · rename_i h clean hpc
    obtain ⟨i, hptr, hunlock⟩ := Option.bind_eq_some_iff.mp hexec
    cases (Option.ite_none_left_eq_some.mp hunlock).2
    cases clean
    · exact absurd hpc (hok h)
    · exact hinv.iunlock hpc hptr
  · obtain ⟨i, hptr, hput⟩ := Option.bind_eq_some_iff.mp hexec
    dsimp only at hput
    split at hput
    · rename_i hlast
      obtain ⟨hidle, hput⟩ := Option.ite_none_left_eq_some.mp hput
      cases hput
      exact hinv.iputLast hptr hlast.2.1 (Bool.eq_false_of_not_eq_true hidle) hok
    · cases hput
      exact hinv.drop hptr hok
  · rename_i h hpc
    obtain ⟨i, hptr, rfl⟩ := Option.map_eq_some_iff.mp hexec
    have hin : (s.pc a).inside = some h := by rw [hpc]; rfl
    have hbusy := hinv.busy a h i hin hptr
    exact hinv.change hptr ⟨rfl, rfl⟩ (fun n hn => Function.update_of_ne hn _ s.disk) (.inl hin)
      (.inr rfl) (.inl ⟨inside_uses hin, fun _ => hpc⟩) (fun _ => hbusy) (by simp [hbusy]) trivial
  · rename_i h hpc
    obtain ⟨i, hptr, rfl⟩ := Option.map_eq_some_iff.mp hexec
    exact hinv.finish hpc hptr
  · cases hexec

theorem icache_coherent {disk : Nat → Dinode} {es : List (A × Event H)}
    (hrun : Run Step (init disk) es s) : Coherent s := by
  refine hrun.invariant Coherent (fun s e s' hs hstep => hs.exec hstep.1 hstep.2) ?_
  constructor <;> simp [init, holders, Pc.uses, Pc.inside]

instance [Fintype A] (s : Sys A H) (a : A) (e : Event H) :
    Decidable (s.Allowed a e) := by
  cases e <;> unfold Sys.Allowed <;> infer_instance

def reuseRun {A H : Type} (a b : A) (h h' : H) : List (A × Event H) :=
  [(a, .iget 1 h), (a, .ilock h), (a, .grab), (a, .load), (a, .iunlock), (a, .iput h), (a, .free),
    (b, .ialloc 1 7), (b, .iget 1 h'), (b, .ilock h'), (b, .grab), (a, .finish), (b, .grab),
    (b, .load)]

theorem icache_coherent_reuse : ∃ s : Sys (Fin 2) (Fin 2), Coherent s ∧ s.pc 1 = .locked 1 true ∧
    s.ptr 1 = some ⟨0, by decide⟩ ∧ (s.inode ⟨0, by decide⟩).d.type = 7 := by
  have hexec : (execAll (fun (s : Sys (Fin 2) (Fin 2)) e =>
      if s.Allowed e.1 e.2 then s.exec e.1 e.2 else none)
      (init fun _ => { Dinode.zero with type := 2 }) (reuseRun 0 1 0 1)).map
        (fun s => (s.pc 1, s.ptr 1, (s.inode ⟨0, by decide⟩).d.type)) =
      some (.locked 1 true, some ⟨0, by decide⟩, 7) := by
    decide
  have hstep : ∀ (s : Sys (Fin 2) (Fin 2)) e s',
      (if s.Allowed e.1 e.2 then s.exec e.1 e.2 else none) = some s' → Step s e s' :=
    fun _ _ _ h => Option.ite_none_right_eq_some.mp h
  obtain ⟨s, hrun, hobs⟩ := exists_run_of_execAll hstep _ hexec
  simp only [Prod.mk.injEq] at hobs
  exact ⟨s, icache_coherent hrun, hobs⟩

end Xv6.Icache
