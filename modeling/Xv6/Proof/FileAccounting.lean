import Xv6.Proof.FileRefs

/-!
# File and pipe accounting

Each call keeps the counts and touches the descriptors of its own process only, so the counts agree
with the descriptors between any two steps of a run.
-/

namespace Xv6

variable {s s' s'' : FileSys} {f g : Fin nfile} {p q : Fin nproc} {x : Fd}

structure OnlyFds (p : Fin nproc) (s s' : FileSys) : Prop where
  ofile : ∀ x : Fd, x.1 ≠ p → s'.ofile x = s.ofile x
  running : s'.running = s.running
  inCall : s'.inCall = s.inCall

theorem OnlyFds.refl (p : Fin nproc) (s : FileSys) : OnlyFds p s s := ⟨fun _ _ => rfl, rfl, rfl⟩

theorem OnlyFds.trans (h : OnlyFds p s s') (h' : OnlyFds p s' s'') : OnlyFds p s s'' :=
  ⟨fun x hx => (h'.ofile x hx).trans (h.ofile x hx), h'.running.trans h.running,
    h'.inCall.trans h.inCall⟩

theorem onlyFds_setFile (p : Fin nproc) (s : FileSys) (f : Fin nfile) (e : File) :
    OnlyFds p s (s.setFile f e) := ⟨fun _ _ => rfl, rfl, rfl⟩

theorem onlyFds_setFd (s : FileSys) (p : Fin nproc) (fd : Fin nofile) (o : Option (Fin nfile)) :
    OnlyFds p s (s.setFd (p, fd) o) :=
  ⟨fun _ hx => Function.update_of_ne (fun heq => hx (congrArg Prod.fst heq)) _ _, rfl, rfl⟩

theorem fileclose_same (s : FileSys) (f : Fin nfile) :
    (s.fileclose f).ofile = s.ofile ∧ (s.fileclose f).running = s.running ∧
      (s.fileclose f).inCall = s.inCall := by
  unfold FileSys.fileclose
  split
  · exact ⟨rfl, rfl, rfl⟩
  · split
    · exact ⟨rfl, rfl, rfl⟩
    · dsimp only
      split
      · obtain ⟨-, h1, -, h2, h3⟩ := pipeclose_same
          (s.setFile f { s.file f with ref := 0, type := .none }) (s.file f).pipe (s.file f).pipeId
          (s.file f).writable
        exact ⟨h1, h2, h3⟩
      · exact ⟨rfl, rfl, rfl⟩

theorem onlyFds_fileclose (p : Fin nproc) (s : FileSys) (f : Fin nfile) :
    OnlyFds p s (s.fileclose f) := by
  obtain ⟨h1, h2, h3⟩ := fileclose_same s f
  exact ⟨fun x _ => congrFun h1 x, h2, h3⟩

theorem onlyFds_filedup (p : Fin nproc) (s : FileSys) (f : Fin nfile) :
    OnlyFds p s (s.filedup f) := by
  unfold FileSys.filedup
  split
  · exact ⟨fun _ _ => rfl, rfl, rfl⟩
  · exact onlyFds_setFile p s f _

theorem onlyFds_filealloc (p : Fin nproc) (s : FileSys) : OnlyFds p s s.filealloc.2 := by
  unfold FileSys.filealloc
  split
  · exact .refl p s
  · exact onlyFds_setFile p s _ _

theorem onlyFds_fdalloc (p : Fin nproc) (s : FileSys) (f : Fin nfile) :
    OnlyFds p s (s.fdalloc p f).2 := by
  unfold FileSys.fdalloc
  split
  · exact .refl p s
  · exact onlyFds_setFd s p _ _

theorem onlyFds_sysDup (p : Fin nproc) (s : FileSys) (fd : Fin nofile) :
    OnlyFds p s (s.sysDup p fd) := by
  unfold FileSys.sysDup
  split
  · exact .refl p s
  · rename_i f _
    have hfd := onlyFds_fdalloc p s f
    split
    · rename_i s1 hs
      rwa [hs] at hfd
    · rename_i fd' s1 hs
      rw [hs] at hfd
      exact hfd.trans (onlyFds_filedup p s1 f)

theorem onlyFds_sysClose (p : Fin nproc) (s : FileSys) (fd : Fin nofile) :
    OnlyFds p s (s.sysClose p fd) := by
  unfold FileSys.sysClose
  split
  · exact .refl p s
  · exact (onlyFds_setFd s p fd none).trans (onlyFds_fileclose p _ _)

theorem onlyFds_sysOpen (p : Fin nproc) (s : FileSys) (readable writable : Bool) :
    OnlyFds p s (s.sysOpen p readable writable) := by
  unfold FileSys.sysOpen
  have halloc := onlyFds_filealloc p s
  split
  · rename_i s1 hs
    rwa [hs] at halloc
  · rename_i f s1 hs
    rw [hs] at halloc
    have hfd := onlyFds_fdalloc p s1 f
    split
    · rename_i s2 hs2
      rw [hs2] at hfd
      exact (halloc.trans hfd).trans (onlyFds_fileclose p s2 f)
    · rename_i fd s2 hs2
      rw [hs2] at hfd
      exact (halloc.trans hfd).trans (onlyFds_setFile p s2 f _)

theorem onlyFds_pipealloc (p : Fin nproc) (s : FileSys) : OnlyFds p s s.pipealloc.2 := by
  unfold FileSys.pipealloc
  have h0 := onlyFds_filealloc p s
  split
  · rename_i s1 hs
    rwa [hs] at h0
  · rename_i f0 s1 hs
    rw [hs] at h0
    have h1 := onlyFds_filealloc p s1
    split
    · rename_i s2 hs2
      rw [hs2] at h1
      exact (h0.trans h1).trans (onlyFds_fileclose p s2 f0)
    · rename_i f1 s2 hs2
      rw [hs2] at h1
      split
      · exact ((h0.trans h1).trans (onlyFds_fileclose p s2 f0)).trans (onlyFds_fileclose p _ f1)
      · exact (h0.trans h1).trans ⟨fun _ _ => rfl, rfl, rfl⟩

theorem onlyFds_sysPipe (p : Fin nproc) (s : FileSys) : OnlyFds p s (s.sysPipe p) := by
  unfold FileSys.sysPipe
  have h0 := onlyFds_pipealloc p s
  split
  · rename_i s1 hs
    rwa [hs] at h0
  · rename_i rf wf s1 hs
    rw [hs] at h0
    have h1 := onlyFds_fdalloc p s1 rf
    split
    · rename_i s2 hs2
      rw [hs2] at h1
      exact ((h0.trans h1).trans (onlyFds_fileclose p s2 rf)).trans (onlyFds_fileclose p _ wf)
    · rename_i fd0 s2 hs2
      rw [hs2] at h1
      have h2 := onlyFds_fdalloc p s2 wf
      split
      · rename_i s3 hs3
        rw [hs3] at h2
        exact ((((h0.trans h1).trans h2).trans (onlyFds_setFd s3 p fd0 none)).trans
          (onlyFds_fileclose p _ rf)).trans (onlyFds_fileclose p _ wf)
      · rename_i fd1 s3 hs3
        rw [hs3] at h2
        exact (h0.trans h1).trans h2
theorem FileRefs.forkFd {np : Fin nproc} {fd : Fin nofile} (h : FileRefs 0 s)
    (hnp : s.ofile (np, fd) = none) : FileRefs 0 (s.forkFd p np fd) := by
  unfold FileSys.forkFd
  split
  · exact h
  · rename_i f hfd
    have hdup := h.filedup (h.ref_pos hfd le_rfl)
    have hsame : (s.filedup f).ofile = s.ofile := by
      unfold FileSys.filedup
      split <;> rfl
    have hset := hdup.setFd (f := f) (x := (np, fd)) (by rw [hsame, hnp])
    rwa [addRef_cancel] at hset

theorem onlyFds_forkFd {np : Fin nproc} {fd : Fin nofile} : OnlyFds np s (s.forkFd p np fd) := by
  unfold FileSys.forkFd
  split
  · exact .refl np s
  · exact (onlyFds_filedup np s _).trans (onlyFds_setFd _ np fd _)

theorem forkFd_other {np : Fin nproc} {fd fd' : Fin nofile} (h : fd' ≠ fd) :
    (s.forkFd p np fd).ofile (np, fd') = s.ofile (np, fd') := by
  unfold FileSys.forkFd
  split
  · rfl
  · rename_i f _
    refine (Function.update_of_ne (fun heq => h (congrArg Prod.snd heq)) _ _).trans ?_
    unfold FileSys.filedup
    split <;> rfl

theorem FileRefs.forkFds {np : Fin nproc} (fds : List (Fin nofile)) (hnodup : fds.Nodup)
    (h : FileRefs 0 s) (hnp : ∀ fd ∈ fds, s.ofile (np, fd) = none) :
    FileRefs 0 (fds.foldl (FileSys.forkFd p np) s) ∧
      OnlyFds np s (fds.foldl (FileSys.forkFd p np) s) := by
  induction fds generalizing s with
  | nil => exact ⟨h, .refl np s⟩
  | cons fd fds ih =>
    obtain ⟨hnot, hnodup⟩ := List.nodup_cons.mp hnodup
    obtain ⟨hrefs, honly⟩ := ih hnodup (h.forkFd (p := p) (hnp fd List.mem_cons_self))
      fun fd' hfd' => by
        have hne : fd' ≠ fd := fun heq => hnot (heq ▸ hfd')
        rw [forkFd_other hne]
        exact hnp fd' (List.mem_cons_of_mem _ hfd')
    exact ⟨hrefs, onlyFds_forkFd.trans honly⟩

theorem FileRefs.exitFd {fd : Fin nofile} (h : FileRefs 0 s) : FileRefs 0 (s.exitFd p fd) := by
  unfold FileSys.exitFd
  split
  · exact h
  · rename_i f hfd
    have hclose := h.fileclose (h.ref_pos hfd le_rfl)
    have hclear := hclose.clearFd (x := (p, fd)) (f := f) (by rw [(fileclose_same s f).1, hfd])
    rwa [addRef_cancel'] at hclear

theorem onlyFds_exitFd {fd : Fin nofile} : OnlyFds p s (s.exitFd p fd) := by
  unfold FileSys.exitFd
  split
  · exact .refl p s
  · exact (onlyFds_fileclose p s _).trans (onlyFds_setFd _ p fd none)

theorem exitFd_cleared {fd fd' : Fin nofile} (h : fd' = fd ∨ s.ofile (p, fd') = none) :
    (s.exitFd p fd).ofile (p, fd') = none := by
  unfold FileSys.exitFd
  by_cases heq : fd' = fd
  · subst heq
    split
    · assumption
    · exact Function.update_self ..
  · have hnone := h.resolve_left heq
    split
    · exact hnone
    · refine (Function.update_of_ne (fun h => heq (congrArg Prod.snd h)) _ _).trans ?_
      rw [(fileclose_same s _).1, hnone]

theorem FileRefs.exitFds (fds : List (Fin nofile)) (h : FileRefs 0 s) :
    FileRefs 0 (fds.foldl (FileSys.exitFd p) s) ∧ OnlyFds p s (fds.foldl (FileSys.exitFd p) s) ∧
      ∀ fd, fd ∈ fds ∨ s.ofile (p, fd) = none →
        (fds.foldl (FileSys.exitFd p) s).ofile (p, fd) = none := by
  induction fds generalizing s with
  | nil => exact ⟨h, .refl p s, fun fd hfd => hfd.resolve_left (List.not_mem_nil)⟩
  | cons fd fds ih =>
    have hfirst : FileRefs 0 (s.exitFd p fd) := h.exitFd
    obtain ⟨hrefs, honly, hclear⟩ := ih hfirst
    refine ⟨hrefs, onlyFds_exitFd.trans honly, fun fd' hfd' => hclear fd' ?_⟩
    by_cases hmem : fd' ∈ fds
    · exact .inl hmem
    · refine .inr (exitFd_cleared (hfd'.imp_left fun h => ?_))
      exact (List.mem_cons.mp h).resolve_right hmem

structure FileOk (s : FileSys) : Prop where
  refs : FileRefs 0 s
  idle : ∀ p, s.running p = false → ∀ fd, s.ofile (p, fd) = none
  calls : ∀ p f, s.inCall p = some f → ∃ fd, s.ofile (p, fd) = some f

theorem FileOk.call (h : FileOk s) (hready : s.ready p) (hrefs : FileRefs 0 s')
    (honly : OnlyFds p s s') : FileOk s' := by
  obtain ⟨hrun, hcall⟩ := hready
  refine ⟨hrefs, fun q hq fd => ?_, fun q f hq => ?_⟩
  · rw [honly.running] at hq
    have hqp : q ≠ p := by
      rintro rfl
      rw [hrun] at hq
      cases hq
    rw [honly.ofile (q, fd) hqp]
    exact h.idle q hq fd
  · rw [honly.inCall] at hq
    have hqp : q ≠ p := by
      rintro rfl
      rw [hcall] at hq
      cases hq
    obtain ⟨fd, hfd⟩ := h.calls q f hq
    exact ⟨fd, (honly.ofile (q, fd) hqp).trans hfd⟩

theorem FileRefs.congr {extra : Fin nfile → Int} (h : FileRefs extra s) (hfile : s'.file = s.file)
    (hofile : s'.ofile = s.ofile) (hpanic : s'.panicked = s.panicked) (hpipes : PipeRefs s') :
    FileRefs extra s' :=
  ⟨fun f => by rw [hfile, hofile]; exact h.count f, fun f => by rw [hfile]; exact h.unused f,
    hpipes, hpanic.trans h.notPanicked⟩

theorem PipeRefs.congr (h : PipeRefs s) (hfile : s'.file = s.file) (hpipe : s'.pipe = s.pipe)
    (hnext : s'.nextPipe = s.nextPipe) (hfreed : s'.freed = s.freed) (hstale : s'.stale = s.stale)
    (hfree : s'.free.Nodup) (hgone : ∀ page ∈ s'.free, s'.pipe page = none ∧ page ∉ s'.taken)
    (htaken : ∀ page ∈ s'.taken, s'.pipe page = none) (htnodup : s'.taken.Nodup) :
    PipeRefs s' := by
  obtain ⟨k1, k2, k3, k4, k5, k6, k7, k8, k9, k10, k11, k12, k13, k14⟩ := h
  rw [← hpipe] at k1 k2 k3 k5 k6 k8 k9
  rw [← hfile] at k1 k2 k4
  rw [← hnext] at k5 k8 k9
  rw [← hfreed] at k7 k8 k9
  exact ⟨k1, k2, k3, k4, k5, k6, k7, k8, k9, hfree, hgone, htaken, htnodup, hstale.trans k14⟩

theorem FileOk.fork {np : Fin nproc} (h : FileOk s) (hnp : s.running np = false) :
    FileOk (s.fork p np) := by
  obtain ⟨hrefs, honly⟩ := h.refs.forkFds (p := p) (List.finRange nofile) (List.nodup_finRange _)
    fun fd _ => h.idle np hnp fd
  unfold FileSys.fork
  generalize (List.finRange nofile).foldl (FileSys.forkFd p np) s = s1 at hrefs honly ⊢
  refine ⟨hrefs.setProcs hrefs.count, fun q hq fd => ?_, fun q f hq => ?_⟩
  · dsimp only at hq ⊢
    have hqn : q ≠ np := by
      rintro rfl
      rw [Function.update_self] at hq
      cases hq
    rw [Function.update_of_ne hqn] at hq
    rw [honly.ofile (q, fd) hqn]
    exact h.idle q hq fd
  · dsimp only at hq ⊢
    rw [honly.inCall] at hq
    obtain ⟨fd, hfd⟩ := h.calls q f hq
    have hqn : q ≠ np := by
      rintro rfl
      rw [h.idle q hnp fd] at hfd
      cases hfd
    exact ⟨fd, (honly.ofile (q, fd) hqn).trans hfd⟩

theorem FileOk.exit (h : FileOk s) (hready : s.ready p) : FileOk (s.exit p) := by
  obtain ⟨hrefs, honly, hclear⟩ := h.refs.exitFds (p := p) (List.finRange nofile)
  obtain ⟨-, hcall⟩ := hready
  unfold FileSys.exit
  generalize (List.finRange nofile).foldl (FileSys.exitFd p) s = s1 at hrefs honly hclear ⊢
  refine ⟨hrefs.setProcs hrefs.count, fun q hq fd => ?_, fun q f hq => ?_⟩
  · dsimp only at hq ⊢
    by_cases hqp : q = p
    · subst hqp
      exact hclear fd (.inl (List.mem_finRange fd))
    · rw [Function.update_of_ne hqp] at hq
      rw [honly.ofile (q, fd) hqp]
      exact h.idle q hq fd
  · dsimp only at hq ⊢
    rw [honly.inCall] at hq
    have hqp : q ≠ p := by
      rintro rfl
      rw [hcall] at hq
      cases hq
    obtain ⟨fd, hfd⟩ := h.calls q f hq
    exact ⟨fd, (honly.ofile (q, fd) hqp).trans hfd⟩

theorem FileOk.touch (h : FileOk s) (f : Fin nfile) : s.touch f = s := by
  unfold FileSys.touch
  split
  · rename_i hpipe
    obtain ⟨p, hp, hid, -⟩ := h.refs.pipes.isOpen f hpipe
    rw [hp]
    dsimp only
    rw [if_neg (not_not.mpr hid)]
  · rfl

theorem FileOk.setCall (h : FileOk s) {c : Option (Fin nfile)}
    (hc : ∀ f, c = some f → ∃ fd, s.ofile (p, fd) = some f) :
    FileOk { s with inCall := Function.update s.inCall p c } := by
  refine ⟨h.refs.setProcs h.refs.count, h.idle, fun q g hq => ?_⟩
  dsimp only at hq ⊢
  by_cases hqp : q = p
  · subst hqp
    rw [Function.update_self] at hq
    exact hc g hq
  · rw [Function.update_of_ne hqp] at hq
    exact h.calls q g hq

theorem FileOk.takePage (h : FileOk s) {page : Nat} {rest : List Nat}
    (hfree : s.free = page :: rest) :
    FileOk { s with free := rest, taken := page :: s.taken } := by
  have hp := h.refs.pipes
  have hnodup := hp.freeNodup
  have hgone := hp.freeGone
  have htgone := hp.takenGone
  have htn := hp.takenNodup
  rw [hfree] at hnodup hgone
  obtain ⟨hnew, hrest⟩ := List.nodup_cons.mp hnodup
  have hpage := hgone page List.mem_cons_self
  refine ⟨h.refs.congr rfl rfl rfl (hp.congr rfl rfl rfl rfl rfl hrest (fun q hq => ?_) ?_ ?_),
    h.idle, h.calls⟩
  · have hold := hgone q (List.mem_cons_of_mem _ hq)
    refine ⟨hold.1, fun hmem => ?_⟩
    rcases List.mem_cons.mp hmem with rfl | hmem
    · exact hnew hq
    · exact hold.2 hmem
  · exact List.forall_mem_cons.mpr ⟨hpage.1, htgone⟩
  · exact List.nodup_cons.mpr ⟨hpage.2, htn⟩

theorem FileOk.givePage (h : FileOk s) {page : Nat} (hmem : page ∈ s.taken) :
    FileOk { s with free := page :: s.free, taken := s.taken.erase page } := by
  have hp := h.refs.pipes
  have hgone := hp.freeGone
  have htgone := hp.takenGone
  have htn := hp.takenNodup
  refine ⟨h.refs.congr rfl rfl rfl (hp.congr rfl rfl rfl rfl rfl ?_ (fun q hq => ?_) ?_
    (htn.erase page)), h.idle, h.calls⟩
  · exact List.nodup_cons.mpr ⟨fun hf => (hgone page hf).2 hmem, hp.freeNodup⟩
  · rcases List.mem_cons.mp hq with rfl | hq
    · exact ⟨htgone q hmem, htn.not_mem_erase⟩
    · exact ⟨(hgone q hq).1, fun he => (hgone q hq).2 (List.mem_of_mem_erase he)⟩
  · exact fun q hq => htgone q (List.mem_of_mem_erase hq)

theorem fileOk_step {e : FileEvent} (h : FileOk s) (hstep : FileStep s e s') : FileOk s' := by
  cases e with
  | openFile p found readable writable =>
    obtain ⟨hready, heq⟩ := Option.ite_none_right_eq_some.mp hstep
    cases heq
    cases found with
    | false => exact h
    | true => exact h.call hready (h.refs.sysOpen p _ _) (onlyFds_sysOpen p s _ _)
  | pipe p =>
    obtain ⟨hready, heq⟩ := Option.ite_none_right_eq_some.mp hstep
    cases heq
    exact h.call hready (h.refs.sysPipe p) (onlyFds_sysPipe p s)
  | dup p fd =>
    obtain ⟨hready, heq⟩ := Option.ite_none_right_eq_some.mp hstep
    cases heq
    exact h.call hready (h.refs.sysDup p fd) (onlyFds_sysDup p s fd)
  | close p fd =>
    obtain ⟨hready, heq⟩ := Option.ite_none_right_eq_some.mp hstep
    cases heq
    exact h.call hready (h.refs.sysClose p fd) (onlyFds_sysClose p s fd)
  | fork p np =>
    obtain ⟨hready, heq⟩ := Option.ite_none_right_eq_some.mp hstep
    cases heq
    exact h.fork hready.2
  | exit p =>
    obtain ⟨hready, heq⟩ := Option.ite_none_right_eq_some.mp hstep
    cases heq
    exact h.exit hready
  | start p fd =>
    obtain ⟨-, heq⟩ := Option.ite_none_right_eq_some.mp hstep
    split at heq
    · cases heq
      exact h
    · rename_i f hfd
      cases heq
      exact h.setCall fun g hg => ⟨fd, hfd.trans hg⟩
  | touch p =>
    simp only [FileStep, FileSys.exec] at hstep
    split at hstep
    · cases hstep
    · rename_i f _
      cases hstep
      rwa [h.touch f]
  | finish p =>
    cases hstep
    exact h.setCall fun g hg => by cases hg
  | kalloc =>
    simp only [FileStep, FileSys.exec] at hstep
    split at hstep
    · cases hstep
      exact h
    · rename_i page rest hfree
      cases hstep
      exact h.takePage hfree
  | kfree page =>
    obtain ⟨hmem, heq⟩ := Option.ite_none_right_eq_some.mp hstep
    cases heq
    exact h.givePage hmem

theorem fileOk_init (first : Fin nproc) {pages : List Nat} (hnodup : pages.Nodup) :
    FileOk (.init first pages) := by
  refine ⟨⟨fun f => ?_, fun f _ => rfl, ?_, rfl⟩, fun p _ fd => rfl, fun p f h => ?_⟩
  · have hzero : holders (FileSys.init first pages).ofile f = 0 := by
      rw [← Nat.le_zero, ← not_lt, holders_pos]
      rintro ⟨x, hx⟩
      cases hx
    rw [hzero]
    rfl
  · constructor <;> simp [FileSys.init, hnodup]
  · cases h

structure FileAccounting (s : FileSys) : Prop where
  ref : ∀ f, (s.file f).ref = holders s.ofile f
  unused : ∀ f, (s.file f).ref = 0 → (s.file f).type = .none
  readopen : ∀ page p, s.pipe page = some p → (p.readopen = true ↔
    ∃ x f, s.ofile x = some f ∧ (s.file f).type = .pipe ∧ (s.file f).pipe = page ∧
      (s.file f).writable = false)
  writeopen : ∀ page p, s.pipe page = some p → (p.writeopen = true ↔
    ∃ x f, s.ofile x = some f ∧ (s.file f).type = .pipe ∧ (s.file f).pipe = page ∧
      (s.file f).writable = true)
  present : ∀ x f, s.ofile x = some f → (s.file f).type = .pipe →
    ∃ p, s.pipe (s.file f).pipe = some p ∧ p.id = (s.file f).pipeId
  freedOnce : s.freed.Nodup
  freed : ∀ id < s.nextPipe, (id ∈ s.freed ↔
    ¬∃ x f, s.ofile x = some f ∧ (s.file f).type = .pipe ∧ (s.file f).pipeId = id)
  notStale : s.stale = false
  notPanicked : s.panicked = false

theorem FileRefs.held (h : FileRefs 0 s) (hf : (s.file f).type ≠ .none) :
    ∃ x, s.ofile x = some f := by
  rw [← holders_pos]
  have hcount := h.count f
  have hpos : (s.file f).ref ≠ 0 := fun hzero => hf (h.unused f hzero)
  simp only [Pi.zero_apply] at hcount
  omega

theorem FileRefs.opened_iff (h : FileRefs 0 s) {page : Nat} {p : PipePage}
    (hp : s.pipe page = some p) (w : Bool) : p.opened w = true ↔
      ∃ x f, s.ofile x = some f ∧ (s.file f).type = .pipe ∧ (s.file f).pipe = page ∧
        (s.file f).writable = w := by
  constructor
  · intro hw
    obtain ⟨f, ht, hf, hfw⟩ := h.pipes.hasFile page p w hp hw
    obtain ⟨x, hx⟩ := h.held (f := f) (by rw [ht]; decide)
    exact ⟨x, f, hx, ht, hf, hfw⟩
  · rintro ⟨x, f, -, ht, hf, hfw⟩
    obtain ⟨p2, hp2, -, hopen⟩ := h.pipes.isOpen f ht
    rw [hf, hp] at hp2
    cases hp2
    rwa [hfw] at hopen

theorem FileRefs.freed_iff (h : FileRefs 0 s) {id : Nat} (hid : id < s.nextPipe) :
    id ∈ s.freed ↔
      ¬∃ x f, s.ofile x = some f ∧ (s.file f).type = .pipe ∧ (s.file f).pipeId = id := by
  constructor
  · rintro hmem ⟨x, f, -, ht, hf⟩
    obtain ⟨p, hp, hpid, -⟩ := h.pipes.isOpen f ht
    exact (h.pipes.freedGone id hmem).2 _ p hp (hpid.trans hf)
  · intro hnone
    refine (h.pipes.accounted id hid).resolve_right ?_
    rintro ⟨page, p, hp, hpid⟩
    obtain ⟨w, hw⟩ := h.pipes.someEnd page p hp
    obtain ⟨x, f, hx, ht, hf, -⟩ := (h.opened_iff hp w).mp hw
    obtain ⟨p2, hp2, hid2, -⟩ := h.pipes.isOpen f ht
    rw [hf, hp] at hp2
    cases hp2
    exact hnone ⟨x, f, hx, ht, hid2.symm.trans hpid⟩

/-- Whatever calls the processes make, the counts agree with the descriptors. -/
theorem file_accounting (first : Fin nproc) (pages : List Nat) (hpages : pages.Nodup)
    (events : List FileEvent) (s : FileSys) (hrun : Run FileStep (.init first pages) events s) :
    FileAccounting s := by
  have hok := Run.invariant FileOk (fun _ _ _ h hstep => fileOk_step h hstep)
    (fileOk_init first hpages) hrun
  have h := hok.refs
  refine ⟨fun f => ?_, h.unused, fun page p hp => h.opened_iff hp false,
    fun page p hp => h.opened_iff hp true, fun x f _ ht => ?_, h.pipes.freedNodup,
    fun id => h.freed_iff, h.pipes.notStale, h.notPanicked⟩
  · have hcount := h.count f
    simp only [Pi.zero_apply] at hcount
    omega
  · obtain ⟨p, hp, hid, -⟩ := h.pipes.isOpen f ht
    exact ⟨p, hp, hid⟩

def pipeAndFork : List FileEvent :=
  [.openFile 0 true true false, .pipe 0, .dup 0 0, .fork 0 1, .start 1 1, .close 0 1, .close 0 2,
    .touch 1, .finish 1, .exit 1, .pipe 0, .pipe 0]

theorem file_accounting_pipeAndFork : ∃ s, Run FileStep (.init 0 [7]) pipeAndFork s ∧
    s.freed = [0] ∧ s.nextPipe = 2 ∧ FileAccounting s := by
  have hexec : (execAll FileSys.exec (.init 0 [7]) pipeAndFork).map
      (fun s => (s.freed, s.nextPipe)) = some ([0], 2) := by
    decide
  obtain ⟨s, hrun, hs⟩ := exists_run_of_execAll (fun _ _ _ (h : FileStep _ _ _) => h) _ hexec
  obtain ⟨hfreed, hnext⟩ := Prod.mk.inj hs
  exact ⟨s, hrun, hfreed, hnext, file_accounting 0 [7] (by decide) _ s hrun⟩

end Xv6
