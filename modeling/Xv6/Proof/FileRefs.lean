import Mathlib.Tactic
import Xv6.Lib.Holders
import Xv6.FileTable

/-!
# Reference counts of files and pipes

Inside a call some references are held by local variables. The invariant says so: the count of a
file is the number of descriptors that hold it, plus a balance that every operation changes by one
and that is zero between calls.
-/

namespace Xv6

namespace PipePage

variable (p : PipePage) (w : Bool)

theorem shut_id : (p.shut w).id = p.id := by
  cases w <;> rfl

theorem opened_shut : (p.shut w).opened w = false := by
  cases w <;> rfl

theorem opened_shut_of_ne {w' : Bool} (h : w' ≠ w) : (p.shut w).opened w' = p.opened w' := by
  cases w <;> cases w' <;> first | rfl | exact absurd rfl h

theorem not_opened : (p.readopen = false ∧ p.writeopen = false) ↔ ∀ w, p.opened w = false := by
  rw [Bool.forall_bool]
  rfl

end PipePage

structure PipeRefs (s : FileSys) : Prop where
  isOpen : ∀ f, (s.file f).type = .pipe → ∃ p, s.pipe (s.file f).pipe = some p ∧
    p.id = (s.file f).pipeId ∧ p.opened (s.file f).writable = true
  hasFile : ∀ page p w, s.pipe page = some p → p.opened w = true →
    ∃ f, (s.file f).type = .pipe ∧ (s.file f).pipe = page ∧ (s.file f).writable = w
  someEnd : ∀ page p, s.pipe page = some p → ∃ w, p.opened w = true
  oneFile : ∀ f g, (s.file f).type = .pipe → (s.file g).type = .pipe →
    (s.file f).pipe = (s.file g).pipe → (s.file f).writable = (s.file g).writable → f = g
  idFresh : ∀ page p, s.pipe page = some p → p.id < s.nextPipe
  onePage : ∀ page page' p p', s.pipe page = some p → s.pipe page' = some p' → p.id = p'.id →
    page = page'
  freedNodup : s.freed.Nodup
  freedGone : ∀ id ∈ s.freed, id < s.nextPipe ∧ ∀ page p, s.pipe page = some p → p.id ≠ id
  accounted : ∀ id < s.nextPipe, id ∈ s.freed ∨ ∃ page p, s.pipe page = some p ∧ p.id = id
  freeNodup : s.free.Nodup
  freeGone : ∀ page ∈ s.free, s.pipe page = none ∧ page ∉ s.taken
  takenGone : ∀ page ∈ s.taken, s.pipe page = none
  takenNodup : s.taken.Nodup
  notStale : s.stale = false

structure FileRefs (extra : Fin nfile → Int) (s : FileSys) : Prop where
  count : ∀ f, ((s.file f).ref : Int) = holders s.ofile f + extra f
  unused : ∀ f, (s.file f).ref = 0 → (s.file f).type = .none
  pipes : PipeRefs s
  notPanicked : s.panicked = false

variable {extra : Fin nfile → Int} {s s' : FileSys} {f g : Fin nfile} {p : Fin nproc} {x : Fd}

def addRef (extra : Fin nfile → Int) (f : Fin nfile) (k : Int) : Fin nfile → Int :=
  Function.update extra f (extra f + k)

theorem setFile_self (s : FileSys) (f : Fin nfile) (e : File) : (s.setFile f e).file f = e :=
  Function.update_self ..

theorem setFile_of_ne (s : FileSys) {f g : Fin nfile} (e : File) (h : g ≠ f) :
    (s.setFile f e).file g = s.file g :=
  Function.update_of_ne h ..

theorem PipeRefs.setFile {e : File} (h : PipeRefs s)
    (he : e.type = .pipe ↔ (s.file f).type = .pipe)
    (hsame : e.type = .pipe → e.pipe = (s.file f).pipe ∧ e.pipeId = (s.file f).pipeId ∧
      e.writable = (s.file f).writable) : PipeRefs (s.setFile f e) := by
  have hself := setFile_self s f e
  have hother := fun g (hg : g ≠ f) => setFile_of_ne s e hg
  obtain ⟨h1, h2, h3, h4, h5, h6, h7, h8, h9, h10, h11, h12, h13, h14⟩ := h
  constructor
  case isOpen =>
    intro g hg
    by_cases hgf : g = f
    · subst hgf
      rw [hself] at hg ⊢
      obtain ⟨hp, hi, hw⟩ := hsame hg
      rw [hp, hi, hw]
      exact h1 g (he.mp hg)
    · rw [hother g hgf] at hg ⊢
      exact h1 g hg
  case hasFile =>
    intro page p w hp hw
    obtain ⟨g, hg⟩ := h2 page p w hp hw
    refine ⟨g, ?_⟩
    grind
  case oneFile =>
    intro g g' hg hg'
    grind
  all_goals assumption

theorem FileRefs.setEntry (h : FileRefs extra s) {e : File} {k : Int}
    (hr : (e.ref : Int) = (s.file f).ref + k) (hzero : e.ref = 0 → e.type = .none)
    (hfile : s'.file = (s.setFile f e).file) (hofile : s'.ofile = s.ofile)
    (hpanic : s'.panicked = s.panicked) (hpipes : PipeRefs s') :
    FileRefs (addRef extra f k) s' where
  count g := by
    have hcount := h.count g
    rw [hfile, hofile]
    by_cases hg : g = f
    · subst hg
      rw [setFile_self, addRef, Function.update_self]
      omega
    · rw [setFile_of_ne s _ hg, addRef, Function.update_of_ne hg]
      exact hcount
  unused g hg := by
    rw [hfile] at hg ⊢
    by_cases hgf : g = f
    · subst hgf
      rw [setFile_self] at hg ⊢
      exact hzero hg
    · rw [setFile_of_ne s _ hgf] at hg ⊢
      exact h.unused g hg
  pipes := hpipes
  notPanicked := hpanic.trans h.notPanicked

theorem FileRefs.setRef (h : FileRefs extra s) {r : Nat} {k : Int}
    (hr : (r : Int) = (s.file f).ref + k) (hzero : r = 0 → (s.file f).type = .none) :
    FileRefs (addRef extra f k) (s.setFile f { s.file f with ref := r }) :=
  h.setEntry hr hzero rfl rfl rfl (h.pipes.setFile Iff.rfl fun _ => ⟨rfl, rfl, rfl⟩)

theorem filealloc_some (hs : s.filealloc = (some f, s')) :
    (s.file f).ref = 0 ∧ s' = s.setFile f { s.file f with ref := 1 } := by
  unfold FileSys.filealloc at hs
  split at hs
  · cases hs
  · rename_i g hfind
    cases hs
    exact ⟨by simpa using List.find?_some hfind, rfl⟩

theorem filealloc_none (hs : s.filealloc = (none, s')) : s' = s := by
  unfold FileSys.filealloc at hs
  split at hs
  · cases hs
    rfl
  · cases hs

theorem FileRefs.filealloc (h : FileRefs extra s) (hs : s.filealloc = (some f, s')) :
    FileRefs (addRef extra f 1) s' ∧ (s'.file f).type = .none ∧ (s'.file f).ref = 1 := by
  obtain ⟨hzero, rfl⟩ := filealloc_some hs
  refine ⟨h.setRef (by rw [hzero]; rfl) (by simp), ?_, ?_⟩
  · rw [setFile_self]
    exact h.unused f hzero
  · rw [setFile_self]

theorem FileRefs.filedup (h : FileRefs extra s) (hf : 1 ≤ (s.file f).ref) :
    FileRefs (addRef extra f 1) (s.filedup f) := by
  unfold FileSys.filedup
  rw [if_neg (by omega)]
  exact h.setRef (by simp) (by simp)

section PipeClose

variable {e : File} {page : Nat} {w : Bool} {p p' : PipePage}

theorem PipeRefs.freePipe (h : PipeRefs s) (hpage : (s.file f).pipe = page)
    (hid : p.id = (s.file f).pipeId) (he : e.type = .none) (hp : s.pipe page = some p)
    (hlast : ∀ g ≠ f, (s.file g).type = .pipe → (s.file g).pipe ≠ page) :
    PipeRefs ((s.setFile f e).freePipe page (s.file f).pipeId) := by
  have hself := setFile_self s f e
  have hother := fun g (hg : g ≠ f) => setFile_of_ne s e hg
  obtain ⟨h1, h2, h3, h4, h5, h6, h7, h8, h9, h10, h11, h12, h13, h14⟩ := h
  constructor
  case isOpen =>
    intro g hg
    have hgf : g ≠ f := by
      rintro rfl
      simp [FileSys.freePipe, hself, he] at hg
    simp only [FileSys.freePipe, hother g hgf] at hg ⊢
    rw [Function.update_of_ne (hlast g hgf hg)]
    exact h1 g hg
  case hasFile =>
    intro q p2 w' hq hw'
    simp only [FileSys.freePipe] at hq ⊢
    have hqp : q ≠ page := by
      rintro rfl
      rw [Function.update_self] at hq
      cases hq
    rw [Function.update_of_ne hqp] at hq
    obtain ⟨g, ht, hg, hgw⟩ := h2 q p2 w' hq hw'
    have hgf : g ≠ f := fun heq => hqp (hg.symm.trans (heq ▸ hpage))
    exact ⟨g, by rw [hother g hgf]; exact ⟨ht, hg, hgw⟩⟩
  case oneFile =>
    clear h1 h2 h3 h5 h6 h7 h8 h9 h10 h11 h12 h13
    simp only [FileSys.freePipe]
    grind
  case accounted =>
    intro id hlt
    simp only [FileSys.freePipe]
    by_cases hidf : id = (s.file f).pipeId
    · exact .inl (hidf ▸ List.mem_append_right _ (List.mem_singleton_self _))
    · refine (h9 id hlt).imp (List.mem_append_left _) ?_
      rintro ⟨q, p2, hq, hp2⟩
      have hqp : q ≠ page := by
        rintro rfl
        rw [hp] at hq
        cases hq
        exact hidf (hp2.symm.trans hid)
      exact ⟨q, p2, by rwa [Function.update_of_ne hqp], hp2⟩
  all_goals
    clear h1 h2 h4 h9 hlast
    simp only [FileSys.freePipe, FileSys.setFile]
    grind

theorem PipeRefs.shutEnd (h : PipeRefs s) (hpage : (s.file f).pipe = page)
    (hw : (s.file f).writable = w) (he : e.type = .none) (hp : s.pipe page = some p)
    (hend : ∀ g ≠ f, (s.file g).type = .pipe → (s.file g).pipe = page →
      (s.file g).writable ≠ w)
    (hsid : p'.id = p.id) (hshut : p'.opened w = false)
    (hkeep : ∀ w' ≠ w, p'.opened w' = p.opened w') (hsome : ∃ w, p'.opened w = true) :
    PipeRefs { s.setFile f e with
      pipe := Function.update (s.setFile f e).pipe page (some p') } := by
  have hself := setFile_self s f e
  have hother := fun g (hg : g ≠ f) => setFile_of_ne s e hg
  obtain ⟨h1, h2, h3, h4, h5, h6, h7, h8, h9, h10, h11, h12, h13, h14⟩ := h
  constructor
  case isOpen =>
    intro g hg
    have hgf : g ≠ f := by
      rintro rfl
      simp [hself, he] at hg
    simp only [hother g hgf] at hg ⊢
    obtain ⟨p2, hp2, hid2, hopen2⟩ := h1 g hg
    by_cases hpg : (s.file g).pipe = page
    · rw [hpg, Function.update_self]
      rw [hpg, hp] at hp2
      cases hp2
      exact ⟨p', rfl, hsid.trans hid2, (hkeep _ (hend g hgf hg hpg)).trans hopen2⟩
    · rw [Function.update_of_ne hpg]
      exact ⟨p2, hp2, hid2, hopen2⟩
  case hasFile =>
    intro q p2 w' hq hw'
    dsimp only at hq ⊢
    by_cases hqp : q = page
    · subst hqp
      rw [Function.update_self] at hq
      cases hq
      have hne : w' ≠ w := by
        rintro rfl
        rw [hshut] at hw'
        cases hw'
      rw [hkeep w' hne] at hw'
      obtain ⟨g, ht, hg, hgw⟩ := h2 q p w' hp hw'
      have hgf : g ≠ f := fun heq => hne (hgw.symm.trans (heq ▸ hw))
      exact ⟨g, by rw [hother g hgf]; exact ⟨ht, hg, hgw⟩⟩
    · rw [Function.update_of_ne hqp] at hq
      obtain ⟨g, ht, hg, hgw⟩ := h2 q p2 w' hq hw'
      have hgf : g ≠ f := fun heq => hqp (hg.symm.trans (heq ▸ hpage))
      exact ⟨g, by rw [hother g hgf]; exact ⟨ht, hg, hgw⟩⟩
  case oneFile =>
    clear h1 h2 h3 h5 h6 h7 h8 h9 h10 h11 h12 h13
    grind
  case someEnd =>
    intro q p2 hq
    dsimp only at hq
    by_cases hqp : q = page
    · subst hqp
      rw [Function.update_self] at hq
      cases hq
      exact hsome
    · rw [Function.update_of_ne hqp] at hq
      exact h3 q p2 hq
  case accounted =>
    intro id hlt
    refine (h9 id hlt).imp_right ?_
    rintro ⟨q, p2, hq, hp2⟩
    by_cases hqp : q = page
    · subst hqp
      rw [hp] at hq
      cases hq
      exact ⟨q, p', Function.update_self .., hsid.trans hp2⟩
    · exact ⟨q, p2, (Function.update_of_ne hqp _ _).trans hq, hp2⟩
  all_goals
    clear h1 h2 h3 h4 h9 hend hkeep
    simp only [FileSys.setFile]
    grind

theorem PipeRefs.pipeclose (h : PipeRefs s) (hf : (s.file f).type = .pipe) (he : e.type = .none) :
    PipeRefs ((s.setFile f e).pipeclose (s.file f).pipe (s.file f).pipeId (s.file f).writable) := by
  obtain ⟨p, hp, hid, -⟩ := h.isOpen f hf
  have hp' : (s.setFile f e).pipe (s.file f).pipe = some p := hp
  have hend : ∀ g ≠ f, (s.file g).type = .pipe → (s.file g).pipe = (s.file f).pipe →
      (s.file g).writable ≠ (s.file f).writable :=
    fun g hg ht hpg hw => hg (h.oneFile g f ht hf hpg hw)
  simp only [FileSys.pipeclose, hp', hid, ne_eq, not_true_eq_false, if_false, PipePage.not_opened]
  split
  · rename_i hclosed
    refine h.freePipe rfl hid he hp fun g hg ht hpg => ?_
    obtain ⟨p2, hp2, -, hopen2⟩ := h.isOpen g ht
    rw [hpg, hp] at hp2
    cases hp2
    rw [← p.opened_shut_of_ne _ (hend g hg ht hpg), hclosed] at hopen2
    cases hopen2
  · rename_i hclosed
    obtain ⟨w, hw⟩ := not_forall.mp hclosed
    exact h.shutEnd rfl rfl he hp hend (p.shut_id _) (p.opened_shut _)
      (fun w' => p.opened_shut_of_ne _) ⟨w, by simpa using hw⟩

end PipeClose

theorem pipeclose_same (s : FileSys) (page id : Nat) (w : Bool) :
    (s.pipeclose page id w).file = s.file ∧ (s.pipeclose page id w).ofile = s.ofile ∧
      (s.pipeclose page id w).panicked = s.panicked ∧
      (s.pipeclose page id w).running = s.running ∧ (s.pipeclose page id w).inCall = s.inCall := by
  unfold FileSys.pipeclose
  split
  · exact ⟨rfl, rfl, rfl, rfl, rfl⟩
  · split
    · exact ⟨rfl, rfl, rfl, rfl, rfl⟩
    · dsimp only
      split <;> exact ⟨rfl, rfl, rfl, rfl, rfl⟩

theorem FileRefs.fileclose (h : FileRefs extra s) (hf : 1 ≤ (s.file f).ref) :
    FileRefs (addRef extra f (-1)) (s.fileclose f) := by
  unfold FileSys.fileclose
  rw [if_neg (by omega)]
  split
  · exact h.setRef (by omega) (by omega)
  · have hone : (s.file f).ref = 1 := by omega
    have hr : ((0 : Nat) : Int) = (s.file f).ref + -1 := by omega
    dsimp only
    split
    · rename_i hpipe
      obtain ⟨hfile, hofile, hpanic, -⟩ := pipeclose_same
        (s.setFile f { s.file f with ref := 0, type := .none }) (s.file f).pipe (s.file f).pipeId
        (s.file f).writable
      exact h.setEntry hr (fun _ => rfl) hfile hofile hpanic (h.pipes.pipeclose hpipe rfl)
    · rename_i hpipe
      exact h.setEntry hr (fun _ => rfl) rfl rfl rfl
        (h.pipes.setFile (by simpa using hpipe) (by simp))

theorem FileRefs.setProcs {extra' : Fin nfile → Int} (h : FileRefs extra s)
    {ofile : Fd → Option (Fin nfile)} {running : Fin nproc → Bool}
    {inCall : Fin nproc → Option (Fin nfile)}
    (hcount : ∀ g, ((s.file g).ref : Int) = holders ofile g + extra' g) :
    FileRefs extra' { s with ofile := ofile, running := running, inCall := inCall } where
  count := hcount
  unused := h.unused
  pipes := ⟨h.pipes.isOpen, h.pipes.hasFile, h.pipes.someEnd, h.pipes.oneFile, h.pipes.idFresh,
    h.pipes.onePage, h.pipes.freedNodup, h.pipes.freedGone, h.pipes.accounted, h.pipes.freeNodup,
    h.pipes.freeGone, h.pipes.takenGone, h.pipes.takenNodup, h.pipes.notStale⟩
  notPanicked := h.notPanicked

theorem FileRefs.setFd (h : FileRefs extra s) (hx : s.ofile x = none) :
    FileRefs (addRef extra f (-1)) (s.setFd x (some f)) := by
  refine h.setProcs fun g => ?_
  have hcount := h.count g
  rw [holders_set hx, addRef]
  by_cases hg : g = f
  · subst hg
    rw [if_pos rfl, Function.update_self]
    omega
  · rw [if_neg hg, Function.update_of_ne hg]
    omega

theorem FileRefs.clearFd (h : FileRefs extra s) (hx : s.ofile x = some f) :
    FileRefs (addRef extra f 1) (s.setFd x none) := by
  refine h.setProcs fun g => ?_
  have hcount := h.count g
  rw [holders_clear hx] at hcount
  rw [addRef]
  by_cases hg : g = f
  · subst hg
    rw [if_pos rfl] at hcount
    rw [Function.update_self]
    push_cast at hcount
    omega
  · rw [if_neg hg, Nat.add_zero] at hcount
    rw [Function.update_of_ne hg]
    exact hcount

theorem FileRefs.ref_pos (h : FileRefs extra s) (hx : s.ofile x = some f) (hextra : 0 ≤ extra f) :
    1 ≤ (s.file f).ref := by
  have hpos : 0 < holders s.ofile f := holders_pos.mpr ⟨x, hx⟩
  have := h.count f
  omega

theorem fdalloc_some {fd : Fin nofile} (hs : s.fdalloc p f = (some fd, s')) :
    s.ofile (p, fd) = none ∧ s' = s.setFd (p, fd) (some f) := by
  unfold FileSys.fdalloc at hs
  split at hs
  · cases hs
  · rename_i fd' hfind
    cases hs
    exact ⟨by simpa using List.find?_some hfind, rfl⟩

theorem fdalloc_none (hs : s.fdalloc p f = (none, s')) : s' = s := by
  unfold FileSys.fdalloc at hs
  split at hs
  · cases hs
    rfl
  · cases hs

@[simp]
theorem addRef_cancel (extra : Fin nfile → Int) (f : Fin nfile) (k : Int) :
    addRef (addRef extra f k) f (-k) = extra := by
  unfold addRef
  rw [Function.update_idem, Function.update_self, Int.add_neg_cancel_right, Function.update_eq_self]

@[simp]
theorem addRef_cancel' (extra : Fin nfile → Int) (f : Fin nfile) (k : Int) :
    addRef (addRef extra f (-k)) f k = extra := by
  unfold addRef
  rw [Function.update_idem, Function.update_self, Int.neg_add_cancel_right, Function.update_eq_self]

theorem addRef_comm (extra : Fin nfile → Int) (f g : Fin nfile) (k l : Int) :
    addRef (addRef extra f k) g l = addRef (addRef extra g l) f k := by
  by_cases hfg : f = g
  · subst hfg
    simp only [addRef, Function.update_idem, Function.update_self]
    congr 1
    omega
  · unfold addRef
    rw [Function.update_of_ne hfg, Function.update_of_ne (Ne.symm hfg), Function.update_comm hfg]

theorem FileRefs.sysDup (h : FileRefs 0 s) (p : Fin nproc) (fd : Fin nofile) :
    FileRefs 0 (s.sysDup p fd) := by
  unfold FileSys.sysDup
  split
  · exact h
  · rename_i f hfd
    split
    · rename_i s1 hs
      rw [fdalloc_none hs]
      exact h
    · rename_i fd' s1 hs
      obtain ⟨hnone, rfl⟩ := fdalloc_some hs
      have hset := h.setFd (f := f) hnone
      have hdup := hset.filedup (f := f) (h.ref_pos hfd le_rfl)
      rwa [addRef_cancel'] at hdup

theorem FileRefs.sysClose (h : FileRefs 0 s) (p : Fin nproc) (fd : Fin nofile) :
    FileRefs 0 (s.sysClose p fd) := by
  unfold FileSys.sysClose
  split
  · exact h
  · rename_i f hfd
    have hclose := (h.clearFd hfd).fileclose (f := f) (h.ref_pos hfd le_rfl)
    rwa [addRef_cancel] at hclose

theorem FileRefs.setInode (h : FileRefs extra s) (hnone : (s.file f).type = .none)
    (href : (s.file f).ref ≠ 0) (readable writable : Bool) :
    FileRefs extra (s.setFile f { s.file f with
      type := .inode, readable := readable, writable := writable }) where
  count g := by
    by_cases hg : g = f
    · subst hg
      rw [setFile_self]
      exact h.count g
    · rw [setFile_of_ne s _ hg]
      exact h.count g
  unused g hg := by
    by_cases hgf : g = f
    · subst hgf
      rw [setFile_self] at hg
      exact absurd hg href
    · rw [setFile_of_ne s _ hgf] at hg ⊢
      exact h.unused g hg
  pipes := h.pipes.setFile (by simp [hnone]) (by simp)
  notPanicked := h.notPanicked

theorem FileRefs.sysOpen (h : FileRefs 0 s) (p : Fin nproc) (readable writable : Bool) :
    FileRefs 0 (s.sysOpen p readable writable) := by
  unfold FileSys.sysOpen
  split
  · rename_i s1 hs
    rw [filealloc_none hs]
    exact h
  · rename_i f s1 hs
    obtain ⟨h1, hnone, hone⟩ := h.filealloc hs
    split
    · rename_i s2 hs2
      rw [fdalloc_none hs2]
      have hclose := h1.fileclose (f := f) (by omega)
      rwa [addRef_cancel] at hclose
    · rename_i fd s2 hs2
      obtain ⟨hfd, rfl⟩ := fdalloc_some hs2
      have h2 := h1.setFd (f := f) hfd
      rw [addRef_cancel] at h2
      exact h2.setInode hnone (by change (s1.file f).ref ≠ 0; omega) readable writable

theorem PipeRefs.created {f0 f1 : Fin nfile} {page : Nat} (h : PipeRefs s)
    (h0 : (s.file f0).type = .none) (h1 : (s.file f1).type = .none)
    (hf0 : s'.file f0 = { s.file f0 with
      type := .pipe, readable := true, writable := false, pipe := page, pipeId := s.nextPipe })
    (hf1 : s'.file f1 = { s.file f1 with
      type := .pipe, readable := false, writable := true, pipe := page, pipeId := s.nextPipe })
    (hother : ∀ g ≠ f0, g ≠ f1 → s'.file g = s.file g)
    (hpipe : s'.pipe = Function.update s.pipe page (some ⟨s.nextPipe, true, true⟩))
    (hnext : s'.nextPipe = s.nextPipe + 1) (hfreed : s'.freed = s.freed)
    (hfree : s.free = page :: s'.free) (htaken : s'.taken = s.taken) (hstale : s'.stale = s.stale) :
    PipeRefs s' := by
  obtain ⟨hgone, hnot⟩ := h.freeGone page (by rw [hfree]; exact List.mem_cons_self)
  obtain ⟨k1, k2, k3, k4, k5, k6, k7, k8, k9, k10, k11, k12, k13, k14⟩ := h
  -- no file has the page before
  have hnew : ∀ g, (s.file g).type = .pipe → (s.file g).pipe ≠ page := by
    intro g hg hpg
    obtain ⟨p, hp, -⟩ := k1 g hg
    rw [hpg, hgone] at hp
    cases hp
  have hself : s'.pipe page = some ⟨s.nextPipe, true, true⟩ := by rw [hpipe, Function.update_self]
  have hkeep : ∀ q ≠ page, s'.pipe q = s.pipe q := fun q hq => by
    rw [hpipe, Function.update_of_ne hq]
  clear hpipe
  constructor
  case isOpen =>
    intro g hg
    by_cases hg0 : g = f0
    · rw [hg0, hf0]
      exact ⟨_, hself, rfl, rfl⟩
    · by_cases hg1 : g = f1
      · rw [hg1, hf1]
        exact ⟨_, hself, rfl, rfl⟩
      · rw [hother g hg0 hg1] at hg ⊢
        rw [hkeep _ (hnew g hg)]
        exact k1 g hg
  case hasFile =>
    intro q p w hq hw
    by_cases hqp : q = page
    · subst hqp
      cases w with
      | false => exact ⟨f0, by rw [hf0]; exact ⟨rfl, rfl, rfl⟩⟩
      | true => exact ⟨f1, by rw [hf1]; exact ⟨rfl, rfl, rfl⟩⟩
    · rw [hkeep q hqp] at hq
      obtain ⟨g, ht, hg, hgw⟩ := k2 q p w hq hw
      refine ⟨g, ?_⟩
      rw [hother g (fun heq => by rw [heq, h0] at ht; cases ht)
        (fun heq => by rw [heq, h1] at ht; cases ht)]
      exact ⟨ht, hg, hgw⟩
  case oneFile =>
    clear k1 k2 k3 k5 k6 k7 k8 k9 k10 k11 k12 k13
    grind
  case someEnd =>
    intro q p hq
    by_cases hqp : q = page
    · subst hqp
      rw [hself] at hq
      cases hq
      exact ⟨false, rfl⟩
    · rw [hkeep q hqp] at hq
      exact k3 q p hq
  case accounted =>
    intro id hid
    rw [hnext] at hid
    rw [hfreed]
    by_cases hidn : id = s.nextPipe
    · exact .inr ⟨page, _, hself, hidn.symm⟩
    · refine (k9 id (by omega)).imp_right ?_
      rintro ⟨q, p, hq, hp⟩
      have hqp : q ≠ page := by
        rintro rfl
        rw [hgone] at hq
        cases hq
      exact ⟨q, p, (hkeep q hqp).trans hq, hp⟩
  all_goals
    clear k1 k2 k3 k4 k9 hnew hf0 hf1 hother
    grind

theorem FileRefs.pipeInit {f0 f1 : Fin nfile} {page : Nat} {rest : List Nat} (h : FileRefs extra s)
    (hfree : s.free = page :: rest) (hne : f0 ≠ f1) (h0 : (s.file f0).type = .none)
    (h1 : (s.file f1).type = .none) (hr0 : (s.file f0).ref ≠ 0) (hr1 : (s.file f1).ref ≠ 0) :
    FileRefs extra ({ s with free := rest }.pipeInit page f0 f1) := by
  have hf0 : ({ s with free := rest }.pipeInit page f0 f1).file f0 = { s.file f0 with
      type := .pipe, readable := true, writable := false, pipe := page, pipeId := s.nextPipe } :=
    (setFile_of_ne _ _ hne).trans (setFile_self ..)
  have hf1 : ({ s with free := rest }.pipeInit page f0 f1).file f1 = { s.file f1 with
      type := .pipe, readable := false, writable := true, pipe := page, pipeId := s.nextPipe } := by
    refine (setFile_self ..).trans ?_
    rw [setFile_of_ne _ _ hne.symm]
  have hother : ∀ g ≠ f0, g ≠ f1 →
      ({ s with free := rest }.pipeInit page f0 f1).file g = s.file g :=
    fun g hg0 hg1 => (setFile_of_ne _ _ hg1).trans (setFile_of_ne _ _ hg0)
  refine ⟨?_, ?_, ?_, h.notPanicked⟩
  · intro g
    have hcount := h.count g
    change _ = (holders s.ofile g : Int) + _
    rw [← hcount]
    by_cases hg0 : g = f0
    · rw [hg0, hf0]
    · by_cases hg1 : g = f1
      · rw [hg1, hf1]
      · rw [hother g hg0 hg1]
  · intro g hg
    have hg0 : g ≠ f0 := by
      rintro rfl
      rw [hf0] at hg
      exact hr0 hg
    have hg1 : g ≠ f1 := by
      rintro rfl
      rw [hf1] at hg
      exact hr1 hg
    rw [hother g hg0 hg1] at hg ⊢
    exact h.unused g hg
  · exact h.pipes.created h0 h1 hf0 hf1 hother rfl rfl rfl hfree rfl rfl

theorem filealloc_same (hs : s.filealloc = (some f, s')) :
    s'.ofile = s.ofile ∧ s'.free = s.free ∧ s'.running = s.running ∧ s'.inCall = s.inCall ∧
      ∀ g ≠ f, s'.file g = s.file g := by
  obtain ⟨-, rfl⟩ := filealloc_some hs
  exact ⟨rfl, rfl, rfl, rfl, fun g hg => setFile_of_ne s _ hg⟩

theorem fileclose_other (s : FileSys) {f g : Fin nfile} (h : g ≠ f) :
    (s.fileclose f).file g = s.file g := by
  unfold FileSys.fileclose
  split
  · rfl
  · split
    · exact setFile_of_ne s _ h
    · dsimp only
      split
      · rw [(pipeclose_same _ _ _ _).1, setFile_of_ne s _ h]
      · exact setFile_of_ne s _ h

theorem FileRefs.pipealloc_none (h : FileRefs 0 s) (hs : s.pipealloc = (none, s')) :
    FileRefs 0 s' := by
  unfold FileSys.pipealloc at hs
  split at hs
  · rename_i s1 hs1
    cases hs
    rwa [filealloc_none hs1]
  · rename_i f0 s1 hs1
    obtain ⟨h1, -, hone0⟩ := h.filealloc hs1
    split at hs
    · rename_i s2 hs2
      cases hs
      rw [filealloc_none hs2]
      have hclose := h1.fileclose (f := f0) (by omega)
      rwa [addRef_cancel] at hclose
    · rename_i f1 s2 hs2
      obtain ⟨h2, -, hone1⟩ := h1.filealloc hs2
      obtain ⟨hzero, rfl⟩ := filealloc_some hs2
      have hne : f0 ≠ f1 := by
        rintro rfl
        omega
      split at hs
      · cases hs
        have hr0 : 1 ≤ ((s1.setFile f1 { s1.file f1 with ref := 1 }).file f0).ref := by
          rw [setFile_of_ne _ _ hne]
          omega
        have hclose0 := h2.fileclose hr0
        have hclose1 := hclose0.fileclose (f := f1) (by
          rw [fileclose_other _ hne.symm]
          omega)
        rwa [addRef_comm _ f1, addRef_cancel, addRef_cancel] at hclose1
      · cases hs

theorem FileRefs.pipealloc_some {rf wf : Fin nfile} (h : FileRefs 0 s)
    (hs : s.pipealloc = (some (rf, wf), s')) :
    FileRefs (addRef (addRef 0 rf 1) wf 1) s' ∧ rf ≠ wf ∧ (s'.file rf).ref = 1 ∧
      (s'.file wf).ref = 1 ∧ s'.ofile = s.ofile := by
  unfold FileSys.pipealloc at hs
  split at hs
  · cases hs
  · rename_i f0 s1 hs1
    obtain ⟨h1, ht0, hone0⟩ := h.filealloc hs1
    split at hs
    · cases hs
    · rename_i f1 s2 hs2
      obtain ⟨h2, ht1, hone1⟩ := h1.filealloc hs2
      obtain ⟨hzero, -⟩ := filealloc_some hs2
      have hne : f0 ≠ f1 := by
        rintro rfl
        omega
      obtain ⟨hofile1, -⟩ := filealloc_same hs1
      obtain ⟨hofile2, -, -, -, hother⟩ := filealloc_same hs2
      have hf0 := hother f0 hne
      split at hs
      · cases hs
      · rename_i page rest hfree
        cases hs
        refine ⟨h2.pipeInit hfree hne (by rw [hf0, ht0]) ht1 (by rw [hf0]; omega) (by omega), hne,
          ?_, ?_, hofile2.trans hofile1⟩
        · rw [FileSys.pipeInit, setFile_of_ne _ _ hne, setFile_self]
          exact (congrArg File.ref hf0).trans hone0
        · rw [FileSys.pipeInit, setFile_self]
          dsimp only
          rw [setFile_of_ne _ _ hne.symm]
          exact hone1

theorem FileRefs.sysPipe (h : FileRefs 0 s) (p : Fin nproc) : FileRefs 0 (s.sysPipe p) := by
  unfold FileSys.sysPipe
  split
  · rename_i s1 hs1
    exact h.pipealloc_none hs1
  · rename_i rf wf s1 hs1
    obtain ⟨h1, hne, hr, hw, -⟩ := h.pipealloc_some hs1
    split
    · rename_i s2 hs2
      rw [fdalloc_none hs2]
      have hclose0 := h1.fileclose (f := rf) (by omega)
      have hclose1 := hclose0.fileclose (f := wf) (by
        rw [fileclose_other _ hne.symm]
        omega)
      rwa [addRef_comm _ wf, addRef_cancel, addRef_cancel] at hclose1
    · rename_i fd0 s2 hs2
      obtain ⟨hfd0, rfl⟩ := fdalloc_some hs2
      have h2 := h1.setFd (f := rf) hfd0
      rw [addRef_comm _ wf, addRef_cancel] at h2
      split
      · rename_i s3 hs3
        rw [fdalloc_none hs3]
        have h3 := h2.clearFd (x := (p, fd0)) (f := rf) (Function.update_self ..)
        have hclose0 := h3.fileclose (f := rf) (by
          change 1 ≤ (s1.file rf).ref
          omega)
        have hclose1 := hclose0.fileclose (f := wf) (by
          rw [fileclose_other _ hne.symm]
          change 1 ≤ (s1.file wf).ref
          omega)
        rwa [addRef_cancel, addRef_cancel] at hclose1
      · rename_i fd1 s3 hs3
        obtain ⟨hfd1, rfl⟩ := fdalloc_some hs3
        have h3 := h2.setFd (f := wf) hfd1
        rwa [addRef_cancel] at h3
end Xv6
