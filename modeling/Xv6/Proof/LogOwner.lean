import Xv6.Proof.NoDeadlock

/-!
# Whose transaction a logged write belongs to

`log_write` only tests that some transaction is active. It is the caller's own in every call as long
as `iput` drops the last reference to an unlinked inode, and `bmap` fills a hole, inside a
transaction.
-/

namespace Xv6

def ownerDiscipline : Discipline FsLock FsRead where
  mayTake _ _ := True
  needs
    | .logCount, h => .log ∈ h
    | _, _ => True
  mayRead
    | .hole, h, v => v ≠ 0 → .log ∈ h
    | .lastRef, h, v => v ≠ 0 → .log ∈ h
    | _, _, _ => True
  mayPanic msg := msg ≠ "write outside of trans"

namespace FsLocks

def AnyTime {α : Type} (x : FsProg α) : Prop :=
  ∀ h, WP ownerDiscipline x (fun _ h' => Own h → Own h') h

def InTrans {α : Type} (x : FsProg α) : Prop :=
  ∀ h, Own h → WP ownerDiscipline x (fun _ h' => Own h') h

variable {sb : SuperBlock} {α β : Type}

theorem AnyTime.inTrans {x : FsProg α} (hx : AnyTime x) : InTrans x := fun h hown =>
  (hx h).mono fun _ _ hh' => hh' hown

theorem AnyTime.bind {x : FsProg α} {f : α → FsProg β} (hx : AnyTime x)
    (hf : ∀ a, AnyTime (f a)) : AnyTime (x >>= f) := fun h =>
  (hx h).bind fun a h' hh' => (hf a h').mono fun _ _ hh'' hown => hh'' (hh' hown)

theorem InTrans.bind {x : FsProg α} {f : α → FsProg β} (hx : InTrans x)
    (hf : ∀ a, InTrans (f a)) : InTrans (x >>= f) := fun h hown =>
  (hx h hown).bind fun a h' hown' => hf a h' hown'

theorem anyTime_pure (a : α) : AnyTime (pure a : FsProg α) := fun _ hown => hown

theorem anyTime_halt {msg : String} (hmsg : msg ≠ "write outside of trans") :
    AnyTime (.halt msg : FsProg α) := fun _ => hmsg

theorem anyTime_bread (b : Nat) : AnyTime (bread b) := fun _ =>
  ⟨trivial, fun hown => List.mem_cons_of_mem _ hown⟩

theorem own_erase {h : List FsLock} {l : FsLock} (hl : l ≠ .log) (hown : Own h) :
    Own (h.erase l) := (List.mem_erase_of_ne hl.symm).mpr hown

theorem anyTime_brelse (b : Nat) : AnyTime (brelse b) := fun _ => own_erase (by simp)

theorem anyTime_iunlock (i : Nat) : AnyTime (iunlock i) := fun _ => own_erase (by simp)

theorem needs_of_ne {q : FsRead} (hq : q ≠ .logCount) (h : List FsLock) :
    ownerDiscipline.needs q h := by
  cases q with
  | logCount => exact absurd rfl hq
  | _ => trivial

theorem anyTime_read {q : FsRead} (hq : q ≠ .logCount) : AnyTime (read q) := fun h =>
  ⟨needs_of_ne hq h, fun _ _ hown => hown⟩

theorem anyTime_test {q : FsRead} (hq : q ≠ .logCount) : AnyTime (test q) := fun h =>
  ⟨needs_of_ne hq h, fun _ _ hown => hown⟩

theorem anyTime_value : AnyTime (read .value) := anyTime_read (by simp)

theorem anyTime_testValue : AnyTime (test .value) := anyTime_test (by simp)

theorem anyTime_if {x y : FsProg α} (hx : AnyTime x) (hy : AnyTime y) (c : Prop) [Decidable c] :
    AnyTime (if c then x else y) := by
  split
  · exact hx
  · exact hy

theorem inTrans_if {x y : FsProg α} (hx : InTrans x) (hy : InTrans y) (c : Prop) [Decidable c] :
    InTrans (if c then x else y) := by
  split
  · exact hx
  · exact hy

theorem anyTime_own {q : FsRead} {x y : FsProg α} (hq : q ≠ .logCount)
    (hown : ∀ h v, v ≠ 0 → ownerDiscipline.mayRead q h v → Own h) (hx : InTrans x)
    (hy : AnyTime y) : AnyTime (test q >>= fun b => if b = true then x else y) := by
  refine fun h => ⟨needs_of_ne hq h, fun v hv => ?_⟩
  change WP _ (if decide (v ≠ 0) = true then x else y) _ h
  by_cases hz : v = 0
  · rw [if_neg (by simpa using hz)]
    exact hy h
  · rw [if_pos (by simpa using hz)]
    exact (hx h (hown h v hz hv)).mono fun _ _ hh' _ => hh'

theorem anyTime_repeatN {body : Nat → FsProg Unit} (hbody : ∀ i, AnyTime (body i)) (i n : Nat) :
    AnyTime (LockProg.repeatN body i n) := by
  induction n generalizing i with
  | zero => exact anyTime_pure ()
  | succ n ih => exact (hbody i).bind fun _ => ih (i + 1)

theorem inTrans_repeatN {body : Nat → FsProg Unit} (hbody : ∀ i, InTrans (body i)) (i n : Nat) :
    InTrans (LockProg.repeatN body i n) := by
  induction n generalizing i with
  | zero => exact (anyTime_pure ()).inTrans
  | succ n ih => exact (hbody i).bind fun _ => ih (i + 1)

theorem anyTime_searchN {body : Nat → FsProg (Option α)} (hbody : ∀ i, AnyTime (body i))
    (i n : Nat) : AnyTime (LockProg.searchN body i n) := by
  induction n generalizing i with
  | zero => exact anyTime_pure none
  | succ n ih =>
    refine (hbody i).bind fun r => ?_
    cases r with
    | some a => exact anyTime_pure (some a)
    | none => exact ih (i + 1)

theorem inTrans_searchN {body : Nat → FsProg (Option α)} (hbody : ∀ i, InTrans (body i))
    (i n : Nat) : InTrans (LockProg.searchN body i n) := by
  induction n generalizing i with
  | zero => exact (anyTime_pure none).inTrans
  | succ n ih =>
    refine (hbody i).bind fun r => ?_
    cases r with
    | some a => exact (anyTime_pure (some a)).inTrans
    | none => exact ih (i + 1)

theorem inTrans_logWrite : InTrans (logWrite sb) := by
  refine fun h hown => ⟨hown, fun n _ => ?_⟩
  change WP _ (if _ then _ else _) _ h
  split
  · exact (by decide : "too big a transaction" ≠ "write outside of trans")
  · intro busy hbusy
    rw [hbusy hown]
    have hrest : AnyTime (do
        let i ← read .value
        bread (sb.logStart + min i n + 1)
        brelse (sb.logStart + min i n + 1)) :=
      anyTime_value.bind fun _ => (anyTime_bread _).bind fun _ => anyTime_brelse _
    exact hrest.inTrans h hown

theorem inTrans_logged (b : Nat) : InTrans (do bread b; logWrite sb; brelse b) :=
  (anyTime_bread b).inTrans.bind fun _ => inTrans_logWrite.bind fun _ => (anyTime_brelse b).inTrans

theorem anyTime_readsb : AnyTime readsb := (anyTime_bread 1).bind fun _ => anyTime_brelse 1

theorem inTrans_balloc : InTrans (balloc sb) := by
  refine anyTime_readsb.inTrans.bind fun _ => ?_
  refine (inTrans_searchN (fun k => ?_) _ _).bind fun r => ?_
  · refine (anyTime_bread _).inTrans.bind fun _ => ?_
    refine anyTime_testValue.inTrans.bind fun _ => inTrans_if ?_ ?_ _
    · refine inTrans_logWrite.bind fun _ => (anyTime_brelse _).inTrans.bind fun _ => ?_
      refine (anyTime_read (by simp)).inTrans.bind fun b => ?_
      exact (inTrans_logged b).bind fun _ => (anyTime_pure _).inTrans
    · exact ((anyTime_brelse _).bind fun _ => anyTime_pure _).inTrans
  · cases r with
    | some b => exact (anyTime_pure b).inTrans
    | none => exact (anyTime_halt (by decide)).inTrans

theorem inTrans_bfree (b : Nat) : InTrans (bfree sb b) := by
  refine anyTime_readsb.inTrans.bind fun _ => (anyTime_bread _).inTrans.bind fun _ => ?_
  refine anyTime_testValue.inTrans.bind fun _ => inTrans_if ?_ ?_ _
  · exact inTrans_logWrite.bind fun _ => (anyTime_brelse _).inTrans
  · exact (anyTime_halt (by decide)).inTrans

theorem inTrans_iupdate (i : Nat) : InTrans (iupdate sb i) := inTrans_logged _

theorem inTrans_ialloc : InTrans (ialloc sb) := by
  refine anyTime_readsb.inTrans.bind fun _ => ?_
  refine (inTrans_searchN (fun i => ?_) _ _).bind fun r => ?_
  · refine (anyTime_bread _).inTrans.bind fun _ => ?_
    refine (anyTime_test (by simp)).inTrans.bind fun _ => inTrans_if ?_ ?_ _
    · refine inTrans_logWrite.bind fun _ => (anyTime_brelse _).inTrans.bind fun _ => ?_
      exact (anyTime_pure _).inTrans
    · exact ((anyTime_brelse _).bind fun _ => anyTime_pure _).inTrans
  · cases r with
    | some i => exact (anyTime_pure i).inTrans
    | none => exact (anyTime_halt (by decide)).inTrans

theorem anyTime_ilock (i : Nat) : AnyTime (ilock i) := by
  have hlock : AnyTime (LockProg.acquire (.inode i) (.ret ()) : FsProg Unit) := fun _ =>
    ⟨trivial, fun hown => List.mem_cons_of_mem _ hown⟩
  refine hlock.bind fun _ => anyTime_testValue.bind fun _ => ?_
  refine anyTime_if (anyTime_pure ()) ?_ _
  refine (anyTime_bread _).bind fun _ => (anyTime_brelse _).bind fun _ => ?_
  exact anyTime_testValue.bind fun _ =>
    anyTime_if (anyTime_pure ()) (anyTime_halt (by decide)) _

theorem inTrans_freeEntry : InTrans (freeEntry sb) :=
  anyTime_testValue.inTrans.bind fun _ =>
    inTrans_if ((anyTime_read (by simp)).inTrans.bind inTrans_bfree)
      (anyTime_pure _).inTrans _

theorem inTrans_itrunc (i : Nat) : InTrans (itrunc sb i) := by
  refine (inTrans_repeatN (fun _ => inTrans_freeEntry) _ _).bind fun _ => ?_
  refine anyTime_testValue.inTrans.bind fun _ => inTrans_if ?_ (inTrans_iupdate i) _
  refine (anyTime_read (by simp)).inTrans.bind fun b => ?_
  refine (anyTime_bread b).inTrans.bind fun _ => ?_
  refine (inTrans_repeatN (fun _ => inTrans_freeEntry) _ _).bind fun _ => ?_
  refine (anyTime_brelse b).inTrans.bind fun _ => ?_
  exact (inTrans_bfree b).bind fun _ => inTrans_iupdate i

theorem anyTime_iput (i : Nat) : AnyTime (iput sb i) := by
  refine anyTime_own (by simp) (fun _ _ hv hread => hread hv) ?_ (anyTime_pure _)
  have hclaim : InTrans (LockProg.claim (.inode i) "iput busy" (.ret ()) : FsProg Unit) :=
    fun _ hown => ⟨(by decide : "iput busy" ≠ "write outside of trans"),
      fun _ => List.mem_cons_of_mem _ hown⟩
  refine hclaim.bind fun _ => (inTrans_itrunc i).bind fun _ => (inTrans_iupdate i).bind fun _ => ?_
  exact (anyTime_iunlock i).inTrans

theorem anyTime_iunlockput (i : Nat) : AnyTime (iunlockput sb i) :=
  (anyTime_iunlock i).bind fun _ => anyTime_iput i

theorem anyTime_entryBlock : AnyTime (entryBlock sb) :=
  anyTime_own (by simp) (fun _ _ hv hread => hread hv) inTrans_balloc
    (anyTime_read (by simp))

theorem anyTime_bmap (bn : Nat) : AnyTime (bmap sb bn) := by
  refine anyTime_if anyTime_entryBlock (anyTime_if ?_ (anyTime_halt (by decide)) _) _
  refine anyTime_entryBlock.bind fun addr => (anyTime_bread addr).bind fun _ => ?_
  refine anyTime_own (by simp) (fun _ _ hv hread => hread hv) ?_ ?_
  · refine inTrans_balloc.bind fun b => inTrans_logWrite.bind fun _ => ?_
    exact ((anyTime_brelse addr).bind fun _ => anyTime_pure b).inTrans
  · refine (anyTime_read (by simp)).bind fun b => ?_
    exact (anyTime_brelse addr).bind fun _ => anyTime_pure b

theorem anyTime_readi : AnyTime (readi sb) := by
  refine anyTime_testValue.bind fun _ => anyTime_if (anyTime_pure ()) ?_ _
  refine anyTime_value.bind fun bn => anyTime_value.bind fun n => ?_
  refine anyTime_repeatN (fun bn => ?_) _ _
  exact (anyTime_bmap bn).bind fun b => (anyTime_bread b).bind fun _ => anyTime_brelse b

theorem inTrans_writei (i : Nat) : InTrans (writei sb i) := by
  refine anyTime_testValue.inTrans.bind fun _ => inTrans_if (anyTime_pure ()).inTrans ?_ _
  refine anyTime_value.inTrans.bind fun bn => ?_
  refine anyTime_value.inTrans.bind fun n => ?_
  refine (inTrans_repeatN (fun bn => ?_) _ _).bind fun _ => ?_
  · exact (anyTime_bmap bn).inTrans.bind inTrans_logged
  · exact anyTime_testValue.inTrans.bind fun _ =>
      inTrans_if (inTrans_iupdate i) (anyTime_pure _).inTrans _

theorem anyTime_dirlookup (dp : Nat) (dots : Bool) : AnyTime (dirlookup sb dp dots) := by
  refine anyTime_testValue.bind fun _ => anyTime_if ?_ (anyTime_halt (by decide)) _
  refine anyTime_value.bind fun n => anyTime_searchN (fun _ => ?_) _ _
  refine anyTime_readi.bind fun _ => anyTime_testValue.bind fun _ => anyTime_if ?_ ?_ _
  · exact (anyTime_read (by simp)).bind fun i => anyTime_pure _
  · exact anyTime_pure _

theorem inTrans_dirlink (dp : Nat) : InTrans (dirlink sb dp) := by
  refine (anyTime_dirlookup dp true).inTrans.bind fun r => ?_
  cases r with
  | some ip => exact ((anyTime_iput ip).bind fun _ => anyTime_pure false).inTrans
  | none =>
    refine anyTime_value.inTrans.bind fun n => ?_
    refine (anyTime_repeatN (fun _ => anyTime_readi) _ _).inTrans.bind fun _ => ?_
    refine (inTrans_writei dp).bind fun _ => anyTime_testValue.inTrans.bind fun _ => ?_
    exact inTrans_if (anyTime_pure true).inTrans (anyTime_halt (by decide)).inTrans _

theorem inTrans_mustLink (dp : Nat) {msg : String} (hmsg : msg ≠ "write outside of trans") :
    InTrans (mustLink sb dp msg) :=
  (inTrans_dirlink dp).bind fun _ =>
    inTrans_if (anyTime_pure ()).inTrans (anyTime_halt hmsg).inTrans _

theorem anyTime_isdirempty : AnyTime (isdirempty sb) :=
  anyTime_value.bind fun _ =>
    (anyTime_repeatN (fun _ => anyTime_readi) _ _).bind fun _ => anyTime_testValue

theorem anyTime_walk (parent : Bool) (n ip : Nat) : AnyTime (walk sb parent n ip) := by
  induction n generalizing ip with
  | zero =>
    exact anyTime_if ((anyTime_iput ip).bind fun _ => anyTime_pure none) (anyTime_pure _) _
  | succ n ih =>
    refine (anyTime_ilock ip).bind fun _ => anyTime_testValue.bind fun _ => ?_
    refine anyTime_if (anyTime_if ?_ ?_ _) ?_ _
    · exact (anyTime_iunlock ip).bind fun _ => anyTime_pure _
    · refine (anyTime_dirlookup ip true).bind fun r => ?_
      cases r with
      | none => exact (anyTime_iunlockput ip).bind fun _ => anyTime_pure none
      | some next => exact (anyTime_iunlockput ip).bind fun _ => ih next
    · exact (anyTime_iunlockput ip).bind fun _ => anyTime_pure none

theorem anyTime_namex (parent : Bool) : AnyTime (namex sb parent) :=
  (anyTime_read (by simp)).bind fun ip =>
    anyTime_value.bind fun n => anyTime_walk parent n ip

def Whole (x : FsProg α) : Prop := ∀ h, WP ownerDiscipline x (fun _ _ => True) h

def Commits (x : FsProg α) : Prop := ∀ h, Own h → WP ownerDiscipline x (fun _ _ => True) h

theorem AnyTime.whole {x : FsProg α} (hx : AnyTime x) : Whole x := fun h =>
  (hx h).mono fun _ _ _ => trivial

theorem Whole.bind {x : FsProg α} {f : α → FsProg β} (hx : Whole x) (hf : ∀ a, Whole (f a)) :
    Whole (x >>= f) := fun h => (hx h).bind fun a h' _ => hf a h'

theorem Whole.commits {x : FsProg α} (hx : Whole x) : Commits x := fun h _ => hx h

theorem InTrans.commits {x : FsProg α} {f : α → FsProg β} (hx : InTrans x)
    (hf : ∀ a, Commits (f a)) : Commits (x >>= f) := fun h hown => (hx h hown).bind hf

theorem AnyTime.commits {x : FsProg α} {f : α → FsProg β} (hx : AnyTime x)
    (hf : ∀ a, Commits (f a)) : Commits (x >>= f) := hx.inTrans.commits hf

theorem whole_begin {f : Unit → FsProg α} (hf : Commits (f ())) : Whole (beginTrans >>= f) :=
  fun _ => ⟨trivial, hf _ (List.mem_cons_self ..)⟩

theorem whole_if {x y : FsProg α} (hx : Whole x) (hy : Whole y) (c : Prop) [Decidable c] :
    Whole (if c then x else y) := by
  split
  · exact hx
  · exact hy

theorem commits_if {x y : FsProg α} (hx : Commits x) (hy : Commits y) (c : Prop) [Decidable c] :
    Commits (if c then x else y) := by
  split
  · exact hx
  · exact hy

theorem whole_repeatN {body : Nat → FsProg Unit} (hbody : ∀ i, Whole (body i)) (i n : Nat) :
    Whole (LockProg.repeatN body i n) := by
  induction n generalizing i with
  | zero => exact (anyTime_pure ()).whole
  | succ n ih => exact (hbody i).bind fun _ => ih (i + 1)

theorem anyTime_writeHead : AnyTime (writeHead sb) :=
  (anyTime_bread _).bind fun _ => anyTime_brelse _

theorem anyTime_installTrans (n : Nat) : AnyTime (installTrans sb n) :=
  anyTime_repeatN (fun _ => (anyTime_bread _).bind fun _ => (anyTime_read (by simp)).bind fun dst =>
    (anyTime_bread dst).bind fun _ => (anyTime_brelse _).bind fun _ => anyTime_brelse dst) _ _

theorem whole_commitTrans : Whole (commitTrans sb) := by
  have hrelease : Whole (LockProg.release .log (.ret ()) : FsProg Unit) := fun _ => trivial
  refine anyTime_value.whole.bind fun n => whole_if ?_ hrelease _
  refine anyTime_writeHead.whole.bind fun _ => (anyTime_installTrans n).whole.bind fun _ => ?_
  exact anyTime_writeHead.whole.bind fun _ => hrelease

theorem inTrans_createDots (dp ip : Nat) : InTrans (createDots sb dp ip) :=
  (inTrans_iupdate dp).bind fun _ => (inTrans_mustLink ip (by decide)).bind fun _ =>
    inTrans_mustLink ip (by decide)

theorem inTrans_create (isDir : Bool) : InTrans (create sb isDir) := by
  refine (anyTime_namex true).inTrans.bind fun r => ?_
  cases r with
  | none => exact (anyTime_pure none).inTrans
  | some dp =>
    refine (anyTime_ilock dp).inTrans.bind fun _ => ?_
    refine (anyTime_dirlookup dp true).inTrans.bind fun r => ?_
    cases r with
    | some ip =>
      refine AnyTime.inTrans ((anyTime_iunlockput dp).bind fun _ => ?_)
      refine (anyTime_ilock ip).bind fun _ => anyTime_testValue.bind fun _ => ?_
      exact anyTime_if (anyTime_pure _)
        ((anyTime_iunlockput ip).bind fun _ => anyTime_pure none) _
    | none =>
      refine inTrans_ialloc.bind fun ip => (anyTime_ilock ip).inTrans.bind fun _ => ?_
      refine (inTrans_iupdate ip).bind fun _ => ?_
      have hend : InTrans (do
          mustLink sb dp "create: dirlink"
          iunlockput sb dp
          return some ip) :=
        (inTrans_mustLink dp (by decide)).bind fun _ =>
          ((anyTime_iunlockput dp).bind fun _ => anyTime_pure _).inTrans
      exact inTrans_if ((inTrans_createDots dp ip).bind fun _ => hend) hend _

theorem anyTime_openLocked (ip : Nat) : AnyTime (openLocked sb ip) :=
  anyTime_testValue.bind fun _ => anyTime_if (anyTime_iunlock ip) (anyTime_iunlockput ip) _

theorem whole_sysOpen (omodeCreate : Bool) : Whole (sysOpen sb omodeCreate) := by
  refine whole_if (whole_begin ?_) (AnyTime.whole ?_) _
  · refine (inTrans_create false).commits fun r => Whole.commits ?_
    refine whole_commitTrans.bind fun _ => AnyTime.whole ?_
    cases r with
    | none => exact anyTime_pure ()
    | some ip => exact anyTime_openLocked ip
  · refine (anyTime_namex false).bind fun r => ?_
    cases r with
    | none => exact anyTime_pure ()
    | some ip =>
      refine (anyTime_ilock ip).bind fun _ => anyTime_testValue.bind fun _ => ?_
      exact anyTime_if (anyTime_iunlockput ip) (anyTime_openLocked ip) _

theorem whole_sysMake (isDir : Bool) : Whole (sysMake sb isDir) := by
  refine whole_begin (anyTime_testValue.commits fun _ => ?_)
  refine commits_if ((inTrans_create isDir).commits fun r => ?_) whole_commitTrans.commits _
  cases r with
  | none => exact whole_commitTrans.commits
  | some ip => exact (anyTime_iunlockput ip).commits fun _ => whole_commitTrans.commits

theorem commits_linkBad (ip : Nat) : Commits (linkBad sb ip) :=
  (anyTime_ilock ip).commits fun _ => (inTrans_iupdate ip).commits fun _ =>
    (anyTime_iunlockput ip).commits fun _ => whole_commitTrans.commits

theorem whole_sysLink : Whole (sysLink sb) := by
  refine (anyTime_namex false).whole.bind fun r => ?_
  cases r with
  | none => exact (anyTime_pure ()).whole
  | some ip =>
    refine whole_begin ((anyTime_ilock ip).commits fun _ => ?_)
    refine anyTime_testValue.commits fun _ => commits_if ?_ ?_ _
    · exact (anyTime_iunlockput ip).commits fun _ => whole_commitTrans.commits
    · refine (inTrans_iupdate ip).commits fun _ => (anyTime_iunlock ip).commits fun _ => ?_
      refine (anyTime_namex true).commits fun r => ?_
      cases r with
      | none => exact commits_linkBad ip
      | some dp =>
        have hbad : Commits (do
            iunlockput sb dp
            linkBad sb ip) :=
          (anyTime_iunlockput dp).commits fun _ => commits_linkBad ip
        refine (anyTime_ilock dp).commits fun _ => anyTime_testValue.commits fun _ => ?_
        refine commits_if hbad ((inTrans_dirlink dp).commits fun _ => commits_if ?_ hbad _) _
        exact (anyTime_iunlockput dp).commits fun _ => (anyTime_iput ip).commits fun _ =>
          whole_commitTrans.commits

theorem commits_unlinkBad (dp : Nat) : Commits (unlinkBad sb dp) :=
  (anyTime_iunlockput dp).commits fun _ => whole_commitTrans.commits

theorem commits_unlinkEntry (dp ip : Nat) (isDir : Bool) :
    Commits (unlinkEntry sb dp ip isDir) := by
  refine (inTrans_writei dp).commits fun _ => ?_
  have hend : Commits (do
      iunlockput sb dp
      iupdate sb ip
      iunlockput sb ip
      commitTrans sb) :=
    (anyTime_iunlockput dp).commits fun _ => (inTrans_iupdate ip).commits fun _ =>
      (anyTime_iunlockput ip).commits fun _ => whole_commitTrans.commits
  exact commits_if ((inTrans_iupdate dp).commits fun _ => hend) hend _

theorem whole_sysUnlink : Whole (sysUnlink sb) := by
  refine (anyTime_namex true).whole.bind fun r => ?_
  cases r with
  | none => exact (anyTime_pure ()).whole
  | some dp =>
    refine whole_begin ((anyTime_ilock dp).commits fun _ => anyTime_testValue.commits fun _ => ?_)
    refine commits_if (commits_unlinkBad dp) ((anyTime_dirlookup dp false).commits fun r => ?_) _
    cases r with
    | none => exact commits_unlinkBad dp
    | some ip =>
      refine (anyTime_ilock ip).commits fun _ => anyTime_testValue.commits fun _ => ?_
      have hend : Commits (do
          let isDir ← test .value
          if isDir then
            if ← isdirempty sb then unlinkEntry sb dp ip true
            else do
              iunlockput sb ip
              unlinkBad sb dp
          else unlinkEntry sb dp ip false) := by
        refine anyTime_testValue.commits fun _ => ?_
        have hentry : ∀ isDir, Commits (unlinkEntry sb dp ip isDir) := commits_unlinkEntry dp ip
        refine commits_if (anyTime_isdirempty.commits fun _ => ?_) (hentry _) _
        exact commits_if (hentry _)
          ((anyTime_iunlockput ip).commits fun _ => commits_unlinkBad dp) _
      have hhalt : AnyTime (.halt "unlink: nlink < 1" : FsProg PUnit) :=
        anyTime_halt (by decide)
      exact commits_if (hhalt.commits fun _ => hend) hend _

theorem anyTime_sysChdir : AnyTime (sysChdir sb) := by
  refine (anyTime_namex false).bind fun r => ?_
  cases r with
  | none => exact anyTime_pure ()
  | some ip =>
    refine (anyTime_ilock ip).bind fun _ => anyTime_testValue.bind fun _ => ?_
    refine anyTime_if ((anyTime_iunlock ip).bind fun _ => ?_) (anyTime_iunlockput ip) _
    exact (anyTime_read (by simp)).bind anyTime_iput

theorem anyTime_sysRead : AnyTime (sysRead sb) :=
  (anyTime_read (by simp)).bind fun ip => (anyTime_ilock ip).bind fun _ =>
    anyTime_readi.bind fun _ => anyTime_iunlock ip

theorem anyTime_sysFstat : AnyTime sysFstat :=
  (anyTime_read (by simp)).bind fun ip => (anyTime_ilock ip).bind fun _ => anyTime_iunlock ip

theorem whole_sysWrite : Whole (sysWrite sb) := by
  refine (anyTime_read (by simp)).whole.bind fun ip => anyTime_value.whole.bind fun n => ?_
  refine whole_repeatN (fun _ => whole_begin ?_) _ _
  exact (anyTime_ilock ip).commits fun _ => (inTrans_writei ip).commits fun _ =>
    (anyTime_iunlock ip).commits fun _ => whole_commitTrans.commits

theorem whole_sysClose : Whole (sysClose sb) := by
  refine anyTime_testValue.whole.bind fun _ => whole_if ?_ (anyTime_pure _).whole _
  refine (anyTime_read (by simp)).whole.bind fun ip => whole_begin ?_
  exact (anyTime_iput ip).commits fun _ => whole_commitTrans.commits

theorem whole_sysExit : Whole (sysExit sb) :=
  (whole_repeatN (fun _ => whole_sysClose) _ _).bind fun _ =>
    ((anyTime_read (by simp)).bind anyTime_iput).whole

theorem anyTime_sysExec : AnyTime (sysExec sb) := by
  refine (anyTime_namex false).bind fun r => ?_
  cases r with
  | none => exact anyTime_pure ()
  | some ip =>
    refine (anyTime_ilock ip).bind fun _ => anyTime_value.bind fun n => ?_
    exact (anyTime_repeatN (fun _ => anyTime_readi) _ _).bind fun _ => anyTime_iunlockput ip

theorem whole_call (c : FsCall) : Whole (c.prog sb) := by
  cases c with
  | openFile create => exact whole_sysOpen create
  | read => exact anyTime_sysRead.whole
  | write => exact whole_sysWrite
  | close => exact whole_sysClose
  | link => exact whole_sysLink
  | unlink => exact whole_sysUnlink
  | mkdir => exact whole_sysMake true
  | mknod => exact whole_sysMake false
  | chdir => exact anyTime_sysChdir.whole
  | fstat => exact anyTime_sysFstat.whole
  | exec => exact anyTime_sysExec.whole
  | exit => exact whole_sysExit

end FsLocks

section Runs

variable {n : Nat}

def OwnerStep (sb : SuperBlock) (s : LockSys n FsLock FsRead) (e : LockEvent n FsCall)
    (s' : LockSys n FsLock FsRead) : Prop :=
  FsStep sb s e s' ∧ s.Meets ownerDiscipline e

theorem owner_idle : Disciplined ownerDiscipline (fun _ => True) (FsLocks.idle n) where
  keeps _ := trivial
  exclusive _ _ _ hl := nomatch hl

/-- **Logged writes are the owner's.** In every interleaving of file-system calls in which holes are
filled and unlinked inodes freed only inside the process's own transaction, a process that enters
`log_write` is the one process that owns the transaction, and none reaches the panic for a write
outside a transaction. -/
theorem log_write_owner (sb : SuperBlock) {es : List (LockEvent n FsCall)}
    {s : LockSys n FsLock FsRead} (hrun : Run (OwnerStep sb) (FsLocks.idle n) es s) (p : Fin n) :
    ((s p).prog.looksAt = some .logCount →
      .log ∈ (s p).held ∧ ∀ q, .log ∈ (s q).held → q = p) ∧
    (s p).prog.panic ≠ some "write outside of trans" := by
  have hs : Disciplined ownerDiscipline (fun _ => True) s :=
    Run.invariant (Disciplined ownerDiscipline fun _ => True)
      (fun _ _ _ hs hstep => hs.step (fun c h _ => FsLocks.whole_call c h) hstep.2 hstep.1)
      owner_idle hrun
  refine ⟨fun hlook => ?_, fun hpanic => ?_⟩
  · obtain ⟨k, hprog⟩ := LockProg.eq_read_of_looksAt hlook
    have hown : .log ∈ (s p).held := hs.needs hprog
    exact ⟨hown, fun q hq => hs.exclusive q p .log hq hown⟩
  · exact hs.mayPanic (LockProg.eq_halt_of_panic hpanic) rfl

def ownerExec (sb : SuperBlock) (s : LockSys n FsLock FsRead) (e : LockEvent n FsCall) :
    Option (LockSys n FsLock FsRead) :=
  match e with
  | .call _ _ => s.exec (FsCall.prog sb) e
  | .go p v =>
    if (s p).prog.looksAt ∈ [some .hole, some .lastRef] ∧ v ≠ 0 ∧ .log ∉ (s p).held then none
    else s.exec (FsCall.prog sb) e

theorem ownerStep_of_ownerExec {sb : SuperBlock} {s s' : LockSys n FsLock FsRead}
    {e : LockEvent n FsCall} (h : ownerExec sb s e = some s') : OwnerStep sb s e s' := by
  cases e with
  | call p c => exact ⟨h, trivial⟩
  | go p v =>
    rw [ownerExec] at h
    split at h
    · cases h
    · rename_i hcheck
      refine ⟨h, fun q k hprog => ?_⟩
      rw [hprog] at hcheck
      cases q with
      | hole =>
        exact fun hv => not_not.mp fun hown => hcheck ⟨by simp [LockProg.looksAt], hv, hown⟩
      | lastRef =>
        exact fun hv => not_not.mp fun hown => hcheck ⟨by simp [LockProg.looksAt], hv, hown⟩
      | _ => trivial

end Runs

/-- A process that closes a file whose last link is gone frees the inode in its own transaction and
enters `log_write`. -/
def closeReads : List Nat := [1, 5, 0, 1, 0, 1, 41, 0, 0, 0, 1]

theorem log_write_owner_close :
    ∃ s, Run (OwnerStep mkfsSuperBlock) (FsLocks.idle 2)
        (.call 0 .close :: closeReads.map (.go 0)) s ∧
      (s 0).prog.looksAt = some .logCount ∧
      (.log ∈ (s 0).held ∧ ∀ q, .log ∈ (s q).held → q = 0) := by
  have hexec : (execAll (ownerExec mkfsSuperBlock) (FsLocks.idle 2)
      (.call 0 .close :: closeReads.map (.go 0))).map (fun s => (s 0).prog.looksAt) =
      some (some .logCount) := by
    decide
  have hstep : ∀ (s : LockSys 2 FsLock FsRead) e s', ownerExec mkfsSuperBlock s e = some s' →
      OwnerStep mkfsSuperBlock s e s' := fun _ _ _ => ownerStep_of_ownerExec
  obtain ⟨s, hrun, hlook⟩ := exists_run_of_execAll hstep _ hexec
  exact ⟨s, hrun, hlook, (log_write_owner mkfsSuperBlock hrun 0).1 hlook⟩

/-- **A write outside the own transaction.** A process that leaves its removed working directory
frees the directory's blocks outside any transaction: alone, it panics; while another process is in
a transaction, it enters `log_write` and adds the bitmap block to that transaction. -/
theorem log_write_foreign :
    (∃ s, Run (FsStep mkfsSuperBlock) (FsLocks.idle 1)
      (.call 0 .chdir :: (chdirReads.take 15 ++ [0, 0]).map (.go 0)) s ∧
      (s 0).prog.panic = some "write outside of trans") ∧
    ∃ s, Run (FsStep mkfsSuperBlock) (FsLocks.idle 2)
      (.call 0 .mkdir :: .go 0 0 :: .call 1 .chdir :: (chdirReads.take 15).map (.go 1)) s ∧
      (s 1).prog.looksAt = some .logCount ∧ .log ∈ (s 0).held ∧ .log ∉ (s 1).held := by
  have hstep : ∀ {n} (s : LockSys n FsLock FsRead) e s',
      s.exec (FsCall.prog mkfsSuperBlock) e = some s' → FsStep mkfsSuperBlock s e s' :=
    fun _ _ _ h => h
  have halone : (execAll (LockSys.exec (FsCall.prog mkfsSuperBlock)) (FsLocks.idle 1)
      (.call 0 .chdir :: (chdirReads.take 15 ++ [0, 0]).map (.go 0))).map
      (fun s => (s 0).prog.panic) = some (some "write outside of trans") := by
    decide
  have hboth : (execAll (LockSys.exec (FsCall.prog mkfsSuperBlock)) (FsLocks.idle 2)
      (.call 0 .mkdir :: .go 0 0 :: .call 1 .chdir :: (chdirReads.take 15).map (.go 1))).map
      (fun s => ((s 1).prog.looksAt, (s 0).held, (s 1).held)) =
      some (some .logCount, [.log], [.buf 28, .inode 9]) := by
    decide
  refine ⟨exists_run_of_execAll hstep _ halone, ?_⟩
  obtain ⟨s, hrun, hobs⟩ := exists_run_of_execAll hstep _ hboth
  simp only [Prod.mk.injEq] at hobs
  obtain ⟨hlook, hheld0, hheld1⟩ := hobs
  refine ⟨s, hrun, hlook, ?_, ?_⟩
  · rw [hheld0]
    decide
  · rw [hheld1]
    decide

end Xv6
