import Xv6.FsLocks

/-!
# The order in which the file-system calls take locks

A call begins its transaction with nothing in hand. It waits for an inode with no buffer in hand,
and for a second inode or a second buffer only inside its own transaction. That is so for data that
is well formed: block numbers in inodes are those of data blocks, a free block or inode is not in
use, an entry does not name its own directory, and blocks are allocated and freed only inside the
process's own transaction.
-/

namespace Xv6

def fsDiscipline (sb : SuperBlock) : Discipline FsLock FsRead where
  mayTake h
    | .log => h = []
    | .inode i => .inode i ∉ h ∧ (∀ b, .buf b ∉ h) ∧ ((∃ j, .inode j ∈ h) → .log ∈ h)
    | .buf b => .buf b ∉ h ∧ ((∃ c, .buf c ∈ h) → .log ∈ h)
  needs _ _ := True
  mayPanic _ := True
  mayRead
    | .value, _, _ => True
    | .inum, _, v => v < sb.ninodes
    | .entry dp dots, _, v => v < sb.ninodes ∧ (dots = false → v ≠ dp)
    | .freeInode i, h, v => v ≠ 0 → .inode i ∉ h
    | .block, _, v => sb.dataStart ≤ v ∧ v < sb.logStart
    | .hole, h, v => v ≠ 0 → .log ∈ h
    | .freeBlock, h, v => sb.dataStart ≤ v ∧ v < sb.logStart ∧ .buf v ∉ h
    | .lastRef, h, v => v ≠ 0 → .log ∈ h
    | .logCount, _, _ => True
    | .homeSector, _, v => v < sb.logStart

def Own (h : List FsLock) : Prop := .log ∈ h

def NoBuf (h : List FsLock) : Prop := ∀ b, .buf b ∉ h

def NoInode (h : List FsLock) : Prop := ∀ i, .inode i ∉ h

def DataBufs (sb : SuperBlock) (h : List FsLock) : Prop :=
  ∀ b, .buf b ∈ h → sb.dataStart ≤ b ∧ b < sb.logStart

def BelowLog (sb : SuperBlock) (h : List FsLock) : Prop := ∀ b, .buf b ∈ h → b < sb.logStart

namespace FsLocks

open SuperBlock

variable {sb : SuperBlock} {h : List FsLock}

theorem DataBufs.of_noBuf (hb : NoBuf h) : DataBufs sb h := fun b hm => absurd hm (hb b)

theorem dataStart_le_logStart : sb.dataStart ≤ sb.logStart := sb.fits

theorem iblock_lt {i : Nat} (hi : i < sb.ninodes) : iblock i < sb.dataStart := by
  simp only [iblock, dataStart]
  omega

theorem bblock_lt {b : Nat} (hb : b < sb.logStart) : sb.bblock b < sb.dataStart := by
  have hdiv : b / 4096 ≤ sb.size / 4096 := Nat.div_le_div_right (by
    simp only [logStart] at hb
    omega)
  simp only [bblock, dataStart]
  omega

theorem wp_read {α : Type} {q : FsRead} {f : Nat → FsProg α} {R : α → List FsLock → Prop}
    (hf : ∀ v, (fsDiscipline sb).mayRead q h v → WP (fsDiscipline sb) (f v) R h) :
    WP (fsDiscipline sb) (read q >>= f) R h := ⟨trivial, hf⟩

theorem wp_test {α : Type} {q : FsRead} {f g : FsProg α} {R : α → List FsLock → Prop}
    (hf : ∀ v ≠ 0, (fsDiscipline sb).mayRead q h v → WP (fsDiscipline sb) f R h)
    (hg : WP (fsDiscipline sb) g R h) :
    WP (fsDiscipline sb) (test q >>= fun b => if b = true then f else g) R h := by
  refine ⟨trivial, fun v hv => ?_⟩
  change WP _ (if decide (v ≠ 0) = true then f else g) R h
  by_cases hz : v = 0
  · rw [if_neg (by simpa using hz)]
    exact hg
  · rw [if_pos (by simpa using hz)]
    exact hf v hz hv

theorem wp_claim {α : Type} {l : FsLock} {msg : String} {f : Unit → FsProg α}
    {R : α → List FsLock → Prop} (hf : WP (fsDiscipline sb) (f ()) R (l :: h)) :
    WP (fsDiscipline sb) (LockProg.claim l msg (.ret ()) >>= f) R h := ⟨trivial, fun _ => hf⟩

theorem wp_bread {b : Nat} (hb : .buf b ∉ h) (hown : (∃ c, .buf c ∈ h) → Own h) :
    WP (fsDiscipline sb) (bread b) (fun _ h' => h' = .buf b :: h) h :=
  ⟨⟨hb, hown⟩, rfl⟩

theorem wp_brelse {b : Nat} :
    WP (fsDiscipline sb) (brelse b) (fun _ h' => h' = h) (.buf b :: h) := by
  change (FsLock.buf b :: h).erase (.buf b) = h
  rw [List.erase_cons_head]

theorem keeps_bread_brelse {b : Nat} (hb : .buf b ∉ h) (hown : (∃ c, .buf c ∈ h) → Own h) :
    Keeps (fsDiscipline sb) (do bread b; brelse b) h := by
  refine WP.next (wp_bread hb hown) fun _ => ?_
  exact wp_brelse

theorem NoBuf.may (hb : NoBuf h) : (∃ c, .buf c ∈ h) → Own h := fun ⟨c, hc⟩ => absurd hc (hb c)

theorem keeps_logWrite (hown : Own h) (hlow : BelowLog sb h) :
    Keeps (fsDiscipline sb) (logWrite sb) h := by
  refine wp_read fun n _ => ?_
  split
  · trivial
  · intro busy hbusy
    rw [hbusy hown]
    refine wp_read fun i _ => keeps_bread_brelse (fun hm => ?_) fun _ => hown
    have := hlow _ hm
    omega

theorem keeps_logged {b : Nat} (hown : Own h) (hlow : BelowLog sb h) (hb : .buf b ∉ h)
    (hlt : b < sb.logStart) :
    Keeps (fsDiscipline sb) (do bread b; logWrite sb; brelse b) h := by
  refine WP.next (wp_bread hb fun _ => hown) fun _ => ?_
  refine WP.next (keeps_logWrite (List.mem_cons_of_mem _ hown) ?_) fun _ => wp_brelse
  · intro c hc
    rcases List.mem_cons.mp hc with heq | hc
    · rw [FsLock.buf.inj heq]
      exact hlt
    · exact hlow c hc

theorem keeps_readsb (hown : (∃ c, .buf c ∈ h) → Own h) (hdata : DataBufs sb h) :
    Keeps (fsDiscipline sb) readsb h := by
  refine keeps_bread_brelse (fun hm => ?_) hown
  have := (hdata 1 hm).1
  simp only [dataStart] at this
  omega

theorem DataBufs.belowLog (hdata : DataBufs sb h) : BelowLog sb h := fun b hb => (hdata b hb).2

def DataBlock (sb : SuperBlock) (b : Nat) : Prop := sb.dataStart ≤ b ∧ b < sb.logStart

theorem wp_balloc (hown : Own h) (hdata : DataBufs sb h) :
    WP (fsDiscipline sb) (balloc sb) (fun b h' => h' = h ∧ DataBlock sb b ∧ .buf b ∉ h) h := by
  refine WP.next (keeps_readsb (fun _ => hown) hdata) fun _ => ?_
  refine WP.bind (R := fun r h' => h' = h ∧ ∀ b, r = some b → DataBlock sb b ∧ .buf b ∉ h)
    (WP.searchN ⟨rfl, by simp⟩ fun k _ hk => ?_) ?_
  · have hlt : sb.bblock (k * 4096) < sb.dataStart := by
      simp only [bblock, dataStart]
      omega
    have hfree : .buf (sb.bblock (k * 4096)) ∉ h := fun hm => by
      have := (hdata _ hm).1
      omega
    have hlow : BelowLog sb (.buf (sb.bblock (k * 4096)) :: h) := by
      intro c hc
      rcases List.mem_cons.mp hc with heq | hc
      · rw [FsLock.buf.inj heq]
        exact lt_of_lt_of_le hlt dataStart_le_logStart
      · exact (hdata c hc).2
    refine WP.next (wp_bread hfree fun _ => hown) fun _ => ?_
    refine wp_test (fun _ _ _ => ?_) ?_
    · refine WP.next (keeps_logWrite (List.mem_cons_of_mem _ hown) hlow) fun _ => ?_
      refine WP.next wp_brelse fun _ => ?_
      refine wp_read fun b hb => ?_
      refine WP.next (keeps_logged hown (DataBufs.belowLog hdata) hb.2.2 hb.2.1) fun _ => ?_
      exact ⟨by simp, fun _ => ⟨rfl, fun b' hb' => Option.some.inj hb' ▸ ⟨⟨hb.1, hb.2.1⟩, hb.2.2⟩⟩⟩
    · refine WP.next wp_brelse fun _ => ?_
      exact ⟨fun _ => rfl, by simp⟩
  · rintro (_ | b) _ ⟨rfl, hb⟩
    · trivial
    · exact ⟨rfl, hb b rfl⟩

theorem keeps_bfree {b : Nat} (hown : Own h) (hdata : DataBufs sb h) (hb : b < sb.logStart) :
    Keeps (fsDiscipline sb) (bfree sb b) h := by
  have hlt := bblock_lt hb
  have hfree : .buf (sb.bblock b) ∉ h := fun hm => by
    have := (hdata _ hm).1
    omega
  refine WP.next (keeps_readsb (fun _ => hown) hdata) fun _ => ?_
  refine WP.next (wp_bread hfree fun _ => hown) fun _ => ?_
  refine wp_test (fun _ _ _ => ?_) trivial
  refine WP.next (keeps_logWrite (List.mem_cons_of_mem _ hown) ?_) fun _ => wp_brelse
  · intro c hc
    rcases List.mem_cons.mp hc with heq | hc
    · rw [FsLock.buf.inj heq]
      exact lt_of_lt_of_le hlt dataStart_le_logStart
    · exact (hdata c hc).2

theorem keeps_iupdate {i : Nat} (hown : Own h) (hb : NoBuf h) (hi : i < sb.ninodes) :
    Keeps (fsDiscipline sb) (iupdate sb i) h :=
  keeps_logged hown (DataBufs.belowLog (DataBufs.of_noBuf hb)) (hb _)
    (lt_of_lt_of_le (iblock_lt hi) dataStart_le_logStart)

theorem NoBuf.cons_inode (hb : NoBuf h) (i : Nat) : NoBuf (.inode i :: h) := fun b hm => by
  rcases List.mem_cons.mp hm with heq | hm
  · cases heq
  · exact hb b hm

theorem NoBuf.erase (hb : NoBuf h) (l : FsLock) : NoBuf (h.erase l) := fun b hm =>
  hb b (List.mem_of_mem_erase hm)

theorem Own.cons (hown : Own h) (l : FsLock) : Own (l :: h) := List.mem_cons_of_mem _ hown

theorem wp_ialloc (hown : Own h) (hb : NoBuf h) :
    WP (fsDiscipline sb) (ialloc sb) (fun i h' => h' = h ∧ i < sb.ninodes ∧ .inode i ∉ h) h := by
  refine WP.next (keeps_readsb (NoBuf.may hb) (DataBufs.of_noBuf hb)) fun _ => ?_
  refine WP.bind (R := fun r h' => h' = h ∧ ∀ i, r = some i → i < sb.ninodes ∧ .inode i ∉ h)
    (WP.searchN ⟨rfl, by simp⟩ fun i hi hlt => ?_) ?_
  · have hin : i < sb.ninodes := by omega
    have hlow : BelowLog sb (.buf (iblock i) :: h) := by
      intro c hc
      rcases List.mem_cons.mp hc with heq | hc
      · rw [FsLock.buf.inj heq]
        exact lt_of_lt_of_le (iblock_lt hin) dataStart_le_logStart
      · exact absurd hc (hb c)
    refine WP.next (wp_bread (hb _) (NoBuf.may hb)) fun _ => ?_
    refine wp_test (fun v hv hfree => ?_) ?_
    · refine WP.next (keeps_logWrite (Own.cons hown _) hlow) fun _ => ?_
      refine WP.next wp_brelse fun _ => ?_
      refine ⟨by simp, fun _ => ⟨rfl, fun j hj => Option.some.inj hj ▸ ⟨hin, fun hm => ?_⟩⟩⟩
      exact hfree hv (List.mem_cons_of_mem _ hm)
    · refine WP.next wp_brelse fun _ => ?_
      exact ⟨fun _ => rfl, by simp⟩
  · rintro (_ | i) _ ⟨rfl, hi⟩
    · trivial
    · exact ⟨rfl, hi i rfl⟩

theorem wp_ilock {i : Nat} (hb : NoBuf h) (hi : .inode i ∉ h)
    (hown : (∃ j, .inode j ∈ h) → Own h) :
    WP (fsDiscipline sb) (ilock i) (fun _ h' => h' = .inode i :: h) h := by
  refine ⟨⟨hi, hb, hown⟩, ?_⟩
  refine wp_test (fun _ _ _ => rfl) ?_
  have hb' := NoBuf.cons_inode hb i
  refine WP.next (wp_bread (hb' _) (NoBuf.may hb')) fun _ => ?_
  refine WP.next wp_brelse fun _ => ?_
  exact wp_test (fun _ _ _ => rfl) trivial

theorem wp_iunlock {i : Nat} :
    WP (fsDiscipline sb) (iunlock i) (fun _ h' => h' = h.erase (.inode i)) h := rfl

theorem keeps_freeEntry (hown : Own h) (hdata : DataBufs sb h) :
    Keeps (fsDiscipline sb) (freeEntry sb) h :=
  wp_test (fun _ _ _ => wp_read fun _ hb => keeps_bfree hown hdata hb.2) rfl

theorem keeps_itrunc {i : Nat} (hown : Own h) (hb : NoBuf h) (hi : i < sb.ninodes) :
    Keeps (fsDiscipline sb) (itrunc sb i) h := by
  have hdata : DataBufs sb h := DataBufs.of_noBuf hb
  refine WP.next (WP.repeatN (fun _ => keeps_freeEntry hown hdata) _ _) fun _ => ?_
  refine wp_test (fun _ _ _ => wp_read fun b hblock => ?_) (keeps_iupdate hown hb hi)
  have hdata' : DataBufs sb (.buf b :: h) := by
    intro c hc
    rcases List.mem_cons.mp hc with heq | hc
    · rw [FsLock.buf.inj heq]
      exact hblock
    · exact hdata c hc
  refine WP.next (wp_bread (hb b) (NoBuf.may hb)) fun _ => ?_
  refine WP.next (WP.repeatN (fun _ => keeps_freeEntry (Own.cons hown _) hdata') _ _) fun _ => ?_
  refine WP.next wp_brelse fun _ => ?_
  exact WP.next (keeps_bfree hown hdata hblock.2) fun _ => keeps_iupdate hown hb hi

theorem keeps_iput {i : Nat} (hb : NoBuf h) (hi : i < sb.ninodes) :
    Keeps (fsDiscipline sb) (iput sb i) h := by
  refine wp_test (fun v hv hlast => ?_) rfl
  have hown : Own h := hlast hv
  have hb' := NoBuf.cons_inode hb i
  refine wp_claim ?_
  refine WP.next (keeps_itrunc (Own.cons hown _) hb' hi) fun _ => ?_
  refine WP.next (keeps_iupdate (Own.cons hown _) hb' hi) fun _ => ?_
  change (FsLock.inode i :: h).erase (.inode i) = h
  rw [List.erase_cons_head]

theorem wp_iunlockput {i : Nat} (hb : NoBuf h) (hi : i < sb.ninodes) :
    WP (fsDiscipline sb) (iunlockput sb i) (fun _ h' => h' = h.erase (.inode i)) h :=
  WP.next wp_iunlock fun _ => keeps_iput (NoBuf.erase hb _) hi

theorem wp_iunlockput_head {i : Nat} (hb : NoBuf h) (hi : i < sb.ninodes) :
    WP (fsDiscipline sb) (iunlockput sb i) (fun _ h' => h' = h) (.inode i :: h) := by
  refine (wp_iunlockput (NoBuf.cons_inode hb i) hi).mono fun _ h' hh' => ?_
  rw [hh', List.erase_cons_head]

theorem wp_iunlock_head {i : Nat} :
    WP (fsDiscipline sb) (iunlock i) (fun _ h' => h' = h) (.inode i :: h) := by
  change (FsLock.inode i :: h).erase (.inode i) = h
  rw [List.erase_cons_head]

theorem wp_entryBlock (hb : NoBuf h) :
    WP (fsDiscipline sb) (entryBlock sb) (fun b h' => h' = h ∧ DataBlock sb b) h := by
  refine wp_test (fun v hv hhole => ?_) ⟨trivial, fun b hblock => ⟨rfl, hblock⟩⟩
  exact (wp_balloc (hhole hv) (DataBufs.of_noBuf hb)).mono fun b h' hh' => ⟨hh'.1, hh'.2.1⟩

theorem wp_bmap (hb : NoBuf h) (bn : Nat) :
    WP (fsDiscipline sb) (bmap sb bn) (fun b h' => h' = h ∧ DataBlock sb b) h := by
  unfold bmap
  split
  · exact wp_entryBlock hb
  · split
    · refine (wp_entryBlock hb).bind fun addr h' hh' => ?_
      obtain ⟨rfl, haddr⟩ := hh'
      have hdata : DataBufs sb (.buf addr :: h') := by
        intro c hc
        rcases List.mem_cons.mp hc with heq | hc
        · rw [FsLock.buf.inj heq]
          exact haddr
        · exact absurd hc (hb c)
      refine WP.next (wp_bread (hb addr) (NoBuf.may hb)) fun _ => ?_
      refine wp_test (fun v hv hhole => ?_) ?_
      · refine (wp_balloc (hhole hv) hdata).bind fun b h2 hh2 => ?_
        obtain ⟨rfl, hblock, -⟩ := hh2
        refine WP.next (keeps_logWrite (hhole hv) (DataBufs.belowLog hdata)) fun _ => ?_
        exact WP.next wp_brelse fun _ => ⟨rfl, hblock⟩
      · refine wp_read fun b hblock => ?_
        exact WP.next wp_brelse fun _ => ⟨rfl, hblock⟩
    · trivial

theorem keeps_readi (hb : NoBuf h) : Keeps (fsDiscipline sb) (readi sb) h := by
  refine wp_test (fun _ _ _ => rfl) ?_
  refine wp_read fun bn _ => wp_read fun n _ => WP.repeatN (fun bn => ?_) _ _
  refine (wp_bmap hb bn).bind fun b h' hh' => ?_
  obtain ⟨rfl, -⟩ := hh'
  exact keeps_bread_brelse (hb b) (NoBuf.may hb)

theorem keeps_writei {i : Nat} (hown : Own h) (hb : NoBuf h) (hi : i < sb.ninodes) :
    Keeps (fsDiscipline sb) (writei sb i) h := by
  refine wp_test (fun _ _ _ => rfl) ?_
  refine wp_read fun bn _ => wp_read fun n _ => ?_
  refine WP.next (WP.repeatN (fun bn => ?_) _ _) fun _ =>
    wp_test (fun _ _ _ => keeps_iupdate hown hb hi) rfl
  refine (wp_bmap hb bn).bind fun b h' hh' => ?_
  obtain ⟨rfl, hblock⟩ := hh'
  exact keeps_logged hown (DataBufs.belowLog (DataBufs.of_noBuf hb)) (hb b) hblock.2

theorem wp_dirlookup (hb : NoBuf h) (dp : Nat) (dots : Bool) :
    WP (fsDiscipline sb) (dirlookup sb dp dots)
      (fun r h' => h' = h ∧ ∀ i, r = some i → i < sb.ninodes ∧ (dots = false → i ≠ dp)) h := by
  refine wp_test (fun _ _ _ => wp_read fun n _ => ?_) trivial
  refine WP.searchN ⟨rfl, by simp⟩ fun _ _ _ => ?_
  refine WP.next (keeps_readi hb) fun _ => ?_
  refine wp_test (fun _ _ _ => wp_read fun i hi => ?_) ⟨fun _ => rfl, by simp⟩
  exact ⟨by simp, fun _ => ⟨rfl, fun j hj => Option.some.inj hj ▸ hi⟩⟩

theorem keeps_dirlink {dp : Nat} (hown : Own h) (hb : NoBuf h) (hdp : dp < sb.ninodes) :
    Keeps (fsDiscipline sb) (dirlink sb dp) h := by
  refine (wp_dirlookup hb dp true).bind fun r h' hh' => ?_
  obtain ⟨rfl, hr⟩ := hh'
  cases r with
  | some ip => exact WP.next (keeps_iput hb (hr ip rfl).1) fun _ => rfl
  | none =>
    refine wp_read fun n _ => ?_
    refine WP.next (WP.repeatN (fun _ => keeps_readi hb) _ _) fun _ => ?_
    exact WP.next (keeps_writei hown hb hdp) fun _ => wp_test (fun _ _ _ => rfl) trivial

theorem keeps_mustLink {dp : Nat} {msg : String} (hown : Own h) (hb : NoBuf h)
    (hdp : dp < sb.ninodes) : Keeps (fsDiscipline sb) (mustLink sb dp msg) h := by
  refine WP.next (keeps_dirlink hown hb hdp) fun linked => ?_
  split
  · exact rfl
  · trivial

theorem keeps_createDots {dp ip : Nat} (hown : Own h) (hb : NoBuf h) (hdp : dp < sb.ninodes)
    (hip : ip < sb.ninodes) : Keeps (fsDiscipline sb) (createDots sb dp ip) h := by
  refine WP.next (keeps_iupdate hown hb hdp) fun _ => ?_
  exact WP.next (keeps_mustLink hown hb hip) fun _ => keeps_mustLink hown hb hip

theorem keeps_isdirempty (hb : NoBuf h) : Keeps (fsDiscipline sb) (isdirempty sb) h := by
  refine wp_read fun n _ => ?_
  exact WP.next (WP.repeatN (fun _ => keeps_readi hb) _ _) fun _ =>
    ⟨trivial, fun _ _ => rfl⟩

theorem NoInode.may (hi : NoInode h) : (∃ j, .inode j ∈ h) → Own h := fun ⟨j, hj⟩ =>
  absurd hj (hi j)

theorem wp_walk (hb : NoBuf h) (hi : NoInode h) (parent : Bool) {n ip : Nat}
    (hip : ip < sb.ninodes) :
    WP (fsDiscipline sb) (walk sb parent n ip)
      (fun r h' => h' = h ∧ ∀ i, r = some i → i < sb.ninodes) h := by
  induction n generalizing ip with
  | zero =>
    unfold walk
    split
    · exact WP.next (keeps_iput hb hip) fun _ => ⟨rfl, by simp⟩
    · exact ⟨rfl, fun i hi => Option.some.inj hi ▸ hip⟩
  | succ n ih =>
    have hb' := NoBuf.cons_inode hb ip
    unfold walk
    refine WP.next (wp_ilock hb (hi ip) (NoInode.may hi)) fun _ => ?_
    refine wp_test (fun _ _ _ => ?_) ?_
    · split
      · exact WP.next wp_iunlock_head fun _ => ⟨rfl, fun i hi => Option.some.inj hi ▸ hip⟩
      · refine (wp_dirlookup hb' ip true).bind fun r h' hh' => ?_
        obtain ⟨rfl, hr⟩ := hh'
        cases r with
        | none => exact WP.next (wp_iunlockput_head hb hip) fun _ => ⟨rfl, by simp⟩
        | some next =>
          exact WP.next (wp_iunlockput_head hb hip) fun _ => ih (hr next rfl).1
    · exact WP.next (wp_iunlockput_head hb hip) fun _ => ⟨rfl, by simp⟩

theorem wp_namex (hb : NoBuf h) (hi : NoInode h) (parent : Bool) :
    WP (fsDiscipline sb) (namex sb parent)
      (fun r h' => h' = h ∧ ∀ i, r = some i → i < sb.ninodes) h :=
  wp_read fun _ hip => wp_read fun _ _ => wp_walk hb hi parent hip

theorem wp_beginTrans : WP (fsDiscipline sb) beginTrans (fun _ h' => h' = [.log]) [] := ⟨rfl, rfl⟩

theorem keeps_writeHead (hown : Own h) (hb : NoBuf h) :
    Keeps (fsDiscipline sb) (writeHead sb) h :=
  keeps_bread_brelse (hb _) fun _ => hown

theorem keeps_installTrans (hown : Own h) (hb : NoBuf h) (n : Nat) :
    Keeps (fsDiscipline sb) (installTrans sb n) h := by
  refine WP.repeatN (fun tail => ?_) _ _
  refine WP.next (wp_bread (hb _) fun _ => hown) fun _ => ?_
  refine wp_read fun dst hdst => ?_
  have hlt : dst < sb.logStart := hdst
  have hne : sb.logStart + tail + 1 ≠ dst := by omega
  have hdst' : .buf dst ∉ (.buf (sb.logStart + tail + 1) :: h : List FsLock) := by
    intro hm
    rcases List.mem_cons.mp hm with heq | hm
    · exact hne (FsLock.buf.inj heq).symm
    · exact hb dst hm
  refine WP.next (wp_bread hdst' fun _ => Own.cons hown _) fun _ => ?_
  change ((FsLock.buf dst :: .buf (sb.logStart + tail + 1) :: h).erase
    (.buf (sb.logStart + tail + 1))).erase (.buf dst) = h
  rw [List.erase_cons_tail (by simpa using fun heq => hne heq.symm), List.erase_cons_head,
    List.erase_cons_head]

theorem wp_commitTrans (hown : Own h) (hb : NoBuf h) :
    WP (fsDiscipline sb) (commitTrans sb) (fun _ h' => h' = h.erase .log) h := by
  refine wp_read fun n _ => ?_
  split
  · refine WP.next (keeps_writeHead hown hb) fun _ => ?_
    refine WP.next (keeps_installTrans hown hb n) fun _ => ?_
    exact WP.next (keeps_writeHead hown hb) fun _ => rfl
  · exact rfl

theorem own_log : Own [.log] := List.mem_cons_self

theorem noBuf_log : NoBuf [.log] := fun b hm => by
  rcases List.mem_cons.mp hm with heq | hm
  · cases heq
  · cases hm

theorem noInode_log : NoInode [.log] := fun i hm => by
  rcases List.mem_cons.mp hm with heq | hm
  · cases heq
  · cases hm

theorem noBuf_nil : NoBuf [] := fun _ hm => nomatch hm

theorem noInode_nil : NoInode [] := fun _ hm => nomatch hm

theorem wp_commit_end : WP (fsDiscipline sb) (commitTrans sb) (fun _ h' => h' = []) [.log] :=
  wp_commitTrans own_log noBuf_log

def Created (sb : SuperBlock) : Option Nat → List FsLock → Prop
  | none, h => h = [.log]
  | some i, h => i < sb.ninodes ∧ h = [.inode i, .log]

theorem wp_create (isDir : Bool) :
    WP (fsDiscipline sb) (create sb isDir) (Created sb) [.log] := by
  refine (wp_namex noBuf_log noInode_log true).bind fun r h' hh' => ?_
  obtain ⟨rfl, hr⟩ := hh'
  cases r with
  | none => exact rfl
  | some dp =>
    have hdp := hr dp rfl
    have hb1 := NoBuf.cons_inode noBuf_log dp
    have hown1 : Own [.inode dp, .log] := Own.cons own_log _
    refine WP.next (wp_ilock noBuf_log (noInode_log dp) (NoInode.may noInode_log)) fun _ => ?_
    refine (wp_dirlookup hb1 dp true).bind fun r h' hh' => ?_
    obtain ⟨rfl, hr'⟩ := hh'
    cases r with
    | some ip =>
      have hip := (hr' ip rfl).1
      refine WP.next (wp_iunlockput_head noBuf_log hdp) fun _ => ?_
      refine WP.next (wp_ilock noBuf_log (noInode_log ip) (NoInode.may noInode_log))
        fun _ => ?_
      refine wp_test (fun _ _ _ => ⟨hip, rfl⟩) ?_
      exact WP.next (wp_iunlockput_head noBuf_log hip) fun _ => rfl
    | none =>
      refine (wp_ialloc hown1 hb1).bind fun ip h' hh' => ?_
      obtain ⟨rfl, hip, hnew⟩ := hh'
      have hb2 := NoBuf.cons_inode hb1 ip
      have hown2 : Own [.inode ip, .inode dp, .log] := Own.cons hown1 _
      have hne : ip ≠ dp := by
        rintro rfl
        exact hnew List.mem_cons_self
      refine WP.next (wp_ilock hb1 hnew fun _ => hown1) fun _ => ?_
      refine WP.next (keeps_iupdate hown2 hb2 hip) fun _ => ?_
      have hend : ∀ r : Unit, WP (fsDiscipline sb) (do
          mustLink sb dp "create: dirlink"
          iunlockput sb dp
          return some ip) (Created sb) [.inode ip, .inode dp, .log] := by
        intro _
        refine WP.next (keeps_mustLink hown2 hb2 hdp) fun _ => ?_
        refine WP.next (wp_iunlockput hb2 hdp) fun _ => ⟨hip, ?_⟩
        rw [List.erase_cons_tail (by simpa using hne), List.erase_cons_head]
      split
      · exact WP.next (keeps_createDots hown2 hb2 hdp hip) hend
      · exact hend ()

theorem wp_openLocked {ip : Nat} (hip : ip < sb.ninodes) :
    WP (fsDiscipline sb) (openLocked sb ip) (fun _ h' => h' = []) [.inode ip] :=
  wp_test (fun _ _ _ => wp_iunlock_head) (wp_iunlockput_head noBuf_nil hip)

theorem wp_sysOpen (omodeCreate : Bool) :
    WP (fsDiscipline sb) (sysOpen sb omodeCreate) (fun _ h' => h' = []) [] := by
  unfold sysOpen
  split
  · refine WP.next wp_beginTrans fun _ => ?_
    refine (wp_create false).bind fun r h' hr => ?_
    cases r with
    | none =>
      obtain rfl : h' = [.log] := hr
      exact WP.next wp_commit_end fun _ => rfl
    | some ip =>
      obtain ⟨hip, rfl⟩ := hr
      refine WP.next (wp_commitTrans (Own.cons own_log _) (NoBuf.cons_inode noBuf_log ip))
        fun _ => wp_openLocked hip
  · refine (wp_namex noBuf_nil noInode_nil false).bind fun r h' hh' => ?_
    obtain ⟨rfl, hr⟩ := hh'
    cases r with
    | none => exact rfl
    | some ip =>
      refine WP.next (wp_ilock noBuf_nil (noInode_nil ip) (NoInode.may noInode_nil)) fun _ => ?_
      exact wp_test (fun _ _ _ => wp_iunlockput_head noBuf_nil (hr ip rfl))
        (wp_openLocked (hr ip rfl))

theorem wp_sysMake (isDir : Bool) :
    WP (fsDiscipline sb) (sysMake sb isDir) (fun _ h' => h' = []) [] := by
  refine WP.next wp_beginTrans fun _ => ?_
  refine wp_test (fun _ _ _ => ?_) wp_commit_end
  refine (wp_create isDir).bind fun r h' hr => ?_
  cases r with
  | none =>
    obtain rfl : h' = [.log] := hr
    exact wp_commit_end
  | some ip =>
    obtain ⟨hip, rfl⟩ := hr
    exact WP.next (wp_iunlockput_head noBuf_log hip) fun _ => wp_commit_end

theorem wp_linkBad {ip : Nat} (hip : ip < sb.ninodes) :
    WP (fsDiscipline sb) (linkBad sb ip) (fun _ h' => h' = []) [.log] := by
  refine WP.next (wp_ilock noBuf_log (noInode_log ip) (NoInode.may noInode_log)) fun _ => ?_
  refine WP.next (keeps_iupdate (Own.cons own_log _) (NoBuf.cons_inode noBuf_log ip) hip)
    fun _ => ?_
  exact WP.next (wp_iunlockput_head noBuf_log hip) fun _ => wp_commit_end

theorem wp_sysLink : WP (fsDiscipline sb) (sysLink sb) (fun _ h' => h' = []) [] := by
  refine (wp_namex noBuf_nil noInode_nil false).bind fun r h' hh' => ?_
  obtain ⟨rfl, hr⟩ := hh'
  cases r with
  | none => exact rfl
  | some ip =>
    have hip := hr ip rfl
    have hb := NoBuf.cons_inode noBuf_log ip
    refine WP.next wp_beginTrans fun _ => ?_
    refine WP.next (wp_ilock noBuf_log (noInode_log ip) (NoInode.may noInode_log)) fun _ => ?_
    refine wp_test (fun _ _ _ => ?_) ?_
    · exact WP.next (wp_iunlockput_head noBuf_log hip) fun _ => wp_commit_end
    · refine WP.next (keeps_iupdate (Own.cons own_log _) hb hip) fun _ => ?_
      refine WP.next wp_iunlock_head fun _ => ?_
      refine (wp_namex noBuf_log noInode_log true).bind fun r h' hh' => ?_
      obtain ⟨rfl, hr'⟩ := hh'
      cases r with
      | none => exact wp_linkBad hip
      | some dp =>
        have hdp := hr' dp rfl
        have hb' := NoBuf.cons_inode noBuf_log dp
        have hbad : ∀ r : Unit, WP (fsDiscipline sb) (linkBad sb ip) (fun _ h' => h' = [])
            [.log] := fun _ => wp_linkBad hip
        refine WP.next (wp_ilock noBuf_log (noInode_log dp) (NoInode.may noInode_log))
          fun _ => ?_
        refine wp_test (fun _ _ _ => WP.next (wp_iunlockput_head noBuf_log hdp) hbad) ?_
        refine WP.next (keeps_dirlink (Own.cons own_log _) hb' hdp) fun linked => ?_
        split
        · refine WP.next (wp_iunlockput_head noBuf_log hdp) fun _ => ?_
          exact WP.next (keeps_iput noBuf_log hip) fun _ => wp_commit_end
        · exact WP.next (wp_iunlockput_head noBuf_log hdp) hbad

theorem wp_unlinkBad {dp : Nat} (hdp : dp < sb.ninodes) :
    WP (fsDiscipline sb) (unlinkBad sb dp) (fun _ h' => h' = []) [.inode dp, .log] :=
  WP.next (wp_iunlockput_head noBuf_log hdp) fun _ => wp_commit_end

theorem wp_unlinkEntry {dp ip : Nat} (hdp : dp < sb.ninodes) (hip : ip < sb.ninodes)
    (hne : ip ≠ dp) (isDir : Bool) :
    WP (fsDiscipline sb) (unlinkEntry sb dp ip isDir) (fun _ h' => h' = [])
      [.inode ip, .inode dp, .log] := by
  have hb1 := NoBuf.cons_inode noBuf_log ip
  have hb2 := NoBuf.cons_inode (NoBuf.cons_inode noBuf_log dp) ip
  have hown1 : Own [.inode ip, .log] := Own.cons own_log _
  have hown2 : Own [.inode ip, .inode dp, .log] := Own.cons (Own.cons own_log _) _
  have hend : ∀ r : Unit, WP (fsDiscipline sb) (do
      iunlockput sb dp
      iupdate sb ip
      iunlockput sb ip
      commitTrans sb) (fun _ h' => h' = []) [.inode ip, .inode dp, .log] := by
    intro _
    have herase : [FsLock.inode ip, .inode dp, .log].erase (.inode dp) = [.inode ip, .log] := by
      rw [List.erase_cons_tail (by simpa using hne), List.erase_cons_head]
    refine WP.next ((wp_iunlockput hb2 hdp).mono fun _ h' hh' => hh'.trans herase) fun _ => ?_
    refine WP.next (keeps_iupdate hown1 hb1 hip) fun _ => ?_
    exact WP.next (wp_iunlockput_head noBuf_log hip) fun _ => wp_commit_end
  refine WP.next (keeps_writei hown2 hb2 hdp) fun _ => ?_
  split
  · exact WP.next (keeps_iupdate hown2 hb2 hdp) hend
  · exact hend ()

theorem wp_sysUnlink : WP (fsDiscipline sb) (sysUnlink sb) (fun _ h' => h' = []) [] := by
  refine (wp_namex noBuf_nil noInode_nil true).bind fun r h' hh' => ?_
  obtain ⟨rfl, hr⟩ := hh'
  cases r with
  | none => exact rfl
  | some dp =>
    have hdp := hr dp rfl
    have hb1 := NoBuf.cons_inode noBuf_log dp
    have hown1 : Own [.inode dp, .log] := Own.cons own_log _
    refine WP.next wp_beginTrans fun _ => ?_
    refine WP.next (wp_ilock noBuf_log (noInode_log dp) (NoInode.may noInode_log)) fun _ => ?_
    refine wp_test (fun _ _ _ => wp_unlinkBad hdp) ?_
    refine (wp_dirlookup hb1 dp false).bind fun r h' hh' => ?_
    obtain ⟨rfl, hr'⟩ := hh'
    cases r with
    | none => exact wp_unlinkBad hdp
    | some ip =>
      obtain ⟨hip, hne⟩ := hr' ip rfl
      have hne := hne rfl
      have hnew : FsLock.inode ip ∉ [FsLock.inode dp, .log] := by simpa using hne
      have hb2 := NoBuf.cons_inode hb1 ip
      refine WP.next (wp_ilock hb1 hnew fun _ => hown1) fun _ => ?_
      refine wp_test (fun _ _ _ => trivial) ?_
      refine wp_test (fun _ _ _ => ?_) (wp_unlinkEntry hdp hip hne false)
      refine WP.next (keeps_isdirempty hb2) fun empty => ?_
      split
      · exact wp_unlinkEntry hdp hip hne true
      · exact WP.next (wp_iunlockput_head hb1 hip) fun _ => wp_unlinkBad hdp

theorem wp_sysChdir : WP (fsDiscipline sb) (sysChdir sb) (fun _ h' => h' = []) [] := by
  refine (wp_namex noBuf_nil noInode_nil false).bind fun r h' hh' => ?_
  obtain ⟨rfl, hr⟩ := hh'
  cases r with
  | none => exact rfl
  | some ip =>
    refine WP.next (wp_ilock noBuf_nil (noInode_nil ip) (NoInode.may noInode_nil)) fun _ => ?_
    refine wp_test (fun _ _ _ => ?_) (wp_iunlockput_head noBuf_nil (hr ip rfl))
    refine WP.next wp_iunlock_head fun _ => ?_
    exact wp_read fun cwd hcwd => keeps_iput noBuf_nil hcwd

theorem wp_sysRead : WP (fsDiscipline sb) (sysRead sb) (fun _ h' => h' = []) [] := by
  refine wp_read fun ip _ => ?_
  refine WP.next (wp_ilock noBuf_nil (noInode_nil ip) (NoInode.may noInode_nil)) fun _ => ?_
  exact WP.next (keeps_readi (NoBuf.cons_inode noBuf_nil ip)) fun _ => wp_iunlock_head

theorem wp_sysFstat : WP (fsDiscipline sb) sysFstat (fun _ h' => h' = []) [] := by
  refine wp_read fun ip _ => ?_
  exact WP.next (wp_ilock noBuf_nil (noInode_nil ip) (NoInode.may noInode_nil)) fun _ =>
    wp_iunlock_head

theorem wp_sysWrite : WP (fsDiscipline sb) (sysWrite sb) (fun _ h' => h' = []) [] := by
  refine wp_read fun ip hip => wp_read fun n _ => WP.repeatN (fun _ => ?_) _ _
  refine WP.next wp_beginTrans fun _ => ?_
  refine WP.next (wp_ilock noBuf_log (noInode_log ip) (NoInode.may noInode_log)) fun _ => ?_
  refine WP.next (keeps_writei (Own.cons own_log _) (NoBuf.cons_inode noBuf_log ip) hip)
    fun _ => ?_
  exact WP.next wp_iunlock_head fun _ => wp_commit_end

theorem wp_sysClose : WP (fsDiscipline sb) (sysClose sb) (fun _ h' => h' = []) [] := by
  refine wp_test (fun _ _ _ => wp_read fun ip hip => ?_) rfl
  refine WP.next wp_beginTrans fun _ => ?_
  exact WP.next (keeps_iput noBuf_log hip) fun _ => wp_commit_end

theorem wp_sysExit : WP (fsDiscipline sb) (sysExit sb) (fun _ h' => h' = []) [] := by
  refine WP.next (WP.repeatN (fun _ => wp_sysClose) _ _) fun _ => ?_
  exact wp_read fun cwd hcwd => keeps_iput noBuf_nil hcwd

theorem wp_sysExec : WP (fsDiscipline sb) (sysExec sb) (fun _ h' => h' = []) [] := by
  refine (wp_namex noBuf_nil noInode_nil false).bind fun r h' hh' => ?_
  obtain ⟨rfl, hr⟩ := hh'
  cases r with
  | none => exact rfl
  | some ip =>
    have hb := NoBuf.cons_inode noBuf_nil ip
    refine WP.next (wp_ilock noBuf_nil (noInode_nil ip) (NoInode.may noInode_nil)) fun _ => ?_
    refine wp_read fun n _ => ?_
    exact WP.next (WP.repeatN (fun _ => keeps_readi hb) _ _) fun _ =>
      wp_iunlockput_head noBuf_nil (hr ip rfl)

theorem wp_call (c : FsCall) :
    WP (fsDiscipline sb) (c.prog sb) (fun _ h' => h' = []) [] := by
  cases c with
  | openFile create => exact wp_sysOpen create
  | read => exact wp_sysRead
  | write => exact wp_sysWrite
  | close => exact wp_sysClose
  | link => exact wp_sysLink
  | unlink => exact wp_sysUnlink
  | mkdir => exact wp_sysMake true
  | mknod => exact wp_sysMake false
  | chdir => exact wp_sysChdir
  | fstat => exact wp_sysFstat
  | exec => exact wp_sysExec
  | exit => exact wp_sysExit

end FsLocks

end Xv6
