import Xv6.Proof.PathNames
import Xv6.Proof.SharedWrite

/-!
# Path resolution

`namex` takes a reference to the inode where the path starts, and for each name exchanges it for one
to the inode that the directory has under the name. Blocks do not change, and the cache is as before
but for the references and the lock that are held.
-/

namespace Xv6

namespace View

variable (v : View)

def follow : Nat → List Fs.Name → Option Nat
  | i, [] => some i
  | i, name :: rest =>
    if (v.ino i).type = tDir then (v.lookup i name).bind fun j => follow j rest else none

def followParent (i : Nat) (names : List Fs.Name) : Option (Nat × Fs.Name) :=
  names.getLast?.bind fun last => (v.follow i names.dropLast).bind fun j =>
    if (v.ino j).type = tDir then some (j, last) else none

end View

namespace Core

variable (c : Core)

def Kept (sb : Superblock) (j : Nat) : Prop :=
  ((c.view sb).ino j).nlink ≠ 0 ∨ ((c.view sb).ino j).type = 0 ∨
    ∃ ip, 0 < (c.icache ip).ref ∧ (c.icache ip).inum = j

structure Tree (sb : Superblock) : Prop where
  good : Good sb c
  root : rootIno < sb.ninodes ∧ c.Kept sb rootIno
  named : ∀ i name j, ((c.view sb).ino i).type = tDir → (c.view sb).lookup i name = some j →
    j < sb.ninodes ∧ c.Kept sb j

def busyAt (ip : Fin ninode) : Bool := decide (0 < (c.icache ip).ref) && (c.icache ip).busy

end Core

namespace Fs

open Xv6.Core

structure Borrowed (sb : Superblock) (c0 c : Core) (x : Fin ninode → Nat)
    (l : Option (Fin ninode)) : Prop where
  cache : c.CacheOk sb
  blk : c.blk = c0.blk
  ref : ∀ ip, (c.icache ip).ref = (c0.icache ip).ref + x ip
  inum : ∀ ip, 0 < (c0.icache ip).ref → (c.icache ip).inum = (c0.icache ip).inum
  busy : ∀ ip, l ≠ some ip → 0 < (c.icache ip).ref → (c.icache ip).busy = c0.busyAt ip
  lock : ∀ ip, l = some ip → 0 < (c.icache ip).ref ∧ c0.busyAt ip = false
  valid : ∀ ip, c0.Live ip → (c.icache ip).valid = true
  copy : ∀ ip, c.Live ip → (c.icache ip).d = c0.ino (c.icache ip).inum
  typed : ∀ ip, c.Live ip → c0.Live ip ∨ (c0.ino (c.icache ip).inum).type ≠ 0

def one (ip : Fin ninode) : Fin ninode → Nat := fun jp => if jp = ip then 1 else 0

section Borrowed

variable {sb : Superblock} {c0 c : Core} {x : Fin ninode → Nat} {l : Option (Fin ninode)}
  {ip : Fin ninode}

theorem Borrowed.refl (hc : c.CacheOk sb) : Borrowed sb c c (fun _ => 0) none where
  cache := hc
  blk := rfl
  ref _ := rfl
  inum _ _ := rfl
  busy ip _ href := by simp [busyAt, href]
  lock _ h := by cases h
  valid _ h := h.2
  copy ip h := (ino_of_live hc h).symm
  typed ip h := Or.inl h

theorem Borrowed.live (h : Borrowed sb c0 c x l) (hip : c0.Live ip) : c.Live ip :=
  ⟨by rw [h.ref]; exact Nat.add_pos_left hip.1 _, h.valid ip hip⟩

theorem Borrowed.ino_eq (h : Borrowed sb c0 c x l) (i : Nat) : c.ino i = c0.ino i := by
  by_cases hlive : ∃ ip, c.Live ip ∧ (c.icache ip).inum = i
  · obtain ⟨ip, hip, rfl⟩ := hlive
    rw [ino_of_live h.cache hip, h.copy ip hip]
  · have hnone : ∀ ip, c.Live ip → (c.icache ip).inum ≠ i := fun ip hip heq => hlive ⟨ip, hip, heq⟩
    have hnone0 : ∀ ip, c0.Live ip → (c0.icache ip).inum ≠ i := fun ip hip heq =>
      hnone ip (h.live hip) (by rw [h.inum ip hip.1, heq])
    rw [ino_of_not_live hnone, ino_of_not_live hnone0, din, din, h.blk]

theorem Borrowed.view_eq (h : Borrowed sb c0 c x l) : c.view sb = c0.view sb := by
  simp only [view, View.mk.injEq, Core.bit, h.blk, and_true]
  funext i
  rw [h.ino_eq]

theorem Borrowed.good (h : Borrowed sb c0 c x l) (hg : Good sb c0) : Good sb c :=
  ⟨h.cache, by rw [h.view_eq]; exact hg.sound⟩

theorem setInode_self (e : Inode) : (c.setInode ip e).icache ip = e := Function.update_self ..

theorem setInode_of_ne {jp : Fin ninode} (hne : jp ≠ ip) (e : Inode) :
    (c.setInode ip e).icache jp = c.icache jp := Function.update_of_ne hne ..

theorem Borrowed.setInode (h : Borrowed sb c0 c x l) {e : Inode} {x' : Fin ninode → Nat}
    {l' : Option (Fin ninode)} (hcache : (c.setInode ip e).CacheOk sb)
    (hx : ∀ jp ≠ ip, x' jp = x jp) (href : e.ref = (c0.icache ip).ref + x' ip)
    (hinum : 0 < (c0.icache ip).ref → e.inum = (c0.icache ip).inum)
    (hl : ∀ jp ≠ ip, (l' = some jp ↔ l = some jp))
    (hbusy : l' ≠ some ip → 0 < e.ref → e.busy = c0.busyAt ip)
    (hlock : l' = some ip → 0 < e.ref ∧ c0.busyAt ip = false)
    (hvalid : c0.Live ip → e.valid = true)
    (hcopy : 0 < e.ref → e.valid = true →
      e.d = c0.ino e.inum ∧ (c0.Live ip ∨ (c0.ino e.inum).type ≠ 0)) :
    Borrowed sb c0 (c.setInode ip e) x' l' := by
  refine ⟨hcache, h.blk, ?_, ?_, ?_, ?_, ?_, ?_, ?_⟩ <;> intro jp <;> by_cases hjp : jp = ip
  · rw [hjp, setInode_self, href]
  · rw [setInode_of_ne hjp, h.ref, hx jp hjp]
  · rw [hjp, setInode_self]
    exact hinum
  · rw [setInode_of_ne hjp]
    exact h.inum jp
  · rw [hjp, setInode_self]
    exact hbusy
  · rw [setInode_of_ne hjp]
    exact fun hne => h.busy jp fun heq => hne ((hl jp hjp).mpr heq)
  · rw [hjp, setInode_self]
    exact hlock
  · rw [setInode_of_ne hjp]
    exact fun heq => h.lock jp ((hl jp hjp).mp heq)
  · rw [hjp, setInode_self]
    exact hvalid
  · rw [setInode_of_ne hjp]
    exact h.valid jp
  · rw [Live, hjp, setInode_self]
    exact fun hlive => (hcopy hlive.1 hlive.2).1
  · rw [Live, setInode_of_ne hjp]
    exact h.copy jp
  · rw [Live, hjp, setInode_self]
    exact fun hlive => (hcopy hlive.1 hlive.2).2
  · rw [Live, setInode_of_ne hjp]
    exact h.typed jp

theorem Borrowed.again (h : Borrowed sb c0 c x l) (href : 0 < (c.icache ip).ref) :
    Borrowed sb c0 (c.setInode ip { c.icache ip with ref := (c.icache ip).ref + 1 })
      (fun jp => x jp + one ip jp) l := by
  refine h.setInode (cacheOk_setInode h.cache rfl fun _ => href) (fun jp hjp => ?_) ?_
    (h.inum ip) (fun _ _ => Iff.rfl) (fun hne _ => h.busy ip hne href)
    (fun heq => ⟨Nat.succ_pos _, (h.lock ip heq).2⟩) (h.valid ip)
    fun _ hv => ⟨h.copy ip ⟨href, hv⟩, h.typed ip ⟨href, hv⟩⟩
  · rw [one, if_neg hjp, Nat.add_zero]
  · change (c.icache ip).ref + 1 = _
    rw [h.ref, one, if_pos rfl, Nat.add_assoc]

theorem Borrowed.got (h : Borrowed sb c0 c x l) {j : Nat} {c' : Core} (hj : j < sb.ninodes)
    (hgot : Got c j ip c') :
    Borrowed sb c0 c' (fun jp => x jp + one ip jp) l ∧ (c'.icache ip).inum = j ∧
      ∀ jp, 0 < (c.icache jp).ref → (c'.icache jp).inum = (c.icache jp).inum := by
  rcases hgot with ⟨href, hinum, rfl⟩ | ⟨hnone, href, rfl⟩
  · refine ⟨h.again href, by rw [setInode_self]; exact hinum, fun jp _ => ?_⟩
    by_cases hjp : jp = ip
    · rw [hjp, setInode_self]
    · rw [setInode_of_ne hjp]
  · -- the entry is new
    have hzero := h.ref ip
    rw [href] at hzero
    have hnot : ¬0 < (c0.icache ip).ref := by omega
    refine ⟨h.setInode ⟨?_, ?_⟩ (fun jp hjp => ?_) ?_ (fun hpos => absurd hpos hnot)
      (fun _ _ => Iff.rfl) (fun _ _ => ?_) (fun heq => ?_) (fun hlive => absurd hlive.1 hnot)
      (fun _ hv => by cases hv), by rw [setInode_self], fun jp hpos => ?_⟩
    · have huse : ∀ jp ≠ ip, 0 < (c.icache jp).ref → (c.icache jp).inum ≠ j :=
        fun jp _ hpos => hnone jp hpos
      intro jp kp hjp hkp heq
      by_cases hji : jp = ip <;> by_cases hki : kp = ip
      · rw [hji, hki]
      · rw [hji, setInode_self, setInode_of_ne hki] at heq
        rw [setInode_of_ne hki] at hkp
        exact absurd heq.symm (huse kp hki hkp)
      · rw [hki, setInode_self, setInode_of_ne hji] at heq
        rw [setInode_of_ne hji] at hjp
        exact absurd heq (huse jp hji hjp)
      · rw [setInode_of_ne hji] at hjp heq
        rw [setInode_of_ne hki] at hkp heq
        exact h.cache.unique jp kp hjp hkp heq
    · intro jp hjp
      by_cases hji : jp = ip
      · rw [hji, setInode_self]
        exact hj
      · rw [setInode_of_ne hji] at hjp ⊢
        exact h.cache.range jp hjp
    · rw [one, if_neg hjp, Nat.add_zero]
    · rw [one, if_pos rfl]
      change 1 = _
      omega
    · simp [busyAt, hnot]
    · have := (h.lock ip heq).1
      omega
    · have hne : jp ≠ ip := by
        rintro rfl
        omega
      rw [setInode_of_ne hne]

theorem Borrowed.locked (h : Borrowed sb c0 c x none) (href : 0 < (c.icache ip).ref)
    (hfree : (c.icache ip).busy = false)
    (htype : (c.icache ip).valid = false → (c.din (c.icache ip).inum).type ≠ 0) :
    Borrowed sb c0 (c.setInode ip (c.locked ip)) x (some ip) := by
  have hbusy := h.busy ip nofun href
  refine h.setInode (cacheOk_setInode h.cache rfl fun _ => href) (fun _ _ => rfl) (h.ref ip)
    (h.inum ip) (fun jp hjp => ?_) (fun hne _ => absurd rfl hne)
    (fun _ => ⟨href, by rw [← hbusy, hfree]⟩) (fun _ => rfl) fun _ _ => ?_
  · exact iff_of_false (fun heq => hjp (Option.some.inj heq).symm) nofun
  · change (if (c.icache ip).valid then (c.icache ip).d else c.din (c.icache ip).inum) = _ ∧
      (_ ∨ (c0.ino (c.icache ip).inum).type ≠ 0)
    cases hv : (c.icache ip).valid with
    | true =>
      rw [if_pos rfl]
      exact ⟨h.copy ip ⟨href, hv⟩, h.typed ip ⟨href, hv⟩⟩
    | false =>
      have hdin : c.din (c.icache ip).inum = c0.ino (c.icache ip).inum := by
        rw [← h.ino_eq]
        refine (ino_of_not_live fun jp hlive heq => ?_).symm
        rw [h.cache.unique jp ip hlive.1 href heq] at hlive
        rw [hlive.2] at hv
        cases hv
      rw [if_neg Bool.false_ne_true, ← hdin]
      exact ⟨hdin, Or.inr (htype hv)⟩

theorem Borrowed.unlocked (h : Borrowed sb c0 c x (some ip)) :
    Borrowed sb c0 (c.setInode ip { c.icache ip with busy := false }) x none := by
  obtain ⟨href, hbusy⟩ := h.lock ip rfl
  refine h.setInode (cacheOk_setInode h.cache rfl fun _ => href) (fun _ _ => rfl) (h.ref ip)
    (h.inum ip) (fun jp hjp => ?_) (fun _ _ => hbusy.symm) nofun (h.valid ip)
    fun _ hv => ⟨h.copy ip ⟨href, hv⟩, h.typed ip ⟨href, hv⟩⟩
  exact iff_of_false nofun fun heq => hjp (Option.some.inj heq).symm

theorem Borrowed.dropped (h : Borrowed sb c0 c (fun jp => x jp + one ip jp) none) :
    Borrowed sb c0 (c.setInode ip { c.icache ip with ref := (c.icache ip).ref - 1 }) x none := by
  have href := h.ref ip
  rw [one, if_pos rfl] at href
  have hpos : 0 < (c.icache ip).ref := by omega
  refine h.setInode (cacheOk_setInode h.cache rfl fun _ => hpos) (fun jp hjp => ?_) ?_
    (h.inum ip) (fun _ _ => Iff.rfl) (fun hne _ => h.busy ip hne hpos) nofun (h.valid ip)
    fun _ hv => ⟨h.copy ip ⟨hpos, hv⟩, h.typed ip ⟨hpos, hv⟩⟩
  · rw [one, if_neg hjp, Nat.add_zero]
  · change (c.icache ip).ref - 1 = _
    omega

theorem Borrowed.not_last (h : Borrowed sb c0 c (fun jp => x jp + one ip jp) none)
    (hkept : c0.Kept sb (c.icache ip).inum) :
    ¬((c.icache ip).ref = 1 ∧ (c.icache ip).valid = true ∧ (c.icache ip).d.nlink = 0) := by
  rintro ⟨href, hvalid, hnlink⟩
  have hx := h.ref ip
  rw [one, if_pos rfl] at hx
  have hlive : c.Live ip := ⟨by omega, hvalid⟩
  have hino : (c0.view sb).ino (c.icache ip).inum = c0.ino (c.icache ip).inum :=
    view_ino (h.cache.range ip hlive.1)
  rw [h.copy ip hlive] at hnlink
  rw [Kept, hino] at hkept
  rcases hkept with hlinks | htype | ⟨jp, hjp, heq⟩
  · exact hlinks hnlink
  · rcases h.typed ip hlive with hlive0 | hne
    · have := hlive0.1
      omega
    · exact hne htype
  · have hpos : 0 < (c.icache jp).ref := by
      rw [h.ref]
      omega
    obtain rfl := h.cache.unique jp ip hpos hlive.1 (by rw [h.inum jp hjp, heq])
    omega

end Borrowed

section Steps

variable {sb : Superblock} {c0 c : Core} {x : Fin ninode → Nat} {ip : Fin ninode}

theorem spec_iput_keeps
    (hkeep : ¬((c.icache ip).ref = 1 ∧ (c.icache ip).valid = true ∧ (c.icache ip).d.nlink = 0)) :
    Spec sb (iput ip) c fun _ c' =>
      c' = c.setInode ip { c.icache ip with ref := (c.icache ip).ref - 1 } := by
  refine spec_get fun s hs => ?_
  rw [hs]
  simp only [if_neg hkeep]
  exact spec_modifyInode rfl

theorem Borrowed.spec_iput (h : Borrowed sb c0 c (fun jp => x jp + one ip jp) none)
    (hkept : c0.Kept sb (c.icache ip).inum) : Spec sb (iput ip) c fun _ c' =>
      Borrowed sb c0 c' x none ∧ ∀ jp, (c'.icache jp).inum = (c.icache jp).inum := by
  refine (spec_iput_keeps (h.not_last hkept)).mono ?_
  rintro - _ rfl
  refine ⟨h.dropped, fun jp => ?_⟩
  by_cases hjp : jp = ip
  · rw [hjp, setInode_self]
  · rw [setInode_of_ne hjp]

theorem Borrowed.spec_iunlock (h : Borrowed sb c0 c x (some ip)) :
    Spec sb (iunlock ip) c fun _ c' =>
      Borrowed sb c0 c' x none ∧ ∀ jp, (c'.icache jp).inum = (c.icache jp).inum := by
  refine (Fs.spec_iunlock ip).mono ?_
  rintro - _ ⟨-, -, rfl⟩
  refine ⟨h.unlocked, fun jp => ?_⟩
  by_cases hjp : jp = ip
  · rw [hjp, setInode_self]
  · rw [setInode_of_ne hjp]

theorem Borrowed.spec_iunlockput (h : Borrowed sb c0 c (fun jp => x jp + one ip jp) (some ip))
    (hkept : c0.Kept sb (c.icache ip).inum) : Spec sb (iunlockput ip) c fun _ c' =>
      Borrowed sb c0 c' x none ∧ ∀ jp, (c'.icache jp).inum = (c.icache jp).inum := by
  refine h.spec_iunlock.bind ?_
  rintro - c1 ⟨h1, hinum1⟩
  refine (h1.spec_iput (by rw [hinum1]; exact hkept)).mono ?_
  rintro - c2 ⟨h2, hinum2⟩
  exact ⟨h2, fun jp => (hinum2 jp).trans (hinum1 jp)⟩

theorem Borrowed.spec_ilock (hfits : sb.Fits) (h : Borrowed sb c0 c x none)
    (href : 0 < (c.icache ip).ref) : Spec sb (ilock ip) c fun _ c' =>
      Borrowed sb c0 c' x (some ip) ∧ (c'.icache ip).inum = (c.icache ip).inum ∧ c'.Live ip := by
  refine (Fs.spec_ilock hfits (h.cache.range ip href)).mono ?_
  rintro - _ ⟨-, hfree, htype, rfl⟩
  refine ⟨h.locked href hfree htype, ?_, ?_⟩
  · rw [setInode_self]
    rfl
  · rw [Live, setInode_self]
    exact ⟨href, rfl⟩

end Steps

def target (v : View) (parent : Bool) (i : Nat) (names : List Name) : Option (Nat × Name) :=
  if parent then v.followParent i names else (v.follow i names).map fun j => (j, [])

section Target

variable {v : View} {parent : Bool} {i : Nat} {name : Name} {rest : List Name}

theorem target_nil : target v parent i [] = if parent then none else some (i, []) := rfl

theorem target_of_file (htype : (v.ino i).type ≠ tDir) :
    target v parent i (name :: rest) = none := by
  cases parent with
  | false => simp [target, View.follow, htype]
  | true => cases rest <;> simp [target, View.followParent, View.follow, htype]

theorem target_last (htype : (v.ino i).type = tDir) :
    target v true i [name] = some (i, name) := by
  simp [target, View.followParent, View.follow, htype]

theorem target_cons (htype : (v.ino i).type = tDir) (hmore : ¬(parent = true ∧ rest = [])) :
    target v parent i (name :: rest) =
      (v.lookup i name).bind fun j => target v parent j rest := by
  cases parent with
  | false =>
    simp only [target, View.follow, htype, if_true, if_neg Bool.false_ne_true]
    cases v.lookup i name <;> rfl
  | true =>
    cases rest with
    | nil => exact absurd ⟨rfl, rfl⟩ hmore
    | cons name' rest =>
      simp only [target, if_true, View.followParent, List.getLast?_cons_cons,
        List.dropLast_cons_cons, View.follow, htype]
      cases v.lookup i name with
      | some j => rfl
      | none =>
        simp only [Option.bind_none]
        cases (name' :: rest).getLast? <;> rfl

end Target

section Loop

variable {sb : Superblock} {c0 c : Core} {path : List UInt8}

def Resolved (sb : Superblock) (c0 : Core) (t : Option (Nat × Name))
    (r : Option (Fin ninode × Name)) (c : Core) : Prop :=
  match t with
  | none => r = none ∧ Borrowed sb c0 c (fun _ => 0) none
  | some (j, name) => ∃ ip, r = some (ip, name) ∧ (c.icache ip).inum = j ∧
    Borrowed sb c0 c (one ip) none

theorem skipelem_name {rest : List UInt8} {name : Name} (h : skipelem path = some (rest, name))
    (hnul : (0 : UInt8) ∉ path) :
    (0 : UInt8) ∉ name ∧ name.length ≤ dirSiz ∧ (0 : UInt8) ∉ rest := by
  rw [skipelem] at h
  split at h
  · cases h
  · simp only [Option.some.injEq, Prod.mk.injEq] at h
    obtain ⟨rfl, rfl⟩ := h
    refine ⟨fun hmem => hnul ?_, List.length_take_le .., fun hmem => hnul ?_⟩
    · have hword := (List.takeWhile_sublist _).subset (List.mem_of_mem_take hmem)
      exact (List.dropWhile_sublist _).subset hword
    · have hword := (List.dropWhile_sublist _).subset hmem
      exact (List.dropWhile_sublist _).subset ((List.dropWhile_sublist _).subset hword)

theorem spec_namex_end (parent : Bool) {ip : Fin ninode} (h : Borrowed sb c0 c (one ip) none)
    (hkept : c0.Kept sb (c.icache ip).inum) :
    Spec sb (if parent then do iput ip; pure none else pure (some (ip, []))) c
      (Resolved sb c0 (target (c0.view sb) parent (c.icache ip).inum [])) := by
  rw [target_nil]
  cases parent with
  | false => exact spec_pure ⟨ip, rfl, rfl, h⟩
  | true =>
    have hx : (fun jp => 0 + one ip jp) = one ip := by simp
    refine (Borrowed.spec_iput (x := fun _ => 0) (by rw [hx]; exact h) hkept).bind ?_
    rintro - c1 ⟨h1, -⟩
    exact spec_pure ⟨rfl, h1⟩

theorem spec_namexLoop (hfits : sb.Fits) (ht : c0.Tree sb) (parent : Bool) (fuel : Nat)
    {ip : Fin ninode} (hfuel : path.length ≤ fuel) (hnul : (0 : UInt8) ∉ path)
    (h : Borrowed sb c0 c (one ip) none) (hkept : c0.Kept sb (c.icache ip).inum) :
    Spec sb (namexLoop parent fuel ip path) c
      (Resolved sb c0 (target (c0.view sb) parent (c.icache ip).inum (components path))) := by
  induction fuel generalizing c ip path with
  | zero =>
    obtain rfl := List.length_eq_zero_iff.mp (Nat.le_zero.mp hfuel)
    exact spec_namex_end parent h hkept
  | succ fuel ih =>
    rw [namexLoop]
    split
    · rename_i hskip
      rw [skipelem_none hskip]
      exact spec_namex_end parent h hkept
    · rename_i rest name hskip
      obtain ⟨hnames, hlt, hlast⟩ := skipelem_some hskip
      obtain ⟨hname, hlen, hrest⟩ := skipelem_name hskip hnul
      rw [hnames]
      have hx : (fun jp => 0 + one ip jp) = one ip := by simp
      have href : 0 < (c.icache ip).ref := by
        rw [h.ref, one, if_pos rfl]
        exact Nat.succ_pos _
      refine (h.spec_ilock hfits href).bind ?_
      rintro - c1 ⟨h1, hinum1, hlive1⟩
      rw [← hinum1] at hkept ⊢
      have hino : (c0.view sb).ino (c1.icache ip).inum = (c1.icache ip).d := by
        rw [← h1.view_eq]
        exact view_ino_of_live h1.cache hlive1
      have hput := Borrowed.spec_iunlockput (x := fun _ => 0) (by rw [hx]; exact h1) hkept
      refine spec_get fun s hs => ?_
      rw [hs]
      split
      · -- not a directory
        rename_i htype
        rw [target_of_file (by rw [hino]; exact htype)]
        refine hput.bind ?_
        rintro - c2 ⟨h2, -⟩
        exact spec_pure ⟨rfl, h2⟩
      · rename_i htype
        rw [not_not] at htype
        have hdir : ((c0.view sb).ino (c1.icache ip).inum).type = tDir := by rw [hino, htype]
        split
        · -- `nameiparent` stops
          rename_i hstop
          rw [hlast.mpr hstop.2, hstop.1, target_last hdir]
          refine h1.spec_iunlock.bind ?_
          rintro - c2 ⟨h2, hinum2⟩
          exact spec_pure ⟨ip, rfl, hinum2 ip, h2⟩
        · rename_i hmore
          rw [target_cons hdir fun hstop => hmore ⟨hstop.1, hlast.mp hstop.2⟩]
          have ho : Opened sb c1 ip :=
            ⟨h1.good ht.good, hlive1, by rw [htype]; decide⟩
          refine (spec_dirlookup ho hname hlen).bind fun r c2 hr => ?_
          rw [h1.view_eq] at hr
          cases hlookup : (c0.view sb).lookup (c1.icache ip).inum name with
          | none =>
            rw [hlookup] at hr
            obtain ⟨rfl, rfl⟩ := hr
            refine hput.bind ?_
            rintro - c3 ⟨h3, -⟩
            exact spec_pure ⟨rfl, h3⟩
          | some j =>
            rw [hlookup] at hr
            obtain ⟨next, off, rfl, hgot⟩ := hr
            obtain ⟨hj, hkeptj⟩ := ht.named _ name j hdir hlookup
            obtain ⟨h2, hnext, hother⟩ := h1.got hj hgot
            -- the reference to `ip` is exchanged for the one to `next`
            have hswap : (fun jp => one ip jp + one next jp) =
                fun jp => one next jp + one ip jp := by
              funext jp
              exact Nat.add_comm ..
            rw [hswap] at h2
            have hkept2 : c0.Kept sb (c2.icache ip).inum := by
              rw [hother ip hlive1.1]
              exact hkept
            refine (h2.spec_iunlockput hkept2).bind ?_
            rintro - c3 ⟨h3, hinum3⟩
            have hnext3 : (c3.icache next).inum = j := (hinum3 next).trans hnext
            rw [Option.bind_some, ← hnext3]
            exact ih (by omega) hrest h3 (by rw [hnext3]; exact hkeptj)

def origin (c : Core) (cwd : Fin ninode) (path : List UInt8) : Nat :=
  if path.head? = some slash then rootIno else (c.icache cwd).inum

theorem spec_namex (hfits : sb.Fits) (ht : c0.Tree sb) (parent : Bool) {cwd : Fin ninode}
    (hcwd : 0 < (c0.icache cwd).ref) (hnul : (0 : UInt8) ∉ path) :
    Spec sb (namex cwd path parent) c0
      (Resolved sb c0 (target (c0.view sb) parent (origin c0 cwd path) (components path))) := by
  have hx : ∀ ip, (fun jp => 0 + one ip jp) = one ip := fun ip => by simp
  have hrefl := Borrowed.refl ht.good.cache
  rw [namex, origin]
  split
  · refine (spec_iget rootIno).bind fun ip c hgot => ?_
    obtain ⟨h, hinum, -⟩ := hrefl.got ht.root.1 hgot
    rw [hx] at h
    rw [← hinum]
    exact spec_namexLoop hfits ht parent _ le_rfl hnul h (by rw [hinum]; exact ht.root.2)
  · refine (spec_idup cwd).bind ?_
    rintro r c ⟨hr, rfl⟩
    rw [hr]
    have h := hrefl.again hcwd
    rw [hx] at h
    have hinum : ((c0.setInode cwd { c0.icache cwd with
        ref := (c0.icache cwd).ref + 1 }).icache cwd).inum = (c0.icache cwd).inum := by
      rw [setInode_self]
    have hloop := spec_namexLoop hfits ht parent path.length le_rfl hnul h
      (by rw [hinum]; exact Or.inr (Or.inr ⟨cwd, hcwd, rfl⟩))
    rw [hinum] at hloop
    exact hloop

end Loop

structure RefsKept (s s' : Fs) (r : Option (Fin ninode)) : Prop where
  ref : ∀ ip, (s'.icache ip).ref = (s.icache ip).ref + if r = some ip then 1 else 0
  inum : ∀ ip, 0 < (s.icache ip).ref → (s'.icache ip).inum = (s.icache ip).inum
  busy : ∀ ip, 0 < (s'.icache ip).ref → (s'.icache ip).busy = s.core.busyAt ip

section Calls

variable {sb : Superblock} {s s' : Fs} {cwd : Fin ninode} {path : List UInt8}

theorem Resolved.refsKept {t : Option (Nat × Name)} {r : Option (Fin ninode × Name)}
    (h : Resolved sb s.core t r s'.core) :
    r.map (fun p => ((s'.icache p.1).inum, p.2)) = t ∧ RefsKept s s' (r.map (·.1)) ∧
      s'.core.view sb = s.core.view sb := by
  cases t with
  | none =>
    obtain ⟨rfl, hb⟩ := h
    exact ⟨rfl, ⟨fun ip => hb.ref ip, hb.inum, fun ip => hb.busy ip nofun⟩, hb.view_eq⟩
  | some p =>
    obtain ⟨j, name⟩ := p
    obtain ⟨ip, rfl, hinum, hb⟩ := h
    refine ⟨congrArg (fun j => some (j, name)) hinum, ⟨fun jp => ?_, hb.inum,
      fun jp => hb.busy jp nofun⟩, hb.view_eq⟩
    have href := hb.ref jp
    rw [one] at href
    simp only [Option.map_some, Option.some.injEq, eq_comm (a := ip)]
    exact href

theorem namex_ensures (hfits : sb.Fits) (hok : s.Ok sb) (ht : s.core.Tree sb) (parent : Bool)
    (hcwd : 0 < (s.icache cwd).ref) (hnul : (0 : UInt8) ∉ path) :
    (namex cwd path parent).Ensures s fun r s' =>
      r.map (fun p => ((s'.icache p.1).inum, p.2)) =
        target (s.core.view sb) parent (origin s.core cwd path) (components path) ∧
      RefsKept s s' (r.map (·.1)) ∧ s'.core.view sb = s.core.view sb :=
  (spec_namex hfits ht parent hcwd hnul s hok rfl).mono fun _ _ h => h.2.refsKept

/-- `namex` takes the components of the path in order, in a bounded number of rounds. If it returns,
`namei` has followed them all and `nameiparent` all but the last; the file system is unchanged, and
so are references and locks but for the reference to the inode returned. -/
theorem path_resolution (hfits : sb.Fits) (hok : s.Ok sb) (ht : s.core.Tree sb)
    (hcwd : 0 < (s.icache cwd).ref) (hnul : (0 : UInt8) ∉ path) :
    (∀ fuel, path.length ≤ fuel → elements fuel path = components path) ∧
    (∀ parent fuel ip, path.length ≤ fuel →
      namexLoop parent fuel ip path = namexLoop parent path.length ip path) ∧
    (namei cwd path).Ensures s (fun r s' =>
      r.map (fun ip => (s'.icache ip).inum) =
        (s.core.view sb).follow (origin s.core cwd path) (components path) ∧
      RefsKept s s' r ∧ s'.core.view sb = s.core.view sb) ∧
    (nameiparent cwd path).Ensures s (fun r s' =>
      r.map (fun p => ((s'.icache p.1).inum, p.2)) =
        (s.core.view sb).followParent (origin s.core cwd path) (components path) ∧
      RefsKept s s' (r.map (·.1)) ∧ s'.core.view sb = s.core.view sb) := by
  refine ⟨fun fuel hfuel => elements_eq hfuel,
    fun parent fuel ip hfuel => namexLoop_fuel parent ip hfuel le_rfl, ?_,
    namex_ensures hfits hok ht true hcwd hnul⟩
  refine (namex_ensures hfits hok ht false hcwd hnul).bind ?_
  rintro r s1 ⟨hr, hrefs, hview⟩
  refine Kernel.ensures_pure ⟨?_, hrefs, hview⟩
  have hfst := congrArg (Option.map Prod.fst) hr
  rw [target, if_neg Bool.false_ne_true, Option.map_map, Option.map_map] at hfst
  rw [Option.map_map]
  simpa [Function.comp_def] using hfst

end Calls

section Dot

open FileWrite

def dotInode : Dinode :=
  { emptyFile with type := tDir, size := 16, addrs := fun k => if k = 0 then 5 else 0 }

def dotRoot : Fs :=
  { (small 63).fs with
    content := fun b => if b = 5 then Name.bytes (direntBytes 1 (Name.bytes [46]))
      else smallContent 63 b
    icache := fun ip => if ip = firstEntry then { openFile with d := dotInode } else noFile }

theorem dotRoot_ref {ip : Fin ninode} (h : 0 < (dotRoot.core.icache ip).ref) :
    ip = firstEntry := by
  by_contra hne
  have hnone : dotRoot.core.icache ip = noFile := if_neg hne
  rw [hnone] at h
  exact absurd h (by decide)

theorem dotRoot_cacheOk : dotRoot.core.CacheOk smallDisk where
  unique ip jp hi hj _ := by rw [dotRoot_ref hi, dotRoot_ref hj]
  range ip hi := by
    rw [dotRoot_ref hi]
    decide

theorem dotRoot_ino : ∀ i ≠ 1, ((dotRoot.core.view smallDisk).ino i).type = 0 := by
  intro i hne
  have hsmall : ∀ i : Fin 8, i.val ≠ 1 → (dotRoot.core.ino i).type = 0 := by decide
  by_cases hi : i < smallDisk.ninodes
  · rw [view_ino hi]
    exact hsmall ⟨i, hi⟩ hne
  · have hzero : (dotRoot.core.view smallDisk).ino i = Dinode.zero := if_neg hi
    rw [hzero]
    rfl

theorem dotRoot_one : (dotRoot.core.view smallDisk).ino 1 = dotInode := by
  have hlive : dotRoot.core.Live firstEntry := ⟨by decide, by decide⟩
  exact view_ino_of_live dotRoot_cacheOk hlive

theorem dotRoot_own (i k : Nat) : (dotRoot.core.view smallDisk).own i k =
    if i = 1 ∧ k = 0 then 5 else 0 := by
  by_cases hi : i = 1
  · have htype : ((dotRoot.core.view smallDisk).ino i).type ≠ 0 := by
      rw [hi, dotRoot_one]
      decide
    rw [View.own_of_type htype, hi, View.slot, dotRoot_one]
    by_cases hk : k < ndirect + 1
    · rw [dif_pos hk]
      by_cases hzero : k = 0
      · rw [if_pos ⟨rfl, hzero⟩]
        subst hzero
        rfl
      · rw [if_neg fun h => hzero h.2]
        change (if (⟨k, hk⟩ : Fin (ndirect + 1)) = 0 then (5 : UInt32) else 0).toNat = 0
        rw [if_neg fun h => hzero (congrArg Fin.val h)]
        rfl
    · have hnone : (dotInode.addrs (Fin.last ndirect)).toNat = 0 := by decide
      rw [dif_neg hk, if_pos (Or.inl hnone), if_neg (by omega)]
  · rw [View.own, if_pos (dotRoot_ino i hi), if_neg fun h => hi h.1]

theorem dotRoot_sound : (dotRoot.core.view smallDisk).Sound smallDisk where
  system := by decide
  used i k hne := by
    rw [dotRoot_own] at hne ⊢
    split at hne
    · rw [if_pos ‹_›]
      decide
    · exact absurd rfl hne
  inj i k j l heq hne := by
    rw [dotRoot_own] at heq hne
    rw [dotRoot_own] at heq
    split at hne
    · rename_i hik
      rw [if_pos hik] at heq
      split at heq
      · rename_i hjl
        exact ⟨hik.1.trans hjl.1.symm, hik.2.trans hjl.2.symm⟩
      · cases heq
    · exact absurd rfl hne
  fits i htype := by
    obtain rfl : i = 1 := by
      by_contra hne
      exact htype (dotRoot_ino i hne)
    rw [View.size, dotRoot_one]
    decide
  full i bn htype hlt := by
    obtain rfl : i = 1 := by
      by_contra hne
      exact htype (dotRoot_ino i hne)
    have hbn : bn = 0 := by
      rw [View.size, dotRoot_one] at hlt
      change bn * 512 < 16 at hlt
      omega
    rw [View.addr, ← View.own_of_type htype, dotRoot_own, hbn]
    decide

theorem dotRoot_tree : dotRoot.core.Tree smallDisk where
  good := ⟨dotRoot_cacheOk, dotRoot_sound⟩
  root := ⟨by decide, Or.inl (by
    rw [show rootIno = 1 from rfl, dotRoot_one]
    decide)⟩
  named i name j htype hlookup := by
    obtain rfl : i = 1 := by
      by_contra hne
      rw [dotRoot_ino i hne] at htype
      cases htype
    have hentries : (dotRoot.core.view smallDisk).entries 1 = [([46], 1)] := by decide
    rw [View.lookup, hentries, List.lookup_cons] at hlookup
    split at hlookup
    · obtain rfl := Option.some.inj hlookup
      refine ⟨by decide, Or.inl ?_⟩
      rw [dotRoot_one]
      decide
    · cases hlookup

/-- The path `/.//.` leads to the root directory. -/
theorem path_resolution_dot : ∃ s', (namei firstEntry [47, 46, 47, 47, 46]).run dotRoot =
    .ok (some firstEntry, s') ∧ RefsKept dotRoot s' (some firstEntry) ∧
      (dotRoot.core.view smallDisk).follow 1 [[46], [46]] = some 1 := by
  have hok : dotRoot.Ok smallDisk := ⟨rfl, rfl, List.nodup_nil, nofun, nofun⟩
  have hall := path_resolution smallDisk_fits hok dotRoot_tree
    (show 0 < (dotRoot.icache firstEntry).ref by decide)
    (show (0 : UInt8) ∉ [47, 46, 47, 47, 46] by decide)
  have hvalue : (((namei firstEntry [47, 46, 47, 47, 46]).run dotRoot).toOption.map (·.1)) =
      some (some firstEntry) := by decide
  cases hrun : (namei firstEntry [47, 46, 47, 47, 46]).run dotRoot with
  | error e =>
    rw [hrun] at hvalue
    cases hvalue
  | ok p =>
    obtain ⟨r, s'⟩ := p
    rw [hrun] at hvalue
    obtain rfl : r = some firstEntry := Option.some.inj hvalue
    obtain ⟨hr, hrefs, -⟩ := hall.2.2.1 _ _ hrun
    refine ⟨s', rfl, hrefs, ?_⟩
    decide

end Dot

end Fs

end Xv6
