import Xv6.Proof.DirLookup
import Xv6.Proof.FsReadi

/-!
# The names in a path, and the names in a directory

`skipelem` takes the non-empty elements of a path one after another. A directory is the list of its
entries in use; `dirlookup` finds the first one with the given name.
-/

namespace Xv6

namespace Fs

def components (path : List UInt8) : List Name :=
  ((path.splitOn slash).filter (· ≠ [])).map (·.take dirSiz)

def elements : Nat → List UInt8 → List Name
  | 0, _ => []
  | fuel + 1, path =>
    match skipelem path with
    | none => []
    | some (rest, name) => name :: elements fuel rest

variable {path rest : List UInt8} {name : Name}

theorem components_nil : components [] = [] := rfl

theorem components_slash (path : List UInt8) : components (slash :: path) = components path := by
  rw [components, List.splitOn_cons_eq_if_modifyHead, if_pos (by simp)]
  rfl

theorem components_dropWhile (path : List UInt8) :
    components (path.dropWhile (· = slash)) = components path := by
  induction path with
  | nil => rfl
  | cons b path ih =>
    by_cases hb : b = slash
    · rw [List.dropWhile_cons_of_pos (by simpa using hb), ih, hb, components_slash]
    · rw [List.dropWhile_cons_of_neg (by simpa using hb)]

theorem components_append {word : List UInt8} (hne : word ≠ []) (hslash : slash ∉ word)
    (hrest : rest = [] ∨ ∃ tail, rest = slash :: tail) :
    components (word ++ rest) = word.take dirSiz :: components rest := by
  rcases hrest with rfl | ⟨tail, rfl⟩
  · rw [List.append_nil, components, List.splitOn_eq_singleton hslash]
    simp [hne, components_nil]
  · rw [components_slash, components, List.splitOn_append_cons_self_of_not_mem hslash]
    simp [hne, components]

theorem skipelem_none (h : skipelem path = none) : components path = [] := by
  rw [skipelem] at h
  split at h
  · rename_i hnil
    rw [← components_dropWhile, hnil, components_nil]
  · cases h

theorem dropWhile_word (path : List UInt8) :
    path.dropWhile (· ≠ slash) = [] ∨ ∃ tail, path.dropWhile (· ≠ slash) = slash :: tail := by
  induction path with
  | nil => exact Or.inl rfl
  | cons b path ih =>
    by_cases hb : b = slash
    · exact Or.inr ⟨path, by rw [List.dropWhile_cons_of_neg (by simpa using hb), hb]⟩
    · rw [List.dropWhile_cons_of_pos (by simpa using hb)]
      exact ih

theorem dropWhile_slash (path : List UInt8) : path.dropWhile (· = slash) = [] ∨
    ∃ b tail, b ≠ slash ∧ path.dropWhile (· = slash) = b :: tail := by
  induction path with
  | nil => exact Or.inl rfl
  | cons b path ih =>
    by_cases hb : b = slash
    · rw [List.dropWhile_cons_of_pos (by simpa using hb)]
      exact ih
    · exact Or.inr ⟨b, path, hb, List.dropWhile_cons_of_neg (by simpa using hb)⟩

theorem components_cons {b : UInt8} (hb : b ≠ slash) (path : List UInt8) :
    components (b :: path) = ((b :: path).takeWhile (· ≠ slash)).take dirSiz ::
      components ((b :: path).dropWhile (· ≠ slash)) := by
  conv_lhs => rw [← List.takeWhile_append_dropWhile (p := (· ≠ slash)) (l := b :: path)]
  refine components_append ?_ (fun hmem => ?_) (dropWhile_word _)
  · rw [List.takeWhile_cons_of_pos (by simpa using hb)]
    exact List.cons_ne_nil _ _
  · exact absurd (List.all_takeWhile (p := (· ≠ slash)) (l := b :: path)) (by
      rw [List.all_eq_true]
      exact fun h => by simpa using h slash hmem)

theorem skipelem_some (h : skipelem path = some (rest, name)) :
    components path = name :: components rest ∧ rest.length < path.length ∧
      (components rest = [] ↔ rest = []) := by
  rw [skipelem] at h
  rcases dropWhile_slash path with hnil | ⟨b, tail, hb, hcons⟩
  · rw [if_pos hnil] at h
    cases h
  · rw [hcons, if_neg (List.cons_ne_nil _ _)] at h
    simp only [Option.some.injEq, Prod.mk.injEq] at h
    obtain ⟨rfl, rfl⟩ := h
    refine ⟨?_, ?_, ?_⟩
    · rw [← components_dropWhile path, hcons, components_cons hb, components_dropWhile]
    · have hle := (List.dropWhile_sublist (l := path) (· = slash)).length_le
      have hword := (List.dropWhile_sublist (l := tail) (· ≠ slash)).length_le
      have hrest := (List.dropWhile_sublist (l := (b :: tail).dropWhile (· ≠ slash))
        (· = slash)).length_le
      rw [hcons, List.length_cons] at hle
      rw [List.dropWhile_cons_of_pos (by simpa using hb)] at hrest ⊢
      omega
    · rcases dropWhile_slash ((b :: tail).dropWhile (· ≠ slash)) with hnil | ⟨b', tail', hb', heq⟩
      · rw [hnil]
        exact iff_of_true rfl rfl
      · rw [heq, components_cons hb']
        exact iff_of_false (List.cons_ne_nil _ _) (List.cons_ne_nil _ _)

theorem elements_eq {fuel : Nat} (h : path.length ≤ fuel) :
    elements fuel path = components path := by
  induction fuel generalizing path with
  | zero =>
    obtain rfl := List.length_eq_zero_iff.mp (Nat.le_zero.mp h)
    rfl
  | succ fuel ih =>
    rw [elements]
    split
    · rename_i hskip
      rw [skipelem_none hskip]
    · rename_i rest name hskip
      obtain ⟨heq, hlt, -⟩ := skipelem_some hskip
      rw [heq, ih (by omega)]

theorem namexLoop_fuel (parent : Bool) {m n : Nat} (ip : Fin ninode) (hm : path.length ≤ m)
    (hn : path.length ≤ n) : namexLoop parent m ip path = namexLoop parent n ip path := by
  induction m generalizing n ip path with
  | zero =>
    obtain rfl := List.length_eq_zero_iff.mp (Nat.le_zero.mp hm)
    cases n <;> rfl
  | succ m ih =>
    cases n with
    | zero =>
      obtain rfl := List.length_eq_zero_iff.mp (Nat.le_zero.mp hn)
      rfl
    | succ n =>
      rw [namexLoop.eq_def, namexLoop.eq_def]
      dsimp only
      cases hskip : skipelem path with
      | none => rfl
      | some result =>
        obtain ⟨rest, name⟩ := result
        obtain ⟨-, hlt, -⟩ := skipelem_some hskip
        have hnext : ∀ next, namexLoop parent m next rest = namexLoop parent n next rest :=
          fun next => ih next (by omega) (by omega)
        simp only [hnext]

def Dirent.text (de : Dirent) : Name := ((List.range' 0 dirSiz).map de.name).takeWhile (· ≠ 0)

theorem namecmpEq_iff_text (hnul : (0 : UInt8) ∉ name) (hlen : name.length ≤ dirSiz)
    (de : Dirent) : namecmpEq (Name.bytes name) de.name = true ↔ name = de.text := by
  rw [namecmpEq, strncmpEq_iff_text hnul, List.drop_zero, List.take_of_length_le hlen,
    Dirent.text]

def inUse (des : List Dirent) : List (Name × Nat) :=
  (des.filter (·.inum ≠ 0)).map fun de => (de.text, de.inum)

end Fs

namespace View

open Fs

variable (v : View)

def dirent (i off : Nat) : Dirent :=
  Dirent.load ((List.range direntSize).map fun k => v.byte i (off + k))

def entries (i : Nat) : List (Name × Nat) := inUse ((direntOffs (v.size i) 0).map (v.dirent i))

def lookup (i : Nat) (name : Name) : Option Nat := (v.entries i).lookup name

end View

namespace Fs

open Xv6.Core

variable {sb : Superblock} {c : Core} {dp : Fin ninode} {name : Name}

theorem spec_readDirent (ho : Opened sb c dp) (hdev : (c.icache dp).d.type ≠ tDev) (off : Nat)
    (msg : String) : Spec sb (readDirent dp off msg) c fun de c' =>
      de = (c.view sb).dirent (c.icache dp).inum off ∧ c' = c := by
  refine (spec_readi ho hdev off direntSize).bind ?_
  rintro r c1 ⟨hc1, rfl⟩
  rw [hc1]
  split
  · exact spec_panic _
  · rename_i bytes hbytes
    split at hbytes
    · cases hbytes
    · obtain rfl := Option.some.inj hbytes
      split
      · exact spec_panic _
      · rename_i hlen
        rw [length_slice, not_not] at hlen
        refine spec_pure ⟨?_, rfl⟩
        rw [View.dirent, slice, hlen]

theorem lookup_inUse_cons (de : Dirent) (des : List Dirent) (name : Name) :
    (inUse (de :: des)).lookup name =
      if de.inum ≠ 0 ∧ name = de.text then some de.inum else (inUse des).lookup name := by
  by_cases hinum : de.inum = 0
  · rw [inUse, List.filter_cons_of_neg (by simpa using hinum), if_neg fun h => h.1 hinum]
    rfl
  · rw [inUse, List.filter_cons_of_pos (by simpa using hinum), List.map_cons, List.lookup_cons]
    by_cases hname : name = de.text
    · rw [if_pos ⟨hinum, hname⟩, hname, beq_self_eq_true]
    · rw [if_neg fun h => hname h.2, beq_eq_false_iff_ne.mpr hname]
      rfl

theorem spec_dirlookupLoop (ho : Opened sb c dp) (hdev : (c.icache dp).d.type ≠ tDev)
    (hnul : (0 : UInt8) ∉ name) (hlen : name.length ≤ dirSiz) (offs : List Nat) :
    Spec sb (dirlookupLoop dp (Name.bytes name) offs) c fun r c' =>
      match (inUse (offs.map ((c.view sb).dirent (c.icache dp).inum))).lookup name with
      | none => r = none ∧ c' = c
      | some j => ∃ ip off, r = some (ip, off) ∧ Got c j ip c' := by
  induction offs with
  | nil => exact spec_pure ⟨rfl, rfl⟩
  | cons off rest ih =>
    rw [List.map_cons, lookup_inUse_cons, dirlookupLoop]
    refine (spec_readDirent ho hdev off _).bind ?_
    rintro de c1 ⟨rfl, hc1⟩
    rw [hc1]
    have hiff := and_congr_right' (a := ((c.view sb).dirent (c.icache dp).inum off).inum ≠ 0)
      (namecmpEq_iff_text hnul hlen ((c.view sb).dirent (c.icache dp).inum off))
    split
    · rename_i hfound
      rw [if_pos (hiff.mp hfound)]
      refine (spec_iget _).bind fun ip c2 hgot => ?_
      exact spec_pure ⟨ip, off, rfl, hgot⟩
    · rename_i hother
      rw [if_neg fun h => hother (hiff.mpr h)]
      exact ih

theorem spec_dirlookup (ho : Opened sb c dp) (hnul : (0 : UInt8) ∉ name)
    (hlen : name.length ≤ dirSiz) :
    Spec sb (dirlookup dp (Name.bytes name)) c fun r c' =>
      match (c.view sb).lookup (c.icache dp).inum name with
      | none => r = none ∧ c' = c
      | some j => ∃ ip off, r = some (ip, off) ∧ Got c j ip c' := by
  refine spec_get fun s hs => ?_
  rw [hs]
  split
  · exact spec_panic _
  · rename_i htype
    rw [not_not] at htype
    have hsize : (c.icache dp).d.size.toNat = (c.view sb).size (c.icache dp).inum := by
      rw [View.size, ho.view_ino]
    rw [hsize]
    exact spec_dirlookupLoop ho (by rw [htype]; decide) hnul hlen _

end Fs

end Xv6
