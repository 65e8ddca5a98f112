import Xv6.Proof.FsRead
import Xv6.Proof.MkfsCount

/-!
# Looking up a name in a directory

A directory as the list of its entries. A name without a NUL that is cut to 14 bytes is compared by
`namecmp` as it is, so `dirlookup` returns the inode of the first entry with that name.
-/

namespace Xv6

namespace Fs

theorem getD_strncpy {name : Name} (hnul : (0 : UInt8) ∉ name) (i n k : Nat) (hk : k < n) :
    (strncpy (Name.bytes name) i n).getD k 0 = name.getD (i + k) 0 := by
  induction n generalizing i k with
  | zero => omega
  | succ n ih =>
    rw [strncpy]
    cases k with
    | zero => rfl
    | succ k =>
      rw [List.getD_cons_succ, show i + (k + 1) = i + 1 + k by omega]
      split
      · -- the name has ended
        rename_i hz
        have hlen : name.length ≤ i := by
          by_contra hlt
          have hmem : name[i] ∈ name := List.getElem_mem (by omega)
          rw [Name.bytes, List.getD_eq_getElem _ _ (by omega)] at hz
          exact hnul (hz ▸ hmem)
        rw [List.getD_eq_default name _ (by omega)]
        simp
      · exact ih (i + 1) k (by omega)

theorem strncmpEq_iff_text {a : Name} (ha : (0 : UInt8) ∉ a) (q : Block) (i n : Nat) :
    strncmpEq (Name.bytes a) q i n = true ↔
      (a.drop i).take n = ((List.range' i n).map q).takeWhile (· ≠ 0) := by
  induction n generalizing i with
  | zero => simp [strncmpEq]
  | succ n ih =>
    rw [strncmpEq, Name.bytes, List.range'_succ, List.map_cons]
    by_cases hai : i < a.length
    · have hane : a[i] ≠ 0 := fun hz => ha (hz ▸ List.getElem_mem hai)
      rw [List.getD_eq_getElem _ _ hai, List.drop_eq_getElem_cons hai, List.take_succ_cons]
      by_cases heq : a[i] = q i
      · rw [if_pos ⟨hane, heq⟩, List.takeWhile_cons_of_pos (by simpa [← heq] using hane),
          List.cons.injEq]
        exact (ih (i + 1)).trans (and_iff_right heq).symm
      · rw [if_neg fun h => heq h.2, decide_eq_true_iff]
        refine iff_of_false heq fun h => ?_
        by_cases hz : q i = 0
        · rw [List.takeWhile_cons_of_neg (by simpa using hz)] at h
          cases h
        · rw [List.takeWhile_cons_of_pos (by simpa using hz)] at h
          exact heq (List.cons.inj h).1
    · rw [List.getD_eq_default a _ (by omega), List.drop_eq_nil_of_le (by omega), List.take_nil,
        if_neg fun h => h.1 rfl, decide_eq_true_iff]
      by_cases hz : q i = 0
      · rw [List.takeWhile_cons_of_neg (by simpa using hz)]
        exact iff_of_true hz.symm rfl
      · rw [List.takeWhile_cons_of_pos (by simpa using hz)]
        exact iff_of_false (Ne.symm hz) (List.cons_ne_nil _ _).symm

theorem takeWhile_of_getD {b : Name} (hb : (0 : UInt8) ∉ b) {q : Block} (i n : Nat)
    (hq : ∀ k < i + n, q k = b.getD k 0) :
    ((List.range' i n).map q).takeWhile (· ≠ 0) = (b.drop i).take n := by
  induction n generalizing i with
  | zero => simp
  | succ n ih =>
    rw [List.range'_succ, List.map_cons, hq i (by omega)]
    by_cases hbi : i < b.length
    · have hne : b[i] ≠ 0 := fun hz => hb (hz ▸ List.getElem_mem hbi)
      rw [List.getD_eq_getElem _ _ hbi, List.takeWhile_cons_of_pos (by simpa using hne),
        ih (i + 1) (fun k hk => hq k (by omega)), List.drop_eq_getElem_cons hbi,
        List.take_succ_cons]
    · rw [List.getD_eq_default b _ (by omega), List.takeWhile_cons_of_neg (by simp),
        List.drop_eq_nil_of_le (by omega), List.take_nil]

theorem strncmpEq_iff {a b : Name} (ha : (0 : UInt8) ∉ a) (hb : (0 : UInt8) ∉ b) {q : Block}
    (i n : Nat) (hq : ∀ k < i + n, q k = b.getD k 0) :
    strncmpEq (Name.bytes a) q i n = true ↔ (a.drop i).take n = (b.drop i).take n := by
  rw [strncmpEq_iff_text ha, takeWhile_of_getD hb i n hq]

structure Entry where
  inum : Nat
  name : Name
  pos : 0 < inum
  short : inum < 65536
  nul : (0 : UInt8) ∉ name

def Entry.bytes (e : Entry) : List UInt8 := direntBytes e.inum (Name.bytes e.name)

theorem Entry.load_inum (e : Entry) : (Dirent.load e.bytes).inum = e.inum := by
  have hshort := e.short
  simp only [Dirent.load, Entry.bytes, direntBytes, getLE, Name.bytes, List.getD_cons_zero,
    List.getD_cons_succ]
  simp only [UInt8.toNat_ofNat']
  omega

theorem Entry.namecmpEq_iff (e : Entry) {name : Name} (hnul : (0 : UInt8) ∉ name) :
    namecmpEq (Name.bytes (name.take dirSiz)) (Dirent.load e.bytes).name = true ↔
      name.take dirSiz = e.name.take dirSiz := by
  have hname : ∀ k < 0 + dirSiz, (Dirent.load e.bytes).name k = e.name.getD k 0 := by
    intro k hk
    have hcopy := getD_strncpy e.nul 0 dirSiz k (by omega)
    rw [Nat.zero_add] at hcopy
    exact hcopy
  have hcut : (0 : UInt8) ∉ name.take dirSiz := fun h => hnul (List.mem_of_mem_take h)
  rw [namecmpEq, strncmpEq_iff hcut e.nul 0 dirSiz hname, List.drop_zero, List.drop_zero,
    List.take_take, Nat.min_self]

def dirBytes (es : List Entry) : List UInt8 := es.flatMap Entry.bytes

theorem Entry.length_bytes (e : Entry) : e.bytes.length = direntSize := Mkfs.length_direntBytes ..

theorem length_dirBytes (es : List Entry) : (dirBytes es).length = direntSize * es.length := by
  induction es with
  | nil => rfl
  | cons e es ih =>
    rw [dirBytes, List.flatMap_cons, List.length_append, e.length_bytes, ← dirBytes, ih,
      List.length_cons, Nat.mul_succ, Nat.add_comm]

theorem dirBytes_slice {es : List Entry} {j : Nat} {e : Entry} (h : es[j]? = some e) :
    ((dirBytes es).drop (direntSize * j)).take direntSize = e.bytes := by
  induction es generalizing j with
  | nil => cases h
  | cons e' es ih =>
    rw [dirBytes, List.flatMap_cons, ← dirBytes]
    cases j with
    | zero =>
      obtain rfl : e' = e := Option.some.inj h
      rw [Nat.mul_zero, List.drop_zero, ← e'.length_bytes, List.take_left]
    | succ j =>
      have hlen := e'.length_bytes
      rw [Nat.mul_succ, Nat.add_comm, ← List.drop_drop, ← hlen, List.drop_left, hlen]
      exact ih h

structure Directory (s : Fs) (dp : Fin ninode) (es : List Entry) : Prop where
  type : (s.icache dp).d.type = tDir
  size : direntSize * es.length ≤ (s.icache dp).d.size.toNat
  read : ∃ v i, Sees s dp v i ∧ (∀ x < (dirBytes es).length, v.addr i (x / bsize) ≠ 0) ∧
    ∀ x < (dirBytes es).length, v.byte i x = (dirBytes es).getD x 0

variable {s : Fs} {dp : Fin ninode} {es : List Entry}

theorem run_readDirent (h : Directory s dp es) {j : Nat} {e : Entry} (hj : es[j]? = some e)
    (msg : String) :
    (readDirent dp (direntSize * j) msg).run s = .ok (Dirent.load e.bytes, s) := by
  obtain ⟨v, i, hsees, hall, hbyte⟩ := h.read
  have hlt : j < es.length := (List.getElem?_eq_some_iff.mp hj).1
  have hend : direntSize * j + direntSize ≤ direntSize * es.length := by
    rw [← Nat.mul_succ]
    exact Nat.mul_le_mul_left _ hlt
  have hread := run_readi hsees (by rw [h.type]; decide) (hend.trans h.size)
    (by rw [length_dirBytes]; exact hend) hall hbyte
  rw [dirBytes_slice hj] at hread
  rw [readDirent, Kernel.run_bind_of_ok hread]
  simp only [e.length_bytes, ne_eq, not_true_eq_false, if_false]
  rfl

theorem run_dirlookupLoop (h : Directory s dp es) {name : Name} (hnul : (0 : UInt8) ∉ name)
    {t : Nat} {e : Entry} (ht : es[t]? = some e)
    (hname : name.take dirSiz = e.name.take dirSiz)
    (hother : ∀ j e', j < t → es[j]? = some e' → name.take dirSiz ≠ e'.name.take dirSiz)
    (d : Nat) {j n : Nat} (hj : j + d = t) (hn : d < n) :
    (dirlookupLoop dp (Name.bytes (name.take dirSiz))
      ((List.range' j n).map (direntSize * ·))).run s =
        (iget e.inum >>= fun ip => pure (some (ip, direntSize * t))).run s := by
  induction d generalizing j n with
  | zero =>
    obtain rfl : j = t := by omega
    obtain ⟨n, rfl⟩ : ∃ n', n = n' + 1 := ⟨n - 1, by omega⟩
    rw [List.range'_succ, List.map_cons, dirlookupLoop,
      Kernel.run_bind_of_ok (run_readDirent h ht _)]
    have hmatch : (Dirent.load e.bytes).inum ≠ 0 ∧
        namecmpEq (Name.bytes (name.take dirSiz)) (Dirent.load e.bytes).name = true :=
      ⟨by rw [e.load_inum]; exact e.pos.ne', (e.namecmpEq_iff hnul).mpr hname⟩
    rw [if_pos hmatch, e.load_inum]
  | succ d ih =>
    obtain ⟨n, rfl⟩ : ∃ n', n = n' + 1 := ⟨n - 1, by omega⟩
    have hlt : j < es.length := by
      have := (List.getElem?_eq_some_iff.mp ht).1
      omega
    have hje : es[j]? = some es[j] := List.getElem?_eq_getElem hlt
    rw [List.range'_succ, List.map_cons, dirlookupLoop,
      Kernel.run_bind_of_ok (run_readDirent h hje _)]
    have hmiss : ¬((Dirent.load (es[j]).bytes).inum ≠ 0 ∧
        namecmpEq (Name.bytes (name.take dirSiz)) (Dirent.load (es[j]).bytes).name = true) :=
      fun hm => hother j _ (by omega) hje (((es[j]).namecmpEq_iff hnul).mp hm.2)
    rw [if_neg hmiss]
    exact ih (by omega) (by omega)

theorem run_dirlookup (h : Directory s dp es) {name : Name} (hnul : (0 : UInt8) ∉ name)
    {t : Nat} {e : Entry} (ht : es[t]? = some e)
    (hname : name.take dirSiz = e.name.take dirSiz)
    (hother : ∀ j e', j < t → es[j]? = some e' → name.take dirSiz ≠ e'.name.take dirSiz) :
    (dirlookup dp (Name.bytes (name.take dirSiz))).run s =
      (iget e.inum >>= fun ip => pure (some (ip, direntSize * t))).run s := by
  have hlt : t < es.length := (List.getElem?_eq_some_iff.mp ht).1
  have hsize := h.size
  rw [dirlookup, Kernel.run_get_bind, if_neg (by rw [h.type]; exact fun hne => hne rfl), direntOffs]
  refine run_dirlookupLoop h hnul ht hname hother t (Nat.zero_add t) ?_
  simp only [direntSize] at hsize ⊢
  omega

end Fs

end Xv6
