import Mathlib.Tactic
import Xv6.Lib.Cycle
import Xv6.Umalloc

/-!
# Blocks of the user heap

A block is an address and a size in headers. Counting how many blocks of a list cover a byte turns
joining and splitting into addition: the count does not change.
-/

namespace Xv6.Umalloc

abbrev HeapBlock := Nat × Nat

def Covers (b : HeapBlock) (x : Nat) : Prop := b.1 ≤ x ∧ x < b.1 + sizeofHeader * b.2

instance decidableCovers (b : HeapBlock) (x : Nat) : Decidable (Covers b x) := by
  unfold Covers
  infer_instance

def covered (x : Nat) (b : HeapBlock) : Nat := if Covers b x then 1 else 0

def cover (bs : List HeapBlock) (x : Nat) : Nat := (bs.map (covered x)).sum

@[simp]
theorem cover_nil (x : Nat) : cover [] x = 0 := rfl

@[simp]
theorem cover_cons (b : HeapBlock) (bs : List HeapBlock) (x : Nat) :
    cover (b :: bs) x = covered x b + cover bs x := rfl

@[simp]
theorem cover_append (bs cs : List HeapBlock) (x : Nat) :
    cover (bs ++ cs) x = cover bs x + cover cs x := by
  rw [cover, List.map_append, List.sum_append]
  rfl

theorem covered_join (a n m x : Nat) :
    covered x (a, n + m) = covered x (a, n) + covered x (a + sizeofHeader * n, m) := by
  have hor : Covers (a, n + m) x ↔ Covers (a, n) x ∨ Covers (a + sizeofHeader * n, m) x := by
    unfold Covers sizeofHeader
    omega
  have hnot : ¬(Covers (a, n) x ∧ Covers (a + sizeofHeader * n, m) x) := by
    unfold Covers sizeofHeader
    omega
  unfold covered
  by_cases h1 : Covers (a, n) x
  · have h2 : ¬Covers (a + sizeofHeader * n, m) x := fun h2 => hnot ⟨h1, h2⟩
    simp [hor, h1, h2]
  · simp [hor, h1]

theorem covered_zero (a x : Nat) : covered x (a, 0) = 0 := by
  refine if_neg fun hcovers => ?_
  unfold Covers at hcovers
  omega

theorem covered_le_cover {b : HeapBlock} {bs : List HeapBlock} (h : b ∈ bs) (x : Nat) :
    covered x b ≤ cover bs x := by
  induction bs with
  | nil => cases h
  | cons c bs ih =>
    rw [cover_cons]
    rcases List.mem_cons.mp h with rfl | h
    · omega
    · exact (ih h).trans (Nat.le_add_left ..)

theorem exists_of_cover_pos {bs : List HeapBlock} {x : Nat} (h : 0 < cover bs x) :
    ∃ b ∈ bs, Covers b x := by
  induction bs with
  | nil => exact absurd h (Nat.lt_irrefl 0)
  | cons b bs ih =>
    by_cases hb : Covers b x
    · exact ⟨b, List.mem_cons_self, hb⟩
    · rw [cover_cons, covered, if_neg hb, Nat.zero_add] at h
      obtain ⟨c, hc, hcx⟩ := ih h
      exact ⟨c, List.mem_cons_of_mem b hc, hcx⟩

theorem cover_pos_iff {bs : List HeapBlock} {x : Nat} :
    0 < cover bs x ↔ ∃ b ∈ bs, Covers b x := by
  refine ⟨exists_of_cover_pos, ?_⟩
  rintro ⟨b, hb, hbx⟩
  have := covered_le_cover hb x
  rw [covered, if_pos hbx] at this
  omega

def Apart (b c : HeapBlock) : Prop :=
  b.1 + sizeofHeader * b.2 ≤ c.1 ∨ c.1 + sizeofHeader * c.2 ≤ b.1

theorem apart_of_covered {b c : HeapBlock} (hb : 0 < b.2) (hc : 0 < c.2)
    (h : ∀ x, covered x b + covered x c ≤ 1) : Apart b c := by
  by_contra hapart
  obtain ⟨h1, h2⟩ := not_or.mp hapart
  have hmax := h (max b.1 c.1)
  rw [covered, if_pos, covered, if_pos] at hmax
  · omega
  · unfold Covers sizeofHeader at *
    omega
  · unfold Covers sizeofHeader at *
    omega

theorem pairwise_apart {bs : List HeapBlock} (hpos : ∀ b ∈ bs, 0 < b.2)
    (h : ∀ x, cover bs x ≤ 1) : bs.Pairwise Apart := by
  induction bs with
  | nil => exact .nil
  | cons b bs ih =>
    refine .cons (fun c hc => ?_)
      (ih (fun c hc => hpos c (List.mem_cons_of_mem b hc)) fun x => ?_)
    · refine apart_of_covered (hpos b List.mem_cons_self) (hpos c (List.mem_cons_of_mem b hc))
        fun x => ?_
      have := h x
      rw [cover_cons] at this
      have := covered_le_cover hc x
      omega
    · have := h x
      rw [cover_cons] at this
      omega

theorem cover_erase {b : HeapBlock} {bs : List HeapBlock} (h : b ∈ bs) (x : Nat) :
    covered x b + cover (bs.erase b) x = cover bs x :=
  (((List.perm_cons_erase h).map (covered x)).sum_eq).symm

def Below (b c : HeapBlock) : Prop := b.1 + sizeofHeader * b.2 < c.1

def ringOf (h : Heap) (free : List HeapBlock) : List HeapBlock := (h.base, 0) :: free

structure FreeList (h : Heap) (free : List HeapBlock) : Prop where
  basePos : 0 < h.base
  ring : Leads h.ptr ((ringOf h free).map Prod.fst) h.base
  freep : h.freep ∈ (ringOf h free).map Prod.fst
  sizes : ∀ b ∈ ringOf h free, h.size b.1 = b.2
  positive : ∀ b ∈ free, 0 < b.2
  sorted : (ringOf h free).Pairwise Below

variable {h : Heap} {free : List HeapBlock} {bp n : Nat}

theorem exists_split {l : List HeapBlock} {b : HeapBlock} (hsorted : (b :: l).Pairwise Below)
    (hb : b.1 < bp) (hne : ∀ c ∈ l, c.1 ≠ bp) :
    ∃ xs p ys, b :: l = xs ++ p :: ys ∧ p.1 < bp ∧ (∀ x ∈ xs, x.1 < p.1) ∧
      ∀ y ∈ ys, bp < y.1 := by
  induction l generalizing b with
  | nil => exact ⟨[], b, [], rfl, hb, by simp, by simp⟩
  | cons c l ih =>
    obtain ⟨hbc, hsorted'⟩ := List.pairwise_cons.mp hsorted
    by_cases hc : c.1 < bp
    · obtain ⟨xs, p, ys, heq, hp, hxs, hys⟩ :=
        ih hsorted' hc fun d hd => hne d (List.mem_cons_of_mem c hd)
      refine ⟨b :: xs, p, ys, by rw [heq]; rfl, hp, fun x hx => ?_, hys⟩
      rcases List.mem_cons.mp hx with rfl | hx
      · have hmem : p ∈ c :: l := by
          rw [heq]
          exact List.mem_append_right _ List.mem_cons_self
        have := hbc p hmem
        unfold Below at this
        omega
      · exact hxs x hx
    · refine ⟨[], b, c :: l, rfl, hb, by simp, fun y hy => ?_⟩
      have hcbp := hne c List.mem_cons_self
      rcases List.mem_cons.mp hy with rfl | hy
      · omega
      · have := (List.pairwise_cons.mp hsorted').1 y hy
        unfold Below at this
        omega

section Walk

variable {xs ys : List Nat} {p : Nat}

theorem freeLoop_below {fuel : Nat} (hring : Leads h.ptr (xs ++ p :: ys) h.base)
    (hsorted : (xs ++ [p]).Pairwise (· < ·)) (hp : p < bp) (hys : ∀ y ∈ ys, bp < y)
    (hbase : h.base ≤ p) (hfuel : xs.length < fuel) :
    h.freeLoop bp fuel ((xs ++ [p]).headD 0) = some p := by
  induction xs generalizing fuel with
  | nil =>
    obtain ⟨fuel, rfl⟩ := Nat.exists_eq_add_one_of_ne_zero (Nat.ne_zero_of_lt hfuel)
    have hnext : h.ptr p = ys.headD h.base := hring.1
    rw [List.nil_append, List.headD_cons, Heap.freeLoop]
    cases ys with
    | nil =>
      rw [List.headD_nil] at hnext
      rw [hnext, if_neg (by omega), if_pos (by omega)]
    | cons y ys =>
      rw [List.headD_cons] at hnext
      have := hys y List.mem_cons_self
      rw [hnext, if_pos (by omega)]
  | cons x xs ih =>
    obtain ⟨fuel, rfl⟩ := Nat.exists_eq_add_one_of_ne_zero (Nat.ne_zero_of_lt hfuel)
    rw [List.cons_append] at hring hsorted
    obtain ⟨hnext, hring'⟩ := hring
    obtain ⟨hx, hsorted'⟩ := List.pairwise_cons.mp hsorted
    have hhead : (xs ++ p :: ys).headD h.base = (xs ++ [p]).headD 0 := by cases xs <;> rfl
    have hle : (xs ++ [p]).headD 0 ≤ p ∧ x < (xs ++ [p]).headD 0 := by
      cases xs with
      | nil => exact ⟨le_refl p, hx p (by simp)⟩
      | cons y xs =>
        exact ⟨((List.pairwise_cons.mp hsorted').1 p (by simp)).le, hx y (by simp)⟩
    rw [List.cons_append, List.headD_cons, Heap.freeLoop]
    rw [hhead] at hnext
    rw [hnext, if_neg (by omega), if_neg (by omega)]
    exact ih hring' hsorted' (Nat.lt_of_succ_lt_succ hfuel)

theorem freeLoop_above {fuel y : Nat} (hring : Leads h.ptr (y :: ys) h.base)
    (hsorted : (y :: ys).Pairwise (· < ·)) (hy : bp < y) (hbase : h.base < bp) :
    h.freeLoop bp (fuel + (y :: ys).length) y = h.freeLoop bp fuel h.base := by
  induction ys generalizing y with
  | nil =>
    have hnext : h.ptr y = h.base := hring.1
    rw [List.length_singleton, Heap.freeLoop, hnext, if_neg (by omega), if_neg (by omega)]
  | cons z ys ih =>
    obtain ⟨hnext, hring'⟩ := hring
    obtain ⟨hyz, hsorted'⟩ := List.pairwise_cons.mp hsorted
    have hz := hyz z List.mem_cons_self
    have hnext : h.ptr y = z := hnext
    rw [List.length_cons, ← Nat.add_assoc, Heap.freeLoop, hnext, if_neg (by omega),
      if_neg (by omega)]
    exact ih hring' hsorted' (by omega)

end Walk

theorem Below.lt {b c : HeapBlock} (h : Below b c) : b.1 < c.1 :=
  lt_of_le_of_lt (Nat.le_add_right ..) h

theorem FreeList.freeLoop_eq (hfree : FreeList h free) {xs ys : List HeapBlock} {p : HeapBlock}
    (hsplit : ringOf h free = xs ++ p :: ys) (hp : p.1 < bp) (hys : ∀ y ∈ ys, bp < y.1)
    {fuel : Nat} (hfuel : free.length + 2 ≤ fuel) :
    h.freeLoop bp fuel h.freep = some p.1 := by
  have hring := hfree.ring
  have hsorted : ((ringOf h free).map Prod.fst).Pairwise (· < ·) :=
    hfree.sorted.map _ fun _ _ hbc => hbc.lt
  have hlen : xs.length + ys.length = free.length := by
    have := congrArg List.length hsplit
    rw [ringOf, List.length_append, List.length_cons, List.length_cons] at this
    omega
  have hhead : h.base = ((xs.map Prod.fst) ++ [p.1]).headD 0 := by
    have := congrArg (fun l => (l.map Prod.fst).headD 0) hsplit
    rw [ringOf, List.map_append, List.map_cons, List.map_cons] at this
    cases xs <;> exact this
  have hbase : h.base ≤ p.1 := by
    rw [hsplit, List.map_append, List.map_cons] at hsorted
    cases xs with
    | nil => exact hhead.le
    | cons x xs =>
      have hx := (List.pairwise_cons.mp hsorted).1 p.1 (by simp)
      have hhead : h.base = x.1 := hhead
      omega
  have hmem := hfree.freep
  rw [hsplit, List.map_append, List.map_cons] at hring hsorted hmem
  have hys' : ∀ y ∈ ys.map Prod.fst, bp < y := by
    intro y hy
    obtain ⟨c, hc, rfl⟩ := List.mem_map.mp hy
    exact hys c hc
  -- from `base` the walk reaches the block without a wrap
  have hfrom : ∀ (us vs : List Nat) (k : Nat), xs.map Prod.fst = us ++ vs → vs.length < k →
      h.freeLoop bp k ((vs ++ [p.1]).headD 0) = some p.1 := by
    intro us vs k hvs hk
    rw [hvs, List.append_assoc] at hring hsorted
    refine freeLoop_below (leads_append.mp hring).2 ?_ hp hys' hbase hk
    refine (List.pairwise_append.mp hsorted).2.1.sublist ?_
    exact (List.Sublist.refl vs).append (List.singleton_sublist.mpr List.mem_cons_self)
  rcases List.mem_append.mp hmem with hxs | hps
  · obtain ⟨us, vs, hvs⟩ := List.append_of_mem hxs
    have hlenvs := congrArg List.length hvs
    rw [List.length_map, List.length_append] at hlenvs
    exact hfrom us _ fuel hvs (by omega)
  · rcases List.mem_cons.mp hps with heq | hy
    · rw [heq]
      exact hfrom (xs.map Prod.fst) [] fuel (by simp) (by rw [List.length_nil]; omega)
    · -- over the wrap to `base`
      obtain ⟨us, vs, hvs⟩ := List.append_of_mem hy
      have hlenvs := congrArg List.length hvs
      rw [List.length_map, List.length_append, List.length_cons] at hlenvs
      rw [hvs] at hring hsorted
      have hring' : Leads h.ptr (h.freep :: vs) h.base :=
        (leads_append.mp (leads_append.mp hring).2.2).2
      have hsorted' : (h.freep :: vs).Pairwise (· < ·) :=
        (List.pairwise_append.mp
          (List.pairwise_cons.mp (List.pairwise_append.mp hsorted).2.1).2).2.1
      obtain ⟨k, rfl⟩ : ∃ k, fuel = k + (h.freep :: vs).length :=
        ⟨fuel - (h.freep :: vs).length, by rw [List.length_cons]; omega⟩
      rw [List.length_cons] at hfuel
      rw [freeLoop_above hring' hsorted' (hys' _ hy) (by omega), hhead]
      exact hfrom [] _ k rfl (by rw [List.length_map]; omega)

theorem joinUpper_spec {p : Nat} {ys : List HeapBlock} (hbp : h.size bp = n)
    (hbase : h.base < bp) (hnext : h.ptr p = (ys.map Prod.fst).headD h.base)
    (hring : Leads h.ptr (ys.map Prod.fst) h.base) (hsizes : ∀ y ∈ ys, h.size y.1 = y.2)
    (hsorted : ys.Pairwise Below) (hys : ∀ y ∈ ys, bp < y.1)
    (hapart : ∀ y ∈ ys, bp + sizeofHeader * n ≤ y.1) :
    ∃ m zs, n ≤ m ∧ zs <:+ ys ∧ (h.joinUpper p bp).size bp = m ∧
      (h.joinUpper p bp).ptr bp = (zs.map Prod.fst).headD h.base ∧
      (∀ a ≠ bp, (h.joinUpper p bp).size a = h.size a ∧
        (h.joinUpper p bp).ptr a = h.ptr a) ∧
      (∀ z ∈ zs, Below (bp, m) z) ∧
      ∀ x, cover ys x + covered x (bp, n) = cover zs x + covered x (bp, m) := by
  by_cases hjoin : h.limit bp = h.ptr p
  · cases ys with
    | nil =>
      rw [hnext, Heap.limit, List.map_nil, List.headD_nil] at hjoin
      omega
    | cons y zs =>
      obtain ⟨hy, hsorted'⟩ := List.pairwise_cons.mp hsorted
      have hq : h.ptr p = y.1 := hnext
      have hlim : bp + sizeofHeader * n = y.1 := by rw [← hbp, ← hq, ← hjoin, Heap.limit]
      have hne : y.1 ≠ bp := (hys y List.mem_cons_self).ne'
      have hheap : h.joinUpper p bp =
          (h.setSize bp (n + y.2)).setPtr bp ((zs.map Prod.fst).headD h.base) := by
        rw [Heap.joinUpper, if_pos hjoin, hbp, hq, hsizes y List.mem_cons_self]
        have hyp : h.ptr y.1 = (zs.map Prod.fst).headD h.base := hring.1
        rw [← hyp, ← hq]
        rfl
      refine ⟨n + y.2, zs, Nat.le_add_right .., List.suffix_cons y zs, ?_, ?_, fun a ha => ?_,
        fun z hz => ?_, fun x => ?_⟩
      · rw [hheap]
        exact Function.update_self ..
      · rw [hheap]
        exact Function.update_self ..
      · rw [hheap]
        exact ⟨Function.update_of_ne ha .., Function.update_of_ne ha ..⟩
      · have := hy z hz
        unfold Below at this ⊢
        rw [Nat.mul_add]
        omega
      · rw [cover_cons, covered_join, hlim, Prod.mk.eta]
        omega
  · have hheap : h.joinUpper p bp = h.setPtr bp ((ys.map Prod.fst).headD h.base) := by
      rw [Heap.joinUpper, if_neg hjoin, hnext]
    refine ⟨n, ys, le_refl n, List.suffix_rfl, ?_, ?_, fun a ha => ?_, fun z hz => ?_,
      fun x => rfl⟩
    · rw [hheap]
      exact hbp
    · rw [hheap]
      exact Function.update_self ..
    · rw [hheap]
      exact ⟨rfl, Function.update_of_ne ha ..⟩
    · -- the first block behind does not touch `bp`, the others lie behind that one
      cases ys with
      | nil => cases hz
      | cons y ys =>
        have hfirst : bp + sizeofHeader * n < y.1 := by
          have hle := hapart y List.mem_cons_self
          have hnot : bp + sizeofHeader * n ≠ y.1 := fun heq => by
            apply hjoin
            rw [hnext, Heap.limit, hbp]
            exact heq
          omega
        rcases List.mem_cons.mp hz with rfl | hz
        · exact hfirst
        · exact hfirst.trans ((List.pairwise_cons.mp hsorted).1 z hz).lt

def joined (p : HeapBlock) (bp m : Nat) : List HeapBlock :=
  if p.1 + sizeofHeader * p.2 = bp then [(p.1, p.2 + m)] else [p, (bp, m)]

theorem joined_head (p : HeapBlock) (bp m z : Nat) (zs : List Nat) :
    ((joined p bp m).map Prod.fst ++ zs).headD z = p.1 := by
  unfold joined
  split <;> rfl

theorem cover_joined (p : HeapBlock) (bp m x : Nat) :
    cover (joined p bp m) x = covered x p + covered x (bp, m) := by
  unfold joined
  split
  · rename_i heq
    rw [cover_cons, covered_join, heq]
    rfl
  · rfl

theorem joinLower_spec {p : HeapBlock} {m z : Nat} (hp : h.size p.1 = p.2) (hne : p.1 ≠ bp)
    (hbp : h.size bp = m) (hnext : h.ptr bp = z) :
    Leads (h.joinLower p.1 bp).ptr ((joined p bp m).map Prod.fst) z ∧
      (∀ b ∈ joined p bp m, (h.joinLower p.1 bp).size b.1 = b.2) ∧
      ∀ a ≠ p.1, (h.joinLower p.1 bp).size a = h.size a ∧
        (h.joinLower p.1 bp).ptr a = h.ptr a := by
  unfold joined
  by_cases hjoin : p.1 + sizeofHeader * p.2 = bp
  · have hheap : h.joinLower p.1 bp = (h.setSize p.1 (p.2 + m)).setPtr p.1 z := by
      rw [Heap.joinLower, Heap.limit, hp, if_pos hjoin, hbp, ← hnext]
      rfl
    rw [if_pos hjoin, hheap]
    refine ⟨⟨Function.update_self .., trivial⟩, fun b hb => ?_, fun a ha =>
      ⟨Function.update_of_ne ha .., Function.update_of_ne ha ..⟩⟩
    obtain rfl := List.mem_singleton.mp hb
    exact Function.update_self ..
  · have hheap : h.joinLower p.1 bp = h.setPtr p.1 bp := by
      rw [Heap.joinLower, Heap.limit, hp, if_neg hjoin]
    rw [if_neg hjoin, hheap]
    refine ⟨⟨Function.update_self .., ?_, trivial⟩, fun b hb => ?_, fun a ha =>
      ⟨rfl, Function.update_of_ne ha ..⟩⟩
    · exact (Function.update_of_ne (Ne.symm hne) ..).trans hnext
    · rcases List.mem_cons.mp hb with rfl | hb
      · exact hp
      · obtain rfl := List.mem_singleton.mp hb
        exact hbp

theorem joinUpper_static (h : Heap) (p bp : Nat) :
    (h.joinUpper p bp).base = h.base ∧ (h.joinUpper p bp).regions = h.regions := by
  unfold Heap.joinUpper
  split <;> exact ⟨rfl, rfl⟩

theorem joinLower_static (h : Heap) (p bp : Nat) :
    (h.joinLower p bp).base = h.base ∧ (h.joinLower p bp).regions = h.regions := by
  unfold Heap.joinLower
  split <;> exact ⟨rfl, rfl⟩

theorem pairwise_joined {xs ys zs : List HeapBlock} {p : HeapBlock} {m : Nat}
    (hsorted : (xs ++ p :: ys).Pairwise Below) (hp : p.1 + sizeofHeader * p.2 ≤ bp)
    (hzs : zs <:+ ys) (hbelow : ∀ z ∈ zs, Below (bp, m) z) :
    (xs ++ (joined p bp m ++ zs)).Pairwise Below := by
  obtain ⟨hsortxs, hsortpys, hxsall⟩ := List.pairwise_append.mp hsorted
  obtain ⟨hpall, hsortys⟩ := List.pairwise_cons.mp hsortpys
  have hpz : ∀ z ∈ zs, Below p z := fun z hz => hpall z (hzs.subset hz)
  have hsortzs := hsortys.sublist hzs.sublist
  refine List.pairwise_append.mpr ⟨hsortxs, ?_, fun x hx b hb => ?_⟩
  · unfold joined
    split
    · rename_i heq
      refine .cons (fun z hz => ?_) hsortzs
      have := hbelow z hz
      unfold Below at this ⊢
      rw [Nat.mul_add]
      dsimp only at this ⊢
      omega
    · rename_i hne
      refine .cons (fun b hb => ?_) (.cons hbelow hsortzs)
      rcases List.mem_cons.mp hb with rfl | hb
      · exact lt_of_le_of_ne hp hne
      · exact hpz b hb
  · have hxp := hxsall x hx p List.mem_cons_self
    rcases List.mem_append.mp hb with hb | hb
    · unfold joined at hb
      split at hb
      · obtain rfl := List.mem_singleton.mp hb
        exact hxp
      · rcases List.mem_cons.mp hb with rfl | hb
        · exact hxp
        · obtain rfl := List.mem_singleton.mp hb
          exact lt_of_lt_of_le hxp (le_trans (Nat.le_add_right ..) hp)
    · exact hxp.trans (hpz b hb).lt

/-- The block at `bp` has gone between `p` and `zs`, and is joined to the blocks it touches. -/
structure Inserted (h h' : Heap) (free xs ys zs : List HeapBlock) (p : HeapBlock) (bp m : Nat) :
    Prop where
  split : (h.base, 0) :: free = xs ++ p :: ys
  before : ∀ x ∈ xs, x.1 < p.1
  lt : p.1 < bp
  behind : ∀ y ∈ ys, bp < y.1
  suffix : zs <:+ ys
  base : h'.base = h.base
  leads : Leads h'.ptr ((joined p bp m).map Prod.fst) ((zs.map Prod.fst).headD h.base)
  sizes : ∀ b ∈ joined p bp m, h'.size b.1 = b.2
  same : ∀ a ≠ p.1, a ≠ bp → h'.size a = h.size a ∧ h'.ptr a = h.ptr a
  sorted : (xs ++ (joined p bp m ++ zs)).Pairwise Below

namespace Inserted

variable {h' : Heap} {xs ys zs free' : List HeapBlock} {p : HeapBlock} {m : Nat}

theorem mem_ringOf (hI : Inserted h h' free xs ys zs p bp m) {b : HeapBlock} :
    b ∈ ringOf h free ↔ b ∈ xs ∨ b = p ∨ b ∈ ys := by
  rw [ringOf, hI.split, List.mem_append, List.mem_cons]

theorem ne_of_mem (hI : Inserted h h' free xs ys zs p bp m) {b : HeapBlock}
    (hb : b ∈ xs ∨ b ∈ zs) : b.1 ≠ p.1 ∧ b.1 ≠ bp := by
  rcases hb with hb | hb
  · exact ⟨(hI.before b hb).ne, ((hI.before b hb).trans hI.lt).ne⟩
  · have hbehind := hI.behind b (hI.suffix.subset hb)
    exact ⟨(hI.lt.trans hbehind).ne', hbehind.ne'⟩

theorem sizes_all (hI : Inserted h h' free xs ys zs p bp m) (hfree : FreeList h free) :
    ∀ b ∈ xs ++ (joined p bp m ++ zs), h'.size b.1 = b.2 := by
  have hkept : ∀ b, b ∈ xs ∨ b ∈ zs → h'.size b.1 = b.2 := by
    intro b hb
    obtain ⟨hbp, hbbp⟩ := hI.ne_of_mem hb
    rw [(hI.same _ hbp hbbp).1]
    exact hfree.sizes b (hI.mem_ringOf.mpr (hb.imp_right fun hz => .inr (hI.suffix.subset hz)))
  intro b hb
  rcases List.mem_append.mp hb with hb | hb
  · exact hkept b (.inl hb)
  · rcases List.mem_append.mp hb with hb | hb
    · exact hI.sizes b hb
    · exact hkept b (.inr hb)

theorem ring (hI : Inserted h h' free xs ys zs p bp m) (hfree : FreeList h free) :
    Leads h'.ptr ((xs ++ (joined p bp m ++ zs)).map Prod.fst) h.base := by
  have hring := hfree.ring
  rw [ringOf, hI.split, List.map_append, List.map_cons] at hring
  obtain ⟨hringxs, -, hringys⟩ := leads_append.mp hring
  have hkept : ∀ l : List HeapBlock, (∀ b ∈ l, b ∈ xs ∨ b ∈ zs) →
      ∀ a ∈ l.map Prod.fst, h'.ptr a = h.ptr a := by
    intro l hl a ha
    obtain ⟨b, hb, rfl⟩ := List.mem_map.mp ha
    obtain ⟨hbp, hbbp⟩ := hI.ne_of_mem (hl b hb)
    exact (hI.same _ hbp hbbp).2
  rw [List.map_append, List.map_append]
  refine leads_append.mpr ⟨?_, leads_append.mpr ⟨hI.leads, ?_⟩⟩
  · rw [joined_head]
    exact hringxs.congr (hkept xs fun _ => .inl)
  · obtain ⟨ws, hws⟩ := hI.suffix
    rw [← hws, List.map_append] at hringys
    exact (leads_append.mp hringys).2.congr (hkept zs fun _ => .inr)

theorem positive (hI : Inserted h h' free xs ys zs p bp m) (hfree : FreeList h free) (hm : 0 < m)
    {b : HeapBlock} (hbase : h.base < b.1) (hb : b ∈ xs ++ (joined p bp m ++ zs)) : 0 < b.2 := by
  have hold : b ∈ ringOf h free → 0 < b.2 := by
    intro hmem
    refine hfree.positive b ((List.mem_cons.mp hmem).resolve_left ?_)
    rintro rfl
    exact absurd hbase (Nat.lt_irrefl _)
  rcases List.mem_append.mp hb with hb | hb
  · exact hold (hI.mem_ringOf.mpr (.inl hb))
  · rcases List.mem_append.mp hb with hb | hb
    · unfold joined at hb
      split at hb
      · obtain rfl := List.mem_singleton.mp hb
        exact Nat.add_pos_right _ hm
      · rcases List.mem_cons.mp hb with rfl | hb
        · exact hold (hI.mem_ringOf.mpr (.inr (.inl rfl)))
        · obtain rfl := List.mem_singleton.mp hb
          exact hm
    · exact hold (hI.mem_ringOf.mpr (.inr (.inr (hI.suffix.subset hb))))

/-- The ring still starts with `base`, which is never joined to the block behind it. -/
theorem exists_free (hI : Inserted h h' free xs ys zs p bp m) (hbase : h.base < bp) :
    ∃ free', (h.base, 0) :: free' = xs ++ (joined p bp m ++ zs) := by
  have hsplit := hI.split
  cases xs with
  | nil =>
    obtain rfl : (h.base, 0) = p := (List.cons.inj hsplit).1
    have hno : ¬h.base + sizeofHeader * 0 = bp := by omega
    exact ⟨(bp, m) :: zs, by rw [joined, if_neg hno]; rfl⟩
  | cons x xs =>
    obtain rfl : (h.base, 0) = x := (List.cons.inj hsplit).1
    exact ⟨xs ++ (joined p bp m ++ zs), rfl⟩

theorem freeList (hI : Inserted h h' free xs ys zs p bp m) (hfree : FreeList h free) (hm : 0 < m)
    (hfree' : (h.base, 0) :: free' = xs ++ (joined p bp m ++ zs)) :
    FreeList { h' with freep := p.1 } free' := by
  have hringOf : ringOf { h' with freep := p.1 } free' = xs ++ (joined p bp m ++ zs) := by
    rw [← hfree', ringOf]
    dsimp only
    rw [hI.base]
  refine ⟨?_, ?_, ?_, ?_, fun b hb => ?_, ?_⟩
  · dsimp only
    rw [hI.base]
    exact hfree.basePos
  · rw [hringOf]
    dsimp only
    rw [hI.base]
    exact hI.ring hfree
  · rw [hringOf, List.map_append, List.map_append]
    refine List.mem_append_right _ (List.mem_append_left _ ?_)
    unfold joined
    split <;> exact List.mem_cons_self
  · rw [hringOf]
    exact hI.sizes_all hfree
  · have hsorted := hI.sorted
    rw [← hfree'] at hsorted
    exact hI.positive hfree hm ((List.pairwise_cons.mp hsorted).1 b hb).lt
      (hfree' ▸ List.mem_cons_of_mem _ hb)
  · rw [hringOf]
    exact hI.sorted

theorem exists_large (hfree' : (h.base, 0) :: free' = xs ++ (joined p bp m ++ zs)) (hn : 0 < n)
    (hnm : n ≤ m) : ∃ b ∈ free', n ≤ b.2 := by
  obtain ⟨b, hb, hbn⟩ : ∃ b ∈ joined p bp m, n ≤ b.2 := by
    unfold joined
    split
    · exact ⟨_, List.mem_cons_self, hnm.trans (Nat.le_add_left ..)⟩
    · exact ⟨(bp, m), by simp, hnm⟩
  have hmem : b ∈ (h.base, 0) :: free' := by
    rw [hfree']
    exact List.mem_append_right _ (List.mem_append_left _ hb)
  refine ⟨b, (List.mem_cons.mp hmem).resolve_left ?_, hbn⟩
  rintro rfl
  exact absurd (lt_of_lt_of_le hn hbn) (Nat.lt_irrefl 0)

end Inserted

/-- What `free` does to the ring, between the blocks that it finds around the new one. -/
theorem FreeList.exists_inserted (hfree : FreeList h free) (hbase : h.base < bp)
    (hbp : h.size bp = n) (hapart : ∀ b ∈ free, Apart b (bp, n)) {xs ys : List HeapBlock}
    {p : HeapBlock} (hsplit : (h.base, 0) :: free = xs ++ p :: ys) (hp : p.1 < bp)
    (hxs : ∀ x ∈ xs, x.1 < p.1) (hys : ∀ y ∈ ys, bp < y.1) :
    ∃ m zs, n ≤ m ∧
      Inserted h ((h.joinUpper p.1 bp).joinLower p.1 bp) free xs ys zs p bp m ∧
      ∀ x, cover ys x + covered x (bp, n) = cover zs x + covered x (bp, m) := by
  have hmem : ∀ b, b = p ∨ b ∈ ys → b ∈ ringOf h free := fun b hb => by
    rw [ringOf, hsplit]
    exact List.mem_append_right _ (List.mem_cons.mpr hb)
  have hring := hfree.ring
  have hsorted := hfree.sorted
  rw [ringOf, hsplit] at hsorted
  rw [ringOf, hsplit, List.map_append, List.map_cons] at hring
  obtain ⟨-, hnextp, hringys⟩ := leads_append.mp hring
  have hsortys := (List.pairwise_cons.mp (List.pairwise_append.mp hsorted).2.1).2
  have hysapart : ∀ y ∈ ys, bp + sizeofHeader * n ≤ y.1 := by
    intro y hy
    have hlt := hys y hy
    rcases List.mem_cons.mp (hmem y (.inr hy)) with rfl | hyfree
    · exact absurd (hlt.trans hbase) (Nat.lt_irrefl _)
    · rcases hapart y hyfree with hap | hap
      · dsimp only at hap
        omega
      · exact hap
  have hpend : p.1 + sizeofHeader * p.2 ≤ bp := by
    rcases List.mem_cons.mp (hmem p (.inl rfl)) with rfl | hpfree
    · exact hp.le
    · rcases hapart p hpfree with hap | hap
      · exact hap
      · dsimp only at hap
        omega
  obtain ⟨m, zs, hnm, hzs, hsize1, hptr1, hother1, hbelow, hcover⟩ :=
    joinUpper_spec hbp hbase hnextp hringys (fun y hy => hfree.sizes y (hmem y (.inr hy))) hsortys
      hys hysapart
  obtain ⟨hleads, hsizes, hother2⟩ := joinLower_spec
    (((hother1 p.1 hp.ne).1).trans (hfree.sizes p (hmem p (.inl rfl)))) hp.ne hsize1 hptr1
  have hbase' := (joinLower_static (h.joinUpper p.1 bp) p.1 bp).1.trans
    (joinUpper_static h p.1 bp).1
  refine ⟨m, zs, hnm, ⟨hsplit, hxs, hp, hys, hzs, hbase', hleads, hsizes, fun a hap habp => ?_,
    pairwise_joined hsorted hpend hzs hbelow⟩, hcover⟩
  exact ⟨((hother2 a hap).1).trans (hother1 a habp).1,
    ((hother2 a hap).2).trans (hother1 a habp).2⟩

theorem FreeList.insert (hfree : FreeList h free) (hbase : h.base < bp) (hbp : h.size bp = n)
    (hn : 0 < n) (hapart : ∀ b ∈ free, Apart b (bp, n)) :
    ∃ h' free', (∀ fuel, free.length + 2 ≤ fuel → h.free fuel (bp + sizeofHeader) = some h') ∧
      FreeList h' free' ∧ h'.base = h.base ∧ h'.regions = h.regions ∧
      (∀ x, cover free' x = cover free x + covered x (bp, n)) ∧ (∃ b ∈ free', n ≤ b.2) ∧
      ∀ a ≠ bp, (∀ b ∈ free, a ≠ b.1) → a ≠ h.base → h'.size a = h.size a := by
  have hne : ∀ b ∈ free, b.1 ≠ bp := by
    intro b hb heq
    have hpos := hfree.positive b hb
    rcases hapart b hb with hap | hap
    · unfold sizeofHeader at hap
      omega
    · unfold sizeofHeader at hap
      dsimp only at hap
      omega
  obtain ⟨xs, p, ys, hsplit, hp, hxs, hys⟩ := exists_split hfree.sorted hbase hne
  obtain ⟨m, zs, hnm, hI, hcover⟩ :=
    hfree.exists_inserted hbase hbp hapart hsplit hp hxs hys
  obtain ⟨free', hfree'⟩ := hI.exists_free hbase
  have hregions := (joinLower_static (h.joinUpper p.1 bp) p.1 bp).2.trans
    (joinUpper_static h p.1 bp).2
  refine ⟨{ (h.joinUpper p.1 bp).joinLower p.1 bp with freep := p.1 }, free',
    fun fuel hfuel => ?_, hI.freeList hfree (lt_of_lt_of_le hn hnm) hfree', hI.base, hregions,
    fun x => ?_, Inserted.exists_large hfree' hn hnm, fun a habp hafree habase => ?_⟩
  · rw [Heap.free, Nat.add_sub_cancel, hfree.freeLoop_eq hsplit hp hys hfuel]
    rfl
  · have h1 : cover ((h.base, 0) :: free') x = cover (xs ++ (joined p bp m ++ zs)) x := by
      rw [hfree']
    have h2 : cover ((h.base, 0) :: free) x = cover (xs ++ p :: ys) x := by rw [hsplit]
    have h3 := hcover x
    simp only [cover_cons, cover_append, covered_zero, cover_joined] at h1 h2
    omega
  · have hap : a ≠ p.1 := by
      rcases List.mem_cons.mp (hI.mem_ringOf.mpr (.inr (.inl rfl))) with rfl | hpfree
      · exact habase
      · exact hafree p hpfree
    exact (hI.same a hap habp).1

end Xv6.Umalloc
