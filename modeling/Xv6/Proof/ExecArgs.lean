import Xv6.Proof.NewImage

/-!
# The arguments on the stack of a new program

`exec` pushes the argument strings onto the last page of the new image, then the array of pointers
to them. Arguments that do not fit in that page run into the guard page, where `copyout` fails.
-/

namespace Xv6

section Stack

variable {s t u : Machine} {cur : Fin nproc} {d sz va : Nat}

def stringSize (arg : List (BitVec 8)) : Nat := (arg.length + 4) / 4 * 4

theorem stringSize_bounds (arg : List (BitVec 8)) : arg.length + 1 ≤ stringSize arg ∧
    stringSize arg ≤ arg.length + 4 ∧ stringSize arg % 4 = 0 := by
  rw [stringSize]
  omega

structure Pushed (s t : Machine) (d sz sp : Nat) (strs : List (Nat × List (BitVec 8))) : Prop where
  same : SameBut s t d fun a => a = sz / pgSize - 1
  low : sz - pgSize ≤ sp
  high : sp ≤ sz
  aligned : sp % 4 = 0
  string : ∀ x ∈ strs, sp ≤ x.1 ∧ x.1 + x.2.length + 1 ≤ sz ∧
    ∀ j b, (x.2 ++ [0])[j]? = some b → t.byteIn d (x.1 + j) = b
  apart : strs.Pairwise fun x y => y.1 + y.2.length + 1 ≤ x.1

variable {sp : Nat} {strs : List (Nat × List (BitVec 8))}

theorem NewImage.last_lt (h : NewImage s d sz) (a : Nat) (ha : a = sz / pgSize - 1) :
    a < sz / pgSize := by
  have hroom := h.room
  simp only [pgSize] at *
  omega

theorem Pushed.newImage (hp : Pushed s t d sz sp strs) (h : NewImage s d sz) : NewImage t d sz :=
  h.sameBut hp.same h.last_lt

theorem Pushed.frameAt (hp : Pushed s t d sz sp strs) (h : NewImage s d sz) {a : Nat}
    (ha : a < sz / pgSize) : t.frameAt d a = s.frameAt d a :=
  (hp.same.sameTables h.sound (h.userPages h.last_lt)).frameAt (by have := h.pages_le; omega)
    (h.mapped a ha).1

theorem Pushed.init (h : NewImage s d sz) : Pushed s s d sz sz [] := by
  have haligned := h.aligned
  refine ⟨SameBut.refl s d _, Nat.sub_le .., le_rfl, ?_, nofun, .nil⟩
  simp only [pgSize] at *
  omega

theorem NewImage.byteIn_last (h : NewImage s d sz) (hlow : sz - pgSize ≤ va) (hhigh : va < sz) :
    s.byteIn d va = s.pageByte (s.frameAt d (sz / pgSize - 1)) (va - (sz - pgSize)) := by
  obtain ⟨hpage, hoff⟩ := last_page h.aligned h.room hlow hhigh
  rw [Machine.byteIn, hpage, hoff]

theorem Pushed.copy (hp : Pushed s t d sz sp strs) (h : NewImage s d sz) {va : Nat}
    {buf : List (BitVec 8)} (hlow : sz - pgSize ≤ va) (hva : va % 4 = 0)
    (hfit : va + buf.length ≤ sp) :
    Pushed s (t.putBytes (t.frameAt d (sz / pgSize - 1)) (va % pgSize) buf) d sz va strs := by
  have ht := hp.newImage h
  have haligned := h.aligned
  have hroom := h.room
  have hhigh := hp.high
  generalize hu : t.putBytes (t.frameAt d (sz / pgSize - 1)) (va % pgSize) buf = u
  have hstep : SameBut t u d fun a => a = sz / pgSize - 1 := by
    rw [← hu]
    exact sameBut_putBytes t d (S := fun a => a = sz / pgSize - 1) rfl _ _
  have hu' : NewImage u d sz := ht.sameBut hstep ht.last_lt
  refine ⟨hp.same.trans hstep h.sound (h.userPages h.last_lt), hlow, by omega, hva, ?_, hp.apart⟩
  intro x hx
  obtain ⟨hsp, hend, hbytes⟩ := hp.string x hx
  refine ⟨by omega, hend, fun j b hj => ?_⟩
  have hjlt : j < x.2.length + 1 := by
    have hlt := (List.getElem?_eq_some_iff.mp hj).1
    rw [List.length_append, List.length_singleton] at hlt
    exact hlt
  have hspl := hp.low
  have hframe : u.frameAt d (sz / pgSize - 1) = t.frameAt d (sz / pgSize - 1) :=
    (hstep.sameTables ht.sound (ht.userPages ht.last_lt)).frameAt
      (by have := h.pages_le; omega) (ht.mapped _ (ht.last_lt _ rfl)).1
  rw [← hbytes j b hj, hu'.byteIn_last (by omega) (by omega), ht.byteIn_last (by omega) (by omega),
    hframe, ← hu]
  apply pageByte_putBytes_of_notMem
  right
  simp only [pgSize] at *
  omega

theorem Pushed.push (hp : Pushed s t d sz sp strs) (h : NewImage s d sz) {arg : List (BitVec 8)}
    (hfit : sz - pgSize + stringSize arg ≤ sp) :
    Pushed s (t.putBytes (t.frameAt d (sz / pgSize - 1)) ((sp - stringSize arg) % pgSize)
      (arg ++ [0])) d sz (sp - stringSize arg) (strs ++ [(sp - stringSize arg, arg)]) := by
  have haligned := hp.aligned
  have hhigh := hp.high
  have hroom := h.room
  have haligned' := h.aligned
  have hlen : (arg ++ [(0 : BitVec 8)]).length = arg.length + 1 := by
    rw [List.length_append, List.length_singleton]
  have hsize := stringSize_bounds arg
  have hcopy := hp.copy h (show sz - pgSize ≤ sp - stringSize arg by omega) (by omega)
    (show sp - stringSize arg + (arg ++ [(0 : BitVec 8)]).length ≤ sp by omega)
  have hnew := hcopy.newImage h
  refine ⟨hcopy.same, hcopy.low, hcopy.high, hcopy.aligned, fun x hx => ?_, ?_⟩
  · rcases List.mem_append.mp hx with hold | hlast
    · exact hcopy.string x hold
    · rw [List.mem_singleton] at hlast
      subst hlast
      refine ⟨le_rfl, by dsimp only; omega, fun j b hj => ?_⟩
      have hjlt : j < arg.length + 1 := by
        rw [← hlen]
        exact (List.getElem?_eq_some_iff.mp hj).1
      rw [hnew.byteIn_last (by dsimp only; omega) (by dsimp only; omega),
        hcopy.frameAt h (h.last_lt _ rfl),
        hp.frameAt h (h.last_lt _ rfl)]
      dsimp only
      rw [show sp - stringSize arg + j - (sz - pgSize) = (sp - stringSize arg) % pgSize + j by
        simp only [pgSize] at *
        omega]
      exact pageByte_putBytes hj
  · apply List.pairwise_append.mpr
    refine ⟨hcopy.apart, List.pairwise_singleton _ _, fun x hx y hy => ?_⟩
    rw [List.mem_singleton] at hy
    subst hy
    have hle := (hp.string x hx).1
    dsimp only
    omega

/-- From `esp` the image shows `args`: the return address, `argc`, `argv`, the pointers and the null
are there, each pointer addresses its string, and all is in the last page. -/
structure ArgsAt (s : Machine) (d sz esp : Nat) (args : List (List (BitVec 8))) : Prop where
  stack : s.MapsAt d (sz / pgSize - 1) ∧ (s.entryAt d (sz / pgSize - 1)).user = true
  low : sz - pgSize ≤ esp
  high : esp + 12 + 4 * (args.length + 1) ≤ sz
  ret : s.wordIn d esp = 0xffffffff
  argc : s.wordIn d (esp + 4) = BitVec.ofNat 32 args.length
  argv : s.wordIn d (esp + 8) = BitVec.ofNat 32 (esp + 12)
  null : s.wordIn d (esp + 12 + 4 * args.length) = 0
  strings : ∃ strs : List (Nat × List (BitVec 8)), strs.map Prod.snd = args ∧
    (∀ i x, strs[i]? = some x → s.wordIn d (esp + 12 + 4 * i) = BitVec.ofNat 32 x.1) ∧
    (∀ x ∈ strs, esp + 12 + 4 * (args.length + 1) ≤ x.1 ∧ x.1 + x.2.length + 1 ≤ sz ∧
      ∀ j b, (x.2 ++ [0])[j]? = some b → s.byteIn d (x.1 + j) = b) ∧
    strs.Pairwise fun x y => y.1 + y.2.length + 1 ≤ x.1

variable {args : List (List (BitVec 8))}

end Stack

end Xv6
