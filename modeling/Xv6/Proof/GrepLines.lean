import Xv6.Grep

/-!
# The lines grep writes

Between two rounds the buffer holds the unfinished line. A round is right, so that it writes the
lines that match and leaves the next unfinished line, exactly when a newline was read and the bytes
that earlier rounds left behind the end of what was read do not hold a newline before the first NUL.
-/

namespace Xv6.Grep

def splitLines : List UInt8 → List (List UInt8) × List UInt8
  | [] => ([], [])
  | b :: text =>
    if b = newline then ([] :: (splitLines text).1, (splitLines text).2)
    else match (splitLines text).1 with
      | [] => ([], b :: (splitLines text).2)
      | line :: lines => ((b :: line) :: lines, (splitLines text).2)

def selected (pattern : List UInt8) (lines : List (List UInt8)) : List UInt8 :=
  (lines.filter (matchText pattern)).flatMap (· ++ [newline])

theorem selected_append (pattern : List UInt8) (ls ls' : List (List UInt8)) :
    selected pattern (ls ++ ls') = selected pattern ls ++ selected pattern ls' := by
  rw [selected, List.filter_append, List.flatMap_append]
  rfl

theorem selected_cons (pattern line : List UInt8) (lines : List (List UInt8)) :
    selected pattern (line :: lines) =
      (if matchText pattern line then line ++ [newline] else []) ++ selected pattern lines := by
  rw [selected, List.filter_cons]
  split_ifs <;> simp [selected]

theorem splitLines_of_notMem {text : List UInt8} (h : newline ∉ text) :
    splitLines text = ([], text) := by
  induction text with
  | nil => rfl
  | cons b text ih =>
    rw [List.mem_cons, not_or] at h
    rw [splitLines, if_neg (Ne.symm h.1), ih h.2]

theorem splitLines_line {line : List UInt8} (h : newline ∉ line) (text : List UInt8) :
    splitLines (line ++ newline :: text) =
      (line :: (splitLines text).1, (splitLines text).2) := by
  induction line with
  | nil => rw [List.nil_append, splitLines, if_pos rfl]
  | cons b line ih =>
    rw [List.mem_cons, not_or] at h
    rw [List.cons_append, splitLines, if_neg (Ne.symm h.1), ih h.2]

theorem lines_induction {P : List UInt8 → Prop} (hrest : ∀ text, newline ∉ text → P text)
    (hline : ∀ line text, newline ∉ line → P text → P (line ++ newline :: text))
    (text : List UInt8) : P text := by
  induction hn : text.length using Nat.strongRecOn generalizing text with
  | _ n ih =>
    by_cases hmem : newline ∈ text
    · obtain ⟨line, text1, rfl, hnot⟩ := List.eq_append_cons_of_mem hmem
      apply hline line text1 hnot
      apply ih text1.length _ text1 rfl
      rw [← hn, List.length_append, List.length_cons]
      omega
    · exact hrest text hmem

theorem splitLines_append (text text1 : List UInt8) :
    splitLines (text ++ text1) =
      ((splitLines text).1 ++ (splitLines ((splitLines text).2 ++ text1)).1,
        (splitLines ((splitLines text).2 ++ text1)).2) := by
  induction text using lines_induction with
  | hrest text hnot => rw [splitLines_of_notMem hnot, List.nil_append]
  | hline line text hnot ih =>
    rw [List.append_assoc, List.cons_append, splitLines_line hnot, splitLines_line hnot, ih]
    rfl

theorem newline_notMem_rest (text : List UInt8) : newline ∉ (splitLines text).2 := by
  induction text using lines_induction with
  | hrest text hnot => rwa [splitLines_of_notMem hnot]
  | hline line text hnot ih => rwa [splitLines_line hnot]

theorem rest_suffix (text : List UInt8) : ∃ front, text = front ++ (splitLines text).2 := by
  induction text using lines_induction with
  | hrest text hnot =>
    rw [splitLines_of_notMem hnot]
    exact ⟨[], rfl⟩
  | hline line text hnot ih =>
    obtain ⟨front, hfront⟩ := ih
    refine ⟨line ++ newline :: front, ?_⟩
    rw [splitLines_line hnot, List.append_assoc, List.cons_append, ← hfront]

def Terminated (s : List UInt8) : Prop := ∃ u w, s = u ++ 0 :: w ∧ newline ∉ u

theorem newline_ne_zero : newline ≠ 0 := by decide

theorem strchr_of_mem {line : List UInt8} (hnul : 0 ∉ line) (hnot : newline ∉ line)
    (s : List UInt8) : strchr newline (line ++ newline :: s) = some (some line.length) := by
  induction line with
  | nil => rw [List.nil_append, strchr, if_neg newline_ne_zero, if_pos rfl, List.length_nil]
  | cons b line ih =>
    rw [List.mem_cons, not_or] at hnul hnot
    rw [List.cons_append, strchr, if_neg (Ne.symm hnul.1), if_neg (Ne.symm hnot.1),
      ih hnul.2 hnot.2]
    rfl

theorem strchr_of_terminated {s : List UInt8} (h : Terminated s) :
    strchr newline s = some none := by
  obtain ⟨u, w, rfl, hnot⟩ := h
  induction u with
  | nil => rw [List.nil_append, strchr, if_pos rfl]
  | cons b u ih =>
    rw [List.mem_cons, not_or] at hnot
    rw [List.cons_append, strchr]
    split_ifs with hb hb'
    · rfl
    · exact absurd hb'.symm hnot.1
    · rw [ih hnot.2]
      rfl

theorem terminated_of_strchr {s : List UInt8} (h : strchr newline s = some none) :
    Terminated s := by
  induction s with
  | nil => cases h
  | cons b s ih =>
    rw [strchr] at h
    split_ifs at h with hb hb'
    · exact ⟨[], s, by rw [hb]; rfl, List.not_mem_nil⟩
    · cases h
    · obtain ⟨u, w, rfl, hnot⟩ := ih (by
        cases hs : strchr newline s with
        | none => rw [hs] at h; cases h
        | some o => rw [hs] at h; cases o <;> simp_all)
      refine ⟨b :: u, w, rfl, ?_⟩
      rw [List.mem_cons, not_or]
      exact ⟨Ne.symm hb', hnot⟩

theorem newline_of_strchr {s : List UInt8} {i : Nat} (h : strchr newline s = some (some i)) :
    ∃ line s1, s = line ++ newline :: s1 ∧ line.length = i := by
  induction s generalizing i with
  | nil => cases h
  | cons b s ih =>
    rw [strchr] at h
    split_ifs at h with hb hb'
    · cases h
    · cases h
      exact ⟨[], s, by rw [hb']; rfl, rfl⟩
    · cases hs : strchr newline s with
      | none => rw [hs] at h; cases h
      | some o =>
        cases o with
        | none => rw [hs] at h; cases h
        | some j =>
          rw [hs] at h
          cases h
          obtain ⟨line, s1, rfl, rfl⟩ := ih hs
          exact ⟨b :: line, s1, rfl, rfl⟩

theorem terminated_append {text stale : List UInt8} (hnul : 0 ∉ text)
    (h : Terminated (text ++ stale)) : Terminated stale := by
  obtain ⟨u, w, huw, hnot⟩ := h
  induction text generalizing u with
  | nil => exact ⟨u, w, huw, hnot⟩
  | cons b text ih =>
    rw [List.mem_cons, not_or] at hnul
    cases u with
    | nil => exact absurd (List.cons.inj huw).1 (Ne.symm hnul.1)
    | cons c u =>
      exact ih hnul.2 u (List.cons.inj huw).2 fun h => hnot (.tail _ h)

theorem length_memmove (n dst src : Nat) (mem : List UInt8) :
    (memmove dst src n mem).length = mem.length := by
  induction n generalizing dst src mem with
  | zero => rfl
  | succ n ih => rw [memmove, ih, List.length_set]

theorem getElem?_memmove {n dst src : Nat} {mem : List UInt8} (hle : dst ≤ src)
    (hsrc : src + n ≤ mem.length) (x : Nat) :
    (memmove dst src n mem)[x]? =
      if dst ≤ x ∧ x < dst + n then mem[x - dst + src]? else mem[x]? := by
  induction n generalizing dst src mem with
  | zero => rw [memmove, if_neg (by omega)]
  | succ n ih =>
    rw [memmove, ih (by omega) (by rw [List.length_set]; omega)]
    simp only [List.getElem?_set]
    have hget : mem[src]? = some (mem.getD src 0) := by
      rw [List.getD_eq_getElem?_getD, List.getElem?_eq_getElem (by omega)]
      rfl
    by_cases hx : x = dst
    · subst hx
      rw [if_neg (by omega), if_pos rfl, if_pos (by omega), if_pos (by omega), ← hget]
      congr 1
      omega
    · by_cases hin : dst ≤ x ∧ x < dst + (n + 1)
      · rw [if_pos (by omega), if_pos hin, if_neg (by omega)]
        congr 1
        omega
      · rw [if_neg (by omega), if_neg hin, if_neg (by omega)]

theorem take_drop_memmove {n dst src : Nat} {mem : List UInt8} (hle : dst ≤ src)
    (hsrc : src + n ≤ mem.length) :
    ((memmove dst src n mem).drop dst).take n = (mem.drop src).take n := by
  apply List.ext_getElem?
  intro x
  rw [List.getElem?_take, List.getElem?_take]
  split_ifs with hx
  · rw [List.getElem?_drop, List.getElem?_drop, getElem?_memmove hle hsrc, if_pos (by omega)]
    congr 1
    omega
  · rfl

section Memory

variable {mem line rest : List UInt8} {p : Nat} {b : UInt8}

theorem drop_set_line (h : mem.drop p = line ++ b :: rest) (c : UInt8) :
    (mem.set (p + line.length) c).drop p = line ++ c :: rest := by
  rw [List.drop_set, if_neg (by omega), h, Nat.add_sub_cancel_left,
    List.set_append_right _ _ (Nat.le_refl _), Nat.sub_self, List.set_cons_zero]

theorem drop_next_line (h : mem.drop p = line ++ b :: rest) :
    mem.drop (p + line.length + 1) = rest := by
  rw [Nat.add_assoc, ← List.drop_drop, h, List.drop_length_add_append, List.drop_one,
    List.tail_cons]

end Memory

theorem lineLoop_run (pattern out : List UInt8) (fuel : Nat) {mem text stale : List UInt8} {p : Nat}
    (hmem : mem.drop p = text ++ stale) (hnul : 0 ∉ text) (hstale : Terminated stale)
    (hfuel : text.length < fuel) :
    ∃ mem' p', lineLoop pattern fuel mem p out =
        some (mem', p', out ++ selected pattern (splitLines text).1) ∧
      p' + (splitLines text).2.length = p + text.length ∧ mem'.length = mem.length ∧
      mem'.drop p' = (splitLines text).2 ++ stale := by
  induction fuel generalizing mem text out p with
  | zero => exact absurd hfuel (Nat.not_lt_zero _)
  | succ fuel ih =>
    by_cases hin : newline ∈ text
    · obtain ⟨line, text1, rfl, hnot⟩ := List.eq_append_cons_of_mem hin
      rw [List.mem_append, List.mem_cons, not_or, not_or] at hnul
      rw [List.length_append, List.length_cons] at hfuel
      have hmem1 : mem.drop p = line ++ newline :: (text1 ++ stale) := by
        rw [hmem, List.append_assoc, List.cons_append]
      have hcut := drop_set_line hmem1 0
      have hstring : cstring (line ++ 0 :: (text1 ++ stale)) = line := by
        rw [cstring, List.takeWhile_append_of_pos, List.takeWhile_cons_of_neg, List.append_nil]
        · decide
        · intro b hb
          exact decide_eq_true fun h => hnul.1 (h ▸ hb)
      rw [lineLoop, hmem1, strchr_of_mem hnul.1 hnot]
      simp only [hcut, hstring, splitLines_line hnot, selected_cons]
      split_ifs with hmatch
      · -- the newline is back in its place, and the memory is as it was
        have hback := drop_set_line hcut newline
        obtain ⟨mem', p', hrun, hp, hlen, hrest⟩ := ih _ (drop_next_line hback) hnul.2.2
          (by omega)
        refine ⟨mem', p', ?_, by simp only [List.length_append, List.length_cons]; omega,
          by simpa using hlen, hrest⟩
        rw [hback, ← List.append_assoc, ← hrun, List.take_length_add_append]
        rfl
      · obtain ⟨mem', p', hrun, hp, hlen, hrest⟩ := ih _ (drop_next_line hcut) hnul.2.2
          (by omega)
        refine ⟨mem', p', by rw [List.nil_append]; exact hrun,
          by simp only [List.length_append, List.length_cons]; omega,
          by simpa using hlen, hrest⟩
    · refine ⟨mem, p, ?_, ?_, rfl, ?_⟩
      · obtain ⟨u, w, rfl, hu⟩ := hstale
        have hstop : Terminated (text ++ (u ++ 0 :: w)) :=
          ⟨text ++ u, w, (List.append_assoc _ _ _).symm, by
            rw [List.mem_append, not_or]; exact ⟨hin, hu⟩⟩
        rw [lineLoop, hmem, strchr_of_terminated hstop, splitLines_of_notMem hin]
        simp [selected]
      · rw [splitLines_of_notMem hin]
      · rw [splitLines_of_notMem hin, hmem]

theorem le_of_lineLoop (pattern : List UInt8) {fuel : Nat} {mem mem' out out' : List UInt8}
    {p p' : Nat} (h : lineLoop pattern fuel mem p out = some (mem', p', out')) : p ≤ p' := by
  induction fuel generalizing mem out p with
  | zero => cases h
  | succ fuel ih =>
    rw [lineLoop] at h
    cases hs : strchr newline (mem.drop p) with
    | none => rw [hs] at h; cases h
    | some o =>
      cases o with
      | none => rw [hs] at h; cases h; exact Nat.le_refl _
      | some i =>
        rw [hs] at h
        simp only at h
        split_ifs at h
        · have := ih h
          omega
        · have := ih h
          omega

theorem lt_of_lineLoop (pattern : List UInt8) {fuel : Nat}
    {mem mem' text stale out out' : List UInt8}
    {p p' : Nat} (hmem : mem.drop p = text ++ stale) (hnul : 0 ∉ text) (hin : newline ∈ text)
    (h : lineLoop pattern fuel mem p out = some (mem', p', out')) : p < p' := by
  obtain ⟨line, text1, rfl, hnot⟩ := List.eq_append_cons_of_mem hin
  rw [List.mem_append, not_or] at hnul
  cases fuel with
  | zero => cases h
  | succ fuel =>
    rw [lineLoop, hmem, List.append_assoc, List.cons_append, strchr_of_mem hnul.1 hnot] at h
    simp only at h
    split_ifs at h
    · have := le_of_lineLoop pattern h
      omega
    · have := le_of_lineLoop pattern h
      omega

theorem terminated_of_lineLoop (pattern : List UInt8) {fuel : Nat}
    {mem mem' text stale out out' : List UInt8} {p p' : Nat} (hmem : mem.drop p = text ++ stale)
    (hnul : 0 ∉ text) (h : lineLoop pattern fuel mem p out = some (mem', p', out'))
    (hp : p' ≤ p + text.length) : Terminated stale := by
  induction fuel generalizing mem text out p with
  | zero => cases h
  | succ fuel ih =>
    rw [lineLoop] at h
    cases hs : strchr newline (mem.drop p) with
    | none => rw [hs] at h; cases h
    | some o =>
      cases o with
      | none =>
        apply terminated_append hnul
        rw [← hmem]
        exact terminated_of_strchr hs
      | some i =>
        rw [hs] at h
        simp only at h
        obtain ⟨line, s1, hline, rfl⟩ := newline_of_strchr hs
        have hnext : p + line.length + 1 ≤ p' := by
          split_ifs at h
          · exact le_of_lineLoop pattern h
          · exact le_of_lineLoop pattern h
        -- the newline was in the text
        obtain ⟨text1, rfl, hs1⟩ : ∃ text1, text = line ++ newline :: text1 ∧
            s1 = text1 ++ stale := by
          rcases List.append_eq_append_iff.mp (hmem.symm.trans hline) with
            ⟨u, hu, _⟩ | ⟨u, hu, hstale⟩
          · rw [hu, List.length_append] at hnext
            omega
          · cases u with
            | nil =>
              rw [hu, List.append_nil] at hp
              omega
            | cons b u =>
              obtain ⟨rfl, hs1⟩ := List.cons.inj hstale
              exact ⟨u, hu, hs1⟩
        rw [List.mem_append, List.mem_cons, not_or, not_or] at hnul
        rw [List.length_append, List.length_cons] at hp
        rw [hs1] at hline
        have hcut := drop_set_line hline 0
        split_ifs at h
        · exact ih (drop_next_line (drop_set_line hcut newline)) hnul.2.2 h (by omega)
        · exact ih (drop_next_line hcut) hnul.2.2 h (by omega)

structure Holds (buf : Nat) (s : State) (carry : List UInt8) : Prop where
  room : buf + bufSize ≤ s.mem.length
  count : s.m = carry.length
  le : carry.length ≤ bufSize
  bytes : (s.mem.drop buf).take carry.length = carry
  nul : 0 ∉ carry
  unfinished : newline ∉ carry

def State.behind (buf : Nat) (s : State) (piece : List UInt8) : List UInt8 :=
  s.mem.drop ((buf + s.m).toNat + piece.length)

section Round

variable {buf : Nat} {s : State} {carry piece : List UInt8}

theorem length_store {mem : List UInt8} {a : Nat} (h : a + piece.length ≤ mem.length) :
    (store mem a piece).length = mem.length := by
  rw [store, List.length_append, List.length_append, List.length_take, List.length_drop]
  omega

theorem Holds.toNat_end (h : Holds buf s carry) : (buf + s.m).toNat = buf + carry.length := by
  rw [h.count]
  omega

theorem Holds.drop_store (h : Holds buf s carry) :
    (store s.mem (buf + s.m).toNat piece).drop buf =
      (carry ++ piece) ++ s.behind buf piece := by
  have hroom := h.room
  have hle := h.le
  have hlen : (s.mem.take (buf + carry.length)).length = buf + carry.length := by
    rw [List.length_take]
    omega
  rw [State.behind, h.toNat_end, store, List.append_assoc,
    List.drop_append_of_le_length (by omega), List.drop_take, Nat.add_sub_cancel_left, h.bytes,
    List.append_assoc]

theorem nul_notMem_rest {text : List UInt8} (h : 0 ∉ text) : 0 ∉ (splitLines text).2 := by
  obtain ⟨front, hfront⟩ := rest_suffix text
  intro hmem
  apply h
  rw [hfront]
  exact List.mem_append_right _ hmem

theorem Holds.nul_append (h : Holds buf s carry) (hnul : 0 ∉ piece) : 0 ∉ carry ++ piece := by
  rw [List.mem_append, not_or]
  exact ⟨h.nul, hnul⟩

theorem round_of_no_line {pattern mem' out : List UInt8}
    (h : lineLoop pattern ((store s.mem (buf + s.m).toNat piece).length + 1)
      (store s.mem (buf + s.m).toNat piece) buf s.out = some (mem', buf, out)) :
    round pattern buf s piece = some { mem := mem', m := 0, out := out } := by
  simp [round, h]

theorem round_of_line {pattern mem' out : List UInt8} {p : Nat}
    (h : lineLoop pattern ((store s.mem (buf + s.m).toNat piece).length + 1)
      (store s.mem (buf + s.m).toNat piece) buf s.out = some (mem', p, out))
    (hp : p ≠ buf) (hm : 0 < s.m + piece.length) :
    round pattern buf s piece =
      some { mem := memmove buf p (s.m + piece.length - (p - buf)).toNat mem'
             m := s.m + piece.length - (p - buf), out := out } := by
  simp [round, h, hp, hm]

theorem length_rest_lt {text : List UInt8} (h : newline ∈ text) :
    (splitLines text).2.length < text.length := by
  obtain ⟨line, text1, rfl, hnot⟩ := List.eq_append_cons_of_mem h
  obtain ⟨front, hfront⟩ := rest_suffix text1
  have hlen := congrArg List.length hfront
  rw [List.length_append] at hlen
  rw [splitLines_line hnot, List.length_append, List.length_cons]
  simp only
  omega

theorem round_run (pattern : List UInt8) (h : Holds buf s carry) (hnul : 0 ∉ piece)
    (hfits : s.m + piece.length ≤ bufSize) (hterm : Terminated (s.behind buf piece)) :
    ∃ s', round pattern buf s piece = some s' ∧
      s'.out = s.out ++ selected pattern (splitLines (carry ++ piece)).1 ∧
      (newline ∈ piece → Holds buf s' (splitLines (carry ++ piece)).2) := by
  have hroom := h.room
  have hcount := h.count
  have hlen : (store s.mem (buf + s.m).toNat piece).length = s.mem.length :=
    length_store (by rw [h.toNat_end]; omega)
  have htext : (carry ++ piece).length = carry.length + piece.length := List.length_append
  have hnulText := h.nul_append hnul
  obtain ⟨mem', p, hloop, hp, hlen', hdrop⟩ := lineLoop_run pattern s.out
    ((store s.mem (buf + s.m).toNat piece).length + 1) h.drop_store hnulText hterm
    (by rw [hlen]; omega)
  by_cases hpb : p = buf
  · subst hpb
    refine ⟨_, round_of_no_line hloop, rfl, fun hin => ?_⟩
    have := length_rest_lt (List.mem_append_right carry hin)
    omega
  · have hm : 0 < s.m + piece.length := by
      have := le_of_lineLoop pattern hloop
      omega
    refine ⟨_, round_of_line hloop hpb hm, rfl, fun hin => ?_⟩
    have hkeep : s.m + piece.length - (p - buf) =
        ((splitLines (carry ++ piece)).2.length : Int) := by
      omega
    have hrest := length_rest_lt (List.mem_append_right carry hin)
    rw [hkeep, Int.toNat_natCast]
    constructor
    · change buf + bufSize ≤ (memmove _ _ _ _).length
      rw [length_memmove, hlen', hlen]
      exact hroom
    · rfl
    · omega
    · change ((memmove _ _ _ _).drop buf).take _ = _
      rw [take_drop_memmove, hdrop, List.take_left]
      · omega
      · rw [hlen', hlen]
        omega
    · exact nul_notMem_rest hnulText
    · exact newline_notMem_rest _

/-- The round is right exactly when a newline was read and no byte left by an earlier round passes
for the rest of the line. -/
theorem round_right_iff (pattern : List UInt8) (h : Holds buf s carry) (hnul : 0 ∉ piece)
    (hne : piece ≠ []) (hfits : s.m + piece.length ≤ bufSize) :
    (∃ s', round pattern buf s piece = some s' ∧
        s'.out = s.out ++ selected pattern (splitLines (carry ++ piece)).1 ∧
        Holds buf s' (splitLines (carry ++ piece)).2) ↔
      newline ∈ piece ∧ Terminated (s.behind buf piece) := by
  constructor
  · rintro ⟨s', hround, -, hholds⟩
    have hpos : 0 < piece.length := List.length_pos_iff.mpr hne
    have hcount := h.count
    cases hloop : lineLoop pattern ((store s.mem (buf + s.m).toNat piece).length + 1)
        (store s.mem (buf + s.m).toNat piece) buf s.out with
    | none => simp [round, hloop] at hround
    | some x =>
      obtain ⟨mem', p, out⟩ := x
      have hcount' := hholds.count
      by_cases hpb : p = buf
      · -- no newline was found, and the bytes are dropped
        subst hpb
        cases (round_of_no_line hloop).symm.trans hround
        have hnone : newline ∉ carry ++ piece := fun hin =>
          Nat.lt_irrefl p (lt_of_lineLoop pattern h.drop_store (h.nul_append hnul) hin hloop)
        rw [splitLines_of_notMem hnone, List.length_append] at hcount'
        simp only at hcount'
        omega
      · cases (round_of_line hloop hpb (by omega)).symm.trans hround
        have hle := le_of_lineLoop pattern hloop
        have hp : p ≤ buf + (carry ++ piece).length := by
          rw [List.length_append]
          simp only at hcount'
          omega
        have hterm := terminated_of_lineLoop pattern h.drop_store (h.nul_append hnul) hloop hp
        refine ⟨by_contra fun hin => hpb ?_, hterm⟩
        have hnone : newline ∉ carry ++ piece := by
          rw [List.mem_append, not_or]
          exact ⟨h.unfinished, hin⟩
        rw [splitLines_of_notMem hnone, List.length_append] at hcount'
        simp only at hcount'
        omega
  · rintro ⟨hin, hterm⟩
    obtain ⟨s', hround, hout, hholds⟩ := round_run pattern h hnul hfits hterm
    exact ⟨s', hround, hout, hholds hin⟩

end Round

/-- Every round of the run meets `P`, which sees the state before the round, what is read in it, and
what is read later. -/
def Along (pattern : List UInt8) (buf : Nat)
    (P : State → List UInt8 → List (List UInt8) → Prop) : List (List UInt8) → State → Prop
  | [], _ => True
  | piece :: pieces, s =>
    P s piece pieces ∧ ∀ s1, round pattern buf s piece = some s1 → Along pattern buf P pieces s1

def Fits (s : State) (piece : List UInt8) (_ : List (List UInt8)) : Prop :=
  piece ≠ [] ∧ s.m + piece.length ≤ bufSize

def Clear (buf : Nat) (s : State) (piece : List UInt8) (later : List (List UInt8)) : Prop :=
  Terminated (s.behind buf piece) ∧ (later ≠ [] → newline ∈ piece)

instance (s : List UInt8) : Decidable (Terminated s) :=
  decidable_of_iff (strchr newline s = some none) ⟨terminated_of_strchr, strchr_of_terminated⟩

instance (s : State) (piece : List UInt8) (later : List (List UInt8)) :
    Decidable (Fits s piece later) :=
  inferInstanceAs (Decidable (_ ∧ _))

instance (buf : Nat) (s : State) (piece : List UInt8) (later : List (List UInt8)) :
    Decidable (Clear buf s piece later) :=
  inferInstanceAs (Decidable (_ ∧ _))

instance decidableAlong (pattern : List UInt8) (buf : Nat)
    (P : State → List UInt8 → List (List UInt8) → Prop)
    [∀ s piece later, Decidable (P s piece later)] :
    ∀ pieces s, Decidable (Along pattern buf P pieces s)
  | [], _ => isTrue trivial
  | piece :: pieces, s =>
    match hround : round pattern buf s piece with
    | none => decidable_of_iff (P s piece pieces) (by simp [Along, hround])
    | some s1 =>
      have := decidableAlong pattern buf P pieces s1
      decidable_of_iff (P s piece pieces ∧ Along pattern buf P pieces s1)
        (by simp [Along, hround])

theorem grep_run (pattern : List UInt8) {buf : Nat} {pieces : List (List UInt8)} {s : State}
    {carry : List UInt8} (h : Holds buf s carry) (hnul : 0 ∉ pieces.flatten)
    (hfits : Along pattern buf Fits pieces s) (hclear : Along pattern buf (Clear buf) pieces s) :
    ∃ s', grep pattern buf pieces s = some s' ∧
      s'.out = s.out ++ selected pattern (splitLines (carry ++ pieces.flatten)).1 := by
  induction pieces generalizing s carry with
  | nil =>
    refine ⟨s, rfl, ?_⟩
    rw [List.flatten_nil, List.append_nil, splitLines_of_notMem h.unfinished]
    simp [selected]
  | cons piece pieces ih =>
    obtain ⟨⟨hne, hle⟩, hfits⟩ := hfits
    obtain ⟨⟨hterm, hlast⟩, hclear⟩ := hclear
    rw [List.flatten_cons, List.mem_append, not_or] at hnul
    obtain ⟨s1, hround, hout, hholds⟩ := round_run pattern h hnul.1 hle hterm
    have hcount := h.count
    have hgrep : grep pattern buf (piece :: pieces) s = grep pattern buf pieces s1 := by
      rw [grep, if_neg (by rw [not_or]; exact ⟨hne, by omega⟩), hround]
      rfl
    rw [hgrep]
    by_cases hmore : pieces = []
    · subst hmore
      refine ⟨s1, rfl, ?_⟩
      rw [hout, List.flatten_cons, List.flatten_nil, List.append_nil]
    · obtain ⟨s', hrun, hout'⟩ :=
        ih (hholds (hlast hmore)) hnul.2 (hfits s1 hround) (hclear s1 hround)
      refine ⟨s', hrun, ?_⟩
      rw [hout', hout, List.flatten_cons, ← List.append_assoc carry,
        splitLines_append (carry ++ piece), selected_append, List.append_assoc]

theorem holds_start {buf : Nat} {mem : List UInt8} (hroom : buf + bufSize ≤ mem.length) :
    Holds buf (start mem) [] where
  room := hroom
  count := rfl
  le := Nat.zero_le _
  bytes := rfl
  nul := List.not_mem_nil
  unfinished := List.not_mem_nil

/-- A round is right exactly when it reads a newline and the bytes behind what it read, which
earlier rounds left, hold no newline before a NUL. A run of such rounds writes exactly the lines
that match; its last round need not read a newline. -/
theorem grep_output (pattern : List UInt8) (buf : Nat) :
    (∀ s carry piece, Holds buf s carry → 0 ∉ piece → piece ≠ [] →
      s.m + piece.length ≤ bufSize →
      ((∃ s', round pattern buf s piece = some s' ∧
          s'.out = s.out ++ selected pattern (splitLines (carry ++ piece)).1 ∧
          Holds buf s' (splitLines (carry ++ piece)).2) ↔
        newline ∈ piece ∧ Terminated (s.behind buf piece))) ∧
    ∀ mem pieces, buf + bufSize ≤ mem.length → 0 ∉ pieces.flatten →
      Along pattern buf Fits pieces (start mem) →
      Along pattern buf (Clear buf) pieces (start mem) →
      ∃ s', grep pattern buf pieces (start mem) = some s' ∧
        s'.out = selected pattern (splitLines pieces.flatten).1 := by
  refine ⟨fun s carry piece h hnul hne hfits => round_right_iff pattern h hnul hne hfits, ?_⟩
  intro mem pieces hroom hnul hfits hclear
  exact grep_run pattern (holds_start hroom) hnul hfits hclear

/-- The second piece completes the line the first one left. -/
theorem grep_output_two_pieces :
    ∃ s', grep [97] 0 [[97, 10, 98], [99, 10]] (start (List.replicate 1030 0)) = some s' ∧
      s'.out = selected [97] (splitLines [97, 10, 98, 99, 10]).1 :=
  (grep_output [97] 0).2 (List.replicate 1030 0) [[97, 10, 98], [99, 10]] (by decide +kernel)
    (by decide) (by decide +kernel) (by decide +kernel)

/-- The second piece ends before a newline that the first line left in the buffer, and the third one
goes below the buffer, so that a line the input does not have is written twice. And a piece without
a newline is dropped. -/
theorem grep_output_depends_on_pieces :
    (Along [] 16 Fits [[97, 97, 97, 97, 10, 98], [99], [10]] (start (List.replicate 1048 0)) ∧
      (grep [] 16 [[97, 97, 97, 97, 10, 98], [99], [10]] (start (List.replicate 1048 0))).map
        State.out = some
        [97, 97, 97, 97, 10, 98, 99, 97, 97, 10, 98, 99, 97, 97, 10] ∧
      selected [] (splitLines [97, 97, 97, 97, 10, 98, 99, 10]).1 =
        [97, 97, 97, 97, 10, 98, 99, 10]) ∧
    (Along [97] 16 Fits [[97], [10]] (start (List.replicate 1048 0)) ∧
      (grep [97] 16 [[97], [10]] (start (List.replicate 1048 0))).map State.out = some [] ∧
      selected [97] (splitLines [97, 10]).1 = [97, 10]) := by
  decide +kernel

end Xv6.Grep
