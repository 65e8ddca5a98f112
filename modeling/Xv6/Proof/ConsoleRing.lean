import Mathlib.Data.List.Basic
import Xv6.Console
import Xv6.Lib.Counter

/-!
# The console ring loses nothing

All bytes ever stored and not edited away form one text. The three indices are positions in it
modulo `2 ^ 32`: what is before the read index was given to the readers, what is before the write
index is committed, and the rest is the line that is being edited. The bytes that were not yet read
are in their cells.
-/

namespace Xv6.Console

def mark (c : Key) : Delivery := if c = ctrlD then .eof else .byte c

structure Rep (s : Input) (text : List Key) (R W : Nat) : Prop where
  r : s.r = BitVec.ofNat 32 R
  w : s.w = BitVec.ofNat 32 W
  e : s.e = BitVec.ofNat 32 text.length
  read_le : R ≤ W
  write_le : W ≤ text.length
  room : text.length ≤ R + inputBuf
  full : text.length = R + inputBuf → W = text.length
  cells : ∀ k (hk : k < text.length), R ≤ k → s.buf (k % inputBuf) = text[k]

section Ring

variable {s : Input} {text : List Key} {R W : Nat}

theorem Rep.cell (h : Rep s text R W) {k : Nat} (hk : k < text.length) (hR : R ≤ k) :
    s.cell (BitVec.ofNat 32 k) = text[k] := by
  rw [Input.cell, slot_of_dvd ⟨2 ^ 25, by decide⟩]
  exact h.cells k hk hR

theorem Rep.near (h : Rep s text R W) : text.length < R + 2 ^ 32 := by
  have := h.room
  simp only [inputBuf] at this
  omega

theorem Rep.between (h : Rep s text R W) {a b : Nat} (hR : R ≤ a) (hab : a ≤ b)
    (hb : b ≤ text.length) :
    s.between (BitVec.ofNat 32 a) (BitVec.ofNat 32 b) = (text.drop a).take (b - a) := by
  have hnear := h.near
  rw [Input.between, toNat_ofNat_sub hab (by omega)]
  apply List.ext_getElem
  · rw [List.length_map, List.length_range, List.length_take, List.length_drop]
    omega
  · intro k hk _
    rw [List.length_map, List.length_range] at hk
    rw [List.getElem_map, List.getElem_range, List.getElem_take, List.getElem_drop,
      ← BitVec.ofNat_add]
    exact h.cell (by omega) (by omega)

theorem Rep.e_eq_w_iff (h : Rep s text R W) : s.e = s.w ↔ text.length = W := by
  have hnear := h.near
  have hread := h.read_le
  rw [h.e, h.w, eq_comm, ofNat_eq_iff h.write_le (by omega), eq_comm]

theorem Rep.r_eq_w_iff (h : Rep s text R W) : s.r = s.w ↔ R = W := by
  have hnear := h.near
  have hwrite := h.write_le
  rw [h.r, h.w, ofNat_eq_iff h.read_le (by omega)]

theorem Rep.count (h : Rep s text R W) : (s.e - s.r).toNat = text.length - R := by
  have hread := h.read_le
  have hwrite := h.write_le
  rw [h.e, h.r, toNat_ofNat_sub (by omega) h.near]

theorem Rep.shrink (h : Rep s text R W) {k : Nat} (hW : W ≤ k) (hk : k ≤ text.length) :
    Rep { s with e := BitVec.ofNat 32 k } (text.take k) R W := by
  have hlen : (text.take k).length = k := by rw [List.length_take]; omega
  have hroom := h.room
  constructor
  · exact h.r
  · exact h.w
  · rw [hlen]
  · exact h.read_le
  · rwa [hlen]
  · rw [hlen]
    omega
  · intro hfull
    rw [hlen] at hfull ⊢
    have := h.full (by omega)
    omega
  · intro j hj hR
    rw [List.getElem_take]
    exact h.cells j _ hR

theorem Rep.killLine (h : Rep s text R W) (n : Nat) :
    ∃ k, W ≤ k ∧ k ≤ text.length ∧ killLine n s = { s with e := BitVec.ofNat 32 k } := by
  induction n generalizing s text with
  | zero => exact ⟨text.length, h.write_le, Nat.le_refl _, by rw [Console.killLine, ← h.e]⟩
  | succ n ih =>
    rw [Console.killLine]
    split_ifs with hcond
    · have hwrite := h.write_le
      have hne : text.length ≠ W := fun heq => hcond.1 (h.e_eq_w_iff.mpr heq)
      have hback : s.e - 1 = BitVec.ofNat 32 (text.length - 1) := by
        rw [h.e]
        exact ofNat_sub_one (by omega)
      rw [hback]
      obtain ⟨k, hW, hk, hkill⟩ := ih (h.shrink (k := text.length - 1) (by omega) (by omega))
      rw [List.length_take] at hk
      exact ⟨k, hW, by omega, hkill⟩
    · exact ⟨text.length, h.write_le, Nat.le_refl _, by rw [← h.e]⟩

theorem Rep.put (h : Rep s text R W) (hroom : text.length < R + inputBuf) (c : Key) {W' : Nat}
    (hW : W' = text.length + 1 ∨ W' = W ∧ text.length + 1 ≠ R + inputBuf) :
    Rep { buf := Function.update s.buf (s.e.toNat % inputBuf) c, r := s.r,
          w := BitVec.ofNat 32 W', e := s.e + 1 } (text ++ [c]) R W' := by
  have hread := h.read_le
  have hwrite := h.write_le
  have hlen : (text ++ [c]).length = text.length + 1 := by rw [List.length_append]; rfl
  constructor
  · exact h.r
  · rfl
  · rw [hlen, BitVec.ofNat_add, ← h.e]
    rfl
  · omega
  · omega
  · omega
  · omega
  · intro k hk hR
    change Function.update s.buf (s.e.toNat % inputBuf) c (k % inputBuf) = _
    rw [h.e, slot_of_dvd ⟨2 ^ 25, by decide⟩, List.getElem_append]
    split_ifs with hold
    · -- the new byte is less than one turn ahead
      rw [Function.update_of_ne, h.cells k hold hR]
      simp only [inputBuf] at hroom ⊢
      omega
    · have hkl : k = text.length := by omega
      subst hkl
      simp

theorem Rep.advance (h : Rep s text R W) (hne : R < W) :
    Rep { s with r := s.r + 1 } text (R + 1) W := by
  have hroom := h.room
  have hwrite := h.write_le
  constructor
  · rw [BitVec.ofNat_add, ← h.r]
    rfl
  · exact h.w
  · exact h.e
  · omega
  · exact hwrite
  · omega
  · omega
  · intro k hk hR
    exact h.cells k hk (by omega)

theorem Rep.edit (h : Rep s text R W) {c : Key} (hc : c = ctrlU ∨ c = ctrlH ∨ c = delete) :
    ∃ k, W ≤ k ∧ k ≤ text.length ∧ (consoleKey c s).1 = { s with e := BitVec.ofNat 32 k } := by
  have hwrite := h.write_le
  have hstay : s = { s with e := BitVec.ofNat 32 text.length } := by rw [← h.e]
  by_cases hU : c = ctrlU
  · subst hU
    exact h.killLine _
  · have hHD : c = ctrlH ∨ c = delete := hc.resolve_left hU
    have hP : c ≠ ctrlP := by
      rcases hHD with rfl | rfl
      · decide
      · decide
    rw [consoleKey, if_neg hP, if_neg hU, if_pos hHD]
    split_ifs with hne
    · have hne' : text.length ≠ W := fun heq => hne (h.e_eq_w_iff.mpr heq)
      refine ⟨text.length - 1, by omega, by omega, ?_⟩
      rw [h.e, ofNat_sub_one (by omega)]
    · exact ⟨text.length, hwrite, Nat.le_refl _, hstay⟩

theorem Rep.key (h : Rep s text R W) (c : Key) :
    ∃ text' W', Rep (consoleKey c s).1 text' R W' ∧ W ≤ W' ∧ text'.take W = text.take W := by
  have hwrite := h.write_le
  have hstay : ∃ text' W', Rep s text' R W' ∧ W ≤ W' ∧ text'.take W = text.take W :=
    ⟨text, W, h, Nat.le_refl _, rfl⟩
  by_cases hedit : c = ctrlU ∨ c = ctrlH ∨ c = delete
  · obtain ⟨k, hW, hk, hkey⟩ := h.edit hedit
    refine ⟨text.take k, W, ?_, Nat.le_refl _, ?_⟩
    · rw [hkey]
      exact h.shrink hW hk
    · rw [List.take_take, Nat.min_eq_left hW]
  · rw [not_or] at hedit
    rw [consoleKey]
    by_cases hP : c = ctrlP
    · rw [if_pos hP]
      exact hstay
    by_cases hput : c ≠ 0 ∧ (s.e - s.r).toNat < inputBuf
    · rw [if_neg hP, if_neg hedit.1, if_neg hedit.2, if_pos hput]
      have hread := h.read_le
      have hnear := h.near
      have hroom : text.length < R + inputBuf := by
        rw [h.count] at hput
        omega
      have hend : s.e + 1 = BitVec.ofNat 32 (text.length + 1) := by
        rw [h.e, BitVec.ofNat_add]
        rfl
      have hfull : s.e + 1 = s.r + BitVec.ofNat 32 inputBuf ↔ text.length + 1 = R + inputBuf := by
        rw [hend, h.r, ← BitVec.ofNat_add]
        exact ofNat_eq_iff (by omega) (by simp only [inputBuf]; omega)
      simp only
      generalize (if c = carriageReturn then newline else c) = d
      by_cases hcommit : d = newline ∨ d = ctrlD ∨ s.e + 1 = s.r + BitVec.ofNat 32 inputBuf
      · -- the byte ends the line or fills the ring
        rw [if_pos hcommit]
        refine ⟨text ++ [d], text.length + 1, ?_, by omega, List.take_append_of_le_length hwrite⟩
        have hrep := h.put hroom d (.inl rfl)
        rwa [← hend] at hrep
      · rw [if_neg hcommit]
        refine ⟨text ++ [d], W, ?_, Nat.le_refl _, List.take_append_of_le_length hwrite⟩
        have hrep := h.put hroom d
          (.inr ⟨rfl, fun heq => hcommit (.inr (.inr (hfull.mpr heq)))⟩)
        rwa [← h.w] at hrep
    · rw [if_neg hP, if_neg hedit.1, if_neg hedit.2, if_neg hput]
      exact hstay

theorem Rep.consoleintr (h : Rep s text R W) (keys : List Key) :
    ∃ text' W', Rep (consoleintr keys s).1 text' R W' ∧ W ≤ W' ∧ text'.take W = text.take W := by
  induction keys generalizing s text W with
  | nil => exact ⟨text, W, h, Nat.le_refl _, rfl⟩
  | cons c keys ih =>
    obtain ⟨text1, W1, h1, hW1, htake1⟩ := h.key c
    obtain ⟨text2, W2, h2, hW2, htake2⟩ := ih h1
    refine ⟨text2, W2, h2, hW1.trans hW2, ?_⟩
    calc text2.take W = (text2.take W1).take W := by rw [List.take_take, Nat.min_eq_left hW1]
      _ = (text1.take W1).take W := by rw [htake2]
      _ = text1.take W := by rw [List.take_take, Nat.min_eq_left hW1]
      _ = text.take W := htake1

theorem Rep.readLoop (h : Rep s text R W) (killed : Bool) (target n : Nat) :
    ∃ R', Rep (readLoop killed target n s).1 text R' W ∧ R ≤ R' ∧
      (readLoop killed target n s).2.1 = ((text.drop R).take (R' - R)).map mark := by
  induction n generalizing s R with
  | zero => exact ⟨R, h, Nat.le_refl _, by rw [Nat.sub_self]; rfl⟩
  | succ n ih =>
    have hnone : ∃ R', Rep s text R' W ∧ R ≤ R' ∧
        [] = ((text.drop R).take (R' - R)).map mark :=
      ⟨R, h, Nat.le_refl _, by rw [Nat.sub_self]; rfl⟩
    rw [Console.readLoop]
    by_cases hempty : s.r = s.w
    · rw [if_pos hempty]
      exact hnone
    · rw [if_neg hempty]
      have hlt : R < W := by
        have hne : R ≠ W := fun heq => hempty (h.r_eq_w_iff.mpr heq)
        have hread := h.read_le
        omega
      have hwrite := h.write_le
      have hcell : s.cell s.r = text[R] := by
        rw [h.r]
        exact h.cell (by omega) (Nat.le_refl _)
      have hdrop : text.drop R = text[R] :: text.drop (R + 1) :=
        List.drop_eq_getElem_cons (by omega)
      have hone : ((text.drop R).take (R + 1 - R)).map mark = [mark text[R]] := by
        rw [Nat.add_sub_cancel_left, hdrop]
        rfl
      simp only [hcell]
      split_ifs with hD hmore hnl
      · -- the mark is left for the next call
        rw [BitVec.add_sub_cancel]
        exact hnone
      · refine ⟨R + 1, h.advance hlt, Nat.le_succ R, ?_⟩
        rw [hone, mark, if_pos hD]
      · refine ⟨R + 1, h.advance hlt, Nat.le_succ R, ?_⟩
        rw [hone, mark, if_neg hD]
      · obtain ⟨R', h', hle, hout⟩ := ih (h.advance hlt)
        refine ⟨R', h', by omega, ?_⟩
        simp only
        rw [hout, hdrop, show R' - R = R' - (R + 1) + 1 by omega, List.take_succ_cons,
          List.map_cons, mark, if_neg hD]

end Ring

/-- What a part of a call gives its reader, who has `n` of `target` bytes to go. -/
structure ReadResult (target n : Nat) (out : List Delivery) (outcome : Outcome) : Prop where
  eof : Delivery.eof ∈ out → n = target ∧ out = [.eof] ∧ outcome = .done 0
  bytes : ∀ result, outcome = .done result →
    result = -1 ∨ Delivery.eof ∈ out ∨ result = (target - n : Nat) + out.length
  zero : 0 < target → (outcome = .done 0 ↔ Delivery.eof ∈ out)
  asleep : ∀ m, outcome = .asleep m → m + out.length = n

theorem readLoop_result (killed : Bool) {target n : Nat} (hn : n ≤ target) (s : Input) :
    ReadResult target n (readLoop killed target n s).2.1 (readLoop killed target n s).2.2 := by
  induction n generalizing s with
  | zero =>
    constructor <;> simp [readLoop]
    omega
  | succ n ih =>
    have hrest := ih (by omega) { s with r := s.r + 1 }
    rw [readLoop]
    by_cases hempty : s.r = s.w
    · rw [if_pos hempty]
      cases killed <;> constructor <;> simp [eq_comm]
    rw [if_neg hempty]
    simp only
    split_ifs with hD hmore hnl
    · constructor <;> simp <;> omega
    · constructor <;> simp <;> omega
    · constructor <;> simp <;> omega
    · set out := (readLoop killed target n { s with r := s.r + 1 }).2.1
      refine ⟨fun heof => ?_, fun result hres => ?_, fun hpos => ?_, fun m hm => ?_⟩
      · have hlast := (hrest.eof (by simpa using heof)).1
        omega
      · refine (hrest.bytes result hres).imp_right (Or.imp (List.mem_cons_of_mem _) fun hlen => ?_)
        change result = (target - (n + 1) : Nat) + ((out.length + 1 : Nat) : Int)
        omega
      · simpa using hrest.zero hpos
      · have hleft := hrest.asleep m hm
        change m + (out.length + 1) = n + 1
        omega

theorem readLoop_asleep (killed : Bool) {target n m : Nat} {s : Input}
    (h : (readLoop killed target n s).2.2 = .asleep m) : m ≤ n := by
  induction n generalizing s with
  | zero => cases h
  | succ n ih =>
    rw [readLoop] at h
    by_cases hempty : s.r = s.w
    · rw [if_pos hempty] at h
      cases killed
      · cases h
        exact Nat.le_refl _
      · cases h
    · rw [if_neg hempty] at h
      simp only at h
      split_ifs at h
      exact (ih h).trans (Nat.le_succ n)

section Runs

variable {ι : Type} [DecidableEq ι]

def ReaderPc.Sound : ReaderPc → Prop
  | .idle => True
  | .asleep target n => n ≤ target
  | .runnable target n => n ≤ target

theorem ReaderPc.Sound.woken {pc : ReaderPc} (h : pc.Sound) : pc.woken.Sound := by
  cases pc <;> exact h

structure Inv (s : Sys ι) (text : List Key) : Prop where
  rep : Rep s.input text s.delivered.length s.committed.length
  committed : text.take s.committed.length = s.committed
  delivered : s.delivered.map Prod.snd = (text.take s.delivered.length).map mark
  sound : ∀ p, (s.pc p).Sound

omit [DecidableEq ι] in
theorem inv_init (buf : Nat → Key) : Inv (Sys.init buf : Sys ι) [] where
  rep :=
    { r := rfl, w := rfl, e := rfl, read_le := Nat.le_refl _, write_le := Nat.le_refl _
      room := Nat.zero_le _, full := fun _ => rfl
      cells := fun k hk _ => absurd hk (Nat.not_lt_zero k) }
  committed := rfl
  delivered := rfl
  sound _ := trivial

theorem take_append_drop_take {α : Type} (l : List α) {a b : Nat} (hab : a ≤ b) :
    l.take a ++ (l.drop a).take (b - a) = l.take b := by
  rw [← List.take_add, Nat.add_sub_cancel' hab]

omit [DecidableEq ι] in
theorem Inv.interrupt {s : Sys ι} {text : List Key} (h : Inv s text) (keys : List Key) :
    ∃ text', Inv (s.interrupt keys) text' := by
  obtain ⟨text', W, hrep, hle, htake⟩ := h.rep.consoleintr keys
  have hwrite := hrep.write_le
  have hcommitted : (s.interrupt keys).committed = text'.take W := by
    change s.committed ++ (consoleintr keys s.input).1.between s.input.w
      (consoleintr keys s.input).1.w = _
    rw [h.rep.w, hrep.w, hrep.between h.rep.read_le hle hwrite, ← take_append_drop_take text' hle,
      htake, h.committed]
  have hlen : (s.interrupt keys).committed.length = W := by
    rw [hcommitted, List.length_take]
    omega
  refine ⟨text', ?_, ?_, ?_, ?_⟩
  · rw [hlen]
    exact hrep
  · rw [hlen, hcommitted]
  · -- what was read was committed before
    have hread : text'.take s.delivered.length = text.take s.delivered.length := by
      have hle := h.rep.read_le
      calc text'.take s.delivered.length
          = (text'.take s.committed.length).take s.delivered.length := by
            rw [List.take_take, Nat.min_eq_left hle]
        _ = (text.take s.committed.length).take s.delivered.length := by rw [htake]
        _ = text.take s.delivered.length := by rw [List.take_take, Nat.min_eq_left hle]
    change s.delivered.map Prod.snd = (text'.take s.delivered.length).map mark
    rw [hread]
    exact h.delivered
  · intro p
    change ((if (consoleintr keys s.input).2 then fun p => (s.pc p).woken else s.pc) p).Sound
    split_ifs
    · exact (h.sound p).woken
    · exact h.sound p

theorem Inv.read {s : Sys ι} {text : List Key} (h : Inv s text) (p : ι) {target n : Nat}
    (hn : n ≤ target) : Inv (s.read p target n) text := by
  obtain ⟨R, hrep, hle, hout⟩ := h.rep.readLoop (s.killed p) target n
  have hread := hrep.read_le
  have hwrite := hrep.write_le
  have hdelivered : (s.read p target n).delivered.map Prod.snd = (text.take R).map mark := by
    change (s.delivered ++ (readLoop (s.killed p) target n s.input).2.1.map _).map Prod.snd = _
    rw [List.map_append, List.map_map, h.delivered, ← take_append_drop_take text hle,
      List.map_append, ← hout]
    exact congrArg _ (List.map_id _)
  have hlen : (s.read p target n).delivered.length = R := by
    have := congrArg List.length hdelivered
    rw [List.length_map, List.length_map, List.length_take] at this
    omega
  refine ⟨?_, h.committed, ?_, ?_⟩
  · rw [hlen]
    exact hrep
  · rw [hlen, hdelivered]
  · intro q
    change (Function.update s.pc p _ q).Sound
    by_cases hq : q = p
    · subst hq
      rw [Function.update_self]
      cases hout : (readLoop (s.killed q) target n s.input).2.2 with
      | asleep m => exact (readLoop_asleep _ hout).trans hn
      | done result => trivial
    · rw [Function.update_of_ne hq]
      exact h.sound q

theorem exists_inv {s s' : Sys ι} {e : Event ι} (h : ∃ text, Inv s text) (hstep : Step s e s') :
    ∃ text, Inv s' text := by
  obtain ⟨text, h⟩ := h
  cases e with
  | intr keys =>
    cases hstep
    exact h.interrupt keys
  | call p n =>
    rw [Step, Sys.exec] at hstep
    split at hstep
    · cases hstep
      exact ⟨text, h.read p (Nat.le_refl _)⟩
    · cases hstep
  | resume p =>
    rw [Step, Sys.exec] at hstep
    split at hstep
    · rename_i target n hpc
      cases hstep
      have hsound := h.sound p
      rw [hpc] at hsound
      exact ⟨text, h.read p hsound⟩
    · cases hstep
  | kill p =>
    cases hstep
    refine ⟨text, h.rep, h.committed, h.delivered, ?_⟩
    intro q
    change (Function.update s.pc p (s.pc p).woken q).Sound
    by_cases hq : q = p
    · subst hq
      rw [Function.update_self]
      exact (h.sound q).woken
    · rw [Function.update_of_ne hq]
      exact h.sound q

/-- In every state of the system the indices are in order and a full ring is committed; keys that
edit leave all before the write index as it is; and what the readers were given, followed by what is
committed in the ring, is what was ever committed. A call returns the number of its bytes, or `-1`
when it is killed; `0` is the end of a file and nothing else. -/
theorem console_ring_lossless (buf : Nat → Key) {events : List (Event ι)} {s : Sys ι}
    (hrun : Run Step (Sys.init buf) events s) :
    (s.input.w - s.input.r).toNat ≤ (s.input.e - s.input.r).toNat ∧
    (s.input.e - s.input.r).toNat ≤ inputBuf ∧
    ((s.input.e - s.input.r).toNat = inputBuf → s.input.w = s.input.e) ∧
    (∀ c, c = ctrlU ∨ c = ctrlH ∨ c = delete →
      (consoleKey c s.input).1.buf = s.input.buf ∧ (consoleKey c s.input).1.r = s.input.r ∧
      (consoleKey c s.input).1.w = s.input.w ∧
      ((consoleKey c s.input).1.e - s.input.w).toNat ≤ (s.input.e - s.input.w).toNat) ∧
    s.delivered.map Prod.snd ++ (s.input.between s.input.r s.input.w).map mark =
      s.committed.map mark ∧
    ∀ p target n, n = target ∨ s.pc p = .runnable target n →
      ReadResult target n (readLoop (s.killed p) target n s.input).2.1
        (readLoop (s.killed p) target n s.input).2.2 := by
  obtain ⟨text, h⟩ := hrun.invariant (fun s => ∃ text, Inv s text)
    (fun _ _ _ hinv hstep => exists_inv hinv hstep) ⟨[], inv_init buf⟩
  have hread := h.rep.read_le
  have hwrite := h.rep.write_le
  have hnear := h.rep.near
  have hroom := h.rep.room
  have hw : (s.input.w - s.input.r).toNat = s.committed.length - s.delivered.length := by
    rw [h.rep.w, h.rep.r, toNat_ofNat_sub hread (by omega)]
  refine ⟨?_, ?_, ?_, ?_, ?_, ?_⟩
  · rw [hw, h.rep.count]
    omega
  · rw [h.rep.count]
    omega
  · intro hfull
    rw [h.rep.count] at hfull
    rw [eq_comm, h.rep.e_eq_w_iff]
    exact (h.rep.full (by omega)).symm
  · intro c hc
    obtain ⟨k, hk, hkl, hkey⟩ := h.rep.edit hc
    rw [hkey]
    refine ⟨rfl, rfl, rfl, ?_⟩
    simp only
    rw [h.rep.e, h.rep.w, toNat_ofNat_sub hk (by omega), toNat_ofNat_sub hwrite (by omega)]
    omega
  · rw [h.delivered, h.rep.r, h.rep.w, h.rep.between (Nat.le_refl _) hread hwrite,
      ← List.map_append, take_append_drop_take text hread, h.committed]
  · intro p target n hpc
    have hn : n ≤ target := by
      rcases hpc with rfl | hpc
      · exact Nat.le_refl _
      · have hsound := h.sound p
        rwa [hpc] at hsound
    exact readLoop_result _ hn _

/-- A line and an end of file: the first call returns the line, the second one returns `0`. -/
theorem console_ring_lossless_line_eof :
    ∃ s : Sys Nat, Run Step (Sys.init fun _ => 0) [.intr [97, 98, 8, 13, 4], .call 0 10] s ∧
      s.delivered = [(0, .byte 97), (0, .byte 10)] ∧ s.committed = [97, 10, 4] ∧
      s.delivered.map Prod.snd ++ (s.input.between s.input.r s.input.w).map mark =
        s.committed.map mark ∧
      (readLoop (s.killed 1) 10 10 s.input).2 = ([.eof], .done 0) ∧
      ReadResult 10 10 [.eof] (.done 0) := by
  have hexec : (execAll Sys.exec (Sys.init fun _ => 0)
      [.intr [97, 98, 8, 13, 4], .call 0 10]).map (fun s => (s.delivered, s.committed,
        (readLoop (s.killed 1) 10 10 s.input).2)) =
      some ([((0 : Nat), .byte 97), (0, .byte 10)], [97, 10, 4], [.eof], .done 0) := by
    decide
  obtain ⟨s, hrun, hobs⟩ := exists_run_of_execAll (fun _ _ _ (h : Step _ _ _) => h) _ hexec
  simp only [Prod.mk.injEq] at hobs
  obtain ⟨hdelivered, hcommitted, hout⟩ := hobs
  obtain ⟨-, -, -, -, hlossless, hresult⟩ := console_ring_lossless _ hrun
  have hcall := hresult 1 10 10 (.inl rfl)
  rw [hout] at hcall
  exact ⟨s, hrun, hdelivered, hcommitted, hlossless, hout, hcall⟩

end Runs

end Xv6.Console
