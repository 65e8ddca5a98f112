import Mathlib.Computability.Language
import Xv6.Grep

/-!
# The language of a pattern

A pattern is read as items between two optional anchors. The matcher accepts a text when a part of
it is in the language of the items and the anchors hold at its ends.
-/

namespace Xv6.Grep

open Computability

inductive Item
  /-- A character before a star. -/
  | many (c : UInt8)
  /-- A dot. -/
  | any
  | lit (c : UInt8)
  deriving DecidableEq

structure Reading where
  items : List Item
  /-- A lone dollar ends the pattern. -/
  final : Bool
  deriving DecidableEq

def Reading.cons (x : Item) (r : Reading) : Reading := { r with items := x :: r.items }

def readItems : List UInt8 → Reading
  | [] => ⟨[], false⟩
  | [c] => if c = dollar then ⟨[], true⟩ else ⟨[if c = dot then .any else .lit c], false⟩
  | c :: d :: re =>
    if d = star then (readItems re).cons (.many c)
    else (readItems (d :: re)).cons (if c = dot then .any else .lit c)

structure Pattern where
  /-- A caret starts the pattern. -/
  anchored : Bool
  body : Reading

def readPattern (re : List UInt8) : Pattern :=
  if re.head? = some caret then ⟨true, readItems re.tail⟩ else ⟨false, readItems re⟩

def anyLetter : Language UInt8 := {w | ∃ b, w = [b]}

def Item.lang : Item → Language UInt8
  | .many c => (if c = dot then anyLetter else {[c]})∗
  | .any => anyLetter
  | .lit c => {[c]}

def lang (items : List Item) : Language UInt8 := (items.map Item.lang).prod

def Reading.Here (r : Reading) (text : List UInt8) : Prop :=
  ∃ b c, text = b ++ c ∧ b ∈ lang r.items ∧ (r.final = true → c = [])

theorem mem_single_iff (c : UInt8) (w : List UInt8) :
    w ∈ (if c = dot then Item.any else .lit c).lang ↔ ∃ b, w = [b] ∧ (c = dot ∨ c = b) := by
  split_ifs with hc
  · constructor
    · rintro ⟨b, rfl⟩
      exact ⟨b, rfl, .inl hc⟩
    · rintro ⟨b, rfl, _⟩
      exact ⟨b, rfl⟩
  · constructor
    · intro hw
      exact ⟨c, hw, .inr rfl⟩
    · rintro ⟨b, rfl, hb⟩
      cases hb.resolve_left hc
      rfl

theorem mem_kstar_letters_iff {L : Language UInt8} {P : UInt8 → Prop}
    (hL : ∀ w, w ∈ L ↔ ∃ b, w = [b] ∧ P b) (w : List UInt8) : w ∈ L∗ ↔ ∀ b ∈ w, P b := by
  rw [Language.mem_kstar]
  constructor
  · rintro ⟨words, rfl, hwords⟩ b hb
    obtain ⟨word, hword, hb⟩ := List.mem_flatten.mp hb
    obtain ⟨b', rfl, hP⟩ := (hL word).mp (hwords word hword)
    rwa [List.mem_singleton.mp hb]
  · intro hw
    refine ⟨w.map fun b => [b], ?_, ?_⟩
    · induction w with
      | nil => rfl
      | cons b w ih =>
        rw [List.map_cons, List.flatten_cons, ← ih fun x hx => hw x (.tail _ hx)]
        rfl
    · intro word hword
      obtain ⟨b, hb, rfl⟩ := List.mem_map.mp hword
      exact (hL _).mpr ⟨b, rfl, hw b hb⟩

theorem mem_many_iff (c : UInt8) (w : List UInt8) :
    w ∈ (Item.many c).lang ↔ ∀ b ∈ w, b = c ∨ c = dot := by
  apply mem_kstar_letters_iff
  intro word
  have hone := mem_single_iff c word
  by_cases hc : c = dot
  · rw [if_pos hc] at hone ⊢
    exact hone.trans (by simp [hc])
  · rw [if_neg hc] at hone ⊢
    exact hone.trans (by simp [hc])

theorem here_nil (final : Bool) (text : List UInt8) :
    Reading.Here ⟨[], final⟩ text ↔ (final = true → text = []) := by
  constructor
  · rintro ⟨b, c, rfl, hb, hc⟩ hfinal
    rw [hc hfinal, show b = [] from hb]
    rfl
  · intro h
    exact ⟨[], text, rfl, rfl, h⟩

theorem here_cons (x : Item) (r : Reading) (text : List UInt8) :
    (r.cons x).Here text ↔ ∃ u v, text = u ++ v ∧ u ∈ x.lang ∧ r.Here v := by
  have hprod : lang (x :: r.items) = x.lang * lang r.items := by
    rw [lang, List.map_cons, List.prod_cons]
    rfl
  constructor
  · rintro ⟨b, c, rfl, hb, hc⟩
    obtain ⟨u, hu, v, hv, rfl⟩ := Language.mem_mul.mp (hprod ▸ hb)
    exact ⟨u, v ++ c, List.append_assoc u v c, hu, v, c, rfl, hv, hc⟩
  · rintro ⟨u, _, rfl, hu, v, c, rfl, hv, hc⟩
    refine ⟨u ++ v, c, (List.append_assoc u v c).symm, ?_, hc⟩
    exact hprod ▸ Language.mem_mul.mpr ⟨u, hu, v, hv, rfl⟩

theorem here_single (c : UInt8) (r : Reading) (text : List UInt8) :
    (r.cons (if c = dot then .any else .lit c)).Here text ↔
      ∃ b v, text = b :: v ∧ (c = dot ∨ c = b) ∧ r.Here v := by
  rw [here_cons]
  constructor
  · rintro ⟨u, v, rfl, hu, hv⟩
    obtain ⟨b, rfl, hb⟩ := (mem_single_iff c u).mp hu
    exact ⟨b, v, rfl, hb, hv⟩
  · rintro ⟨b, v, rfl, hb, hv⟩
    exact ⟨[b], v, rfl, (mem_single_iff c [b]).mpr ⟨b, rfl, hb⟩, hv⟩

theorem matchstar_iff (c : UInt8) (re text : List UInt8) :
    matchstar c re text = true ↔
      ∃ u v, text = u ++ v ∧ (∀ b ∈ u, b = c ∨ c = dot) ∧ matchhere re v = true := by
  induction text with
  | nil =>
    rw [matchstar, Bool.or_false]
    constructor
    · intro h
      exact ⟨[], [], rfl, fun b hb => absurd hb List.not_mem_nil, h⟩
    · rintro ⟨u, v, huv, _, h⟩
      rwa [(List.append_eq_nil_iff.mp huv.symm).2] at h
  | cons b text ih =>
    rw [matchstar, Bool.or_eq_true, Bool.and_eq_true, Bool.or_eq_true, decide_eq_true_iff,
      decide_eq_true_iff, ih]
    constructor
    · rintro (h | ⟨hb, u, v, rfl, hu, h⟩)
      · exact ⟨[], b :: text, rfl, fun x hx => absurd hx List.not_mem_nil, h⟩
      · exact ⟨b :: u, v, rfl, List.forall_mem_cons.mpr ⟨hb, hu⟩, h⟩
    · rintro ⟨_ | ⟨x, u⟩, v, huv, hu, h⟩
      · rw [List.nil_append] at huv
        exact .inl (huv ▸ h)
      · obtain ⟨rfl, rfl⟩ := List.cons.inj huv
        obtain ⟨hb, hu⟩ := List.forall_mem_cons.mp hu
        exact .inr ⟨hb, u, v, rfl, hu, h⟩

theorem matchhere_dollar (text : List UInt8) : matchhere [dollar] text = text.isEmpty := by
  cases text <;> simp [matchhere]

theorem matchhere_star (c : UInt8) (re text : List UInt8) :
    matchhere (c :: star :: re) text = matchstar c re text := by
  cases text <;> simp [matchhere]

theorem matchhere_single {c : UInt8} {re : List UInt8} (hstar : re.head? ≠ some star)
    (hdollar : ¬(c = dollar ∧ re = [])) (text : List UInt8) :
    matchhere (c :: re) text = true ↔
      ∃ b v, text = b :: v ∧ (c = dot ∨ c = b) ∧ matchhere re v = true := by
  cases re with
  | nil =>
    have hc : c ≠ dollar := fun hc => hdollar ⟨hc, rfl⟩
    cases text <;> simp [matchhere, hc]
  | cons d re =>
    have hd : d ≠ star := fun hd => hstar (congrArg some hd)
    cases text <;> simp [matchhere, hd]

theorem matchhere_iff (re text : List UInt8) :
    matchhere re text = true ↔ (readItems re).Here text := by
  -- along the pattern, two characters at a time where a star is read
  induction re using readItems.induct generalizing text with
  | case1 =>
    rw [readItems, here_nil, matchhere]
    simp
  | case2 =>
    rw [readItems, if_pos rfl, here_nil, matchhere_dollar]
    simp
  | case3 c hc =>
    have hnil : (⟨[if c = dot then .any else .lit c], false⟩ : Reading) =
        (readItems []).cons (if c = dot then .any else .lit c) := by rw [readItems]; rfl
    rw [readItems, if_neg hc, hnil, here_single,
      matchhere_single (by simp) (fun h => hc h.1)]
    simp [matchhere, readItems, here_nil]
  | case4 c re ih =>
    rw [readItems, if_pos rfl, here_cons, matchhere_star, matchstar_iff]
    simp only [mem_many_iff, ih]
  | case5 c d re hd ih =>
    rw [readItems, if_neg hd, here_single,
      matchhere_single (by simpa using hd) (fun h => List.cons_ne_nil d re h.2)]
    simp only [ih]

theorem matchLoop_iff (re text : List UInt8) :
    matchLoop re text = true ↔ ∃ a v, text = a ++ v ∧ matchhere re v = true := by
  induction text with
  | nil =>
    rw [matchLoop]
    constructor
    · intro h
      exact ⟨[], [], rfl, h⟩
    · rintro ⟨a, v, hav, h⟩
      rwa [(List.append_eq_nil_iff.mp hav.symm).2] at h
  | cons b text ih =>
    rw [matchLoop, Bool.or_eq_true, ih]
    constructor
    · rintro (h | ⟨a, v, rfl, h⟩)
      · exact ⟨[], b :: text, rfl, h⟩
      · exact ⟨b :: a, v, rfl, h⟩
    · rintro ⟨_ | ⟨x, a⟩, v, hav, h⟩
      · rw [List.nil_append] at hav
        exact .inl (hav ▸ h)
      · obtain ⟨rfl, rfl⟩ := List.cons.inj hav
        exact .inr ⟨a, v, rfl, h⟩

theorem matchText_eq (re text : List UInt8) :
    matchText re text =
      if re.head? = some caret then matchhere re.tail text else matchLoop re text := by
  cases re with
  | nil => rfl
  | cons c re => simp [matchText]

/-- The matcher accepts exactly the texts with a part in the language of the items, at the start of
the text behind a caret and at its end before a dollar. -/
theorem matchText_iff_lang (re text : List UInt8) :
    matchText re text = true ↔
      ∃ a b c, text = a ++ b ++ c ∧ b ∈ lang (readPattern re).body.items ∧
        ((readPattern re).anchored = true → a = []) ∧
        ((readPattern re).body.final = true → c = []) := by
  rw [matchText_eq, readPattern]
  split_ifs with hcaret
  · rw [matchhere_iff]
    constructor
    · rintro ⟨b, c, rfl, hb, hc⟩
      exact ⟨[], b, c, rfl, hb, fun _ => rfl, hc⟩
    · rintro ⟨a, b, c, rfl, hb, ha, hc⟩
      rw [ha rfl]
      exact ⟨b, c, rfl, hb, hc⟩
  · rw [matchLoop_iff]
    constructor
    · rintro ⟨a, v, rfl, h⟩
      obtain ⟨b, c, rfl, hb, hc⟩ := (matchhere_iff re v).mp h
      exact ⟨a, b, c, (List.append_assoc a b c).symm, hb, nofun, hc⟩
    · rintro ⟨a, b, c, rfl, hb, _, hc⟩
      exact ⟨a, b ++ c, List.append_assoc a b c, (matchhere_iff re _).mpr ⟨b, c, rfl, hb, hc⟩⟩

end Xv6.Grep
