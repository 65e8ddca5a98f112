import Mathlib.Tactic
import Xv6.Sh

/-!
# Reading a rendered line

A line renders a list of tokens when it consists of them with whitespace between. `gettoken` and
`peek` then see the tokens one after another.
-/

namespace Xv6.Sh

def isWordChar (c : UInt8) : Bool := c != 0 && !isWhite c && !isSymbol c

structure Word where
  bytes : List UInt8
  nonempty : bytes ≠ []
  chars : ∀ c ∈ bytes, isWordChar c = true

inductive Item
  | sym (k : Sym)
  | word (w : Word)

def Item.bytes : Item → List UInt8
  | .sym k => k.bytes
  | .word w => w.bytes

def Item.tok : Item → Tok
  | .sym k => .sym k
  | .word _ => .word

def Item.Joins : Item → Item → Prop
  | .word _, .word _ => True
  | .sym .gt, .sym .gt => True
  | .sym .gt, .sym .gtgt => True
  | _, _ => False

/-- `line` consists of the items, with whitespace before, between and behind them. -/
inductive Rendered : List Item → Line → Prop
  | nil {ws : Line} (hws : ∀ c ∈ ws, isWhite c = true) : Rendered [] ws
  | cons {ws : Line} {item : Item} {items : List Item} {rest : Line}
      (hws : ∀ c ∈ ws, isWhite c = true)
      (hsep : ∀ next ∈ items.head?, item.Joins next → ∃ c ∈ rest.head?, isWhite c = true)
      (hrest : Rendered items rest) : Rendered (item :: items) (ws ++ (item.bytes ++ rest))

theorem char_of_drop {line rest : Line} {s : Nat} (h : line.drop s = rest) (i : Nat) :
    line.char (s + i) = rest.char i := by
  subst h
  simp [Line.char, List.getD_eq_getElem?_getD]

theorem not_white_of_wordChar {c : UInt8} (h : isWordChar c = true) : isWhite c = false := by
  simp only [isWordChar, Bool.and_eq_true, Bool.not_eq_true'] at h
  exact h.1.2

theorem not_symbol_of_wordChar {c : UInt8} (h : isWordChar c = true) : isSymbol c = false := by
  simp only [isWordChar, Bool.and_eq_true, Bool.not_eq_true'] at h
  exact h.2

theorem ne_zero_of_wordChar {c : UInt8} (h : isWordChar c = true) : c ≠ 0 := by
  simp only [isWordChar, Bool.and_eq_true, bne_iff_ne] at h
  exact h.1.1

theorem not_wordChar_of_white {c : UInt8} (h : isWhite c = true) : isWordChar c = false := by
  simp [isWordChar, h]

theorem Item.bytes_eq_cons (item : Item) : ∃ c cs, item.bytes = c :: cs ∧ c ≠ 0 ∧
    isWhite c = false := by
  cases item with
  | sym k =>
    cases k <;> exact ⟨_, _, rfl, by decide, by decide⟩
  | word w =>
    obtain ⟨c, cs, hw⟩ := List.exists_cons_of_ne_nil w.nonempty
    have hc := w.chars c (hw ▸ List.mem_cons_self)
    exact ⟨c, cs, hw, ne_zero_of_wordChar hc, not_white_of_wordChar hc⟩

theorem Item.ne_zero_of_mem (item : Item) : ∀ c ∈ item.bytes, c ≠ 0 := by
  cases item with
  | sym k => cases k <;> simp [Item.bytes, Sym.bytes]
  | word w => exact fun c hc => ne_zero_of_wordChar (w.chars c hc)

theorem ne_zero_of_white {c : UInt8} (h : isWhite c = true) : c ≠ 0 := by
  rintro rfl
  exact absurd h (by decide)

theorem Rendered.ne_zero {items : List Item} {line : Line} (h : Rendered items line) :
    ∀ c ∈ line, c ≠ 0 := by
  induction h with
  | nil hws => exact fun c hc => ne_zero_of_white (hws c hc)
  | @cons ws item items rest hws hsep hrest ih =>
    intro c hc
    rcases List.mem_append.mp hc with hc | hc
    · exact ne_zero_of_white (hws c hc)
    · rcases List.mem_append.mp hc with hc | hc
      · exact item.ne_zero_of_mem c hc
      · exact ih c hc

theorem strlen_eq {line : Line} (h : ∀ c ∈ line, c ≠ 0) : strlen line = line.length := by
  have hall : (line ++ []).takeWhile (· ≠ 0) = line ++ [].takeWhile (· ≠ 0) :=
    List.takeWhile_append_of_pos (by simpa using h)
  rw [List.append_nil, List.takeWhile_nil, List.append_nil] at hall
  rw [strlen, hall]

theorem skipWhile_eq {p : UInt8 → Bool} {line pre rest : Line} {fuel s : Nat}
    (hline : line.drop s = pre ++ rest) (hpre : ∀ c ∈ pre, p c = true)
    (hrest : ∀ c ∈ rest.head?, p c = false) (hfuel : pre.length ≤ fuel) :
    skipWhile p line line.length fuel s = s + pre.length := by
  induction pre generalizing s fuel with
  | nil =>
    cases fuel with
    | zero => rfl
    | succ fuel =>
      rw [skipWhile, if_neg]
      · rfl
      · rw [List.nil_append] at hline
        rintro h
        obtain ⟨hs, hp⟩ := (Bool.and_eq_true _ _).mp h
        have hs := of_decide_eq_true hs
        have hhead : line.char s ∈ rest.head? := by
          rw [← hline, List.head?_drop, Line.char, List.getD_eq_getElem?_getD,
            List.getElem?_eq_getElem hs]
          rfl
        rw [hrest _ hhead] at hp
        cases hp
  | cons c pre ih =>
    obtain ⟨fuel, rfl⟩ := Nat.exists_eq_add_one_of_ne_zero (Nat.ne_zero_of_lt
      (lt_of_lt_of_le (Nat.succ_pos _) hfuel))
    have hs : s < line.length := by
      by_contra hs
      rw [List.drop_of_length_le (by omega)] at hline
      cases hline
    have hchar : line.char s = c := by
      have := char_of_drop hline 0
      simpa [Line.char] using this
    have hnext : line.drop (s + 1) = pre ++ rest := by
      rw [← List.tail_drop, hline]
      rfl
    rw [skipWhile, if_pos (by simp [hs, hchar, hpre c List.mem_cons_self]),
      ih hnext (fun d hd => hpre d (List.mem_cons_of_mem c hd))
        (Nat.le_of_succ_le_succ hfuel), List.length_cons]
    omega

theorem skip_eq {p : UInt8 → Bool} {line pre rest : Line} {s : Nat}
    (hline : line.drop s = pre ++ rest) (hpre : ∀ c ∈ pre, p c = true)
    (hrest : ∀ c ∈ rest.head?, p c = false) :
    skip p line line.length s = s + pre.length ∧ line.drop (s + pre.length) = rest ∧
      (s ≤ line.length → s + pre.length ≤ line.length) := by
  have hlen := congrArg List.length hline
  rw [List.length_drop, List.length_append] at hlen
  refine ⟨skipWhile_eq hline hpre hrest (by omega), ?_, by omega⟩
  rw [← List.drop_drop, hline, List.drop_left]

structure Before (items : List Item) (line : Line) (s : Nat) : Prop where
  le : s ≤ line.length
  text : Rendered items (line.drop s)

theorem Before.skip_white {items : List Item} {line : Line} {s : Nat} (h : Before items line s) :
    ∃ s' ≤ line.length, skip isWhite line line.length s = s' ∧
      (items = [] ∧ line.drop s' = [] ∨
        ∃ item rest, items.head? = some item ∧ line.drop s' = item.bytes ++ rest ∧
          Rendered items.tail rest ∧
          ∀ next ∈ items.tail.head?, item.Joins next → ∃ c ∈ rest.head?, isWhite c = true) := by
  obtain ⟨hle, h⟩ := h
  generalize hline : line.drop s = text at h
  cases h with
  | nil hws =>
    rw [← List.append_nil text] at hline
    obtain ⟨hskip, hdrop, hlen⟩ := skip_eq hline hws (by simp)
    exact ⟨_, hlen hle, hskip, .inl ⟨rfl, hdrop⟩⟩
  | @cons ws item items rest hws hsep hrest =>
    obtain ⟨c, cs, hbytes, -, hc⟩ := item.bytes_eq_cons
    obtain ⟨hskip, hdrop, hlen⟩ := skip_eq hline hws (by simp [hbytes, hc])
    exact ⟨_, hlen hle, hskip, .inr ⟨item, rest, rfl, hdrop, hrest, hsep⟩⟩

theorem Before.skipped {items : List Item} {line : Line} {s : Nat} (h : Before items line s) :
    Before items line (skip isWhite line line.length s) := by
  obtain ⟨s', hle, hskip, ⟨rfl, hdrop⟩ | ⟨item, rest, hitem, hdrop, hrest, hsep⟩⟩ := h.skip_white
  · refine ⟨hskip ▸ hle, ?_⟩
    rw [hskip, hdrop]
    exact .nil (by simp)
  · refine ⟨hskip ▸ hle, ?_⟩
    rw [hskip, hdrop]
    cases items with
    | nil => cases hitem
    | cons i items =>
      cases hitem
      change Rendered (item :: items) ([] ++ (item.bytes ++ rest))
      exact .cons (by simp) hsep hrest

def Item.first (item : Item) : UInt8 := item.bytes.headD 0

theorem peek_eq {items : List Item} {line : Line} {s : Nat} (toks : List UInt8)
    (h : Before items line s) :
    ∃ s', peek toks line line.length s =
        ((items.head?.map fun item => toks.contains item.first).getD false, s') ∧
      Before items line s' := by
  refine ⟨_, ?_, h.skipped⟩
  obtain ⟨s', -, hskip, ⟨rfl, hdrop⟩ | ⟨item, rest, hitem, hdrop, -⟩⟩ := h.skip_white
  · have hchar : line.char s' = 0 := char_of_drop hdrop 0
    simp [peek, hskip, hchar]
  · obtain ⟨c, cs, hbytes, hc, -⟩ := item.bytes_eq_cons
    have hchar : line.char s' = c := by
      have := char_of_drop hdrop 0
      simpa [hbytes, Line.char] using this
    simp [peek, hskip, hchar, hc, hitem, Item.first, hbytes]

theorem gettoken_nil {line : Line} {s : Nat} (h : Before [] line s) :
    (gettoken line line.length s).tok = .nul ∧
      Before [] line (gettoken line line.length s).next := by
  obtain ⟨s', hle, hskip, ⟨-, hdrop⟩ | ⟨item, rest, hitem, -⟩⟩ := h.skip_white
  · have hchar : line.char s' = 0 := char_of_drop hdrop 0
    have hscan : scan line line.length s' = (.nul, s') := by simp [scan, hchar]
    refine ⟨by simp [gettoken, hskip, hscan], ?_⟩
    have hr : Before [] line s' := ⟨hle, by rw [hdrop]; exact .nil (by simp)⟩
    simpa [gettoken, hskip, hscan] using hr.skipped
  · cases hitem

theorem Rendered.head_not_wordChar {w : Word} {items : List Item} {rest : Line}
    (h : Rendered items rest)
    (hsep : ∀ next ∈ items.head?, (Item.word w).Joins next → ∃ c ∈ rest.head?, isWhite c = true) :
    ∀ c ∈ rest.head?, isWordChar c = false := by
  intro c hc
  cases h with
  | nil hws => exact not_wordChar_of_white (hws c (List.mem_of_mem_head? hc))
  | @cons ws item items rest hws hsep' hrest =>
    cases ws with
    | cons d ws =>
      obtain rfl : d = c := Option.some.inj hc
      exact not_wordChar_of_white (hws d List.mem_cons_self)
    | nil =>
      cases item with
      | sym k => cases k <;> cases hc <;> decide
      | word w' =>
        obtain ⟨d, hd, hwhite⟩ := hsep _ rfl trivial
        obtain rfl : d = c := Option.some.inj (hd.symm.trans hc)
        exact not_wordChar_of_white hwhite

theorem Rendered.head_ne_gt {items : List Item} {rest : Line} (h : Rendered items rest)
    (hsep : ∀ next ∈ items.head?, (Item.sym .gt).Joins next →
      ∃ c ∈ rest.head?, isWhite c = true) : rest.char 0 ≠ 62 := by
  intro hgt
  have hwhite : isWhite 62 = false := by decide
  cases h with
  | @nil ws hws =>
    cases rest with
    | nil => exact absurd hgt (by decide)
    | cons c rest =>
      obtain rfl : c = 62 := hgt
      rw [hws _ List.mem_cons_self] at hwhite
      cases hwhite
  | @cons ws item items rest hws hsep' hrest =>
    cases ws with
    | cons d ws =>
      obtain rfl : d = 62 := hgt
      rw [hws _ List.mem_cons_self] at hwhite
      cases hwhite
    | nil =>
      cases item with
      | sym k =>
        cases k
        case gt =>
          obtain ⟨c, hc, hcw⟩ := hsep _ rfl trivial
          cases hc
          exact absurd hcw (by decide)
        case gtgt =>
          obtain ⟨c, hc, hcw⟩ := hsep _ rfl trivial
          cases hc
          exact absurd hcw (by decide)
        all_goals exact absurd hgt (by simp [Line.char, Item.bytes, Sym.bytes])
      | word w =>
        obtain ⟨c, cs, hw⟩ := List.exists_cons_of_ne_nil w.nonempty
        have hc := w.chars c (hw ▸ List.mem_cons_self)
        have hc62 : c = 62 := by simpa [Line.char, Item.bytes, hw] using hgt
        subst hc62
        exact absurd hc (by decide)

theorem scan_eq {item : Item} {items : List Item} {line rest : Line} {q : Nat}
    (hdrop : line.drop q = item.bytes ++ rest) (hrest : Rendered items rest)
    (hsep : ∀ next ∈ items.head?, item.Joins next → ∃ c ∈ rest.head?, isWhite c = true) :
    scan line line.length q = (item.tok, q + item.bytes.length) := by
  have hchar := fun i => char_of_drop hdrop i
  cases item with
  | sym k =>
    have h0 := hchar 0
    have h1 := hchar 1
    cases k
    case gt =>
      have hne := hrest.head_ne_gt hsep
      have h0' : line.char q = 62 := h0
      have h1' : line.char (q + 1) = rest.char 0 := h1
      simp [scan, h0', h1', hne, Item.tok, Item.bytes, Sym.bytes]
    case gtgt =>
      have h0' : line.char q = 62 := h0
      have h1' : line.char (q + 1) = 62 := h1
      simp [scan, h0', h1', Item.tok, Item.bytes, Sym.bytes]
    all_goals
      rw [Nat.add_zero] at h0
      simp only [scan, h0, Item.tok, Item.bytes, Sym.bytes]
      rfl
  | word w =>
    obtain ⟨c, cs, hw⟩ := List.exists_cons_of_ne_nil w.nonempty
    have hc := w.chars c (hw ▸ List.mem_cons_self)
    have h0 : line.char q = c := by
      have := hchar 0
      simpa [Item.bytes, hw, Line.char] using this
    have hsym := not_symbol_of_wordChar hc
    have hzero := ne_zero_of_wordChar hc
    have hskip := (skip_eq (p := fun c => !isWhite c && !isSymbol c) hdrop
      (fun c hc => by
        have := w.chars c hc
        simp [not_white_of_wordChar this, not_symbol_of_wordChar this])
      (fun c hc => by
        have := hrest.head_not_wordChar hsep c hc
        have hne : c ≠ 0 := hrest.ne_zero c (List.mem_of_mem_head? hc)
        simpa [isWordChar, hne] using this)).1
    simp only [isSymbol, symbols, List.contains_cons, List.contains_nil, Bool.or_eq_false_iff,
      beq_eq_false_iff_ne, Bool.or_false] at hsym
    obtain ⟨h60, h124, h62, h38, h59, h40, h41⟩ := hsym
    simp [scan, h0, hzero, h60, h124, h62, h38, h59, h40, h41, hskip, Item.tok, Item.bytes]

theorem gettoken_cons {item : Item} {items : List Item} {line : Line} {s : Nat}
    (h : Before (item :: items) line s) :
    (gettoken line line.length s).tok = item.tok ∧
      (gettoken line line.length s).eq = (gettoken line line.length s).q + item.bytes.length ∧
      (∃ rest, line.drop (gettoken line line.length s).q = item.bytes ++ rest ∧
        ((∃ w, item = .word w) → ∀ c ∈ rest.head?, isWordChar c = false)) ∧
      Before items line (gettoken line line.length s).next := by
  obtain ⟨s', hle, hskip, ⟨hnil, -⟩ | ⟨i, rest, hitem, hdrop, hrest, hsep⟩⟩ := h.skip_white
  · cases hnil
  · obtain rfl : item = i := Option.some.inj hitem
    have hword : (∃ w, item = .word w) → ∀ c ∈ rest.head?, isWordChar c = false := by
      rintro ⟨w, rfl⟩
      exact Rendered.head_not_wordChar hrest hsep
    have hscan : scan line line.length s' = (item.tok, s' + item.bytes.length) :=
      scan_eq hdrop hrest hsep
    have hdrop' : line.drop (s' + item.bytes.length) = rest := by
      rw [← List.drop_drop, hdrop, List.drop_left]
    have hlen : s' + item.bytes.length ≤ line.length := by
      have := congrArg List.length hdrop
      rw [List.length_drop, List.length_append] at this
      omega
    have hnext : Before items line (s' + item.bytes.length) := ⟨hlen, hdrop' ▸ hrest⟩
    simp only [gettoken, hskip, hscan]
    exact ⟨trivial, trivial, ⟨rest, hdrop, hword⟩, hnext.skipped⟩

end Xv6.Sh
