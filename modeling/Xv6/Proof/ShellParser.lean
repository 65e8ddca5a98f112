import Xv6.Proof.ShellLexer

/-!
# Parsing a rendered command

Every command, written out with its subcommands in parentheses and any whitespace between the
tokens, is parsed back to itself. `nulterminate` then ends every word where it ended in the line:
the bytes it overwrites belong to no word.
-/

namespace Xv6.Sh

inductive RedirKind
  | input
  | output
  | append

def RedirKind.sym : RedirKind → Sym
  | .input => .lt
  | .output => .gt
  | .append => .gtgt

def RedirKind.mode : RedirKind → Nat
  | .input => oRdonly
  | .output => oWronly ||| oCreate
  | .append => oWronly ||| oCreate

def RedirKind.fd : RedirKind → Nat
  | .input => 0
  | .output => 1
  | .append => 1

inductive Command
  | exec (words : { words : List Word // words.length < maxargs })
  | redir (cmd : Command) (kind : RedirKind) (file : Word)
  | pipe (left right : Command)
  | list (left right : Command)
  | back (cmd : Command)

def paren (items : List Item) : List Item := .sym .lparen :: (items ++ [.sym .rparen])

def Command.items : Command → List Item
  | .exec words => words.1.map .word
  | .redir cmd kind file => paren cmd.items ++ [.sym kind.sym, .word file]
  | .pipe left right => paren left.items ++ .sym .bar :: paren right.items
  | .list left right => paren left.items ++ .sym .semi :: paren right.items
  | .back cmd => paren cmd.items ++ [.sym .amp]

/-- A command with its words as strings. -/
inductive Node
  | exec (argv : List (List UInt8))
  | redir (cmd : Node) (file : List UInt8) (mode fd : Nat)
  | pipe (left right : Node)
  | list (left right : Node)
  | back (cmd : Node)
  deriving DecidableEq

def Command.node : Command → Node
  | .exec words => .exec (words.1.map Word.bytes)
  | .redir cmd kind file => .redir cmd.node file.bytes kind.mode kind.fd
  | .pipe left right => .pipe left.node right.node
  | .list left right => .list left.node right.node
  | .back cmd => .back cmd.node

def Cmd.node (line : Line) : Cmd → Node
  | .exec argv => .exec (argv.map fun arg => line.string arg.1)
  | .redir cmd file _ mode fd => .redir (cmd.node line) (line.string file) mode fd
  | .pipe left right => .pipe (left.node line) (right.node line)
  | .list left right => .list (left.node line) (right.node line)
  | .back cmd => .back (cmd.node line)

def Command.fuel : Command → Nat
  | .exec _ => 3
  | .redir cmd _ _ => cmd.fuel + 6
  | .pipe left right => max left.fuel right.fuel + 6
  | .list left right => max left.fuel right.fuel + 6
  | .back cmd => cmd.fuel + 6

structure WordAt (line : Line) (q eq : Nat) (w : Word) : Prop where
  length : eq = q + w.bytes.length
  chars : ∀ i < w.bytes.length, line.char (q + i) = Line.char w.bytes i
  stop : isWordChar (line.char eq) = false

theorem wordAt_gettoken {w : Word} {items : List Item} {line : Line} {s : Nat}
    (h : Before (.word w :: items) line s) :
    WordAt line (gettoken line line.length s).q (gettoken line line.length s).eq w := by
  obtain ⟨-, heq, ⟨rest, hdrop, hstop⟩, -⟩ := gettoken_cons h
  have hchar := fun i => char_of_drop hdrop i
  refine ⟨heq, fun i hi => ?_, ?_⟩
  · rw [hchar, Line.char, List.getD_eq_getElem?_getD]
    exact congrArg (Option.getD · 0) (List.getElem?_append_left hi)
  · rw [heq, hchar]
    cases rest with
    | nil => simp [Line.char, Item.bytes, isWordChar]
    | cons c rest =>
      have := hstop ⟨w, rfl⟩ c rfl
      simpa [Line.char, Item.bytes] using this

/-- The parser's tree stands for the command, word by word. -/
inductive Parsed (line : Line) : Cmd → Command → Prop
  | exec {argv : List (Nat × Nat)} {words : { words : List Word // words.length < maxargs }}
      (h : List.Forall₂ (fun arg w => WordAt line arg.1 arg.2 w) argv words.1) :
      Parsed line (.exec argv) (.exec words)
  | redir {cmd : Cmd} {command : Command} {kind : RedirKind} {file efile : Nat} {w : Word}
      (hcmd : Parsed line cmd command) (hfile : WordAt line file efile w) :
      Parsed line (.redir cmd file efile kind.mode kind.fd) (.redir command kind w)
  | pipe {left right : Cmd} {left' right' : Command} (hleft : Parsed line left left')
      (hright : Parsed line right right') : Parsed line (.pipe left right) (.pipe left' right')
  | list {left right : Cmd} {left' right' : Command} (hleft : Parsed line left left')
      (hright : Parsed line right right') : Parsed line (.list left right) (.list left' right')
  | back {cmd : Cmd} {command : Command} (hcmd : Parsed line cmd command) :
      Parsed line (.back cmd) (.back command)

def starts (toks : List UInt8) (items : List Item) : Bool :=
  (items.head?.map fun item => toks.contains item.first).getD false

theorem ok_bind {α β : Type} (a : α) (f : α → Except ShError β) :
    (Except.ok a >>= f) = f a := rfl

theorem starts_word {toks : List UInt8} (htoks : ∀ c ∈ toks, isSymbol c = true) (w : Word)
    (items : List Item) : starts toks (.word w :: items) = false := by
  obtain ⟨c, cs, hw⟩ := List.exists_cons_of_ne_nil w.nonempty
  have hc := not_symbol_of_wordChar (w.chars c (hw ▸ List.mem_cons_self))
  have hmem : c ∉ toks := fun h => by
    rw [htoks c h] at hc
    cases hc
  simpa [starts, Item.first, Item.bytes, hw] using hmem

variable {line : Line} {items follow : List Item} {s : Nat}

theorem Before.length_pos {item : Item} (h : Before (item :: items) line s) :
    0 < line.length := by
  by_contra hlen
  have hnil : line.drop s = [] := List.drop_of_length_le (by omega)
  replace h := h.text
  rw [hnil] at h
  generalize htext : ([] : Line) = text at h
  cases h with
  | cons hws hsep hrest =>
    obtain ⟨c, cs, hbytes, -⟩ := item.bytes_eq_cons
    simp [hbytes] at htext

theorem redirsLoop_none (fuel : Nat) (h : Before items line s)
    (hstarts : starts [60, 62] items = false) :
    ∃ s', redirsLoop line line.length (fuel + 1) s = .ok ([], s') ∧
      Before items line s' := by
  obtain ⟨s', hpeek, hs'⟩ := peek_eq [60, 62] h
  refine ⟨s', ?_, hs'⟩
  rw [redirsLoop, hpeek]
  change (if starts [60, 62] items then _ else _) = _
  rw [hstarts]
  rfl

theorem parseredirs_none (h : Before items line s)
    (hstarts : starts [60, 62] items = false) :
    ∃ s', parseredirs line line.length s = .ok ([], s') ∧ Before items line s' :=
  redirsLoop_none _ h hstarts

theorem parseredirs_one {kind : RedirKind} {w : Word}
    (h : Before (.sym kind.sym :: .word w :: items) line s)
    (hstarts : starts [60, 62] items = false) :
    ∃ file efile s', parseredirs line line.length s =
        .ok ([⟨file, efile, kind.mode, kind.fd⟩], s') ∧
      WordAt line file efile w ∧ Before items line s' := by
  obtain ⟨s1, hpeek, hs1⟩ := peek_eq [60, 62] h
  obtain ⟨htok, -, -, hnext⟩ := gettoken_cons hs1
  obtain ⟨hword, -, -, hrest⟩ := gettoken_cons hnext
  have hwordAt := wordAt_gettoken hnext
  obtain ⟨n, hn⟩ := Nat.exists_eq_add_one_of_ne_zero h.length_pos.ne'
  obtain ⟨s', hloop, hs'⟩ := redirsLoop_none n hrest hstarts
  refine ⟨_, _, s', ?_, hwordAt, hs'⟩
  rw [← hn] at hloop
  rw [parseredirs, redirsLoop, hpeek]
  have hfound : ((Item.sym kind.sym :: .word w :: items).head?.map
      fun item => [60, 62].contains item.first).getD false = true := by
    cases kind <;> rfl
  rw [hfound]
  simp only [if_true, hword, Item.tok, ne_eq, not_true_eq_false, if_false, hloop, ok_bind, htok]
  cases kind <;> rfl

def Closed (follow : List Item) : Prop := follow = [] ∨ ∃ rest, follow = .sym .rparen :: rest

theorem Closed.starts {toks : List UInt8} (h : Closed follow) (htoks : 41 ∉ toks) :
    starts toks follow = false := by
  rcases h with rfl | ⟨rest, rfl⟩
  · rfl
  · have hno : toks.contains 41 = false := by simpa using htoks
    exact hno

theorem argsLoop_words {words : List Word} {left : Nat} (hleft : words.length < left)
    (h : Before (words.map .word ++ follow) line s) (hfollow : Closed follow) :
    ∃ args s', argsLoop line line.length left s = .ok (args, [], s') ∧
      List.Forall₂ (fun arg w => WordAt line arg.1 arg.2 w) args words ∧
      Before follow line s' := by
  induction words generalizing left s with
  | nil =>
    obtain ⟨left, rfl⟩ := Nat.exists_eq_add_one_of_ne_zero (Nat.ne_zero_of_lt hleft)
    obtain ⟨s1, hpeek, hs1⟩ := peek_eq [124, 41, 38, 59] h
    rcases hfollow with rfl | ⟨rest, rfl⟩
    · obtain ⟨htok, hnext⟩ := gettoken_nil hs1
      refine ⟨[], _, ?_, .nil, hnext⟩
      rw [argsLoop, hpeek]
      simp [htok]
      rfl
    · refine ⟨[], s1, ?_, .nil, hs1⟩
      rw [argsLoop, hpeek]
      rfl
  | cons w words ih =>
    obtain ⟨left, rfl⟩ := Nat.exists_eq_add_one_of_ne_zero (Nat.ne_zero_of_lt hleft)
    rw [List.length_cons] at hleft
    obtain ⟨s1, hpeek, hs1⟩ := peek_eq [124, 41, 38, 59] h
    obtain ⟨htok, -, -, hnext⟩ := gettoken_cons hs1
    have hnoredir : starts [60, 62] (words.map .word ++ follow) = false := by
      cases words with
      | nil => exact hfollow.starts (by decide)
      | cons w' words => exact starts_word (List.all_eq_true.mp rfl) w' _
    obtain ⟨s2, hredirs, hs2⟩ := parseredirs_none hnext hnoredir
    obtain ⟨args, s', hloop, hargs, hs'⟩ := ih (Nat.lt_of_succ_lt_succ hleft) hs2
    refine ⟨((gettoken line line.length s1).q, (gettoken line line.length s1).eq) :: args, s', ?_,
      .cons (wordAt_gettoken hs1) hargs, hs'⟩
    have hfound : ((List.map Item.word (w :: words) ++ follow).head?.map
        fun item => [124, 41, 38, 59].contains item.first).getD false = false :=
      starts_word (List.all_eq_true.mp rfl) w _
    rw [argsLoop, hpeek, hfound]
    have hroom : left ≠ 0 := by omega
    simp only [Bool.false_eq_true, if_false, htok, Item.tok, hroom, hredirs, ok_bind, hloop,
      List.nil_append]
    rfl

theorem peek_starts (toks : List UInt8) (h : Before items line s) :
    ∃ s', peek toks line line.length s = (starts toks items, s') ∧
      Before items line s' :=
  peek_eq toks h

def Parses (command : Command) : Prop :=
  ∀ (line : Line) (follow : List Item) (s fuel : Nat), Closed follow →
    Before (command.items ++ follow) line s → command.fuel ≤ fuel →
    ∃ cmd s', parseline line line.length fuel s = .ok (cmd, s') ∧ Parsed line cmd command ∧
      Before follow line s'

theorem parseexec_paren {command : Command} (fuel : Nat) (hcommand : Parses command)
    (h : Before (paren command.items ++ follow) line s)
    (hfuel : command.fuel + 2 ≤ fuel) :
    ∃ cmd s1, parseexec line line.length fuel s =
        (do
          let (redirs, s) ← parseredirs line line.length s1
          pure (redirs.foldl redircmd cmd, s)) ∧
      Parsed line cmd command ∧ Before follow line s1 := by
  obtain ⟨fuel, rfl⟩ : ∃ k, fuel = k + 2 := ⟨fuel - 2, by omega⟩
  have hitems : paren command.items ++ follow =
      .sym .lparen :: (command.items ++ (.sym .rparen :: follow)) := by simp [paren]
  rw [hitems] at h
  obtain ⟨s1, hpeek1, hs1⟩ := peek_starts [40] h
  obtain ⟨s2, hpeek2, hs2⟩ := peek_starts [40] hs1
  obtain ⟨-, -, -, hs3⟩ := gettoken_cons hs2
  obtain ⟨cmd, s4, hline, hcmd, hs4⟩ :=
    hcommand line (.sym .rparen :: follow) _ fuel (.inr ⟨follow, rfl⟩) hs3 (by omega)
  obtain ⟨s5, hpeek5, hs5⟩ := peek_starts [41] hs4
  obtain ⟨-, -, -, hs6⟩ := gettoken_cons hs5
  refine ⟨cmd, _, ?_, hcmd, hs6⟩
  have hopen : ∀ items, starts [40] (.sym .lparen :: items) = true := fun _ => rfl
  have hclose : ∀ items, starts [41] (.sym .rparen :: items) = true := fun _ => rfl
  rw [parseexec, hpeek1, hopen]
  simp only [if_true]
  rw [parseblock, hpeek2, hopen]
  simp only [Bool.not_true, Bool.false_eq_true, if_false, hline, ok_bind, hpeek5, hclose]

theorem parseexec_block {command : Command} (fuel : Nat) (hcommand : Parses command)
    (h : Before (paren command.items ++ follow) line s)
    (hfuel : command.fuel + 2 ≤ fuel) (hfollow : starts [60, 62] follow = false) :
    ∃ cmd s', parseexec line line.length fuel s = .ok (cmd, s') ∧ Parsed line cmd command ∧
      Before follow line s' := by
  obtain ⟨cmd, s1, hexec, hcmd, hs1⟩ := parseexec_paren fuel hcommand h hfuel
  obtain ⟨s', hredirs, hs'⟩ := parseredirs_none hs1 hfollow
  refine ⟨cmd, s', ?_, hcmd, hs'⟩
  rw [hexec, hredirs, ok_bind]
  rfl

theorem parseexec_redir {command : Command} {kind : RedirKind} {w : Word} (fuel : Nat)
    (hcommand : Parses command)
    (h : Before (Command.items (.redir command kind w) ++ follow) line s)
    (hfuel : command.fuel + 2 ≤ fuel) (hfollow : starts [60, 62] follow = false) :
    ∃ cmd s', parseexec line line.length fuel s = .ok (cmd, s') ∧
      Parsed line cmd (.redir command kind w) ∧ Before follow line s' := by
  rw [Command.items, List.append_assoc] at h
  obtain ⟨cmd, s1, hexec, hcmd, hs1⟩ := parseexec_paren fuel hcommand h hfuel
  obtain ⟨file, efile, s', hredirs, hfile, hs'⟩ := parseredirs_one hs1 hfollow
  refine ⟨.redir cmd file efile kind.mode kind.fd, s', ?_, .redir hcmd hfile, hs'⟩
  rw [hexec, hredirs, ok_bind]
  rfl

theorem parseexec_words {words : { words : List Word // words.length < maxargs }} (fuel : Nat)
    (h : Before (Command.items (.exec words) ++ follow) line s) (hfollow : Closed follow)
    (hfuel : 1 ≤ fuel) :
    ∃ cmd s', parseexec line line.length fuel s = .ok (cmd, s') ∧
      Parsed line cmd (.exec words) ∧ Before follow line s' := by
  obtain ⟨fuel, rfl⟩ : ∃ k, fuel = k + 1 := ⟨fuel - 1, by omega⟩
  have hno : ∀ toks : List UInt8, (∀ c ∈ toks, isSymbol c = true) → 41 ∉ toks →
      starts toks (Command.items (.exec words) ++ follow) = false := by
    intro toks hsym htoks
    obtain ⟨words, hwords⟩ := words
    cases words with
    | nil => exact hfollow.starts htoks
    | cons w words => exact starts_word hsym w _
  obtain ⟨s1, hpeek, hs1⟩ := peek_starts [40] h
  obtain ⟨s2, hredirs, hs2⟩ := parseredirs_none hs1 (hno _ (List.all_eq_true.mp rfl) (by decide))
  obtain ⟨args, s', hloop, hargs, hs'⟩ := argsLoop_words words.2 hs2 hfollow
  refine ⟨.exec args, s', ?_, .exec hargs, hs'⟩
  rw [parseexec, hpeek, hno [40] (List.all_eq_true.mp rfl) (by decide)]
  simp only [Bool.false_eq_true, if_false, hredirs, ok_bind, hloop]
  rfl

theorem parsepipe_of_parseexec {cmd : Cmd} {s1 fuel : Nat}
    (hexec : parseexec line line.length fuel s = .ok (cmd, s1))
    (h : Before follow line s1) (hfollow : starts [124] follow = false) :
    ∃ s', parsepipe line line.length (fuel + 1) s = .ok (cmd, s') ∧
      Before follow line s' := by
  obtain ⟨s', hpeek, hs'⟩ := peek_starts [124] h
  refine ⟨s', ?_, hs'⟩
  rw [parsepipe, hexec, ok_bind]
  simp only [hpeek, hfollow]
  rfl

theorem backLoop_none (cmd : Cmd) (fuel : Nat) (h : Before follow line s)
    (hfollow : starts [38] follow = false) :
    ∃ s', backLoop line line.length (fuel + 1) cmd s = .ok (cmd, s') ∧
      Before follow line s' := by
  obtain ⟨s', hpeek, hs'⟩ := peek_starts [38] h
  refine ⟨s', ?_, hs'⟩
  rw [backLoop, hpeek, hfollow]
  rfl

theorem backLoop_one (cmd : Cmd) (h : Before (.sym .amp :: follow) line s)
    (hfollow : starts [38] follow = false) :
    ∃ s', backLoop line line.length (line.length + 1) cmd s = .ok (.back cmd, s') ∧
      Before follow line s' := by
  obtain ⟨s1, hpeek, hs1⟩ := peek_starts [38] h
  obtain ⟨-, -, -, hs2⟩ := gettoken_cons hs1
  obtain ⟨n, hn⟩ := Nat.exists_eq_add_one_of_ne_zero h.length_pos.ne'
  obtain ⟨s', hloop, hs'⟩ := backLoop_none (.back cmd) n hs2 hfollow
  refine ⟨s', ?_, hs'⟩
  rw [← hn] at hloop
  rw [backLoop, hpeek]
  exact hloop

theorem parseline_of_backLoop {cmd cmd' : Cmd} {s1 s2 fuel : Nat}
    (hpipe : parsepipe line line.length fuel s = .ok (cmd, s1))
    (hback : backLoop line line.length (line.length + 1) cmd s1 = .ok (cmd', s2))
    (h : Before follow line s2) (hfollow : starts [59] follow = false) :
    ∃ s', parseline line line.length (fuel + 1) s = .ok (cmd', s') ∧
      Before follow line s' := by
  obtain ⟨s', hpeek, hs'⟩ := peek_starts [59] h
  refine ⟨s', ?_, hs'⟩
  rw [parseline, hpipe, ok_bind]
  simp only [hback, ok_bind, hpeek, hfollow]
  rfl

theorem parseline_of_parsepipe {cmd : Cmd} {s1 fuel : Nat}
    (hpipe : parsepipe line line.length fuel s = .ok (cmd, s1))
    (h : Before follow line s1) (hfollow : Closed follow) :
    ∃ s', parseline line line.length (fuel + 1) s = .ok (cmd, s') ∧
      Before follow line s' := by
  obtain ⟨s2, hback, hs2⟩ := backLoop_none cmd line.length h
    (hfollow.starts (by decide))
  exact parseline_of_backLoop hpipe hback hs2 (hfollow.starts (by decide))

theorem parseline_of_parseexec {cmd : Cmd} {s1 fuel : Nat}
    (hexec : parseexec line line.length fuel s = .ok (cmd, s1))
    (h : Before follow line s1) (hfollow : Closed follow) :
    ∃ s', parseline line line.length (fuel + 2) s = .ok (cmd, s') ∧
      Before follow line s' := by
  obtain ⟨s2, hpipe, hs2⟩ := parsepipe_of_parseexec hexec h (hfollow.starts (by decide))
  exact parseline_of_parsepipe hpipe hs2 hfollow

theorem parses (command : Command) : Parses command := by
  induction command with
  | exec words =>
    intro line follow s fuel hfollow h hfuel
    obtain ⟨fuel, rfl⟩ : ∃ k, fuel = k + 2 := ⟨fuel - 2, by rw [Command.fuel] at hfuel; omega⟩
    rw [Command.fuel] at hfuel
    obtain ⟨cmd, s1, hexec, hcmd, hs1⟩ := parseexec_words fuel h hfollow (by omega)
    obtain ⟨s', hline, hs'⟩ := parseline_of_parseexec hexec hs1 hfollow
    exact ⟨cmd, s', hline, hcmd, hs'⟩
  | redir command kind w ih =>
    intro line follow s fuel hfollow h hfuel
    rw [Command.fuel] at hfuel
    obtain ⟨fuel, rfl⟩ : ∃ k, fuel = k + 2 := ⟨fuel - 2, by omega⟩
    obtain ⟨cmd, s1, hexec, hcmd, hs1⟩ :=
      parseexec_redir fuel ih h (by omega) (hfollow.starts (by decide))
    obtain ⟨s', hline, hs'⟩ := parseline_of_parseexec hexec hs1 hfollow
    exact ⟨cmd, s', hline, hcmd, hs'⟩
  | pipe left right ihl ihr =>
    intro line follow s fuel hfollow h hfuel
    rw [Command.fuel] at hfuel
    obtain ⟨fuel, rfl⟩ : ∃ k, fuel = k + 3 := ⟨fuel - 3, by omega⟩
    rw [Command.items, List.append_assoc, List.cons_append] at h
    obtain ⟨l, s1, hexec, hl, hs1⟩ :=
      parseexec_block (fuel + 1) ihl h (by omega) rfl
    obtain ⟨s2, hpeek, hs2⟩ := peek_starts [124] hs1
    obtain ⟨-, -, -, hs3⟩ := gettoken_cons hs2
    obtain ⟨r, s4, hexec', hr, hs4⟩ :=
      parseexec_block fuel ihr hs3 (by omega) (hfollow.starts (by decide))
    obtain ⟨s5, hpipe, hs5⟩ := parsepipe_of_parseexec hexec' hs4 (hfollow.starts (by decide))
    have hwhole : parsepipe line line.length (fuel + 2) s = .ok (.pipe l r, s5) := by
      rw [parsepipe, hexec, ok_bind]
      simp only [hpeek]
      change (if true then _ else _) = _
      simp only [if_true, hpipe, ok_bind]
      rfl
    obtain ⟨s', hline, hs'⟩ := parseline_of_parsepipe hwhole hs5 hfollow
    exact ⟨_, s', hline, .pipe hl hr, hs'⟩
  | list left right ihl ihr =>
    intro line follow s fuel hfollow h hfuel
    rw [Command.fuel] at hfuel
    obtain ⟨fuel, rfl⟩ : ∃ k, fuel = k + 3 := ⟨fuel - 3, by omega⟩
    rw [Command.items, List.append_assoc, List.cons_append] at h
    obtain ⟨l, s1, hexec, hl, hs1⟩ :=
      parseexec_block (fuel + 1) ihl h (by omega) rfl
    obtain ⟨s2, hpipe, hs2⟩ := parsepipe_of_parseexec hexec hs1 rfl
    obtain ⟨s3, hback, hs3⟩ := backLoop_none l line.length hs2 rfl
    obtain ⟨s4, hpeek, hs4⟩ := peek_starts [59] hs3
    obtain ⟨-, -, -, hs5⟩ := gettoken_cons hs4
    obtain ⟨r, s6, hexec', hr, hs6⟩ :=
      parseexec_block fuel ihr hs5 (by omega) (hfollow.starts (by decide))
    obtain ⟨s', hline, hs'⟩ := parseline_of_parseexec hexec' hs6 hfollow
    refine ⟨.list l r, s', ?_, .list hl hr, hs'⟩
    rw [parseline, hpipe, ok_bind]
    simp only [hback, ok_bind, hpeek]
    change (if true then _ else _) = _
    simp only [if_true, hline, ok_bind]
    rfl
  | back command ih =>
    intro line follow s fuel hfollow h hfuel
    rw [Command.fuel] at hfuel
    obtain ⟨fuel, rfl⟩ : ∃ k, fuel = k + 2 := ⟨fuel - 2, by omega⟩
    rw [Command.items, List.append_assoc] at h
    obtain ⟨cmd, s1, hexec, hcmd, hs1⟩ :=
      parseexec_block fuel ih h (by omega) rfl
    obtain ⟨s2, hpipe, hs2⟩ := parsepipe_of_parseexec hexec hs1 rfl
    obtain ⟨s3, hback, hs3⟩ := backLoop_one cmd hs2 (hfollow.starts (by decide))
    obtain ⟨s', hline, hs'⟩ :=
      parseline_of_backLoop hpipe hback hs3 (hfollow.starts (by decide))
    exact ⟨.back cmd, s', hline, .back hcmd, hs'⟩

def Cmd.ends : Cmd → List Nat
  | .exec argv => argv.map (·.2)
  | .redir cmd _ efile _ _ => cmd.ends ++ [efile]
  | .pipe left right => left.ends ++ right.ends
  | .list left right => left.ends ++ right.ends
  | .back cmd => cmd.ends

theorem char_set (line : Line) (e i : Nat) :
    Line.char (line.set e 0) i = if i = e then 0 else line.char i := by
  by_cases hi : i = e
  · subst hi
    rw [if_pos rfl, Line.char, List.getD_eq_getElem?_getD, List.getElem?_set_self']
    cases (line)[i]? <;> rfl
  · rw [if_neg hi, Line.char, Line.char, List.getD_eq_getElem?_getD, List.getD_eq_getElem?_getD,
      List.getElem?_set_ne (Ne.symm hi)]

theorem char_foldl_set (argv : List (Nat × Nat)) (line : Line) (i : Nat) :
    Line.char (argv.foldl (fun line arg => line.set arg.2 0) line) i =
      if i ∈ argv.map (·.2) then 0 else line.char i := by
  induction argv generalizing line with
  | nil => simp
  | cons arg argv ih =>
    rw [List.foldl_cons, ih, char_set]
    simp only [List.map_cons, List.mem_cons]
    split_ifs <;> simp_all

theorem char_nulterminate (cmd : Cmd) (line : Line) (i : Nat) :
    (nulterminate cmd line).char i = if i ∈ cmd.ends then 0 else line.char i := by
  induction cmd generalizing line with
  | exec argv => exact char_foldl_set argv line i
  | redir cmd file efile mode fd ih =>
    rw [nulterminate, char_set, ih]
    simp only [Cmd.ends, List.mem_append, List.mem_singleton]
    split_ifs <;> simp_all
  | pipe left right ihl ihr =>
    rw [nulterminate, ihr, ihl]
    simp only [Cmd.ends, List.mem_append]
    split_ifs <;> simp_all
  | list left right ihl ihr =>
    rw [nulterminate, ihr, ihl]
    simp only [Cmd.ends, List.mem_append]
    split_ifs <;> simp_all
  | back cmd ih => exact ih line

theorem Parsed.ends {cmd : Cmd} {command : Command} (h : Parsed line cmd command) :
    ∀ e ∈ cmd.ends, isWordChar (line.char e) = false := by
  induction h with
  | @exec argv words h =>
    generalize words.1 = words at h
    induction h with
    | nil => exact fun e he => absurd he List.not_mem_nil
    | cons hw _ ih =>
      intro e he
      rcases List.mem_cons.mp he with rfl | he
      · exact hw.stop
      · exact ih e he
  | redir _ hfile ih =>
    intro e he
    rcases List.mem_append.mp he with he | he
    · exact ih e he
    · obtain rfl := List.mem_singleton.mp he
      exact hfile.stop
  | pipe _ _ ihl ihr => exact fun e he => (List.mem_append.mp he).elim (ihl e) (ihr e)
  | list _ _ ihl ihr => exact fun e he => (List.mem_append.mp he).elim (ihl e) (ihr e)
  | back _ ih => exact ih

theorem string_of_char_eq_zero {q : Nat} (h : line.char q = 0) : line.string q = [] := by
  by_cases hq : q < line.length
  · have hget : (line)[q] = 0 := by
      rwa [Line.char, List.getD_eq_getElem?_getD, List.getElem?_eq_getElem hq] at h
    rw [Line.string, List.drop_eq_getElem_cons hq, hget]
    rfl
  · rw [Line.string, List.drop_of_length_le (by omega)]
    rfl

theorem string_of_char_ne_zero {q : Nat} (h : line.char q ≠ 0) :
    line.string q = line.char q :: line.string (q + 1) := by
  have hq : q < line.length := by
    by_contra hq
    exact h (by rw [Line.char, List.getD_eq_getElem?_getD, List.getElem?_eq_none (by omega)]; rfl)
  have hget : line.char q = (line)[q] := by
    rw [Line.char, List.getD_eq_getElem?_getD, List.getElem?_eq_getElem hq]
    rfl
  rw [hget] at h ⊢
  rw [Line.string, List.drop_eq_getElem_cons hq, List.takeWhile_cons_of_pos (by simpa using h)]
  rfl

theorem string_eq {bytes : List UInt8} {q : Nat} (hzero : ∀ c ∈ bytes, c ≠ 0)
    (hchars : ∀ i < bytes.length, line.char (q + i) = Line.char bytes i)
    (hend : line.char (q + bytes.length) = 0) : line.string q = bytes := by
  induction bytes generalizing q with
  | nil => exact string_of_char_eq_zero hend
  | cons c bytes ih =>
    have hc : line.char q = c := hchars 0 (Nat.succ_pos _)
    have hne : line.char q ≠ 0 := hc ▸ hzero c List.mem_cons_self
    rw [string_of_char_ne_zero hne, hc, ih (fun d hd => hzero d (List.mem_cons_of_mem c hd))]
    · intro i hi
      have := hchars (i + 1) (Nat.succ_lt_succ hi)
      rwa [← Nat.add_assoc, Nat.add_right_comm] at this
    · rwa [List.length_cons, ← Nat.add_assoc, Nat.add_right_comm] at hend

theorem WordAt.string {line' : Line} {ends : List Nat} {q eq : Nat} {w : Word}
    (h : WordAt line q eq w)
    (hends : ∀ e ∈ ends, isWordChar (line.char e) = false) (heq : eq ∈ ends)
    (hline : ∀ i, line'.char i = if i ∈ ends then 0 else line.char i) :
    line'.string q = w.bytes := by
  have hchar : ∀ i (hi : i < w.bytes.length), Line.char w.bytes i = w.bytes[i] := by
    intro i hi
    rw [Line.char, List.getD_eq_getElem?_getD, List.getElem?_eq_getElem hi]
    rfl
  refine string_eq (fun c hc => ne_zero_of_wordChar (w.chars c hc)) (fun i hi => ?_) ?_
  · have hword : isWordChar (line.char (q + i)) = true := by
      rw [h.chars i hi, hchar i hi]
      exact w.chars _ (List.getElem_mem hi)
    have hnot : q + i ∉ ends := fun hmem => by
      rw [hends _ hmem] at hword
      cases hword
    rw [hline, if_neg hnot, h.chars i hi]
  · rw [hline, if_pos (h.length ▸ heq)]

theorem Parsed.node_eq {line' : Line} {ends : List Nat} {cmd : Cmd} {command : Command}
    (h : Parsed line cmd command)
    (hends : ∀ e ∈ ends, isWordChar (line.char e) = false) (hsub : ∀ e ∈ cmd.ends, e ∈ ends)
    (hline : ∀ i, line'.char i = if i ∈ ends then 0 else line.char i) :
    cmd.node line' = command.node := by
  induction h with
  | @exec argv words h =>
    rw [Cmd.node, Command.node]
    congr 1
    generalize words.1 = words at h ⊢
    induction h with
    | nil => rfl
    | cons hw _ ih =>
      rw [List.map_cons, List.map_cons,
        hw.string hends (hsub _ List.mem_cons_self) hline,
        ih fun e he => hsub e (List.mem_cons_of_mem _ he)]
  | redir _ hfile ih =>
    rw [Cmd.node, Command.node, ih fun e he => hsub e (List.mem_append_left _ he),
      hfile.string hends (hsub _ (List.mem_append_right _ List.mem_cons_self)) hline]
  | pipe _ _ ihl ihr =>
    rw [Cmd.node, Command.node, ihl fun e he => hsub e (List.mem_append_left _ he),
      ihr fun e he => hsub e (List.mem_append_right _ he)]
  | list _ _ ihl ihr =>
    rw [Cmd.node, Command.node, ihl fun e he => hsub e (List.mem_append_left _ he),
      ihr fun e he => hsub e (List.mem_append_right _ he)]
  | back _ ih => rw [Cmd.node, Command.node, ih hsub]

/-- Parsing the text of a command gives the command back, with its words as C strings. -/
theorem parsecmd_rendered (command : Command) (text : Line) (h : Rendered command.items text)
    (fuel : Nat) (hfuel : command.fuel ≤ fuel) :
    ∃ cmd line', parsecmd fuel text = .ok (cmd, line') ∧ cmd.node line' = command.node := by
  have hlen := strlen_eq h.ne_zero
  obtain ⟨cmd, s, hline, hcmd, hs⟩ := parses command text [] 0 fuel (.inl rfl)
    ⟨Nat.zero_le _, by rwa [List.append_nil, List.drop_zero]⟩ hfuel
  refine ⟨cmd, nulterminate cmd text, ?_,
    hcmd.node_eq hcmd.ends (fun _ he => he) (char_nulterminate cmd text)⟩
  obtain ⟨s', hle, hskip, ⟨-, hdrop⟩ | ⟨item, rest, hitem, -⟩⟩ := hs.skip_white
  · have hend : s' = text.length := le_antisymm hle (List.drop_eq_nil_iff.mp hdrop)
    rw [parsecmd, hlen, hline, ok_bind]
    simp only [peek, hskip, hend, ne_eq, not_true_eq_false, if_false]
    rfl
  · cases hitem

def spaced (items : List Item) : Line := items.flatMap fun item => 32 :: item.bytes

theorem rendered_spaced (items : List Item) : Rendered items (spaced items) := by
  induction items with
  | nil => exact .nil fun c hc => absurd hc List.not_mem_nil
  | cons item items ih =>
    change Rendered (item :: items) ([32] ++ (item.bytes ++ spaced items))
    refine .cons (List.all_eq_true.mp rfl) ?_ ih
    intro next hnext _
    cases items with
    | nil => cases hnext
    | cons item' items => exact ⟨32, rfl, by decide⟩

def listing : Command :=
  .pipe (.redir (.exec ⟨[⟨[108, 115], by simp, List.all_eq_true.mp rfl⟩,
      ⟨[45, 108], by simp, List.all_eq_true.mp rfl⟩], by decide⟩)
    .output ⟨[102], by simp, List.all_eq_true.mp rfl⟩) (.exec ⟨[], by decide⟩)

theorem parsecmd_rendered_listing : ∃ cmd line',
    parsecmd 15 (spaced listing.items) = .ok (cmd, line') ∧
      cmd.node line' = .pipe (.redir (.exec [[108, 115], [45, 108]]) [102] 0x201 1) (.exec []) :=
  parsecmd_rendered listing _ (rendered_spaced _) 15 (by decide)

end Xv6.Sh
