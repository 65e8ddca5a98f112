import Xv6.Runcmd

/-!
# What a command runs

A command stands for its programs, each with its input and its output. `runcmd` starts them with
just these as descriptors 0 and 1: `dup` and `open` return the descriptor that was closed before,
and no end of a pipe stays open in a process that does not use it.
-/

namespace Xv6.Sh

def Node.programs : Node → List Bool → Obj → Obj → List (List (List UInt8) × Obj × Obj)
  | .exec argv, _, i, o => if argv = [] then [] else [(argv, i, o)]
  | .redir cmd file mode fd, place, i, o =>
    if fd = 0 then cmd.programs (place ++ [false]) (.file file mode) o
    else cmd.programs (place ++ [false]) i (.file file mode)
  | .list left right, place, i, o =>
    left.programs (place ++ [false]) i o ++ right.programs (place ++ [true]) i o
  | .pipe left right, place, i, o =>
    left.programs (place ++ [false]) i (.pipe place true) ++
      right.programs (place ++ [true]) (.pipe place false) o
  | .back cmd, place, i, o => cmd.programs (place ++ [false]) i o

def started (t : Fds) (p : List (List UInt8) × Obj × Obj) : List (List UInt8) × Fds :=
  (p.1, fun fd => if fd = 0 then some p.2.1 else if fd = 1 then some p.2.2 else t fd)

variable {t t' : Fds} {i o : Obj} {fd p0 p1 : Nat} {place : List Bool}

theorem started_congr (h : ∀ fd, 1 < fd → t' fd = t fd) : started t' = started t := by
  funext p
  refine Prod.ext rfl (funext fun fd => ?_)
  simp only [started]
  split_ifs with hin hout
  · rfl
  · rfl
  · exact h fd (by omega)

theorem fdalloc_eq_some :
    fdalloc t = some fd ↔ fd < nofile ∧ t fd = none ∧ ∀ k < fd, t k ≠ none := by
  simp only [fdalloc, List.find?_range_eq_some, Option.isNone_iff_eq_none, List.mem_range,
    Bool.not_eq_true', Option.isNone_eq_false_iff, Option.isSome_iff_ne_none]
  tauto

theorem install_close (t : Fds) (hfd : fd < nofile) (hopen : ∀ k < fd, t k ≠ none) (x : Obj) :
    install (close t fd) x = some (fd, Function.update t fd (some x)) := by
  have halloc : fdalloc (close t fd) = some fd := by
    refine fdalloc_eq_some.mpr ⟨hfd, Function.update_self .., fun k hk => ?_⟩
    rw [close, Function.update_of_ne (by omega)]
    exact hopen k hk
  rw [install, halloc, Option.map_some, close, Function.update_idem]

theorem install_eq_some {x : Obj} (h : install t x = some (fd, t')) :
    t fd = none ∧ t' = Function.update t fd (some x) := by
  obtain ⟨k, hk, heq⟩ := Option.map_eq_some_iff.mp h
  cases heq
  exact ⟨(fdalloc_eq_some.mp hk).2.1, rfl⟩

theorem pipe_eq_some (h : pipe t place = some (p0, p1, t')) :
    t p0 = none ∧ t p1 = none ∧ p0 ≠ p1 ∧
      t' = Function.update (Function.update t p0 (some (.pipe place false))) p1
        (some (.pipe place true)) := by
  simp only [pipe, Option.bind_eq_some_iff, Option.map_eq_some_iff, Prod.exists,
    Prod.mk.injEq] at h
  obtain ⟨r, t1, hr, w, t2, hw, rfl, rfl, rfl⟩ := h
  obtain ⟨hnone, rfl⟩ := install_eq_some hr
  obtain ⟨hnone', rfl⟩ := install_eq_some hw
  have hne : w ≠ r := by
    rintro rfl
    simp at hnone'
  rw [Function.update_of_ne hne] at hnone'
  exact ⟨hnone, hnone', hne.symm, rfl⟩

theorem pipe_side (hfd : fd ≤ 1) (h0 : t 0 = some i) (h1 : t 1 = some o)
    (h : pipe t place = some (p0, p1, t')) (b : Bool) :
    close (close (dup (close t' fd) (if b then p1 else p0)) p0) p1 =
      Function.update t fd (some (.pipe place b)) := by
  obtain ⟨hp0, hp1, hne, ht'⟩ := pipe_eq_some h
  have hends : ∀ k, t k ≠ none → k ≠ p0 ∧ k ≠ p1 ∧ t' k = t k := by
    intro k hk
    have hk0 : k ≠ p0 := fun heq => hk (heq ▸ hp0)
    have hk1 : k ≠ p1 := fun heq => hk (heq ▸ hp1)
    exact ⟨hk0, hk1, by rw [ht', Function.update_of_ne hk1, Function.update_of_ne hk0]⟩
  have hopen : t 0 ≠ none ∧ t 1 ≠ none := by simp [h0, h1]
  have hread : close t' fd (if b then p1 else p0) = some (.pipe place b) := by
    simp only [close, ht', Function.update_apply]
    grind
  have hbelow : ∀ k < fd, t' k ≠ none := by grind
  have hdup := install_close t' (by unfold nofile; omega) hbelow (.pipe place b)
  rw [dup, hread, Option.bind_some, hdup]
  funext k
  simp only [close, ht', Option.map_some, Option.getD_some, Function.update_apply]
  grind

def Room (t : Fds) : Prop := ∃ p q, p < q ∧ q < nofile ∧ t p = none ∧ t q = none

theorem exists_install (hfd : fd < nofile) (hfree : t fd = none) (x : Obj) :
    ∃ k ≤ fd, install t x = some (k, Function.update t k (some x)) := by
  have hex : ∃ k, t k = none := ⟨fd, hfree⟩
  have hle : Nat.find hex ≤ fd := Nat.find_min' hex hfree
  refine ⟨Nat.find hex, hle, ?_⟩
  have halloc : fdalloc t = some (Nat.find hex) :=
    fdalloc_eq_some.mpr ⟨by omega, Nat.find_spec hex, fun _ hk => Nat.find_min hex hk⟩
  rw [install, halloc, Option.map_some]

theorem Room.pipe (h : Room t) (place : List Bool) :
    ∃ p0 p1 t', pipe t place = some (p0, p1, t') := by
  obtain ⟨p, q, hpq, hq, hp, hq'⟩ := h
  obtain ⟨r, hr, hinst⟩ := exists_install (by omega) hp (.pipe place false)
  obtain ⟨w, -, hinst'⟩ := exists_install hq
    (t := Function.update t r (some (.pipe place false)))
    (by rw [Function.update_of_ne (by omega)]; exact hq') (.pipe place true)
  exact ⟨r, w, _, by rw [Sh.pipe, hinst, Option.bind_some, hinst', Option.map_some]⟩

variable {ok : List Bool → Call → Bool} {calls calls' : List (List (List UInt8) × Fds)}
  {ps ps' : List (List (List UInt8) × Obj × Obj)}

def Runs (ok : List Bool → Call → Bool) (t : Fds) (calls : List (List (List UInt8) × Fds))
    (ps : List (List (List UInt8) × Obj × Obj)) : Prop :=
  calls.Sublist (ps.map (started t)) ∧
    ((∀ w k, ok w k = true) → Room t → calls = ps.map (started t))

namespace Runs

theorem guard (h : Runs ok t calls ps) (k : Call) :
    Runs ok t (if ok place k then calls else []) ps := by
  refine ⟨?_, fun hok hroom => ?_⟩
  · split
    · exact h.1
    · exact List.nil_sublist _
  · rw [hok, if_pos rfl]
    exact h.2 hok hroom

theorem append (h : Runs ok t calls ps) (h' : Runs ok t calls' ps') :
    Runs ok t (calls ++ calls') (ps ++ ps') := by
  refine ⟨?_, fun hok hroom => ?_⟩
  · rw [List.map_append]
    exact h.1.append h'.1
  · rw [List.map_append, h.2 hok hroom, h'.2 hok hroom]

theorem replace {x : Obj} (h : Runs ok (Function.update t fd (some x)) calls ps) (hfd : fd ≤ 1)
    (hopen : t fd ≠ none) : Runs ok t calls ps := by
  have hsame : started (Function.update t fd (some x)) = started t :=
    started_congr fun k hk => Function.update_of_ne (by omega) ..
  unfold Runs at h
  rw [hsame] at h
  refine ⟨h.1, fun hok hroom => h.2 hok ?_⟩
  obtain ⟨p, q, hpq, hq, hp, hq'⟩ := hroom
  refine ⟨p, q, hpq, hq, ?_, ?_⟩
  · rwa [Function.update_of_ne (by rintro rfl; exact hopen hp)]
  · rwa [Function.update_of_ne (by rintro rfl; exact hopen hq')]

end Runs

theorem open_update (hopen : ∀ k ≤ 1, t k ≠ none) (fd : Nat) (x : Obj) :
    ∀ k ≤ 1, Function.update t fd (some x) k ≠ none := by
  intro k hk
  rw [Function.update_apply]
  split
  · exact Option.some_ne_none x
  · exact hopen k hk

/-- `runcmd` starts programs of the command, each with its input and output; all of them unless a
call fails. -/
theorem runcmd_programs (ok : List Bool → Call → Bool) (c : Command) (place : List Bool) {t : Fds}
    {i o : Obj} (h0 : t 0 = some i) (h1 : t 1 = some o) :
    Runs ok t (runcmd ok c.node place t) (c.node.programs place i o) := by
  have hopen : ∀ fd ≤ 1, t fd ≠ none := by
    intro fd hfd
    rcases Nat.le_one_iff_eq_zero_or_eq_one.mp hfd with rfl | rfl
    · simp [h0]
    · simp [h1]
  induction c generalizing place t i o with
  | exec words =>
    have hself : ∀ argv, started t (argv, i, o) = (argv, t) := by
      intro argv
      refine Prod.ext rfl (funext fun fd => ?_)
      simp only [started]
      split_ifs with hin hout
      · rw [hin, h0]
      · rw [hout, h1]
      · rfl
    simp only [Command.node, runcmd, Node.programs]
    split <;> simp [Runs, hself]
  | redir cmd kind file ih =>
    have hfd : kind.fd = 0 ∨ kind.fd = 1 := by cases kind <;> simp [RedirKind.fd]
    have hinst := install_close t (by unfold nofile; omega : kind.fd < nofile)
      (fun k hk => hopen k (by omega)) (.file file.bytes kind.mode)
    simp only [Command.node, runcmd, Node.programs, hinst]
    refine Runs.guard (.replace (x := .file file.bytes kind.mode) ?_ (by omega)
      (hopen kind.fd (by omega))) _
    rcases hfd with hfd | hfd <;> rw [hfd]
    · exact ih _ (Function.update_self ..) ((Function.update_of_ne (by decide) ..).trans h1)
        (open_update hopen 0 _)
    · exact ih _ ((Function.update_of_ne (by decide) ..).trans h0) (Function.update_self ..)
        (open_update hopen 1 _)
  | pipe left right ihl ihr =>
    simp only [Command.node, runcmd, Node.programs]
    refine Runs.guard ?_ _
    cases hpipe : Sh.pipe t place with
    | none =>
      refine ⟨List.nil_sublist _, fun _ hroom => ?_⟩
      obtain ⟨p0, p1, t', hsome⟩ := hroom.pipe place
      rw [hpipe] at hsome
      cases hsome
    | some r =>
      have hleft := pipe_side (by decide : 1 ≤ 1) h0 h1 hpipe true
      have hright := pipe_side (by decide : 0 ≤ 1) h0 h1 hpipe false
      simp only [if_true, Bool.false_eq_true, if_false] at hleft hright
      simp only [hleft, hright]
      refine Runs.guard (.append
        (.replace (x := .pipe place true) ?_ (by decide) (hopen 1 (by decide)))
        (.guard (.replace (x := .pipe place false) ?_ (by decide) (hopen 0 (by decide))) _)) _
      · exact ihl _ ((Function.update_of_ne (by decide) ..).trans h0)
          (Function.update_self ..) (open_update hopen 1 _)
      · exact ihr _ (Function.update_self ..)
          ((Function.update_of_ne (by decide) ..).trans h1) (open_update hopen 0 _)
  | list left right ihl ihr => exact .guard (.append (ihl _ h0 h1 hopen) (ihr _ h0 h1 hopen)) _
  | back cmd ih => exact .guard (ih _ h0 h1 hopen) _

def shellFds : Fds := fun fd => if fd < 3 then some (.inherited fd) else none

theorem runcmd_programs_listing : Runs (fun _ _ => true) shellFds
    (runcmd (fun _ _ => true) listing.node [] shellFds)
    [([[108, 115], [45, 108]], .inherited 0, .file [102] 0x201)] :=
  runcmd_programs _ listing [] rfl rfl

end Xv6.Sh
