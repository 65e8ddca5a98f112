import Mathlib.Data.List.Basic
import Mathlib.Data.UInt
import Xv6.Mp

/-!
# Which tables mpinit survives

The entries behind the header of a configuration table are of five kinds, each with a size. The loop
of `mpinit` ends, stays inside the table and inside `cpus` exactly when the table is a sequence of
such entries with at most `nCpu` processors. The last entry may be cut off behind the bytes that are
looked at.
-/

namespace Xv6.Mp

inductive Kind
  | proc
  | bus
  | ioapic
  | iointr
  | lintr
  deriving DecidableEq

namespace Kind

def code : Kind → UInt8
  | .proc => mpProc
  | .bus => mpBus
  | .ioapic => mpIoapic
  | .iointr => mpIointr
  | .lintr => mpLintr

def size : Kind → Nat
  | .proc => 20
  | _ => 8

def offsets : Kind → List Nat
  | .proc => [0, 1, 3]
  | .ioapic => [0, 1]
  | _ => [0]

def needed : Kind → Nat
  | .proc => 4
  | .ioapic => 2
  | _ => 1

def processors : Kind → Nat
  | .proc => 1
  | _ => 0

end Kind

/-- The bytes behind the header are entries, with a number of processors among them. -/
inductive Body : List UInt8 → Nat → Prop
  | nil : Body [] 0
  /-- The last entry, which may be cut off. -/
  | last (k : Kind) (rest : List UInt8) (hneeded : k.needed ≤ rest.length + 1)
      (hsize : rest.length + 1 ≤ k.size) : Body (k.code :: rest) k.processors
  | cons (k : Kind) (rest more : List UInt8) (n : Nat) (hsize : rest.length + 1 = k.size)
      (hmore : Body more n) : Body (k.code :: rest ++ more) (k.processors + n)

def bytesFrom (conf : Block) (p : Nat) : List UInt8 :=
  (List.range (confLength conf - p)).map fun i => conf (p + i)

theorem length_bytesFrom (conf : Block) (p : Nat) :
    (bytesFrom conf p).length = confLength conf - p := by
  rw [bytesFrom, List.length_map, List.length_range]

theorem bytesFrom_of_le {conf : Block} {p : Nat} (h : confLength conf ≤ p) :
    bytesFrom conf p = [] := by
  rw [← List.length_eq_zero_iff, length_bytesFrom]
  omega

theorem bytesFrom_of_lt {conf : Block} {p : Nat} (h : p < confLength conf) :
    bytesFrom conf p = conf p :: bytesFrom conf (p + 1) := by
  rw [bytesFrom, show confLength conf - p = confLength conf - (p + 1) + 1 by omega,
    List.range_succ_eq_map, List.map_cons, List.map_map, bytesFrom]
  congr 1
  apply List.map_congr_left
  intro i _
  exact congrArg conf (by simp only [Nat.succ_eq_add_one]; omega)

theorem drop_bytesFrom (conf : Block) (p n : Nat) :
    (bytesFrom conf p).drop n = bytesFrom conf (p + n) := by
  induction n generalizing p with
  | zero => rfl
  | succ n ih =>
    by_cases h : p < confLength conf
    · rw [bytesFrom_of_lt h, List.drop_succ_cons, ih, Nat.add_right_comm, Nat.add_assoc]
    · rw [bytesFrom_of_le (by omega), bytesFrom_of_le (by omega), List.drop_nil]

def cpuWrites (ncpu n : Nat) : List (Nat × UInt8) :=
  (List.range n).map fun i => (ncpu + i, UInt8.ofNat (ncpu + i))

theorem cpuWrites_add (ncpu m n : Nat) :
    cpuWrites ncpu (m + n) = cpuWrites ncpu m ++ cpuWrites (ncpu + m) n := by
  rw [cpuWrites, List.range_add, List.map_append, List.map_map]
  congr 1
  apply List.map_congr_left
  intro i _
  simp only [Function.comp, Nat.add_assoc]

def Kind.step (conf : Block) (p : Nat) (s : State) : Kind → State
  | .proc => procEntry conf p s
  | .ioapic => { s with ioapicid := conf (p + 1), reads := s.reads ++ [p, p + 1] }
  | _ => { s with reads := s.reads ++ [p] }

section Round

variable {conf : Block} {p fuel : Nat} {s : State}

theorem entryLoop_kind (k : Kind) (hp : p < confLength conf) (hk : conf p = k.code) :
    entryLoop conf (fuel + 1) p s = entryLoop conf fuel (p + k.size) (k.step conf p s) := by
  rw [entryLoop, if_pos hp, hk]
  cases k <;> rfl

theorem entryLoop_end (hp : confLength conf ≤ p) : entryLoop conf (fuel + 1) p s = some s := by
  rw [entryLoop, if_neg (by omega)]

theorem entryLoop_unknown (hp : p < confLength conf) (hk : ∀ k : Kind, conf p ≠ k.code) :
    entryLoop conf fuel p s = none := by
  induction fuel generalizing s with
  | zero => rfl
  | succ fuel ih =>
    have hother : ¬(conf p = mpBus ∨ conf p = mpIointr ∨ conf p = mpLintr) := by
      rintro (h | h | h)
      · exact hk .bus h
      · exact hk .iointr h
      · exact hk .lintr h
    have hproc : conf p ≠ mpProc := hk .proc
    have hioapic : conf p ≠ mpIoapic := hk .ioapic
    rw [entryLoop, if_pos hp, if_neg hproc, if_neg hioapic, if_neg hother]
    exact ih

theorem Kind.step_reads (k : Kind) :
    (k.step conf p s).reads = s.reads ++ k.offsets.map (p + ·) := by
  cases k <;> rfl

theorem Kind.step_ncpu (k : Kind) : (k.step conf p s).ncpu = s.ncpu + k.processors := by
  cases k <;> rfl

theorem Kind.step_writes (k : Kind) :
    (k.step conf p s).writes = s.writes ++ cpuWrites s.ncpu k.processors := by
  cases k <;> simp [Kind.step, Kind.processors, procEntry, cpuWrites]

theorem Kind.lt_needed {k : Kind} {i : Nat} (h : i ∈ k.offsets) : i < k.needed := by
  cases k <;> simp [offsets] at h <;> simp [needed] <;> omega

theorem Kind.pred_needed_mem (k : Kind) : k.needed - 1 ∈ k.offsets := by cases k <;> decide

theorem Kind.needed_le_size (k : Kind) : k.needed ≤ k.size := by cases k <;> decide

theorem Kind.needed_pos (k : Kind) : 0 < k.needed := by cases k <;> decide

end Round

theorem entryLoop_of_body {conf : Block} {b : List UInt8} {n : Nat} (h : Body b n) :
    ∀ (p fuel : Nat) (s : State), bytesFrom conf p = b → b.length < fuel →
      ∃ s' reads, entryLoop conf fuel p s = some s' ∧ s'.reads = s.reads ++ reads ∧
        (∀ a ∈ reads, a < confLength conf) ∧ s'.ncpu = s.ncpu + n ∧
        s'.writes = s.writes ++ cpuWrites s.ncpu n := by
  -- what holds of the bytes an entry at `p` shows
  have hinside : ∀ (k : Kind) (p : Nat), p + k.needed ≤ confLength conf →
      ∀ a ∈ k.offsets.map (p + ·), a < confLength conf := by
    intro k p hneeded a ha
    obtain ⟨i, hi, rfl⟩ := List.mem_map.mp ha
    have := Kind.lt_needed hi
    omega
  have hstart : ∀ {p : Nat} {c : UInt8} {rest : List UInt8}, bytesFrom conf p = c :: rest →
      conf p = c ∧ bytesFrom conf (p + 1) = rest ∧ p + rest.length + 1 = confLength conf := by
    intro p c rest hb
    have hlen := congrArg List.length hb
    rw [length_bytesFrom, List.length_cons] at hlen
    rw [bytesFrom_of_lt (by omega)] at hb
    obtain ⟨hc, hrest⟩ := List.cons.inj hb
    exact ⟨hc, hrest, by omega⟩
  induction h with
  | nil =>
    intro p fuel s hb hfuel
    obtain ⟨fuel, rfl⟩ := Nat.exists_eq_add_of_lt hfuel
    have hp : confLength conf ≤ p := by
      have hlen := congrArg List.length hb
      rw [length_bytesFrom, List.length_nil] at hlen
      omega
    refine ⟨s, [], entryLoop_end hp, (List.append_nil _).symm, nofun, rfl, ?_⟩
    exact (List.append_nil _).symm
  | last k rest hneeded hsize =>
    intro p fuel s hb hfuel
    obtain ⟨hc, -, hlen⟩ := hstart hb
    rw [List.length_cons] at hfuel
    obtain ⟨fuel, rfl⟩ : ∃ f, fuel = f + 1 + 1 := ⟨fuel - 2, by omega⟩
    refine ⟨k.step conf p s, k.offsets.map (p + ·), ?_, k.step_reads, ?_, k.step_ncpu,
      k.step_writes⟩
    · rw [entryLoop_kind k (by omega) hc, entryLoop_end (by omega)]
    · exact hinside k p (by omega)
  | cons k rest more n hsize hmore ih =>
    intro p fuel s hb hfuel
    rw [List.cons_append] at hb hfuel
    obtain ⟨hc, hrest, hlen⟩ := hstart hb
    rw [List.length_cons, List.length_append] at hfuel
    rw [List.length_append] at hlen
    obtain ⟨fuel, rfl⟩ : ∃ f, fuel = f + 1 := ⟨fuel - 1, by omega⟩
    have hnext : bytesFrom conf (p + k.size) = more := by
      rw [← hsize, Nat.add_comm rest.length, ← Nat.add_assoc, ← drop_bytesFrom, hrest,
        List.drop_left]
    have hneeded := k.needed_le_size
    obtain ⟨s', reads, hloop, hreads, hin, hncpu, hwrites⟩ :=
      ih _ fuel (k.step conf p s) hnext (by omega)
    refine ⟨s', k.offsets.map (p + ·) ++ reads, ?_, ?_, ?_, ?_, ?_⟩
    · rw [entryLoop_kind k (by omega) hc, hloop]
    · rw [hreads, k.step_reads, List.append_assoc]
    · intro a ha
      rcases List.mem_append.mp ha with ha | ha
      · exact hinside k p (by omega) a ha
      · exact hin a ha
    · rw [hncpu, k.step_ncpu, Nat.add_assoc]
    · rw [hwrites, k.step_writes, k.step_ncpu, cpuWrites_add, List.append_assoc]

theorem Body.eq_zero {n : Nat} (h : Body [] n) : n = 0 := by
  cases h
  rfl

theorem body_of_entryLoop {conf : Block} {fuel p : Nat} {s s' : State}
    (h : entryLoop conf fuel p s = some s') (hreads : ∀ a ∈ s'.reads, a < confLength conf) :
    ∃ n, Body (bytesFrom conf p) n ∧ (∀ a ∈ s.reads, a ∈ s'.reads) ∧
      s'.writes = s.writes ++ cpuWrites s.ncpu n := by
  induction fuel generalizing p s with
  | zero => cases h
  | succ fuel ih =>
    by_cases hp : p < confLength conf
    · by_cases hk : ∃ k : Kind, conf p = k.code
      · obtain ⟨k, hk⟩ := hk
        rw [entryLoop_kind k hp hk] at h
        obtain ⟨n, hbody, hsub, hwrites⟩ := ih h
        have hwrites' : s'.writes = s.writes ++ cpuWrites s.ncpu (k.processors + n) := by
          rw [hwrites, k.step_writes, k.step_ncpu, cpuWrites_add, List.append_assoc]
        have hall : ∀ a ∈ s.reads ++ k.offsets.map (p + ·), a ∈ s'.reads := by
          intro a ha
          apply hsub
          rwa [k.step_reads]
        refine ⟨k.processors + n, ?_, fun a ha => hall a (List.mem_append_left _ ha), hwrites'⟩
        have hlen := length_bytesFrom conf (p + 1)
        have hsize : 0 < k.size := k.needed_pos.trans_le k.needed_le_size
        rw [bytesFrom_of_lt hp, hk]
        by_cases hwhole : p + k.size ≤ confLength conf
        · have hsplit : bytesFrom conf (p + 1) =
              (bytesFrom conf (p + 1)).take (k.size - 1) ++ bytesFrom conf (p + k.size) := by
            rw [show p + k.size = p + 1 + (k.size - 1) by omega,
              ← drop_bytesFrom conf (p + 1), List.take_append_drop]
          rw [hsplit, ← List.cons_append]
          apply Body.cons _ _ _ _ _ hbody
          rw [List.length_take]
          omega
        · -- the entry is the last one, and the bytes looked at are there
          rw [bytesFrom_of_le (by omega)] at hbody
          cases hbody.eq_zero
          have hlast := hreads _ (hall _ (List.mem_append_right _
            (List.mem_map.mpr ⟨_, k.pred_needed_mem, rfl⟩)))
          have := k.needed_pos
          exact Body.last k _ (by omega) (by omega)
      · rw [entryLoop_unknown hp fun k hc => hk ⟨k, hc⟩] at h
        cases h
    · rw [entryLoop_end (by omega)] at h
      cases h
      refine ⟨0, ?_, fun a ha => ha, (List.append_nil _).symm⟩
      rw [bytesFrom_of_le (by omega)]
      exact .nil

theorem mpinit_of_mpconfig {mem conf : Block} (h : mpconfig mem = some conf) (fuel : Nat) :
    mpinit fuel mem = (entryLoop conf fuel sizeofMpconf (.found conf)).map State.finish := by
  rw [mpinit, h]

theorem State.finish_reads (s : State) : s.finish.reads = s.reads := by
  rw [finish]
  split_ifs <;> rfl

theorem State.finish_writes (s : State) : s.finish.writes = s.writes := by
  rw [finish]
  split_ifs <;> rfl

theorem State.finish_ncpu_le {s : State} (h : s.ncpu ≤ nCpu) : s.finish.ncpu ≤ nCpu := by
  rw [finish]
  split_ifs
  · exact h
  · change 1 ≤ nCpu
    decide

/-- For a table that passes the tests, the call returns, and reads only inside the table and writes
only inside `cpus`, exactly when the table is a sequence of entries with at most `nCpu`
processors. -/
theorem mpinit_total_iff {mem conf : Block} (hconf : mpconfig mem = some conf) :
    (∃ fuel s, mpinit fuel mem = some s ∧ (∀ a ∈ s.reads, a < confLength conf) ∧
        (∀ x ∈ s.writes, x.1 < nCpu) ∧ s.ncpu ≤ nCpu) ↔
      ∃ n ≤ nCpu, Body (bytesFrom conf sizeofMpconf) n := by
  constructor
  · rintro ⟨fuel, s, hinit, hreads, hwrites, -⟩
    rw [mpinit_of_mpconfig hconf] at hinit
    obtain ⟨s1, hloop, rfl⟩ := Option.map_eq_some_iff.mp hinit
    rw [s1.finish_reads] at hreads
    rw [s1.finish_writes] at hwrites
    obtain ⟨n, hbody, -, hw⟩ := body_of_entryLoop hloop hreads
    refine ⟨n, ?_, hbody⟩
    -- the last processor has the highest index
    rcases Nat.eq_zero_or_pos n with rfl | hpos
    · exact Nat.zero_le _
    · have hmem : (0 + (n - 1), UInt8.ofNat (0 + (n - 1))) ∈ s1.writes := by
        rw [hw]
        exact List.mem_append_right _
          (List.mem_map.mpr ⟨n - 1, List.mem_range.mpr (by omega), rfl⟩)
      have := hwrites _ hmem
      omega
  · rintro ⟨n, hn, hbody⟩
    obtain ⟨s, reads, hloop, hreads, hin, hncpu, hwrites⟩ := entryLoop_of_body hbody sizeofMpconf
      ((bytesFrom conf sizeofMpconf).length + 1) (.found conf) rfl (Nat.lt_succ_self _)
    refine ⟨_, s.finish, by rw [mpinit_of_mpconfig hconf, hloop]; rfl, ?_, ?_, ?_⟩
    · rw [s.finish_reads, hreads]
      exact hin
    · rw [s.finish_writes, hwrites]
      intro x hx
      obtain ⟨i, hi, rfl⟩ := List.mem_map.mp hx
      have := List.mem_range.mp hi
      change 0 + i < nCpu
      omega
    · apply State.finish_ncpu_le
      rw [hncpu]
      change 0 + n ≤ nCpu
      omega

def sampleTable (body : List UInt8) : List UInt8 :=
  let front : List UInt8 := confSignature ++ [UInt8.ofNat (sizeofMpconf + body.length), 0, 4]
  front ++ [0 - (front ++ body).sum] ++ List.replicate 36 0 ++ body

/-- The table at `0x9fd00`, and the structure that points to it at the start of the extended BIOS
data area. -/
def sampleMem (body : List UInt8) : Block := fun a =>
  if a = 0x40e then 0xc0
  else if a = 0x40f then 0x9f
  else if 0x9fd00 ≤ a then (sampleTable body).getD (a - 0x9fd00) 0
  else if 0x9fc00 ≤ a then
    (mpSignature ++ [0, 0xfd, 9, 0, 1, 4, 154, 0, 0, 0, 0, 0]).getD (a - 0x9fc00) 0
  else 0

theorem mpconfig_of_valid {mem : Block} (mp a : Nat) (hmp : mpsearch mem = some mp)
    (ha : getLE (bytesAt mem mp) 4 4 = a) (hne : a ≠ 0)
    (hvalid : validConf (bytesAt mem a) = true) :
    mpconfig mem = some (bytesAt mem a) := by
  rw [mpconfig, hmp]
  change (if getLE (bytesAt mem mp) 4 4 = 0 then none else _) = _
  rw [ha, if_neg hne, if_pos hvalid]

def samplePair : List UInt8 :=
  (0 :: 0 :: 0 :: 3 :: List.replicate 16 0) ++ (0 :: 1 :: 0 :: 1 :: List.replicate 16 0) ++
    (1 :: List.replicate 7 0)

theorem mpinit_total_pair :
    ∃ fuel s, mpinit fuel (sampleMem samplePair) = some s ∧
      (∀ a ∈ s.reads, a < confLength (bytesAt (sampleMem samplePair) 0x9fd00)) ∧
      (∀ x ∈ s.writes, x.1 < nCpu) ∧ s.ncpu ≤ nCpu := by
  have hconf : mpconfig (sampleMem samplePair) = some (bytesAt (sampleMem samplePair) 0x9fd00) :=
    mpconfig_of_valid 0x9fc00 0x9fd00 (by decide) (by decide +kernel) (by decide)
      (by decide +kernel)
  apply (mpinit_total_iff hconf).mpr
  refine ⟨2, by decide, ?_⟩
  have hbytes : bytesFrom (bytesAt (sampleMem samplePair) 0x9fd00) sizeofMpconf = samplePair := by
    decide
  rw [hbytes]
  exact .cons .proc (0 :: 0 :: 3 :: List.replicate 16 0) _ 1 rfl
    (.cons .proc (1 :: 0 :: 1 :: List.replicate 16 0) _ 0 rfl
      (.last .bus (List.replicate 7 0) (by decide) (by decide)))

/-- A byte that is no type of an entry is met forever. Nine processors fill an element behind
`cpus`. And the entry of a processor that is cut off after its first byte is read behind the end of
the table. -/
theorem mpinit_not_total :
    ((mpconfig (sampleMem [5])).isSome = true ∧ ∀ fuel, mpinit fuel (sampleMem [5]) = none) ∧
    ((mpconfig (sampleMem (List.replicate 180 0))).isSome = true ∧
      ((mpinit 20 (sampleMem (List.replicate 180 0))).any fun s =>
        (nCpu, 8) ∈ s.writes) = true) ∧
    (((mpconfig (sampleMem [0])).map confLength) = some 45 ∧
      ((mpinit 20 (sampleMem [0])).any fun s => 47 ∈ s.reads) = true) := by
  refine ⟨⟨by decide, fun fuel => ?_⟩, by decide +kernel, by decide +kernel⟩
  have hconf : mpconfig (sampleMem [5]) = some (bytesAt (sampleMem [5]) 0x9fd00) :=
    mpconfig_of_valid 0x9fc00 0x9fd00 (by decide) (by decide +kernel) (by decide)
      (by decide)
  have hbyte : bytesAt (sampleMem [5]) 0x9fd00 sizeofMpconf = 5 := by decide
  have hlen : sizeofMpconf < confLength (bytesAt (sampleMem [5]) 0x9fd00) := by decide
  rw [mpinit_of_mpconfig hconf, entryLoop_unknown hlen]
  · rfl
  · intro k
    rw [hbyte]
    cases k <;> decide

end Xv6.Mp
