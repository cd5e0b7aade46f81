import OnePass.Proofs.Machine.Execution

namespace OnePass.Machine

open Assembler Assembly Source

variable {I J : Machine → Prop} {m m' : Machine}

theorem Path.mono (h : Path I m m') (hIJ : ∀ m, I m → J m) : Path J m m' := by
  induction h with
  | refl => exact .refl _
  | step hm hr hs _ ih => exact .step (hIJ _ hm) hr hs ih

/-- A run follows a path. -/
theorem Path.runFor_eq (h : Path I m m') :
    ∃ n, ∀ limit k, runFor limit (n + k) m = runFor limit k m' := by
  induction h with
  | refl m => exact ⟨0, fun limit k => by rw [Nat.zero_add]⟩
  | step _ hr hs _ ih =>
    obtain ⟨n, hn⟩ := ih
    refine ⟨n + 1, fun limit k => ?_⟩
    rw [Nat.add_right_comm, runFor, hr, hs]
    exact hn limit k

theorem runFor_halted (h : m.halted = true) (limit : Word) (k : Nat) :
    runFor limit k m = (none, m) := by
  cases k <;> simp [runFor, h]

/-- How a run ends that follows a path to a step that halts the machine. -/
theorem Path.runFor_stop {f : Option Fault} {m'' : Machine} (h : Path I m m')
    (hr : m'.halted = false) (hs : m'.step = (f, m'')) (hh : m''.halted = true) :
    ∃ N, 0 < N ∧ ∀ limit n, N ≤ n → runFor limit n m = (f, m'') := by
  obtain ⟨k, hk⟩ := h.runFor_eq
  refine ⟨k + 1, Nat.succ_pos k, fun limit n hn => ?_⟩
  obtain ⟨j, rfl⟩ := Nat.exists_eq_add_of_le hn
  rw [Nat.add_assoc, hk, Nat.add_comm, runFor, hr, hs]
  cases f with
  | none => exact runFor_halted hh limit j
  | some f => rfl

/-- The next `n` steps start in states that keep the invariant, and none of them fails. -/
def Lasts (I : Machine → Prop) : Nat → Machine → Prop
  | 0, _ => True
  | n + 1, m => I m ∧ m.halted = false ∧ ∃ m', m.step = (none, m') ∧ Lasts I n m'

theorem Lasts.pred {n : Nat} (h : Lasts I (n + 1) m) : Lasts I n m := by
  induction n generalizing m with
  | zero => trivial
  | succ n ih =>
    obtain ⟨hI, hr, m', hs, hm'⟩ := h
    exact ⟨hI, hr, m', hs, ih hm'⟩

theorem Path.lasts {n : Nat} (h : Path I m m') (hm' : Lasts I n m') : Lasts I n m := by
  induction h with
  | refl => exact hm'
  | step hI hr hs _ ih => exact Lasts.pred ⟨hI, hr, _, hs, ih hm'⟩

/-- A path between two machines has a step. -/
theorem Path.lasts_succ {n : Nat} (h : Path I m m') (hne : m ≠ m') (hm' : Lasts I n m') :
    Lasts I (n + 1) m := by
  cases h with
  | refl => exact absurd rfl hne
  | step hI hr hs h => exact ⟨hI, hr, _, hs, h.lasts hm'⟩

theorem Lasts.runFor_eq {n : Nat} (h : Lasts I (n + 1) m) (limit : Word) :
    (runFor limit n m).1 = some (.stepLimit limit) := by
  induction n generalizing m with
  | zero => rw [runFor, h.2.1]; rfl
  | succ n ih =>
    obtain ⟨-, hr, m', hs, hm'⟩ := h
    rw [runFor, hr, hs]
    exact ih hm'

/-- The machine after `n` steps. -/
def afterSteps : Nat → Machine → Machine
  | 0, m => m
  | n + 1, m => afterSteps n m.step.2

theorem Lasts.afterSteps {n : Nat} (h : Lasts I (n + 1) m) :
    I (m.afterSteps n) ∧ (m.afterSteps n).step.1 = none := by
  induction n generalizing m with
  | zero =>
    obtain ⟨hI, -, m', hs, -⟩ := h
    exact ⟨hI, by rw [Machine.afterSteps, hs]⟩
  | succ n ih =>
    obtain ⟨-, -, m', hs, hm'⟩ := h
    rw [Machine.afterSteps, hs]
    exact ih hm'

theorem afterSteps_halted (h : m.halted = true) (n : Nat) : m.afterSteps n = m := by
  induction n with
  | zero => rfl
  | succ n ih =>
    have hs : m.step = (none, m) := by simp [step, h]
    rw [afterSteps, hs, ih]

/-- The states on the way along a path to a step that halts, and behind it. -/
theorem Path.afterSteps {f : Option Fault} {m'' : Machine} (h : Path I m m') (hI : I m')
    (hs : m'.step = (f, m'')) (hh : m''.halted = true) (n : Nat) :
    (I (m.afterSteps n) ∧ ((m.afterSteps n).step.1 = none ∨ (m.afterSteps n).step.1 = f)) ∨
      m.afterSteps n = m'' := by
  induction h generalizing n with
  | refl m =>
    cases n with
    | zero => exact .inl ⟨hI, .inr (by rw [Machine.afterSteps, hs])⟩
    | succ n =>
      rw [Machine.afterSteps, hs]
      exact .inr (afterSteps_halted hh n)
  | step hm _ hstep _ ih =>
    cases n with
    | zero => exact .inl ⟨hm, .inl (by rw [Machine.afterSteps, hstep])⟩
    | succ n =>
      rw [Machine.afterSteps, hstep]
      exact ih hI hs n

/-- The machine after the printed lines `before`, with another bound on its steps. -/
def resumed (before : Array Word) (bound : Word) (m : Machine) : Machine :=
  { m with output := before ++ m.output, maxSteps := bound }

section

variable {before : Array Word} {bound : Word}

theorem effect_resumed (i : Instruction) : (m.resumed before bound).effect i = m.effect i := by
  cases h : i.op <;> simp only [effect, h] <;> rfl

theorem apply_resumed (e : Effect) :
    (m.resumed before bound).begun.apply e = (m.begun.apply e).resumed before bound := by
  cases e with
  | print w => simp [apply, resumed, begun]
  | _ => rfl

/-- A step reads neither the output nor the bound. -/
theorem step_resumed :
    (m.resumed before bound).step = (m.step.1, m.step.2.resumed before bound) := by
  have hf : (m.resumed before bound).fetch? = m.fetch? := rfl
  have hh : (m.resumed before bound).halted = m.halted := rfl
  rw [step_eq, step_eq, hf, hh]
  cases m.halted with
  | true => rfl
  | false =>
    cases m.fetch? with
    | none => rfl
    | some i =>
      simp only [effect_resumed]
      cases m.effect i with
      | error c => rfl
      | ok e => simp [apply_resumed]

theorem runFor_resumed (limit : Word) (k : Nat) :
    runFor limit k (m.resumed before bound) =
      ((runFor limit k m).1, (runFor limit k m).2.resumed before bound) := by
  have hh : (m.resumed before bound).halted = m.halted := rfl
  induction k generalizing m with
  | zero =>
    rw [runFor, runFor, hh]
    split <;> rfl
  | succ k ih =>
    rw [runFor, runFor, hh, step_resumed]
    split
    · rfl
    · generalize m.step = r
      obtain ⟨f, m⟩ := r
      cases f with
      | none => exact ih rfl
      | some f => rfl

theorem afterSteps_resumed (n : Nat) :
    (m.resumed before bound).afterSteps n = (m.afterSteps n).resumed before bound := by
  induction n generalizing m with
  | zero => rfl
  | succ n ih => rw [afterSteps, afterSteps, step_resumed, ih]

theorem printedFrom_resumed :
    (m.resumed before bound).printedFrom before.size = printed m.output.toList := by
  simp [printedFrom, resumed, printed]

end

variable {p : Program} {b : Machine}

/-- A program is loaded if its size is not negative and there is memory enough for it. -/
theorem exists_load? {capacity : Nat} (hsize : 0 ≤ p.dataSize.toInt)
    (hfits : p.dataSize.toInt ≤ capacity) (m : Machine) :
    ∃ m₀, m.load? p capacity = some m₀ ∧ m₀.memory.size = p.dataSize.toInt.toNat := by
  have hloads : ¬(p.dataSize.toInt < 0 ∨ capacity < p.dataSize.toInt) := by omega
  exact ⟨_, if_neg hloads, Array.size_replicate⟩

/-- Wherever there is memory enough for its data, a fresh machine loads the program as `b`. -/
def LoadsAs (p : Program) (b : Machine) : Prop :=
  ∀ capacity : Nat, p.dataSize.toInt ≤ capacity → ({} : Machine).load? p capacity = some b

/-- Loading keeps what was printed and the bound on steps, and nothing else. -/
theorem LoadsAs.load?_eq {capacity : Nat} (hb : LoadsAs p b) (hr : m.room = none)
    (hfits : p.dataSize.toInt ≤ capacity) :
    m.load? p capacity = some (b.resumed m.output m.maxSteps) := by
  have hfresh := hb capacity hfits
  rw [load?] at hfresh ⊢
  split at hfresh
  · cases hfresh
  · rename_i hsize
    cases hfresh
    rw [if_neg hsize]
    simp [resumed, hr]

theorem LoadsAs.steps_eq (hb : LoadsAs p b) : b.steps = 0 := by
  have hfresh := hb p.dataSize.toInt.toNat (by omega)
  rw [load?] at hfresh
  split at hfresh <;> cases hfresh
  rfl

/-- A run of a loaded program is a run of as many steps as the limit says. -/
theorem LoadsAs.run_resumed (hb : LoadsAs p b) (m : Machine) :
    (b.resumed m.output m.maxSteps).run =
      runFor m.limit m.limit.toInt.toNat (b.resumed m.output m.maxSteps) := by
  have hsteps : (b.resumed m.output m.maxSteps).steps = 0 := by
    change b.steps = 0
    exact hb.steps_eq
  have hlimit : (b.resumed m.output m.maxSteps).limit = m.limit := rfl
  rw [run, hsteps, hlimit, Int64.toInt_zero, Int.sub_zero]

/-- A program that comes to a step that halts a fresh machine ends in the same way on every machine. -/
theorem Path.ends {f : Option Fault} {m'' : Machine} (hb : LoadsAs p b)
    (h : Path I b m') (hr : m'.halted = false) (hs : m'.step = (f, m'')) (hh : m''.halted = true) :
    ∃ N : Nat, ∀ (m : Machine) (capacity : Nat), m.room = none → p.dataSize.toInt ≤ capacity →
      ∃ m₀, m.load? p capacity = some m₀ ∧
      (∀ limit n, N ≤ n → runFor limit n m₀ = (f, m''.resumed m.output m.maxSteps)) ∧
      (N ≤ m.maxSteps.toInt → m₀.run = (f, m''.resumed m.output m.maxSteps)) := by
  obtain ⟨N, hpos, hN⟩ := h.runFor_stop hr hs hh
  refine ⟨N, fun m capacity hroom hfits => ?_⟩
  refine ⟨_, hb.load?_eq hroom hfits, fun limit n hn => ?_, fun hbound => ?_⟩
  · rw [runFor_resumed, hN limit n hn]
  · have hlimit : m.limit = m.maxSteps := by
      have hgt : ¬m.maxSteps ≤ 0 := by
        rw [Int64.le_iff_toInt_le, Int64.toInt_zero]
        omega
      rw [limit, if_neg hgt]
    rw [hb.run_resumed, hlimit, runFor_resumed, hN _ _ (by omega)]

/-- A program that never stops a fresh machine exhausts every bound on every machine. -/
theorem LoadsAs.exhausts {capacity : Nat} (hb : LoadsAs p b) (h : ∀ n, Lasts I n b)
    (hroom : m.room = none) (hfits : p.dataSize.toInt ≤ capacity) :
    ∃ m₀, m.load? p capacity = some m₀ ∧ (∀ limit n, (runFor limit n m₀).1 = some (.stepLimit limit)) ∧
      m₀.run.1 = some (.stepLimit m.limit) := by
  have hall : ∀ limit n, (runFor limit n (b.resumed m.output m.maxSteps)).1 =
      some (.stepLimit limit) := by
    intro limit n
    rw [runFor_resumed]
    exact (h (n + 1)).runFor_eq limit
  refine ⟨_, hb.load?_eq hroom hfits, hall, ?_⟩
  rw [hb.run_resumed]
  exact hall _ _

end OnePass.Machine
