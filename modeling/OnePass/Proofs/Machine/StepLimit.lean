import OnePass.Proofs.Machine.Locality

namespace OnePass.Machine

variable {m m' m'' : Machine} {j k : Word} {f g : Option Fault} {n i : Nat}

/-- The machine with another limit for its next run. -/
def bounded (m : Machine) (k : Word) : Machine := { m with maxSteps := k }

/-- Steps from `m` on until the machine has halted, a step fails, or the count of steps has reached the limit,
which is compared before each step. There are `n` of them. -/
inductive Iterates (k : Word) : Nat → Machine → Option Fault → Machine → Prop where
  | halted {m : Machine} (h : m.halted = true) : Iterates k 0 m none m
  | limit {m : Machine} (hr : m.halted = false) (hk : k ≤ m.steps) :
      Iterates k 0 m (some (.stepLimit k)) m
  | failed {m m' : Machine} {f : Fault} (hr : m.halted = false) (hk : m.steps < k)
      (hs : m.step = (some f, m')) : Iterates k 1 m (some f) m'
  | step {n : Nat} {m m' m'' : Machine} {f : Option Fault} (hr : m.halted = false)
      (hk : m.steps < k) (hs : m.step = (none, m')) (h : Iterates k n m' f m'') :
      Iterates k (n + 1) m f m''

theorem step_ne_stepLimit (m : Machine) (k : Word) : m.step.1 ≠ some (.stepLimit k) := by
  have hsteps := steps_step m
  intro h
  generalize m.step = r at hsteps h
  cases hsteps <;> cases h

/-- A step that does not fail counts, if the machine had not halted. -/
theorem steps_of_step (hr : m.halted = false) (hs : m.step = (none, m')) :
    m'.steps = m.steps + 1 := by
  have hsteps := steps_step m
  rw [hs] at hsteps
  cases hsteps with
  | halted h =>
    rw [hr] at h
    cases h
  | @done i e _ _ _ => cases e <;> rfl

/-- Below the limit the count of steps does not wrap around. -/
theorem toInt_succ_of_lt {w : Word} (h : w < k) : (w + 1).toInt = w.toInt + 1 := by
  rw [Int64.lt_iff_toInt_lt] at h
  have hk := k.toInt_lt
  have hw := w.le_toInt
  rw [Int64.toInt_add, Int64.toInt_one, Int.bmod_eq_of_le (by omega) (by omega)]

/-- A step that fails counts at most once. -/
theorem toInt_steps_of_failed {f : Fault} (hk : m.steps < k) (hs : m.step = (some f, m')) :
    m.steps.toInt ≤ m'.steps.toInt ∧ m'.steps.toInt ≤ m.steps.toInt + 1 := by
  have hsteps := steps_step m
  rw [hs] at hsteps
  rcases hsteps.refused.counter with ⟨-, -, hcount⟩ | ⟨-, -, hcount⟩
  · rw [hcount]
    omega
  · rw [hcount, toInt_succ_of_lt hk]
    omega

theorem step_bounded (m : Machine) (k : Word) :
    (m.bounded k).step = (m.step.1, m.step.2.bounded k) := by
  have hresumed : ∀ m : Machine, m.bounded k = m.resumed #[] k := by
    intro m
    simp [bounded, resumed]
  rw [hresumed, step_resumed, hresumed]

namespace Iterates

/-- The loop reads the limit that it is given, and not the one that the machine has for its next run. -/
theorem bounded (h : Iterates k n m f m') (b : Word) :
    Iterates k n (m.bounded b) f (m'.bounded b) := by
  induction h with
  | halted h => exact .halted h
  | limit hr hk => exact .limit hr hk
  | failed hr hk hs => exact .failed hr hk (by rw [step_bounded, hs])
  | step hr hk hs _ ih => exact .step hr hk (by rw [step_bounded, hs]) ih

/-- Whether the loop goes on, and how, is settled by the machine. -/
theorem unique (h : Iterates k n m f m') (h' : Iterates k i m g m'') :
    n = i ∧ f = g ∧ m' = m'' := by
  induction h generalizing i with
  | halted h =>
    cases h' with
    | halted _ => exact ⟨rfl, rfl, rfl⟩
    | limit hr _ | failed hr _ _ | step hr _ _ _ =>
      rw [hr] at h
      cases h
  | limit hr hk =>
    cases h' with
    | halted h =>
      rw [hr] at h
      cases h
    | limit _ _ => exact ⟨rfl, rfl, rfl⟩
    | failed _ hk' _ | step _ hk' _ _ => exact absurd hk' (Int64.not_lt.2 hk)
  | failed hr hk hs =>
    cases h' with
    | halted h =>
      rw [hr] at h
      cases h
    | limit _ hk' => exact absurd hk (Int64.not_lt.2 hk')
    | failed _ _ hs' =>
      rw [hs] at hs'
      cases hs'
      exact ⟨rfl, rfl, rfl⟩
    | step _ _ hs' _ =>
      rw [hs] at hs'
      cases hs'
  | step hr hk hs _ ih =>
    cases h' with
    | halted h =>
      rw [hr] at h
      cases h
    | limit _ hk' => exact absurd hk (Int64.not_lt.2 hk')
    | failed _ _ hs' =>
      rw [hs] at hs'
      cases hs'
    | step _ _ hs' hrest =>
      rw [hs] at hs'
      cases hs'
      obtain ⟨rfl, hf, hm⟩ := ih hrest
      exact ⟨rfl, hf, hm⟩

theorem eq_afterSteps (h : Iterates k n m f m') : m' = m.afterSteps n := by
  induction h with
  | halted _ => rfl
  | limit _ _ => rfl
  | failed _ _ hs => rw [afterSteps, hs]; rfl
  | step _ _ hs _ ih => rw [afterSteps, hs, ih]

/-- No more steps than the limit leaves, each of which counts at most once. -/
theorem count_le (h : Iterates k n m f m') :
    n ≤ (k.toInt - m.steps.toInt).toNat ∧ m.steps.toInt ≤ m'.steps.toInt ∧
      m'.steps.toInt ≤ m.steps.toInt + n := by
  induction h with
  | halted _ => omega
  | limit _ _ => omega
  | failed _ hk hs =>
    have hcount := toInt_steps_of_failed hk hs
    rw [Int64.lt_iff_toInt_lt] at hk
    omega
  | step hr hk hs _ ih =>
    rw [steps_of_step hr hs, toInt_succ_of_lt hk] at ih
    rw [Int64.lt_iff_toInt_lt] at hk
    omega

/-- The limit is what ends the loop exactly if nothing else does. -/
theorem stepLimit_iff (h : Iterates k n m f m') :
    f = some (.stepLimit k) ↔
      m'.halted = false ∧ k ≤ m'.steps ∧ ∀ i < n, (m.afterSteps i).step.1 = none := by
  induction h with
  | halted h => simp [h]
  | limit hr hk => simp [hr, hk]
  | @failed m m' f hr hk hs =>
    have hne := step_ne_stepLimit m k
    have hsteps := steps_step m
    rw [hs] at hne hsteps
    simp [hne, hsteps.refused.halted]
  | @step n m m' m'' f hr hk hs h ih =>
    have hfirst : m.step.1 = none := by rw [hs]
    have hrest : ∀ i, (m.afterSteps (i + 1)).step.1 = (m'.afterSteps i).step.1 := by
      intro i
      rw [afterSteps, hs]
    rw [ih]
    refine and_congr_right fun _ => and_congr_right fun _ => ⟨fun hall i hi => ?_, fun hall i hi => ?_⟩
    · cases i with
      | zero => exact hfirst
      | succ i => rw [hrest, hall i (by omega)]
    · rw [← hrest, hall (i + 1) (by omega)]

/-- A loop that was stopped by its limit, and one with a larger limit from there on, are one loop. -/
theorem resume (h : Iterates j n m (some (.stepLimit j)) m') (hjk : j ≤ k)
    (h' : Iterates k i m' g m'') : Iterates k (n + i) m g m'' := by
  generalize hf : some (Fault.stepLimit j) = f at h
  induction h with
  | halted _ => cases hf
  | limit _ _ => rwa [Nat.zero_add]
  | @failed m m' f hr hk hs =>
    have hne := step_ne_stepLimit m j
    rw [hs, hf] at hne
    exact absurd rfl hne
  | step hr hk hs _ ih =>
    rw [Nat.add_right_comm]
    exact .step hr (Int64.lt_of_lt_of_le hk hjk) hs (ih h' hf)

/-- A machine that halts before its count of steps has passed the limit ends its loop without a fault. -/
theorem of_halted (hn : n ≤ (k.toInt - m.steps.toInt).toNat)
    (hs : ∀ i < n, (m.afterSteps i).step.1 = none) (h : (m.afterSteps n).halted = true) :
    ∃ i, Iterates k i m none (m.afterSteps n) := by
  induction n generalizing m with
  | zero => exact ⟨0, .halted h⟩
  | succ n ih =>
    cases hr : m.halted with
    | true =>
      rw [afterSteps_halted hr]
      exact ⟨0, .halted hr⟩
    | false =>
      have hk : m.steps < k := by
        rw [Int64.lt_iff_toInt_lt]
        omega
      have hstep : m.step = (none, m.step.2) := Prod.ext (hs 0 (by omega)) rfl
      have hcount := steps_of_step hr hstep
      have hleft : n ≤ (k.toInt - m.step.2.steps.toInt).toNat := by
        rw [hcount, toInt_succ_of_lt hk]
        omega
      obtain ⟨i, hi⟩ := ih hleft (fun i hi => hs (i + 1) (by omega)) h
      exact ⟨i + 1, .step hr hk hstep hi⟩

end Iterates

/-- A run of as many steps as the limit leaves is the loop. -/
theorem runFor_iterates (hn : (k.toInt - m.steps.toInt).toNat = n) :
    ∃ i, Iterates k i m (runFor k n m).1 (runFor k n m).2 := by
  induction n generalizing m with
  | zero =>
    rw [runFor]
    cases hr : m.halted with
    | true => exact ⟨0, .halted hr⟩
    | false =>
      have hk : k ≤ m.steps := by
        rw [Int64.le_iff_toInt_le]
        omega
      exact ⟨0, .limit hr hk⟩
  | succ n ih =>
    rw [runFor]
    cases hr : m.halted with
    | true => exact ⟨0, .halted hr⟩
    | false =>
      have hk : m.steps < k := by
        rw [Int64.lt_iff_toInt_lt]
        omega
      cases hs : m.step with
      | mk f m' =>
        cases f with
        | some f => exact ⟨1, .failed hr hk hs⟩
        | none =>
          have hleft : (k.toInt - m'.steps.toInt).toNat = n := by
            rw [steps_of_step hr hs, toInt_succ_of_lt hk]
            omega
          obtain ⟨i, hi⟩ := ih hleft
          exact ⟨i + 1, .step hr hk hs hi⟩

theorem run_bounded (m : Machine) (hk : 0 < k) :
    (m.bounded k).run = runFor k (k.toInt - m.steps.toInt).toNat (m.bounded k) := by
  have hlimit : (m.bounded k).limit = k := if_neg (Int64.not_le.2 hk)
  rw [run, hlimit]
  rfl

/-- A run with a positive limit is the loop. -/
theorem run_iterates (m : Machine) (hk : 0 < k) :
    ∃ n, Iterates k n (m.bounded k) (m.bounded k).run.1 (m.bounded k).run.2 := by
  rw [run_bounded m hk]
  exact runFor_iterates rfl

theorem Iterates.run_eq (hk : 0 < k) (h : Iterates k n (m.bounded k) f m') :
    (m.bounded k).run = (f, m') := by
  obtain ⟨i, hi⟩ := run_iterates m hk
  obtain ⟨-, hf, hm⟩ := hi.unique h
  exact Prod.ext hf hm

/-- What was printed before a run stands in front of what the run prints. -/
theorem output_run_bounded (m : Machine) (hk : 0 < k) :
    (m.bounded k).run.2.output = m.output ++ (({ m with output := #[] } : Machine).bounded k).run.2.output := by
  have hresumed : m.bounded k = (({ m with output := #[] } : Machine).bounded k).resumed m.output k := by
    simp [bounded, resumed]
  rw [run_bounded m hk, hresumed, runFor_resumed, run_bounded _ hk]
  rfl

/-- The limit is exact, and a run can be resumed. A run with the limit `k` is the loop of steps, in which the
machine takes no more of them than the limit leaves. It complains about the limit exactly if no step has failed
and the machine has not halted when the count reaches the limit; so a program that halts with the last step
left succeeds. Run again with a limit that is not smaller, the machine ends as if it had run with that limit
from the start, and has printed the same in two parts. -/
theorem run_limit_exact (m : Machine) (k : Word) (hk : 0 < k) :
    (∀ f m', (m.bounded k).run = (f, m') ↔ ∃ n, Iterates k n (m.bounded k) f m') ∧
    (∀ n f m', Iterates k n (m.bounded k) f m' →
      n ≤ (k.toInt - m.steps.toInt).toNat ∧ m' = (m.bounded k).afterSteps n ∧
      m.steps.toInt ≤ m'.steps.toInt ∧ m'.steps.toInt ≤ m.steps.toInt + n ∧
      (f = some (.stepLimit k) ↔ m'.halted = false ∧ k ≤ m'.steps ∧
        ∀ i < n, ((m.bounded k).afterSteps i).step.1 = none)) ∧
    (∀ n, n ≤ (k.toInt - m.steps.toInt).toNat →
      (∀ i < n, ((m.bounded k).afterSteps i).step.1 = none) →
      ((m.bounded k).afterSteps n).halted = true →
      (m.bounded k).run = (none, (m.bounded k).afterSteps n)) ∧
    ∀ m' l, (m.bounded k).run = (some (.stepLimit k), m') → k ≤ l →
      (m'.bounded l).run = (m.bounded l).run ∧
      (m.bounded l).run.2.output =
        m'.output ++ (({ m' with output := #[] } : Machine).bounded l).run.2.output := by
  obtain ⟨n, hloop⟩ := run_iterates m hk
  refine ⟨fun f m' => ⟨fun hrun => ?_, fun h => ?_⟩, fun i f m' h => ?_, fun i hi hs hh => ?_,
    fun m' l hrun hkl => ?_⟩
  · rw [hrun] at hloop
    exact ⟨n, hloop⟩
  · obtain ⟨i, hi⟩ := h
    exact hi.run_eq hk
  · obtain ⟨hcount, hlow, hhigh⟩ := h.count_le
    exact ⟨hcount, h.eq_afterSteps, hlow, hhigh, h.stepLimit_iff⟩
  · obtain ⟨i', hi'⟩ := Iterates.of_halted (m := m.bounded k) hi hs hh
    exact hi'.run_eq hk
  · have hl : 0 < l := Int64.lt_of_lt_of_le hk hkl
    rw [hrun] at hloop
    obtain ⟨i, hrest⟩ := run_iterates m' hl
    -- both parts as loops of the machine with the limit `l`
    have hresume : (m'.bounded l).run = (m.bounded l).run :=
      (((hloop.bounded l).resume hkl hrest).run_eq hl).symm
    exact ⟨hresume, by rw [← hresume, output_run_bounded m' hl]⟩

/-- Prints a register, increases it, prints it again and halts with its fourth instruction. -/
def printTwice : Machine :=
  { code := #[{ op := .outb, a := .register 0 }, { op := .add, a := .register 0, b := .immediate 1 },
      { op := .outb, a := .register 0 }, { op := .halt }] }

theorem run_limit_exact_printTwice :
    (printTwice.bounded 4).run = (none, (printTwice.bounded 4).afterSteps 4) ∧
      ∃ m', (printTwice.bounded 2).run = (some (.stepLimit 2), m') ∧ m'.output = #[0] ∧
        (m'.bounded 4).run = (printTwice.bounded 4).run ∧
        (printTwice.bounded 4).run.2.output =
          #[0] ++ (({ m' with output := #[] } : Machine).bounded 4).run.2.output := by
  obtain ⟨-, -, hhalts, -⟩ := run_limit_exact printTwice 4 (by decide)
  obtain ⟨-, -, -, hresume⟩ := run_limit_exact printTwice 2 (by decide)
  have hlimit : (printTwice.bounded 2).run.1 = some (.stepLimit 2) := by decide +kernel
  have hprinted : (printTwice.bounded 2).run.2.output = #[0] := by decide +kernel
  have hrun : (printTwice.bounded 2).run = (some (.stepLimit 2), (printTwice.bounded 2).run.2) :=
    Prod.ext hlimit rfl
  obtain ⟨hsame, houtput⟩ := hresume _ 4 hrun (by decide)
  refine ⟨hhalts 4 (by decide) (by decide +kernel) (by decide +kernel), _, hrun, hprinted, hsame, ?_⟩
  rw [houtput, hprinted]

end OnePass.Machine
