import OnePass.Proofs.Machine.Run

namespace OnePass.Machine

/-- The places that hold a word: registers and memory. -/
inductive Cell where
  | register (i : Fin 4)
  | memory (i : Nat)
  deriving DecidableEq, Repr

/-- The word at a place; there is none outside of the memory. -/
def word? (m : Machine) : Cell → Option Word
  | .register i => some (m.regs.get i)
  | .memory i => m.memory[i]?

/-- The place that an operand names. -/
inductive Operand.Names (o : Operand) : Cell → Prop where
  | register {r : Fin 4} (h : Machine.register o = .ok r) : Names o (.register r)
  | memory {a : Word} (h : o = .memory a) : Names o (.memory a.toInt.toNat)

variable {m m' m'' : Machine} {i : Instruction} {e : Effect}

/-- The effects that an instruction can have. -/
inductive Effect.Of (m : Machine) (i : Instruction) : Effect → Prop where
  | none : Of m i .none
  | setRegister {r : Fin 4} {w : Word} (h : i.a.Names (.register r)) : Of m i (.setRegister r w)
  | setMemory {k : Nat} {w : Word} (h : i.a.Names (.memory k)) : Of m i (.setMemory k w)
  | jump {k : Word} : Of m i (.jump k)
  | print {r : Fin 4} (hop : i.op = .outb) (hr : register i.a = .ok r) :
      Of m i (.print (m.regs.get r))
  | halt (hop : i.op = .halt) : Of m i .halt

theorem bind_eq_ok {α β : Type} {x : Except Cause α} {f : α → Except Cause β} {b : β}
    (h : (x >>= f) = .ok b) : ∃ a, x = .ok a ∧ f a = .ok b := by
  cases x with
  | ok a => exact ⟨a, rfl, h⟩
  | error c => cases h

theorem jumpTo_of {o : Operand} (h : jumpTo o = .ok e) : Effect.Of m i e := by
  unfold jumpTo at h
  split at h
  · cases h
    exact .jump
  · cases h

theorem store_of {w : Word} (h : m.store i.a w = .ok e) : Effect.Of m i e := by
  unfold store at h
  split at h
  · obtain ⟨r, hr, h⟩ := bind_eq_ok h
    cases h
    exact .setRegister (.register hr)
  · rename_i a ha
    obtain ⟨k, hk, h⟩ := bind_eq_ok h
    cases h
    unfold place at hk
    split at hk
    · cases hk
      exact .setMemory (.memory ha)
    · cases hk
  · cases h

theorem update_of {f : Word → Word} (h : m.update i.a f = .ok e) : Effect.Of m i e := by
  obtain ⟨r, hr, h⟩ := bind_eq_ok h
  cases h
  exact .setRegister (.register hr)

theorem arith_of {f : Word → Word → Except Cause Word} (h : m.arith i f = .ok e) :
    Effect.Of m i e := by
  obtain ⟨r, hr, h⟩ := bind_eq_ok h
  obtain ⟨w, -, h⟩ := bind_eq_ok h
  obtain ⟨z, -, h⟩ := bind_eq_ok h
  cases h
  exact .setRegister (.register hr)

theorem branch_of {test : Word → Bool} (h : m.branch i test = .ok e) : Effect.Of m i e := by
  obtain ⟨r, -, h⟩ := bind_eq_ok h
  split at h
  · exact jumpTo_of h
  · cases h
    exact .none

theorem printing_of {r : Fin 4} (hop : i.op = .outb) (hr : register i.a = .ok r)
    (h : m.printing (m.regs.get r) = .ok e) : Effect.Of m i e := by
  unfold printing at h
  split at h
  · cases h
  · cases h
    exact .print hop hr

/-- An instruction writes only what its first operand names, and prints only if it is to print. -/
theorem effect_of (h : m.effect i = .ok e) : Effect.Of m i e := by
  unfold effect at h
  split at h
  · rename_i hop
    cases h
    exact .halt hop
  · obtain ⟨w, -, h⟩ := bind_eq_ok h
    exact store_of h
  · exact arith_of h
  · exact arith_of h
  · exact arith_of h
  · exact arith_of h
  · exact update_of h
  · exact update_of h
  · obtain ⟨r, hr, h⟩ := bind_eq_ok h
    split at h
    · cases h
      exact .setRegister (.register hr)
    · cases h
  · exact jumpTo_of h
  · exact branch_of h
  · exact branch_of h
  · exact branch_of h
  · rename_i hop
    obtain ⟨r, hr, h⟩ := bind_eq_ok h
    exact printing_of hop hr h
  · cases h

/-- From `m` to `m'` no word has changed but those at the given places, and there is no other code and no more
or less memory. -/
structure Confined (cells : List Cell) (m m' : Machine) : Prop where
  code : m'.code = m.code
  size : m'.memory.size = m.memory.size
  words : ∀ c ∉ cells, m'.word? c = m.word? c

namespace Confined

theorem refl (m : Machine) : Confined [] m m := ⟨rfl, rfl, fun _ _ => rfl⟩

theorem of_eq (hcode : m'.code = m.code) (hregs : m'.regs = m.regs) (hmemory : m'.memory = m.memory) :
    Confined [] m m' := by
  refine ⟨hcode, by rw [hmemory], ?_⟩
  intro c _
  cases c with
  | register i => rw [word?, word?, hregs]
  | memory i => rw [word?, word?, hmemory]

theorem trans {cells cells' : List Cell} (h : Confined cells m m') (h' : Confined cells' m' m'') :
    Confined (cells ++ cells') m m'' := by
  refine ⟨h'.code.trans h.code, h'.size.trans h.size, ?_⟩
  intro c hc
  rw [List.mem_append, not_or] at hc
  rw [h'.words c hc.2, h.words c hc.1]

theorem setRegister (m : Machine) (r : Fin 4) (w : Word) :
    Confined [.register r] m (m.begun.apply (.setRegister r w)) := by
  refine ⟨rfl, rfl, ?_⟩
  intro c hc
  cases c with
  | register k =>
    have hne : r.val ≠ k.val := by
      intro h
      exact hc (by rw [Fin.ext h]; exact List.mem_singleton_self _)
    exact congrArg some (Vector.getElem_set_ne r.isLt k.isLt hne)
  | memory k => rfl

theorem setMemory (m : Machine) (k : Nat) (w : Word) :
    Confined [.memory k] m (m.begun.apply (.setMemory k w)) := by
  refine ⟨rfl, Array.size_setIfInBounds, ?_⟩
  intro c hc
  cases c with
  | register r => rfl
  | memory j =>
    have hne : k ≠ j := by
      rintro rfl
      exact hc (List.mem_singleton_self _)
    exact Array.getElem?_setIfInBounds_ne hne

/-- An effect reaches at most one word, which the first operand names. -/
theorem apply (h : Effect.Of m i e) :
    ∃ cells : List Cell, cells.length ≤ 1 ∧ (∀ c ∈ cells, i.a.Names c) ∧
      Confined cells m (m.begun.apply e) := by
  cases h with
  | @setRegister r w hr =>
    exact ⟨[.register r], by simp, by simpa using hr, setRegister m r w⟩
  | @setMemory k w hk =>
    exact ⟨[.memory k], by simp, by simpa using hk, setMemory m k w⟩
  | none | jump | print | halt => exact ⟨[], by simp, by simp, of_eq rfl rfl rfl⟩

end Confined

/-- All that a step can do. -/
inductive Steps (m : Machine) : Option Fault × Machine → Prop where
  | halted (h : m.halted = true) : Steps m (none, m)
  | lost (h : m.halted = false) (hf : m.fetch? = none) :
      Steps m (some (.badCounter m.pc), { m with halted := true })
  | failed {i : Instruction} {c : Cause} (h : m.halted = false) (hf : m.fetch? = some i)
      (he : m.effect i = .error c) : Steps m (some (.failed m.pc i c), m.stopped)
  | done {i : Instruction} {e : Effect} (h : m.halted = false) (hf : m.fetch? = some i)
      (he : m.effect i = .ok e) : Steps m (none, m.begun.apply e)

theorem steps_step (m : Machine) : Steps m m.step := by
  rw [step_eq]
  split
  · rename_i h
    exact .halted h
  · rename_i h
    have hrunning : m.halted = false := by simpa using h
    split
    · rename_i hf
      exact .lost hrunning hf
    · rename_i i hf
      split
      · rename_i he
        exact .done hrunning hf he
      · rename_i he
        exact .failed hrunning hf he

/-- What a step leaves that has failed: all words, the code and the output as they were, and a machine that has
halted. A counter outside of the code is not moved, one at an instruction that fails is. -/
structure Refused (f : Fault) (m m' : Machine) : Prop where
  regs : m'.regs = m.regs
  memory : m'.memory = m.memory
  code : m'.code = m.code
  output : m'.output = m.output
  halted : m'.halted = true
  counter : f = .badCounter m.pc ∧ m'.pc = m.pc ∧ m'.steps = m.steps ∨
    (∃ i c, f = .failed m.pc i c) ∧ m'.pc = m.pc + 1 ∧ m'.steps = m.steps + 1

theorem Steps.refused {f : Fault} (h : Steps m (some f, m')) : Refused f m m' := by
  cases h with
  | lost _ _ => exact ⟨rfl, rfl, rfl, rfl, rfl, .inl ⟨rfl, rfl, rfl⟩⟩
  | failed _ _ _ => exact ⟨rfl, rfl, rfl, rfl, rfl, .inr ⟨⟨_, _, rfl⟩, rfl, rfl⟩⟩

/-- Whatever the step does, it reaches at most one word. -/
theorem Steps.confined {f : Option Fault} (h : Steps m (f, m')) :
    ∃ cells : List Cell, cells.length ≤ 1 ∧
      (∀ c ∈ cells, ∃ i, m.fetch? = some i ∧ i.a.Names c) ∧ Confined cells m m' := by
  cases h with
  | halted _ => exact ⟨[], by simp, by simp, .refl m⟩
  | lost _ _ => exact ⟨[], by simp, by simp, .of_eq rfl rfl rfl⟩
  | failed _ _ _ => exact ⟨[], by simp, by simp, .of_eq rfl rfl rfl⟩
  | @done i e _ hf he =>
    obtain ⟨cells, hlength, hnames, hconfined⟩ := Confined.apply (effect_of he)
    exact ⟨cells, hlength, fun c hc => ⟨i, hf, hnames c hc⟩, hconfined⟩

/-- Only the instruction for it prints: one line, the value of its register. -/
theorem Steps.output {f : Option Fault} (h : Steps m (f, m')) :
    m'.output = m.output ∨ ∃ i r, m.fetch? = some i ∧ i.op = .outb ∧ register i.a = .ok r ∧
      m'.output = m.output.push (m.regs.get r) := by
  cases h with
  | halted _ => exact .inl rfl
  | lost _ _ => exact .inl rfl
  | failed _ _ _ => exact .inl rfl
  | @done i e _ hf he =>
    cases effect_of he with
    | @print r hop hr => exact .inr ⟨i, r, hf, hop, hr, rfl⟩
    | none | setRegister | setMemory | jump | halt => exact .inl rfl

/-- Steps are atomic and local. One that fails leaves the machine as it was but for its counters; one that does
not changes at most one word among the registers and the memory, and prints only if it is to print. On a
machine that has halted it changes nothing. -/
theorem step_atomic (m : Machine) :
    (∀ f, m.step.1 = some f → Refused f m m.step.2) ∧
    (m.step.1 = none →
      (∃ cells : List Cell, cells.length ≤ 1 ∧
        (∀ c ∈ cells, ∃ i, m.fetch? = some i ∧ i.a.Names c) ∧ Confined cells m m.step.2) ∧
      (m.step.2.output = m.output ∨ ∃ i r, m.fetch? = some i ∧ i.op = .outb ∧
        register i.a = .ok r ∧ m.step.2.output = m.output.push (m.regs.get r))) ∧
    (m.halted = true → m.step = (none, m)) := by
  have hsteps := steps_step m
  refine ⟨?_, fun _ => ⟨hsteps.confined, hsteps.output⟩, ?_⟩
  · intro f hf
    have hpair : m.step = (some f, m.step.2) := Prod.ext hf rfl
    rw [hpair] at hsteps
    exact hsteps.refused
  · intro h
    simp [step, h]

/-- Stores a word of memory, and then divides by one that is zero. -/
def storeThenDivide : Machine :=
  { code := #[{ op := .move, a := .memory 1, b := .immediate 5 },
      { op := .div, a := .register 0, b := .memory 0 }]
    memory := #[0, 0] }

theorem step_atomic_storeThenDivide :
    storeThenDivide.step.1 = none ∧
      (∃ cells : List Cell, cells.length ≤ 1 ∧
        (∀ c ∈ cells, ∃ i, storeThenDivide.fetch? = some i ∧ i.a.Names c) ∧
        Confined cells storeThenDivide storeThenDivide.step.2) ∧
      storeThenDivide.step.2.step.1 =
        some (.failed 1 { op := .div, a := .register 0, b := .memory 0 } .divideByZero) ∧
      Refused (.failed 1 { op := .div, a := .register 0, b := .memory 0 } .divideByZero)
        storeThenDivide.step.2 storeThenDivide.step.2.step.2 ∧
      storeThenDivide.step.2.step.2.halted = true ∧
      storeThenDivide.step.2.step.2.step = (none, storeThenDivide.step.2.step.2) := by
  have hstore : storeThenDivide.step.1 = none := by decide +kernel
  have hdivide : storeThenDivide.step.2.step.1 =
      some (.failed 1 { op := .div, a := .register 0, b := .memory 0 } .divideByZero) := by
    decide +kernel
  have hhalted : storeThenDivide.step.2.step.2.halted = true := by decide +kernel
  exact ⟨hstore, ((step_atomic _).2.1 hstore).1, hdivide, (step_atomic _).1 _ hdivide, hhalted,
    (step_atomic _).2.2 hhalted⟩

/-- A run of at most `n` steps changes at most `n` words, and neither the code nor the size of the memory. -/
theorem runFor_confined (limit : Word) (n : Nat) (m : Machine) :
    ∃ cells : List Cell, cells.length ≤ n ∧ Confined cells m (runFor limit n m).2 := by
  induction n generalizing m with
  | zero =>
    rw [runFor]
    split <;> exact ⟨[], by simp, .refl m⟩
  | succ n ih =>
    rw [runFor]
    split
    · exact ⟨[], by simp, .refl m⟩
    · have hsteps := steps_step m
      generalize m.step = r at hsteps
      obtain ⟨f, m'⟩ := r
      obtain ⟨cells, hlength, -, hconfined⟩ := hsteps.confined
      cases f with
      | some f => exact ⟨cells, by omega, hconfined⟩
      | none =>
        obtain ⟨cells', hlength', hconfined'⟩ := ih m'
        exact ⟨cells ++ cells', by rw [List.length_append]; omega, hconfined.trans hconfined'⟩

end OnePass.Machine
