import OnePass.Proofs.Pipeline.Preservation

namespace OnePass.Compiler

open Assembler Assembly Machine Source

/-- The fourth register is unused, there is a word for each name of data, and the words of the variables
of type `bool` hold truth values. -/
structure DataSafe (q : Assembled) (t : SymbolTable) (scope : Text) (words : Nat) (m : Machine) :
    Prop where
  reserved : m.regs[3] = 0
  memory : m.memory.size = words
  truths : ∀ x ∈ t.storage scope, t.typeOf x scope = .bool → ∃ a,
    q.labels.target? x = some (.data a) ∧ (m.readMemory a = .ok 0 ∨ m.readMemory a = .ok 1)

/-- The data is safe, and the next step is an instruction of the code that can only fail by a division by
zero. -/
structure RunSafe (q : Assembled) (t : SymbolTable) (scope : Text) (words : Nat) (m : Machine) : Prop
    extends DataSafe q t scope words m where
  counter : m.halted = false → 0 ≤ m.pc.toInt ∧ m.pc.toInt < m.code.size
  fault : ∀ f, m.step.1 = some f → ∃ pc i, f = .failed pc i .divideByZero

variable {s : State} {p : Source.Program} {body : List Line} {q : Assembled} {b m : Machine}

theorem Ready.dataSafe (h : Translates s p body)
    (hq : assemble (render s.main.listing.written.toList) = .ok q)
    (hb : Ready (.ofAssembled q s.dataNames) q body b)
    (hm : Safe (.ofAssembled q s.dataNames) s.symbols p.name m) :
    DataSafe q s.symbols p.name s.dataNames.length m := by
  obtain ⟨σ, out, hσ, k, -, hm⟩ := hm
  refine ⟨hm.reserved, hm.size, fun x hx htype => ?_⟩
  obtain ⟨a, ha, hread⟩ := hb.readMemory_eq h hq hm hx
  have hlook : lookUp s.symbols p.name x = some .bool := by
    rw [lookUp, if_pos (SymbolTable.declared_of_mem_storage hx), htype]
  refine ⟨a, ha, ?_⟩
  rw [hread]
  exact (hσ x hlook).imp (congrArg _) (congrArg _)

/-- Where the machine is after any number of steps: at an instruction, or behind one that has halted
it. -/
theorem Ready.afterSteps {P : Image} (hb : Ready P q body b) (h : Translates s p body) (n : Nat) :
    (Safe P s.symbols p.name (b.afterSteps n) ∧
      ∀ f, (b.afterSteps n).step.1 = some f → ∃ pc i, f = .failed pc i .divideByZero) ∨
    ∃ m, Safe P s.symbols p.name m ∧ b.afterSteps n = m.stopped := by
  by_cases hruns : ∃ o r, p.Runs o r
  · obtain ⟨o, r, hr⟩ := hruns
    obtain ⟨m, hp, hsafe, f, -, hs, -, hend⟩ := hb.closes h hr
    have hfault : ∀ f', f = some f' → ∃ pc i, f' = .failed pc i .divideByZero := by
      intro f' hf'
      cases r with
      | normal σ => exact absurd (hend.1.symm.trans hf') (by simp)
      | divideByZero =>
        obtain ⟨pc, i, rfl⟩ := hend
        cases hf'
        exact ⟨pc, i, rfl⟩
    rcases hp.afterSteps hsafe hs rfl n with ⟨hsafe, hf⟩ | hstop
    · refine .inl ⟨hsafe, fun f' hf' => hfault f' ?_⟩
      rcases hf with hf | hf
      · rw [hf] at hf'
        cases hf'
      · rw [← hf, hf']
    · exact .inr ⟨m, hsafe, hstop⟩
  · simp only [not_exists] at hruns
    obtain ⟨hsafe, hnone⟩ := (hb.lasts h hruns (n + 1)).afterSteps
    refine .inl ⟨hsafe, fun f hf => ?_⟩
    rw [hnone] at hf
    cases hf

theorem Translates.runSafe (h : Translates s p body)
    (hq : assemble (render s.main.listing.written.toList) = .ok q)
    (hb : Ready (.ofAssembled q s.dataNames) q body b) (n : Nat) :
    RunSafe q s.symbols p.name s.dataNames.length (b.afterSteps n) := by
  rcases hb.afterSteps h n with ⟨hsafe, hfault⟩ | ⟨m, hsafe, hstop⟩
  · refine ⟨hb.dataSafe h hq hsafe, fun _ => ?_, hfault⟩
    obtain ⟨_, _, _, k, hk, hm⟩ := hsafe
    have hlt := hb.linked.code_lt
    rw [hm.pc, hm.code, toInt_ofNat (by omega)]
    omega
  · rw [hstop]
    have hdata := hb.dataSafe h hq hsafe
    refine ⟨⟨hdata.reserved, hdata.memory, hdata.truths⟩, fun hrun => ?_, ?_⟩
    · cases hrun
    · intro f hf
      cases hf

theorem RunSafe.resumed {t : SymbolTable} {scope : Text} {words : Nat}
    (h : RunSafe q t scope words m) (before : Array Word) (bound : Word) :
    RunSafe q t scope words (m.resumed before bound) := by
  refine ⟨⟨h.reserved, h.memory, h.truths⟩, h.counter, ?_⟩
  rw [step_resumed]
  exact h.fault

variable {trace : Bool} {source : Text}

/-- Compiled programs are safe in every state of every run. -/
theorem compile_safe (h : (compile { trace } source).outcome = .success)
    (hq : assemble (compile { trace } source).assembly = .ok q)
    (hsize : (compile { trace } source).assembly.size < wordLimit) :
    ∃ p, (∀ p', Denotes source p' ↔ p' = p) ∧ ∀ (m : Machine) (capacity : Nat), m.room = none →
      q.dataSize.toInt ≤ capacity → ∃ m₀, m.load? q.program capacity = some m₀ ∧ ∀ n,
        RunSafe q (compile { trace } source).symbols p.name
          ((compile { trace } source).code.filterMap Line.word?).length (m₀.afterSteps n) := by
  obtain ⟨p, body, hp, ht⟩ := translates_of_success h
  obtain ⟨b, hb⟩ := ht.ready hq hsize
  have hwords : (compile { trace } source).code.filterMap Line.word? =
      (finalState { trace } source).dataNames := ht.words_framed
  refine ⟨p, hp, fun m capacity hroom hfits => ⟨_, hb.load.load?_eq hroom hfits, fun n => ?_⟩⟩
  rw [hwords, afterSteps_resumed]
  exact (ht.runSafe hq hb n).resumed _ _

/-- A loop without an end that changes a truth value. -/
def flicker : Text :=
  "program p; i: int; b: bool; begin while i = 0 loop begin b := not b or (i > 1); end; end;"

theorem compile_safe_flicker :
    (compile {} flicker).outcome = .success ∧ (compile {} flicker).assembly.size < wordLimit ∧
      ∃ q, assemble (compile {} flicker).assembly = .ok q ∧
        ∃ p, (∀ p', Denotes flicker p' ↔ p' = p) ∧ ∀ (m : Machine) (capacity : Nat), m.room = none →
          q.dataSize.toInt ≤ capacity → ∃ m₀, m.load? q.program capacity = some m₀ ∧ ∀ n,
            RunSafe q (compile {} flicker).symbols p.name
              ((compile {} flicker).code.filterMap Line.word?).length (m₀.afterSteps n) := by
  obtain ⟨hsuccess, hsize, hok⟩ : (compile {} flicker).outcome = .success ∧
      (compile {} flicker).assembly.size < wordLimit ∧
      (assemble (compile {} flicker).assembly).isOk = true := by decide +kernel
  cases hq : assemble (compile {} flicker).assembly with
  | error e =>
    rw [hq] at hok
    cases hok
  | ok q =>
    exact ⟨hsuccess, hsize, q, rfl, compile_safe hsuccess hq hsize⟩

end OnePass.Compiler
