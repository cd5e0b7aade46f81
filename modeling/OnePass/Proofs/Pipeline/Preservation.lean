import OnePass.Proofs.Pipeline.Acceptance
import OnePass.Proofs.Pipeline.StatementRun

namespace OnePass

open Assembler Assembly Source

namespace Assembler

variable {cs : List Line} {ds : List Text} {q : Assembled}

/-- Each line takes at least its line end. -/
theorem length_le_size (ls : List Line) : ls.length ≤ (render ls).size := by
  induction ls with
  | nil => exact Nat.zero_le _
  | cons l ls ih =>
    have hsize : (render (l :: ls)).size = l.text.size + (Text.size "\n" + (render ls).size) := by
      simp [render, Text.size, Text.bytes]
    have hend : Text.size "\n" = 1 := by decide
    rw [List.length_cons, hsize, hend]
    omega

/-- A text whose length is a word has no more instructions and words of data. -/
theorem sizes_lt (h : (render (moduleLines cs ds)).size < wordLimit) :
    width cs < wordLimit ∧ ds.length < wordLimit := by
  have hlines := length_le_size (moduleLines cs ds)
  have hlength : (moduleLines cs ds).length = cs.length + ds.length := by simp [moduleLines]
  have hwidth : width cs ≤ cs.length := List.countP_le_length
  omega

theorem linked_of_assemble (h : IsModule cs ds)
    (hq : assemble (render (moduleLines cs ds)) = .ok q)
    (hsize : (render (moduleLines cs ds)).size < wordLimit) :
    (Machine.Image.ofAssembled q ds).Linked := by
  obtain ⟨-, hlays, hcode, -⟩ := sits_of_assemble h hq
  obtain ⟨hcs, hds⟩ := sizes_lt hsize
  refine ⟨?_, hds, fun x a hx => ?_⟩
  · have hlength : q.program.code.size = width cs := by simp [Assembled.program, hcode]
    change q.program.code.size < wordLimit
    omega
  · have hmem := hlays.mem_data x a hx
    change q.labels.target? x = some (.data a) at hx
    rw [hlays.address x hmem] at hx
    cases hx
    exact ⟨hmem, rfl⟩

end Assembler

namespace Compiler

open Machine

variable {s : State} {p : Source.Program} {body : List Line} {q : Assembled}

/-- A translated program at the start of its run: a fresh machine has loaded it and stands at the first
instruction, with every variable at zero. -/
structure Ready (P : Image) (q : Assembled) (body : List Line) (b : Machine) : Prop where
  linked : P.Linked
  block : P.Sits 0 body
  halt : P.Sits (width body) [.halt]
  load : LoadsAs q.program b
  sees : Sees P 0 (fun _ => 0) (#[] : Array Word) b

theorem Translates.ready (h : Translates s p body)
    (hq : assemble (render s.main.listing.written.toList) = .ok q)
    (hsize : (render s.main.listing.written.toList).size < wordLimit) :
    ∃ b, Ready (.ofAssembled q s.dataNames) q body b := by
  rw [h.written] at hq hsize
  obtain ⟨hwords, -, -, -, hsits⟩ := sits_of_assemble h.isModule hq
  obtain ⟨hblock, hhalt⟩ := Image.sits_append.1 hsits
  rw [Nat.zero_add] at hhalt
  have hcount : q.dataSize.toInt = s.dataNames.length := by
    rw [hwords, toInt_ofNat (sizes_lt hsize).2]
  have hload : LoadsAs q.program { ({} : Machine) with
      code := q.program.code, memory := Array.replicate s.dataNames.length 0 } := by
    intro capacity hfits
    have hsize : q.program.dataSize.toInt = s.dataNames.length := hcount
    have hloads : ¬(q.program.dataSize.toInt < 0 ∨ capacity < q.program.dataSize.toInt) := by omega
    rw [load?, if_neg hloads, hsize, Int.toNat_natCast]
  refine ⟨_, linked_of_assemble h.isModule hq hsize, hblock, hhalt, hload, ?_⟩
  refine ⟨rfl, rfl, rfl, rfl, Array.size_replicate, rfl, fun x hx _ => ?_, rfl⟩
  have hlt : s.dataNames.idxOf x < s.dataNames.length := List.idxOf_lt_length_of_mem hx
  change (Array.replicate s.dataNames.length (0 : Word))[s.dataNames.idxOf x]?.getD 0 = 0
  rw [Array.getElem?_replicate, if_pos hlt]
  rfl

/-- The program, loaded into any machine that has the memory and whose output takes every line, ends like a
run of its source: from some number of steps on, every run prints `o`, reports a division by zero or nothing, and in the
latter case leaves the values of the variables in memory. -/
def Realizes (q : Assembled) (vars : List Text) (o : List Word) (r : Ending) : Prop :=
  ∃ N : Nat, ∀ (m : Machine) (capacity : Nat), m.room = none → q.dataSize.toInt ≤ capacity →
    ∃ m₀ f m', m.load? q.program capacity = some m₀ ∧
    (∀ limit n, N ≤ n → runFor limit n m₀ = (f, m')) ∧
    (N ≤ m.maxSteps.toInt → m₀.run = (f, m')) ∧
    m'.halted = true ∧ m'.printedFrom m.output.size = printed o ∧
    match r with
    | .normal σ => f = none ∧ ∀ x ∈ vars, ∃ a,
        q.labels.target? x = some (.data a) ∧ m'.readMemory a = .ok (σ x)
    | .divideByZero => ∃ pc i, f = some (.failed pc i .divideByZero)

/-- The program, loaded into any machine that has the memory and whose output takes every line, is only stopped
by the bound on steps. -/
def Diverges (q : Assembled) : Prop :=
  ∀ (m : Machine) (capacity : Nat), m.room = none → q.dataSize.toInt ≤ capacity →
    ∃ m₀, m.load? q.program capacity = some m₀ ∧
    (∀ limit n, (runFor limit n m₀).1 = some (.stepLimit limit)) ∧
    m₀.run.1 = some (.stepLimit m.limit)

/-- A step that halts the machine, and how it is reported. -/
def Closes (P : Image) (m : Machine) (o : List Word) (r : Ending) : Prop :=
  ∃ f, m.halted = false ∧ m.step = (f, m.stopped) ∧ m.output = o.toArray ∧
    match r with
    | .normal σ => f = none ∧ ∃ k, Sees P k σ o.toArray m
    | .divideByZero => ∃ pc i, f = some (.failed pc i .divideByZero)

theorem Ready.closes {P : Image} {b : Machine} (hb : Ready P q body b)
    (h : Translates s p body) {o : List Word} {r : Ending} (hr : p.Runs o r) :
    ∃ m, Machine.Path (Safe P s.symbols p.name) b m ∧ Safe P s.symbols p.name m ∧ Closes P m o r := by
  have hf := h.statement.follows hb.linked hr h.typed hb.block Store.boolean_zero hb.sees
  rw [Nat.zero_add, Array.empty_append] at hf
  cases r with
  | normal σ =>
    obtain ⟨hσ, m, hp, hm⟩ := hf
    obtain ⟨hw, hs⟩ := hm.halt hb.linked hb.halt
    exact ⟨m, hp, ⟨σ, _, hσ, hw⟩, none, hm.running, hs, hm.output, rfl, _, hm⟩
  | divideByZero =>
    obtain ⟨m, i, hp, hsafe, hout, hs⟩ := hf
    have hrun : m.halted = false := by
      obtain ⟨_, _, _, _, _, hm⟩ := hsafe
      exact hm.running
    exact ⟨m, hp, hsafe, _, hrun, hs, hout, m.pc, i, rfl⟩

theorem Ready.lasts {P : Image} {b : Machine} (hb : Ready P q body b) (h : Translates s p body)
    (hno : ∀ o r, ¬p.Runs o r) (n : Nat) : Lasts (Safe P s.symbols p.name) n b :=
  h.statement.lasts hb.linked h.typed hb.block Store.boolean_zero hb.sees hno n

/-- A variable is read at the address of its label. -/
theorem Ready.readMemory_eq {b m : Machine} (h : Translates s p body)
    (hq : assemble (render s.main.listing.written.toList) = .ok q)
    (hb : Ready (.ofAssembled q s.dataNames) q body b) {k : Nat} {σ : Store} {out : Array Word}
    (hm : Sees (.ofAssembled q s.dataNames) k σ out m) {x : Text}
    (hx : x ∈ s.symbols.storage p.name) :
    ∃ a, q.labels.target? x = some (.data a) ∧ m.readMemory a = .ok (σ x) := by
  rw [h.written] at hq
  rw [← h.program] at hx
  have hdata : x ∈ s.dataNames := State.mem_dataNames.2 (.inl hx)
  obtain ⟨-, hlays, -⟩ := sits_of_assemble h.isModule hq
  have hread := hm.readMemory_eq hb.linked hdata (h.storage_isIdentifier hx)
  exact ⟨_, hlays.address x hdata, hread⟩

/-- The program does what a run of its source does. -/
theorem Translates.realizes (h : Translates s p body)
    (hq : assemble (render s.main.listing.written.toList) = .ok q)
    (hsize : (render s.main.listing.written.toList).size < wordLimit) {o : List Word} {r : Ending}
    (hr : p.Runs o r) : Realizes q (s.symbols.storage p.name) o r := by
  obtain ⟨b, hb⟩ := h.ready hq hsize
  obtain ⟨m₁, hp, -, f, hrun, hs, hout, hend⟩ := hb.closes h hr
  obtain ⟨N, hN⟩ := hp.ends hb.load hrun hs rfl
  refine ⟨N, fun m capacity hroom hfits => ?_⟩
  obtain ⟨m₀, hload, hfor, hbound⟩ := hN m capacity hroom hfits
  refine ⟨m₀, f, _, hload, hfor, hbound, rfl, ?_, ?_⟩
  · rw [printedFrom_resumed]
    change printed m₁.output.toList = printed o
    rw [hout]
  · cases r with
    | divideByZero => exact hend
    | normal σ =>
      obtain ⟨hf, k, hm⟩ := hend
      exact ⟨hf, fun x hx => hb.readMemory_eq h hq hm hx⟩

/-- The program runs on if no run of its source ends. -/
theorem Translates.diverges (h : Translates s p body)
    (hq : assemble (render s.main.listing.written.toList) = .ok q)
    (hsize : (render s.main.listing.written.toList).size < wordLimit)
    (hno : ∀ o r, ¬p.Runs o r) : Diverges q := by
  obtain ⟨b, hb⟩ := h.ready hq hsize
  intro m capacity hroom hfits
  exact hb.load.exhausts (hb.lasts h hno) hroom hfits

variable {trace : Bool} {source : Text}

/-- Compilation keeps the meaning of the source: the one program that a source denotes is what its code
does on the machine. -/
theorem compile_preserves (h : (compile { trace } source).outcome = .success)
    (hq : assemble (compile { trace } source).assembly = .ok q)
    (hsize : (compile { trace } source).assembly.size < wordLimit) :
    ∃ p, (∀ p', Denotes source p' ↔ p' = p) ∧
      (∀ o r, p.Runs o r → Realizes q ((compile { trace } source).symbols.storage p.name) o r) ∧
      ((∀ o r, ¬p.Runs o r) → Diverges q) := by
  obtain ⟨p, body, hp, ht⟩ := translates_of_success h
  exact ⟨p, hp, fun o r hr => ht.realizes hq hsize hr, ht.diverges hq hsize⟩

/-- A loop that prints, before a division by the zero that it leaves. -/
def countdown : Text :=
  "program p; n: int; begin n := 3; while n > 0 loop begin print n * n; n := n - 1; end; " ++
    "print 1 / n; end;"

theorem compile_preserves_countdown :
    (compile {} countdown).outcome = .success ∧
      (compile {} countdown).assembly.size < wordLimit ∧
      ∃ q, assemble (compile {} countdown).assembly = .ok q ∧
        ∃ p, (∀ p', Denotes countdown p' ↔ p' = p) ∧
          (∀ o r, p.Runs o r → Realizes q ((compile {} countdown).symbols.storage p.name) o r) ∧
          ((∀ o r, ¬p.Runs o r) → Diverges q) := by
  obtain ⟨hsuccess, hsize, hok⟩ : (compile {} countdown).outcome = .success ∧
      (compile {} countdown).assembly.size < wordLimit ∧
      (assemble (compile {} countdown).assembly).isOk = true := by decide +kernel
  cases hq : assemble (compile {} countdown).assembly with
  | error e =>
    rw [hq] at hok
    cases hok
  | ok q =>
    exact ⟨hsuccess, hsize, q, rfl, compile_preserves hsuccess hq hsize⟩

end Compiler

end OnePass
