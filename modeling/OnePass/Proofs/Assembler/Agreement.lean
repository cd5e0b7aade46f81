import OnePass.Proofs.Assembler.Resolution

namespace OnePass

open Assembler Machine

namespace Assembler

/-- The lines with an instruction, with their numbers from `n` on. -/
def instructionLines (n : Nat) (ss : List Statement) : List (Statement × Nat) :=
  (ss.zipIdx n).filter fun l => l.1.isInstruction

/-- The operands that a place in an instruction takes. -/
inductive OperandClass.Admits : OperandClass → Operand → Prop where
  | register {c : OperandClass} {n : Word} (hc : c = .register ∨ c = .dest ∨ c = .source)
      (hnonneg : 0 ≤ n.toInt) (hlt : n.toInt < 4) : Admits c (.register n)
  | immediate {n : Word} : Admits .source (.immediate n)
  | memory {c : OperandClass} {a : Word} (hc : c = .dest ∨ c = .source ∨ c = .dataLabel) :
      Admits c (.memory a)
  | code {i : Word} : Admits .codeLabel (.code i)

/-- The operand that a word stands for among the lines: a register or a number by its shape, else the target
of the label. -/
inductive Spells (ss : List Statement) : Text → Operand → Prop where
  | register {w : Text} {n : Word} (hw : isRegister w = true)
      (hn : Numeral.readWord (w.drop 1) = .ok n) : Spells ss w (.register n)
  | immediate {w : Text} {n : Word} (hr : isRegister w = false) (hw : w.head? = some (.char '#'))
      (hn : Numeral.readWord (w.drop 1) = .ok n) : Spells ss w (.immediate n)
  | label {w : Text} {t : Target} (hr : isRegister w = false) (hw : w.head? ≠ some (.char '#'))
      (ht : Marks ss w t) : Spells ss w t.operand

/-- An instruction with its operands in order. -/
def instructionOf (op : Mnemonic) (os : List Operand) : Instruction :=
  { op, a := os[0]?.getD .absent, b := os[1]?.getD .absent }

/-- The instruction that a line means among the lines. -/
inductive Encodes (ss : List Statement) (s : Statement) : Instruction → Prop where
  | mk {op : Mnemonic} {os : List Operand} (hop : s.mnemonic.bind Mnemonic.ofName? = some op)
      (hspelled : List.Forall₂ (Spells ss) s.operands os)
      (hadmitted : List.Forall₂ OperandClass.Admits (signature op) os) :
      Encodes ss s (instructionOf op os)

section SecondPass

variable {ss : List Statement} {s : Statement} {ls : Labels} {c : OperandClass} {w : Text}
  {o : Operand}

/-- The digits of a register have no sign. -/
theorem readWord_register {n : Word} (hw : isRegister w = true)
    (hn : Numeral.readWord (w.drop 1) = .ok n) : 0 ≤ n.toInt := by
  unfold isRegister at hw
  split at hw
  · rename_i g t
    have hg : g.isDigit = true := (Bool.and_eq_true_iff.1 hw).1
    have hminus : g ≠ .char '-' := by
      intro h
      rw [h] at hg
      exact absurd hg (by decide)
    exact Numeral.readWord_nonneg hminus hn
  · cases hw

theorem readRegister_eq_ok (hw : isRegister w = true) (h : readRegister w = .ok o) :
    ∃ n, Numeral.readWord (w.drop 1) = .ok n ∧ o = .register n ∧ 0 ≤ n.toInt ∧ n.toInt < 4 := by
  unfold readRegister at h
  split at h
  · rename_i n hn
    split at h
    · rename_i hlt
      cases h
      rw [Int64.lt_iff_toInt_lt] at hlt
      exact ⟨n, hn, rfl, readWord_register hw hn, hlt⟩
    · cases h
  · cases h

theorem readImmediate_eq_ok (h : readImmediate w = .ok o) :
    ∃ n, Numeral.readWord (w.drop 1) = .ok n ∧ o = .immediate n := by
  unfold readImmediate at h
  split at h
  · rename_i n hn
    cases h
    exact ⟨n, hn, rfl⟩
  · cases h

theorem readLabel_eq_ok (h : readLabel ls c w = .ok o) :
    ∃ t, ls.target? w = some t ∧ o = t.operand ∧ c.Admits o := by
  cases ht : ls.target? w with
  | none => cases c <;> simp [readLabel, ht] at h
  | some t =>
    have hbound : o = t.operand ∧ c.Admits o := by
      cases t with
      | code i =>
        cases c <;> simp [readLabel, ht] at h
        rw [← h]
        exact ⟨rfl, .code⟩
      | data a =>
        cases c <;> simp [readLabel, ht] at h <;> rw [← h]
        · exact ⟨rfl, .memory (by simp)⟩
        · exact ⟨rfl, .memory (by simp)⟩
        · exact ⟨rfl, .memory (by simp)⟩
    exact ⟨t, rfl, hbound⟩

/-- An operand is what its word stands for, and one that its place takes. -/
theorem readOperand_eq_ok (hls : ∀ x t, ls.target? x = some t ↔ Marks ss x t)
    (h : readOperand ls c w = .ok o) : Spells ss w o ∧ c.Admits o := by
  unfold readOperand at h
  split at h
  · rename_i hr
    split at h
    · cases h
    · rename_i hc
      obtain ⟨n, hn, rfl, hnonneg, hlt⟩ := readRegister_eq_ok hr h
      have hplace : c = .register ∨ c = .dest ∨ c = .source := by
        cases c <;> simp at hc ⊢
      exact ⟨.register hr hn, .register hplace hnonneg hlt⟩
  · rename_i hr
    have hr : isRegister w = false := by simpa using hr
    split at h
    · rename_i hw
      split at h
      · rename_i hc
        obtain ⟨n, hn, rfl⟩ := readImmediate_eq_ok h
        rw [hc]
        exact ⟨.immediate hr hw hn, .immediate⟩
      · cases h
    · rename_i hw
      split at h
      · obtain ⟨t, ht, rfl, hadmits⟩ := readLabel_eq_ok h
        exact ⟨.label hr hw ((hls w t).1 ht), hadmits⟩
      · cases h

theorem readOperands_eq_ok {op : Mnemonic} {name : Text} {ws : List Text} {i : Instruction}
    (hls : ∀ x t, ls.target? x = some t ↔ Marks ss x t)
    (h : readOperands ls op name ws = .ok i) :
    ∃ os, i = instructionOf op os ∧ List.Forall₂ (Spells ss) ws os ∧
      List.Forall₂ OperandClass.Admits (signature op) os := by
  unfold readOperands at h
  split at h
  · rename_i hsig
    cases h
    rw [hsig]
    exact ⟨[], rfl, .nil, .nil⟩
  · rename_i c w hsig
    cases ha : readOperand ls c w with
    | error e =>
      rw [ha] at h
      cases h
    | ok a =>
      rw [ha] at h
      cases h
      have hword := readOperand_eq_ok hls ha
      rw [hsig]
      exact ⟨[a], rfl, .cons hword.1 .nil, .cons hword.2 .nil⟩
  · rename_i c d w u hsig
    cases ha : readOperand ls c w with
    | error e =>
      rw [ha] at h
      cases h
    | ok a =>
      cases hb : readOperand ls d u with
      | error e =>
        rw [ha, hb] at h
        cases h
      | ok b =>
        rw [ha, hb] at h
        cases h
        have hfirst := readOperand_eq_ok hls ha
        have hsecond := readOperand_eq_ok hls hb
        rw [hsig]
        exact ⟨[a, b], rfl, .cons hfirst.1 (.cons hsecond.1 .nil),
          .cons hfirst.2 (.cons hsecond.2 .nil)⟩
  · cases h

theorem ofName?_data : Mnemonic.ofName? Layout.dataDirective = none := by decide

/-- A line that holds no instruction has no mnemonic of one. -/
theorem ofName?_eq_none (h : s.isInstruction = false) : s.mnemonic.bind Mnemonic.ofName? = none := by
  cases hm : s.mnemonic with
  | none => simp
  | some m =>
    have hdata : m = Layout.dataDirective := by simpa [Statement.isInstruction, hm] using h
    simp [hdata, ofName?_data]

theorem instruction?_none {raw : Text} (hread : Statement.read raw = .ok s)
    (h : s.isInstruction = false) : instruction? ls raw = .ok none := by
  have hname := ofName?_eq_none h
  cases hm : s.mnemonic with
  | none =>
    rw [instruction?, hread]
    simp [hm, pure, Except.pure, bind, Except.bind]
  | some m =>
    have hop : Mnemonic.ofName? m = none := by simpa [hm] using hname
    rw [instruction?, hread]
    simp [hm, hop, pure, Except.pure, bind, Except.bind]

/-- The instruction of a line that has one means what the line says. -/
theorem instruction?_eq_ok {raw : Text} {r : Option Instruction}
    (hls : ∀ x t, ls.target? x = some t ↔ Marks ss x t) (hread : Statement.read raw = .ok s)
    (hlegal : s.Legal) (hs : s.isInstruction = true) (h : instruction? ls raw = .ok r) :
    ∃ i, r = some i ∧ Encodes ss s i := by
  obtain ⟨op, hop⟩ := Option.isSome_iff_exists.1 (hlegal.named hs)
  obtain ⟨m, hm, hname⟩ := Option.bind_eq_some_iff.1 hop
  rw [instruction?, hread] at h
  simp only [bind, Except.bind, hm, Option.bind_some, hname, Option.map_some] at h
  cases hi : readOperands ls op m s.operands with
  | error e =>
    rw [hi] at h
    cases h
  | ok i =>
    rw [hi] at h
    cases h
    obtain ⟨os, rfl, hspelled, hadmitted⟩ := readOperands_eq_ok hls hi
    exact ⟨_, rfl, .mk hop hspelled hadmitted⟩

/-- An instruction with its line number is that of a line with its number. -/
def IsCodeOf (ss : List Statement) (l : Statement × Nat) (e : Instruction × Nat) : Prop :=
  e.2 = l.2 ∧ Encodes ss l.1 e.1

/-- The second pass goes through the lines with an instruction. -/
theorem secondPass_eq_ok {raws : List Text} {rest : List Statement} {n : Nat}
    {code : List (Instruction × Nat)} (hls : ∀ x t, ls.target? x = some t ↔ Marks ss x t)
    (hread : ReadAs raws rest) (hlegal : ∀ s ∈ rest, s.Legal)
    (h : secondPass ls n raws = .ok code) :
    List.Forall₂ (IsCodeOf ss) (instructionLines n rest) code := by
  induction hread generalizing n code with
  | nil =>
    cases h
    exact .nil
  | @cons raw s raws rest hs _ ih =>
    obtain ⟨hlegals, hlegalr⟩ := List.forall_mem_cons.1 hlegal
    rw [secondPass] at h
    by_cases hi : s.isInstruction = true
    · have hlines : instructionLines n (s :: rest) = (s, n) :: instructionLines (n + 1) rest := by
        simp [instructionLines, hi]
      rw [hlines]
      cases hr : instruction? ls raw with
      | error e =>
        rw [hr] at h
        cases h
      | ok r =>
        obtain ⟨i, rfl, hencodes⟩ := instruction?_eq_ok hls hs hlegals hi hr
        rw [hr] at h
        cases hcode : secondPass ls (n + 1) raws with
        | error e =>
          rw [hcode] at h
          cases h
        | ok code =>
          rw [hcode] at h
          cases h
          have hhead : IsCodeOf ss (s, n) (i, n) := ⟨rfl, hencodes⟩
          exact .cons hhead (ih hlegalr hcode)
    · have hi : s.isInstruction = false := by simpa using hi
      have hlines : instructionLines n (s :: rest) = instructionLines (n + 1) rest := by
        simp [instructionLines, hi]
      rw [hlines]
      rw [instruction?_none hs hi] at h
      exact ih hlegalr h

/-- The instruction of a line in the code. -/
theorem exists_code_of_line {code : List (Instruction × Nat)} {k n : Nat}
    (h : List.Forall₂ (IsCodeOf ss) (instructionLines 1 ss) code)
    (hk : (instructionLines 1 ss)[k]? = some (s, n)) :
    ∃ i, code[k]? = some (i, n) ∧ Encodes ss s i := by
  obtain ⟨hlt, hget⟩ := List.getElem?_eq_some_iff.1 hk
  have hlt' : k < code.length := by rwa [← h.length_eq]
  have hline := h.get hlt hlt'
  rw [List.get_eq_getElem, hget] at hline
  have hentry : code.get ⟨k, hlt'⟩ = ((code.get ⟨k, hlt'⟩).1, n) := Prod.ext rfl hline.1
  refine ⟨_, ?_, hline.2⟩
  rw [List.getElem?_eq_getElem hlt', ← hentry]
  rfl

theorem length_instructionLines (n : Nat) (ss : List Statement) :
    (instructionLines n ss).length = instructionCount ss := by
  induction ss generalizing n with
  | nil => simp [instructionLines, instructionCount]
  | cons s ss ih =>
    have htail := ih (n + 1)
    simp only [instructionLines, instructionCount, List.zipIdx_cons, List.countP_cons] at htail ⊢
    by_cases hi : s.isInstruction = true
    · simp [hi, htail]
    · simp [hi, htail]

end SecondPass

end Assembler

/-- What an assembled program has to do with the lines of its text. -/
structure Assembled.Agrees (p : Assembled) (ss : List Statement) : Prop where
  length : p.code.length = instructionCount ss
  /-- The instructions are those of the lines that have one, in order, each with the number of its line. -/
  code : ∀ (k : Nat) (s : Statement) (n : Nat), (instructionLines 1 ss)[k]? = some (s, n) →
    ∃ i, p.code[k]? = some (i, n) ∧ Encodes ss s i
  /-- The labels are those that are written, each once. -/
  names : p.labels.map Prod.fst = labelNames ss
  distinct : (labelNames ss).Nodup
  /-- A label stands for what the line where it is written says. -/
  target : ∀ (i : Nat) (s : Statement) (x : Text), ss[i]? = some s → x ∈ s.labels →
    ∃ t, p.labels.target? x = some t ∧ Resolves ss i t

variable {text : Text} {p : Assembled}

/-- Both passes over a text that is accepted. -/
theorem passes_of_assemble (h : assemble text = .ok p) :
    ∃ l, firstPass { labels := [] } 1 text.lines = (.ok l, p.labels) ∧ l.address = p.dataSize ∧
      secondPass p.labels 1 text.lines = .ok p.code := by
  rw [assemble, assembleWith] at h
  cases hfirst : firstPass { labels := [] } 1 text.lines with
  | mk r ls =>
    rw [hfirst] at h
    cases r with
    | error e => cases h
    | ok l =>
      cases hcode : secondPass ls 1 text.lines with
      | error e =>
        simp only [hcode] at h
        cases h
      | ok code =>
        simp only [hcode] at h
        cases h
        exact ⟨l, rfl, rfl, hcode⟩

/-- A text that is accepted, as the two passes see it. -/
theorem assemble_eq_ok (h : assemble text = .ok p) :
    ∃ ss, ReadAs text.lines ss ∧ (∀ s ∈ ss, s.Legal) ∧ (labelNames ss).Nodup ∧
      p.labels = (ss.foldl Layout.past { labels := [] }).finish.labels ∧
      p.dataSize = Int64.ofNat (wordCount ss) ∧
      List.Forall₂ (IsCodeOf ss) (instructionLines 1 ss) p.code := by
  obtain ⟨l, hfirst, hsize, hcode⟩ := passes_of_assemble h
  obtain ⟨ss, hread, hlegal, hnodup, rfl, hlabels⟩ := firstPass_eq_ok hfirst (by simp [Layout.known])
  have hnames : (labelNames ss).Nodup := by simpa [Layout.known] using hnodup
  have haddress : (ss.foldl Layout.past { labels := [] }).finish.address =
      Int64.ofNat (wordCount ss) := by
    have hsum := Layout.address_pasts { labels := [] } ss
    rwa [Int64.zero_add] at hsum
  rw [hlabels] at hcode
  exact ⟨ss, hread, hlegal, hnames, hlabels, hsize.symm.trans haddress,
    secondPass_eq_ok (target?_iff_marks hnames) hread hlegal hcode⟩

/-- The two passes agree on every text that is accepted. -/
theorem assemble_agrees (h : assemble text = .ok p) : ∃ ss, ReadAs text.lines ss ∧ p.Agrees ss := by
  obtain ⟨ss, hread, -, hnames, hlabels, -, hcode⟩ := assemble_eq_ok h
  have hlength : p.code.length = instructionCount ss := by
    rw [← hcode.length_eq, length_instructionLines]
  refine ⟨ss, hread, hlength, ?_, ?_, hnames, ?_⟩
  · exact fun k s n hk => exists_code_of_line hcode hk
  · rw [hlabels, Layout.names_finish, Layout.known_pasts]
    simp [Layout.known]
  · intro i s x hi hx
    rw [hlabels]
    exact target?_written hnames hi hx

/-- A text is accepted if a part of its program can be computed. -/
theorem exists_of_assemble_map {α : Type} {f : Assembled → α} {a : α}
    (h : (assemble text).toOption.map f = some a) : ∃ p, assemble text = .ok p ∧ f p = a := by
  cases hp : assemble text with
  | error e =>
    rw [hp] at h
    cases h
  | ok p =>
    rw [hp] at h
    exact ⟨p, rfl, Option.some.inj h⟩

/-- Labels before and behind their uses, two at one place, and one behind the code. -/
def countingDown : Text :=
  "; two passes\nstart: again:\n  move R1, left // below\n\nleft: data 2\nzero: none:\n  data 3\n" ++
  "  brez R1, end\n  SUB R1 #1\n  brun again\nend:\n"

theorem assemble_agrees_countingDown :
    ∃ p, assemble countingDown = .ok p ∧ p.code.map Prod.snd = [3, 8, 9, 10] ∧
      p.labels.map Prod.snd = [.code 0, .code 0, .data 0, .data 2, .data 2, .code 4] ∧
      ∃ ss, ReadAs countingDown.lines ss ∧ p.Agrees ss := by
  have hok : (assemble countingDown).toOption.map
      (fun p => (p.code.map Prod.snd, p.labels.map Prod.snd)) =
      some ([3, 8, 9, 10], [.code 0, .code 0, .data 0, .data 2, .data 2, .code 4]) := by
    decide +kernel
  obtain ⟨p, hp, hparts⟩ := exists_of_assemble_map hok
  obtain ⟨hnumbers, htargets⟩ := Prod.mk.inj hparts
  exact ⟨p, hp, hnumbers, htargets, assemble_agrees hp⟩

end OnePass
