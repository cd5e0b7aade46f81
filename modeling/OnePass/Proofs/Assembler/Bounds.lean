import OnePass.Proofs.Machine.WellFormed

namespace OnePass

open Assembler Machine

theorem Text.length_le_size (t : Text) : t.length ≤ t.size := by
  induction t with
  | nil => simp
  | cons g t ih =>
    have hsize : Text.size (g :: t) = g.bytes.length + Text.size t := by
      simp [Text.size, Text.bytes]
    have hglyph : 0 < g.bytes.length := by
      cases g with
      | char c =>
        have hpos := c.utf8Size_pos
        simpa [Glyph.bytes] using hpos
      | stray b => simp [Glyph.bytes]
    rw [List.length_cons, hsize]
    omega

/-- A line that is not empty takes a glyph of its own. -/
theorem Text.countP_splitAt_le (sep : Glyph) (t : Text) :
    (splitAt sep t).countP (fun w => !w.isEmpty) ≤ t.length := by
  induction t with
  | nil => simp [splitAt]
  | cons g t ih =>
    rw [splitAt, List.length_cons]
    split
    · simp
      omega
    · cases hsplit : splitAt sep t with
      | nil => simp
      | cons w ws =>
        rw [hsplit, List.countP_cons] at ih
        simp only [List.countP_cons, List.isEmpty_cons]
        simp only [Bool.not_false, if_true]
        omega

namespace Assembler

variable {raws : List Text} {ss : List Statement} {s : Statement} {i : Nat} {t : Target}

/-- A line with an instruction is not empty. -/
theorem isEmpty_eq_false {raw : Text} (hread : Statement.read raw = .ok s)
    (hs : s.isInstruction = true) : raw.isEmpty = false := by
  cases raw with
  | nil =>
    cases hread
    cases hs
  | cons g t => rfl

theorem instructionCount_le (h : ReadAs raws ss) :
    instructionCount ss ≤ raws.countP fun raw => !raw.isEmpty := by
  induction h with
  | nil => simp [instructionCount]
  | @cons raw s raws ss hread _ ih =>
    simp only [instructionCount, List.countP_cons] at ih ⊢
    by_cases hs : s.isInstruction = true
    · have hraw := isEmpty_eq_false hread hs
      simp only [hs, hraw, Bool.not_false, if_true]
      omega
    · simp only [hs, Bool.false_eq_true, if_false]
      omega

/-- What a line says, nothing if it cannot be read. -/
def statementOf (raw : Text) : Statement := (Statement.read raw).toOption.getD {}

theorem ReadAs.eq_map (h : ReadAs raws ss) : ss = raws.map statementOf := by
  induction h with
  | nil => rfl
  | @cons raw s raws ss hread _ ih =>
    have hline : statementOf raw = s := by
      rw [statementOf, hread]
      rfl
    rw [List.map_cons, hline, ← ih]

theorem exists_of_mem_right {α β : Type} {R : α → β → Prop} {as : List α} {bs : List β} {b : β}
    (h : List.Forall₂ R as bs) (hb : b ∈ bs) : ∃ a ∈ as, R a b := by
  induction h with
  | nil => cases hb
  | @cons a b' _ _ hab _ ih =>
    rcases List.mem_cons.1 hb with rfl | hb
    · exact ⟨a, by simp, hab⟩
    · obtain ⟨a', ha', hr⟩ := ih hb
      exact ⟨a', List.mem_cons_of_mem _ ha', hr⟩

theorem take_append_cons (hs : ss[i]? = some s) : ss = ss.take i ++ s :: ss.drop (i + 1) := by
  obtain ⟨hi, hget⟩ := List.getElem?_eq_some_iff.1 hs
  rw [← hget, ← List.drop_eq_getElem_cons hi, List.take_append_drop]

theorem instructionCount_take_le (i : Nat) (ss : List Statement) :
    instructionCount (ss.take i) ≤ instructionCount ss :=
  (List.take_sublist i ss).countP_le

/-- The words of a line lie within those of all lines. -/
theorem wordCount_take_add_le (hs : ss[i]? = some s) :
    wordCount (ss.take i) + s.words ≤ wordCount ss := by
  have hsum : wordCount ss = wordCount (ss.take i ++ s :: ss.drop (i + 1)) :=
    congrArg wordCount (take_append_cons hs)
  rw [hsum, wordCount_append, wordCount]
  omega

theorem inBounds_code {k size words : Nat} (hk : k ≤ size) (hsize : size < wordLimit) :
    (Target.code k).operand.InBounds size words := by
  refine ⟨by simp [Target.operand], ?_⟩
  intro k' hk'
  cases hk'
  rw [toInt_ofNat (by omega)]
  omega

theorem inBounds_data {a size words : Nat} (ha : a < words) (hwords : words < wordLimit) :
    (Target.data (Int64.ofNat a)).operand.InBounds size words := by
  refine ⟨?_, by simp [Target.operand]⟩
  intro a' ha'
  cases ha'
  rw [toInt_ofNat (by omega)]
  omega

/-- Every label stands for a place of the code, the end of the code or an address of the memory. -/
theorem Resolves.inBounds (hlegal : ∀ s ∈ ss, s.Legal) (hsize : instructionCount ss < wordLimit)
    (hwords : wordCount ss < wordLimit) (h : Resolves ss i t) :
    t.operand.InBounds (instructionCount ss) (wordCount ss) := by
  cases h with
  | @line j s _ hs _ _ =>
    rw [placeBehind]
    split
    · rename_i hdata
      have hpos := (hlegal s (List.mem_of_getElem? hs)).size hdata
      have hle := wordCount_take_add_le hs
      exact inBounds_data (by omega) hwords
    · exact inBounds_code (instructionCount_take_le j ss) hsize
  | behind _ => exact inBounds_code (Nat.le_refl _) hsize

theorem Spells.inBounds {w : Text} {o : Operand} (hlegal : ∀ s ∈ ss, s.Legal)
    (hsize : instructionCount ss < wordLimit) (hwords : wordCount ss < wordLimit)
    (h : Spells ss w o) : o.InBounds (instructionCount ss) (wordCount ss) := by
  cases h with
  | register => exact ⟨by simp, by simp⟩
  | immediate => exact ⟨by simp, by simp⟩
  | label _ _ ht =>
    obtain ⟨i, s, -, -, hres⟩ := ht
    exact hres.inBounds hlegal hsize hwords

theorem Encodes.wellFormed {c : Instruction} (hlegal : ∀ s ∈ ss, s.Legal)
    (hsize : instructionCount ss < wordLimit) (hwords : wordCount ss < wordLimit)
    (h : Encodes ss s c) : c.WellFormed (instructionCount ss) (wordCount ss) := by
  cases h with
  | @mk op os hop hspelled hadmitted =>
    obtain ⟨m, -, hname⟩ := Option.bind_eq_some_iff.1 hop
    have hknown : op ∈ Mnemonic.known := List.mem_of_find?_eq_some hname
    have hbounds : ∀ o ∈ os, o.InBounds (instructionCount ss) (wordCount ss) := by
      intro o ho
      obtain ⟨w, -, hw⟩ := exists_of_mem_right hspelled ho
      exact hw.inBounds hlegal hsize hwords
    exact .mk hknown hadmitted hbounds

end Assembler

/-- The words of memory that a text asks for in all. -/
def dataWords (text : Text) : Nat := wordCount (text.lines.map statementOf)

variable {text : Text} {p : Assembled} {m m₀ : Machine} {capacity : Nat}

/-- A text whose length and words of data can be counted has well-formed code. -/
theorem wellFormed_of_assemble (h : assemble text = .ok p) (hsize : text.size < wordLimit)
    (hwords : dataWords text < wordLimit) :
    p.code.length < wordLimit ∧ p.dataSize = Int64.ofNat (dataWords text) ∧
      ∀ i ∈ p.program.code, i.WellFormed p.program.code.size (dataWords text) := by
  obtain ⟨ss, hread, hlegal, -, -, hdata, hcode⟩ := assemble_eq_ok h
  have hcount : wordCount ss = dataWords text := congrArg wordCount hread.eq_map
  have hlines := instructionCount_le hread
  have hpieces := Text.countP_splitAt_le (.char '\n') text
  have hglyphs := Text.length_le_size text
  have hlt : instructionCount ss < wordLimit := by
    change _ ≤ (Text.splitAt _ text).countP _ at hlines
    omega
  have hlength : p.code.length = instructionCount ss := by
    rw [← hcode.length_eq, length_instructionLines]
  have hsame : p.program.code.size = instructionCount ss := by simp [Assembled.program, hlength]
  rw [← hcount] at hwords ⊢
  refine ⟨by omega, hdata, ?_⟩
  intro i hi
  obtain ⟨e, he, rfl⟩ : ∃ e ∈ p.code, e.1 = i := by simpa [Assembled.program] using hi
  obtain ⟨l, -, hencodes⟩ := exists_of_mem_right hcode he
  rw [hsame]
  exact hencodes.2.wellFormed hlegal hlt hwords

/-- A program is loaded with its counter at the start of its code. -/
theorem contained_of_load? (h : m.load? p.program capacity = some m₀) (hroom : m.room = none) :
    Contained p.program.code p.dataSize.toInt.toNat m₀ := by
  rw [load?] at h
  split at h
  · cases h
  · cases h
    exact ⟨rfl, by simp [Assembled.program], hroom, by simp, by simp⟩

/-- Assembled code keeps every machine that has loaded it within the code and its memory. -/
theorem assemble_contained (h : assemble text = .ok p) (hsize : text.size < wordLimit)
    (hwords : dataWords text < wordLimit) (hroom : m.room = none)
    (hload : m.load? p.program capacity = some m₀) (n : Nat) :
      (0 ≤ (m₀.afterSteps n).pc.toInt ∧ (m₀.afterSteps n).pc.toInt ≤ p.code.length) ∧
      ∀ f, (m₀.afterSteps n).step.1 = some f →
        (∃ pc i, f = .failed pc i .divideByZero) ∨
        (f = .badCounter (m₀.afterSteps n).pc ∧ (m₀.afterSteps n).pc.toInt = p.code.length) := by
  obtain ⟨hlength, hdata, hcode⟩ := wellFormed_of_assemble h hsize hwords
  have hlt : p.program.code.size < wordLimit := by simpa [Assembled.program] using hlength
  have hwordsEq : p.dataSize.toInt.toNat = dataWords text := by
    rw [hdata, toInt_ofNat hwords, Int.toNat_natCast]
  have hstart := contained_of_load? hload hroom
  rw [hwordsEq] at hstart
  have hsame : p.program.code.size = p.code.length := by simp [Assembled.program]
  have hn := hstart.afterSteps hcode hlt n
  have hle := hn.le_size
  rw [hsame] at hle
  refine ⟨⟨hn.nonneg, hle⟩, ?_⟩
  intro f hf
  cases (hn.step hcode hlt).2 f hf with
  | divideByZero => exact .inl ⟨_, _, rfl⟩
  | behind hbehind =>
    rw [hsame] at hbehind
    exact .inr ⟨rfl, hbehind⟩

/-- Branches to a label behind the code, over a division by a word of data that is zero. -/
def overTheEnd : Text :=
  "  move R0 #7\n  brpo R0, past\n  div R0, none\nnone: data 1\n  halt\npast:\n"

theorem assemble_contained_overTheEnd :
    overTheEnd.size < wordLimit ∧ dataWords overTheEnd = 1 ∧
      ∃ p, assemble overTheEnd = .ok p ∧ p.dataSize = 1 ∧ ∀ m : Machine, m.room = none →
        ∃ m₀, m.load? p.program 1 = some m₀ ∧ ∀ n,
          (0 ≤ (m₀.afterSteps n).pc.toInt ∧ (m₀.afterSteps n).pc.toInt ≤ p.code.length) ∧
          ∀ f, (m₀.afterSteps n).step.1 = some f →
            (∃ pc i, f = .failed pc i .divideByZero) ∨
            (f = .badCounter (m₀.afterSteps n).pc ∧ (m₀.afterSteps n).pc.toInt = p.code.length) := by
  have hok : (assemble overTheEnd).toOption.map (fun p => p.dataSize) = some 1 := by decide +kernel
  obtain ⟨p, hp, hdata⟩ := exists_of_assemble_map hok
  refine ⟨by decide +kernel, by decide +kernel, p, hp, hdata, ?_⟩
  intro m hroom
  have hcount : p.program.dataSize.toInt = (1 : Nat) := congrArg Int64.toInt hdata
  obtain ⟨m₀, hload, -⟩ := exists_load? (by rw [hcount]; decide) (Int.le_of_eq hcount) m
  exact ⟨_, hload, assemble_contained hp (by decide +kernel) (by decide +kernel) hroom hload⟩

end OnePass
