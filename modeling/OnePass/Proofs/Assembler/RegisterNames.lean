import OnePass.Proofs.Assembler.Bounds

namespace OnePass

open Assembler Machine

namespace Assembler

variable {w x : Text} {r : Nat}

/-- The word names the register: a capital R and ASCII digits for its number. -/
def NamesRegister (w : Text) (r : Nat) : Prop :=
  ∃ c cs, w = .char 'R' :: Text.ofChars (c :: cs) ∧ (∀ d ∈ c :: cs, d.isDigit = true) ∧
    Nat.ofDigitChars 10 (c :: cs) 0 = r ∧ r < 4

theorem isDigit_char {c : Char} (h : c.isDigit = true) : (Glyph.char c).isDigit = true := by
  have hsmall : c.toNat < 0x80 := by
    simp only [Char.isDigit, Bool.and_eq_true, decide_eq_true_eq, UInt32.le_iff_toNat_le] at h
    change c.val.toNat < 128
    have htop : c.val.toNat ≤ 57 := h.2
    omega
  rw [Glyph.isDigit, if_pos hsmall, h]

/-- The name of a register is read as its number. -/
theorem NamesRegister.read (h : NamesRegister w r) :
    isRegister w = true ∧ Numeral.readWord (w.drop 1) = .ok (Int64.ofNat r) := by
  obtain ⟨c, cs, rfl, hdigits, rfl, hlt⟩ := h
  constructor
  · change (Text.ofChars (c :: cs)).all Glyph.isDigit = true
    rw [List.all_eq_true]
    intro g hg
    obtain ⟨d, hd, rfl⟩ := List.mem_map.1 hg
    exact isDigit_char (hdigits d hd)
  · have hword : Nat.ofDigitChars 10 (c :: cs) 0 < wordLimit := Nat.lt_trans hlt (by decide)
    rw [List.drop_one, List.tail_cons, Numeral.readWord_digits hdigits, if_pos hword]

/-- What is read as a register names it. -/
theorem namesRegister_of_read {n : Word} (hw : isRegister w = true)
    (hn : Numeral.readWord (w.drop 1) = .ok n) (hlt : n.toInt < 4) :
    ∃ r, NamesRegister w r ∧ n = Int64.ofNat r := by
  unfold isRegister at hw
  split at hw
  · rename_i g t
    have hg : g.isDigit = true := (Bool.and_eq_true_iff.1 hw).1
    have hsign : g ≠ .char '-' ∧ g ≠ .char '+' := by
      constructor <;> rintro rfl <;> exact absurd hg (by decide)
    rw [List.drop_one, List.tail_cons] at hn
    obtain ⟨c, cs, hcs, hdigits⟩ := Numeral.digits_of_readWord hsign.1 hsign.2 hn
    rw [hcs, Numeral.readWord_digits hdigits] at hn
    split at hn
    · rename_i hword
      cases hn
      rw [toInt_ofNat hword] at hlt
      exact ⟨_, ⟨c, cs, by rw [hcs], hdigits, rfl, by omega⟩, rfl⟩
    · cases hn
  · cases hw

theorem isName_of_splitLabels {before rest : Text} {r : List Text × Text}
    (h : splitLabels before rest = .ok r) : ∀ y ∈ r.1, isName y = true := by
  induction rest generalizing before r with
  | nil =>
    cases h
    simp
  | cons g rest ih =>
    rw [splitLabels] at h
    split at h
    · dsimp only at h
      split at h
      · cases h
      · split at h
        · cases h
          simp
        · split at h
          · rename_i hname
            cases hrest : splitLabels [] rest with
            | error e =>
              rw [hrest] at h
              cases h
            | ok r' =>
              rw [hrest] at h
              cases h
              exact List.forall_mem_cons.2 ⟨hname, ih hrest⟩
          · cases h
    · exact ih h

theorem isName_of_read {raw : Text} {s : Statement} (h : Statement.read raw = .ok s) (hx : x ∈ s.labels) :
    isName x = true := by
  rw [Statement.read] at h
  cases hsplit : splitLabels [] (stripComment raw) with
  | error e =>
    rw [hsplit] at h
    cases h
  | ok r =>
    rw [hsplit] at h
    cases h
    refine isName_of_splitLabels hsplit x ?_
    cases hwords : Text.runs isSeparator [] r.2 with
    | nil => rwa [hwords] at hx
    | cons word words => rwa [hwords] at hx

theorem ReadAs.isName {raws : List Text} {ss : List Statement} (h : ReadAs raws ss)
    (hx : x ∈ labelNames ss) : isName x = true := by
  obtain ⟨s, hs, hx⟩ := List.mem_flatMap.1 hx
  obtain ⟨raw, -, hread⟩ := exists_of_mem_right h hs
  exact isName_of_read hread hx

/-- A name is no number: it does not begin with the mark of one. -/
theorem head_ne_mark (h : isName x = true) : x.head? ≠ some (.char '#') := by
  cases x with
  | nil => simp
  | cons g t =>
    have hstart : isNameStart g = true := (Bool.and_eq_true_iff.1 h).1
    intro hmark
    cases hmark
    exact absurd hstart (by decide)

section Operands

variable {ss : List Statement} {s : Statement} {i : Instruction} {o : Operand} {t : Target}

theorem Marks.unique {t' : Target} (hn : (labelNames ss).Nodup) (h : Marks ss w t) (h' : Marks ss w t') :
    t = t' := by
  rw [← target?_iff_marks hn] at h h'
  exact Option.some.inj (h.symm.trans h')

/-- A label that is written stands for something. -/
theorem exists_marks (h : w ∈ labelNames ss) : ∃ t, Marks ss w t := by
  obtain ⟨s, hs, hw⟩ := List.mem_flatMap.1 h
  obtain ⟨i, hi⟩ := List.mem_iff_getElem?.1 hs
  exact ⟨_, i, s, hi, hw, resolves_nextPlace ss i⟩

theorem operand_ne_register (t : Target) (n : Word) : t.operand ≠ .register n := by
  cases t <;> simp [Target.operand]

/-- A word that is a label is read as the register that it names, or else as the label. -/
theorem Spells.of_marks {c : OperandClass} (h : Spells ss w o) (hc : c.Admits o)
    (hn : (labelNames ss).Nodup) (hname : isName w = true) (ht : Marks ss w t) :
    (o = t.operand ∧ ∀ r, ¬NamesRegister w r) ∨
      ∃ r, NamesRegister w r ∧ o = .register (Int64.ofNat r) := by
  cases h with
  | @register n hw hread =>
    -- the digits may be of any script, but only ASCII ones are read as a number
    cases hc with
    | register _ _ hlt =>
      obtain ⟨r, hr, rfl⟩ := namesRegister_of_read hw hread hlt
      exact .inr ⟨r, hr, rfl⟩
  | immediate _ hmark _ => exact absurd hmark (head_ne_mark hname)
  | label hr _ ht' =>
    obtain rfl := ht.unique hn ht'
    refine .inl ⟨rfl, ?_⟩
    intro r hnames
    rw [hnames.read.1] at hr
    cases hr

theorem NamesRegister.unique {r' : Nat} (h : NamesRegister w r) (h' : NamesRegister w r') : r = r' := by
  obtain ⟨c, cs, rfl, -, rfl, -⟩ := h
  obtain ⟨c', cs', hw, -, rfl, -⟩ := h'
  have hchars := congrArg Text.chars (List.cons.inj hw).2
  rw [Text.chars_ofChars, Text.chars_ofChars] at hchars
  rw [hchars]

/-- The operands of an instruction by their places. -/
def operandAt (i : Instruction) : Nat → Operand
  | 0 => i.a
  | 1 => i.b
  | _ => .absent

theorem operandAt_instructionOf {op : Mnemonic} {os : List Operand} {j : Nat} (h : os[j]? = some o)
    (hj : j < 2) : operandAt (instructionOf op os) j = o := by
  rcases j with _ | _ | j
  · change os[0]?.getD .absent = o
    rw [h]
    rfl
  · change os[1]?.getD .absent = o
    rw [h]
    rfl
  · omega

theorem length_signature_le (op : Mnemonic) : (signature op).length ≤ 2 := by
  cases op <;> simp [signature]

/-- Each word of a line is read as the operand at its place, and one that the place takes. -/
theorem Encodes.operand (h : Encodes ss s i) {j : Nat} (hw : s.operands[j]? = some w) :
    ∃ c : OperandClass, Spells ss w (operandAt i j) ∧ c.Admits (operandAt i j) := by
  obtain ⟨hop, hspelled, hadmitted⟩ := h
  rename_i op os
  obtain ⟨hj, hget⟩ := List.getElem?_eq_some_iff.1 hw
  have hjo : j < os.length := by rwa [← hspelled.length_eq]
  have hjs : j < (signature op).length := by rwa [hadmitted.length_eq]
  have hat : operandAt (instructionOf op os) j = os.get ⟨j, hjo⟩ :=
    operandAt_instructionOf (List.getElem?_eq_getElem hjo) (Nat.lt_of_lt_of_le hjs (length_signature_le op))
  have hword := hspelled.get hj hjo
  rw [List.get_eq_getElem, hget] at hword
  rw [hat]
  exact ⟨_, hword, hadmitted.get hjs hjo⟩

end Operands

end Assembler

variable {text : Text} {p : Assembled}

/-- The operands of a text that is accepted that are spelled like a label of it. Such an operand is the address or
index of the label exactly if the word does not name a register, and the register if it does. -/
theorem assemble_label_operand_iff (h : assemble text = .ok p) :
    ∃ ss, ReadAs text.lines ss ∧
      ∀ (k : Nat) (s : Statement) (n : Nat), (instructionLines 1 ss)[k]? = some (s, n) →
      ∃ i, p.code[k]? = some (i, n) ∧
        ∀ (j : Nat) (w : Text), s.operands[j]? = some w → w ∈ labelNames ss →
        ∃ t, p.labels.target? w = some t ∧ Marks ss w t ∧
          (operandAt i j = t.operand ↔ ∀ r, ¬NamesRegister w r) ∧
          ∀ r, NamesRegister w r → operandAt i j = .register (Int64.ofNat r) := by
  obtain ⟨ss, hread, -, hnodup, hlabels, -, hcode⟩ := assemble_eq_ok h
  refine ⟨ss, hread, ?_⟩
  intro k s n hk
  obtain ⟨i, hi, hencodes⟩ := exists_code_of_line hcode hk
  refine ⟨i, hi, ?_⟩
  intro j w hw hlabel
  obtain ⟨c, hspells, hadmits⟩ := hencodes.operand hw
  obtain ⟨t, ht⟩ := exists_marks hlabel
  have htarget : p.labels.target? w = some t := by
    rw [hlabels]
    exact (target?_iff_marks hnodup w t).2 ht
  refine ⟨t, htarget, ht, ?_⟩
  rcases hspells.of_marks hadmits hnodup (hread.isName hlabel) ht with hplain | hregister
  · obtain ⟨ho, hnone⟩ := hplain
    exact ⟨⟨fun _ => hnone, fun _ => ho⟩, fun r hr => absurd hr (hnone r)⟩
  · obtain ⟨r, hr, ho⟩ := hregister
    rw [ho]
    refine ⟨⟨fun heq => absurd heq.symm (operand_ne_register t _), fun hnone => absurd hr (hnone r)⟩, ?_⟩
    intro r' hr'
    rw [hr.unique hr']

/-- Labels that look like registers: the first two name none, the last names the register 1. -/
def lookalikes : Text := "R: data 1\nr0: data 2\nR01: data 1\n  move R, r0\n  move R01, r0\n"

theorem assemble_label_operand_iff_lookalikes :
    ∃ p i j, assemble lookalikes = .ok p ∧ p.code[0]? = some (i, 4) ∧ p.code[1]? = some (j, 5) ∧
      operandAt i 0 = .memory 0 ∧ operandAt j 0 = .register 1 := by
  have hok : (assemble lookalikes).toOption.map (fun p => p.labels.target? "R") =
      some (some (.data 0)) := by decide +kernel
  have hlines : instructionLines 1 (lookalikes.lines.map statementOf) =
      [(⟨[], some (Text.ofString "move"), [Text.ofString "R", Text.ofString "r0"]⟩, 4),
        (⟨[], some (Text.ofString "move"), [Text.ofString "R01", Text.ofString "r0"]⟩, 5)] := by
    decide +kernel
  have hlabels : Text.ofString "R" ∈ labelNames (lookalikes.lines.map statementOf) ∧
      Text.ofString "R01" ∈ labelNames (lookalikes.lines.map statementOf) := by decide +kernel
  have hplain : ∀ r, ¬NamesRegister "R" r := fun r hr => absurd hr.read.1 (by decide)
  have hregister : NamesRegister "R01" 1 :=
    ⟨'0', ['1'], rfl, List.all_eq_true.1 (by decide), by decide, by decide⟩
  obtain ⟨p, hp, htarget⟩ := exists_of_assemble_map hok
  obtain ⟨ss, hread, hcode⟩ := assemble_label_operand_iff hp
  rw [← hread.eq_map] at hlines hlabels
  obtain ⟨i, hi, hfirst⟩ := hcode 0 _ 4 (by rw [hlines]; rfl)
  obtain ⟨j, hj, hsecond⟩ := hcode 1 _ 5 (by rw [hlines]; rfl)
  obtain ⟨t, ht, -, hiff, -⟩ := hfirst 0 _ rfl hlabels.1
  obtain ⟨-, -, -, -, hnamed⟩ := hsecond 0 _ rfl hlabels.2
  obtain rfl : t = .data 0 := Option.some.inj (ht.symm.trans htarget)
  exact ⟨p, i, j, hp, hi, hj, hiff.2 hplain, hnamed 1 hregister⟩

/-- A word of data with the name of a register. -/
def shadowed : Text := "\t\tmove R0, #7\n\t\thalt\nR0:\t\tdata 1\n"

/-- It is accepted, the label has an address, and the operand that is spelled like it is the register. -/
theorem shadowed_register :
    ∃ p ss i s, assemble shadowed = .ok p ∧ ReadAs shadowed.lines ss ∧
      (instructionLines 1 ss)[0]? = some (s, 1) ∧ p.code[0]? = some (i, 1) ∧
      s.operands[0]? = some (Text.ofString "R0") ∧ Text.ofString "R0" ∈ labelNames ss ∧
      p.labels.target? "R0" = some (.data 0) ∧ operandAt i 0 = .register 0 ∧
      operandAt i 0 ≠ (Target.data 0).operand := by
  have hok : (assemble shadowed).toOption.map
      (fun p => (p.labels.target? "R0", p.code[0]?)) =
      some (some (.data 0), some (⟨.move, .register 0, .immediate 7⟩, 1)) := by decide +kernel
  have hlines : instructionLines 1 (shadowed.lines.map statementOf) =
      [(⟨[], some (Text.ofString "move"), [Text.ofString "R0", Text.ofString "#7"]⟩, 1),
        (⟨[], some (Text.ofString "halt"), []⟩, 2)] := by decide +kernel
  have hlabel : Text.ofString "R0" ∈ labelNames (shadowed.lines.map statementOf) := by decide +kernel
  obtain ⟨p, hp, hparts⟩ := exists_of_assemble_map hok
  obtain ⟨htarget, hcode⟩ := Prod.mk.inj hparts
  obtain ⟨ss, hread, -⟩ := assemble_eq_ok hp
  rw [← hread.eq_map] at hlines hlabel
  exact ⟨p, ss, _, _, hp, hread, by rw [hlines]; rfl, hcode, rfl, hlabel, htarget, rfl, by decide⟩

end OnePass
