import OnePass.Proofs.Assembly.Shape
import OnePass.Proofs.Text.Lines

namespace OnePass

/-- The ASCII letters and digits, and the other marks that names, registers and numbers are made of. -/
def Glyph.isPlain : Glyph → Bool
  | .char c => c.isAlphanum || c == '_' || c == '#' || c == '-'
  | .stray _ => false

/-- A text that is one word of a line. -/
def Text.IsWord (t : Text) : Prop := t ≠ [] ∧ ∀ g ∈ t, g.isPlain = true

instance (t : Text) : Decidable t.IsWord := inferInstanceAs (Decidable (_ ∧ _))

namespace Glyph

theorem isPlain_char_iff {c : Char} :
    (char c).isPlain = true ↔ 65 ≤ c.toNat ∧ c.toNat ≤ 90 ∨ 97 ≤ c.toNat ∧ c.toNat ≤ 122 ∨
      48 ≤ c.toNat ∧ c.toNat ≤ 57 ∨ c.toNat = 95 ∨ c.toNat = 35 ∨ c.toNat = 45 := by
  have hnat (d : Char) : c = d ↔ c.toNat = d.toNat := Char.toNat_inj.symm
  have halpha : c.isAlpha = (decide (c.val ≥ 'A'.val ∧ c.val ≤ 'Z'.val) ||
      (decide (c.val ≥ 'a'.val) && decide (c.val ≤ 'z'.val))) := rfl
  simp only [isPlain, Char.isAlphanum, halpha, Char.isDigit,
    Bool.or_eq_true, Bool.and_eq_true, decide_eq_true_eq, beq_iff_eq, hnat]
  simp only [← Char.toNat_val, UInt32.le_iff_toNat_le, ge_iff_le, UInt32.reduceToNat, Char.reduceVal]
  omega

theorem not_isBlank_of_isPlain {g : Glyph} (h : g.isPlain = true) : g.isBlank = false := by
  cases g with
  | stray b => rfl
  | char c =>
    rw [isPlain_char_iff] at h
    simp only [isBlank, Bool.or_eq_false_iff, Bool.and_eq_false_iff, decide_eq_false_iff_not,
      beq_eq_false_iff_ne]
    omega

/-- A mark outside the set is no glyph of a word. -/
theorem ne_of_isPlain {g : Glyph} {c : Char} (h : g.isPlain = true)
    (hc : (char c).isPlain = false) : g ≠ char c := by
  rintro rfl
  rw [h] at hc
  cases hc

theorem not_isSeparator_of_isPlain {g : Glyph} (h : g.isPlain = true) :
    Assembler.isSeparator g = false := by
  rw [Assembler.isSeparator, not_isBlank_of_isPlain h, Bool.false_or, beq_eq_false_iff_ne]
  exact ne_of_isPlain h rfl

end Glyph

namespace Text

theorem IsWord.ofChars {c : Char} {cs : List Char} (hc : (Glyph.char c).isPlain = true)
    (hcs : ∀ d ∈ cs, (Glyph.char d).isPlain = true) : IsWord (Text.ofChars (c :: cs)) := by
  refine ⟨List.cons_ne_nil _ _, fun g hg => ?_⟩
  simp only [Text.ofChars, List.map_cons, List.mem_cons, List.mem_map] at hg
  rcases hg with rfl | ⟨d, hd, rfl⟩
  · exact hc
  · exact hcs d hd

theorem IsWord.cons {g : Glyph} {t : Text} (hg : g.isPlain = true) (ht : t.IsWord) :
    IsWord (g :: t) :=
  ⟨List.cons_ne_nil _ _, List.forall_mem_cons.2 ⟨hg, ht.2⟩⟩

theorem IsWord.not_isSeparator {w : Text} (h : w.IsWord) :
    ∀ g ∈ w, Assembler.isSeparator g = false :=
  fun g hg => Glyph.not_isSeparator_of_isPlain (h.2 g hg)

theorem isPlain_of_isWordPart {c : Char} (h : Scanner.isWordPart c = true ∨ c = '_') :
    (Glyph.char c).isPlain = true := by
  rcases h with h | rfl
  · simp only [Scanner.isWordPart, Scanner.isLower, Scanner.isDigit, Bool.or_eq_true,
      Bool.and_eq_true, decide_eq_true_eq, Char.le_def, UInt32.le_iff_toNat_le, Char.toNat_val,
      Char.reduceVal, UInt32.reduceToNat] at h
    rw [Glyph.isPlain_char_iff]
    omega
  · rfl

theorem IsLabel.isWord {x : Text} (h : x.IsLabel) : x.IsWord := by
  obtain ⟨c, cs, rfl, hc, hcs⟩ := h
  refine .ofChars (isPlain_of_isWordPart ?_) fun d hd => isPlain_of_isWordPart (hcs d hd)
  exact hc.imp_left fun h => by simp [Scanner.isWordPart, h]

theorem ofNat_isWord (n : Nat) : IsWord (ofNat n) := by
  obtain ⟨c, cs, hcs⟩ := Numeral.toDigits_eq_cons n
  have hplain : ∀ d ∈ c :: cs, (Glyph.char d).isPlain = true := by
    intro d hd
    rw [← hcs] at hd
    simp [Glyph.isPlain, Char.isAlphanum, ofNat_digits hd]
  rw [ofNat, hcs]
  exact .ofChars (hplain c (by simp)) fun d hd => hplain d (by simp [hd])

theorem ofInt_isWord (n : Int) : IsWord (ofInt n) := by
  cases n with
  | ofNat n => exact ofNat_isWord n
  | negSucc n => exact .cons rfl (ofNat_isWord (n + 1))

section

variable {mark : Glyph → Bool} {w t : Text}

theorem runs_append (hw : ∀ g ∈ w, mark g = false) (word : Text) :
    runs mark word (w ++ t) = runs mark (w.reverse ++ word) t := by
  induction w generalizing word with
  | nil => rfl
  | cons g w ih =>
    rw [List.cons_append, runs, hw g (by simp), if_neg (by simp),
      ih fun g hg => hw g (by simp [hg])]
    simp

/-- A word up to the next mark, or to the end of the text. -/
theorem runs_word (hne : w ≠ []) (hw : ∀ g ∈ w, mark g = false) : runs mark [] w = [w] := by
  have h := runs_append (t := []) hw []
  rw [List.append_nil] at h
  rw [h]
  simp [runs, hne]

theorem runs_word_mark (hne : w ≠ []) (hw : ∀ g ∈ w, mark g = false) {g : Glyph}
    (hg : mark g = true) : runs mark [] (w ++ g :: t) = w :: runs mark [] t := by
  rw [runs_append hw]
  simp [runs, hne, hg]

/-- Marks before a word are skipped. -/
theorem runs_marks {gap : Text} (hgap : ∀ g ∈ gap, mark g = true) :
    runs mark [] (gap ++ t) = runs mark [] t := by
  induction gap with
  | nil => rfl
  | cons g gap ih =>
    rw [List.cons_append, runs, hgap g (by simp), if_pos rfl]
    exact ih fun g hg => hgap g (by simp [hg])

theorem splitAt_append {sep : Glyph} (hw : sep ∉ w) :
    splitAt sep (w ++ sep :: t) = w :: splitAt sep t := by
  rw [splitAt_append_sep, splitAt_of_not_mem hw]
  rfl

end

end Text

namespace Assembler

/-- A text without the marks of a comment. -/
theorem stripComment_eq_self {t : Text} (h : ∀ g ∈ t, g ≠ .char ';' ∧ g ≠ .char '/') :
    stripComment t = t := by
  fun_induction stripComment t with
  | case1 => rfl
  | case2 t => exact absurd rfl (h _ (by simp)).1
  | case3 t => exact absurd rfl (h _ (by simp)).2
  | case4 g t _ _ ih => rw [ih fun g hg => h g (by simp [hg])]

theorem splitLabels_append {w t : Text} (hw : .char ':' ∉ w) (before : Text) :
    splitLabels before (w ++ t) = splitLabels (w.reverse ++ before) t := by
  induction w generalizing before with
  | nil => rfl
  | cons g w ih =>
    have hg : g ≠ .char ':' := fun h => hw (by simp [h])
    rw [List.cons_append, splitLabels, if_neg hg, ih fun h => hw (by simp [h])]
    simp

/-- A text without a colon has no labels. -/
theorem splitLabels_eq_self {t : Text} (h : .char ':' ∉ t) : splitLabels [] t = .ok ([], t) := by
  have h' := splitLabels_append (t := []) h []
  rw [List.append_nil] at h'
  rw [h']
  simp [splitLabels]

theorem trim_eq_self {w : Text} (h : ∀ g ∈ w, g.isBlank = false) : w.trim = w := by
  have hdrop (v : Text) (hv : ∀ g ∈ v, g.isBlank = false) : v.dropWhile Glyph.isBlank = v := by
    cases v with
    | nil => rfl
    | cons g v => rw [List.dropWhile_cons, hv g (by simp), if_neg (by simp)]
  rw [Text.trim, hdrop w h, hdrop w.reverse fun g hg => h g (List.mem_reverse.1 hg),
    List.reverse_reverse]

theorem isGap_of_isPlain {g : Glyph} (h : g.isPlain = true) : isGap g = false := by
  rw [isGap, Bool.or_eq_false_iff, beq_eq_false_iff_ne, beq_eq_false_iff_ne]
  exact ⟨Glyph.ne_of_isPlain h rfl, Glyph.ne_of_isPlain h rfl⟩

theorem isNameStart_of_isLower {c : Char} (h : Scanner.isLower c = true ∨ c = '_') :
    isNameStart (.char c) = true := by
  rcases h with h | rfl
  · simp only [Scanner.isLower, Bool.and_eq_true, decide_eq_true_eq, Char.le_def] at h
    have hlt : c.toNat < 0x80 := by
      have hle := UInt32.le_iff_toNat_le.1 h.2
      simp only [Char.toNat_val, Char.reduceVal, UInt32.reduceToNat] at hle
      omega
    have hlower : c.isLower = true := by
      change (decide _ && decide _) = true
      rw [Bool.and_eq_true, decide_eq_true_eq, decide_eq_true_eq]
      exact h
    have halpha : c.isAlpha = true := by
      change (c.isUpper || c.isLower) = true
      rw [hlower, Bool.or_true]
    simp [isNameStart, Glyph.isLetter, hlt, halpha]
  · rfl

theorem isNamePart_of_isWordPart {c : Char} (h : Scanner.isWordPart c = true ∨ c = '_') :
    isNamePart (.char c) = true := by
  rw [isNamePart, Bool.or_eq_true]
  simp only [Scanner.isWordPart, Bool.or_eq_true, or_assoc] at h
  rcases h with h | h | h
  · exact .inl (isNameStart_of_isLower (.inl h))
  · right
    simp only [Scanner.isDigit, Bool.and_eq_true, decide_eq_true_eq, Char.le_def] at h
    have hlt : c.toNat < 0x80 := by
      have hle := UInt32.le_iff_toNat_le.1 h.2
      simp only [Char.toNat_val, Char.reduceVal, UInt32.reduceToNat] at hle
      omega
    have hdigit : c.isDigit = true := by
      simp only [Char.isDigit, Bool.and_eq_true, decide_eq_true_eq]
      exact h
    simp [Glyph.isDigit, hlt, hdigit]
  · exact .inl (isNameStart_of_isLower (.inr h))

theorem isName_of_isLabel {x : Text} (h : x.IsLabel) : isName x = true := by
  obtain ⟨c, cs, rfl, hc, hcs⟩ := h
  simp only [Text.ofChars, List.map_cons, isName, isNameStart_of_isLower hc, Bool.true_and,
    List.all_map, List.all_eq_true, Function.comp_apply]
  exact fun d hd => isNamePart_of_isWordPart (hcs d hd)

/-- A name with a colon behind it is a label. -/
theorem splitLabels_label {x t : Text} (hx : x.IsLabel) :
    splitLabels [] (x ++ .char ':' :: t) =
      (splitLabels [] t).map fun r => (x :: r.1, r.2) := by
  have hw := hx.isWord
  have hcolon : .char ':' ∉ x := fun h => Glyph.ne_of_isPlain (hw.2 _ h) rfl rfl
  have htrim := trim_eq_self fun g hg => Glyph.not_isBlank_of_isPlain (hw.2 g hg)
  have hgap : x.any isGap = false := by
    rw [List.any_eq_false]
    intro g hg
    simp [isGap_of_isPlain (hw.2 g hg)]
  rw [splitLabels_append hcolon, List.append_nil, splitLabels, if_pos rfl, List.reverse_reverse]
  simp [htrim, hgap, isName_of_isLabel hx, hw.1]

end Assembler

namespace Assembly

open Assembler

theorem Operand.text_isWord {c : OperandClass} {o : Operand} (h : o.Fits c) : o.text.IsWord := by
  cases o with
  | immediate n => exact .cons rfl (Text.ofInt_isWord n.toInt)
  | register r => exact .cons rfl (Text.ofInt_isWord r)
  | memory x => exact h.2.isWord

theorem known_text : ∀ m ∈ Mnemonic.known, m.text "Inst" = m.text "" ∧ (m.text "").IsWord ∧
    (m.text "").lower = m.text "" := by decide

namespace Line

/-- What a line is read as. -/
def statement : Line → Statement
  | label x => { labels := [x] }
  | instruction m os => { mnemonic := some (m.text ""), operands := os.map Operand.text }
  | data x n =>
    { labels := [x], mnemonic := some Layout.dataDirective, operands := [Text.ofWord n] }

/-- Words with commas between them. -/
theorem runs_commas {w : Text} (hw : w.IsWord) {os : List Operand}
    (hos : ∀ o ∈ os, o.text.IsWord) :
    Text.runs isSeparator [] (w ++ os.flatMap fun o => (", " : Text) ++ o.text) =
      w :: os.map Operand.text := by
  induction os generalizing w with
  | nil => simpa using Text.runs_word hw.1 hw.not_isSeparator
  | cons o os ih =>
    have hgap : ∀ g ∈ [Glyph.char ' '], isSeparator g = true := by decide
    rw [List.flatMap_cons]
    change Text.runs isSeparator [] (w ++ .char ',' :: ([Glyph.char ' '] ++ (o.text ++ _))) = _
    rw [Text.runs_word_mark hw.1 hw.not_isSeparator rfl, Text.runs_marks hgap,
      ih (hos o (by simp)) fun p hp => hos p (by simp [hp])]
    rfl

/-- The words of an instruction, from the mnemonic on. -/
theorem runs_operandText {w : Text} (hw : w.IsWord) {os : List Operand}
    (hos : ∀ o ∈ os, o.text.IsWord) :
    Text.runs isSeparator [] (w ++ operandText os) = w :: os.map Operand.text := by
  cases os with
  | nil => simpa [operandText] using Text.runs_word hw.1 hw.not_isSeparator
  | cons o os =>
    change Text.runs isSeparator [] (w ++ .char ' ' :: (o.text ++ _)) = _
    rw [Text.runs_word_mark hw.1 hw.not_isSeparator rfl,
      runs_commas (hos o (by simp)) fun p hp => hos p (by simp [hp])]
    rfl

/-- The glyphs between the words of a line. -/
def gaps : Text := [.char ' ', .char '\t', .char ',']

theorem isSeparator_of_mem_gaps : ∀ g ∈ gaps, isSeparator g = true := by decide

theorem operands_isWord {m : Mnemonic} {os : List Operand} (h : (instruction m os).Fits) :
    ∀ o ∈ os, o.text.IsWord := by
  intro o ho
  obtain ⟨i, hi, rfl⟩ := List.getElem_of_mem ho
  exact Operand.text_isWord (h.2.get (h.2.length_eq ▸ hi) hi)

theorem mem_operandText {os : List Operand} {g : Glyph} (h : g ∈ operandText os) :
    g ∈ gaps ∨ ∃ o ∈ os, g ∈ o.text := by
  cases os with
  | nil => cases h
  | cons o os =>
    have hspace : ∀ g ∈ Text.ofString " ", g ∈ gaps := by decide
    have hcomma : ∀ g ∈ Text.ofString ", ", g ∈ gaps := by decide
    rcases List.mem_append.1 h with h | h
    · rcases List.mem_append.1 h with h | h
      · exact .inl (hspace g h)
      · exact .inr ⟨o, by simp, h⟩
    · obtain ⟨p, hp, h⟩ := List.mem_flatMap.1 h
      rcases List.mem_append.1 h with h | h
      · exact .inl (hcomma g h)
      · exact .inr ⟨p, by simp [hp], h⟩

theorem mem_text_instruction {m : Mnemonic} {os : List Operand} (h : (instruction m os).Fits)
    {g : Glyph} (hg : g ∈ (instruction m os).text) : g.isPlain = true ∨ g ∈ gaps := by
  obtain ⟨hinst, hword, -⟩ := known_text m h.1
  have htabs : ∀ g ∈ Text.ofString "\t\t", g ∈ gaps := by decide
  rcases List.mem_append.1 hg with hg | hg
  · rcases List.mem_append.1 hg with hg | hg
    · exact .inr (htabs g hg)
    · exact .inl (hword.2 g (hinst ▸ hg))
  · rcases mem_operandText hg with hg | ⟨o, ho, hg⟩
    · exact .inr hg
    · exact .inl ((operands_isWord h o ho).2 g hg)

/-- The part of a data line behind its label. -/
def directive (x : Text) (n : Word) : Text :=
  dataGap x ++ ("data" ++ .char ' ' :: Text.ofWord n)

theorem text_data (x : Text) (n : Word) : (data x n).text = x ++ .char ':' :: directive x n := by
  have hs : Text.ofString ":" = [.char ':'] := rfl
  have hd : Text.ofString "data " = Text.ofString "data" ++ [.char ' '] := rfl
  simp [text, directive, hs, hd]

theorem mem_dataGap {x : Text} : ∀ g ∈ dataGap x, g ∈ gaps := by
  unfold dataGap
  split
  · decide
  · split <;> decide

theorem mem_directive {x : Text} {n : Word} {g : Glyph} (h : g ∈ directive x n) :
    g.isPlain = true ∨ g ∈ gaps := by
  rcases List.mem_append.1 h with h | h
  · exact .inr (mem_dataGap g h)
  · have hdata : ∀ g ∈ Text.ofString "data", g.isPlain = true := by decide
    rcases List.mem_append.1 h with h | h
    · exact .inl (hdata g h)
    · rcases List.mem_cons.1 h with rfl | h
      · exact .inr (by decide)
      · exact .inl ((Text.ofInt_isWord n.toInt).2 g h)

/-- The glyphs of a line. -/
theorem mem_text {l : Line} (h : l.Fits) {g : Glyph} (hg : g ∈ l.text) :
    g.isPlain = true ∨ g ∈ gaps ∨ g = .char ':' := by
  cases l with
  | label x =>
    rcases List.mem_append.1 hg with hg | hg
    · exact .inl (h.isWord.2 g hg)
    · exact .inr (.inr (List.mem_singleton.1 hg))
  | instruction m os =>
    exact (mem_text_instruction h hg).imp_right .inl
  | data x n =>
    rw [text_data] at hg
    rcases List.mem_append.1 hg with hg | hg
    · exact .inl (h.1.isWord.2 g hg)
    · rcases List.mem_cons.1 hg with rfl | hg
      · exact .inr (.inr rfl)
      · exact (mem_directive hg).imp_right .inl

theorem newline_not_mem_text {l : Line} (h : l.Fits) : .char '\n' ∉ l.text := by
  intro hg
  rcases mem_text h hg with hg | hg | hg
  · cases hg
  · exact absurd hg (by decide)
  · cases hg

theorem colon_not_mem {t : Text} (h : ∀ g ∈ t, g.isPlain = true ∨ g ∈ gaps) : .char ':' ∉ t := by
  intro hg
  rcases h _ hg with hg | hg
  · cases hg
  · exact absurd hg (by decide)

theorem stripComment_text {l : Line} (h : l.Fits) : stripComment l.text = l.text := by
  have hgaps : ∀ g ∈ gaps, g ≠ .char ';' ∧ g ≠ .char '/' := by decide
  refine stripComment_eq_self fun g hg => ?_
  rcases mem_text h hg with hg | hg | rfl
  · exact ⟨Glyph.ne_of_isPlain hg rfl, Glyph.ne_of_isPlain hg rfl⟩
  · exact hgaps g hg
  · decide

/-- A written line is read back as what it was written from. -/
theorem read_text {l : Line} (h : l.Fits) : Statement.read l.text = .ok l.statement := by
  rw [Statement.read, stripComment_text h]
  cases l with
  | label x =>
    have hs : splitLabels [] (label x).text = .ok ([x], []) := splitLabels_label h
    rw [hs]
    rfl
  | instruction m os =>
    obtain ⟨hinst, hword, hlower⟩ := known_text m h.1
    have hgap : ∀ g ∈ Text.ofString "\t\t", isSeparator g = true := by decide
    rw [splitLabels_eq_self (colon_not_mem fun g hg => mem_text_instruction h hg)]
    change Except.ok (Statement.ofWords [] (Text.runs isSeparator [] (text _))) = _
    rw [text, List.append_assoc, Text.runs_marks hgap, hinst,
      runs_operandText hword (operands_isWord h), Statement.ofWords, hlower]
    rfl
  | data x n =>
    have hword : (Text.ofString "data").IsWord := by decide
    have hn : (Text.ofWord n).IsWord := Text.ofInt_isWord n.toInt
    have hlower : (Text.ofString "data").lower = Layout.dataDirective := by decide
    have hgap : ∀ g ∈ dataGap x, isSeparator g = true := fun g hg =>
      isSeparator_of_mem_gaps g (mem_dataGap g hg)
    rw [text_data, splitLabels_label h.1,
      splitLabels_eq_self (colon_not_mem fun g hg => mem_directive hg)]
    change Except.ok (Statement.ofWords [x] (Text.runs isSeparator [] (directive x n))) = _
    rw [directive, Text.runs_marks hgap,
      Text.runs_word_mark hword.1 hword.not_isSeparator rfl,
      Text.runs_word hn.1 hn.not_isSeparator, Statement.ofWords, hlower]
    rfl

end Line

/-- The lines of a written text; the last line end leaves an empty line. -/
theorem lines_render {ls : List Line} (h : ∀ l ∈ ls, l.Fits) :
    (render ls).lines = ls.map Line.text ++ [[]] := by
  induction ls with
  | nil => rfl
  | cons l ls ih =>
    have hl := Line.newline_not_mem_text (h l (by simp))
    have hcons : render (l :: ls) = l.text ++ .char '\n' :: render ls := by
      simp [render, Text.ofString]
    rw [hcons, Text.lines, Text.splitAt_append hl, ← Text.lines,
      ih fun l hl => h l (by simp [hl])]
    rfl

end Assembly

end OnePass
