import OnePass.Proofs.Assembler.Agreement
import OnePass.Proofs.Assembler.Linking

namespace OnePass

open Assembler

namespace Text

/-- The check on the characters of a name. -/
def spellsLabel : List Char → Bool
  | [] => false
  | c :: cs => (Scanner.isLower c || c == '_') && cs.all fun d => Scanner.isWordPart d || d == '_'

theorem isLabel_iff (x : Text) : x.IsLabel ↔ x = ofChars x.chars ∧ spellsLabel x.chars = true := by
  constructor
  · intro h
    obtain ⟨c, cs, rfl, hc, hcs⟩ := h
    rw [chars_ofChars]
    refine ⟨rfl, ?_⟩
    simpa [spellsLabel, hc] using hcs
  · intro h
    obtain ⟨hx, hs⟩ := h
    cases hchars : x.chars with
    | nil =>
      rw [hchars] at hs
      cases hs
    | cons c cs =>
      rw [hchars] at hx hs
      simp only [spellsLabel, Bool.and_eq_true, Bool.or_eq_true, beq_iff_eq, List.all_eq_true] at hs
      exact ⟨c, cs, hx, hs.1, hs.2⟩

instance (x : Text) : Decidable x.IsLabel := decidable_of_iff' _ (isLabel_iff x)

end Text

namespace Assembly

instance (c : OperandClass) : (o : Operand) → Decidable (o.Fits c)
  | .immediate _ => inferInstanceAs (Decidable (c = .source))
  | .register r =>
    inferInstanceAs (Decidable ((c = .register ∨ c = .dest ∨ c = .source) ∧ 0 ≤ r ∧ r < 4))
  | .memory x => inferInstanceAs (Decidable (c ≠ .register ∧ x.IsLabel))

/-- What can be written: a label, an instruction whose operands are of the kinds that its signature has, or
words of data. -/
inductive Line.Emitted : Line → Prop where
  | label {x : Text} (hx : x.IsLabel) : Emitted (.label x)
  | move {dst src : Operand} (hdst : dst.Fits .dest) (hsrc : src.Fits .source) :
      Emitted (.move dst src)
  | binary {m : Mnemonic} {c d : OperandClass} {r : Int} {src : Operand}
      (hm : signature m = [c, d]) (hr : (Operand.register r).Fits c) (hsrc : src.Fits d) :
      Emitted (.binary m r src)
  | unary {m : Mnemonic} {c : OperandClass} {r : Int} (hm : signature m = [c])
      (hr : (Operand.register r).Fits c) : Emitted (.unary m r)
  | jump {x : Text} (hx : x.IsLabel) : Emitted (.jump x)
  | branch {m : Mnemonic} {c : OperandClass} {r : Int} {x : Text}
      (hm : signature m = [c, .codeLabel]) (hr : (Operand.register r).Fits c) (hx : x.IsLabel) :
      Emitted (.branch m r x)
  | halt : Emitted .halt
  | data {x : Text} {n : Word} (hx : x.IsLabel) (hn : 0 < n) : Emitted (.data x n)

/-- The lines before the one that defines a name. -/
def ahead (x : Text) (ls : List Line) : List Line := ls.takeWhile fun l => l.name? ≠ some x

/-- How many words of memory the lines ask for. -/
def words : List Line → Nat
  | [] => 0
  | .data _ n :: ls => n.toInt.toNat + words ls
  | _ :: ls => words ls

/-- Whether the next line that is no label is an instruction, if there is one. -/
def leadsToCode : List Line → Bool
  | [] => true
  | .label _ :: ls => leadsToCode ls
  | .instruction _ _ :: _ => true
  | .data _ _ :: _ => false

/-- An operand with the index of the label or the address of the word in the place of its name. -/
def Operand.resolve (ls : List Line) (c : OperandClass) : Operand → Machine.Operand
  | immediate n => .immediate n
  | register r => .register (Int64.ofInt r)
  | memory x =>
    if c = .codeLabel then .code (Int64.ofNat (width (ahead x ls)))
    else .memory (Int64.ofNat (words (ahead x ls)))

/-- The instruction of a line among the lines, if it has one. -/
def Line.resolve? (ls : List Line) : Line → Option Machine.Instruction
  | instruction m os => some (instructionOf m (List.zipWith (Operand.resolve ls) (signature m) os))
  | _ => none

/-- The instructions of the lines in order, with their line numbers from `n` on. -/
def resolved (ls : List Line) : Nat → List Line → List (Machine.Instruction × Nat)
  | _, [] => []
  | n, l :: rest => (l.resolve? ls).toList.map (·, n) ++ resolved ls (n + 1) rest

/-- Written lines that define each name once and every name that they use; a branch goes to a label with no data
between it and the next instruction. -/
structure Complete (ls : List Line) : Prop where
  emitted : ∀ l ∈ ls, l.Emitted
  distinct : (definedNames ls).Nodup
  countable : words ls < wordLimit
  data : ∀ l ∈ ls, ∀ x ∈ l.dataNames, ∃ n, .data x n ∈ ls
  code : ∀ l ∈ ls, ∀ x ∈ l.targets,
    ∃ before after, ls = before ++ .label x :: after ∧ leadsToCode after = true

variable {ls before rest : List Line} {l : Line} {x : Text}

theorem known_of_signature {m : Mnemonic} (h : signature m ≠ []) : m ∈ Mnemonic.known := by
  cases m <;> first | decide | exact absurd rfl h

theorem Line.Emitted.fits (h : l.Emitted) : l.Fits := by
  cases h with
  | label hx => exact hx
  | move hdst hsrc => exact ⟨by decide, .cons hdst (.cons hsrc .nil)⟩
  | @binary m c d r src hm hr hsrc =>
    refine ⟨known_of_signature (by simp [hm]), ?_⟩
    rw [hm]
    exact .cons hr (.cons hsrc .nil)
  | @unary m c r hm hr =>
    refine ⟨known_of_signature (by simp [hm]), ?_⟩
    rw [hm]
    exact .cons hr .nil
  | jump hx => exact ⟨by decide, .cons ⟨by decide, hx⟩ .nil⟩
  | @branch m c r x hm hr hx =>
    refine ⟨known_of_signature (by simp [hm]), ?_⟩
    rw [hm]
    exact .cons hr (.cons ⟨by decide, hx⟩ .nil)
  | halt => exact ⟨by decide, .nil⟩
  | data hx hn => exact ⟨hx, hn⟩

/-- Nothing before the line that defines a name defines it too. -/
theorem ahead_append (hl : l.name? = some x) (hn : (definedNames (before ++ l :: rest)).Nodup) :
    ahead x (before ++ l :: rest) = before := by
  have hnames : definedNames (before ++ l :: rest) =
      definedNames before ++ x :: definedNames rest := by
    simp [definedNames, hl]
  have hbefore : ∀ k ∈ before, decide (k.name? ≠ some x) = true := by
    intro k hk
    rw [decide_eq_true_eq]
    intro hkx
    rw [hnames, List.nodup_append] at hn
    exact hn.2.2 x (List.mem_filterMap.2 ⟨k, hk, hkx⟩) x (by simp) rfl
  rw [ahead, List.takeWhile_append_of_pos hbefore, List.takeWhile_cons_of_neg (by simp [hl]),
    List.append_nil]

/-- A listing that takes all lines holds them in order. -/
theorem Listing.text_foldl_put {l : Listing} (h : l.Accepting) (ls : List Line) :
    (ls.foldl put l).text = l.text ++ render ls := by
  induction ls generalizing l with
  | nil => simp [render]
  | cons ln ls ih =>
    rw [List.foldl_cons, put_eq h, ih (l := { l with written := l.written.push ln }) h]
    have hcons : render (ln :: ls) = render [ln] ++ render ls := render_append [ln] ls
    rw [hcons, text, text, Array.toList_push, render_append, List.append_assoc]

end Assembly

namespace Assembler

open Assembly

variable {ls before rest : List Line} {x : Text}

theorem labels_statement (l : Line) : l.statement.labels = l.name?.toList := by
  cases l <;> rfl

theorem statement_instruction {m : Mnemonic} (hm : m ∈ Mnemonic.known) (os : List Assembly.Operand) :
    (Line.instruction m os).statement.isData = false ∧
      (Line.instruction m os).statement.isInstruction = true := by
  obtain ⟨-, hdata⟩ := Layout.ofName?_known m hm
  constructor
  · simpa [Statement.isData, Line.statement] using hdata
  · simpa [Statement.isInstruction, Line.statement] using hdata

theorem words_data {n : Word} (hn : 0 < n) : (Line.data x n).statement.words = n.toInt.toNat := by
  have hdata : (Line.data x n).statement.isData = true := rfl
  rw [Statement.words, if_pos hdata]
  change ((dataSize [Text.ofWord n]).toOption.getD 0).toInt.toNat = _
  rw [Layout.dataSize_text hn]
  rfl

theorem labelNames_statements (ls : List Line) :
    labelNames (ls.map Line.statement) = definedNames ls := by
  induction ls with
  | nil => rfl
  | cons l ls ih =>
    have hcons : labelNames ((l :: ls).map Line.statement) =
        l.statement.labels ++ labelNames (ls.map Line.statement) := rfl
    rw [hcons, ih, definedNames_cons, labels_statement]

theorem instructionCount_statements (hf : ∀ l ∈ ls, l.Fits) :
    instructionCount (ls.map Line.statement) = width ls := by
  rw [instructionCount, List.countP_map, width]
  refine List.countP_congr fun l hl => ?_
  cases l with
  | label y => exact Iff.rfl
  | instruction m os => simp [(statement_instruction (hf _ hl).1 os).2, Line.isInstruction]
  | data y n => exact Iff.rfl

theorem wordCount_statements (hf : ∀ l ∈ ls, l.Fits) :
    wordCount (ls.map Line.statement) = words ls := by
  induction ls with
  | nil => rfl
  | cons l ls ih =>
    have hl := hf l (by simp)
    rw [List.map_cons, wordCount, ih fun k hk => hf k (by simp [hk])]
    cases l with
    | label y => exact Nat.zero_add _
    | instruction m os =>
      have hnone : (Line.instruction m os).statement.words = 0 := by
        simp [Statement.words, (statement_instruction hl.1 os).1]
      rw [hnone]
      exact Nat.zero_add _
    | data y n =>
      rw [words_data hl.2]
      rfl

theorem nextPlace_statements (hf : ∀ l ∈ ls, l.Fits) (hc : leadsToCode ls = true) (i : Nat)
    (a : Word) : nextPlace i a (ls.map Line.statement) = .code i := by
  induction ls with
  | nil => rfl
  | cons l ls ih =>
    have hl := hf l (by simp)
    rw [List.map_cons, nextPlace]
    cases l with
    | label y => exact ih (fun k hk => hf k (by simp [hk])) hc
    | instruction m os =>
      obtain ⟨hd, hi⟩ := statement_instruction hl.1 os
      rw [hd, hi]
      rfl
    | data y n => cases hc

theorem Layout.after_eq_past (l : Layout) {ln : Line} (hf : ln.Fits) :
    l.after ln = l.past ln.statement := by
  cases ln with
  | label y => rfl
  | instruction m os =>
    obtain ⟨hd, hi⟩ := statement_instruction hf.1 os
    have hwait : l.wait (Line.instruction m os).statement.labels = l := by
      simp [wait, Line.statement]
    rw [past, hwait, settle, hd, hi]
    rfl
  | data y n =>
    have hd : (Line.data y n).statement.isData = true := rfl
    rw [past, settle, if_pos hd, words_data hf.2, ofNat_toNat hf.2]
    rfl

theorem Layout.foldl_after (hf : ∀ ln ∈ ls, ln.Fits) (l : Layout) :
    ls.foldl after l = (ls.map Line.statement).foldl past l := by
  induction ls generalizing l with
  | nil => rfl
  | cons ln ls ih =>
    rw [List.foldl_cons, List.map_cons, List.foldl_cons, after_eq_past l (hf ln (by simp))]
    exact ih (fun k hk => hf k (by simp [hk])) _

/-- The labels that the first pass finds in the lines. -/
def labelsOf (ls : List Line) : Labels := (ls.foldl Layout.after { labels := [] }).finish.labels

/-- A name stands for the next place behind the lines before its own. -/
theorem target?_labelsOf {l : Line} (hf : ∀ k ∈ before ++ l :: rest, k.Fits)
    (hn : (definedNames (before ++ l :: rest)).Nodup) (hl : l.name? = some x) :
    (labelsOf (before ++ l :: rest)).target? x =
      some (nextPlace (width before) (Int64.ofNat (words before))
        ((l :: rest).map Line.statement)) := by
  have hbefore : ∀ k ∈ before, k.Fits := fun k hk => hf k (by simp [hk])
  have hlabels : x ∈ l.statement.labels := by simp [labels_statement, hl]
  have hmap : (before ++ l :: rest).map Line.statement =
      before.map Line.statement ++ (l :: rest).map Line.statement := List.map_append
  have hline : ((before ++ l :: rest).map Line.statement)[before.length]? = some l.statement := by
    simp
  -- lines are counted as statements there; for written lines the counts are the same
  have htarget := Layout.target?_line (l := { labels := [] }) hline hlabels
    (by rw [labelNames_statements]; exact hn)
  have hlength : (before.map Line.statement).length = before.length := List.length_map _
  rw [hmap, ← hlength, List.take_left, List.drop_left, instructionCount_statements hbefore,
    wordCount_statements hbefore, ← hmap] at htarget
  rw [labelsOf, Layout.foldl_after hf, htarget]
  simp

theorem target?_data (hf : ∀ l ∈ ls, l.Fits) (hn : (definedNames ls).Nodup) {n : Word}
    (hx : .data x n ∈ ls) :
    (labelsOf ls).target? x = some (.data (Int64.ofNat (words (ahead x ls)))) := by
  obtain ⟨before, rest, rfl⟩ := List.append_of_mem hx
  rw [ahead_append rfl hn, target?_labelsOf hf hn rfl]
  rfl

theorem target?_code (hf : ∀ l ∈ ls, l.Fits) (hn : (definedNames ls).Nodup)
    (hls : ls = before ++ .label x :: rest) (hc : leadsToCode rest = true) :
    (labelsOf ls).target? x = some (.code (width (ahead x ls))) := by
  subst hls
  rw [ahead_append rfl hn, target?_labelsOf hf hn rfl]
  have hrest : ∀ k ∈ Line.label x :: rest, k.Fits := fun k hk => hf k (List.mem_append_right _ hk)
  exact congrArg some (nextPlace_statements hrest hc _ _)

theorem readOperand_resolve {o : Assembly.Operand} {c : OperandClass} {known : Labels}
    (h : o.Fits c)
    (hdata : ∀ x, o.dataName? c = some x →
      known.target? x = some (.data (Int64.ofNat (words (ahead x ls)))))
    (hcode : ∀ x, o.target? c = some x → known.target? x = some (.code (width (ahead x ls)))) :
    readOperand known c o.text = .ok (o.resolve ls c) := by
  cases o with
  | immediate n =>
    obtain rfl : c = .source := h
    exact readOperand_immediate n
  | register r => exact readOperand_register h.1 h.2.1 h.2.2
  | memory y =>
    rw [Assembly.Operand.text, readOperand_name h.2, Assembly.Operand.resolve]
    by_cases hc : c = .codeLabel
    · subst hc
      simp [readLabel, hcode y rfl, Target.operand]
    · rw [if_neg hc]
      have htarget := hdata y (by simp [Assembly.Operand.dataName?, hc])
      have hregister : c ≠ .register := h.1
      cases c <;> simp_all [readLabel, Target.operand]

/-- The names of a line have their places among the labels. -/
structure Knows (known : Labels) (ls : List Line) (l : Line) : Prop where
  data : ∀ x ∈ l.dataNames, known.target? x = some (.data (Int64.ofNat (words (ahead x ls))))
  code : ∀ x ∈ l.targets, known.target? x = some (.code (width (ahead x ls)))

theorem readOperands_resolve {known : Labels} {m : Mnemonic} {os : List Assembly.Operand}
    (name : Text) (h : List.Forall₂ Assembly.Operand.Fits (signature m) os)
    (hk : Knows known ls (.instruction m os)) :
    readOperands known m name (os.map Assembly.Operand.text) =
      .ok (instructionOf m (List.zipWith (Assembly.Operand.resolve ls) (signature m) os)) := by
  have hlen : (signature m).length ≤ 2 := by cases m <;> simp [signature]
  have hread : ∀ c o, o.Fits c → (c, o) ∈ (signature m).zip os →
      readOperand known c o.text = .ok (o.resolve ls c) := by
    intro c o ho hmem
    refine readOperand_resolve ho (fun x hx => ?_) fun x hx => ?_
    · exact hk.data x (List.mem_filterMap.2 ⟨_, hmem, hx⟩)
    · exact hk.code x (List.mem_filterMap.2 ⟨_, hmem, hx⟩)
  -- signature and operands are split side by side, so the signature is no longer that of `m`
  simp only [readOperands]
  revert h hlen hread
  generalize signature m = cs
  intro h hlen hread
  cases h with
  | nil => rfl
  | @cons c o cs os ho h =>
    have h1 := hread c o ho (by simp)
    cases h with
    | nil =>
      simp only [List.map_cons, List.map_nil, h1]
      rfl
    | @cons d p cs os hp h =>
      have h2 := hread d p hp (by simp)
      cases h with
      | nil =>
        simp only [List.map_cons, List.map_nil, h1, h2]
        rfl
      | cons hq h => simp at hlen

/-- The second pass over lines whose names are known, from any line on. -/
theorem secondPass_resolve {known : Labels} (hf : ∀ l ∈ rest, l.Fits)
    (hk : ∀ l ∈ rest, Knows known ls l) (n : Nat) :
    secondPass known n (rest.map Line.text ++ [[]]) = .ok (resolved ls n rest) := by
  induction rest generalizing n with
  | nil => rfl
  | cons l rest ih =>
    have hl := hf l (by simp)
    have hrest := ih (fun k hmem => hf k (by simp [hmem])) (fun k hmem => hk k (by simp [hmem]))
      (n + 1)
    rw [List.map_cons, List.cons_append, secondPass, resolved]
    cases l with
    | label y =>
      rw [instruction?_other hl rfl]
      exact hrest
    | data y d =>
      rw [instruction?_other hl rfl]
      exact hrest
    | instruction m os =>
      rw [instruction?_code hl, readOperands_resolve _ hl.2 (hk _ (by simp))]
      change (secondPass known (n + 1) (rest.map Line.text ++ [[]])).map _ = _
      rw [hrest]
      rfl

end Assembler

open Assembly

variable {ls : List Line}

theorem Assembly.Complete.knows (h : Complete ls) {l : Line} (hl : l ∈ ls) :
    Knows (labelsOf ls) ls l := by
  have hf : ∀ k ∈ ls, k.Fits := fun k hk => (h.emitted k hk).fits
  constructor
  · intro x hx
    obtain ⟨n, hn⟩ := h.data l hl x hx
    exact target?_data hf h.distinct hn
  · intro x hx
    obtain ⟨before, rest, hls, hc⟩ := h.code l hl x hx
    exact target?_code hf h.distinct hls hc

/-- Lines that are written one behind the other are assembled to themselves, with their names resolved. -/
theorem assemble_put (h : Complete ls) :
    ∃ p, assemble (ls.foldl Listing.put {}).text = .ok p ∧ p.code = resolved ls 1 ls ∧
      p.dataSize.toInt = words ls := by
  have hf : ∀ l ∈ ls, l.Fits := fun l hl => (h.emitted l hl).fits
  have htext : (ls.foldl Listing.put {}).text = render ls :=
    Listing.text_foldl_put ⟨rfl, rfl, rfl⟩ ls
  have hfirst := firstPass_nodup hf (l := { labels := [] }) h.distinct 1
  have haddress : (ls.foldl Layout.after { labels := [] }).finish.address =
      Int64.ofNat (words ls) := by
    change (ls.foldl Layout.after { labels := [] }).address = _
    rw [Layout.foldl_after hf, Layout.address_pasts, wordCount_statements hf]
    exact Int64.zero_add _
  have hsecond := secondPass_resolve hf (fun l hl => h.knows hl) 1
  refine ⟨⟨resolved ls 1 ls, Int64.ofNat (words ls), labelsOf ls⟩, ?_, rfl, ?_⟩
  · rw [htext, assemble, assembleWith, lines_render hf, hfirst]
    change (secondPass (labelsOf ls) 1 _).map _ = _
    rw [hsecond, haddress]
    rfl
  · exact Int64.toInt_ofNat_of_lt h.countable

/-- Branches forward, backward and to the end; names with every gap before the directive; the least number; as
many words as can be counted. -/
def sampler : List Line :=
  [.label "_sampler",
    .move (.register 0) (.immediate (-9223372036854775808)),
    .move (.memory "current") (.register 0),
    .branch .brez 0 "_done0",
    .binary .lea 1 (.memory "fifteenchars123"),
    .binary .add 3 (.memory "a"),
    .data "current" 9223372036854775804,
    .label "_done0",
    .unary .not 2,
    .branch .brpo 2 "_sampler",
    .jump "data",
    .halt,
    .data "a" 2,
    .data "fifteenchars123" 1,
    .label "data"]

theorem sampler_complete : Complete sampler where
  emitted := by
    simp only [sampler, List.forall_mem_cons]
    exact ⟨.label (by decide), .move (by decide) (by decide), .move (by decide) (by decide),
      .branch rfl (by decide) (by decide), .binary rfl (by decide) (by decide),
      .binary rfl (by decide) (by decide), .data (by decide) (by decide), .label (by decide),
      .unary rfl (by decide), .branch rfl (by decide) (by decide), .jump (by decide), .halt,
      .data (by decide) (by decide), .data (by decide) (by decide), .label (by decide), by simp⟩
  distinct := by decide +kernel
  countable := by decide +kernel
  data := by
    have hnames : ∀ l ∈ sampler, ∀ x ∈ l.dataNames,
        x = "current" ∨ x = "fifteenchars123" ∨ x = "a" := by decide +kernel
    intro l hl x hx
    rcases hnames l hl x hx with rfl | rfl | rfl
    · exact ⟨9223372036854775804, by decide +kernel⟩
    · exact ⟨1, by decide +kernel⟩
    · exact ⟨2, by decide +kernel⟩
  code := by
    have hnames : ∀ l ∈ sampler, ∀ x ∈ l.targets,
        x = "_sampler" ∨ x = "_done0" ∨ x = "data" := by decide +kernel
    intro l hl x hx
    rcases hnames l hl x hx with rfl | rfl | rfl
    · exact ⟨[], sampler.drop 1, rfl, rfl⟩
    · exact ⟨sampler.take 7, sampler.drop 8, rfl, rfl⟩
    · exact ⟨sampler.take 14, [], rfl, rfl⟩

theorem assemble_put_sampler :
    ∃ p, assemble (sampler.foldl Listing.put {}).text = .ok p ∧
      p.code =
        [({ op := .move, a := .register 0, b := .immediate (-9223372036854775808) }, 2),
          ({ op := .move, a := .memory 0, b := .register 0 }, 3),
          ({ op := .brez, a := .register 0, b := .code 5 }, 4),
          ({ op := .lea, a := .register 1, b := .memory 9223372036854775806 }, 5),
          ({ op := .add, a := .register 3, b := .memory 9223372036854775804 }, 6),
          ({ op := .not, a := .register 2 }, 9),
          ({ op := .brpo, a := .register 2, b := .code 0 }, 10),
          ({ op := .brun, a := .code 9 }, 11),
          ({ op := .halt }, 12)] ∧
      p.dataSize.toInt = 9223372036854775807 := by
  obtain ⟨p, hp, hcode, hsize⟩ := assemble_put sampler_complete
  refine ⟨p, hp, hcode.trans (by decide +kernel), hsize.trans (by decide +kernel)⟩

end OnePass
