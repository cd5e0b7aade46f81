import OnePass.Proofs.Assembler.Placement
import OnePass.Proofs.Machine.Image

namespace OnePass

open Assembly Machine

namespace Assembler

variable {ls : Labels} {c : OperandClass}

/-- A result that a partial function has too, or else an error of the given kind. -/
def Agrees {α : Type} (r : Except Cause α) (o : Option α) (kind : Cause → Prop) : Prop :=
  match r with
  | .ok a => o = some a
  | .error e => o = none ∧ kind e

theorem Agrees.bind {α β : Type} {r : Except Cause α} {o : Option α} {kind : Cause → Prop}
    {f : α → Except Cause β} {g : α → Option β} (h : Agrees r o kind)
    (hf : ∀ a, r = .ok a → Agrees (f a) (g a) kind) : Agrees (r >>= f) (o >>= g) kind := by
  cases r with
  | ok a =>
    obtain rfl : o = some a := h
    exact hf a rfl
  | error e =>
    obtain ⟨rfl, he⟩ := h
    exact ⟨rfl, he⟩

theorem Agrees.mono {α : Type} {r : Except Cause α} {o : Option α} {kind kind' : Cause → Prop}
    (h : Agrees r o kind) (hk : ∀ e, kind e → kind' e) : Agrees r o kind' := by
  cases r with
  | ok a => exact h
  | error e => exact ⟨h.1, hk e h.2⟩

/-- The error of an operand whose name has no label of the right kind. -/
def Unresolved (ls : Labels) (c : OperandClass) (o : Assembly.Operand) (e : Cause) : Prop :=
  (∃ x, o.dataName? c = some x ∧ (∀ a, ls.target? x ≠ some (.data a)) ∧ e = .undefinedData x) ∨
    ∃ x, o.target? c = some x ∧ (∀ k, ls.target? x ≠ some (.code k)) ∧ e = .undefinedCode x

theorem readOperand_immediate (n : Word) :
    readOperand ls .source (Assembly.Operand.immediate n).text = .ok (.immediate n) := by
  have htext : (Assembly.Operand.immediate n).text = .char '#' :: Text.ofWord n := rfl
  have hr : isRegister (.char '#' :: Text.ofWord n) = false := rfl
  rw [htext, readOperand, hr]
  simp [readImmediate, Numeral.readWord_ofWord]

theorem readOperand_register {r : Int} (hc : c = .register ∨ c = .dest ∨ c = .source)
    (h0 : 0 ≤ r) (h4 : r < 4) :
    readOperand ls c (Assembly.Operand.register r).text = .ok (.register (Int64.ofInt r)) := by
  obtain ⟨n, rfl⟩ := Int.eq_ofNat_of_zero_le h0
  have hn : n < 4 := by omega
  have hclass : ¬(c = .dataLabel ∨ c = .codeLabel) := by
    rcases hc with rfl | rfl | rfl <;> decide
  have hreg : ∀ n < 4, isRegister (registerText (n : Nat)) = true ∧
      readRegister (registerText (n : Nat)) = .ok (.register (Int64.ofInt n)) := by decide
  obtain ⟨hr, hread⟩ := hreg n hn
  rw [Assembly.Operand.text, readOperand, hr, if_pos rfl, if_neg hclass, hread]

theorem isRegister_of_isLabel {x : Text} (h : x.IsLabel) : isRegister x = false := by
  obtain ⟨a, cs, rfl, ha, -⟩ := h
  have hR : a ≠ 'R' := by
    rintro rfl
    exact absurd ha (by decide)
  simp only [Text.ofChars, List.map_cons]
  unfold isRegister
  split
  · rename_i heq
    simp [hR] at heq
  · rfl

theorem readOperand_name {x : Text} (h : x.IsLabel) :
    readOperand ls c x = readLabel ls c x := by
  have hhead : x.head? ≠ some (.char '#') := by
    obtain ⟨a, cs, rfl, ha, -⟩ := h
    have hne : a ≠ '#' := by
      rintro rfl
      exact absurd ha (by decide)
    simpa [Text.ofChars] using hne
  simp [readOperand, isRegister_of_isLabel h, hhead, isName_of_isLabel h]

/-- An operand is read as its address. -/
theorem readOperand_text (ls : Labels) {o : Assembly.Operand} (h : o.Fits c) :
    Agrees (readOperand ls c o.text) (linkOperand? ls c o) (Unresolved ls c o) := by
  cases o with
  | immediate n =>
    obtain rfl : c = .source := h
    rw [readOperand_immediate]
    rfl
  | register r =>
    rw [readOperand_register h.1 h.2.1 h.2.2]
    rfl
  | memory x =>
    rw [Assembly.Operand.text, readOperand_name h.2]
    by_cases hcode : c = .codeLabel
    · subst hcode
      rcases ht : ls.target? x with _ | i | a
      all_goals simp [readLabel, linkOperand?, Agrees, Unresolved, Assembly.Operand.target?,
        Assembly.Operand.dataName?, Target.operand, ht]
    · have hreg : c ≠ .register := h.1
      rcases ht : ls.target? x with _ | i | a <;> cases c <;>
        simp_all [readLabel, linkOperand?, Agrees, Unresolved, Assembly.Operand.target?,
          Assembly.Operand.dataName?, Target.operand]

/-- The error of a line with an unresolved name. -/
def UnresolvedIn (ls : Labels) (l : Line) (e : Cause) : Prop :=
  (∃ x ∈ l.dataNames, (∀ a, ls.target? x ≠ some (.data a)) ∧ e = .undefinedData x) ∨
    ∃ x ∈ l.targets, (∀ k, ls.target? x ≠ some (.code k)) ∧ e = .undefinedCode x

theorem Unresolved.unresolvedIn {m : Mnemonic} {os : List Assembly.Operand}
    {o : Assembly.Operand} {e : Cause} (h : Unresolved ls c o e) (ho : (c, o) ∈ (signature m).zip os) :
    UnresolvedIn ls (.instruction m os) e := by
  rcases h with ⟨x, hx, hno, he⟩ | ⟨x, hx, hno, he⟩
  · exact .inl ⟨x, List.mem_filterMap.2 ⟨_, ho, hx⟩, hno, he⟩
  · exact .inr ⟨x, List.mem_filterMap.2 ⟨_, ho, hx⟩, hno, he⟩

/-- An instruction is read as its linked form. -/
theorem readOperands_text (ls : Labels) {m : Mnemonic} {os : List Assembly.Operand} (name : Text)
    (h : List.Forall₂ Assembly.Operand.Fits (signature m) os) :
    Agrees (readOperands ls m name (os.map Assembly.Operand.text)) (link? ls (.instruction m os))
      (UnresolvedIn ls (.instruction m os)) := by
  have hlen : (signature m).length ≤ 2 := by cases m <;> simp [signature]
  have hzip : ∀ c o e, (c, o) ∈ (signature m).zip os → Unresolved ls c o e →
      UnresolvedIn ls (.instruction m os) e := fun c o e ho he => he.unresolvedIn ho
  simp only [readOperands, link?]
  revert h hlen hzip
  generalize UnresolvedIn ls (.instruction m os) = kind
  generalize signature m = cs
  intro h hlen hzip
  cases h with
  | nil => rfl
  | @cons c o cs os ho h =>
    have h1 := readOperand_text ls ho
    cases h with
    | nil =>
      refine Agrees.bind (h1.mono fun e he => hzip c o e (by simp) he) fun a _ => rfl
    | @cons d p cs os hp h =>
      have h2 := readOperand_text ls hp
      cases h with
      | nil =>
        refine Agrees.bind (h1.mono fun e he => hzip c o e (by simp) he) fun a _ => ?_
        exact Agrees.bind (h2.mono fun e he => hzip d p e (by simp) he) fun b _ => rfl
      | cons hq h => simp at hlen

theorem ok_bind {α β : Type} (a : α) (f : α → Except Cause β) : (Except.ok a >>= f) = f a := rfl

theorem instruction?_code {m : Mnemonic} {os : List Assembly.Operand}
    (h : (Line.instruction m os).Fits) :
    instruction? ls (Line.instruction m os).text =
      (readOperands ls m (m.text "") (os.map Assembly.Operand.text)).map some := by
  have hm : (Line.instruction m os).statement.mnemonic = some (m.text "") := rfl
  have hop := (Layout.ofName?_known m h.1).1
  rw [instruction?, Line.read_text h, ok_bind, hm, Option.bind_some, hop]
  rfl

/-- Labels and words of data are no instructions. -/
theorem instruction?_other {l : Line} (h : l.Fits) (hl : l.isInstruction = false) :
    instruction? ls l.text = .ok none := by
  have hdata : Mnemonic.ofName? Layout.dataDirective = none := by decide
  rw [instruction?, Line.read_text h]
  cases l with
  | label x => rfl
  | instruction m os => cases hl
  | data x size =>
    have hm : (Line.data x size).statement.mnemonic = some Layout.dataDirective := rfl
    rw [ok_bind, hm, Option.bind_some, hdata]
    rfl

/-- The second pass links every instruction or fails at an unresolved name. -/
theorem secondPass_text (ls : Labels) {lines : List Line} (h : ∀ l ∈ lines, l.Fits) (n : Nat) :
    (∃ code, secondPass ls n (lines.map Line.text ++ [[]]) = .ok code ∧
      List.Forall₂ (fun l i => link? ls l = some i.1) (lines.filter Line.isInstruction) code) ∨
    ∃ l ∈ lines, ∃ e, secondPass ls n (lines.map Line.text ++ [[]]) = .error e ∧
      UnresolvedIn ls l e.cause := by
  induction lines generalizing n with
  | nil => exact .inl ⟨[], rfl, .nil⟩
  | cons l lines ih =>
    have hl := h l (by simp)
    have hrest := ih (fun k hk => h k (by simp [hk])) (n + 1)
    rw [List.map_cons, List.cons_append, secondPass]
    cases l with
    | instruction m os =>
      rw [instruction?_code hl]
      have hag := readOperands_text ls (m.text "") hl.2
      cases hr : readOperands ls m (m.text "") (os.map Assembly.Operand.text) with
      | ok i =>
        rw [hr] at hag
        rcases hrest with ⟨code, hcode, hall⟩ | ⟨k, hk, e, he, hbad⟩
        · left
          refine ⟨(i, n) :: code, ?_, .cons hag hall⟩
          change (secondPass ls (n + 1) (lines.map Line.text ++ [[]])).map _ = _
          rw [hcode]
          rfl
        · right
          refine ⟨k, by simp [hk], e, ?_, hbad⟩
          change (secondPass ls (n + 1) (lines.map Line.text ++ [[]])).map _ = _
          rw [he]
          rfl
      | error e =>
        rw [hr] at hag
        exact .inr ⟨_, by simp, ⟨n, e⟩, rfl, hag.2⟩
    | label x =>
      rw [instruction?_other hl rfl]
      exact hrest.imp_right fun ⟨k, hk, hbad⟩ => ⟨k, by simp [hk], hbad⟩
    | data x d =>
      rw [instruction?_other hl rfl]
      exact hrest.imp_right fun ⟨k, hk, hbad⟩ => ⟨k, by simp [hk], hbad⟩

theorem data_of_linkOperand? {o : Assembly.Operand} {p : Machine.Operand} {x : Text}
    (h : linkOperand? ls c o = some p) (hx : o.dataName? c = some x) :
    ∃ a, ls.target? x = some (.data a) := by
  cases o with
  | immediate n => cases hx
  | register r => cases hx
  | memory y =>
    by_cases hc : c = .codeLabel
    · simp [Assembly.Operand.dataName?, hc] at hx
    · obtain rfl : y = x := by simpa [Assembly.Operand.dataName?, hc] using hx
      rcases ht : ls.target? y with _ | i | a
      · simp [linkOperand?, ht] at h
      · simp [linkOperand?, ht, hc] at h
      · exact ⟨a, rfl⟩

/-- A linked line has found its words of data. -/
theorem data_of_link? {l : Line} {i : Instruction} (h : link? ls l = some i) {x : Text}
    (hx : x ∈ l.dataNames) : ∃ a, ls.target? x = some (.data a) := by
  cases l with
  | label y => cases hx
  | data y n => cases hx
  | instruction m os =>
    obtain ⟨⟨c, o⟩, ho, hname⟩ := List.mem_filterMap.1 hx
    suffices ∃ p, linkOperand? ls c o = some p by
      obtain ⟨p, hp⟩ := this
      exact data_of_linkOperand? hp hname
    simp only [link?] at h
    split at h
    · rename_i hs
      rw [hs] at ho
      cases ho
    · rename_i d q hs
      rw [hs] at ho
      obtain ⟨rfl, rfl⟩ : c = d ∧ o = q := by simpa using ho
      obtain ⟨p, hp, -⟩ := Option.bind_eq_some_iff.1 h
      exact ⟨p, hp⟩
    · rename_i d d' q q' hs
      rw [hs] at ho
      obtain ⟨p, hp, h⟩ := Option.bind_eq_some_iff.1 h
      obtain ⟨p', hp', -⟩ := Option.bind_eq_some_iff.1 h
      have ho' : c = d ∧ o = q ∨ c = d' ∧ o = q' := by simpa using ho
      rcases ho' with ⟨rfl, rfl⟩ | ⟨rfl, rfl⟩
      · exact ⟨p, hp⟩
      · exact ⟨p', hp'⟩
    · cases h

/-- Linked code whose labels have their places sits at the start. -/
theorem sits_of_place {P : Image} {cs : List Line} {k : Nat} {code : List (Instruction × Nat)}
    (before : List Instruction) (hp : P.labels.Place k cs)
    (hc : List.Forall₂ (fun l i => link? P.labels l = some i.1) (cs.filter Line.isInstruction) code)
    (hk : before.length = k) (hcode : P.code.toList = before ++ code.map Prod.fst) :
    P.Sits k cs := by
  induction cs generalizing k code before with
  | nil => trivial
  | cons l cs ih =>
    cases l with
    | label x => exact ⟨hp.1, ih before hp.2 hc hk hcode⟩
    | instruction m os =>
      rw [List.filter_cons_of_pos rfl] at hc
      cases hc with
      | @cons _ i _ code hi hc =>
        refine ⟨⟨i.1, hi, ?_⟩,
          ih (before ++ [i.1]) hp hc (by simp [hk]) (by simpa using hcode)⟩
        rw [← Array.getElem?_toList, hcode, List.getElem?_append_right (by omega)]
        simp [hk]
    | data x n => exact ih (k := k) before hp hc hk hcode

/-- Code that ends in an instruction and whose branches stay in it, and names for words of data. -/
structure IsModule (cs : List Line) (ds : List Text) : Prop where
  code : ∀ l ∈ cs, l.IsCode
  ends : ∃ cs' m os, cs = cs' ++ [.instruction m os]
  closed : Closed cs
  names : ∀ x ∈ ds, x.IsLabel

/-- Code, and then a word of data for each name. -/
def moduleLines (cs : List Line) (ds : List Text) : List Line := cs ++ ds.map (Line.data · 1)

section

variable {cs : List Line} {ds : List Text}

theorem IsModule.fits (h : IsModule cs ds) : ∀ l ∈ moduleLines cs ds, l.Fits := by
  intro l hl
  rcases List.mem_append.1 hl with hl | hl
  · exact (h.code l hl).fits
  · obtain ⟨x, hx, rfl⟩ := List.mem_map.1 hl
    exact ⟨h.names x hx, by decide⟩

theorem IsModule.definedNames_eq (h : IsModule cs ds) :
    definedNames (moduleLines cs ds) = labels cs ++ ds := by
  have happ : definedNames (moduleLines cs ds) =
      definedNames cs ++ definedNames (ds.map (Line.data · 1)) := List.filterMap_append
  rw [happ, definedNames_code h.code, definedNames_data]

theorem filter_moduleLines (cs : List Line) (ds : List Text) :
    (moduleLines cs ds).filter Line.isInstruction = cs.filter Line.isInstruction := by
  have hds : (ds.map (Line.data · 1)).filter Line.isInstruction = [] := by
    rw [List.filter_eq_nil_iff]
    intro l hl
    obtain ⟨x, -, rfl⟩ := List.mem_map.1 hl
    exact Bool.false_ne_true
  rw [moduleLines, List.filter_append, hds, List.append_nil]

/-- A name that comes twice is reported. -/
theorem assemble_duplicate (h : IsModule cs ds) (hn : ¬(labels cs ++ ds).Nodup) :
    ∃ i x, 2 ≤ (labels cs ++ ds).count x ∧
      assemble (render (moduleLines cs ds)) = .error ⟨i, .duplicateLabel x⟩ := by
  have hk : ({ labels := [] } : Layout).known = [] := rfl
  obtain ⟨i, x, hx, he⟩ := firstPass_duplicate h.fits (l := { labels := [] }) (by simp [hk])
    (by rw [hk, h.definedNames_eq]; exact hn) 1
  rw [hk, h.definedNames_eq] at hx
  refine ⟨i, x, hx, ?_⟩
  rw [assemble, assembleWith, lines_render h.fits]
  generalize firstPass { labels := [] } 1 _ = r at he
  obtain ⟨r, ls⟩ := r
  subst he
  rfl

/-- The first pass over a module whose names are all different. -/
theorem IsModule.firstPass_eq (h : IsModule cs ds) (hn : (labels cs ++ ds).Nodup) :
    ∃ l, firstPass { labels := [] } 1 (render (moduleLines cs ds)).lines = (.ok l, l.labels) ∧
      l.labels.Lays cs ds ∧ l.address = Int64.ofNat ds.length := by
  have hk : ({ labels := [] } : Layout).known = [] := rfl
  have hfirst := firstPass_nodup h.fits (l := { labels := [] })
    (by rw [hk, h.definedNames_eq]; exact hn) 1
  obtain ⟨cs', m, os, rfl⟩ := h.ends
  have hcode := List.forall_mem_append.1 h.code
  have hlabels : labels (cs' ++ [.instruction m os]) = labels cs' := by
    rw [labels_append]
    exact List.append_nil _
  rw [hlabels] at hn
  refine ⟨_, by rw [lines_render h.fits, hfirst], ?_⟩
  refine Layout.lays hcode.1 (List.forall_mem_singleton.1 hcode.2) hn ?_
  rw [moduleLines, List.append_assoc, List.singleton_append]

/-- Assembling a module whose names are all different: every instruction is linked, or an operand names
no word of data. -/
theorem assemble_module (h : IsModule cs ds) (hn : (labels cs ++ ds).Nodup) :
    (∃ p, assemble (render (moduleLines cs ds)) = .ok p ∧
      p.dataSize = Int64.ofNat ds.length ∧ p.labels.Lays cs ds ∧
      List.Forall₂ (fun l i => link? p.labels l = some i.1) (cs.filter Line.isInstruction) p.code) ∨
    ∃ i, ∃ l ∈ cs, ∃ x ∈ l.dataNames, x ∉ ds ∧
      assemble (render (moduleLines cs ds)) = .error ⟨i, .undefinedData x⟩ := by
  obtain ⟨l, hfirst, hlays, haddr⟩ := h.firstPass_eq hn
  have hassemble : assemble (render (moduleLines cs ds)) =
      (secondPass l.labels 1 (render (moduleLines cs ds)).lines).map
        fun code => ⟨code, l.address, l.labels⟩ := by
    rw [assemble, assembleWith, hfirst]
  rw [hassemble, lines_render h.fits]
  rcases secondPass_text l.labels h.fits 1 with ⟨code, hcode, hall⟩ | ⟨k, hk, e, he, hbad⟩
  · left
    rw [hcode]
    rw [filter_moduleLines] at hall
    exact ⟨_, rfl, haddr, hlays, hall⟩
  · right
    rcases List.mem_append.1 hk with hk | hk
    · rcases hbad with ⟨x, hx, hno, hcause⟩ | ⟨x, hx, hno, -⟩
      · refine ⟨e.line, k, hk, x, hx, fun hds => hno _ (hlays.address x hds), ?_⟩
        rw [he, ← hcause]
        rfl
      · obtain ⟨i, hi⟩ := hlays.place.code_of_mem (h.closed k hk x hx)
        exact absurd hi (hno i)
    · obtain ⟨y, -, rfl⟩ := List.mem_map.1 hk
      rcases hbad with ⟨x, hx, -⟩ | ⟨x, hx, -⟩ <;> cases hx

/-- A module is accepted iff its names are all different and its operands name words of data. -/
theorem assemble_eq_ok_iff (h : IsModule cs ds) :
    (∃ p, assemble (render (moduleLines cs ds)) = .ok p) ↔
      (labels cs ++ ds).Nodup ∧ ∀ l ∈ cs, ∀ x ∈ l.dataNames, x ∈ ds := by
  constructor
  · rintro ⟨p, hp⟩
    by_cases hn : (labels cs ++ ds).Nodup
    · refine ⟨hn, fun l hl x hx => ?_⟩
      rcases assemble_module h hn with ⟨q, -, -, hlays, hall⟩ | ⟨i, k, -, y, -, -, he⟩
      · have hmem : l ∈ cs.filter Line.isInstruction := by
          cases l with
          | label y => cases hx
          | data y n => cases hx
          | instruction m os => exact List.mem_filter.2 ⟨hl, rfl⟩
        obtain ⟨i, hi, rfl⟩ := List.getElem_of_mem hmem
        obtain ⟨a, ha⟩ := data_of_link? (hall.get hi (hall.length_eq ▸ hi)) hx
        exact hlays.mem_data x a ha
      · rw [hp] at he
        cases he
    · obtain ⟨i, x, -, he⟩ := assemble_duplicate h hn
      rw [hp] at he
      cases he
  · rintro ⟨hn, hd⟩
    rcases assemble_module h hn with ⟨p, hp, -⟩ | ⟨i, l, hl, x, hx, hno, -⟩
    · exact ⟨p, hp⟩
    · exact absurd (hd l hl x hx) hno

/-- An assembled module stands in its image from the first instruction on. -/
theorem sits_of_assemble (h : IsModule cs ds) {p : Assembled}
    (hp : assemble (render (moduleLines cs ds)) = .ok p) :
    p.dataSize = Int64.ofNat ds.length ∧ p.labels.Lays cs ds ∧ p.code.length = width cs ∧
      (Image.ofAssembled p ds).Sits 0 cs := by
  obtain ⟨hn, hd⟩ := (assemble_eq_ok_iff h).1 ⟨p, hp⟩
  rcases assemble_module h hn with ⟨q, hq, hsize, hlays, hall⟩ | ⟨i, l, hl, x, hx, hno, -⟩
  · obtain rfl : q = p := by
      rw [hp] at hq
      cases hq
      rfl
    refine ⟨hsize, hlays, ?_, ?_⟩
    · rw [← hall.length_eq, width, List.countP_eq_length_filter]
    · refine sits_of_place [] hlays.place hall rfl ?_
      simp [Image.ofAssembled, Assembled.program]
  · exact absurd (hd l hl x hx) hno

end

end Assembler

end OnePass
