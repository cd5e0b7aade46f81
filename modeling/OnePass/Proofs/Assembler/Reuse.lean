import Mathlib.Data.List.Induction
import OnePass.Proofs.Assembler.Agreement

namespace OnePass

open Assembler Machine

namespace Assembler

/-- The name is in the table. -/
def Labels.has (ls : Labels) (x : Text) : Bool := (ls.target? x).isSome

theorem Labels.has_append (known ls : Labels) (x : Text) :
    Labels.has (known ++ ls) x = (known.has x || ls.has x) := by
  rw [has, target?_append, Option.isSome_or]
  rfl

theorem Labels.has_iff {ls : Labels} {x : Text} : ls.has x = true ↔ x ∈ ls.map Prod.fst :=
  isSome_target?_iff

namespace Layout

variable {known : Labels} {l l' : Layout} {s : Statement} {raw : Text}

/-- The layout with older labels in front of its own. -/
def onto (known : Labels) (l : Layout) : Layout := { l with labels := known ++ l.labels }

theorem bind_onto (l : Layout) (t : Target) : (l.onto known).bind t = (l.bind t).onto known := by
  simp [bind, onto, Labels.bind]

/-- Labels wait as they do without the older ones, up to the first that is among these. -/
theorem await_onto {names : List Text} (h : l.await names = .ok l') :
    (l.onto known).await names =
      (names.find? known.has).elim (.ok (l'.onto known)) fun y => .error (.duplicateLabel y) := by
  induction names generalizing l with
  | nil =>
    cases h
    rfl
  | cons n names ih =>
    have hhas : ((l.onto known).labels.target? n).isSome =
        (known.has n || (l.labels.target? n).isSome) := Labels.has_append known l.labels n
    rw [await] at h ⊢
    split at h
    · cases h
    · -- the label is free without the older ones, so these decide
      rename_i hfree
      rw [not_or] at hfree
      rw [hhas]
      cases hold : known.has n with
      | true =>
        rw [List.find?_cons_of_pos hold]
        exact if_pos (.inl rfl)
      | false =>
        rw [List.find?_cons_of_neg (by simp [hold]), Bool.false_or]
        exact (if_neg (not_or.2 hfree)).trans (ih h)

/-- The place of a line does not depend on the older labels. -/
theorem placeLine_onto (l : Layout) (s : Statement) :
    (l.onto known).placeLine s = (l.placeLine s).map (onto known) := by
  unfold placeLine
  cases s.mnemonic with
  | none => rfl
  | some m =>
    dsimp only
    split
    · cases dataSize s.operands with
      | error e => rfl
      | ok n =>
        change (if l.pending.isEmpty then throw Cause.unlabelledData else pure _) =
          Except.map _ (if l.pending.isEmpty then throw Cause.unlabelledData else pure _)
        split
        · rfl
        · rw [bind_onto]
          rfl
    · split
      · rw [bind_onto]
        rfl
      · rfl

theorem line_onto (h : l.line raw = .ok l') (hread : Statement.read raw = .ok s) :
    (l.onto known).line raw =
      (s.labels.find? known.has).elim (.ok (l'.onto known)) fun y => .error (.duplicateLabel y) := by
  rw [line, hread] at h ⊢
  change (l.await s.labels >>= fun l => l.placeLine s) = _ at h
  change ((l.onto known).await s.labels >>= fun l => l.placeLine s) = _
  cases hawait : l.await s.labels with
  | error e =>
    rw [hawait] at h
    cases h
  | ok l₁ =>
    rw [hawait] at h
    change l₁.placeLine s = .ok l' at h
    rw [await_onto hawait]
    cases s.labels.find? known.has with
    | some y => rfl
    | none =>
      change (l₁.onto known).placeLine s = _
      rw [placeLine_onto, h]
      rfl

/-- A line only adds labels. -/
theorem labels_line (h : l.line raw = .ok l') (hk : l.known.Nodup) : l.labels <+: l'.labels := by
  obtain ⟨s, -, -, rfl, -⟩ := line_eq_ok h hk
  unfold past settle
  split
  · exact List.prefix_append _ _
  · split
    · exact List.prefix_append _ _
    · exact List.prefix_refl _

end Layout

section FirstPass

variable {known ls : Labels} {l l' : Layout} {raws : List Text} {ss : List Statement} {n : Nat}

/-- However the first pass ends, it has only added labels, each once. -/
theorem firstPass_adds (hk : l.known.Nodup) (n : Nat) (raws : List Text) :
    l.labels <+: (firstPass l n raws).2 ∧ ((firstPass l n raws).2.map Prod.fst).Nodup := by
  induction raws generalizing l n with
  | nil =>
    refine ⟨List.prefix_append _ _, ?_⟩
    change (l.finish.labels.map Prod.fst).Nodup
    rwa [Layout.names_finish]
  | cons raw raws ih =>
    rw [firstPass]
    cases hline : l.line raw with
    | error e => exact ⟨List.prefix_refl _, (List.nodup_append.1 hk).1⟩
    | ok l₁ =>
      obtain ⟨s, -, -, -, hk₁⟩ := Layout.line_eq_ok hline hk
      obtain ⟨hmore, hnodup⟩ := ih hk₁ (n + 1)
      exact ⟨(Layout.labels_line hline hk).trans hmore, hnodup⟩

/-- Without an older label in the text the first pass goes on as without older labels. -/
theorem firstPass_onto (h : firstPass l n raws = (.ok l', ls)) (hread : ReadAs raws ss)
    (hnew : ∀ x ∈ labelNames ss, known.has x = false) :
    firstPass (l.onto known) n raws = (.ok (l'.onto known), known ++ ls) := by
  induction hread generalizing l n with
  | nil =>
    cases h
    rw [firstPass, Layout.bind_onto]
    rfl
  | @cons raw s raws ss hs _ ih =>
    obtain ⟨l₁, hline, hrest⟩ := firstPass_cons_eq_ok h
    have hfirst : s.labels.find? known.has = none := by
      rw [List.find?_eq_none]
      intro x hx
      simp [hnew x (by simp [labelNames, hx])]
    rw [firstPass, Layout.line_onto hline hs, hfirst]
    exact ih hrest fun x hx => hnew x (List.mem_append_right _ hx)

/-- The text is refused at the first line with an older label. -/
theorem firstPass_onto_old (h : firstPass l n raws = (.ok l', ls)) (hread : ReadAs raws ss)
    (hold : ∃ x ∈ labelNames ss, known.has x = true) :
    ∃ i s x, ss[i]? = some s ∧ x ∈ s.labels ∧ known.has x = true ∧
      (∀ y ∈ labelNames (ss.take i), known.has y = false) ∧
      (firstPass (l.onto known) n raws).1 = .error ⟨n + i, .duplicateLabel x⟩ := by
  induction hread generalizing l n with
  | nil =>
    obtain ⟨x, hx, -⟩ := hold
    cases hx
  | @cons raw s raws ss hs _ ih =>
    obtain ⟨l₁, hline, hrest⟩ := firstPass_cons_eq_ok h
    rw [firstPass, Layout.line_onto hline hs]
    cases hfirst : s.labels.find? known.has with
    | some x =>
      exact ⟨0, s, x, rfl, List.mem_of_find?_eq_some hfirst, List.find?_some hfirst,
        by simp [labelNames], rfl⟩
    | none =>
      -- the line has no older label, so the one there is stands further down
      have hnone : ∀ y ∈ s.labels, known.has y = false := by
        simpa using List.find?_eq_none.1 hfirst
      obtain ⟨x, hx, hxk⟩ := hold
      have hbelow : x ∈ labelNames ss := by
        rcases List.mem_append.1 hx with hx | hx
        · rw [hnone x hx] at hxk
          cases hxk
        · exact hx
      obtain ⟨i, s', y, hi, hy, hyk, hbefore, herror⟩ := ih hrest ⟨x, hbelow, hxk⟩
      refine ⟨i + 1, s', y, hi, hy, hyk, ?_, ?_⟩
      · intro z hz
        rcases List.mem_append.1 hz with hz | hz
        · exact hnone z hz
        · exact hbefore z hz
      · rw [← Nat.add_assoc, Nat.add_right_comm]
        exact herror

end FirstPass

/-- Where the first computation succeeds, the second has the same result. -/
def Upheld {ε α : Type} (x y : Except ε α) : Prop := ∀ a, x = .ok a → y = .ok a

namespace Upheld

variable {ε α β : Type} {x y : Except ε α}

theorem refl (x : Except ε α) : Upheld x x := fun _ h => h

theorem bind {f g : α → Except ε β} (h : Upheld x y) (hfg : ∀ a, Upheld (f a) (g a)) :
    Upheld (x >>= f) (y >>= g) := by
  intro b hb
  cases x with
  | error e => cases hb
  | ok a =>
    rw [h a rfl]
    exact hfg a b hb

theorem map {f : α → β} (h : Upheld x y) : Upheld (x.map f) (y.map f) := by
  intro b hb
  cases x with
  | error e => cases hb
  | ok a =>
    rw [h a rfl]
    exact hb

end Upheld

section SecondPass

variable {ls ls' : Labels}

/-- A table that finds all that another one finds. -/
def Labels.Extends (ls' ls : Labels) : Prop := ∀ x t, ls.target? x = some t → ls'.target? x = some t

theorem Labels.extends_append {known : Labels} (hnew : ∀ x, ls.has x = true → known.has x = false) :
    Labels.Extends (known ++ ls) ls := by
  intro x t ht
  have hnone : known.target? x = none := by
    have h := hnew x (by simp [has, ht])
    simpa [has] using h
  rw [target?_append, hnone, ht]
  rfl

theorem readLabel_upheld (hls : ls'.Extends ls) (c : OperandClass) (w : Text) :
    Upheld (readLabel ls c w) (readLabel ls' c w) := by
  intro o h
  obtain ⟨t, ht, -, -⟩ := readLabel_eq_ok h
  unfold readLabel at h ⊢
  rw [ht] at h
  rw [hls w t ht]
  exact h

theorem readOperand_upheld (hls : ls'.Extends ls) (c : OperandClass) (w : Text) :
    Upheld (readOperand ls c w) (readOperand ls' c w) := by
  unfold readOperand
  split
  · exact .refl _
  · split
    · exact .refl _
    · split
      · exact readLabel_upheld hls c w
      · exact .refl _

theorem readOperands_upheld (hls : ls'.Extends ls) (op : Mnemonic) (name : Text) (ws : List Text) :
    Upheld (readOperands ls op name ws) (readOperands ls' op name ws) := by
  unfold readOperands
  split
  · exact .refl _
  · exact (readOperand_upheld hls _ _).bind fun _ => .refl _
  · refine (readOperand_upheld hls _ _).bind fun _ => ?_
    exact (readOperand_upheld hls _ _).bind fun _ => .refl _
  · exact .refl _

theorem instruction?_upheld (hls : ls'.Extends ls) (raw : Text) :
    Upheld (instruction? ls raw) (instruction? ls' raw) := by
  refine (Upheld.refl (Statement.read raw)).bind fun s => ?_
  split
  · exact (readOperands_upheld hls _ _ _).bind fun _ => .refl _
  · exact .refl _

/-- What the second pass makes of a text it also makes with more labels. -/
theorem secondPass_upheld (hls : ls'.Extends ls) (n : Nat) (raws : List Text) :
    Upheld (secondPass ls n raws) (secondPass ls' n raws) := by
  induction raws generalizing n with
  | nil => exact .refl _
  | cons raw raws ih =>
    rw [secondPass, secondPass]
    cases hr : instruction? ls raw with
    | error e =>
      intro code h
      cases h
    | ok r =>
      rw [instruction?_upheld hls raw r hr]
      cases r with
      | none => exact ih (n + 1)
      | some i => exact (ih (n + 1)).map

end SecondPass

end Assembler

/-- The labels that an assembler knows after some texts, whether it took them or not. -/
def labelsAfter (history : List Text) : Labels :=
  history.foldl (fun known text => (assembleWith known text).2) []

section Reuse

variable {known : Labels} {text : Text} {p : Assembled} {ss : List Statement}

theorem labelsAfter_concat (history : List Text) (text : Text) :
    labelsAfter (history ++ [text]) = (assembleWith (labelsAfter history) text).2 :=
  List.foldl_concat _ _ _ _

theorem assembleWith_snd (known : Labels) (text : Text) :
    (assembleWith known text).2 = (firstPass { labels := known } 1 text.lines).2 := by
  rw [assembleWith]
  cases firstPass { labels := known } 1 text.lines with
  | mk r ls => cases r <;> rfl

/-- A text only adds labels, each once, whether it is taken or not. -/
theorem assembleWith_adds (hk : (known.map Prod.fst).Nodup) (text : Text) :
    known <+: (assembleWith known text).2 ∧ ((assembleWith known text).2.map Prod.fst).Nodup := by
  rw [assembleWith_snd]
  exact firstPass_adds (l := { labels := known }) (by simpa [Layout.known] using hk) 1 text.lines

theorem nodup_labelsAfter (history : List Text) : ((labelsAfter history).map Prod.fst).Nodup := by
  induction history using List.reverseRecOn with
  | nil => exact List.nodup_nil
  | append_singleton history text ih =>
    rw [labelsAfter_concat]
    exact (assembleWith_adds ih text).2

theorem labelNames_of_assemble (h : assemble text = .ok p) :
    ∃ ss, ReadAs text.lines ss ∧ p.labels.map Prod.fst = labelNames ss := by
  obtain ⟨ss, hread, -, -, hlabels, -, -⟩ := assemble_eq_ok h
  refine ⟨ss, hread, ?_⟩
  rw [hlabels, Layout.names_finish, Layout.known_pasts]
  rfl

/-- A text whose labels are new is assembled as by a new assembler. -/
theorem assembleWith_new (h : assemble text = .ok p)
    (hnew : ∀ x, p.labels.has x = true → known.has x = false) :
    assembleWith known text = (.ok { p with labels := known ++ p.labels }, known ++ p.labels) := by
  obtain ⟨l, hfirst, hsize, hcode⟩ := passes_of_assemble h
  obtain ⟨ss, hread, hnames⟩ := labelNames_of_assemble h
  have hnames : ∀ x ∈ labelNames ss, known.has x = false := fun x hx =>
    hnew x (Labels.has_iff.2 (hnames ▸ hx))
  have hfirst' := firstPass_onto hfirst hread hnames
  have hstart : Layout.onto known { labels := [] } = { labels := known } := by simp [Layout.onto]
  rw [hstart] at hfirst'
  have hcode' := secondPass_upheld (Labels.extends_append hnew) 1 text.lines _ hcode
  rw [assembleWith, hfirst']
  simp only [hcode']
  rw [← hsize]
  rfl

/-- A text with an old label is refused at the first line with one. -/
theorem assembleWith_old (h : assemble text = .ok p) (hread : ReadAs text.lines ss)
    (hold : ∃ x ∈ labelNames ss, known.has x = true) :
    ∃ i s x, ss[i]? = some s ∧ x ∈ s.labels ∧ known.has x = true ∧
      (∀ y ∈ labelNames (ss.take i), known.has y = false) ∧
      (assembleWith known text).1 = .error ⟨i + 1, .duplicateLabel x⟩ := by
  obtain ⟨l, hfirst, -, -⟩ := passes_of_assemble h
  obtain ⟨i, s, x, hi, hx, hxk, hbefore, herror⟩ := firstPass_onto_old hfirst hread hold
  refine ⟨i, s, x, hi, hx, hxk, hbefore, ?_⟩
  have hstart : Layout.onto known { labels := [] } = { labels := known } := by simp [Layout.onto]
  rw [hstart, Nat.add_comm] at herror
  rw [assembleWith]
  cases hagain : firstPass { labels := known } 1 text.lines with
  | mk r ls =>
    rw [hagain] at herror
    dsimp only at herror
    rw [herror]

end Reuse

/-- An assembler that has gone through any texts, on a text that a new assembler takes. It keeps what it knows,
whatever it is given. If it knows no label of the text, it takes the text with the same code, lines and
data, and knows the labels of both afterwards. If it knows one, it refuses the text at the first line with such a
label. -/
theorem assemble_reused (history : List Text) {text : Text} {p : Assembled}
    (h : assemble text = .ok p) :
    (∀ (other x : Text) (t : Target), (labelsAfter history).target? x = some t →
        (labelsAfter (history ++ [other])).target? x = some t) ∧
      ((∀ x, p.labels.has x = true → (labelsAfter history).has x = false) →
        ∃ q, assembleWith (labelsAfter history) text = (.ok q, labelsAfter (history ++ [text])) ∧
          q.code = p.code ∧ q.dataSize = p.dataSize ∧ q.labels = labelsAfter (history ++ [text]) ∧
          ∀ x t, q.labels.target? x = some t ↔
            (labelsAfter history).target? x = some t ∨ p.labels.target? x = some t) ∧
      ∃ ss, ReadAs text.lines ss ∧ p.labels.map Prod.fst = labelNames ss ∧
        ((∃ x ∈ labelNames ss, (labelsAfter history).has x = true) →
          ∃ i s x, ss[i]? = some s ∧ x ∈ s.labels ∧ (labelsAfter history).has x = true ∧
            (∀ y ∈ labelNames (ss.take i), (labelsAfter history).has y = false) ∧
            (assembleWith (labelsAfter history) text).1 = .error ⟨i + 1, .duplicateLabel x⟩) := by
  refine ⟨?_, ?_, ?_⟩
  · intro other x t hx
    obtain ⟨added, hadded⟩ := (assembleWith_adds (nodup_labelsAfter history) other).1
    rw [labelsAfter_concat, ← hadded, Labels.target?_append, hx]
    rfl
  · intro hnew
    rw [labelsAfter_concat, assembleWith_new h hnew]
    refine ⟨_, rfl, rfl, rfl, rfl, ?_⟩
    intro x t
    rw [Labels.target?_append, Option.or_eq_some_iff]
    constructor
    · intro hx
      exact hx.imp id And.right
    · intro hx
      rcases hx with hx | hx
      · exact .inl hx
      · have hfree := hnew x (by simp [Labels.has, hx])
        exact .inr ⟨by simpa [Labels.has] using hfree, hx⟩
  · obtain ⟨ss, hread, hnames⟩ := labelNames_of_assemble h
    exact ⟨ss, hread, hnames, assembleWith_old h hread⟩

/-- One text that is taken, and one that is refused at its last line. -/
def earlierTexts : List Text := ["a: halt\n", "b: data 2\nc: halt\nnonsense"]

/-- A text with new labels. -/
def newcomer : Text := "d: brun d\ne: data 3\n  move R0, e\n"

/-- A text with an old label. -/
def latecomer : Text := "x: halt\na: halt\n"

theorem assemble_reused_earlierTexts :
    (labelsAfter earlierTexts).map Prod.snd = [.code 0, .data 0, .code 0] ∧
      (∃ p q, assemble newcomer = .ok p ∧
        assembleWith (labelsAfter earlierTexts) newcomer =
          (.ok q, labelsAfter (earlierTexts ++ [newcomer])) ∧
        q.code = p.code ∧ q.dataSize = p.dataSize) ∧
      ∃ p i x, assemble latecomer = .ok p ∧ (labelsAfter earlierTexts).has x = true ∧
        (assembleWith (labelsAfter earlierTexts) latecomer).1 = .error ⟨i + 1, .duplicateLabel x⟩ := by
  refine ⟨by decide +kernel, ?_, ?_⟩
  · have hok : (assemble newcomer).toOption.map (fun p => p.labels.map Prod.fst) =
        some [Text.ofString "d", Text.ofString "e"] := by decide +kernel
    obtain ⟨p, hp, hnames⟩ := exists_of_assemble_map hok
    have hnew : ∀ x ∈ [Text.ofString "d", Text.ofString "e"],
        (labelsAfter earlierTexts).has x = false := by decide +kernel
    obtain ⟨q, hq, hcode, hsize, -⟩ := (assemble_reused earlierTexts hp).2.1 fun x hx =>
      hnew x (hnames ▸ Labels.has_iff.1 hx)
    exact ⟨p, q, hp, hq, hcode, hsize⟩
  · have hok : (assemble latecomer).toOption.map (fun p => p.labels.map Prod.fst) =
        some [Text.ofString "x", Text.ofString "a"] := by decide +kernel
    obtain ⟨p, hp, hnames⟩ := exists_of_assemble_map hok
    obtain ⟨ss, -, hwritten, hrefused⟩ := (assemble_reused earlierTexts hp).2.2
    have hold : Text.ofString "a" ∈ labelNames ss := by
      rw [← hwritten, hnames]
      decide
    obtain ⟨i, s, x, -, -, hx, -, herror⟩ := hrefused ⟨"a", hold, by decide +kernel⟩
    exact ⟨p, i, x, hp, hx, herror⟩

end OnePass
