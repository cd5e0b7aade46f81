import OnePass.Proofs.Compiler.Composition
import OnePass.Proofs.Pipeline.Output
import OnePass.Proofs.Pipeline.Writer
import OnePass.Proofs.Token.Tiling

namespace OnePass

open Compiler Assembly

namespace Compiler.Pass

variable {α β : Type} {P : Line → Prop} {s s' s'' : State}

/-- One state comes after another: the program keeps its name, as many parts are being checked, and the code has
grown by lines with the property. -/
structure Leads (P : Line → Prop) (s s' : State) : Prop where
  program : s'.program = s.program
  depth : s'.scratch.length = s.scratch.length
  code : Listing.Grows P s.main.listing s'.main.listing

theorem Leads.of_eq (hprogram : s'.program = s.program) (hscratch : s'.scratch = s.scratch)
    (hmain : s'.main.listing = s.main.listing) : Leads P s s' where
  program := hprogram
  depth := congrArg List.length hscratch
  code := hmain ▸ .refl _

theorem Leads.refl (s : State) : Leads P s s := .of_eq rfl rfl rfl

theorem Leads.trans (h : Leads P s s') (h' : Leads P s' s'') : Leads P s s'' where
  program := h'.program.trans h.program
  depth := h'.depth.trans h.depth
  code := h.code.trans h'.code

theorem Leads.writing (h : Leads P s s') (hs : s.Writing) :
    s'.Writing ∧ ∃ ls, (∀ l ∈ ls, P l) ∧
      s'.main.listing.written.toList = s.main.listing.written.toList ++ ls := by
  obtain ⟨hscratch, haccepting⟩ := hs
  obtain ⟨haccepting', hls⟩ := h.code haccepting
  have hdepth := h.depth
  rw [hscratch] at hdepth
  exact ⟨⟨List.eq_nil_of_length_eq_zero hdepth, haccepting'⟩, hls⟩

theorem leads_setCurrent {g : Generator} (h : Listing.Grows P s.current.listing g.listing) :
    Leads P s (s.setCurrent g) := by
  unfold State.current at h
  unfold State.setCurrent
  split
  · rename_i hscratch
    rw [hscratch] at h
    exact ⟨rfl, by rw [hscratch], h⟩
  · rename_i hscratch
    exact ⟨rfl, by simp [hscratch], .refl _⟩

/-- A run from a state has led to its last one; no step of it has asked for the end of the input. -/
structure Arrives (P : Line → Prop) (s : State) (r : Except CompileError α × State) : Prop where
  leads : Leads P s r.2
  error : ∀ t, r.1 ≠ .error (.extraTokens t)

theorem Arrives.of_ok {a : α} (h : Leads P s s') : Arrives P s (.ok a, s') :=
  ⟨h, fun t ht => by cases ht⟩

theorem Arrives.of_error {e : CompileError} (he : ∀ t, e ≠ .extraTokens t) (h : Leads P s s') :
    Arrives P s ((.error e, s') : Except CompileError α × State) :=
  ⟨h, fun t ht => he t (Except.error.inj ht)⟩

theorem arrives_enter (p : Production) (o : Options) (s : State) : Arrives P s ((enter p).run o s) := by
  simp only [enter, run_bind, run_read]
  split
  · exact .of_ok (.of_eq rfl rfl rfl)
  · exact .of_ok (.refl s)

theorem arrives_declare (t : Token) (scope : Text) (type : ExprType) (position : Int) (o : Options)
    (s : State) : Arrives P s ((declare t scope type position).run o s) := by
  simp only [declare, run_bind, run_get]
  split
  · exact .of_error (by simp) (.refl s)
  · exact .of_ok (.of_eq rfl rfl rfl)

theorem arrives_advance (o : Options) (s : State) : Arrives P s (advance.run o s) := by
  rw [run_advance_reclaim]
  cases s.feed.next with
  | mk item feed =>
    cases item with
    | ok t => exact .of_ok (.of_eq rfl rfl rfl)
    | error e => exact .of_error (by simp) (.of_eq rfl rfl rfl)

theorem arrives_generate {x : Gen α} (hx : x.Writes P) (o : Options) (s : State) :
    Arrives P s ((generate x).run o s) := by
  have hcode := hx s.current
  rw [run_generate]
  cases hrun : x.run.run s.current with
  | mk r g =>
    rw [hrun] at hcode
    cases r with
    | ok a => exact .of_ok (leads_setCurrent hcode)
    | error e => exact .of_error (by simp) (leads_setCurrent hcode)

theorem arrives_expect (k : Kind) (a : Attr) (o : Options) (s : State) :
    Arrives P s ((expect k a).run o s) := by
  change Arrives P s ((if s.lookahead.is k a = true then advance else unexpected (.token k a)).run o s)
  split
  · exact arrives_advance o s
  · exact .of_error (by simp) (.refl s)

theorem arrives_bind {p : Pass α} {f : α → Pass β} {o : Options} (hp : Arrives P s (p.run o s))
    (hf : ∀ a s', p.run o s = (.ok a, s') → Arrives P s' ((f a).run o s')) :
    Arrives P s ((p >>= f).run o s) := by
  obtain ⟨hfirst, herror⟩ := hp
  rw [run_bind]
  cases hrun : p.run o s with
  | mk r s' =>
    rw [hrun] at hfirst herror
    cases r with
    | ok a =>
      obtain ⟨hnext, herror'⟩ := hf a s' hrun
      exact ⟨hfirst.trans hnext, herror'⟩
    | error e => exact .of_error (fun t ht => herror t (by rw [ht])) hfirst

/-- However a part ends that does not name the program, its run has led to the last state. -/
theorem arrives_of_composed {K : Terms} {d : Nat} {A : Generator → Prop} {V : α → α → Prop}
    {p q : Pass α} {B : α → Generator → Prop} (h : Composed K d A V p q B) (hfree : ¬K.tracked)
    (hname : ∀ x, ¬K.name x) (o : Options) {s t : State} (hst : K.like.State d s t) :
    Arrives K.line s (p.run o s) := by
  induction h generalizing s t with
  | pure _ _ => exact .of_ok (.refl s)
  | @throw _ _ _ _ e _ _ _ he =>
    refine .of_error (fun t ht => ?_) (.refl s)
    rw [ht] at he
    exact K.notEnd t he
  | get => exact .of_ok (.refl s)
  | @enter _ _ p _ => exact arrives_enter p o s
  | advance _ => exact arrives_advance o s
  | @declare _ _ u _ _ scope type position => exact arrives_declare u scope type position o s
  | giveType type => exact .of_ok (.of_eq rfl rfl rfl)
  | name hx => exact absurd hx (hname _)
  | generate hx => exact arrives_generate hx.writes o s
  | bind hp _ ihp ihf =>
    refine arrives_bind (ihp hst) fun a s' hrun => ?_
    obtain ⟨b, t', hab, hst', -⟩ := hp.answer hst (fun h => absurd h hfree) hrun
    exact ihf a b hab hst'
  | suppress _ ih =>
    obtain ⟨hinner, herror⟩ := ih hst.suppressed
    refine ⟨⟨hinner.program, ?_, hinner.code⟩, herror⟩
    have hdepth := hinner.depth
    rw [List.length_cons] at hdepth
    rw [Pass.suppress, run_within, List.length_tail, hdepth, Nat.add_sub_cancel]
  | inScope scope _ ih =>
    obtain ⟨hinner, herror⟩ := ih (hst.inScope scope)
    exact ⟨⟨hinner.program, hinner.depth, hinner.code⟩, herror⟩
  | stmt heq _ ih =>
    rw [heq]
    refine arrives_bind (arrives_enter .stmt o s) fun _ s' hrun => ?_
    have hst' := (Likeness.Mirrors.of_enter .stmt o s t hst).2
    rw [hrun] at hst'
    exact ih hst'

/-- From states with `A` the pass ends with an answer in a state with `B`, or it fails in a state with `F`, and not for
want of the end of the input. -/
def Phase (A : State → Prop) (p : Pass α) (B : α → State → Prop) (F : State → Prop) : Prop :=
  ∀ o s, A s →
    match p.run o s with
    | (.ok a, s') => B a s'
    | (.error e, s') => (∀ t, e ≠ .extraTokens t) ∧ F s'

namespace Phase

variable {A F : State → Prop} {p : Pass α} {f : α → Pass β} {B : α → State → Prop}
  {C : β → State → Prop}

theorem bind (hp : Phase A p B F) (hf : ∀ a, Phase (B a) (f a) C F) : Phase A (p >>= f) C F := by
  intro o s hs
  have hfirst := hp o s hs
  rw [run_bind]
  cases hrun : p.run o s with
  | mk r s' =>
    rw [hrun] at hfirst
    cases r with
    | ok a => exact hf a o s' hfirst
    | error e => exact hfirst

theorem ite {c : Prop} [Decidable c] {q : Pass α} (hp : c → Phase A p B F) (hq : ¬c → Phase A q B F) :
    Phase A (if c then p else q) B F := by
  split
  · exact hp ‹_›
  · exact hq ‹_›

theorem get_bind {g : State → Pass β} (h : ∀ s, A s → Phase (· = s) (g s) C F) :
    Phase A (get >>= g) C F := fun o s hs => h s hs o s rfl

/-- What holds of the answer apart from the state. -/
theorem of_fact {c : Prop} (h : c → Phase A p B F) : Phase (fun s => c ∧ A s) p B F :=
  fun o s hs => h hs.1 o s hs.2

theorem post {B' : α → State → Prop} (h : Phase A p B F) (hB : ∀ a s, B a s → B' a s) :
    Phase A p B' F := by
  intro o s hs
  have hend := h o s hs
  cases hrun : p.run o s with
  | mk r s' =>
    rw [hrun] at hend
    cases r with
    | ok a => exact hB a s' hend
    | error e => exact hend

theorem of_arrives (h : ∀ o s, Arrives P s (p.run o s)) {B : State → Prop}
    (hB : ∀ {s s'}, A s → Leads P s s' → B s') (hF : ∀ {s}, B s → F s) :
    Phase A p (fun _ => B) F := by
  intro o s hs
  obtain ⟨hleads, herror⟩ := h o s
  cases hrun : p.run o s with
  | mk r s' =>
    rw [hrun] at hleads herror
    cases r with
    | ok a => exact hB hs hleads
    | error e => exact ⟨fun t ht => herror t (by rw [ht]), hF (hB hs hleads)⟩

end Phase

/-- Nothing has been written. -/
def Blank (s : State) : Prop := s.Writing ∧ s.main.listing.written.toList = []

/-- There is neither a halt nor data in the code. -/
def Unfinished (s : State) : Prop := ∀ l ∈ s.main.listing.written.toList, l.inBody = true

/-- The entry of the program has been written, and a part of its body. -/
structure Begun (name : Text) (s : State) : Prop where
  writing : s.Writing
  program : s.program = name
  code : ∃ body, (∀ l ∈ body, l.inBody = true) ∧
    s.main.listing.written.toList = .label ("_" ++ name) :: body

/-- The code has been written up to its halt. -/
structure Halted (name : Text) (s : State) : Prop where
  writing : s.Writing
  program : s.program = name
  code : ∃ body, (∀ l ∈ body, l.inBody = true) ∧ s.main.listing.written.toList = framed name body

/-- The whole code has been written. -/
structure Finished (name : Text) (s : State) : Prop where
  writing : s.Writing
  program : s.program = name
  code : ∃ body, (∀ l ∈ body, l.inBody = true) ∧
    s.main.listing.written.toList = framed name body ++ s.dataNames.map (.data · 1)

theorem Blank.unfinished (h : Blank s) : Unfinished s := by
  unfold Unfinished
  rw [h.2]
  simp

theorem Blank.leads (h : Blank s) (hs : Leads (fun _ => False) s s') : Blank s' := by
  obtain ⟨hwriting, ls, hls, hwritten⟩ := hs.writing h.1
  refine ⟨hwriting, ?_⟩
  rw [hwritten, h.2, List.nil_append]
  exact List.eq_nil_iff_forall_not_mem.2 hls

theorem Begun.unfinished {name : Text} (h : Begun name s) : Unfinished s := by
  obtain ⟨body, hbody, hwritten⟩ := h.code
  unfold Unfinished
  rw [hwritten]
  exact List.forall_mem_cons.2 ⟨rfl, hbody⟩

theorem Begun.leads {name : Text} (h : Begun name s)
    (hs : Leads (fun l => l.inBody = true) s s') : Begun name s' := by
  obtain ⟨body, hbody, hwritten⟩ := h.code
  obtain ⟨hwriting, ls, hls, hwritten'⟩ := hs.writing h.writing
  refine ⟨hwriting, hs.program.trans h.program, body ++ ls, List.forall_mem_append.2 ⟨hbody, hls⟩, ?_⟩
  rw [hwritten', hwritten, List.cons_append]

/-- The steps of one run that write the body of a program. -/
def bodyTerms : Terms where
  like := .same
  tracked := False
  takes := True
  error := Ordinary
  notRegister := Ordinary.not_register
  notEnd := Ordinary.not_extraTokens
  line l := l.inBody = true
  name _ := False

theorem bodyTerms_reading : bodyTerms.Reading where
  semantic _ _ := ⟨by simp, by simp⟩
  line h := h
  takes := trivial
  unexpected _ _ := ⟨by simp, by simp⟩
  numeral _ _ := ⟨by simp, by simp⟩

theorem phase_body {name : Text} {p : Pass α} {A : Generator → Prop} {V : α → α → Prop}
    {B : α → Generator → Prop} (h : ∀ d, Composed bodyTerms d A V p p B) :
    Phase (Begun name) p (fun _ => Begun name) Unfinished := by
  refine .of_arrives (fun o s => ?_) Begun.leads Begun.unfinished
  exact arrives_of_composed (h _) id (fun _ => id) o (.same s)

theorem run_put (l : Line) (o : Options) (hs : s.scratch = []) :
    (put l).run o s =
      (.ok (), { s with main := { s.main with listing := s.main.listing.put l } }) := by
  have hcurrent : s.current = s.main := by rw [State.current, hs, List.headD_nil]
  rw [put, run_generate, hcurrent]
  change (_, s.setCurrent _) = _
  rw [State.setCurrent, hs]

/-- Putting a line. -/
theorem phase_put {A B : State → Prop} (l : Line) (hA : ∀ {s}, A s → s.Writing)
    (h : ∀ {s s'}, A s → s'.program = s.program → s'.Writing →
      s'.main.listing.written.toList = s.main.listing.written.toList ++ [l] → B s') :
    Phase A (put l) (fun _ => B) Unfinished := by
  intro o s hs
  obtain ⟨hscratch, haccepting⟩ := hA hs
  rw [run_put l o hscratch]
  refine h hs rfl ⟨hscratch, haccepting.put l⟩ ?_
  rw [Listing.put_eq haccepting, Array.toList_push]

theorem run_data (o : Options) (names : List Text) (hs : s.scratch = []) :
    (forIn names PUnit.unit fun x _ => do
      put (.data x 1)
      pure (ForInStep.yield PUnit.unit) : Pass PUnit).run o s =
      (.ok PUnit.unit, { s with main := Source.withData s.main names }) := by
  induction names generalizing s with
  | nil => rfl
  | cons x names ih =>
    rw [List.forIn_cons, bind_assoc, run_bind, run_put _ _ hs]
    dsimp only
    rw [pure_bind]
    exact ih hs

/-- The data are written in one go. -/
theorem run_dataLines (o : Options) (hs : s.scratch = []) :
    dataLines.run o s = (.ok (), { s with main := Source.withData s.main s.dataNames }) := by
  have hcurrent : s.current = s.main := by rw [State.current, hs, List.headD_nil]
  have hspills := run_data (s := { s with main := Source.withData s.main (s.symbols.storage s.program) }) o
    s.main.listing.spills.toList hs
  rw [dataLines, run_bind, run_get]
  dsimp only
  rw [run_bind, run_data o _ hs]
  dsimp only
  rw [← Array.forIn_toList, run_bind, hcurrent, hspills]
  dsimp only
  rw [State.dataNames, Source.withData, Source.withData, Source.withData, List.foldl_append]
  rfl

theorem phase_dataLines {name : Text} :
    Phase (Halted name) dataLines (fun _ => Finished name) Unfinished := by
  intro o s hs
  obtain ⟨hscratch, haccepting⟩ := hs.writing
  obtain ⟨body, hbody, hwritten⟩ := hs.code
  have hlisting := written_withData haccepting s.dataNames
  -- putting data hands out no spill word, so the names are still the same
  have hnames : ({ s with main := Source.withData s.main s.dataNames } : State).dataNames = s.dataNames := by
    have hspills : (Source.withData s.main s.dataNames).listing.spills = s.main.listing.spills := by
      rw [hlisting]
    rw [State.dataNames, hspills]
    rfl
  rw [run_dataLines o hscratch]
  refine ⟨⟨hscratch, ?_⟩, hs.program, body, hbody, ?_⟩
  · dsimp only
    rw [hlisting]
    exact haccepting
  · rw [hnames]
    dsimp only
    rw [hlisting, Array.toList_append, hwritten]

theorem phase_at {A F : State → Prop} (k : Kind) (a : Attr) : Phase A (at? k a) (fun _ => A) F :=
  fun _ _ hs => hs

theorem phase_enter {F : State → Prop} (p : Production) (f : Feed) :
    Phase (fun s => Blank s ∧ s.feed = f) (enter p) (fun _ s => Blank s ∧ s.feed = f) F := by
  intro o s hs
  simp only [enter, run_bind, run_read]
  cases o.trace with
  | true => exact hs
  | false => exact hs

/-- Taking the first item of a feed. -/
theorem phase_advance (f : Feed) :
    Phase (fun s => Blank s ∧ s.feed = f) advance
      (fun _ s => Blank s ∧ s.feed = f.next.2 ∧ f.next.1 = .ok s.lookahead) Unfinished := by
  rintro o s ⟨hblank, rfl⟩
  rw [run_advance_reclaim]
  cases s.feed.next with
  | mk item feed =>
    cases item with
    | ok t => exact ⟨hblank, rfl, rfl⟩
    | error e => exact ⟨by simp, hblank.unfinished⟩

theorem phase_expectIdentifier (f : Feed) :
    Phase (fun s => Blank s ∧ s.feed = f.next.2 ∧ f.next.1 = .ok s.lookahead) expectIdentifier
      (fun t s => (f.next.1 = .ok t ∧ t.kind = .identifier) ∧ Blank s) Unfinished := by
  refine .get_bind fun s hs => .ite (fun hkind => ?_) fun _ o s' hs' => ?_
  · refine .bind (B := fun _ => Blank) ?_ fun _ o s' hs' => ⟨⟨hs.2.2, hkind⟩, hs'⟩
    refine .of_arrives (P := fun _ => False) arrives_advance (fun h hleads => ?_) Blank.unfinished
    exact Blank.leads (h ▸ hs.1) hleads
  · exact ⟨by simp, hs' ▸ hs.1.unfinished⟩

/-- The entry is written as soon as the program has its name. -/
theorem phase_entry (name : Text) :
    Phase (fun s => Blank s ∧ s.program = name) (put (.label ("_" ++ name))) (fun _ => Begun name)
      Unfinished := by
  refine phase_put _ (fun hs => hs.1.1) fun hs hprogram hwriting hwritten => ?_
  refine ⟨hwriting, hprogram.trans hs.2, [], by simp, ?_⟩
  rw [hwritten, hs.1.2]
  rfl

theorem phase_halt (name : Text) :
    Phase (Begun name) (put .halt) (fun _ => Halted name) Unfinished := by
  refine phase_put _ Begun.writing fun hs hprogram hwriting hwritten => ?_
  obtain ⟨body, hbody, hcode⟩ := hs.code
  refine ⟨hwriting, hprogram.trans hs.program, body, hbody, ?_⟩
  rw [hwritten, hcode]
  rfl

/-- Behind its first word a program begins with its name. -/
theorem phase_program (f : Feed) (n : Nat) :
    Phase (fun s => Blank s ∧ s.feed = f) (program n)
      (fun _ s => ∃ t, f.next.1 = .ok t ∧ t.kind = .identifier ∧ Finished t.lexeme s) Unfinished := by
  refine .bind (phase_enter _ f) fun _ => .bind (phase_at _ _) fun b => .ite (fun _ => ?_) fun _ => ?_
  · exact fun o s hs => ⟨by simp, hs.1.unfinished⟩
  refine .bind (phase_advance f) fun _ => .bind (phase_expectIdentifier f) fun t => .of_fact fun ht => ?_
  refine Phase.post (B := fun _ => Finished t.lexeme) ?_ fun _ s hs => ⟨t, ht.1, ht.2, hs⟩
  have hnamed : Phase (fun s => Blank s ∧ s.program = t.lexeme) (expect .punct .semicolon)
      (fun _ s => Blank s ∧ s.program = t.lexeme) Unfinished :=
    .of_arrives (P := fun _ => False) (arrives_expect _ _)
      (fun hs hleads => ⟨hs.1.leads hleads, hleads.program.trans hs.2⟩) fun hs => hs.1.unfinished
  have hdeclared : Phase Blank (declare t externalScope .programName noPosition) (fun _ => Blank)
      Unfinished := .of_arrives (arrives_declare t _ _ _) Blank.leads Blank.unfinished
  refine .bind hdeclared fun _ => ?_
  refine .bind (B := fun _ s => Blank s ∧ s.program = t.lexeme) (fun _ _ hs => ⟨hs, rfl⟩) fun _ => ?_
  refine .bind hnamed fun _ => .bind (phase_entry _) fun _ => ?_
  refine .bind (phase_body fun _ => composed_variableDeclList bodyTerms_reading n fun _ => True)
    fun _ => ?_
  refine .bind (phase_body fun _ => composed_procedureDeclList bodyTerms_reading n) fun _ => ?_
  refine .bind (phase_body fun _ => composed_block bodyTerms_reading n) fun _ => ?_
  have hclosed : Phase (Begun t.lexeme) (expect .punct .semicolon) (fun _ => Begun t.lexeme) Unfinished :=
    .of_arrives (arrives_expect _ _) Begun.leads Begun.unfinished
  refine .bind hclosed fun _ => ?_
  exact .bind (phase_halt _) fun _ => phase_dataLines

theorem phase_translate (f : Feed) :
    Phase (fun s => Blank s ∧ s.feed = f) translate
      (fun _ s => ∃ t, f.next.2.next.1 = .ok t ∧ t.kind = .identifier ∧ Finished t.lexeme s)
      Unfinished := by
  refine .bind (phase_advance f) fun _ => .get_bind fun s hs o s' hs' => ?_
  exact phase_program f.next.2 _ o s' (hs' ▸ ⟨hs.1, hs.2.1⟩)

end Compiler.Pass

/-- A token that is not the end of the input is an item of the feed. -/
theorem Feed.second_item {f : Feed} (hf : f.final.kind = .eof) {t : Token}
    (h : f.next.2.next.1 = .ok t) (ht : t.kind ≠ .eof) : f.items[1]? = some (.ok t) := by
  have hnot : (Except.ok f.final : Item) ≠ .ok t := by
    intro heq
    cases heq
    exact ht hf
  obtain ⟨items, final⟩ := f
  rcases items with _ | ⟨i, _ | ⟨j, is⟩⟩
  · exact absurd h hnot
  · exact absurd h hnot
  · exact congrArg some h

open Compiler.Pass

theorem Feed.final_ofSource (source : Text) : (Feed.ofSource source).final.kind = .eof := by
  have hlast := ((Cursor.ofText source).items_tiled [] rfl).2.2
  exact congrArg Token.kind hlast

theorem blank_init (f : Feed) : Blank (State.init f) := ⟨State.writing_init f, rfl⟩

/-- A call that reads a whole program writes its code to the end; one that breaks off leaves it unfinished. -/
theorem parse_framed (o : Options) (f : Feed) :
    (∃ t s, (State.init f).parse o = (none, s) ∧ f.next.2.next.1 = .ok t ∧ t.kind = .identifier ∧
      Finished t.lexeme s) ∨
    ∃ e s, (State.init f).parse o = (some e, s) ∧ (∀ t, e ≠ .extraTokens t) ∧ Unfinished s := by
  have hphase := phase_translate f o (State.init f) ⟨blank_init f, rfl⟩
  cases hrun : translate.run o (State.init f) with
  | mk r s =>
    rw [hrun] at hphase
    cases r with
    | ok _ =>
      obtain ⟨t, ht, hkind, hfinished⟩ := hphase
      have hparse := State.parse_of_ok hrun hfinished.writing.1
      rw [hfinished.writing.2.2.2] at hparse
      exact .inl ⟨t, s, hparse, ht, hkind, hfinished⟩
    | error e => exact .inr ⟨e, s, State.parse_of_error hrun, hphase⟩

/-- If a program was read to its end, the code is its entry, labels and instructions that do not halt, one halt, and a
word of data for each variable in the order of the table and for each spilled value in the order of spilling. If the
compilation broke off, there is neither a halt nor data. -/
theorem compile_framed (o : Options) (source : Text) :
    ((compile o source).outcome = .success ∨ (compile o source).outcome = .extraTokens →
      ∃ t body, (Feed.ofSource source).items[1]? = some (.ok t) ∧ t.kind = .identifier ∧
        (compile o source).code = .label ("_" ++ t.lexeme) :: (body ++ .halt ::
          ((compile o source).symbols.storage t.lexeme ++
            (finalState o source).main.listing.spills.toList).map (.data · 1)) ∧
        ∀ l ∈ body, l.inBody = true) ∧
    ((compile o source).outcome = .parseFailed ∨ (compile o source).outcome = .fatal →
      ∀ l ∈ (compile o source).code, l.inBody = true) := by
  rcases parse_framed o (Feed.ofSource source) with ⟨t, s, hparse, ht, hkind, hfinished⟩ | ⟨e, s, hparse, he, hs⟩
  · obtain ⟨body, hbody, hwritten⟩ := hfinished.code
    have hitem := Feed.second_item (Feed.final_ofSource source) ht (by rw [hkind]; decide)
    have hread : (compile o source).outcome ≠ .parseFailed ∧ (compile o source).outcome ≠ .fatal := by
      unfold Compilation.outcome compile
      rw [hparse]
      dsimp only
      split <;> simp [Outcome.ofError]
    refine ⟨fun _ => ⟨t, body, hitem, hkind, ?_, hbody⟩, fun h => (h.elim hread.1 hread.2).elim⟩
    unfold compile finalState
    rw [hparse]
    dsimp only
    rw [hwritten, State.dataNames, hfinished.program, framed, List.cons_append, List.append_assoc]
    rfl
  · have hbroken : (compile o source).outcome ≠ .success ∧ (compile o source).outcome ≠ .extraTokens := by
      unfold Compilation.outcome compile
      rw [hparse]
      cases e with
      | extraTokens t => exact absurd rfl (he t)
      | _ => simp [Outcome.ofError]
    refine ⟨fun h => (h.elim hbroken.1 hbroken.2).elim, fun _ => ?_⟩
    unfold compile
    rw [hparse]
    exact hs

/-- A program that needs more registers than there are, with a word too many behind it. -/
def crowdedSource : Text :=
  "program p; b, a: int; begin a := b * 2 - (b * 3 - (b * 4 - b * 5)); end; begin"

/-- A program that is whole, but for the character behind it. -/
def spoiledSource : Text := "program p; a: int; begin a := 1; print a; end; ?"

theorem compile_framed_crowded_spoiled :
    (compile {} crowdedSource).outcome = .extraTokens ∧
      (∃ t body, (Feed.ofSource crowdedSource).items[1]? = some (.ok t) ∧
        (compile {} crowdedSource).code = .label ("_" ++ t.lexeme) :: (body ++
          [.halt, .data "b" 1, .data "a" 1, .data "_spill0" 1, .data "_spill1" 1]) ∧
        ∀ l ∈ body, l.inBody = true) ∧
      (compile {} spoiledSource).outcome = .fatal ∧
      ∀ l ∈ (compile {} spoiledSource).code, l.inBody = true := by
  have hcrowded : (compile {} crowdedSource).outcome = .extraTokens := by decide +kernel
  have hspoiled : (compile {} spoiledSource).outcome = .fatal := by decide +kernel
  obtain ⟨t, body, hitem, -, hcode, hbody⟩ := (compile_framed {} crowdedSource).1 (.inr hcrowded)
  have hname : t.lexeme = "p" := by
    have hsecond : (Feed.ofSource crowdedSource).items[1]? = some (.ok ⟨.identifier, .none, "p", 1, 9⟩) := by
      decide +kernel
    cases hitem.symm.trans hsecond
    rfl
  have hnames : (compile {} crowdedSource).symbols.storage "p" ++
      (finalState {} crowdedSource).main.listing.spills.toList =
        (["b", "a", "_spill0", "_spill1"] : List Text) := by
    decide +kernel
  rw [hname, hnames] at hcode
  exact ⟨hcrowded, ⟨t, body, hitem, hname ▸ hcode, hbody⟩, hspoiled,
    (compile_framed {} spoiledSource).2 (.inr hspoiled)⟩

end OnePass
