import OnePass.Proofs.Compiler.DeclarationReading
import OnePass.Proofs.Compiler.Productions
import OnePass.Proofs.Source.Trees
import OnePass.Proofs.Token.Rescanning

namespace OnePass

open Source ContextFreeGrammar Source.Grammar

theorem ofSource_of_lex {source : Text} {ts : List Token} {e : Token}
    (h : lex source = .ok (ts ++ [e])) : Feed.ofSource source = ⟨ts.map .ok, e⟩ := by
  obtain ⟨us, e', hitems, heq⟩ := items_of_lex h
  obtain ⟨rfl, he⟩ := List.append_inj' heq rfl
  obtain rfl := List.singleton_inj.1 he
  rw [Feed.ofSource, hitems]

/-- The tokens of a source are scanned, and the last one is the end of input. -/
theorem scanned_of_lex {source : Text} {ts : List Token} {e : Token}
    (h : lex source = .ok (ts ++ [e])) : (∀ t ∈ ts, t.Scanned) ∧ e.kind = .eof := by
  have hsource := ofSource_of_lex h
  obtain ⟨hscanned, hfinal⟩ := (Cursor.ofText source).items_scanned
  have hitems : (Cursor.ofText source).items.1 = ts.map .ok := congrArg Feed.items hsource
  have hend : (Cursor.ofText source).items.2 = e := congrArg Feed.final hsource
  rw [hend] at hfinal
  rw [hitems] at hscanned
  exact ⟨fun t ht => hscanned t (List.mem_map_of_mem ht), hfinal⟩

namespace Compiler

open Assembly

theorem Generator.Fit.withData {g : Generator} {used : List Nat} (h : g.Fit used) (names : List Text) :
    (withData g names).Fit used := by
  induction names generalizing g with
  | nil => exact h
  | cons x xs ih => exact ih (h.put (.data x 1))

/-- Where a whole program has been read. -/
def Setting.behind (p : Program) (base : State) : Setting := ⟨p.entries, p.name, p.name, base⟩

/-- The code of a program with a word of data for each variable and each spilled value. -/
def withWords (p : Program) (g : Generator) : Generator :=
  withData g (SymbolTable.storage ⟨p.entries⟩ p.name ++ g.listing.spills.toList)

/-- The state behind the first token of a feed. -/
structure First (feed : Feed) (s : State) : Prop where
  ready : s.Ready
  input : s.input = feed.items
  delivered : s.delivered = 1
  final : s.feed.final = feed.final
  enough : s.input.length ≤ s.feed.items.length + 1
  symbols : s.symbols = {}
  main : s.main = {}
  scratch : s.scratch = []

namespace Pass

variable {trace : Bool} {c : Setting} {rest ts : List Token} {g : Generator} {s : State} {n : Nat}

theorem first_of_advance {feed : Feed} (hf : feed.final.kind = .eof)
    (hi : ∀ t, .ok t ∈ feed.items → t.Scanned) (h : advance.Gives trace (State.init feed) () s) :
    First feed s := by
  have hrun : advance.run { trace } (State.init feed) = (.ok (), s) := h
  rw [run_advance] at hrun
  cases hitems : feed.items with
  | nil =>
    have hnext : (State.init feed).feed.next = (.ok feed.final, feed) := by
      simp [State.init, Feed.next, hitems]
    rw [hnext] at hrun
    cases hrun
    refine ⟨⟨⟨hf, hi, .inl hf⟩, fun _ => rfl⟩, ?_, rfl, rfl, ?_, rfl, rfl, rfl⟩
    · simp [State.input, hf, hitems]
    · simp [State.input, hf]
  | cons i is =>
    have hnext : (State.init feed).feed.next = (i, { feed with items := is }) := by
      simp [State.init, Feed.next, hitems]
    rw [hnext] at hrun
    cases i with
    | error e => cases hrun
    | ok t =>
      cases hrun
      have ht : t.Scanned := hi t (by simp [hitems])
      have hk := ht.kind_ne_eof
      refine ⟨⟨⟨hf, fun u hu => hi u (by simp [hitems, hu]), .inr ht⟩, fun h => absurd h hk⟩, ?_, rfl,
        rfl, ?_, rfl, rfl, rfl⟩
      · simp [State.input, hk, hitems]
      · simp [State.input, hk]

theorem advance_first {e : Token} (he : e.kind = .eof) (hts : ∀ t ∈ ts, t.Scanned) :
    ∃ s, advance.Gives trace (State.init ⟨ts.map .ok, e⟩) () s ∧ First ⟨ts.map .ok, e⟩ s := by
  have hgives : ∃ s, advance.Gives trace (State.init ⟨ts.map .ok, e⟩) () s := by
    unfold Gives
    rw [run_advance]
    cases ts <;> exact ⟨_, rfl⟩
  obtain ⟨s, h⟩ := hgives
  refine ⟨s, h, first_of_advance he (fun t ht => hts t ?_) h⟩
  simpa using ht

/-- Behind the first token the grammar is recognised. -/
theorem parse_fits {feed : Feed} (h : advance.Gives trace (State.init feed) () s)
    (hs : First feed s) :
    Compiler.Fits s [sub .program] (parse.run { trace } (State.init feed)) := by
  have hprogram : Recognises (s.feed.items.length + 1) s.lookahead [sub .program] (do
      program (s.feed.items.length + 1)
      if (← get).current.listing.refused then throw .outputFull) := by
    refine Recognises.seq (recognises_program _ _) fun _ _ => ?_
    refine Quiet.of_get.seq fun _ => ?_
    split
    · exact .of_throw rfl
    · exact (Quiet.of_pure ()).recognises
  have hfits := hprogram trace s hs.ready rfl hs.enough
  have hrun : advance.run { trace } (State.init feed) = (.ok (), s) := h
  rw [parse, run_bind, hrun]
  dsimp only
  rw [run_bind, run_get]
  exact hfits

theorem put_stands {l : Line} (h : Stands c rest g s) :
    (put l).Decides trace s True
      fun _ => Stands c rest { g with listing := g.listing.put l } := by
  refine ((generate_ends h).decides ⟨(), _, Gen.gives_put.2 rfl⟩).mono fun _ s' h' => ?_
  obtain ⟨_, g', hg', h'⟩ := h'
  rwa [← Gen.gives_put.1 hg'] at h'

theorem data_stands (names : List Text) (h : Stands c rest g s) :
    (forIn names PUnit.unit fun x _ => do
      put (.data x 1)
      pure (ForInStep.yield PUnit.unit) : Pass PUnit).Decides trace s True
      fun _ => Stands c rest (withData g names) := by
  induction names generalizing g s with
  | nil => exact .of_pure trivial h
  | cons x xs ih =>
    rw [List.forIn_cons, bind_assoc]
    refine (put_stands h).after fun _ s1 h1 => ?_
    rw [pure_bind]
    exact ih h1

theorem dataLines_stands (h : Stands c rest g s) :
    dataLines.Decides trace s True fun _ =>
      Stands c rest (withData g (c.table.storage c.program ++ g.listing.spills.toList)) := by
  refine .get_bind ((data_stands _ h).after fun _ s1 h1 => ?_)
  rw [← Array.forIn_toList]
  refine (data_stands _ h1).after fun _ s2 h2 => .of_pure trivial ?_
  rw [h.symbols, h.program, h.current] at h2
  simpa [withData] using h2

/-- The name of a program opens its scope. -/
theorem openScope_stands {x : Text} (h : Stands c rest g s) :
    (modify fun s => { s with program := x, scope := x } : Pass Unit).Decides trace s True
      fun _ => Stands ⟨c.symbols, x, x, c.base⟩ rest g :=
  .of_gives (a := ()) (gives_modify.2 rfl)
    (h.moved rfl rfl h.symbols rfl rfl (h.replaces.congr rfl rfl))

/-- What follows the name of a program. -/
theorem programRest_reads {p : Program} {e : Token} {vs ps bs : List Token} {base : State}
    (hv : VarsDerive vs p.vars) (hps : ProceduresDerive ps p.procedures)
    (hb : StmtForm.block.Derives bs p.body) (he : e.is .punct .semicolon = true)
    (hn : vs.length + ps.length + bs.length ≤ n)
    (h : Stands ⟨[⟨p.name, externalScope, noPosition, .programName⟩], p.name, p.name, base⟩
      (vs ++ (ps ++ (bs ++ [e]))) g s) :
    (do
      variableDeclList n
      procedureDeclList n
      block n
      expect .punct .semicolon
      put .halt
      dataLines).Lowers trace s p.Fits (p.body.lower >>= fun _ => Gen.put .halt) g
      fun _ _ g' => Stands (.behind p base) [] (withWords p g') := by
  have hone : Distinct [⟨p.name, externalScope, noPosition, .programName⟩] := List.nodup_singleton _
  have hname : Known [⟨p.name, externalScope, noPosition, .programName⟩] := by simp [Known]
  have hbehind : Setting.behind p base = Setting.extend
      (Setting.extend ⟨[⟨p.name, externalScope, noPosition, .programName⟩], p.name, p.name, base⟩
        (p.vars.flatMap (Group.entries p.name))) (p.procedures.flatMap (Procedure.entries p.name)) := by
    simp [Setting.behind, Setting.extend, Program.entries]
  rw [Program.fits_iff]
  refine .beside (variableDeclList_reads hv (by omega) (hps.ahead hb.starts_block) hone hname h)
    (fun hD => hD.1.1.sublist (List.sublist_append_left _ _)) fun _ s1 hvars h1 => ?_
  refine .beside (procedureDeclList_reads hps (by omega) hb.starts_block rfl hvars
    (hname.append hv.introduces.known) h1) (fun hD => hD.1) fun _ s2 hprocedures h2 => ?_
  have h2 : Stands (.behind p base) (bs ++ [e]) g s2 := by
    rw [hbehind]
    exact h2
  refine (block_reads hb (by omega) h2).bind (fun hD => hD.2) fun _ _ g3 s3 hmain h3 => ?_
  refine .after (expect_stands h3 he) fun _ s4 h4 => ?_
  refine (generate_ends h4).last (fun _ => trivial) fun _ _ g5 s5 _ h5 => ?_
  exact .of_decides (.of_true (dataLines_stands h5) ⟨hprocedures, hmain⟩)

theorem program_reads {p : Program} (hp : ProgramDerives ts p) (hn : ts.length ≤ n)
    (hc : c.symbols = []) (h : Stands c ts g s) :
    (program n).Lowers trace s p.Fits p.lower g
      fun _ _ g' => Stands (.behind p c.base) [] (withWords p g') := by
  cases hp with
  | @mk t _ u e vs ps bs vars procedures body ht hx hu hv hps hb he =>
    simp only [List.length_cons, List.length_append, List.length_nil] at hn
    rw [Program.lower]
    refine .after (enter_faces .program h) fun _ s1 h1 => .at_bind (.ite_neg ?_ ?_)
    · rw [h1.is_eq, ht]
      decide
    refine .after (advance_stands h1) fun _ s2 h2 => .after (expectIdentifier_stands h2 hx) ?_
    rintro x s3 ⟨rfl, h3⟩
    have hnone : Distinct c.symbols := by
      rw [hc]
      exact List.nodup_nil
    have hone : Distinct (c.symbols ++ [⟨x.lexeme, externalScope, noPosition, .programName⟩]) := by
      rw [hc]
      exact List.nodup_singleton _
    refine .beside (declare_reads hnone h3) (fun _ => hone) fun _ s4 _ h4 => ?_
    refine .after (openScope_stands h4) fun _ s5 h5 => .after (expect_stands h5 hu) fun _ s6 h6 => ?_
    refine .generate_bind h6 fun _ g7 s7 h7 => ?_
    rw [Setting.extend, hc] at h7
    exact programRest_reads (p := ⟨x.lexeme, vars, procedures, body⟩) hv hps hb he (by omega) h7

/-- The state after a program whose tokens are `ts`; `g` is its code without the data. -/
structure HasRead (s : State) (ts : List Token) (p : Program) (g : Generator) : Prop where
  derives : ProgramDerives ts p
  symbols : s.symbols = ⟨p.entries⟩
  valid : s.symbols.Valid
  procedures : ProceduresTyped p.name
    ({ id := p.name, scope := externalScope, type := .programName } ::
      p.vars.flatMap (Group.entries p.name)) p.procedures
  typed : p.body.Typed s.symbols p.name p.name
  lower : p.lower.Gives {} () g
  main : s.main = withData g (s.symbols.storage p.name ++ g.listing.spills.toList)
  program : s.program = p.name

theorem hasRead_of_stands {p : Program} {base : State} (hp : ProgramDerives ts p)
    (hts : ∀ t ∈ ts, t.Scanned) (hfits : p.Fits) (hlower : p.lower.Gives {} () g)
    (hbase : base.scratch = []) (h : Stands (.behind p base) [] (withWords p g) s) :
    HasRead s ts p g := by
  have hsymbols : s.symbols = ⟨p.entries⟩ := h.symbols
  refine ⟨hp, hsymbols, ⟨?_, ?_⟩, ?_, ?_, hlower, ?_, h.program⟩
  · rw [hsymbols]
    exact hfits.distinct
  · rw [hsymbols]
    intro x hx
    obtain ⟨t, ht, hk, hid⟩ := hp.introduces.named x hx
    rw [← hid]
    exact (hts t ht).isIdentifier hk
  · have hbodies := hfits.procedures.typed
    simpa [Program.visible, Program.entries] using hbodies
  · rw [hsymbols]
    exact hfits.main.typed
  · rw [hsymbols]
    cases h.replaces with
    | main _ hm _ => exact hm
    | scratch hs _ _ =>
      rw [Setting.behind, hbase] at hs
      cases hs

variable {source : Text} {e : Token} {p : Program}

/-- A source is compiled exactly if its program fits. -/
theorem parse_reads (hlex : lex source = .ok (ts ++ [e])) (hp : ProgramDerives ts p) :
    parse.Decides trace (State.init (Feed.ofSource source)) p.Fits
      fun _ s' => s'.done = true ∧ ∃ g, HasRead s' ts p g := by
  obtain ⟨hts, hfinal⟩ := scanned_of_lex hlex
  rw [ofSource_of_lex hlex]
  obtain ⟨s, hrun, hs⟩ := advance_first hfinal hts
  -- behind the first token nothing is declared and no code has been generated
  have hcurrent : s.current = {} := by simp [State.current, hs.scratch, hs.main]
  have hfirst : Stands ⟨[], s.program, s.scope, s⟩ ts {} s := by
    refine ⟨hs.ready.toFed, hs.input, hs.symbols, rfl, rfl, ?_⟩
    rw [← hcurrent]
    exact .of_eq rfl rfl
  have hn : ts.length ≤ s.feed.items.length + 1 := by
    have henough := hs.enough
    rw [hs.input] at henough
    simpa using henough
  obtain ⟨-, _, g, hlower, hfit⟩ := p.lower_works
  refine .next hrun (.get_bind ?_)
  refine ((program_reads hp hn rfl hfirst).decides ⟨_, g, hlower⟩).bind (fun hD => hD)
    fun _ s1 hD h1 => .get_bind ?_
  obtain ⟨_, g', hlower', h1⟩ := h1
  obtain ⟨-, rfl⟩ := hlower.unique hlower'
  refine .ite_neg ?_ (.of_pure hD ⟨?_, g, hasRead_of_stands hp hts hD hlower hs.scratch h1⟩)
  · rw [h1.current, withWords, (hfit.withData _).accepting.2.2]
    decide
  · simp [State.done, h1.kind_eof]

end Pass

/-- A source is compiled only if its tokens derive as a program. -/
theorem parse_sound {source : Text} {trace : Bool} {s : State}
    (h : (State.init (Feed.ofSource source)).parse { trace } = (none, s)) (hdone : s.done = true) :
    ∃ ts p g e, lex source = .ok (ts ++ [e]) ∧ Pass.HasRead s ts p g := by
  have hgives : Pass.parse.Gives trace (State.init (Feed.ofSource source)) () s := by
    unfold State.parse at h
    split at h
    · rename_i heq
      cases h
      exact heq
    · cases h
  obtain ⟨hscanned, hfinal⟩ := (Cursor.ofText source).items_scanned
  obtain ⟨_, s1, h1, -⟩ := Pass.gives_bind.1 hgives
  have hfirst := Pass.first_of_advance hfinal hscanned h1
  have hfits := Pass.parse_fits h1 hfirst
  have hrun : Pass.parse.run { trace } (State.init (Feed.ofSource source)) = (.ok (), s) := hgives
  rw [hrun] at hfits
  -- all tokens have been read, and they are a sentence
  obtain ⟨ts, hread, hscans⟩ := hfits
  have hend : s.input = [] := by
    have hk : s.lookahead.kind = .eof := by simpa [State.done] using hdone
    simp [State.input, hk]
  have hitems : (Cursor.ofText source).items.1 = ts.map .ok := by
    have hin := hread.input
    rw [hfirst.input, hend, List.append_nil] at hin
    exact hin
  have hlex : lex source = .ok (ts ++ [(Cursor.ofText source).items.2]) :=
    lex_of_items (Prod.ext hitems rfl)
  obtain ⟨p, hp⟩ := exists_program (mem_language_iff.2 hscans.yields)
  have hdecides := @Pass.parse_reads trace ts source _ p hlex hp
  obtain ⟨_, s', hs', -, g, hs⟩ := hdecides.gives (hdecides.holds _ _ hgives)
  obtain ⟨-, rfl⟩ := hs'.unique hgives
  exact ⟨ts, p, g, _, hlex, hs⟩

end Compiler

end OnePass
