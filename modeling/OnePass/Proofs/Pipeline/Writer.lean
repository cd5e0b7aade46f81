import OnePass.Proofs.Compiler.TwoCalls

namespace OnePass.Assembly.Listing

/-- The same lines before an output with room for `k`. -/
def limit (k : Nat) (l : Listing) : Listing :=
  { l with
    written := l.written.take k
    room := some (k - l.written.size)
    refused := decide (k < l.written.size) }

/-- The same lines before an output that keeps none. -/
def discard (l : Listing) : Listing := { l with written := #[], keeps := false }

/-- Another view of a listing, which goes through the same steps and hands out the same names. -/
structure Transparent (f : Listing → Listing) : Prop where
  put (l : Listing) (line : Line) : l.Accepting → (f l).put line = f (l.put line)
  newLabel (l : Listing) (stem : Text) :
    (f l).newLabel stem = ((l.newLabel stem).1, f (l.newLabel stem).2)
  newSpill (l : Listing) : (f l).newSpill = (l.newSpill.1, f l.newSpill.2)
  spills (l : Listing) : (f l).spills = l.spills

theorem Accepting.put {l : Listing} (h : l.Accepting) (line : Line) : (l.put line).Accepting := by
  rw [put_eq h]
  exact h

theorem put_limit {l : Listing} (k : Nat) (h : l.Accepting) (line : Line) :
    (l.limit k).put line = (l.put line).limit k := by
  rw [put_eq h]
  rcases Nat.lt_trichotomy k l.written.size with hlt | heq | hgt
  · -- a line was refused before
    have htake : (l.written.push line).take k = l.written.take k := by
      apply Array.toList_inj.1
      simp [List.take_append_of_le_length (Nat.le_of_lt hlt)]
    have hroom : k - (l.written.size + 1) = k - l.written.size := by omega
    have hnext : k < l.written.size + 1 := by omega
    simp [Listing.put, limit, hlt, htake, hroom, hnext]
  · -- this line is the first that is refused
    simp [Listing.put, limit, heq]
  · have htake : (l.written.push line).take k = (l.written.take k).push line := by
      apply Array.toList_inj.1
      simp [List.take_of_length_le, Nat.le_of_lt hgt, Nat.succ_le_of_lt hgt]
    obtain ⟨n, hn⟩ : ∃ n, k - l.written.size = n + 1 := ⟨k - l.written.size - 1, by omega⟩
    have hroom : k - (l.written.size + 1) = n := by omega
    have hrefused : ¬k < l.written.size := by omega
    have hnext : ¬k < l.written.size + 1 := by omega
    simp [Listing.put, keep, limit, h.1, htake, hn, hroom, hrefused, hnext]

theorem transparent_limit (k : Nat) : Transparent (limit k) where
  put _ line h := put_limit k h line
  newLabel _ _ := rfl
  newSpill _ := rfl
  spills _ := rfl

theorem transparent_discard : Transparent discard where
  put l line h := by
    rw [put_eq h]
    simp [Listing.put, keep, discard, h.2.1, h.2.2]
  newLabel _ _ := rfl
  newSpill _ := rfl
  spills _ := rfl

end OnePass.Assembly.Listing

namespace OnePass.Compiler

open Assembly

variable {f : Listing → Listing}

/-- The same translation before another output. -/
def State.through (f : Listing → Listing) (s : State) : State :=
  { s with main := { s.main with listing := f s.main.listing } }

/-- No part is being suppressed, and the output takes every line. -/
def State.Writing (s : State) : Prop := s.scratch = [] ∧ s.main.listing.Accepting

namespace Likeness

/-- The tokens are the same, and the second run sees the listing of the first through `f`. -/
def through (hf : Listing.Transparent f) : Likeness where
  token := Eq
  lexical := Eq
  listing l m := l.Accepting ∧ m = f l
  kind h := congrArg Token.kind h
  attr h := congrArg Token.attr h
  lexeme h := congrArg Token.lexeme h
  put line h := ⟨h.1.put line, by rw [h.2, hf.put _ line h.1]⟩
  newLabel stem h := by
    rw [h.2, hf.newLabel]
    exact ⟨rfl, h.1, rfl⟩
  newSpill h := by
    rw [h.2, hf.newSpill]
    exact ⟨rfl, h.1, rfl⟩
  spills h := by rw [h.2, hf.spills]

variable {hf : Listing.Transparent f} {s t : Compiler.State}

theorem item_iff {i j : OnePass.Item} : (through hf).Item i j ↔ i = j := by
  constructor
  · intro h
    cases h with
    | ok h => exact congrArg _ h
    | error h => exact congrArg _ h
  · intro h
    subst h
    cases i with
    | ok t => exact .ok rfl
    | error e => exact .error rfl

theorem event_iff {e e' : Compiler.Event} : (through hf).Event e e' ↔ e = e' := by
  constructor
  · intro h
    cases h with
    | enter h => exact congrArg _ h
    | install => rfl
    | patch => rfl
  · intro h
    subst h
    cases e with
    | enter p t => exact .enter rfl
    | install s => exact .install
    | patch type n => exact .patch

theorem error_eq {e e' : CompileError} (h : (through hf).Error e e') : e = e' := by
  cases h with
  | lexical h => exact congrArg _ h
  | unexpected h => exact congrArg _ h
  | extraTokens h => exact congrArg _ h
  | semantic h => exact congrArg _ h
  | internal => rfl
  | outputFull => rfl

theorem feed_iff {a b : OnePass.Feed} : (through hf).Feed a b ↔ a = b := by
  obtain ⟨is, t⟩ := a
  obtain ⟨js, u⟩ := b
  have hitem : (through hf).Item = Eq := by
    funext i j
    exact propext item_iff
  rw [OnePass.Feed.mk.injEq, ← List.forall₂_eq_eq_eq, ← hitem]
  exact ⟨fun h => ⟨h.items, h.final⟩, fun h => ⟨h.1, h.2⟩⟩

theorem events_iff {es es' : Array Compiler.Event} :
    List.Forall₂ (through hf).Event es.toList es'.toList ↔ es = es' := by
  have hevent : (through hf).Event = Eq := by
    funext e e'
    exact propext event_iff
  rw [hevent, List.forall₂_eq_eq_eq, Array.toList_inj]

/-- Seen through `f`, and in no other way, a state outside of suppressed parts is alike. -/
theorem state_iff : (through hf).State 0 s t ↔ s.Writing ∧ t = s.through f := by
  constructor
  · intro h
    obtain ⟨hfeed, hdelivered, hlookahead, hsymbols, hmain, hscratch, hdepth, hprogram, hscope,
      hevents⟩ := h
    obtain ⟨⟨haccepting, hlisting⟩, hpool, hoperands, hlive⟩ := hmain
    have hnone := List.eq_nil_of_length_eq_zero hdepth
    have hfeed := feed_iff.1 hfeed
    have hlookahead : s.lookahead = t.lookahead := hlookahead
    have hevents := events_iff.1 hevents
    apply And.intro ⟨hnone, haccepting⟩
    obtain ⟨_, _, _, _, ⟨_, _, _, _⟩, _, _, _, _⟩ := t
    simp only [State.through, State.mk.injEq, Generator.mk.injEq]
    exact ⟨hfeed.symm, hdelivered.symm, hlookahead.symm, hsymbols.symm,
      ⟨hlisting, hpool.symm, hoperands.symm, hlive.symm⟩, hscratch.symm, hprogram.symm, hscope.symm,
      hevents.symm⟩
  · intro h
    obtain ⟨⟨hnone, haccepting⟩, rfl⟩ := h
    exact
      { feed := feed_iff.2 rfl
        delivered := rfl
        lookahead := rfl
        symbols := rfl
        main := ⟨⟨haccepting, rfl⟩, rfl, rfl, rfl⟩
        scratch := rfl
        depth := by rw [hnone]; rfl
        program := rfl
        scope := rfl
        events := events_iff.2 rfl }

end Likeness

namespace State

variable {s : State}

/-- A call before another output makes the same translation. It may end with a complaint of the output
instead of none. -/
theorem parse_through (hf : Listing.Transparent f) (o : Options) (h : s.Writing) :
    (s.parse o).2.Writing ∧ (s.through f).parse o =
      ((s.parse o).1.or (if (f (s.parse o).2.main.listing).refused then some .outputFull else none),
        (s.parse o).2.through f) := by
  have hstart : (Likeness.through hf).State 0 s (s.through f) := Likeness.state_iff.2 ⟨h, rfl⟩
  have hrun := Likeness.mirrors_translate o s (s.through f) hstart
  cases hs : Pass.translate.run o s with
  | mk r s' =>
    cases ht : Pass.translate.run o (s.through f) with
    | mk r' t' =>
      rw [hs, ht] at hrun
      dsimp only at hrun
      obtain ⟨hr, hstate⟩ := hrun
      obtain ⟨hwriting, hthrough⟩ := Likeness.state_iff.1 hstate
      have hscratch : t'.scratch = [] := by
        rw [hthrough]
        exact hwriting.1
      cases hr with
      | error he =>
        rw [parse_of_error hs, parse_of_error ht, Likeness.error_eq he, hthrough]
        exact ⟨hwriting, rfl⟩
      | ok _ =>
        rw [parse_of_ok hs hwriting.1, parse_of_ok ht hscratch, hwriting.2.2.2, hthrough]
        exact ⟨hwriting, rfl⟩

/-- A translator on which `n` calls were made. -/
def afterCalls (o : Options) (s : State) : Nat → State
  | 0 => s
  | n + 1 => ((s.afterCalls o n).parse o).2

/-- What the call after `n` calls returns. -/
def callError (o : Options) (s : State) (n : Nat) : Option CompileError :=
  ((s.afterCalls o n).parse o).1

theorem afterCalls_through (hf : Listing.Transparent f) (o : Options) (h : s.Writing) (n : Nat) :
    (s.afterCalls o n).Writing ∧
      (s.through f).afterCalls o n = (s.afterCalls o n).through f := by
  induction n with
  | zero => exact ⟨h, rfl⟩
  | succ n ih =>
    obtain ⟨hwriting, hcalls⟩ := ih
    obtain ⟨hnext, hcall⟩ := parse_through hf o hwriting
    unfold afterCalls
    rw [hcalls, hcall]
    exact ⟨hnext, rfl⟩

theorem callError_through (hf : Listing.Transparent f) (o : Options) (h : s.Writing) (n : Nat) :
    (s.through f).callError o n = (s.callError o n).or
      (if (f (s.afterCalls o (n + 1)).main.listing).refused then some .outputFull else none) := by
  obtain ⟨hwriting, hcalls⟩ := afterCalls_through hf o h n
  obtain ⟨-, hcall⟩ := parse_through hf o hwriting
  unfold callError
  rw [hcalls, hcall]
  rfl

theorem writing_init (feed : Feed) : (init feed).Writing := ⟨rfl, rfl, rfl, rfl⟩

/-- Two translators that have read the same and know the same. Their outputs need not have the same
lines. -/
structure SameTranslation (s t : State) : Prop where
  feed : s.feed = t.feed
  delivered : s.delivered = t.delivered
  lookahead : s.lookahead = t.lookahead
  symbols : s.symbols = t.symbols
  pool : s.main.pool = t.main.pool
  spills : s.main.listing.spills = t.main.listing.spills
  events : s.events = t.events

theorem sameTranslation_through (hf : Listing.Transparent f) (s : State) :
    s.SameTranslation (s.through f) where
  feed := rfl
  delivered := rfl
  lookahead := rfl
  symbols := rfl
  pool := rfl
  spills := (hf.spills _).symm
  events := rfl

theorem init_limit (feed : Feed) (k : Nat) :
    init feed { room := some k } = (init feed).through (Listing.limit k) := by
  simp [init, through, Listing.limit]

theorem init_discard (feed : Feed) :
    init feed { keeps := false } = (init feed).through Listing.discard := rfl

/-- An output that keeps nothing refuses nothing either. -/
theorem Writing.refused_discard (h : s.Writing) : s.main.listing.discard.refused = false := h.2.2.2

end State

end OnePass.Compiler

namespace OnePass

open Compiler Compiler.State Assembly

/-- Checking a source is compiling it without the code. -/
theorem check_eq (o : Options) (source : Text) :
    check o source = { compile o source with code := [] } := by
  have hwriting := writing_init (Feed.ofSource source)
  obtain ⟨hnext, hcall⟩ := parse_through Listing.transparent_discard o hwriting
  rw [hnext.refused_discard, if_neg Bool.false_ne_true, Option.or_none] at hcall
  unfold check compile
  rw [init_discard, hcall]
  rfl

/-- However many calls are made on a translator, and wherever its output begins to refuse lines, the
translation is that before an output that takes every line, or that throws every line away. What was
written is cut off after `k` lines; a call returns its own error, and else complains if a line was refused
by its end. So checking a source finds what compiling it finds. -/
theorem parse_ignores_output (o : Options) (feed : Feed) (k n : Nat) :
    ((init feed).afterCalls o n).SameTranslation ((init feed { room := some k }).afterCalls o n) ∧
    ((init feed).afterCalls o n).SameTranslation ((init feed { keeps := false }).afterCalls o n) ∧
    ((init feed { room := some k }).afterCalls o n).main.listing.text =
      render (((init feed).afterCalls o n).main.listing.written.toList.take k) ∧
    (init feed { room := some k }).callError o n = ((init feed).callError o n).or
      (if k < ((init feed).afterCalls o (n + 1)).main.listing.written.size
        then some .outputFull else none) ∧
    (init feed { keeps := false }).callError o n = (init feed).callError o n ∧
    ∀ source, (check o source).outcome = (compile o source).outcome ∧
      (check o source).error = (compile o source).error ∧
      (check o source).symbols = (compile o source).symbols := by
  have hwriting := writing_init feed
  have hlimited := (afterCalls_through (Listing.transparent_limit k) o hwriting n).2
  have hdiscarded := (afterCalls_through Listing.transparent_discard o hwriting n).2
  have hlimitedError := callError_through (Listing.transparent_limit k) o hwriting n
  have hdiscardedError := callError_through Listing.transparent_discard o hwriting n
  have hnext := (afterCalls_through Listing.transparent_discard o hwriting (n + 1)).1
  rw [init_limit, init_discard, hlimited, hdiscarded, hlimitedError, hdiscardedError]
  refine ⟨sameTranslation_through (Listing.transparent_limit k) _,
    sameTranslation_through Listing.transparent_discard _, ?_, ?_, ?_, ?_⟩
  · simp [State.through, Listing.limit, Listing.text]
  · simp only [Listing.limit, decide_eq_true_eq]
  · rw [hnext.refused_discard, if_neg Bool.false_ne_true, Option.or_none]
  · intro source
    rw [check_eq]
    exact ⟨rfl, rfl, rfl⟩

end OnePass
