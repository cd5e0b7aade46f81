import OnePass.Proofs.Compiler.Composition

namespace OnePass.Compiler

namespace Pass

/-- A call up to its last step, which asks the output. -/
def translate : Pass Unit := do
  advance
  program ((← get).feed.items.length + 1)

theorem parse_eq : parse = (do
    translate
    if (← get).current.listing.refused then throw .outputFull) := by
  simp only [parse, translate, bind_assoc]

end Pass

namespace State

variable {o : Options} {s s' : State}

theorem parse_of_error {e : CompileError} (h : Pass.translate.run o s = (.error e, s')) :
    s.parse o = (some e, s') := by
  rw [parse, Pass.parse_eq, Pass.run_bind, h]

theorem parse_of_ok (h : Pass.translate.run o s = (.ok (), s')) (hs : s'.scratch = []) :
    s.parse o = (if s'.main.listing.refused then some .outputFull else none, s') := by
  have hcurrent : s'.current = s'.main := by simp [current, hs]
  rw [parse, Pass.parse_eq, Pass.run_bind, h]
  dsimp only
  rw [Pass.run_bind, Pass.run_get]
  dsimp only
  rw [hcurrent]
  cases s'.main.listing.refused with
  | true => rfl
  | false => rfl

end State

section

open Pass Generator

variable {K : Terms} {d : Nat}

theorem composed_translate (hK : K.Whole) : K.AtEase d translate := by
  refine .after (.advance hK.takes) fun _ => ?_
  refine .get_bind fun s t hst => ?_
  rw [hst.feed.items.length_eq]
  exact composed_program hK _

theorem Likeness.State.refused {L : Likeness} {s s' : Compiler.State}
    (hL : ∀ {l m : Assembly.Listing}, L.listing l m → l.refused = m.refused) (h : L.State d s s') :
    s.current.listing.refused = s'.current.listing.refused := by
  unfold State.current
  rw [h.scratch]
  cases s'.scratch with
  | nil => exact hL h.main.listing
  | cons g gs => rfl

/-- The end of a call asks the output: listings that are alike have refused a line in both runs or in none. -/
theorem composed_parse (hK : K.Whole)
    (hL : ∀ {l m : Assembly.Listing}, K.like.listing l m → l.refused = m.refused) :
    K.AtEase d parse := by
  rw [parse_eq]
  refine .after (composed_translate hK) fun _ => ?_
  refine .get_bind fun s t hst => ?_
  rw [hst.refused hL]
  refine .ite Iff.rfl (fun _ => ?_) fun _ => .pure rfl fun _ _ hg => hg
  exact .throw .outputFull hK.outputFull

end

namespace Likeness

open Assembly Pass

variable {L : Likeness} {d : Nat}

theorem mirrors_translate : L.Mirrors d Eq translate translate :=
  (composed_translate (Terms.whole_allows L False)).mirrors id

section Calls

variable {s s' : Compiler.State}

theorem mirrors_parse (hL : ∀ {l m : Listing}, L.listing l m → l.refused = m.refused) :
    L.Mirrors d Eq parse parse :=
  (composed_parse (Terms.whole_allows L False) hL).mirrors id

theorem parse_alike (hL : ∀ {l m : Listing}, L.listing l m → l.refused = m.refused) (o : Options)
    (h : L.State d s s') :
    Option.Rel L.Error (s.parse o).1 (s'.parse o).1 ∧ L.State d (s.parse o).2 (s'.parse o).2 := by
  have hrun := mirrors_parse hL o s s' h
  unfold State.parse
  cases hs : Pass.parse.run o s with
  | mk r a =>
    cases hs' : Pass.parse.run o s' with
    | mk r' a' =>
      rw [hs, hs'] at hrun
      obtain ⟨hr, hstate⟩ := hrun
      cases hr with
      | ok _ => exact ⟨.none, hstate⟩
      | error he => exact ⟨.some he, hstate⟩

/-- Two sources whose feeds are alike compile to what two states that are alike hold. -/
theorem compile_alike (hL : ∀ {l m : Listing}, L.listing l m → l.refused = m.refused) (o : Options)
    {source source' : Text} (hfeed : L.Feed (Feed.ofSource source) (Feed.ofSource source'))
    (hlisting : L.listing {} {}) (heof : L.token { kind := .eof } { kind := .eof }) :
    Option.Rel L.Error (compile o source).error (compile o source').error ∧
      (compile o source).symbols = (compile o source').symbols ∧
      ∃ l m, L.listing l m ∧ (compile o source).code = l.written.toList ∧
        (compile o source').code = m.written.toList := by
  have hinit : L.State 0 (State.init (Feed.ofSource source)) (State.init (Feed.ofSource source')) :=
    { feed := hfeed
      delivered := rfl
      lookahead := heof
      symbols := rfl
      main := ⟨hlisting, rfl, rfl, rfl⟩
      scratch := rfl
      depth := rfl
      program := rfl
      scope := rfl
      events := .nil }
  obtain ⟨herror, hstate⟩ := parse_alike hL o hinit
  unfold compile
  generalize (State.init (Feed.ofSource source)).parse o = r at herror hstate
  generalize (State.init (Feed.ofSource source')).parse o = r' at herror hstate
  obtain ⟨e, s⟩ := r
  obtain ⟨e', s'⟩ := r'
  refine ⟨?_, hstate.symbols, s.main.listing, s'.main.listing, hstate.main.listing, rfl, rfl⟩
  cases herror with
  | some he => exact .some he
  | none =>
    have hdone : s.done = s'.done := by rw [State.done, State.done, L.kind hstate.lookahead]
    dsimp only
    rw [hdone]
    split
    · exact .none
    · exact .some (.extraTokens hstate.lookahead)

end Calls

end Likeness

end OnePass.Compiler
