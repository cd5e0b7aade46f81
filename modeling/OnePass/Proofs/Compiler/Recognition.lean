import OnePass.Proofs.Compiler.Input
import OnePass.Proofs.Source.Grammar

namespace OnePass

open Source ContextFreeGrammar Source.Grammar

/-- What a token shows to a parser; the end of input shows nothing. -/
def Token.ahead (t : Token) : Option Terminal :=
  if t.kind = .eof then none else some t.terminal

/-- A token of a source, or its end of input. -/
def Token.Plausible (t : Token) : Prop := t.kind = .eof ∨ t.Scanned

namespace Token

variable {t : Token} {k : Kind} {a : Attr}

theorem ahead_identifier : t.ahead = some .identifier ↔ t.kind = .identifier := by
  unfold ahead terminal
  cases t.kind <;> simp

theorem ahead_number : t.ahead = some .number ↔ t.kind = .number := by
  unfold ahead terminal
  cases t.kind <;> simp

theorem ahead_word : t.ahead = some (.word k a) ↔
    t.is k a = true ∧ k ≠ .eof ∧ k ≠ .identifier ∧ k ≠ .number := by
  rw [Compiler.Token.is_iff]
  unfold ahead terminal
  cases hk : t.kind <;> simp <;> grind

end Token

/-- The error has nothing to do with the grammar. -/
def CompileError.foreign : CompileError → Bool
  | .unexpected _ _ | .extraTokens _ => false
  | _ => true

/-- Found without a look at the input: a rule is broken, or no register is left. -/
def CompileError.Blind (e : CompileError) : Prop :=
  (∃ c t, e = .semantic c t) ∨ ∃ x, e = .internal (.register x)

theorem CompileError.Blind.foreign {e : CompileError} (h : e.Blind) : e.foreign = true := by
  rcases h with ⟨c, t, rfl⟩ | ⟨x, rfl⟩ <;> rfl

namespace Compiler

namespace State

/-- The feed ends with the end of input, and the lookahead is a token of it. -/
structure Ready (s : State) : Prop extends s.Fed where
  atEnd : s.lookahead.kind = .eof → s.lookahead = s.feed.final

theorem Ready.plausible {s : State} (h : s.Ready) : s.lookahead.Plausible := h.lookahead

theorem ahead_eq_head? (s : State) :
    s.lookahead.ahead = s.input.head?.bind fun i => i.toOption.map Token.terminal := by
  unfold Token.ahead input
  split <;> rfl

theorem kind_eof_of_input {s : State} (h : s.input.length ≤ 0) : s.lookahead.kind = .eof := by
  unfold input at h
  split at h
  · assumption
  · simp at h

end State

/-- From `s` to `s'` exactly the tokens `us` are taken. -/
structure Reads (s : State) (us : List Token) (s' : State) : Prop where
  input : s.input = us.map .ok ++ s'.input
  delivered : s'.delivered = s.delivered + us.length
  final : s'.feed.final = s.feed.final
  ready : s'.Ready

/-- Nothing is taken between `s` and `s'`. -/
structure Still (s s' : State) : Prop where
  feed : s'.feed = s.feed
  lookahead : s'.lookahead = s.lookahead
  delivered : s'.delivered = s.delivered

namespace Reads

variable {s s' s'' : State} {us vs : List Token}

theorem trans (h : Reads s us s') (k : Reads s' vs s'') : Reads s (us ++ vs) s'' where
  input := by rw [h.input, k.input, List.map_append, List.append_assoc]
  delivered := by rw [k.delivered, h.delivered, List.length_append, Nat.add_assoc]
  final := k.final.trans h.final
  ready := k.ready

theorem ahead (h : Reads s us s') :
    s.lookahead.ahead = (us.map Token.terminal).head?.or s'.lookahead.ahead := by
  rw [s.ahead_eq_head?, s'.ahead_eq_head?, h.input]
  cases us <;> rfl

theorem length_le {n : Nat} (h : Reads s us s') (hn : s.input.length ≤ n) :
    s'.input.length ≤ n := by
  have hlen := congrArg List.length h.input
  simp only [List.length_append] at hlen
  omega

end Reads

namespace Still

variable {s s' s'' : State}

theorem refl (s : State) : Still s s := ⟨rfl, rfl, rfl⟩

theorem trans (h : Still s s') (k : Still s' s'') : Still s s'' :=
  ⟨k.feed.trans h.feed, k.lookahead.trans h.lookahead, k.delivered.trans h.delivered⟩

theorem input (h : Still s s') : s'.input = s.input := by
  simp only [State.input, h.feed, h.lookahead]

theorem ready (h : Still s s') (hs : s.Ready) : s'.Ready := by
  obtain ⟨⟨hfinal, hitems, hlook⟩, hend⟩ := hs
  rw [← h.feed] at hfinal hitems
  rw [← h.lookahead] at hlook
  rw [← h.lookahead, ← h.feed] at hend
  exact ⟨⟨hfinal, hitems, hlook⟩, hend⟩

theorem reads (h : Still s s') (hs : s.Ready) : Reads s [] s' :=
  ⟨h.input.symm, h.delivered, congrArg Feed.final h.feed, h.ready hs⟩

end Still

/-- How a run that works for a form may end: the form is read, or the next token does not fit into it,
or an error is found that has nothing to do with the grammar. -/
def Fits {α : Type} (s : State) (form : List (Part Terminal Nonterminal))
    (r : Except CompileError α × State) : Prop :=
  match r.1 with
  | .ok _ => ∃ us, Reads s us r.2 ∧ Scans table form (us.map Token.terminal) r.2.lookahead.ahead
  | .error e =>
    e.foreign = true ∨ (∃ x, e = .unexpected x r.2.lookahead) ∧
      ∃ us, Reads s us r.2 ∧ Sticks table form (us.map Token.terminal) r.2.lookahead.ahead

namespace Fits

variable {α β : Type} {s s' : State} {form rest : List (Part Terminal Nonterminal)}
  {us : List Token} {r : Except CompileError α × State}

theorem after (h : Reads s us s')
    (hscans : Scans table form (us.map Token.terminal) s'.lookahead.ahead) (hr : Fits s' rest r) :
    Fits s (form ++ rest) r := by
  obtain ⟨r, s''⟩ := r
  cases r with
  | ok a =>
    obtain ⟨vs, hread, hrest⟩ := hr
    rw [hread.ahead] at hscans
    refine ⟨us ++ vs, h.trans hread, ?_⟩
    rw [List.map_append]
    exact hscans.append hrest
  | error e =>
    refine hr.imp_right fun ⟨hx, vs, hread, hrest⟩ => ?_
    rw [hread.ahead] at hscans
    refine ⟨hx, us ++ vs, h.trans hread, ?_⟩
    rw [List.map_append]
    exact hscans.sticks hrest

theorem error_append {e : CompileError}
    (h : Fits s form ((.error e, s') : Except CompileError α × State)) :
    Fits s (form ++ rest) ((.error e, s') : Except CompileError β × State) :=
  h.imp_right fun ⟨hx, us, hread, hsticks⟩ => ⟨hx, us, hread, hsticks.append_right rest⟩

/-- Opening a nonterminal takes nothing. -/
theorem expand {n : Nonterminal} (hc : choose table n s.lookahead.ahead = some form)
    (h : Fits s (form ++ rest) r) : Fits s (.nonterminal n :: rest) r := by
  obtain ⟨r, s'⟩ := r
  cases r with
  | ok a =>
    obtain ⟨us, hread, hscans⟩ := h
    rw [hread.ahead] at hc
    exact ⟨us, hread, .expand hc hscans⟩
  | error e =>
    refine h.imp_right fun ⟨hx, us, hread, hsticks⟩ => ?_
    rw [hread.ahead] at hc
    exact ⟨hx, us, hread, .expand hc hsticks⟩

/-- The next token is the one that the form does not allow. -/
theorem stuck {x : Expectation} (hs : s.Ready) (h : Sticks table form [] s.lookahead.ahead) :
    Fits s form ((.error (.unexpected x s.lookahead), s) : Except CompileError α × State) :=
  .inr ⟨⟨x, rfl⟩, [], (Still.refl s).reads hs, h⟩

end Fits

namespace Pass

/-- From this state the step takes nothing. -/
structure QuietAt {α : Type} (o : Options) (s : State) (p : Pass α) : Prop where
  still : Still s (p.run o s).2
  blind : ∀ e, (p.run o s).1 = .error e → e.Blind

def Quiet {α : Type} (p : Pass α) : Prop := ∀ o s, QuietAt o s p

/-- With at most `n` tokens left and `t` as the lookahead, the production works for the form. -/
def Recognises {α : Type} (n : Nat) (t : Token) (form : List (Part Terminal Nonterminal))
    (p : Pass α) : Prop :=
  ∀ trace s, s.Ready → s.lookahead = t → s.input.length ≤ n → Fits s form (p.run { trace } s)

variable {α β : Type} {n m : Nat} {t : Token} {form rest : List (Part Terminal Nonterminal)}

theorem run_get (o : Options) (s : State) : (get : Pass State).run o s = (.ok s, s) := rfl

theorem run_read (o : Options) (s : State) : (read : Pass Options).run o s = (.ok o, s) := rfl

theorem run_set (o : Options) (s s' : State) : (set s' : Pass Unit).run o s = (.ok (), s') := rfl

theorem run_generate (g : Gen α) (o : Options) (s : State) :
    (generate g).run o s =
      match g.run.run s.current with
      | (.ok a, g') => (.ok a, s.setCurrent g')
      | (.error e, g') => (.error (.internal (.register e)), s.setCurrent g') := by
  simp only [generate, run_bind, run_get, run_set]
  cases g.run.run s.current with
  | mk r g' => cases r <;> rfl

theorem unexpected_bind {e : Expectation} {f : α → Pass β} :
    (unexpected e >>= f) = unexpected e := rfl

theorem fail_bind {c : SemanticCause} {t : Token} {f : α → Pass β} :
    (fail c t >>= f) = fail c t := rfl

theorem at_bind {k : Kind} {a : Attr} {f : Bool → Pass β} :
    (at? k a >>= f) = lookahead >>= fun t => f (t.is k a) := rfl

theorem QuietAt.bind {p : Pass α} {f : α → Pass β} {o : Options} {s : State} (hp : QuietAt o s p)
    (hf : ∀ a s', p.run o s = (.ok a, s') → QuietAt o s' (f a)) : QuietAt o s (p >>= f) := by
  obtain ⟨hstill, hblind⟩ := hp
  cases hrun : p.run o s with
  | mk r s' =>
    rw [hrun] at hstill hblind
    cases r with
    | ok a =>
      obtain ⟨hstill', hblind'⟩ := hf a s' hrun
      exact ⟨by rw [run_bind, hrun]; exact hstill.trans hstill', by rw [run_bind, hrun]; exact hblind'⟩
    | error e =>
      refine ⟨by rw [run_bind, hrun]; exact hstill, fun e' he => ?_⟩
      rw [run_bind, hrun] at he
      cases he
      exact hblind e rfl

namespace Quiet

theorem bind {p : Pass α} {f : α → Pass β} (hp : Quiet p) (hf : ∀ a, Quiet (f a)) :
    Quiet (p >>= f) := fun o s => (hp o s).bind fun a s' _ => hf a o s'

theorem of_pure (a : α) : Quiet (pure a : Pass α) := fun _ s => ⟨.refl s, fun _ he => nomatch he⟩

theorem of_get : Quiet (get : Pass State) := fun _ s => ⟨.refl s, fun _ he => nomatch he⟩

theorem of_modify {f : State → State} (h : ∀ s, Still s (f s)) : Quiet (modify f : Pass Unit) :=
  fun _ s => ⟨h s, fun _ he => nomatch he⟩

theorem of_throw {e : CompileError} (h : e.Blind) : Quiet (throw e : Pass α) := by
  intro o s
  refine ⟨.refl s, fun e' he => ?_⟩
  cases he
  exact h

theorem of_fail (c : SemanticCause) (t : Token) : Quiet (fail c t : Pass α) :=
  of_throw (.inl ⟨c, t, rfl⟩)

theorem of_enter (p : Production) : Quiet (enter p) := by
  have hread : Quiet (read : Pass Options) := fun _ s => ⟨.refl s, fun _ he => nomatch he⟩
  refine hread.bind fun o => ?_
  split
  · exact of_modify fun s => ⟨rfl, rfl, rfl⟩
  · exact of_pure ()

theorem of_declare {t : Token} {scope : Text} {type : ExprType} {position : Int} :
    Quiet (declare t scope type position) := by
  intro o s
  refine (of_get o s).bind fun s₁ s₂ hget => ?_
  cases hget
  split
  · exact of_fail _ _ o s
  · exact ⟨⟨rfl, rfl, rfl⟩, fun _ he => nomatch he⟩

theorem still_setCurrent (s : State) (g : Generator) : Still s (s.setCurrent g) := by
  unfold State.setCurrent
  split <;> exact ⟨rfl, rfl, rfl⟩

theorem of_generate {g : Gen α} : Quiet (generate g) := by
  intro o s
  have hrun := run_generate g o s
  cases hg : g.run.run s.current with
  | mk r g' =>
    rw [hg] at hrun
    cases r with
    | ok a =>
      refine ⟨?_, ?_⟩ <;> rw [hrun]
      · exact still_setCurrent s g'
      · exact fun _ he => nomatch he
    | error e =>
      refine ⟨?_, fun e' he => ?_⟩
      · rw [hrun]
        exact still_setCurrent s g'
      · rw [hrun] at he
        cases he
        exact .inr ⟨e, rfl⟩

theorem of_put (l : Assembly.Line) : Quiet (put l) := of_generate

end Quiet

/-- Registers may be returned before an item is taken. -/
theorem run_advance_reclaim (o : Options) (s : State) :
    advance.run o s =
      match s.feed.next with
      | (.ok t, feed) => (.ok (), { s.reclaim (o.reclaim s.delivered) with
          feed, delivered := s.delivered + 1, lookahead := t })
      | (.error e, feed) => (.error (.lexical e), { s.reclaim (o.reclaim s.delivered) with
          feed, delivered := s.delivered + 1 }) := by
  have hfeed : (s.reclaim (o.reclaim s.delivered)).feed = s.feed := rfl
  have hdelivered : (s.reclaim (o.reclaim s.delivered)).delivered = s.delivered := rfl
  simp only [advance, run_bind, run_read, run_get, hfeed, hdelivered]
  cases s.feed.next with
  | mk item feed => cases item <;> rfl

theorem run_advance (trace : Bool) (s : State) :
    advance.run { trace } s =
      match s.feed.next with
      | (.ok t, feed) => (.ok (), { s with feed, delivered := s.delivered + 1, lookahead := t })
      | (.error e, feed) =>
        (.error (.lexical e), { s with feed, delivered := s.delivered + 1 }) := by
  rw [run_advance_reclaim]
  rfl

/-- Taking a token of the source. -/
theorem advance_reads (trace : Bool) {s : State} (hs : s.Ready) (hk : s.lookahead.kind ≠ .eof) :
    match advance.run { trace } s with
    | (.ok _, s') => Reads s [s.lookahead] s'
    | (.error e, _) => e.foreign = true := by
  rw [run_advance]
  have hin : s.input = .ok s.lookahead :: s.feed.items := by simp [State.input, hk]
  cases hi : s.feed.items with
  | nil =>
    simp only [Feed.next, hi]
    refine ⟨?_, rfl, rfl, ⟨hs.final, ?_, .inl hs.final⟩, fun _ => rfl⟩
    · rw [hin, hi]
      simp [State.input, hs.final]
    · exact hi ▸ hs.items
  | cons i is =>
    simp only [Feed.next, hi]
    cases i with
    | error e => rfl
    | ok t =>
      have ht : t.Scanned := hs.items t (by simp [hi])
      refine ⟨?_, rfl, rfl, ⟨hs.final, fun u hu => hs.items u (by simp [hi, hu]), .inr ht⟩,
        fun h => absurd h ht.kind_ne_eof⟩
      rw [hin, hi]
      simp [State.input, ht.kind_ne_eof]

namespace Recognises

theorem mono {p : Pass α} (h : Recognises n t form p) (hm : m ≤ n) : Recognises m t form p :=
  fun trace s hs ht hlen => h trace s hs ht (hlen.trans hm)

/-- The lookahead is a token of the source, and the end of input where no tokens are left. -/
theorem of_plausible {p : Pass α}
    (h : t.Plausible → (n = 0 → t.kind = .eof) → Recognises n t form p) :
    Recognises n t form p := by
  intro trace s hs ht hlen
  refine h (ht ▸ hs.plausible) (fun hn => ?_) trace s hs ht hlen
  subst hn
  rw [← ht]
  exact State.kind_eof_of_input hlen

theorem append {p : Pass α} {f : α → Pass β} (hp : Recognises n t form p)
    (hf : ∀ x u, Recognises n u rest (f x)) : Recognises n t (form ++ rest) (p >>= f) := by
  intro trace s hs ht hlen
  have hp := hp trace s hs ht hlen
  rw [run_bind]
  cases h : p.run { trace } s with
  | mk r s1 =>
    rw [h] at hp
    cases r with
    | ok x =>
      obtain ⟨us, hread, hscans⟩ := hp
      exact .after hread hscans (hf x _ trace s1 hread.ready rfl (hread.length_le hlen))
    | error e => exact hp.error_append

theorem seq {a : Part Terminal Nonterminal} {p : Pass α} {f : α → Pass β}
    (hp : Recognises n t [a] p) (hf : ∀ x u, Recognises n u rest (f x)) :
    Recognises n t (a :: rest) (p >>= f) := hp.append hf

theorem expand {N : Nonterminal} {p : Pass α} (hc : choose table N t.ahead = some form)
    (h : Recognises n t (form ++ rest) p) : Recognises n t (.nonterminal N :: rest) p := by
  intro trace s hs ht hlen
  refine .expand ?_ (h trace s hs ht hlen)
  rw [ht]
  exact hc

theorem of_lookahead {f : Token → Pass α} (h : Recognises n t form (f t)) :
    Recognises n t form (lookahead >>= f) := by
  intro trace s hs ht hlen
  rw [run_bind]
  change Fits s form ((f s.lookahead).run { trace } s)
  rw [ht]
  exact h trace s hs ht hlen

theorem of_unexpected {e : Expectation} (h : Sticks table form [] t.ahead) :
    Recognises n t form (unexpected e : Pass α) := by
  intro trace s hs ht _
  rw [← ht] at h
  exact .stuck hs h

theorem of_throw {e : CompileError} (h : e.foreign = true) :
    Recognises n t form (throw e : Pass α) := fun _ _ _ _ _ => .inl h

theorem within {start : State → State} {finish : State → State → State} {p : Pass α}
    (hstart : ∀ s, Still s (start s)) (hfinish : ∀ s s', Still s' (finish s s'))
    (h : Recognises n t form p) : Recognises n t form (within start finish p) := by
  intro trace s hs ht hlen
  have hfirst := (hstart s).reads hs
  have h := h trace (start s) hfirst.ready ((hstart s).lookahead.trans ht) (hfirst.length_le hlen)
  change Fits s form ((p.run { trace } (start s)).1, finish s (p.run { trace } (start s)).2)
  cases hrun : p.run { trace } (start s) with
  | mk r s' =>
    rw [hrun] at h
    have hlast := hfinish s s'
    cases r with
    | ok a =>
      obtain ⟨us, hread, hscans⟩ := h
      refine ⟨us, ?_, hlast.lookahead ▸ hscans⟩
      simpa using (hfirst.trans hread).trans (hlast.reads hread.ready)
    | error e =>
      refine h.imp_right fun ⟨⟨x, hx⟩, us, hread, hsticks⟩ => ⟨⟨x, ?_⟩, us, ?_, ?_⟩
      · exact hlast.lookahead ▸ hx
      · simpa using (hfirst.trans hread).trans (hlast.reads hread.ready)
      · exact hlast.lookahead ▸ hsticks

theorem kind_ne_eof {x : Terminal} (h : t.ahead = some x) : t.kind ≠ .eof := by
  intro hk
  simp [Token.ahead, hk] at h

/-- A token that the form begins with is taken, and one less is left. -/
theorem shift {x : Terminal} {f : Unit → Pass α} (hx : t.ahead = some x)
    (hf : ∀ u, Recognises (n - 1) u rest (f ())) :
    Recognises n t (.terminal x :: rest) (advance >>= f) := by
  intro trace s hs ht hlen
  have hk : s.lookahead.kind ≠ .eof := ht ▸ kind_ne_eof hx
  have hterminal : t.terminal = x := by
    rw [Token.ahead, if_neg (kind_ne_eof hx)] at hx
    exact Option.some.inj hx
  have hread := advance_reads trace hs hk
  rw [run_bind]
  cases h : advance.run { trace } s with
  | mk r s1 =>
    rw [h] at hread
    cases r with
    | error e => exact .inl hread
    | ok _ =>
      have hlen1 : s1.input.length ≤ n - 1 := by
        have hlen' := congrArg List.length hread.input
        simp only [List.length_append, List.length_map, List.length_singleton] at hlen'
        omega
      have hscans : Scans table [.terminal x] ([s.lookahead].map Token.terminal)
          s1.lookahead.ahead := by
        rw [ht, List.map_singleton, hterminal]
        exact .shift .nil
      exact .after hread hscans (hf _ trace s1 hread.ready rfl hlen1)

end Recognises

namespace Quiet

theorem seq {p : Pass α} {f : α → Pass β} (hp : Quiet p)
    (hf : ∀ x, Recognises n t form (f x)) : Recognises n t form (p >>= f) := by
  intro trace s hs ht hlen
  obtain ⟨hstill, hblind⟩ := hp { trace } s
  rw [run_bind]
  cases h : p.run { trace } s with
  | mk r s1 =>
    rw [h] at hstill hblind
    cases r with
    | error e => exact .inl (hblind e rfl).foreign
    | ok a =>
      have hread := hstill.reads hs
      exact .after hread .nil
        (hf a trace s1 hread.ready (hstill.lookahead.trans ht) (hread.length_le hlen))

theorem recognises {p : Pass α} (hp : Quiet p) : Recognises n t [] p := by
  have h : Recognises n t [] (p >>= pure) :=
    hp.seq fun a _ s hs _ _ => ⟨[], (Still.refl s).reads hs, .nil⟩
  rwa [bind_pure] at h

end Quiet

namespace Recognises

theorem of_advance {x : Terminal} (hx : t.ahead = some x) :
    Recognises n t [.terminal x] advance := by
  have h : Recognises n t [.terminal x] (advance >>= pure) :=
    shift hx fun _ => (Quiet.of_pure ()).recognises
  rwa [bind_pure] at h

/-- An expected token is taken, and one less is left. -/
theorem expect_seq {k : Kind} {a : Attr} {f : Unit → Pass α}
    (hk : k ≠ .eof ∧ k ≠ .identifier ∧ k ≠ .number)
    (hf : ∀ u, Recognises (n - 1) u rest (f ())) :
    Recognises n t (.terminal (.word k a) :: rest) (expect k a >>= f) := by
  rw [expect, bind_assoc, at_bind]
  refine of_lookahead ?_
  by_cases h : t.is k a = true
  · rw [if_pos h]
    exact shift (Token.ahead_word.2 ⟨h, hk⟩) hf
  · rw [if_neg h]
    exact of_unexpected (.terminal fun ha => h (Token.ahead_word.1 ha).1)

theorem of_expect {k : Kind} {a : Attr} (hk : k ≠ .eof ∧ k ≠ .identifier ∧ k ≠ .number) :
    Recognises n t [.terminal (.word k a)] (expect k a) := by
  have h : Recognises n t [.terminal (.word k a)] (expect k a >>= pure) :=
    expect_seq hk fun _ => (Quiet.of_pure ()).recognises
  rwa [bind_pure] at h

theorem of_expectIdentifier : Recognises n t [identifier] expectIdentifier := by
  refine of_lookahead ?_
  by_cases h : t.kind = .identifier
  · rw [if_pos h]
    exact shift (Token.ahead_identifier.2 h) fun _ => (Quiet.of_pure t).recognises
  · rw [if_neg h]
    exact of_unexpected (.terminal fun ha => h (Token.ahead_identifier.1 ha))

theorem at_word {N : Nonterminal} {k : Kind} {a : Attr} {p : Pass α} (h : t.is k a = true)
    (hk : k ≠ .eof ∧ k ≠ .identifier ∧ k ≠ .number)
    (w : List (Part Terminal Nonterminal)) (hc : choose table N (some (.word k a)) = some w)
    (hp : Recognises n t (w ++ rest) p) : Recognises n t (.nonterminal N :: rest) p := by
  refine expand ?_ hp
  rw [Token.ahead_word.2 ⟨h, hk⟩]
  exact hc

theorem at_identifier {N : Nonterminal} {p : Pass α} (h : t.kind = .identifier)
    (w : List (Part Terminal Nonterminal)) (hc : choose table N (some .identifier) = some w)
    (hp : Recognises n t (w ++ rest) p) : Recognises n t (.nonterminal N :: rest) p := by
  refine expand ?_ hp
  rw [Token.ahead_identifier.2 h]
  exact hc

theorem at_default {N : Nonterminal} {p : Pass α} (as : List Terminal)
    (has : announced table N = as) (h : ∀ a ∈ as, t.ahead ≠ some a)
    (w : List (Part Terminal Nonterminal)) (hc : choose table N none = some w)
    (hp : Recognises n t (w ++ rest) p) : Recognises n t (.nonterminal N :: rest) p := by
  refine expand ?_ hp
  rw [choose_of_not_announced (has ▸ h)]
  exact hc

/-- Opening a nonterminal that has one rule only. -/
theorem at_rule {N : Nonterminal} {p : Pass α} (w : List (Part Terminal Nonterminal))
    (has : announced table N = []) (hc : choose table N none = some w)
    (hp : Recognises n t (w ++ rest) p) : Recognises n t (.nonterminal N :: rest) p :=
  at_default [] has (by simp) w hc hp

theorem stuck {N : Nonterminal} {e : Expectation} (as : List Terminal)
    (has : announced table N = as) (h : ∀ a ∈ as, t.ahead ≠ some a)
    (hc : choose table N none = none) :
    Recognises n t (.nonterminal N :: rest) (unexpected e : Pass α) := by
  refine of_unexpected (.nonterminal ?_)
  rw [choose_of_not_announced (has ▸ h)]
  exact hc

end Recognises

end Pass

end Compiler

end OnePass
