import Mathlib.Logic.Relation
import OnePass.Proofs.Compiler.Course

namespace OnePass

/-- A token after which there is more to come. -/
def Item.isOpen : Item → Bool
  | .ok t => t.kind != .eof
  | .error _ => false

namespace Feed

/-- The first answers of a feed. -/
def answers : Nat → Feed → List Item
  | 0, _ => []
  | n + 1, f => f.next.1 :: answers n f.next.2

/-- What is left of a feed after so many answers. -/
def after : Nat → Feed → Feed
  | 0, f => f
  | n + 1, f => after n f.next.2

/-- The number of tokens before the end of input or the first lexical error. -/
def ahead (f : Feed) : Nat := (f.items.takeWhile Item.isOpen).length

theorem answers_concat (n : Nat) (f : Feed) :
    answers (n + 1) f = answers n f ++ [(after n f).next.1] := by
  induction n generalizing f with
  | zero => rfl
  | succ n ih =>
    have hrest := ih f.next.2
    rw [answers, hrest]
    rfl

theorem after_concat (n : Nat) (f : Feed) : after (n + 1) f = (after n f).next.2 := by
  induction n generalizing f with
  | zero => rfl
  | succ n ih => exact ih f.next.2

@[simp] theorem final_next (f : Feed) : f.next.2.final = f.final := by
  unfold next
  split <;> rfl

theorem mem_answers {n : Nat} {f : Feed} {i : Item} (h : i ∈ f.answers n) :
    i ∈ f.items ∨ i = .ok f.final := by
  induction n generalizing f with
  | zero => cases h
  | succ n ih =>
    have hnext : (f.next.1 ∈ f.items ∨ f.next.1 = .ok f.final) ∧ f.next.2.items ⊆ f.items := by
      unfold next
      split
      · exact ⟨.inr rfl, List.Subset.refl _⟩
      · rename_i j js hitems
        rw [hitems]
        exact ⟨.inl List.mem_cons_self, List.subset_cons_self j js⟩
    rcases List.mem_cons.1 h with rfl | h
    · exact hnext.1
    · have hrest := ih h
      rw [final_next] at hrest
      exact hrest.imp_left (hnext.2 ·)

/-- Behind an open item there is one token less ahead. -/
theorem ahead_next {f : Feed} (hfinal : f.final.kind = .eof) (h : Item.isOpen f.next.1 = true) :
    f.ahead = f.next.2.ahead + 1 := by
  obtain ⟨items, final⟩ := f
  cases items with
  | nil =>
    have hclosed : Item.isOpen (.ok final) = false := by simpa [Item.isOpen] using hfinal
    exact absurd h (by simp [next, hclosed])
  | cons i is =>
    have hi : Item.isOpen i = true := h
    simp [ahead, next, hi]

/-- If only open items are followed by another call, there are not many calls. -/
theorem le_ahead {f : Feed} {n : Nat} (hfinal : f.final.kind = .eof)
    (h : ∀ i ∈ (f.answers n).dropLast, Item.isOpen i = true) : n ≤ f.ahead + 1 := by
  induction n generalizing f with
  | zero => omega
  | succ n ih =>
    cases n with
    | zero => omega
    | succ n =>
      have hdrop : (f.answers (n + 2)).dropLast = f.next.1 :: (f.next.2.answers (n + 1)).dropLast := rfl
      rw [hdrop, List.forall_mem_cons] at h
      have hahead := ahead_next hfinal h.1
      have hrest := ih (by simpa using hfinal) h.2
      omega

end Feed

/-- About a token that has been taken, or about the registers. -/
def CompileError.Plain (e : CompileError) : Prop :=
  (∃ t, e.token? = some t) ∨ ∃ x, e = .internal (.register x)

theorem CompileError.Blind.plain {e : CompileError} (h : e.Blind) : e.Plain := by
  rcases h with ⟨c, t, rfl⟩ | hx
  · exact .inl ⟨t, rfl⟩
  · exact .inr hx

namespace Compiler

/-- What a compilation has of its input. -/
structure Intake where
  feed : Feed
  taken : Nat
  lookahead : Token

def State.intake (s : State) : Intake := ⟨s.feed, s.delivered, s.lookahead⟩

theorem Still.intake {s s' : State} (h : Still s s') : s'.intake = s.intake := by
  obtain ⟨hfeed, hlookahead, hdelivered⟩ := h
  rw [State.intake, hfeed, hlookahead, hdelivered]
  rfl

namespace Intake

/-- A token is taken in place of one that is not the end of input. -/
inductive Step : Intake → Intake → Prop where
  | take {f f' : Feed} {n : Nat} {t u : Token} (ht : t.kind ≠ .eof) (hu : f.next = (.ok u, f')) :
      Step ⟨f, n, t⟩ ⟨f', n + 1, u⟩

/-- Tokens are taken one after the other. -/
abbrev Steps : Intake → Intake → Prop := Relation.ReflTransGen Step

/-- How taking ends with an error: an item is no token, the lookahead is a numeral that cannot be read, or the error
is none of taking. The lookahead in front of an item that is no token is of no account any more. -/
inductive Stops : Intake → CompileError → Intake → Prop where
  | lexical {f f' : Feed} {n : Nat} {t u : Token} {x : LexError} (ht : t.kind ≠ .eof)
      (hx : f.next = (.error x, f')) : Stops ⟨f, n, t⟩ (.lexical x) ⟨f', n + 1, u⟩
  | numeral {i : Intake} {x : NumeralError} (hk : i.lookahead.kind = .number)
      (hx : Numeral.readWord i.lookahead.lexeme = .error x) :
      Stops i (.internal (.numeral i.lookahead.lexeme x)) i
  | plain {i : Intake} {e : CompileError} (he : e.Plain) : Stops i e i

/-- What a run from this intake has taken when it ends. -/
inductive Took {α : Type} (i : Intake) : Except CompileError α × State → Prop where
  | ok {a : α} {s : State} (h : Steps i s.intake) : Took i (.ok a, s)
  | error {e : CompileError} {j : Intake} {s : State} (h : Steps i j) (hj : Stops j e s.intake) :
      Took i (.error e, s)

/-- How many items can still be taken. -/
def left (i : Intake) : Nat := if i.lookahead.kind = .eof then 0 else i.feed.ahead + 1

theorem left_le (i : Intake) : i.left ≤ i.feed.items.length + 1 := by
  have hahead : i.feed.ahead ≤ i.feed.items.length :=
    (List.takeWhile_prefix _).length_le
  unfold left
  split <;> omega

variable {i j k : Intake} {α : Type}

theorem Step.final (h : Step i j) : j.feed.final = i.feed.final := by
  cases h with
  | @take f f' n t u ht hu =>
    have hnext := f.final_next
    rw [hu] at hnext
    exact hnext

theorem Step.taken_eq (h : Step i j) : j.taken = i.taken + 1 := by
  cases h with
  | take => rfl

theorem Step.left_lt (h : Step i j) (hfinal : i.feed.final.kind = .eof) : j.left < i.left := by
  cases h with
  | @take f f' n t u ht hu =>
    have hbefore : left ⟨f, n, t⟩ = f.ahead + 1 := if_neg ht
    rw [hbefore, left]
    by_cases hend : u.kind = .eof
    · rw [if_pos hend]
      omega
    · have hopen : Item.isOpen f.next.1 = true := by
        rw [hu]
        simpa [Item.isOpen] using hend
      have hahead : f.ahead = f'.ahead + 1 := by rw [f.ahead_next hfinal hopen, hu]
      rw [if_neg hend, hahead]
      exact Nat.lt_succ_self _

theorem Steps.final (h : Steps i j) : j.feed.final = i.feed.final := by
  induction h with
  | refl => rfl
  | tail _ hstep ih => rw [hstep.final, ih]

theorem Steps.left_le (h : Steps i j) (hfinal : i.feed.final.kind = .eof) : j.left ≤ i.left := by
  induction h with
  | refl => exact Nat.le_refl _
  | tail hsteps hstep ih =>
    have hlt := hstep.left_lt (by rw [Steps.final hsteps, hfinal])
    omega

theorem Steps.taken_le (h : Steps i j) : i.taken ≤ j.taken := by
  induction h with
  | refl => exact Nat.le_refl _
  | tail _ hstep ih =>
    rw [hstep.taken_eq]
    exact Nat.le_succ_of_le ih

/-- The items that steps take, with the lookahead in front of them and the one behind them: only the last can be the
end of input. -/
theorem Steps.answers (h : Steps i j) :
    ∃ n, j.taken = i.taken + n ∧ j.feed = i.feed.after n ∧
      ∃ before, .ok i.lookahead :: i.feed.answers n = before ++ [.ok j.lookahead] ∧
        ∀ x ∈ before, Item.isOpen x = true := by
  induction h with
  | refl => exact ⟨0, rfl, rfl, [], rfl, by simp⟩
  | tail _ hstep ih =>
    obtain ⟨n, htaken, hfeed, before, hanswers, hopen⟩ := ih
    cases hstep with
    | @take f f' m t u ht hu =>
      have hnext : (i.feed.after n).next = (.ok u, f') := by rw [← hfeed, hu]
      refine ⟨n + 1, ?_, ?_, before ++ [.ok t], ?_, ?_⟩
      · exact congrArg (· + 1) htaken
      · rw [Feed.after_concat, hnext]
      · rw [Feed.answers_concat, hnext, ← List.cons_append, hanswers]
      · intro x hx
        rcases List.mem_append.1 hx with hx | hx
        · exact hopen x hx
        · rw [List.mem_singleton.1 hx]
          simpa [Item.isOpen] using ht

/-- The lookahead behind steps is the one in front of them, or it was in the feed. -/
theorem Steps.lookahead_mem (h : Steps i j) :
    j.lookahead = i.lookahead ∨ .ok j.lookahead ∈ i.feed.items ∨ j.lookahead = i.feed.final := by
  obtain ⟨n, -, -, before, hanswers, -⟩ := h.answers
  have hmem : .ok j.lookahead ∈ Except.ok i.lookahead :: i.feed.answers n := by simp [hanswers]
  rcases List.mem_cons.1 hmem with heq | hmem
  · exact .inl (Except.ok.inj heq)
  · exact .inr ((Feed.mem_answers hmem).imp_right Except.ok.inj)

namespace Took

variable {s : State}

theorem trans {r : Except CompileError α × State} (h : Steps i j) (hr : Took j r) : Took i r := by
  cases hr with
  | ok hs => exact .ok (h.trans hs)
  | error hs hj => exact .error (h.trans hs) hj

theorem of_plain {e : CompileError} (he : e.Plain) :
    Took s.intake ((.error e, s) : Except CompileError α × State) := .error .refl (.plain he)

/-- All that was taken: the count, the rest of the feed, and the items, with the lookahead in front of them. -/
theorem answers {r : Except CompileError α × State} (h : Took i r) :
    ∃ n, r.2.delivered = i.taken + n ∧ r.2.feed = i.feed.after n ∧
      ∀ x ∈ (.ok i.lookahead :: i.feed.answers n).dropLast, Item.isOpen x = true := by
  cases h with
  | ok hsteps =>
    obtain ⟨n, htaken, hfeed, before, hanswers, hopen⟩ := hsteps.answers
    refine ⟨n, htaken, hfeed, ?_⟩
    rwa [hanswers, List.dropLast_concat]
  | @error e j s hsteps hstops =>
    obtain ⟨n, htaken, hfeed, before, hanswers, hopen⟩ := hsteps.answers
    generalize hend : s.intake = l at hstops
    have hdelivered : s.delivered = l.taken := congrArg Intake.taken hend
    have hrest : s.feed = l.feed := congrArg Intake.feed hend
    rw [hdelivered, hrest]
    have hstay : ∀ x ∈ (.ok i.lookahead :: i.feed.answers n).dropLast, Item.isOpen x = true := by
      rwa [hanswers, List.dropLast_concat]
    cases hstops with
    | @lexical f f' m t u x ht hx =>
      have hnext : (i.feed.after n).next = (.error x, f') := by rw [← hfeed, hx]
      refine ⟨n + 1, congrArg (· + 1) htaken, ?_, ?_⟩
      · rw [Feed.after_concat, hnext]
      · rw [Feed.answers_concat, hnext, ← List.cons_append, List.dropLast_concat, hanswers]
        intro y hy
        rcases List.mem_append.1 hy with hy | hy
        · exact hopen y hy
        · rw [List.mem_singleton.1 hy]
          simpa [Item.isOpen] using ht
    | numeral _ _ => exact ⟨n, htaken, hfeed, hstay⟩
    | plain _ => exact ⟨n, htaken, hfeed, hstay⟩

end Took

end Intake

namespace Pass

open Assembly Intake

variable {α β : Type} {t : Token}

/-- At the lookahead `t` the step answers `b` and changes nothing. -/
def Sees (t : Token) (p : Pass α) (b : α) : Prop :=
  ∀ o s, s.lookahead = t → p.run o s = (.ok b, s)

/-- From the lookahead `t` the step takes items only while there is more to come. -/
def Reads (t : Token) (p : Pass α) : Prop :=
  ∀ o s, s.lookahead = t → Took s.intake (p.run o s)

/-- From the lookahead `t` the step takes one token, or it fails. -/
def Takes (t : Token) (p : Pass α) : Prop :=
  ∀ o s, s.lookahead = t →
    (∃ a s', p.run o s = (.ok a, s') ∧ Step s.intake s'.intake) ∨
      ∃ e s', p.run o s = (.error e, s') ∧ Stops s.intake e s'.intake

/-- At the lookahead `t` the step fails at once. -/
def Refuses (t : Token) (p : Pass α) (e : CompileError) : Prop :=
  ∀ o s, s.lookahead = t → p.run o s = (.error e, s)

/-- From the lookahead `t` the step fails, whatever it does before. -/
def Fails (t : Token) (p : Pass α) : Prop :=
  ∀ o s, s.lookahead = t → ∃ e s', p.run o s = (.error e, s')

theorem sees_lookahead : lookahead.Sees t t := by
  rintro o s rfl
  rfl

theorem sees_at {k : Kind} {a : Attr} : (at? k a).Sees t (t.is k a) := by
  rintro o s rfl
  rfl

theorem kind_of_is {k : Kind} {a : Attr} (hk : k ≠ .eof) (h : t.is k a = true) : t.kind ≠ .eof := by
  rw [(Token.is_iff.1 h).1]
  exact hk

namespace Reads

theorem of_quiet {p : Pass α} (h : Quiet p) : p.Reads t := by
  intro o s _
  obtain ⟨hstill, hblind⟩ := h o s
  cases hrun : p.run o s with
  | mk r s' =>
    rw [hrun] at hstill hblind
    rw [← hstill.intake]
    cases r with
    | ok a => exact .ok .refl
    | error e => exact .of_plain (hblind e rfl).plain

theorem of_unexpected (e : Expectation) : (unexpected e : Pass α).Reads t :=
  fun _ _ _ => .of_plain (.inl ⟨_, rfl⟩)

theorem bind {p : Pass α} {f : α → Pass β} (hp : p.Reads t) (hf : ∀ a u, (f a).Reads u) :
    (p >>= f).Reads t := by
  intro o s hs
  have hfirst := hp o s hs
  rw [run_bind]
  cases hrun : p.run o s with
  | mk r s' =>
    rw [hrun] at hfirst
    cases hfirst with
    | ok hsteps => exact .trans hsteps (hf _ _ o s' rfl)
    | error hsteps hstops => exact .error hsteps hstops

theorem sees {p : Pass α} {b : α} {f : α → Pass β} (hp : p.Sees t b) (hf : (f b).Reads t) :
    (p >>= f).Reads t := by
  intro o s hs
  rw [run_bind, hp o s hs]
  exact hf o s hs

/-- A step that takes nothing leaves the lookahead as it is. -/
theorem after {p : Pass α} {f : α → Pass β} (hp : Quiet p) (hf : ∀ a, (f a).Reads t) :
    (p >>= f).Reads t := by
  intro o s hs
  obtain ⟨hstill, hblind⟩ := hp o s
  rw [run_bind]
  cases hrun : p.run o s with
  | mk r s' =>
    rw [hrun] at hstill hblind
    rw [← hstill.intake]
    cases r with
    | ok a => exact hf a o s' (hstill.lookahead.trans hs)
    | error e => exact .of_plain (hblind e rfl).plain

theorem ite {c : Prop} [Decidable c] {p q : Pass α} (hp : c → p.Reads t) (hq : ¬c → q.Reads t) :
    (if c then p else q).Reads t := by
  split
  · exact hp ‹_›
  · exact hq ‹_›

end Reads

namespace Fails

theorem of_unexpected (e : Expectation) : (unexpected e : Pass α).Fails t :=
  fun _ _ _ => ⟨_, _, rfl⟩

theorem bind {p : Pass α} {f : α → Pass β} (h : p.Fails t) : (p >>= f).Fails t := by
  intro o s hs
  obtain ⟨e, s', hrun⟩ := h o s hs
  exact ⟨e, s', by rw [run_bind, hrun]⟩

theorem sees {p : Pass α} {b : α} {f : α → Pass β} (hp : p.Sees t b) (hf : (f b).Fails t) :
    (p >>= f).Fails t := by
  intro o s hs
  rw [run_bind, hp o s hs]
  exact hf o s hs

theorem after {p : Pass α} {f : α → Pass β} (hp : Quiet p) (hf : ∀ a, (f a).Fails t) :
    (p >>= f).Fails t := by
  intro o s hs
  have hstill := (hp o s).still
  rw [run_bind]
  cases hrun : p.run o s with
  | mk r s' =>
    rw [hrun] at hstill
    cases r with
    | ok a => exact hf a o s' (hstill.lookahead.trans hs)
    | error e => exact ⟨e, s', rfl⟩

end Fails

/-- Taking an item does not depend on the lookahead. -/
theorem advance_takes (o : Options) (s : State) (ht : t.kind ≠ .eof) :
    (∃ a s', advance.run o s = (.ok a, s') ∧ Step ⟨s.feed, s.delivered, t⟩ s'.intake) ∨
      ∃ e s', advance.run o s = (.error e, s') ∧ Stops ⟨s.feed, s.delivered, t⟩ e s'.intake := by
  rw [run_advance_reclaim]
  cases hnext : s.feed.next with
  | mk item feed =>
    cases item with
    | ok u => exact .inl ⟨(), _, rfl, .take ht hnext⟩
    | error e => exact .inr ⟨_, _, rfl, .lexical ht hnext⟩

namespace Takes

theorem reads {p : Pass α} (h : p.Takes t) : p.Reads t := by
  intro o s hs
  rcases h o s hs with ⟨a, s', hrun, hstep⟩ | ⟨e, s', hrun, hstops⟩
  · rw [hrun]
    exact .ok (.single hstep)
  · rw [hrun]
    exact .error .refl hstops

theorem of_advance (ht : t.kind ≠ .eof) : advance.Takes t := by
  rintro o s rfl
  exact advance_takes o s ht

theorem of_unexpected (e : Expectation) : (unexpected e : Pass α).Takes t :=
  fun _ s _ => .inr ⟨_, s, rfl, .plain (.inl ⟨_, rfl⟩)⟩

theorem sees {p : Pass α} {b : α} {f : α → Pass β} (hp : p.Sees t b) (hf : (f b).Takes t) :
    (p >>= f).Takes t := by
  intro o s hs
  rw [run_bind, hp o s hs]
  exact hf o s hs

theorem ite {c : Prop} [Decidable c] {p q : Pass α} (hp : c → p.Takes t) (hq : ¬c → q.Takes t) :
    (if c then p else q).Takes t := by
  split
  · exact hp ‹_›
  · exact hq ‹_›

theorem map {p : Pass α} (f : α → β) (h : p.Takes t) : (p >>= fun a => pure (f a)).Takes t := by
  intro o s hs
  rw [run_bind]
  rcases h o s hs with ⟨a, s', hrun, hstep⟩ | ⟨e, s', hrun, hstops⟩
  · rw [hrun]
    exact .inl ⟨f a, s', rfl, hstep⟩
  · rw [hrun]
    exact .inr ⟨e, s', rfl, hstops⟩

theorem of_expect {k : Kind} (hk : k ≠ .eof) (a : Attr) : (expect k a).Takes t :=
  .sees sees_at (.ite (fun h => .of_advance (kind_of_is hk h)) fun _ => .of_unexpected _)

theorem of_expectIdentifier : expectIdentifier.Takes t := by
  refine .sees sees_lookahead (.ite (fun h => ?_) fun _ => .of_unexpected _)
  exact .map (fun _ => t) (.of_advance (by simp [h]))

end Takes

theorem reads_identifierFactor (ht : t.kind = .identifier) : (identifierFactor t).Reads t := by
  refine .after .of_get fun s => .ite (fun _ => ?_) fun _ => .of_quiet (.of_fail _ _)
  refine .bind (Takes.of_advance (by simp [ht])).reads fun _ _ => ?_
  exact .of_quiet (Quiet.of_generate.bind fun _ => Quiet.of_get.bind fun _ => .of_pure _)

/-- A number that is no word of the machine stops the compilation at its token. -/
theorem reads_numberFactor (ht : t.kind = .number) : (numberFactor t).Reads t := by
  unfold numberFactor
  cases hx : Numeral.readWord t.lexeme with
  | ok w =>
    refine .bind (Takes.of_advance (by simp [ht])).reads fun _ _ => ?_
    exact .of_quiet (Quiet.of_generate.bind fun _ => .of_pure _)
  | error x =>
    rintro o s rfl
    exact .error .refl (.numeral ht hx)

theorem reads_standardType : standardType.Reads t := by
  have hgive : t.kind ≠ .eof → ∀ type, (advance >>= fun _ => modify fun s =>
      { s with symbols := s.symbols.patch type }.report (.patch type s.symbols.unknowns) :
      Pass Unit).Reads t := fun ht _ =>
    .bind (Takes.of_advance ht).reads fun _ _ => .of_quiet (.of_modify fun _ => ⟨rfl, rfl, rfl⟩)
  refine .after (.of_enter _) fun _ => .sees sees_lookahead ?_
  refine .ite (fun h => ?_) fun _ => .ite (fun h => ?_) fun _ => ?_
  · exact .after (.of_pure _) fun type => hgive (kind_of_is (by simp) h) type
  · exact .after (.of_pure _) fun type => hgive (kind_of_is (by simp) h) type
  · exact .of_unexpected _

end Pass

end Compiler

end OnePass
