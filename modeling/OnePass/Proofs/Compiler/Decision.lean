import OnePass.Proofs.Compiler.Course
import OnePass.Proofs.Source.Typing

namespace OnePass.Compiler

open Assembly Source

/-- Where there is a token there is a step left to take it. -/
theorem exists_step {ts : List Token} {n : Nat} (hn : ts.length ≤ n) (hts : ts ≠ []) :
    ∃ m, n = m + 1 := by
  have hpos := List.length_pos_iff.2 hts
  exact Nat.exists_eq_add_one_of_ne_zero (by omega)

theorem Gen.Gives.unique {α : Type} {x : Gen α} {g g₁ g₂ : Generator} {a b : α}
    (h : x.Gives g a g₁) (k : x.Gives g b g₂) : a = b ∧ g₁ = g₂ := by
  have heq : (Except.ok a, g₁) = (Except.ok b, g₂) := h.symm.trans k
  cases heq
  exact ⟨rfl, rfl⟩

theorem Pass.Gives.unique {α : Type} {p : Pass α} {trace : Bool} {s s₁ s₂ : State} {a b : α}
    (h : p.Gives trace s a s₁) (k : p.Gives trace s b s₂) : a = b ∧ s₁ = s₂ := by
  have heq : (Except.ok a, s₁) = (Except.ok b, s₂) := h.symm.trans k
  cases heq
  exact ⟨rfl, rfl⟩

/-- The step ends well exactly if the condition holds, and then as it is asked for. -/
structure Pass.Decides {α : Type} (p : Pass α) (trace : Bool) (s : State) (D : Prop)
    (Q : α → State → Prop) : Prop where
  gives : D → ∃ a s', p.Gives trace s a s' ∧ Q a s'
  holds : ∀ a s', p.Gives trace s a s' → D

namespace Pass.Decides

variable {α β : Type} {trace : Bool} {s : State} {C D : Prop} {p q : Pass α} {f : α → Pass β}
  {R : α → State → Prop} {Q : β → State → Prop}

theorem of_gives {a : α} {s' : State} (h : p.Gives trace s a s') (hR : R a s') :
    p.Decides trace s True R := ⟨fun _ => ⟨a, s', h, hR⟩, fun _ _ _ => trivial⟩

/-- A step that cannot fail, where the condition is known already. -/
theorem of_true (h : p.Decides trace s True R) (hD : D) : p.Decides trace s D R :=
  ⟨fun _ => h.gives trivial, fun _ _ _ => hD⟩

theorem mono {R' : α → State → Prop} (h : p.Decides trace s D R)
    (hR : ∀ a s', R a s' → R' a s') : p.Decides trace s D R' := by
  refine ⟨fun hD => ?_, h.holds⟩
  obtain ⟨a, s', hp, hr⟩ := h.gives hD
  exact ⟨a, s', hp, hR a s' hr⟩

theorem congr (h : p.Decides trace s C R) (hCD : C ↔ D) : p.Decides trace s D R := by
  rwa [← propext hCD]

/-- A first step decides a part of the condition, and the rest decides all of it. -/
theorem bind (hp : p.Decides trace s C R) (hDC : D → C)
    (hf : ∀ a s', C → R a s' → (f a).Decides trace s' D Q) : (p >>= f).Decides trace s D Q := by
  constructor
  · intro hD
    obtain ⟨a, s1, h1, hr⟩ := hp.gives (hDC hD)
    obtain ⟨b, s2, h2, hq⟩ := (hf a s1 (hDC hD) hr).gives hD
    exact ⟨b, s2, gives_bind.2 ⟨a, s1, h1, h2⟩, hq⟩
  · intro b s2 h
    obtain ⟨a, s1, h1, h2⟩ := gives_bind.1 h
    -- a run has one result, so the first step ended as it does under its condition
    have hC := hp.holds a s1 h1
    obtain ⟨a', s1', h1', hr⟩ := hp.gives hC
    obtain ⟨rfl, rfl⟩ := h1'.unique h1
    exact (hf a' s1' hC hr).holds b s2 h2

/-- A first step that cannot fail. -/
theorem after (hp : p.Decides trace s True R)
    (hf : ∀ a s', R a s' → (f a).Decides trace s' D Q) : (p >>= f).Decides trace s D Q :=
  hp.bind (fun _ => trivial) fun a s' _ => hf a s'

/-- A first step whose result is known. -/
theorem next {a : α} {s' : State} (h : p.Gives trace s a s')
    (hf : (f a).Decides trace s' D Q) : (p >>= f).Decides trace s D Q := by
  refine (of_gives (R := fun b u => b = a ∧ u = s') h ⟨rfl, rfl⟩).after fun b u hbu => ?_
  rw [hbu.1, hbu.2]
  exact hf

theorem of_pure {a : α} (hD : D) (hR : R a s) : (pure a : Pass α).Decides trace s D R :=
  .of_true (.of_gives (gives_pure.2 ⟨rfl, rfl⟩) hR) hD

theorem discard {R : State → Prop} (h : p.Decides trace s D fun _ => R) :
    (discard p).Decides trace s D fun _ => R :=
  h.bind (fun hD => hD) fun _ _ hD hR => .of_pure hD hR

/-- A test that the condition forbids to fail. -/
theorem guard {c : Prop} [Decidable c] {x : SemanticCause} {t : Token} (hc : D → ¬c)
    (hp : ¬c → p.Decides trace s D R) : (if c then fail x t else p).Decides trace s D R := by
  by_cases h : c
  · rw [if_pos h]
    exact ⟨fun hD => absurd h (hc hD), fun a s' hf => absurd hf not_gives_fail⟩
  · rw [if_neg h]
    exact hp h

/-- The same with the branches exchanged. -/
theorem test {c : Prop} [Decidable c] {x : SemanticCause} {t : Token} (hc : D → c)
    (hp : c → p.Decides trace s D R) : (if c then p else fail x t).Decides trace s D R := by
  rw [← ite_not]
  exact guard (fun hD h => h (hc hD)) fun h => hp (Decidable.not_not.1 h)

theorem ite_pos {c : Prop} [Decidable c] (hc : c) (hp : p.Decides trace s D R) :
    (if c then p else q).Decides trace s D R := by
  rwa [if_pos hc]

theorem ite_neg {c : Prop} [Decidable c] (hc : ¬c) (hq : q.Decides trace s D R) :
    (if c then p else q).Decides trace s D R := by
  rwa [if_neg hc]

theorem get_bind {f : State → Pass β} (hf : (f s).Decides trace s D Q) :
    (get >>= f).Decides trace s D Q := next (gives_get.2 ⟨rfl, rfl⟩) hf

theorem lookahead_bind {f : Token → Pass β} (hf : (f s.lookahead).Decides trace s D Q) :
    (lookahead >>= f).Decides trace s D Q := next (gives_lookahead.2 ⟨rfl, rfl⟩) hf

theorem at_bind {k : Kind} {a : Attr} {f : Bool → Pass β}
    (hf : (f (s.lookahead.is k a)).Decides trace s D Q) : (at? k a >>= f).Decides trace s D Q :=
  next (gives_at.2 ⟨rfl, rfl⟩) hf

theorem of_check {type : ExprType} {vs : List Value} :
    (check type vs).Decides trace s (∀ v ∈ vs, v.type = type) fun _ s' => s' = s :=
  ⟨fun h => ⟨(), s, gives_check.2 ⟨h, rfl⟩, rfl⟩, fun _ _ h => (gives_check.1 h).1⟩

end Pass.Decides

/-- The step ends well exactly if the condition holds and the code of `x` can be generated from `g`. Then it ends as
it is asked for, beside the answer of `x` and the generator behind it. -/
def Pass.Lowers {α γ : Type} (p : Pass α) (trace : Bool) (s : State) (D : Prop) (x : Gen γ) (g : Generator)
    (Q : α → γ → Generator → State → Prop) : Prop :=
  p.Decides trace s (D ∧ ∃ c g', x.Gives g c g') fun a s' => ∃ c g', x.Gives g c g' ∧ Q a c g' s'

namespace Pass.Lowers

variable {α β γ δ : Type} {trace : Bool} {s : State} {g : Generator} {C D : Prop} {p : Pass α}
  {f : α → Pass β} {x : Gen γ} {k : γ → Gen δ} {R : α → γ → Generator → State → Prop}

theorem of_pure {a : α} {c : γ} (hD : D) (hR : R a c g s) :
    (pure a : Pass α).Lowers trace s D (pure c) g R := by
  have hc : (pure c : Gen γ).Gives g c g := Gen.gives_pure.2 ⟨rfl, rfl⟩
  exact Decides.of_pure ⟨hD, c, g, hc⟩ ⟨c, g, hc, hR⟩

/-- Where the code can be generated, only the condition is left. -/
theorem decides (h : p.Lowers trace s D x g R) (hx : ∃ c g', x.Gives g c g') :
    p.Decides trace s D fun a s' => ∃ c g', x.Gives g c g' ∧ R a c g' s' :=
  Decides.congr h ⟨fun hD => hD.1, fun hD => ⟨hD, hx⟩⟩

theorem of_true (h : p.Lowers trace s True x g R) (hD : D) : p.Lowers trace s D x g R :=
  Decides.congr h ⟨fun hx => ⟨hD, hx.2⟩, fun hx => ⟨trivial, hx.2⟩⟩

theorem mono {R' : α → γ → Generator → State → Prop} (h : p.Lowers trace s D x g R)
    (hR : ∀ a c g' s', R a c g' s' → R' a c g' s') : p.Lowers trace s D x g R' := by
  refine Decides.mono h fun a s' ha => ?_
  obtain ⟨c, g', hx, hr⟩ := ha
  exact ⟨c, g', hx, hR a c g' s' hr⟩

/-- A step and what follows it, beside a piece of code and what follows that. -/
theorem bind {Q : β → δ → Generator → State → Prop} (hp : p.Lowers trace s C x g R) (hDC : D → C)
    (hf : ∀ a c g' s', C → R a c g' s' → (f a).Lowers trace s' D (k c) g' Q) :
    (p >>= f).Lowers trace s D (x >>= k) g Q := by
  constructor
  · intro ⟨hD, d, g₂, hxk⟩
    obtain ⟨c, g₁, hx, hk⟩ := Gen.gives_bind.1 hxk
    obtain ⟨a, s₁, hs₁, c', g₁', hx', hR⟩ := hp.gives ⟨hDC hD, c, g₁, hx⟩
    obtain ⟨rfl, rfl⟩ := hx.unique hx'
    obtain ⟨b, s₂, hs₂, d', g₂', hk', hQ⟩ := (hf a c g₁ s₁ (hDC hD) hR).gives ⟨hD, d, g₂, hk⟩
    exact ⟨b, s₂, gives_bind.2 ⟨a, s₁, hs₁, hs₂⟩, d', g₂', Gen.gives_bind.2 ⟨c, g₁, hx, hk'⟩, hQ⟩
  · intro b s₂ h
    obtain ⟨a, s₁, hs₁, hs₂⟩ := gives_bind.1 h
    -- a run has one result, so the first step ended as it does under its condition
    have hC := hp.holds a s₁ hs₁
    obtain ⟨a', s₁', hs₁', c, g₁, hx, hR⟩ := hp.gives hC
    obtain ⟨rfl, rfl⟩ := hs₁'.unique hs₁
    obtain ⟨hD, d, g₂, hk⟩ := (hf a' c g₁ s₁' hC.1 hR).holds b s₂ hs₂
    exact ⟨hD, d, g₂, Gen.gives_bind.2 ⟨c, g₁, hx, hk⟩⟩

/-- The last piece of code, and steps behind it that add none. -/
theorem last {Q : β → γ → Generator → State → Prop} (hp : p.Lowers trace s C x g R) (hDC : D → C)
    (hf : ∀ a c g' s', C → R a c g' s' → (f a).Lowers trace s' D (pure c) g' Q) :
    (p >>= f).Lowers trace s D x g Q := by
  rw [← bind_pure x]
  exact hp.bind hDC hf

/-- A step that adds no code. -/
theorem beside {B : α → State → Prop} {Q : β → γ → Generator → State → Prop}
    (hp : p.Decides trace s C B) (hDC : D → C)
    (hf : ∀ a s', C → B a s' → (f a).Lowers trace s' D x g Q) : (p >>= f).Lowers trace s D x g Q :=
  Decides.bind hp (fun h => hDC h.1) fun a s' hC hB => hf a s' hC hB

/-- The same for a step that cannot fail. -/
theorem after {B : α → State → Prop} {Q : β → γ → Generator → State → Prop}
    (hp : p.Decides trace s True B) (hf : ∀ a s', B a s' → (f a).Lowers trace s' D x g Q) :
    (p >>= f).Lowers trace s D x g Q :=
  beside hp (fun _ => trivial) fun a s' _ => hf a s'

/-- The last step, beside no code. -/
theorem of_decides {c : γ} (h : p.Decides trace s D fun a s' => R a c g s') :
    p.Lowers trace s D (pure c) g R := by
  have hc : (pure c : Gen γ).Gives g c g := Gen.gives_pure.2 ⟨rfl, rfl⟩
  exact (h.mono fun a s' hR => ⟨c, g, hc, hR⟩).congr ⟨fun hD => ⟨hD, c, g, hc⟩, fun hD => hD.1⟩

theorem discard {B : Generator → State → Prop} (h : p.Lowers trace s D x g fun _ _ => B) :
    (Functor.discard p).Lowers trace s D (Functor.discard x) g fun _ _ => B := by
  change (p >>= fun _ => pure ()).Lowers trace s D (x >>= fun _ => pure ()) g _
  exact h.bind (fun hD => hD) fun _ _ _ _ hD hB => .of_pure hD hB

theorem congr (h : p.Lowers trace s C x g R) (hCD : C ↔ D) : p.Lowers trace s D x g R := by
  rwa [← propext hCD]

variable {q : Pass α} {Q : β → γ → Generator → State → Prop}

theorem guard {c : Prop} [Decidable c] {y : SemanticCause} {t : Token} (hc : D → ¬c)
    (hp : ¬c → p.Lowers trace s D x g R) : (if c then fail y t else p).Lowers trace s D x g R :=
  Decides.guard (fun hD => hc hD.1) hp

theorem test {c : Prop} [Decidable c] {y : SemanticCause} {t : Token} (hc : D → c)
    (hp : c → p.Lowers trace s D x g R) : (if c then p else fail y t).Lowers trace s D x g R :=
  Decides.test (fun hD => hc hD.1) hp

theorem ite_pos {c : Prop} [Decidable c] (hc : c) (hp : p.Lowers trace s D x g R) :
    (if c then p else q).Lowers trace s D x g R := Decides.ite_pos hc hp

theorem ite_neg {c : Prop} [Decidable c] (hc : ¬c) (hq : q.Lowers trace s D x g R) :
    (if c then p else q).Lowers trace s D x g R := Decides.ite_neg hc hq

theorem get_bind {f : State → Pass β} (hf : (f s).Lowers trace s D x g Q) :
    (get >>= f).Lowers trace s D x g Q := Decides.get_bind hf

theorem lookahead_bind {f : Token → Pass β} (hf : (f s.lookahead).Lowers trace s D x g Q) :
    (lookahead >>= f).Lowers trace s D x g Q := Decides.lookahead_bind hf

theorem at_bind {k : Kind} {a : Attr} {f : Bool → Pass β}
    (hf : (f (s.lookahead.is k a)).Lowers trace s D x g Q) :
    (at? k a >>= f).Lowers trace s D x g Q := Decides.at_bind hf

end Pass.Lowers

/-- What stays the same while an expression or a statement is read. -/
structure Setting where
  symbols : List Symbol
  program : Text
  scope : Text
  /-- A state in which the same generators wait. -/
  base : State

namespace Setting

def table (c : Setting) : SymbolTable := ⟨c.symbols⟩

/-- The same with more declarations. -/
def extend (c : Setting) (es : List Symbol) : Setting := { c with symbols := c.symbols ++ es }

theorem extend_extend (c : Setting) (es fs : List Symbol) :
    (c.extend es).extend fs = c.extend (es ++ fs) := by
  simp [extend]

theorem extend_cons (c : Setting) (e : Symbol) (es : List Symbol) :
    c.extend (e :: es) = (c.extend [e]).extend es := by
  simp [extend]

theorem extend_nil (c : Setting) : c.extend [] = c := by
  simp [extend]

end Setting

/-- A state of the setting in which these items are still to come and this generator is at work. -/
structure Faces (c : Setting) (ahead : List Item) (g : Generator) (s : State) : Prop where
  fed : s.Fed
  input : s.input = ahead
  symbols : s.symbols = c.table
  program : s.program = c.program
  scope : s.scope = c.scope
  replaces : Replaces c.base g s

/-- The same where only tokens are still to come. -/
abbrev Stands (c : Setting) (rest : List Token) (g : Generator) (s : State) : Prop :=
  Faces c (rest.map .ok) g s

theorem Replaces.congr {s s' s'' : State} {g : Generator} (h : Replaces s g s')
    (hm : s''.main = s'.main) (hr : s''.scratch = s'.scratch) : Replaces s g s'' := by
  cases h with
  | main hs hm' hr' => exact .main hs (hm.trans hm') (hr.trans hr')
  | scratch hs hm' hr' => exact .scratch hs (hm.trans hm') (hr.trans hr')

/-- No error of the scanner comes next. -/
def Readable (more : List Item) : Prop := ∀ i, more.head? = some i → ∃ t, i = .ok t

theorem readable_map (ts : List Token) : Readable (ts.map .ok) := by
  intro i hi
  cases ts with
  | nil => cases hi
  | cons t ts =>
    cases hi
    exact ⟨t, rfl⟩

namespace Faces

variable {c : Setting} {ahead more : List Item} {g g' : Generator} {s s' : State} {t : Token}

theorem refl (h : s.Fed) :
    Faces ⟨s.symbols.symbols, s.program, s.scope, s⟩ s.input s.current s :=
  ⟨h, rfl, rfl, rfl, rfl, .of_eq rfl rfl⟩

theorem current (h : Faces c ahead g s) : s.current = g := h.replaces.current

theorem lookahead_eq (h : Faces c (.ok t :: more) g s) :
    s.lookahead = t ∧ s.lookahead.kind ≠ .eof ∧ s.feed.items = more := by
  have hin := h.input
  unfold State.input at hin
  split at hin
  · cases hin
  · rename_i hk
    rw [List.cons.injEq, Except.ok.injEq] at hin
    exact ⟨hin.1, hk, hin.2⟩

theorem is_eq (h : Faces c (.ok t :: more) g s) (k : Kind) (a : Attr) :
    s.lookahead.is k a = t.is k a := by
  rw [h.lookahead_eq.1]

theorem kind_eof (h : Faces c [] g s) : s.lookahead.kind = .eof := by
  have hin := h.input
  unfold State.input at hin
  split at hin
  · assumption
  · cases hin

theorem scanned (h : Faces c (.ok t :: more) g s) : t.Scanned := by
  obtain ⟨rfl, hk, -⟩ := h.lookahead_eq
  exact h.fed.scanned hk

/-- A state that takes over the feed and the lookahead. -/
theorem moved {c' : Setting} (h : Faces c ahead g s) (hfeed : s'.feed = s.feed)
    (hlook : s'.lookahead = s.lookahead) (hsymbols : s'.symbols = c'.table)
    (hprogram : s'.program = c'.program) (hscope : s'.scope = c'.scope)
    (hreplaces : Replaces c'.base g' s') : Faces c' ahead g' s' := by
  refine ⟨⟨?_, ?_, ?_⟩, ?_, hsymbols, hprogram, hscope, hreplaces⟩
  · rw [hfeed]
    exact h.fed.final
  · rw [hfeed]
    exact h.fed.items
  · rw [hlook]
    exact h.fed.lookahead
  · rw [State.input, hlook, hfeed]
    exact h.input

theorem setCurrent (h : Faces c ahead g s) (g' : Generator) : Faces c ahead g' (s.setCurrent g') := by
  have hsame : (s.setCurrent g').feed = s.feed ∧ (s.setCurrent g').lookahead = s.lookahead ∧
      (s.setCurrent g').symbols = s.symbols ∧ (s.setCurrent g').program = s.program ∧
      (s.setCurrent g').scope = s.scope := by
    unfold State.setCurrent
    split <;> exact ⟨rfl, rfl, rfl, rfl, rfl⟩
  obtain ⟨hf, hl, hs, hp, hc⟩ := hsame
  exact h.moved hf hl (hs.trans h.symbols) (hp.trans h.program) (hc.trans h.scope)
    (h.replaces.trans (.setCurrent s g'))

end Faces

namespace Pass

variable {α β γ : Type} {trace : Bool} {c : Setting} {ahead more : List Item} {rest : List Token}
  {g : Generator} {s : State} {t : Token} {D : Prop} {v : Value}

theorem enter_faces (p : Production) (h : Faces c ahead g s) :
    (enter p).Decides trace s True fun _ => Faces c ahead g := by
  cases trace with
  | false => exact .of_gives (a := ()) rfl h
  | true =>
    exact .of_gives (a := ()) rfl
      (h.moved rfl rfl h.symbols h.program h.scope (h.replaces.congr rfl rfl))

/-- A token is taken unless an error of the scanner comes next. -/
theorem advance_faces (h : Faces c (.ok t :: more) g s) (hm : Readable more) :
    advance.Decides trace s True fun _ => Faces c more g := by
  obtain ⟨rfl, hk, hitems⟩ := h.lookahead_eq
  have hrun := run_advance trace s
  cases more with
  | nil =>
    have hnext : s.feed.next = (.ok s.feed.final, s.feed) := by simp [Feed.next, hitems]
    rw [hnext] at hrun
    refine .of_gives hrun ⟨⟨h.fed.final, h.fed.items, .inl h.fed.final⟩, ?_, h.symbols, h.program,
      h.scope, h.replaces.congr rfl rfl⟩
    simp [State.input, h.fed.final]
  | cons i more =>
    obtain ⟨u, rfl⟩ := hm i rfl
    have hnext : s.feed.next = (.ok u, { s.feed with items := more }) := by simp [Feed.next, hitems]
    rw [hnext] at hrun
    have hu : u.Scanned := h.fed.items u (by simp [hitems])
    have hmore : ∀ t : Token, .ok t ∈ more → t.Scanned := by
      intro t ht
      apply h.fed.items
      rw [hitems]
      exact List.mem_cons_of_mem _ ht
    refine .of_gives hrun ⟨⟨h.fed.final, hmore, .inr hu⟩, ?_, h.symbols, h.program, h.scope,
      h.replaces.congr rfl rfl⟩
    simp [State.input, hu.kind_ne_eof]

theorem expect_faces {k : Kind} {a : Attr} (h : Faces c (.ok t :: more) g s) (ht : t.is k a = true)
    (hm : Readable more) : (expect k a).Decides trace s True fun _ => Faces c more g :=
  .at_bind (.ite_pos (by rw [h.is_eq, ht]) (advance_faces h hm))

theorem advance_stands (h : Stands c (t :: rest) g s) :
    advance.Decides trace s True fun _ => Stands c rest g := advance_faces h (readable_map rest)

theorem expect_stands {k : Kind} {a : Attr} (h : Stands c (t :: rest) g s) (ht : t.is k a = true) :
    (expect k a).Decides trace s True fun _ => Stands c rest g :=
  expect_faces h ht (readable_map rest)

theorem expectIdentifier_stands (h : Stands c (t :: rest) g s) (ht : t.kind = .identifier) :
    expectIdentifier.Decides trace s True fun u s' => u = t ∧ Stands c rest g s' := by
  have hlook := h.lookahead_eq.1
  refine .lookahead_bind (.ite_pos (by rw [hlook]; exact ht) ?_)
  exact (advance_stands h).after fun _ s' h' => .of_pure trivial ⟨hlook, h'⟩

theorem generate_faces {x : Gen α} (h : Faces c ahead g s) :
    (generate x).Lowers trace s True x g fun a b g' s' => a = b ∧ Faces c ahead g' s' := by
  have hcurrent := h.current
  refine ⟨fun ⟨_, a, g', hx⟩ => ?_, fun a s' ha => ?_⟩
  · refine ⟨a, s.setCurrent g', gives_generate.2 ⟨g', ?_, rfl⟩, a, g', hx, rfl, h.setCurrent g'⟩
    rw [hcurrent]
    exact hx
  · obtain ⟨g', hx, -⟩ := gives_generate.1 ha
    rw [hcurrent] at hx
    exact ⟨trivial, a, g', hx⟩

/-- The last step of a piece of code, whatever it answers. -/
theorem generate_ends {x : Gen α} (h : Faces c ahead g s) :
    (generate x).Lowers trace s True x g fun _ _ => Faces c ahead :=
  (generate_faces h).mono fun _ _ _ _ h' => h'.2

/-- A step of code generation, which is a step of the code. -/
theorem Lowers.generate_bind {δ : Type} {x : Gen α} {f : α → Pass β} {k : α → Gen δ}
    {Q : β → δ → Generator → State → Prop} (h : Faces c ahead g s)
    (hf : ∀ a g' s', Faces c ahead g' s' → (f a).Lowers trace s' D (k a) g' Q) :
    (generate x >>= f).Lowers trace s D (x >>= k) g Q := by
  refine (generate_faces h).bind (fun _ => trivial) fun a b g' s' _ hab => ?_
  obtain ⟨rfl, h'⟩ := hab
  exact hf a g' s' h'

/-- A value is used up by one line. -/
theorem consume_faces {f : Int → Line} (h : Faces c ahead g s) :
    (consume v fun r => put (f r)).Lowers trace s True (Source.consume v.id f) g
      fun _ _ => Faces c ahead := by
  refine .generate_bind h fun r g₁ s₁ h₁ => ?_
  refine .generate_bind h₁ fun _ g₂ s₂ h₂ => ?_
  exact generate_ends h₂

/-- A part that leaves no code is read with a fresh generator, if that can generate its code; the generator before it
waits. -/
theorem suppress_stands {p : Pass α} {x : Gen γ} {rest' : List Token} (h : Stands c rest g s)
    (hx : ∃ b g', x.Gives {} b g')
    (hp : ∀ b s', Stands { c with base := b } rest {} s' →
      p.Lowers trace s' D x {} fun _ _ => Stands { c with base := b } rest') :
    (suppress p).Decides trace s D fun _ => Stands c rest' g := by
  have hfresh : Stands { c with base := { s with scratch := {} :: s.scratch } } rest {}
      { s with scratch := {} :: s.scratch } :=
    h.moved rfl rfl h.symbols h.program h.scope (.of_eq rfl rfl)
  have hp := (hp _ _ hfresh).decides hx
  refine ⟨fun hD => ?_, fun a s' h' => ?_⟩
  · obtain ⟨a, u, hu, -, g', -, hs⟩ := hp.gives hD
    refine ⟨a, _, gives_within.2 ⟨u, hu, rfl⟩, ⟨⟨hs.fed.final, hs.fed.items, hs.fed.lookahead⟩,
      hs.input, hs.symbols, hs.program, hs.scope, ?_⟩⟩
    -- only the fresh generator was replaced; below it all is as it was
    cases hs.replaces with
    | main hscratch _ _ => cases hscratch
    | scratch hscratch hm hr =>
      cases hscratch
      exact h.replaces.congr hm (congrArg List.tail hr)
  · obtain ⟨u, hu, -⟩ := gives_within.1 h'
    exact hp.holds a u hu

/-- Declarations in a scope of their own. -/
theorem inScope_stands {p : Pass α} {scope : Text} {es : List Symbol} {rest' : List Token}
    (h : Stands c rest g s)
    (hp : ∀ s', Stands { c with scope } rest g s' →
      p.Decides trace s' D fun _ => Stands (Setting.extend { c with scope } es) rest' g) :
    (inScope scope p).Decides trace s D fun _ => Stands (c.extend es) rest' g := by
  have hinner : Stands { c with scope } rest g { s with scope } :=
    h.moved rfl rfl h.symbols h.program rfl (h.replaces.congr rfl rfl)
  have hp := hp _ hinner
  refine ⟨fun hD => ?_, fun a s' h' => ?_⟩
  · obtain ⟨a, u, hu, hs⟩ := hp.gives hD
    exact ⟨a, _, gives_within.2 ⟨u, hu, rfl⟩, ⟨⟨hs.fed.final, hs.fed.items, hs.fed.lookahead⟩,
      hs.input, hs.symbols, hs.program, h.scope, hs.replaces.congr rfl rfl⟩⟩
  · obtain ⟨u, hu, -⟩ := gives_within.1 h'
    exact hp.holds a u hu

end Pass

end OnePass.Compiler
