import OnePass.Proofs.Compiler.Allocation
import OnePass.Proofs.Compiler.Recognition

namespace OnePass.Compiler

open Assembly

namespace State

/-- All generators that are at work or wait. -/
def generators (s : State) : List Generator := s.main :: s.scratch

theorem mem_setCurrent {s : State} {g k : Generator} (h : k ∈ (s.setCurrent g).generators) :
    k = g ∨ k ∈ s.generators := by
  unfold setCurrent generators at *
  cases hs : s.scratch with
  | nil =>
    simp only [hs, List.mem_cons] at h ⊢
    exact h.imp_right .inr
  | cons x xs =>
    simp only [hs, List.mem_cons] at h ⊢
    rcases h with h | h | h
    · exact .inr (.inl h)
    · exact .inl h
    · exact .inr (.inr (.inr h))

end State

/-- From `s` to `s'` at most the current generator has changed, to `g`. -/
inductive Replaces (s : State) (g : Generator) (s' : State) : Prop where
  | main (hs : s.scratch = []) (hm : s'.main = g) (hr : s'.scratch = [])
  | scratch {k : Generator} {ks : List Generator} (hs : s.scratch = k :: ks) (hm : s'.main = s.main)
      (hr : s'.scratch = g :: ks)

namespace Replaces

variable {s s' s'' : State} {g g' : Generator}

theorem of_eq (hm : s'.main = s.main) (hr : s'.scratch = s.scratch) :
    Replaces s s.current s' := by
  unfold State.current
  cases hs : s.scratch with
  | nil => exact .main hs hm (hr.trans hs)
  | cons k ks => exact .scratch hs hm (hr.trans hs)

theorem setCurrent (s : State) (g : Generator) : Replaces s g (s.setCurrent g) := by
  unfold State.setCurrent
  cases hs : s.scratch with
  | nil => exact .main hs rfl rfl
  | cons k ks => exact .scratch hs rfl rfl

theorem current (h : Replaces s g s') : s'.current = g := by
  cases h with
  | main _ hm hr =>
    rw [State.current, hr, hm]
    rfl
  | scratch _ _ hr =>
    rw [State.current, hr]
    rfl

theorem trans (h : Replaces s g s') (k : Replaces s' g' s'') : Replaces s g' s'' := by
  cases h with
  | main hs _ hr =>
    cases k with
    | main _ km kr => exact .main hs km kr
    | scratch ks _ _ =>
      rw [hr] at ks
      cases ks
  | scratch hs hm hr =>
    cases k with
    | main ks _ _ =>
      rw [hr] at ks
      cases ks
    | scratch ks km kr =>
      rw [hr] at ks
      cases ks
      exact .scratch hs (km.trans hm) kr

end Replaces

namespace Pass

variable {α β : Type}

/-- A single action beside code generation, which begins no statement. -/
inductive Basic : {α : Type} → Pass α → Prop where
  | pure {α : Type} (a : α) : Basic (pure a : Pass α)
  | throw {α : Type} {e : CompileError} (he : ∀ x, e ≠ .internal (.register x)) :
      Basic (throw e : Pass α)
  | get : Basic (get : Pass State)
  | enter {p : Production} (hp : p ≠ .stmt) : Basic (enter p)
  | advance : Basic advance
  | declare (t : Token) (scope : Text) (type : ExprType) (position : Int) :
      Basic (declare t scope type position)
  | giveType (type : ExprType) :
      Basic (modify fun s => { s with symbols := s.symbols.patch type }.report
        (.patch type s.symbols.unknowns) : Pass Unit)
  | name (x : Text) : Basic (modify fun s => { s with program := x, scope := x } : Pass Unit)

/-- The run of a compilation step goes through states all of whose generators have the property `I`; every
statement in it begins with a current generator that has the property `J`, and if it succeeds it
ends with one. The steps in between are those of code generation and single actions beside it. -/
inductive Throughout (I J : Generator → Prop) : {α : Type} → Pass α → State → Prop where
  | aside {α : Type} {p : Pass α} {s : State} (hs : ∀ g ∈ s.generators, I g) (hp : p.Basic) :
      Throughout I J p s
  | generate {α : Type} {x : Gen α} {s : State} (hs : ∀ g ∈ s.generators, I g)
      (hx : x.Throughout I s.current) : Throughout I J (generate x) s
  | bind {α β : Type} {p : Pass α} {f : α → Pass β} {s : State} (hp : Throughout I J p s)
      (hf : ∀ trace a s', p.Gives trace s a s' → Throughout I J (f a) s') :
      Throughout I J (p >>= f) s
  | suppress {α : Type} {p : Pass α} {s : State}
      (hp : Throughout I J p { s with scratch := {} :: s.scratch }) :
      Throughout I J (suppress p) s
  | inScope {α : Type} {p : Pass α} {s : State} {scope : Text}
      (hp : Throughout I J p { s with scope }) : Throughout I J (inScope scope p) s
  | stmt {n : Nat} {q : Pass Unit} {s : State} (heq : stmt n = enter .stmt >>= fun _ => q)
      (hs : J s.current)
      (hq : ∀ trace s', (enter .stmt).Gives trace s () s' → Throughout I J q s')
      (hend : ∀ trace s', (Pass.stmt n).Gives trace s () s' → J s'.current) :
      Throughout I J (Pass.stmt n) s

/-- The run leaves the generators alone, and does not fail for want of a register. -/
structure Aside (s : State) (r : Except CompileError α × State) : Prop where
  main : r.2.main = s.main
  scratch : r.2.scratch = s.scratch
  fed : s.Fed → r.2.Fed
  error : ∀ x, r.1 ≠ .error (.internal (.register x))

theorem Aside.of_ok {a : α} {s s' : State} (hmain : s'.main = s.main) (hscratch : s'.scratch = s.scratch)
    (hfed : s.Fed → s'.Fed) : Aside s (.ok a, s') :=
  ⟨hmain, hscratch, hfed, fun _ h => by cases h⟩

theorem aside_enter (p : Production) (trace : Bool) (s : State) :
    Aside s ((enter p).run { trace } s) := by
  cases trace with
  | false => exact .of_ok rfl rfl fun h => h
  | true => exact .of_ok rfl rfl fun h => ⟨h.final, h.items, h.lookahead⟩

theorem aside_advance (trace : Bool) (s : State) : Aside s (advance.run { trace } s) := by
  rw [run_advance]
  cases hi : s.feed.items with
  | nil =>
    simp only [Feed.next, hi]
    exact .of_ok rfl rfl fun h => ⟨h.final, h.items, .inl h.final⟩
  | cons i is =>
    simp only [Feed.next, hi]
    have hrest : s.Fed → ∀ t, .ok t ∈ is → t.Scanned := by
      intro h t ht
      exact h.items t (by rw [hi]; exact List.mem_cons_of_mem _ ht)
    cases i with
    | ok t =>
      refine .of_ok rfl rfl fun h => ⟨h.final, hrest h, .inr ?_⟩
      exact h.items t (by rw [hi]; exact List.mem_cons_self)
    | error e => exact ⟨rfl, rfl, fun h => ⟨h.final, hrest h, h.lookahead⟩, fun _ h => by cases h⟩

theorem aside_declare (t : Token) (scope : Text) (type : ExprType) (position : Int) (trace : Bool)
    (s : State) : Aside s ((declare t scope type position).run { trace } s) := by
  simp only [declare, run_bind, run_get]
  split
  · exact ⟨rfl, rfl, fun h => h, fun _ h => by cases h⟩
  · exact .of_ok rfl rfl fun h => ⟨h.final, h.items, h.lookahead⟩

theorem Basic.aside {p : Pass α} (h : p.Basic) (trace : Bool) (s : State) :
    Aside s (p.run { trace } s) := by
  cases h with
  | pure a => exact .of_ok rfl rfl fun h => h
  | throw he =>
    refine ⟨rfl, rfl, fun h => h, fun x hx => ?_⟩
    exact he x (Except.error.inj hx)
  | get => exact .of_ok rfl rfl fun h => h
  | @enter p hp => exact aside_enter p trace s
  | advance => exact aside_advance trace s
  | declare t scope type position => exact aside_declare t scope type position trace s
  | giveType type => exact .of_ok rfl rfl fun h => ⟨h.final, h.items, h.lookahead⟩
  | name x => exact .of_ok rfl rfl fun h => ⟨h.final, h.items, h.lookahead⟩

theorem enter_gives (p : Production) (trace : Bool) (s : State) :
    ∃ s', (enter p).Gives trace s () s' := by
  cases trace with
  | false => exact ⟨s, rfl⟩
  | true => exact ⟨_, rfl⟩

namespace Throughout

variable {I J I' J' : Generator → Prop} {p : Pass α} {s : State}

theorem final (h : p.Throughout I J s) (trace : Bool) :
    ∀ g ∈ (p.run { trace } s).2.generators, I g := by
  induction h with
  | @aside α p s hs hp =>
    have h := hp.aside trace s
    unfold State.generators at *
    rw [h.main, h.scratch]
    exact hs
  | @generate α x s hs hx =>
    have hlast := hx.final
    have hrun : ((Pass.generate x).run { trace } s).2 = s.setCurrent (x.run.run s.current).2 := by
      rw [run_generate]
      cases x.run.run s.current with
      | mk r g => cases r <;> rfl
    rw [hrun]
    intro g hg
    rcases State.mem_setCurrent hg with rfl | hg
    · exact hlast
    · exact hs g hg
  | @bind α β p f s hp hf ihp ihf =>
    rw [run_bind]
    cases hrun : p.run { trace } s with
    | mk r s1 =>
      rw [hrun] at ihp
      cases r with
      | ok a => exact ihf trace a s1 hrun
      | error e => exact ihp
  | @suppress α p s hp ih =>
    intro g hg
    rcases List.mem_cons.1 hg with rfl | hg
    · exact ih _ List.mem_cons_self
    · exact ih g (List.mem_cons_of_mem _ (List.mem_of_mem_tail hg))
  | @inScope α p s scope hp ih => exact ih
  | @stmt n q s heq hs hq hend ih =>
    obtain ⟨s1, h1⟩ := enter_gives .stmt trace s
    have hrun : (enter .stmt).run { trace } s = (.ok (), s1) := h1
    rw [heq, run_bind, hrun]
    exact ih trace s1 h1

theorem mono (h : p.Throughout I J s) (hI : ∀ g, I g → I' g) (hJ : ∀ g, J g → J' g) :
    p.Throughout I' J' s := by
  induction h with
  | aside hs hp => exact .aside (fun g hg => hI g (hs g hg)) hp
  | generate hs hx => exact .generate (fun g hg => hI g (hs g hg)) (hx.mono hI)
  | bind _ _ ihp ihf => exact .bind ihp ihf
  | suppress _ ih => exact .suppress ih
  | inScope _ ih => exact .inScope ih
  | stmt heq hs _ hend ih =>
    exact .stmt heq (hJ _ hs) ih fun trace s' h => hJ _ (hend trace s' h)

end Throughout

/-- How a run may end: with the current generator replaced by one for which `R` holds, or with an error that
is no fault of the registers. -/
def Ends (s : State) (R : α → Generator → Prop) (r : Except CompileError α × State) : Prop :=
  match r.1 with
  | .ok a => r.2.Fed ∧ ∃ g, Replaces s g r.2 ∧ R a g
  | .error e => ∀ x, e ≠ .internal (.register x)

theorem ends_trans {s s' : State} {g : Generator} {R : α → Generator → Prop}
    {r : Except CompileError α × State} (h : Replaces s g s') (hr : Ends s' R r) : Ends s R r := by
  unfold Ends at *
  split at hr
  · obtain ⟨hfed, g', hrep, hR⟩ := hr
    exact ⟨hfed, g', h.trans hrep, hR⟩
  · exact hr

theorem run_within (start : State → State) (finish : State → State → State) (p : Pass α)
    (o : Options) (s : State) :
    (within start finish p).run o s =
      ((p.run o (start s)).1, finish s (p.run o (start s)).2) := rfl

theorem Aside.ends {s : State} {r : Except CompileError α × State} (h : Aside s r) (hs : s.Fed)
    {A : Generator → Prop} (hA : A s.current) : Ends s (fun _ => A) r := by
  unfold Ends
  split
  · exact ⟨h.fed hs, s.current, .of_eq h.main h.scratch, hA⟩
  · rename_i e he
    intro x hx
    exact h.error x (he.trans (congrArg Except.error hx))

theorem Basic.ends {p : Pass α} (h : p.Basic) (trace : Bool) {s : State} (hs : s.Fed)
    {A : Generator → Prop} (hA : A s.current) : Ends s (fun _ => A) (p.run { trace } s) :=
  (h.aside trace s).ends hs hA

end Pass

end OnePass.Compiler
