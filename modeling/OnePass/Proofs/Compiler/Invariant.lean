import OnePass.Proofs.Compiler.Steps

namespace OnePass.Compiler.Pass

/-- The run from a state comes to states with the property `I` only: the one where it starts, and each one that
is set on the way. -/
inductive Always (I : State → Prop) (o : Options) : {α : Type} → Pass α → State → Prop where
  | pure {α : Type} {a : α} {s : State} (hs : I s) : Always I o (pure a) s
  | throw {α : Type} {e : CompileError} {s : State} (hs : I s) : Always I o (throw e : Pass α) s
  | get {s : State} (hs : I s) : Always I o get s
  | read {s : State} (hs : I s) : Always I o read s
  | set {s s' : State} (hs : I s) (hs' : I s') : Always I o (set s') s
  | modify {f : State → State} {s : State} (hs : I s) (hs' : I (f s)) : Always I o (modify f) s
  | bind {α β : Type} {p : Pass α} {f : α → Pass β} {s : State} (hp : Always I o p s)
      (hf : ∀ a s', p.run o s = (.ok a, s') → Always I o (f a) s') : Always I o (p >>= f) s
  | within {α : Type} {p : Pass α} {start : State → State} {finish : State → State → State}
      {s : State} (hs : I s) (hp : Always I o p (start s))
      (hfinish : I (finish s (p.run o (start s)).2)) : Always I o (within start finish p) s

variable {α : Type}

theorem Always.final {I : State → Prop} {o : Options} {p : Pass α} {s : State}
    (h : p.Always I o s) : I (p.run o s).2 := by
  induction h with
  | pure hs => exact hs
  | throw hs => exact hs
  | get hs => exact hs
  | read hs => exact hs
  | set _ hs' => exact hs'
  | modify _ hs' => exact hs'
  | @bind α β p f s _ _ ihp ihf =>
    rw [run_bind]
    cases hrun : p.run o s with
    | mk r s' =>
      rw [hrun] at ihp
      cases r with
      | ok a => exact ihf a s' hrun
      | error e => exact ihp
  | within _ _ hfinish => exact hfinish

/-- What holds of the table and the events, whatever a step of a compilation does to them. -/
structure Kept (I : SymbolTable → List Event → Prop) : Prop where
  enter {t : SymbolTable} {es : List Event} (p : Production) (u : Token) (h : I t es) :
    I t (es ++ [.enter p u])
  install {t : SymbolTable} {es : List Event} (x : Symbol) (h : I t es)
    (hx : t.declared x.id x.scope = false) : I (t.install x) (es ++ [.install x])
  patch {t : SymbolTable} {es : List Event} (type : ExprType) (h : I t es) :
    I (t.patch type) (es ++ [.patch type t.unknowns])

/-- The property as one of states. -/
def On (I : SymbolTable → List Event → Prop) (s : State) : Prop := I s.symbols s.events.toList

variable {I : SymbolTable → List Event → Prop} {o : Options} {s : State}

theorem on_report {e : Event} {t : SymbolTable} (h : I t (s.events.toList ++ [e])) :
    On I ({ s with symbols := t }.report e) := by
  unfold On State.report
  rw [Array.toList_push]
  exact h

theorem always_enter (hI : Kept I) (p : Production) (hs : On I s) :
    (enter p).Always (On I) o s := by
  refine .bind (.read hs) fun o' s' hread => ?_
  cases hread
  by_cases htrace : o.trace = true
  · rw [if_pos htrace]
    exact .modify hs (on_report (hI.enter p s.lookahead hs))
  · rw [if_neg htrace]
    exact .pure hs

theorem always_advance (hs : On I s) : advance.Always (On I) o s := by
  refine .bind (.read hs) fun o' s₁ hread => .bind ?_ fun s₂ s₃ hget => ?_
  · cases hread
    exact .get hs
  · cases hread
    cases hget
    generalize hnext : (s.reclaim (o.reclaim s.delivered)).feed.next = r
    obtain ⟨item, feed⟩ := r
    dsimp only
    rw [hnext]
    -- whatever the item is, neither the table nor the events are touched
    cases item with
    | ok t => exact .set hs hs
    | error e =>
      refine .bind (.set hs hs) fun u s' hset => ?_
      cases hset
      exact .throw hs

theorem always_declare (hI : Kept I) (t : Token) (scope : Text) (type : ExprType) (position : Int)
    (hs : On I s) : (declare t scope type position).Always (On I) o s := by
  refine .bind (.get hs) fun s₁ s₂ hget => ?_
  cases hget
  by_cases hd : s.symbols.declared t.lexeme scope = true
  · rw [if_pos hd]
    exact .throw hs
  · rw [if_neg hd]
    exact .set hs (on_report (hI.install ⟨t.lexeme, scope, position, type⟩ hs (by simpa using hd)))

theorem on_setCurrent (hs : On I s) (g : Generator) : On I (s.setCurrent g) := by
  unfold State.setCurrent
  split <;> exact hs

theorem always_generate (x : Gen α) (hs : On I s) : (generate x).Always (On I) o s := by
  refine .bind (.get hs) fun s₁ s₂ hget => ?_
  cases hget
  refine .bind (.set hs (on_setCurrent hs _)) fun u s' hset => ?_
  cases hset
  cases (x.run.run s.current).1 with
  | ok a => exact .pure (on_setCurrent hs _)
  | error e => exact .throw (on_setCurrent hs _)

/-- What every step keeps holds at every point of what is composed. -/
theorem always_of_composed {K : Terms} {d : Nat} {A : Generator → Prop} {V : α → α → Prop}
    {p q : Pass α} {B : α → Generator → Prop} {t : State} (h : Composed K d A V p q B)
    (hK : ¬K.tracked) (hI : Kept I) (hst : K.like.State d s t) (hs : On I s) :
    p.Always (On I) o s := by
  induction h generalizing s t with
  | pure _ _ => exact .pure hs
  | throw _ _ => exact .throw hs
  | get => exact .get hs
  | enter _ => exact always_enter hI _ hs
  | advance _ => exact always_advance hs
  | declare _ scope type position => exact always_declare hI _ scope type position hs
  | giveType type => exact .modify hs (on_report (hI.patch type hs))
  | name _ => exact .modify hs hs
  | generate _ => exact always_generate _ hs
  | bind hp _ ihp ihf =>
    refine .bind (ihp hst hs) fun a s' hrun => ?_
    obtain ⟨b, t', hab, hst', -⟩ := hp.answer hst (fun h => absurd h hK) hrun
    have hlast := (ihp hst hs).final
    rw [hrun] at hlast
    exact ihf a b hab hst' hlast
  | suppress _ ih =>
    have hinner := ih hst.suppressed (s := { s with scratch := {} :: s.scratch }) hs
    exact .within hs hinner hinner.final
  | inScope scope _ ih =>
    have hinner := ih (hst.inScope scope) (s := { s with scope }) hs
    exact .within hs hinner hinner.final
  | stmt heq _ ih =>
    rw [heq]
    have henter := always_enter (o := o) hI .stmt hs
    refine .bind henter fun a s' hrun => ?_
    have hst' := (Likeness.Mirrors.of_enter .stmt o s t hst).2
    have hlast := henter.final
    rw [hrun] at hst' hlast
    exact ih hst' hlast

end OnePass.Compiler.Pass
