import OnePass.Proofs.Compiler.TwoRuns
import OnePass.Proofs.Compiler.Writing

namespace OnePass.Compiler

open Assembly Generator

/-- What the steps of a part of a compilation may do. -/
structure Terms where
  /-- What no step can tell apart. -/
  like : Likeness
  /-- Values in use are kept track of; then the tokens are those of a scanner. -/
  tracked : Prop
  /-- Items may be taken. -/
  takes : Prop
  /-- The errors that may be found. -/
  error : CompileError → Prop
  notRegister (x : RegisterError) : ¬error (.internal (.register x))
  notEnd (t : Token) : ¬error (.extraTokens t)
  /-- The lines that may be put. -/
  line : Line → Prop
  /-- The names that the program may be given. -/
  name : Text → Prop

/-- Code generation as one step: in two runs it does the same, and while values are kept track of it leads from
generators with `A` to answers with `Q` and generators with `B`. -/
structure Terms.Generates {α : Type} (K : Terms) (A : Generator → Prop) (x : Gen α) (Q : α → Prop)
    (B : α → Generator → Prop) : Prop where
  alike : K.like.Generates Eq x x
  writes : x.Writes K.line
  works : K.tracked → ∀ g, A g → x.Works g fun a g' => Q a ∧ B a g'

open Pass in
/-- What parts of a compilation are made of, told for two runs at once. Each step leads from current generators with
one property to those with another, and gives answers that are related. At the given depth as many parts are
being checked that leave no code. -/
inductive Composed (K : Terms) : {α : Type} → Nat → (Generator → Prop) → (α → α → Prop) → Pass α →
    Pass α → (α → Generator → Prop) → Prop where
  | pure {α : Type} {d : Nat} {A : Generator → Prop} {V : α → α → Prop} {a b : α}
      {B : α → Generator → Prop} (h : V a b) (hA : K.tracked → ∀ g, A g → B a g) :
      Composed K d A V (pure a) (pure b) B
  | throw {α : Type} {d : Nat} {A : Generator → Prop} {V : α → α → Prop} {e f : CompileError}
      {B : α → Generator → Prop} (h : K.like.Error e f) (he : K.error e) :
      Composed K d A V (throw e) (throw f) B
  | get {d : Nat} {A : Generator → Prop} :
      Composed K d A (fun s t => K.like.State d s t ∧ (K.tracked → s.lookahead.Plausible)) get get
        fun _ => A
  | enter {d : Nat} {A : Generator → Prop} {p : Production} (hp : p ≠ .stmt) :
      Composed K d A Eq (enter p) (enter p) fun _ => A
  | advance {d : Nat} {A : Generator → Prop} (h : K.takes) :
      Composed K d A Eq advance advance fun _ => A
  | declare {d : Nat} {A : Generator → Prop} {t u : Token} (h : K.like.token t u) (scope : Text)
      (type : ExprType) (position : Int) :
      Composed K d A Eq (declare t scope type position) (declare u scope type position) fun _ => A
  | giveType {d : Nat} {A : Generator → Prop} (type : ExprType) :
      Composed K d A Eq
        (modify fun s => { s with symbols := s.symbols.patch type }.report
          (.patch type s.symbols.unknowns))
        (modify fun s => { s with symbols := s.symbols.patch type }.report
          (.patch type s.symbols.unknowns)) fun _ => A
  | name {d : Nat} {A : Generator → Prop} {x : Text} (hx : K.name x) :
      Composed K d A Eq (modify fun s => { s with program := x, scope := x })
        (modify fun s => { s with program := x, scope := x }) fun _ => A
  | generate {α : Type} {d : Nat} {A : Generator → Prop} {x : Gen α} {Q : α → Prop}
      {B : α → Generator → Prop} (h : K.Generates A x Q B) :
      Composed K d A (fun a b => a = b ∧ (K.tracked → Q a)) (generate x) (generate x) B
  | bind {α β : Type} {d : Nat} {A : Generator → Prop} {V : α → α → Prop} {W : β → β → Prop}
      {p q : Pass α} {f f' : α → Pass β} {B : α → Generator → Prop} {C : β → Generator → Prop}
      (hp : Composed K d A V p q B) (hf : ∀ a b, V a b → Composed K d (B a) W (f a) (f' b) C) :
      Composed K d A W (p >>= f) (q >>= f') C
  | suppress {α : Type} {d : Nat} {A : Generator → Prop} {V : α → α → Prop} {p q : Pass α}
      {B : α → Generator → Prop} (hp : Composed K (d + 1) (Fit []) V p q B) :
      Composed K d A V (suppress p) (suppress q) fun _ => A
  | inScope {α : Type} {d : Nat} {A : Generator → Prop} {V : α → α → Prop} {p q : Pass α}
      {B : α → Generator → Prop} (scope : Text) (hp : Composed K d A V p q B) :
      Composed K d A V (inScope scope p) (inScope scope q) B
  | stmt {d n : Nat} {q : Pass Unit} (heq : stmt n = enter .stmt >>= fun _ => q)
      (hq : Composed K d (Fit []) Eq q q fun _ => Fit []) :
      Composed K d (Fit []) Eq (stmt n) (stmt n) fun _ => Fit []

namespace Pass

variable {α β : Type} {K : Terms} {d : Nat} {A : Generator → Prop} {V : α → α → Prop} {p q : Pass α}
  {B : α → Generator → Prop}

/-- What is asked of the start of a run while values are kept track of. -/
structure Orderly (A : Generator → Prop) (o : Options) (s : State) : Prop where
  options : ∃ trace, o = { trace }
  fed : s.Fed
  current : A s.current

/-- From states that are alike both runs give related answers, and states that are alike; while values are kept track
of, the first run ends well. -/
def Runs (K : Terms) (d : Nat) (A : Generator → Prop) (V : α → α → Prop) (p q : Pass α)
    (B : α → Generator → Prop) : Prop :=
  ∀ o s t, K.like.State d s t → (K.tracked → Orderly A o s) →
    Related K.like.Error V (p.run o s).1 (q.run o t).1 ∧
      K.like.State d (p.run o s).2 (q.run o t).2 ∧ (K.tracked → Ends s B (p.run o s))

namespace Runs

/-- A single action that is the same in both runs. -/
theorem of_basic (hlike : K.like.Mirrors d V p q) (hp : K.tracked → p.Basic) :
    Runs K d A V p q fun _ => A := by
  intro o s t hst horderly
  obtain ⟨hr, hstate⟩ := hlike o s t hst
  refine ⟨hr, hstate, fun htracked => ?_⟩
  obtain ⟨⟨trace, rfl⟩, hfed, hA⟩ := horderly htracked
  exact (hp htracked).ends trace hfed hA

theorem bind {W : β → β → Prop} {f f' : α → Pass β} {C : β → Generator → Prop}
    (hp : Runs K d A V p q B) (hf : ∀ a b, V a b → Runs K d (B a) W (f a) (f' b) C) :
    Runs K d A W (p >>= f) (q >>= f') C := by
  intro o s t hst horderly
  have hfirst := hp o s t hst horderly
  rw [run_bind, run_bind]
  cases hs : p.run o s with
  | mk r s' =>
    cases ht : q.run o t with
    | mk r' t' =>
      rw [hs, ht] at hfirst
      obtain ⟨hr, hstate, hends⟩ := hfirst
      cases hr with
      | error he => exact ⟨.error he, hstate, hends⟩
      | @ok a b hab =>
        have hrest := hf a b hab o s' t' hstate fun htracked => by
          obtain ⟨hfed, g, hreplaces, hB⟩ := hends htracked
          exact ⟨(horderly htracked).options, hfed, hreplaces.current ▸ hB⟩
        refine ⟨hrest.1, hrest.2.1, fun htracked => ?_⟩
        obtain ⟨-, g, hreplaces, -⟩ := hends htracked
        exact ends_trans hreplaces (hrest.2.2 htracked)

theorem generate {x : Gen α} {Q : α → Prop} (h : K.Generates A x Q B) :
    Runs K d A (fun a b => a = b ∧ (K.tracked → Q a)) (generate x) (generate x) B := by
  intro o s t hst horderly
  obtain ⟨hr, hstate⟩ := Likeness.Mirrors.of_generate h.alike o s t hst
  have hworks : K.tracked → ∃ a g, (Pass.generate x).run o s = (.ok a, s.setCurrent g) ∧ Q a ∧ B a g := by
    intro htracked
    obtain ⟨-, a, g, hx, hQ, hB⟩ := h.works htracked s.current (horderly htracked).current
    have hrun : x.run.run s.current = (.ok a, g) := hx
    exact ⟨a, g, by rw [run_generate, hrun], hQ, hB⟩
  refine ⟨?_, hstate, fun htracked => ?_⟩
  · cases hs : (Pass.generate x).run o s with
    | mk r s' =>
      cases ht : (Pass.generate x).run o t with
      | mk r' t' =>
        rw [hs, ht] at hr
        cases hr with
        | error he => exact .error he
        | ok hab =>
          refine .ok ⟨hab, fun htracked => ?_⟩
          obtain ⟨a, g, hrun, hQ, -⟩ := hworks htracked
          rw [hs] at hrun
          cases hrun
          exact hQ
  · obtain ⟨a, g, hrun, -, hB⟩ := hworks htracked
    rw [hrun]
    have hfed := (horderly htracked).fed
    refine ⟨?_, g, .setCurrent s g, hB⟩
    change (s.setCurrent g).Fed
    unfold State.setCurrent
    split <;> exact ⟨hfed.final, hfed.items, hfed.lookahead⟩

/-- A part that leaves no code works with a fresh generator. -/
theorem suppress (h : Runs K (d + 1) (Fit []) V p q B) :
    Runs K d A V (suppress p) (suppress q) fun _ => A := by
  intro o s t hst horderly
  have hinner := h o _ _ hst.suppressed fun htracked =>
    have hfed := (horderly htracked).fed
    ⟨(horderly htracked).options, ⟨hfed.final, hfed.items, hfed.lookahead⟩, Fit.empty⟩
  rw [Pass.suppress, Pass.suppress, run_within, run_within]
  obtain ⟨hr, hend, hends⟩ := hinner
  have hdepth := hend.depth
  refine ⟨hr, { hend with scratch := by rw [hend.scratch], depth := by simp [hdepth] }, fun htracked => ?_⟩
  have hlast := hends htracked
  cases hrun : p.run o { s with scratch := {} :: s.scratch } with
  | mk r s1 =>
    rw [hrun] at hlast
    cases r with
    | error e => exact hlast
    | ok a =>
      obtain ⟨hfed, g, hreplaces, -⟩ := hlast
      refine ⟨⟨hfed.final, hfed.items, hfed.lookahead⟩, s.current, ?_, (horderly htracked).current⟩
      cases hreplaces with
      | main hs _ _ => cases hs
      | scratch hs hm hr =>
        cases hs
        exact .of_eq hm (congrArg List.tail hr)

theorem inScope (scope : Text) (h : Runs K d A V p q B) :
    Runs K d A V (inScope scope p) (inScope scope q) B := by
  intro o s t hst horderly
  have hinner := h o _ _ (hst.inScope scope) fun htracked =>
    have hfed := (horderly htracked).fed
    ⟨(horderly htracked).options, ⟨hfed.final, hfed.items, hfed.lookahead⟩, (horderly htracked).current⟩
  rw [Pass.inScope, Pass.inScope, run_within, run_within]
  obtain ⟨hr, hend, hends⟩ := hinner
  refine ⟨hr, { hend with scope := hst.scope }, fun htracked => ?_⟩
  have hlast := hends htracked
  cases hrun : p.run o { s with scope } with
  | mk r s1 =>
    rw [hrun] at hlast
    cases r with
    | error e => exact hlast
    | ok a =>
      obtain ⟨hfed, g, hreplaces, hB⟩ := hlast
      refine ⟨⟨hfed.final, hfed.items, hfed.lookahead⟩, g, ?_, hB⟩
      cases hreplaces with
      | main hs hm hr => exact .main hs hm hr
      | scratch hs hm hr => exact .scratch hs hm hr

theorem of_enter (x : Production) : Runs K d A Eq (enter x) (enter x) fun _ => A := by
  intro o s t hst horderly
  obtain ⟨hr, hstate⟩ := Likeness.Mirrors.of_enter x o s t hst
  refine ⟨hr, hstate, fun htracked => ?_⟩
  obtain ⟨⟨trace, rfl⟩, hfed, hA⟩ := horderly htracked
  exact (aside_enter x trace s).ends hfed hA

end Runs

end Pass

namespace Composed

open Pass

variable {α β : Type} {K : Terms} {d : Nat} {A : Generator → Prop} {V : α → α → Prop} {W : β → β → Prop}
  {p q : Pass α} {f f' : α → Pass β} {B : α → Generator → Prop} {C : β → Generator → Prop}

/-- What is composed runs alike in two runs, and well while values are kept track of. -/
theorem runs (h : Composed K d A V p q B) : Runs K d A V p q B := by
  induction h with
  | @pure α d A V a b B hab hA =>
    intro o s t hst horderly
    refine ⟨.ok hab, hst, fun htracked => ?_⟩
    obtain ⟨-, hfed, hcurrent⟩ := horderly htracked
    exact ⟨hfed, s.current, .of_eq rfl rfl, hA htracked _ hcurrent⟩
  | @throw α d A V e f B hef he =>
    intro o s t hst _
    refine ⟨.error hef, hst, fun _ x hx => ?_⟩
    exact K.notRegister x (hx ▸ he)
  | get =>
    intro o s t hst horderly
    refine ⟨.ok ⟨hst, fun htracked => (horderly htracked).fed.lookahead⟩, hst, fun htracked => ?_⟩
    obtain ⟨-, hfed, hcurrent⟩ := horderly htracked
    exact ⟨hfed, s.current, .of_eq rfl rfl, hcurrent⟩
  | enter _ => exact .of_enter _
  | advance _ => exact .of_basic .of_advance fun _ => .advance
  | declare htu scope type position =>
    exact .of_basic (.of_declare htu scope type position) fun _ => .declare _ scope type position
  | giveType type => exact .of_basic (.of_modify fun _ _ hst => hst.giveType type) fun _ => .giveType type
  | @name d A x _ =>
    refine .of_basic (.of_modify fun s t hst => ?_) fun _ => .name x
    exact { hst with program := rfl, scope := rfl }
  | generate h => exact .generate h
  | bind _ _ ihp ihf => exact ihp.bind ihf
  | suppress _ ih => exact ih.suppress
  | inScope scope _ ih => exact ih.inScope scope
  | stmt heq _ ih =>
    rw [heq]
    refine (Runs.of_enter .stmt).bind fun a b _ => ih

/-- Where values are not kept track of, two runs are asked for nothing but to be alike. -/
theorem mirrors (h : Composed K d A V p q B) (hK : ¬K.tracked) : K.like.Mirrors d V p q := by
  intro o s t hst
  obtain ⟨hr, hstate, -⟩ := h.runs o s t hst fun htracked => absurd htracked hK
  exact ⟨hr, hstate⟩

/-- The second run from a state that is alike, where the first one succeeds. -/
theorem answer (h : Composed K d A V p q B) {o : Options} {s t s' : State} {a : α}
    (hst : K.like.State d s t) (horderly : K.tracked → Orderly A o s) (hrun : p.run o s = (.ok a, s')) :
    ∃ b t', V a b ∧ K.like.State d s' t' ∧ (K.tracked → Orderly (B a) o s') := by
  obtain ⟨hr, hstate, hends⟩ := h.runs o s t hst horderly
  rw [hrun] at hr hstate hends
  cases ht : q.run o t with
  | mk r' t' =>
    rw [ht] at hr hstate
    cases hr with
    | ok hab =>
      refine ⟨_, t', hab, hstate, fun htracked => ?_⟩
      obtain ⟨hfed, g, hreplaces, hB⟩ := hends htracked
      exact ⟨(horderly htracked).options, hfed, hreplaces.current ▸ hB⟩

theorem after (hp : Composed K d A Eq p q B) (hf : ∀ a, Composed K d (B a) W (f a) (f' a) C) :
    Composed K d A W (p >>= f) (q >>= f') C := by
  refine .bind hp fun a b hab => ?_
  rw [hab]
  exact hf b

theorem generated {x : Gen α} {Q : α → Prop} (h : K.Generates A x Q B)
    (hf : ∀ a, (K.tracked → Q a) → Composed K d (B a) W (f a) (f' a) C) :
    Composed K d A W (Pass.generate x >>= f) (Pass.generate x >>= f') C := by
  refine .bind (.generate h) fun a b hab => ?_
  rw [← hab.1]
  exact hf a hab.2

theorem of_generate {x : Gen α} {Q : α → Prop} (h : K.Generates A x Q B) :
    Composed K d A Eq (Pass.generate x) (Pass.generate x) B := by
  have hx : Composed K d A Eq (Pass.generate x >>= Pure.pure) (Pass.generate x >>= Pure.pure) B :=
    .generated h fun a _ => .pure rfl fun _ _ hg => hg
  rwa [bind_pure] at hx

theorem ite {c c' : Prop} [Decidable c] [Decidable c'] {p' q' : Pass α} (hcc : c ↔ c')
    (hp : c → Composed K d A V p q B) (hq : ¬c → Composed K d A V p' q' B) :
    Composed K d A V (if c then p else p') (if c' then q else q') B := by
  by_cases hc : c
  · rw [if_pos hc, if_pos (hcc.1 hc)]
    exact hp hc
  · rw [if_neg hc, if_neg fun hc' => hc (hcc.2 hc')]
    exact hq hc

theorem lookahead_bind {f f' : Token → Pass β}
    (hf : ∀ t u, K.like.token t u → (K.tracked → t.Plausible) → Composed K d A W (f t) (f' u) C) :
    Composed K d A W (Pass.lookahead >>= f) (Pass.lookahead >>= f') C := by
  change Composed K d A W (MonadState.get >>= fun s => f s.lookahead)
    (MonadState.get >>= fun s => f' s.lookahead) C
  exact .bind .get fun s t hst => hf _ _ hst.1.lookahead hst.2

theorem get_bind {f f' : State → Pass β}
    (hf : ∀ s t, K.like.State d s t → Composed K d A W (f s) (f' t) C) :
    Composed K d A W (MonadState.get >>= f) (MonadState.get >>= f') C :=
  .bind .get fun s t hst => hf s t hst.1

theorem discard {B : Generator → Prop} (hp : Composed K d A V p q fun _ => B) :
    Composed K d A Eq (discard p) (discard q) fun _ => B :=
  .bind hp fun _ _ _ => .pure rfl fun _ _ hg => hg

theorem at_bind {k : Kind} {a : Attr} {f f' : Bool → Pass β}
    (hf : ∀ b, Composed K d A W (f b) (f' b) C) :
    Composed K d A W (at? k a >>= f) (at? k a >>= f') C := by
  rw [Pass.at_bind, Pass.at_bind]
  refine .lookahead_bind fun t u htu _ => ?_
  rw [Likeness.is_eq htu]
  exact hf _

end Composed

/-- Parts that find out what is wrong with the source and write the body of a program. -/
structure Terms.Working (K : Terms) : Prop where
  semantic (c : SemanticCause) (t : Token) : K.error (.semantic c t)
  line {l : Line} (h : l.inBody = true) : K.line l

/-- Parts that read the source. -/
structure Terms.Reading (K : Terms) : Prop extends K.Working where
  takes : K.takes
  unexpected (e : Expectation) (t : Token) : K.error (.unexpected e t)
  numeral (x : Text) (e : NumeralError) : K.error (.internal (.numeral x e))

namespace Terms

variable {K : Terms} {used : List Nat} {v left right : Nat}

theorem generates_put {l : Line} (hline : K.line l) (hpooled : K.tracked → l.Pooled) :
    K.Generates (Fit used) (Gen.put l) (fun _ => True) fun _ => Fit used where
  alike := .of_put l
  writes := .of_put hline
  works h _ hg := (Gen.put_works hg (hpooled h)).mono fun _ _ hfit => ⟨trivial, hfit⟩

theorem generates_newLabel (stem : String) :
    K.Generates (Fit used) (Gen.newLabel stem) (fun _ => True) fun _ => Fit used where
  alike := .of_newLabel stem
  writes := .of_newLabel stem
  works _ _ hg := (Gen.newLabel_works hg stem).mono fun _ _ hfit => ⟨trivial, hfit⟩

theorem generates_newValue {o : Operand} (ho : ∀ r, o ≠ .register r) :
    K.Generates (Fit used) (Gen.newValue o) (fun _ => True) fun v => Fit (v :: used) where
  alike := .of_newValue o
  writes := .of_newValue o
  works _ _ hg := (Gen.newValue_works hg ho).mono fun _ _ hfit => ⟨trivial, hfit⟩

theorem generates_release :
    K.Generates (Fit (v :: used)) (Gen.release v) (fun _ => True) fun _ => Fit used where
  alike := .of_release v
  writes := .of_release v
  works _ _ hg := (Gen.release_works hg).mono fun _ _ hfit => ⟨trivial, hfit⟩

theorem generates_materialize (hK : K.Working) :
    K.Generates (Fit (v :: used)) (Gen.materialize v) (fun r => ∃ i : Fin 3, r = i.val)
      fun _ => Fit (v :: used) where
  alike := .of_materialize v
  writes := (Gen.Writes.of_materialize v).mono fun _ => hK.line
  works _ _ hg := (Gen.materialize_works hg List.mem_cons_self).mono fun _ _ h => ⟨h.2, h.1⟩

theorem generates_combine (hK : K.Working) {m : Mnemonic} (hm : m ≠ .halt) :
    K.Generates (Fit (right :: left :: used)) (Gen.combine m left right) (fun _ => True)
      fun _ => Fit (left :: used) where
  alike := .of_combine m left right
  writes := (Gen.Writes.of_combine hm left right).mono fun _ => hK.line
  works _ _ hg := (Gen.combine_works hg m).mono fun _ _ h => ⟨trivial, h.1⟩

theorem generates_disjoin (hK : K.Working) :
    K.Generates (Fit (right :: left :: used)) (Gen.disjoin left right) (fun _ => True)
      fun _ => Fit (left :: used) where
  alike := .of_disjoin left right
  writes := (Gen.Writes.of_disjoin left right).mono fun _ => hK.line
  works _ _ hg := (Gen.disjoin_works hg).mono fun _ _ hfit => ⟨trivial, hfit⟩

theorem generates_compare (hK : K.Working) (op : Attr) :
    K.Generates (Fit (right :: left :: used)) (Gen.compare op left right) (fun _ => True)
      fun _ => Fit (left :: used) where
  alike := .of_compare op left right
  writes := (Gen.Writes.of_compare op left right).mono fun _ => hK.line
  works _ _ hg := (Gen.compare_works hg op).mono fun _ _ hfit => ⟨trivial, hfit⟩

/-- Steps that take nothing, and find no other errors than broken rules. -/
def inPlace : Terms where
  like := .same
  tracked := False
  takes := False
  error e := ∃ c t, e = .semantic c t
  notRegister x h := by
    obtain ⟨c, t, h⟩ := h
    cases h
  notEnd t h := by
    obtain ⟨c, t, h⟩ := h
    cases h
  line _ := True
  name _ := True

theorem inPlace_working : inPlace.Working where
  semantic c t := ⟨c, t, rfl⟩
  line _ := trivial

end Terms

namespace Pass

theorem QuietAt.within {α : Type} {o : Options} {s : State} {p : Pass α} {start : State → State}
    {finish : State → State → State} (hstart : ∀ s, Still s (start s))
    (hfinish : ∀ s s', Still s' (finish s s')) (hp : QuietAt o (start s) p) :
    QuietAt o s (within start finish p) :=
  ⟨((hstart s).trans hp.still).trans (hfinish s _), hp.blind⟩

theorem quietAt_of_composed {α : Type} {d : Nat} {A : Generator → Prop} {V : α → α → Prop}
    {p q : Pass α} {B : α → Generator → Prop} (h : Composed .inPlace d A V p q B) {o : Options}
    {s t : State} (hst : Likeness.same.State d s t) : QuietAt o s p := by
  induction h generalizing s t with
  | pure _ _ => exact Quiet.of_pure _ o s
  | throw _ he => exact Quiet.of_throw (.inl he) o s
  | get => exact Quiet.of_get o s
  | enter _ => exact Quiet.of_enter _ o s
  | advance htakes => exact htakes.elim
  | declare _ _ _ _ => exact Quiet.of_declare o s
  | giveType _ =>
    refine Quiet.of_modify (fun s => ?_) o s
    exact ⟨rfl, rfl, rfl⟩
  | name _ =>
    refine Quiet.of_modify (fun s => ?_) o s
    exact ⟨rfl, rfl, rfl⟩
  | generate _ => exact Quiet.of_generate o s
  | bind hp _ ihp ihf =>
    refine (ihp hst).bind fun a s' hrun => ?_
    obtain ⟨b, t', hab, hst', -⟩ := hp.answer hst False.elim hrun
    exact ihf a b hab hst'
  | suppress _ ih =>
    exact .within (fun _ => ⟨rfl, rfl, rfl⟩) (fun _ _ => ⟨rfl, rfl, rfl⟩) (ih hst.suppressed)
  | inScope scope _ ih =>
    exact .within (fun _ => ⟨rfl, rfl, rfl⟩) (fun _ _ => ⟨rfl, rfl, rfl⟩) (ih (hst.inScope scope))
  | stmt heq _ ih =>
    rw [heq]
    refine (Quiet.of_enter .stmt o s).bind fun a s' hrun => ?_
    have hst' := (Likeness.Mirrors.of_enter .stmt o s t hst).2
    rw [hrun] at hst'
    exact ih hst'

/-- What is composed of steps that take nothing takes nothing. -/
theorem Quiet.of_composed {α : Type} {A : Generator → Prop} {V : α → α → Prop} {p q : Pass α}
    {B : α → Generator → Prop} (h : ∀ d, Composed .inPlace d A V p q B) : Quiet p :=
  fun _ s => quietAt_of_composed (h _) (.same s)

end Pass

end OnePass.Compiler
