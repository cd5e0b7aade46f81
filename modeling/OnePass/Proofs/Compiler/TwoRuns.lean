import OnePass.Proofs.Compiler.Course

namespace OnePass.Compiler

open Assembly

/-- Relations of tokens, of characters that are no tokens and of listings, which no step can tell. -/
structure Likeness where
  token : Token → Token → Prop
  lexical : LexError → LexError → Prop
  listing : Listing → Listing → Prop
  kind {t u : Token} : token t u → t.kind = u.kind
  attr {t u : Token} : token t u → t.attr = u.attr
  lexeme {t u : Token} : token t u → t.lexeme = u.lexeme
  put {l m : Listing} (line : Line) : listing l m → listing (l.put line) (m.put line)
  newLabel {l m : Listing} (stem : Text) : listing l m →
    (l.newLabel stem).1 = (m.newLabel stem).1 ∧ listing (l.newLabel stem).2 (m.newLabel stem).2
  newSpill {l m : Listing} : listing l m →
    l.newSpill.1 = m.newSpill.1 ∧ listing l.newSpill.2 m.newSpill.2
  spills {l m : Listing} : listing l m → l.spills = m.spills

/-- Both succeed with related answers, or both fail with related errors. -/
inductive Related {ε α : Type} (E : ε → ε → Prop) (V : α → α → Prop) :
    Except ε α → Except ε α → Prop where
  | ok {a b : α} (h : V a b) : Related E V (.ok a) (.ok b)
  | error {e f : ε} (h : E e f) : Related E V (.error e) (.error f)

namespace Likeness

variable (L : Likeness)

inductive Item : OnePass.Item → OnePass.Item → Prop where
  | ok {t u : Token} (h : L.token t u) : Item (.ok t) (.ok u)
  | error {e f : LexError} (h : L.lexical e f) : Item (.error e) (.error f)

inductive Event : Compiler.Event → Compiler.Event → Prop where
  | enter {p : Production} {t u : Token} (h : L.token t u) : Event (.enter p t) (.enter p u)
  | install {s : Symbol} : Event (.install s) (.install s)
  | patch {type : ExprType} {n : Nat} : Event (.patch type n) (.patch type n)

inductive Error : CompileError → CompileError → Prop where
  | lexical {e f : LexError} (h : L.lexical e f) : Error (.lexical e) (.lexical f)
  | unexpected {x : Expectation} {t u : Token} (h : L.token t u) :
      Error (.unexpected x t) (.unexpected x u)
  | extraTokens {t u : Token} (h : L.token t u) : Error (.extraTokens t) (.extraTokens u)
  | semantic {c : SemanticCause} {t u : Token} (h : L.token t u) :
      Error (.semantic c t) (.semantic c u)
  | internal {c : InternalCause} : Error (.internal c) (.internal c)
  | outputFull : Error .outputFull .outputFull

structure Value (v w : Compiler.Value) : Prop where
  id : v.id = w.id
  type : v.type = w.type
  start : L.token v.start w.start

structure Generator (g h : Compiler.Generator) : Prop where
  listing : L.listing g.listing h.listing
  pool : g.pool = h.pool
  operands : g.operands = h.operands
  live : g.live = h.live

structure Feed (f g : OnePass.Feed) : Prop where
  items : List.Forall₂ L.Item f.items g.items
  final : L.token f.final g.final

/-- States that are alike, with this many parts being checked that leave no code. -/
structure State (depth : Nat) (s t : Compiler.State) : Prop where
  feed : L.Feed s.feed t.feed
  delivered : s.delivered = t.delivered
  lookahead : L.token s.lookahead t.lookahead
  symbols : s.symbols = t.symbols
  main : L.Generator s.main t.main
  scratch : s.scratch = t.scratch
  depth : s.scratch.length = depth
  program : s.program = t.program
  scope : s.scope = t.scope
  events : List.Forall₂ L.Event s.events.toList t.events.toList

/-- From generators that are alike both actions give related answers, and generators that are alike. -/
def Generates {α : Type} (V : α → α → Prop) (x y : Gen α) : Prop :=
  ∀ g h, L.Generator g h →
    Related Eq V (x.run.run g).1 (y.run.run h).1 ∧ L.Generator (x.run.run g).2 (y.run.run h).2

/-- From states that are alike both steps give related answers, and states that are alike. -/
def Mirrors {α : Type} (depth : Nat) (V : α → α → Prop) (p q : Pass α) : Prop :=
  ∀ o s t, L.State depth s t →
    Related L.Error V (p.run o s).1 (q.run o t).1 ∧ L.State depth (p.run o s).2 (q.run o t).2

variable {L} {d : Nat} {α β : Type} {V : α → α → Prop} {W : β → β → Prop}

namespace Generates

theorem bind {x y : Gen α} {f f' : α → Gen β} (hx : L.Generates V x y)
    (hf : ∀ a b, V a b → L.Generates W (f a) (f' b)) : L.Generates W (x >>= f) (y >>= f') := by
  intro g h hgh
  have hrun := hx g h hgh
  rw [Gen.run_bind, Gen.run_bind]
  cases hg : x.run.run g with
  | mk r g' =>
    cases hh : y.run.run h with
    | mk r' h' =>
      rw [hg, hh] at hrun
      obtain ⟨hr, hgen⟩ := hrun
      cases hr with
      | ok hv => exact hf _ _ hv g' h' hgen
      | error he => exact ⟨.error he, hgen⟩

theorem after {x y : Gen α} {f f' : α → Gen β} (hx : L.Generates Eq x y)
    (hf : ∀ a, L.Generates W (f a) (f' a)) : L.Generates W (x >>= f) (y >>= f') := by
  apply hx.bind
  intro a b hab
  rw [hab]
  exact hf b

theorem of_pure {a b : α} (h : V a b) : L.Generates V (pure a) (pure b) :=
  fun _ _ hgh => ⟨.ok h, hgh⟩

theorem of_throw (e : RegisterError) : L.Generates V (throw e) (throw e) :=
  fun _ _ hgh => ⟨.error rfl, hgh⟩

theorem of_get : L.Generates L.Generator get get := fun _ _ hgh => ⟨.ok hgh, hgh⟩

theorem of_set {g h : Compiler.Generator} (hgh : L.Generator g h) :
    L.Generates Eq (set g) (set h) := fun _ _ _ => ⟨.ok rfl, hgh⟩

theorem of_modify {f : Compiler.Generator → Compiler.Generator}
    (h : ∀ g g', L.Generator g g' → L.Generator (f g) (f g')) :
    L.Generates Eq (modify f) (modify f) := fun g g' hgg => ⟨.ok rfl, h g g' hgg⟩

theorem of_put (l : Line) : L.Generates Eq (Gen.put l) (Gen.put l) :=
  of_modify fun _ _ h => ⟨L.put l h.listing, h.pool, h.operands, h.live⟩

theorem of_newLabel (stem : String) : L.Generates Eq (Gen.newLabel stem) (Gen.newLabel stem) := by
  intro g h hgh
  obtain ⟨hname, hlisting⟩ := L.newLabel stem hgh.listing
  exact ⟨.ok hname, hlisting, hgh.pool, hgh.operands, hgh.live⟩

theorem of_newSpill : L.Generates Eq Gen.newSpill Gen.newSpill := by
  intro g h hgh
  obtain ⟨hname, hlisting⟩ := L.newSpill hgh.listing
  exact ⟨.ok hname, hlisting, hgh.pool, hgh.operands, hgh.live⟩

theorem of_newValue (o : Operand) : L.Generates Eq (Gen.newValue o) (Gen.newValue o) := by
  intro g h hgh
  have hsize : g.operands.size = h.operands.size := by rw [hgh.operands]
  have hpush : g.operands.push o = h.operands.push o := by rw [hgh.operands]
  exact ⟨.ok hsize, hgh.listing, hgh.pool, hpush, hgh.live⟩

theorem of_operand (v : Nat) : L.Generates Eq (Gen.operand v) (Gen.operand v) := by
  apply of_get.bind
  intro g h hgh
  rw [hgh.operands]
  exact of_pure rfl

theorem of_setOperand (v : Nat) (o : Operand) :
    L.Generates Eq (Gen.setOperand v o) (Gen.setOperand v o) :=
  of_modify fun g h hgh => ⟨hgh.listing, hgh.pool, by rw [hgh.operands], hgh.live⟩

theorem of_release (v : Nat) : L.Generates Eq (Gen.release v) (Gen.release v) := by
  apply (of_operand v).after
  intro o
  cases o with
  | register r =>
    apply of_get.bind
    intro g h hgh
    rw [hgh.pool]
    cases h.pool.free r with
    | ok pool => exact of_set ⟨hgh.listing, rfl, hgh.operands, by rw [hgh.live]⟩
    | error e => exact of_throw e
  | immediate n => exact of_pure rfl
  | memory x => exact of_pure rfl

theorem of_spill (v : Nat) : L.Generates Eq (Gen.spill v) (Gen.spill v) := by
  apply (of_operand v).after
  intro o
  cases o with
  | register r =>
    apply of_newSpill.after
    intro name
    apply (of_put _).after
    intro _
    apply (of_release v).after
    intro _
    exact of_setOperand v _
  | immediate n => exact of_pure rfl
  | memory x => exact of_pure rfl

theorem of_makeRoom : L.Generates Eq Gen.makeRoom Gen.makeRoom := by
  apply of_get.bind
  intro g h hgh
  rw [hgh.pool, hgh.live]
  split
  · cases h.live with
    | nil => exact of_pure rfl
    | cons v vs => exact of_spill v
  · exact of_pure rfl

theorem of_claim : L.Generates Eq Gen.claim Gen.claim := by
  apply of_get.bind
  intro g h hgh
  rw [hgh.pool]
  cases h.pool.allocate with
  | ok r =>
    have hset : L.Generator { g with pool := r.2 } { h with pool := r.2 } :=
      ⟨hgh.listing, rfl, hgh.operands, hgh.live⟩
    exact (of_set hset).after fun _ => of_pure rfl
  | error e => exact of_throw e

theorem of_load (v : Nat) (o : Operand) : L.Generates Eq (Gen.load v o) (Gen.load v o) := by
  apply of_claim.after
  intro r
  apply (of_put _).after
  intro _
  apply (of_setOperand v _).after
  intro _
  have hlive : L.Generates Eq (modify fun g => { g with live := v :: g.live })
      (modify fun g => { g with live := v :: g.live }) :=
    of_modify fun g h hgh => ⟨hgh.listing, hgh.pool, hgh.operands, by rw [hgh.live]⟩
  exact hlive.after fun _ => of_pure rfl

theorem of_materialize (v : Nat) : L.Generates Eq (Gen.materialize v) (Gen.materialize v) := by
  rw [Gen.materialize_eq]
  apply (of_operand v).after
  intro o
  cases o with
  | register r => exact of_pure rfl
  | immediate n => exact of_makeRoom.after fun _ => of_load v _
  | memory x => exact of_makeRoom.after fun _ => of_load v _

theorem of_combine (m : Mnemonic) (v w : Nat) :
    L.Generates Eq (Gen.combine m v w) (Gen.combine m v w) := by
  apply (of_materialize v).after
  intro r
  apply (of_operand w).after
  intro o
  apply (of_put _).after
  intro _
  exact (of_release w).after fun _ => of_pure rfl

theorem of_disjoin (v w : Nat) : L.Generates Eq (Gen.disjoin v w) (Gen.disjoin v w) := by
  apply (of_combine .add v w).after
  intro r
  apply (of_newLabel "done").after
  intro done
  apply (of_put _).after
  intro _
  exact (of_put _).after fun _ => of_put _

/-- Lines put one after the other. -/
theorem of_forIn {γ : Type} (xs : List γ) (line : γ → Line) :
    L.Generates Eq
      (forIn xs PUnit.unit fun x _ => do Gen.put (line x); pure (ForInStep.yield PUnit.unit))
      (forIn xs PUnit.unit fun x _ => do Gen.put (line x); pure (ForInStep.yield PUnit.unit)) := by
  induction xs with
  | nil => exact of_pure rfl
  | cons x xs ih =>
    rw [List.forIn_cons, bind_assoc]
    apply (of_put _).after
    intro _
    rw [pure_bind]
    exact ih

theorem of_compare (op : Attr) (v w : Nat) :
    L.Generates Eq (Gen.compare op v w) (Gen.compare op v w) := by
  apply (of_combine .sub v w).after
  intro r
  apply (of_newLabel "false").after
  intro no
  apply (of_newLabel "done").after
  intro done
  apply (of_forIn (Gen.refutations op) fun m => .branch m r no).after
  intro _
  apply (of_put _).after
  intro _
  apply (of_put _).after
  intro _
  apply (of_put _).after
  intro _
  exact (of_put _).after fun _ => of_put _

end Generates

theorem is_eq {t u : Token} (h : L.token t u) (k : Kind) (a : Attr) : t.is k a = u.is k a := by
  unfold Token.is
  rw [L.kind h, L.attr h]

namespace Mirrors

theorem bind {p q : Pass α} {f f' : α → Pass β} (hp : L.Mirrors d V p q)
    (hf : ∀ a b, V a b → L.Mirrors d W (f a) (f' b)) : L.Mirrors d W (p >>= f) (q >>= f') := by
  intro o s t hst
  have hrun := hp o s t hst
  rw [Pass.run_bind, Pass.run_bind]
  cases hs : p.run o s with
  | mk r s' =>
    cases ht : q.run o t with
    | mk r' t' =>
      rw [hs, ht] at hrun
      obtain ⟨hr, hstate⟩ := hrun
      cases hr with
      | ok hv => exact hf _ _ hv o s' t' hstate
      | error he => exact ⟨.error he, hstate⟩

theorem after {p q : Pass α} {f f' : α → Pass β} (hp : L.Mirrors d Eq p q)
    (hf : ∀ a, L.Mirrors d W (f a) (f' a)) : L.Mirrors d W (p >>= f) (q >>= f') := by
  apply hp.bind
  intro a b hab
  rw [hab]
  exact hf b

theorem ite {c c' : Prop} [Decidable c] [Decidable c'] {p q p' q' : Pass α} (hcc : c ↔ c')
    (hp : L.Mirrors d V p p') (hq : L.Mirrors d V q q') :
    L.Mirrors d V (if c then p else q) (if c' then p' else q') := by
  by_cases hc : c
  · rw [if_pos hc, if_pos (hcc.1 hc)]
    exact hp
  · rw [if_neg hc, if_neg fun hc' => hc (hcc.2 hc')]
    exact hq

theorem of_pure {a b : α} (h : V a b) : L.Mirrors d V (pure a) (pure b) :=
  fun _ _ _ hst => ⟨.ok h, hst⟩

theorem of_throw {e f : CompileError} (h : L.Error e f) :
    L.Mirrors d V (throw e : Pass α) (throw f) := fun _ _ _ hst => ⟨.error h, hst⟩

theorem of_get : L.Mirrors d (L.State d) (get : Pass Compiler.State) get :=
  fun _ _ _ hst => ⟨.ok hst, hst⟩

theorem of_modify {f f' : Compiler.State → Compiler.State}
    (h : ∀ s t, L.State d s t → L.State d (f s) (f' t)) :
    L.Mirrors d Eq (modify f : Pass Unit) (modify f') := fun _ s t hst => ⟨.ok rfl, h s t hst⟩

theorem of_fail (c : SemanticCause) {t u : Token} (h : L.token t u) :
    L.Mirrors d V (Pass.fail c t : Pass α) (Pass.fail c u) := of_throw (.semantic h)

end Mirrors

theorem Feed.next {f g : OnePass.Feed} (h : L.Feed f g) :
    L.Item f.next.1 g.next.1 ∧ L.Feed f.next.2 g.next.2 := by
  obtain ⟨is, t⟩ := f
  obtain ⟨js, u⟩ := g
  obtain ⟨hitems, hfinal⟩ := h
  cases hitems with
  | nil => exact ⟨.ok hfinal, .nil, hfinal⟩
  | cons hitem hrest => exact ⟨hitem, hrest, hfinal⟩

namespace State

variable {s t : Compiler.State}

theorem report {e f : Compiler.Event} (h : L.State d s t) (hef : L.Event e f) :
    L.State d (s.report e) (t.report f) := by
  have hevents : List.Forall₂ L.Event (s.events.push e).toList (t.events.push f).toList := by
    simp only [Array.toList_push]
    exact List.rel_append h.events (.cons hef .nil)
  exact { h with events := hevents }

theorem reclaim (h : L.State d s t) (rs : List Int) : L.State d (s.reclaim rs) (t.reclaim rs) := by
  have hmain : L.Generator (s.reclaim rs).main (t.reclaim rs).main :=
    ⟨h.main.listing, by simp only [Compiler.State.reclaim, h.main.pool], h.main.operands, h.main.live⟩
  exact { h with main := hmain }

/-- The generators that take code have the same spill words. -/
theorem spills (h : L.State d s t) : s.current.listing.spills = t.current.listing.spills := by
  unfold State.current
  rw [h.scratch]
  cases t.scratch with
  | nil => exact L.spills h.main.listing
  | cons g gs => rfl

/-- Behind the next item of the feed. -/
theorem taken {f g : OnePass.Feed} (h : L.State d s t) (hfg : L.Feed f g) :
    L.State d { s with feed := f, delivered := s.delivered + 1 }
      { t with feed := g, delivered := t.delivered + 1 } := by
  have hdelivered : s.delivered + 1 = t.delivered + 1 := by rw [h.delivered]
  exact { h with feed := hfg, delivered := hdelivered }

theorem declare (h : L.State d s t) (x : Symbol) :
    L.State d ({ s with symbols := s.symbols.install x }.report (.install x))
      ({ t with symbols := t.symbols.install x }.report (.install x)) := by
  have hsymbols : L.State d { s with symbols := s.symbols.install x }
      { t with symbols := t.symbols.install x } := { h with symbols := by rw [h.symbols] }
  exact hsymbols.report .install

/-- Both runs begin a part that leaves no code. -/
theorem suppressed (h : L.State d s t) :
    L.State (d + 1) { s with scratch := {} :: s.scratch } { t with scratch := {} :: t.scratch } :=
  { h with scratch := by rw [h.scratch], depth := congrArg (· + 1) h.depth }

theorem inScope (h : L.State d s t) (scope : Text) : L.State d { s with scope } { t with scope } :=
  { h with scope := rfl }

theorem giveType (h : L.State d s t) (type : ExprType) :
    L.State d ({ s with symbols := s.symbols.patch type }.report (.patch type s.symbols.unknowns))
      ({ t with symbols := t.symbols.patch type }.report (.patch type t.symbols.unknowns)) := by
  have hsymbols : L.State d { s with symbols := t.symbols.patch type }
      { t with symbols := t.symbols.patch type } := { h with symbols := rfl }
  rw [h.symbols]
  exact hsymbols.report .patch

end State

namespace Mirrors

theorem of_set {s t : Compiler.State} (h : L.State d s t) :
    L.Mirrors d Eq (set s : Pass Unit) (set t) := fun _ _ _ _ => ⟨.ok rfl, h⟩

theorem of_read : L.Mirrors d Eq (read : Pass Options) read := fun _ _ _ hst => ⟨.ok rfl, hst⟩

theorem of_enter (p : Production) : L.Mirrors d Eq (Pass.enter p) (Pass.enter p) := by
  apply of_read.after
  intro o
  apply ite Iff.rfl
  · exact of_modify fun s t hst => hst.report (.enter hst.lookahead)
  · exact of_pure rfl

theorem of_advance : L.Mirrors d Eq Pass.advance Pass.advance := by
  apply of_read.after
  intro o
  apply of_get.bind
  intro s t hst
  dsimp only
  rw [hst.delivered]
  have hfreed := hst.reclaim (o.reclaim t.delivered)
  have hnext := hst.feed.next
  have hs : (s.reclaim (o.reclaim t.delivered)).feed = s.feed := rfl
  have ht : (t.reclaim (o.reclaim t.delivered)).feed = t.feed := rfl
  rw [hs, ht]
  cases hf : s.feed.next with
  | mk item feed =>
    cases hg : t.feed.next with
    | mk item' feed' =>
      rw [hf, hg] at hnext
      obtain ⟨hitem, hfeed⟩ := hnext
      have htaken := hfreed.taken hfeed
      cases hitem with
      | ok htu => exact of_set { htaken with lookahead := htu }
      | error he => exact (of_set htaken).after fun _ => of_throw (.lexical he)

theorem of_declare {t u : Token} (htu : L.token t u) (scope : Text) (type : ExprType)
    (position : Int) :
    L.Mirrors d Eq (Pass.declare t scope type position) (Pass.declare u scope type position) := by
  apply of_get.bind
  intro s s' hss
  rw [L.lexeme htu]
  apply ite (by rw [hss.symbols])
  · exact of_fail _ htu
  · exact of_set (hss.declare _)

theorem of_generate {x : Gen α} (hx : L.Generates Eq x x) :
    L.Mirrors d Eq (Pass.generate x) (Pass.generate x) := by
  intro o s t hst
  rw [Pass.run_generate, Pass.run_generate]
  cases hs : s.scratch with
  | nil =>
    have ht : t.scratch = [] := by rw [← hst.scratch, hs]
    have hscur : s.current = s.main := by simp [State.current, hs]
    have htcur : t.current = t.main := by simp [State.current, ht]
    have hrun := hx s.main t.main hst.main
    rw [hscur, htcur]
    cases hr : x.run.run s.main with
    | mk r g =>
      cases hr' : x.run.run t.main with
      | mk r' g' =>
        rw [hr, hr'] at hrun
        obtain ⟨hres, hgen⟩ := hrun
        have hset : L.State d (s.setCurrent g) (t.setCurrent g') := by
          simp only [State.setCurrent, hs, ht]
          exact { hst with main := hgen, scratch := rfl, depth := by rw [← hst.depth, hs] }
        cases hres with
        | ok hab => exact ⟨.ok hab, hset⟩
        | error he =>
          rw [he]
          exact ⟨.error .internal, hset⟩
  | cons g gs =>
    -- in a suppressed part both runs have one and the same generator
    have ht : t.scratch = g :: gs := by rw [← hst.scratch, hs]
    have hscur : s.current = g := by simp [State.current, hs]
    have htcur : t.current = g := by simp [State.current, ht]
    rw [hscur, htcur]
    cases hr : x.run.run g with
    | mk r g' =>
      have hset : L.State d (s.setCurrent g') (t.setCurrent g') := by
        simp only [State.setCurrent, hs, ht]
        exact { hst with scratch := rfl, depth := by rw [← hst.depth, hs]; rfl }
      cases r with
      | ok a => exact ⟨.ok rfl, hset⟩
      | error e => exact ⟨.error .internal, hset⟩

end Mirrors

/-- Runs that write the same: only tokens and characters that are none may differ. -/
def sameOutput (token : Token → Token → Prop) (lexical : LexError → LexError → Prop)
    (kind : ∀ {t u}, token t u → t.kind = u.kind) (attr : ∀ {t u}, token t u → t.attr = u.attr)
    (lexeme : ∀ {t u}, token t u → t.lexeme = u.lexeme) : Likeness where
  token
  lexical
  listing := Eq
  kind
  attr
  lexeme
  put line h := congrArg (Listing.put · line) h
  newLabel stem h := by
    rw [h]
    exact ⟨rfl, rfl⟩
  newSpill h := by
    rw [h]
    exact ⟨rfl, rfl⟩
  spills h := congrArg Listing.spills h

/-- One run beside itself. -/
def same : Likeness :=
  sameOutput Eq Eq (congrArg Token.kind ·) (congrArg Token.attr ·) (congrArg Token.lexeme ·)

theorem same_forall₂ {α : Type} {R : α → α → Prop} (h : ∀ a, R a a) (as : List α) :
    List.Forall₂ R as as := List.forall₂_same.2 fun a _ => h a

theorem Value.same (v : Compiler.Value) : Likeness.same.Value v v := ⟨rfl, rfl, rfl⟩

theorem State.same (s : Compiler.State) : Likeness.same.State s.scratch.length s s where
  feed := ⟨same_forall₂ (fun i => by cases i <;> constructor <;> rfl) _, rfl⟩
  delivered := rfl
  lookahead := rfl
  symbols := rfl
  main := ⟨rfl, rfl, rfl, rfl⟩
  scratch := rfl
  depth := rfl
  program := rfl
  scope := rfl
  events := same_forall₂ (fun e => by cases e <;> constructor; rfl) _

end Likeness

end OnePass.Compiler
