import Mathlib.Computability.ContextFreeGrammar

/-!
Predictive parsing of a context-free grammar with one symbol of lookahead. A parser keeps a stack of
expected symbols; a table says which rule opens a nonterminal, and it may name a rule that is taken
whatever lies ahead. If the table has the laws of `Predicts`, the parser reads exactly the words of the
grammar, and it stops at the first symbol that no word of the grammar has at that place.
-/

namespace ContextFreeGrammar

variable {T N : Type}

/-- What a rule or the stack of a parser is made of. -/
abbrev Part (T N : Type) := Symbol T N

/-- The words that a form yields. -/
inductive Yields (R : List (ContextFreeRule T N)) : List (Symbol T N) → List T → Prop where
  | nil : Yields R [] []
  | terminal {a : T} {α : List (Symbol T N)} {w : List T} (h : Yields R α w) :
      Yields R (.terminal a :: α) (a :: w)
  | nonterminal {r : ContextFreeRule T N} {α : List (Symbol T N)} {u v : List T} (hr : r ∈ R)
      (hu : Yields R r.output u) (hv : Yields R α v) :
      Yields R (.nonterminal r.input :: α) (u ++ v)

section Yields

variable {R : List (ContextFreeRule T N)} {α β : List (Symbol T N)} {u v w : List T}

theorem Yields.append (hu : Yields R α u) (hv : Yields R β v) : Yields R (α ++ β) (u ++ v) := by
  induction hu with
  | nil => exact hv
  | terminal _ ih => exact .terminal ih
  | nonterminal hr hr' _ _ ih =>
    rw [List.append_assoc]
    exact .nonterminal hr hr' ih

theorem Yields.split (h : Yields R (α ++ β) w) :
    ∃ u v, w = u ++ v ∧ Yields R α u ∧ Yields R β v := by
  induction α generalizing w with
  | nil => exact ⟨[], w, rfl, .nil, h⟩
  | cons x α ih =>
    cases h with
    | terminal h =>
      obtain ⟨u, v, rfl, hu, hv⟩ := ih h
      exact ⟨_ :: u, v, rfl, .terminal hu, hv⟩
    | nonterminal hr hr' h =>
      obtain ⟨u, v, rfl, hu, hv⟩ := ih h
      exact ⟨_, v, (List.append_assoc _ _ _).symm, .nonterminal hr hr' hu, hv⟩

theorem yields_terminals (w : List T) : Yields R (w.map .terminal) w := by
  induction w with
  | nil => exact .nil
  | cons a w ih => exact .terminal ih

/-- The rest of a form that starts with a nonterminal. -/
theorem Yields.of_rule {r : ContextFreeRule T N} (hr : r ∈ R) (h : Yields R (r.output ++ α) w) :
    Yields R (.nonterminal r.input :: α) w := by
  obtain ⟨u, v, rfl, hu, hv⟩ := h.split
  exact .nonterminal hr hu hv

end Yields

/-- Yielding is deriving: the leftmost symbols can be rewritten first. -/
theorem derives_iff_yields {g : ContextFreeGrammar T} {R : List (ContextFreeRule T g.NT)}
    (hR : ∀ r, r ∈ g.rules ↔ r ∈ R) {α : List (Symbol T g.NT)} {w : List T} :
    g.Derives α (w.map .terminal) ↔ Yields R α w := by
  constructor
  · intro h
    induction h using Relation.ReflTransGen.head_induction_on with
    | refl => exact yields_terminals w
    | head hstep _ ih =>
      obtain ⟨r, hr, hrewrites⟩ := hstep
      obtain ⟨p, q, rfl, rfl⟩ := hrewrites.exists_parts
      rw [List.append_assoc] at ih
      obtain ⟨u, v, rfl, hu, hv⟩ := ih.split
      rw [List.append_assoc]
      exact hu.append (.of_rule ((hR r).1 hr) hv)
  · intro h
    induction h with
    | nil => exact .refl []
    | @terminal a α w _ ih => exact ih.append_left [.terminal a]
    | @nonterminal r α u v hr _ _ ihu ihv =>
      have hstep : g.Produces (.nonterminal r.input :: α) (r.output ++ α) :=
        ⟨r, (hR r).2 hr, .head α⟩
      rw [List.map_append]
      exact hstep.trans_derives ((ihu.append_right α).trans (ihv.append_left _))

/-- A rule with the symbols that announce it; without such a list it is taken whatever lies ahead. -/
structure Prediction (T N : Type) extends ContextFreeRule T N where
  ahead : Option (List T)

/-- The rules of a table. -/
def rulesOf (P : List (Prediction T N)) : List (ContextFreeRule T N) :=
  P.map Prediction.toContextFreeRule

/-- What lies ahead of two words in a row. -/
theorem head?_append_or (u v : List T) (x : Option T) :
    (u ++ v).head?.or x = u.head?.or (v.head?.or x) := by
  cases u <;> simp

/-- If every nonterminal yields a word, so does every form. -/
theorem exists_yields {P : List (Prediction T N)}
    (hP : ∀ n, ∃ w, Yields (rulesOf P) [.nonterminal n] w)
    (α : List (Symbol T N)) : ∃ w, Yields (rulesOf P) α w := by
  induction α with
  | nil => exact ⟨[], .nil⟩
  | cons s α ih =>
    obtain ⟨v, hv⟩ := ih
    cases s with
    | terminal a => exact ⟨a :: v, .terminal hv⟩
    | nonterminal n =>
      obtain ⟨u, hu⟩ := hP n
      exact ⟨u ++ v, hu.append hv⟩

section Table

variable [DecidableEq T]

def Prediction.admits (p : Prediction T N) (x : Option T) : Bool :=
  match p.ahead with
  | none => true
  | some as => x.any fun a => a ∈ as

variable [DecidableEq N]

/-- How a nonterminal is opened with `x` ahead; `none` stands for the end of the input. -/
def choose (P : List (Prediction T N)) (n : N) (x : Option T) : Option (List (Symbol T N)) :=
  (P.find? fun p => p.input = n && p.admits x).map fun p => p.output

/-- The symbols that announce some rule for the nonterminal. -/
def announced (P : List (Prediction T N)) (n : N) : List T :=
  (P.filter fun p => p.input = n).flatMap fun p => p.ahead.getD []

/-- What announces no rule is as good as the end of the input. -/
theorem choose_of_not_announced {P : List (Prediction T N)} {n : N} {x : Option T}
    (h : ∀ a ∈ announced P n, x ≠ some a) : choose P n x = choose P n none := by
  have hadmits : ∀ p ∈ P, (p.input = n && p.admits x) = (p.input = n && p.admits none) := by
    intro p hp
    by_cases hn : p.input = n
    · have hx : ∀ as, p.ahead = some as → ∀ a ∈ as, x ≠ some a := by
        intro as has a ha
        refine h a (List.mem_flatMap.2 ⟨p, List.mem_filter.2 ⟨hp, by simpa using hn⟩, ?_⟩)
        rw [has]
        exact ha
      cases hahead : p.ahead with
      | none => simp [Prediction.admits, hahead]
      | some as =>
        cases x with
        | none => rfl
        | some a =>
          have ha : a ∉ as := fun hm => hx as hahead a hm rfl
          simp [Prediction.admits, hahead, ha]
    · simp [hn]
  have hfind : P.find? (fun p => p.input = n && p.admits x) =
      P.find? (fun p => p.input = n && p.admits none) := by
    clear h
    induction P with
    | nil => rfl
    | cons p P ih =>
      rw [List.find?_cons, List.find?_cons, hadmits p List.mem_cons_self,
        ih fun q hq => hadmits q (List.mem_cons_of_mem _ hq)]
  rw [choose, choose, hfind]

/-- The parser takes the word off the input and the stack off itself; `x` is what lies behind the word. -/
inductive Scans (P : List (Prediction T N)) : List (Symbol T N) → List T → Option T → Prop where
  | nil {x : Option T} : Scans P [] [] x
  | shift {a : T} {α : List (Symbol T N)} {u : List T} {x : Option T} (h : Scans P α u x) :
      Scans P (.terminal a :: α) (a :: u) x
  | expand {n : N} {α β : List (Symbol T N)} {u : List T} {x : Option T}
      (hc : choose P n (u.head?.or x) = some β) (h : Scans P (β ++ α) u x) :
      Scans P (.nonterminal n :: α) u x

/-- The parser takes the word and cannot go on with `x` ahead. -/
inductive Sticks (P : List (Prediction T N)) : List (Symbol T N) → List T → Option T → Prop where
  | terminal {a : T} {α : List (Symbol T N)} {x : Option T} (h : x ≠ some a) :
      Sticks P (.terminal a :: α) [] x
  | nonterminal {n : N} {α : List (Symbol T N)} {x : Option T} (h : choose P n x = none) :
      Sticks P (.nonterminal n :: α) [] x
  | shift {a : T} {α : List (Symbol T N)} {u : List T} {x : Option T} (h : Sticks P α u x) :
      Sticks P (.terminal a :: α) (a :: u) x
  | expand {n : N} {α β : List (Symbol T N)} {u : List T} {x : Option T}
      (hc : choose P n (u.head?.or x) = some β) (h : Sticks P (β ++ α) u x) :
      Sticks P (.nonterminal n :: α) u x

variable {P : List (Prediction T N)} {α β : List (Symbol T N)} {u v w : List T} {x y : Option T}

theorem mem_rulesOf_of_choose {n : N} (h : choose P n x = some β) : ⟨n, β⟩ ∈ rulesOf P := by
  obtain ⟨p, hp, rfl⟩ := Option.map_eq_some_iff.1 h
  have hn : p.input = n := by
    have hfound := List.find?_some hp
    simp only [Bool.and_eq_true, decide_eq_true_eq] at hfound
    exact hfound.1
  subst hn
  exact List.mem_map.2 ⟨p, List.mem_of_find?_eq_some hp, rfl⟩

theorem Scans.append (hu : Scans P α u (v.head?.or x)) (hv : Scans P β v x) :
    Scans P (α ++ β) (u ++ v) x := by
  generalize hy : v.head?.or x = y at hu
  induction hu with
  | nil => exact hv
  | shift _ ih => exact .shift (ih hy)
  | expand hc _ ih =>
    have ih := ih hy
    rw [List.append_assoc] at ih
    refine .expand ?_ ih
    rw [head?_append_or, hy]
    exact hc

theorem Sticks.append_right (h : Sticks P α u x) (β : List (Symbol T N)) :
    Sticks P (α ++ β) u x := by
  induction h with
  | terminal h => exact .terminal h
  | nonterminal h => exact .nonterminal h
  | shift _ ih => exact .shift ih
  | expand hc _ ih =>
    rw [List.append_assoc] at ih
    exact .expand hc ih

theorem Scans.sticks (hu : Scans P α u (v.head?.or x)) (hv : Sticks P β v x) :
    Sticks P (α ++ β) (u ++ v) x := by
  generalize hy : v.head?.or x = y at hu
  induction hu with
  | nil => exact hv
  | shift _ ih => exact .shift (ih hy)
  | expand hc _ ih =>
    have ih := ih hy
    rw [List.append_assoc] at ih
    refine .expand ?_ ih
    rw [head?_append_or, hy]
    exact hc

/-- What is read derives from the stack. -/
theorem Scans.yields (h : Scans P α u x) : Yields (rulesOf P) α u := by
  induction h with
  | nil => exact .nil
  | shift _ ih => exact .terminal ih
  | @expand n α β _ _ hc _ ih => exact Yields.of_rule (r := ⟨n, β⟩) (mem_rulesOf_of_choose hc) ih

/-- The parser as a program: whether it takes the whole word within so many steps. -/
def accepts (P : List (Prediction T N)) : Nat → List (Symbol T N) → List T → Bool
  | _, [], w => w.isEmpty
  | 0, _ :: _, _ => false
  | _ + 1, .terminal _ :: _, [] => false
  | n + 1, .terminal a :: α, b :: w => a = b && accepts P n α w
  | n + 1, .nonterminal m :: α, w =>
    match choose P m w.head? with
    | none => false
    | some β => accepts P n (β ++ α) w

theorem scans_of_accepts {n : Nat} (h : accepts P n α w = true) : Scans P α w none := by
  fun_induction accepts P n α w with
  | case1 _ w =>
    rw [List.isEmpty_iff.1 h]
    exact .nil
  | case2 | case3 | case5 => cases h
  | case4 n a α b w ih =>
    simp only [Bool.and_eq_true, decide_eq_true_eq] at h
    rw [h.1]
    exact .shift (ih h.2)
  | case6 n m α w β hc ih => exact .expand (by rwa [Option.or_none]) (ih h)

/-- What is read before the parser sticks can be completed. -/
theorem Sticks.viable (hP : ∀ n, ∃ w, Yields (rulesOf P) [.nonterminal n] w)
    (h : Sticks P α u x) : ∃ w, Yields (rulesOf P) α (u ++ w) := by
  induction h with
  | @terminal a α _ _ => exact exists_yields hP (.terminal a :: α)
  | @nonterminal n α _ _ => exact exists_yields hP (.nonterminal n :: α)
  | shift _ ih =>
    obtain ⟨w, hw⟩ := ih
    exact ⟨w, .terminal hw⟩
  | @expand n α β _ _ hc _ ih =>
    obtain ⟨w, hw⟩ := ih
    exact ⟨w, Yields.of_rule (r := ⟨n, β⟩) (mem_rulesOf_of_choose hc) hw⟩

/-- The parser looks one symbol ahead: where it sticks, it sticks for every way to go on from that symbol. -/
theorem Sticks.not_scans (h : Sticks P α u x) (hx : x = w.head?.or y) : ¬Scans P α (u ++ w) y := by
  induction h with
  | terminal h =>
    intro hs
    cases hs with
    | shift _ => exact h hx
  | nonterminal h =>
    intro hs
    cases hs with
    | expand hc _ =>
      rw [List.nil_append, ← hx, h] at hc
      cases hc
  | shift _ ih =>
    intro hs
    cases hs with
    | shift hs => exact ih hx hs
  | expand hc _ ih =>
    intro hs
    cases hs with
    | expand hc' hs =>
      rw [head?_append_or, ← hx, hc] at hc'
      cases hc'
      exact ih hx hs

/-- The parser takes one prefix of its input and no other. -/
theorem Scans.unique (h : Scans P α u x) (hx : x = v.head?.or y) (hv : Scans P α (u ++ v) y) :
    v = [] := by
  induction h with
  | nil =>
    cases hv
    rfl
  | shift _ ih =>
    cases hv with
    | shift hv => exact ih hx hv
  | expand hc _ ih =>
    cases hv with
    | expand hc' hv =>
      rw [head?_append_or, ← hx, hc] at hc'
      cases hc'
      exact ih hx hv

end Table

/-- What a table presupposes about the words of its nonterminals: which can be empty, how they can begin
and what can lie behind them. -/
structure Lookaheads (T N : Type) where
  nullable : N → Bool
  first : N → List T
  follow : N → List (Option T)

namespace Lookaheads

variable (L : Lookaheads T N)

/-- The form can yield the empty word. -/
def vanishes : List (Symbol T N) → Bool
  | [] => true
  | .terminal _ :: _ => false
  | .nonterminal n :: α => L.nullable n && vanishes α

/-- The symbols that words of the form can begin with. -/
def starts : List (Symbol T N) → List T
  | [] => []
  | .terminal a :: _ => [a]
  | .nonterminal n :: α => L.first n ++ if L.nullable n then starts α else []

/-- In the form, and before any of the symbols `xs`, each nonterminal is followed by what may follow it. -/
def Respects (xs : List (Option T)) : List (Symbol T N) → Prop
  | [] => True
  | .terminal _ :: α => Respects xs α
  | .nonterminal n :: α =>
    (∀ a ∈ L.starts α, some a ∈ L.follow n) ∧
      (L.vanishes α = true → ∀ x ∈ xs, x ∈ L.follow n) ∧ Respects xs α

instance decidableRespects [DecidableEq T] (xs : List (Option T)) : (α : List (Symbol T N)) →
    Decidable (L.Respects xs α)
  | [] => inferInstanceAs (Decidable True)
  | .terminal _ :: α => decidableRespects xs α
  | .nonterminal _ :: α =>
    have := decidableRespects xs α
    inferInstanceAs (Decidable (_ ∧ _ ∧ _))

end Lookaheads

/-- The laws of a predictive table: its lookaheads are closed under the rules, and each rule is chosen
wherever a word can need it. -/
structure Predicts [DecidableEq T] [DecidableEq N] (P : List (Prediction T N))
    (L : Lookaheads T N) : Prop where
  nullable : ∀ p ∈ P, L.vanishes p.output = true → L.nullable p.input = true
  first : ∀ p ∈ P, ∀ a ∈ L.starts p.output, a ∈ L.first p.input
  follow : ∀ p ∈ P, L.Respects (L.follow p.input) p.output
  chosen : ∀ p ∈ P, ∀ a ∈ L.starts p.output, choose P p.input (some a) = some p.output
  skipped : ∀ p ∈ P, L.vanishes p.output = true → ∀ x ∈ L.follow p.input,
    choose P p.input x = some p.output

namespace Predicts

variable [DecidableEq T] [DecidableEq N] {P : List (Prediction T N)} {L : Lookaheads T N}
  {α : List (Symbol T N)} {w : List T} {x : Option T}

/-- A word of a form is empty only if the form can vanish, and begins as the form can begin. -/
theorem head_of_yields (hP : Predicts P L) (h : Yields (rulesOf P) α w) :
    (w = [] → L.vanishes α = true) ∧ ∀ a, w.head? = some a → a ∈ L.starts α := by
  induction h with
  | nil => exact ⟨fun _ => rfl, fun a (ha : none = some a) => by cases ha⟩
  | terminal _ _ =>
    constructor
    · intro h
      cases h
    · intro a ha
      cases ha
      exact List.mem_singleton_self _
  | @nonterminal r α u v hr _ _ ihu ihv =>
    obtain ⟨p, hp, rfl⟩ := List.mem_map.1 hr
    have hempty : u = [] → L.nullable p.input = true := fun hu => hP.nullable p hp (ihu.1 hu)
    constructor
    · intro h
      have h := List.append_eq_nil_iff.1 h
      simp only [Lookaheads.vanishes, hempty h.1, ihv.1 h.2, Bool.and_self]
    · intro a ha
      simp only [Lookaheads.starts, List.mem_append]
      cases u with
      | nil =>
        rw [if_pos (hempty rfl)]
        exact .inr (ihv.2 a ha)
      | cons b u => exact .inl (hP.first p hp a (ihu.2 a ha))

/-- Every word of a form is read, with anything behind it that may follow the form. -/
theorem scans_of_yields (hP : Predicts P L) (h : Yields (rulesOf P) α w) {xs : List (Option T)}
    (hα : L.Respects xs α) (hx : x ∈ xs) : Scans P α w x := by
  induction h generalizing xs x with
  | nil => exact .nil
  | terminal _ ih => exact .shift (ih hα hx)
  | @nonterminal r α u v hr hu hv ihu ihv =>
    obtain ⟨p, hp, rfl⟩ := List.mem_map.1 hr
    obtain ⟨hstarts, hvanishes, hrest⟩ := hα
    -- what lies behind the word of the nonterminal may follow it
    have hfollow : v.head?.or x ∈ L.follow p.input := by
      cases v with
      | nil => exact hvanishes ((hP.head_of_yields hv).1 rfl) x hx
      | cons a v => exact hstarts a ((hP.head_of_yields hv).2 a rfl)
    have hchoose : choose P p.input ((u ++ v).head?.or x) = some p.output := by
      rw [head?_append_or]
      cases u with
      | nil => exact hP.skipped p hp ((hP.head_of_yields hu).1 rfl) _ hfollow
      | cons a u => exact hP.chosen p hp a ((hP.head_of_yields hu).2 a rfl)
    exact .expand hchoose ((ihu (hP.follow p hp) hfollow).append (ihv hrest hx))

end Predicts

/-- Nonterminals yield words if each has a rule whose nonterminals are of lower rank. -/
theorem yields_of_rank {P : List (Prediction T N)} (rank : N → Nat)
    (h : ∀ n, ∃ p ∈ P, p.input = n ∧ ∀ m, .nonterminal m ∈ p.output → rank m < rank n) (n : N) :
    ∃ w, Yields (rulesOf P) [.nonterminal n] w := by
  induction hk : rank n using Nat.strongRecOn generalizing n with
  | _ k ih =>
    obtain ⟨p, hp, rfl, hlower⟩ := h n
    have hform : ∀ α : List (Symbol T N), (∀ m, .nonterminal m ∈ α → rank m < k) →
        ∃ w, Yields (rulesOf P) α w := by
      intro α hα
      induction α with
      | nil => exact ⟨[], .nil⟩
      | cons s α ihα =>
        obtain ⟨v, hv⟩ := ihα fun m hm => hα m (List.mem_cons_of_mem _ hm)
        cases s with
        | terminal a => exact ⟨a :: v, .terminal hv⟩
        | nonterminal m =>
          obtain ⟨u, hu⟩ := ih (rank m) (hα m List.mem_cons_self) m rfl
          exact ⟨u ++ v, hu.append hv⟩
    obtain ⟨w, hw⟩ := hform p.output fun m hm => hk ▸ hlower m hm
    have hr : p.toContextFreeRule ∈ rulesOf P := List.mem_map.2 ⟨p, hp, rfl⟩
    exact ⟨w ++ [], .nonterminal hr hw .nil⟩

end ContextFreeGrammar
