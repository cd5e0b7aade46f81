import OnePass.Proofs.Compiler.Invariant
import OnePass.Proofs.Compiler.TwoCalls
import OnePass.Proofs.Pipeline.Acceptance
import OnePass.Proofs.Pipeline.Writer

namespace OnePass

open Compiler Source

namespace SymbolTable

/-- What a reported event did to the table. -/
def follow (t : SymbolTable) : Event → SymbolTable
  | .enter _ _ => t
  | .install x => t.install x
  | .patch type _ => t.patch type

/-- The table that the events tell of, from the empty one on. -/
def replay (es : List Event) : SymbolTable := es.foldl follow {}

theorem distinct_patch {t : SymbolTable} (type : ExprType) :
    Distinct (t.patch type).symbols ↔ Distinct t.symbols := by
  have hkeys : (t.patch type).symbols.map (fun s => (s.id, s.scope)) =
      t.symbols.map fun s => (s.id, s.scope) := by
    rw [patch, List.map_map]
    refine List.map_congr_left fun s _ => ?_
    rw [Function.comp_apply]
    split <;> rfl
  rw [Distinct, Distinct, hkeys]

end SymbolTable

namespace Compiler

/-- No identifier is twice in a scope of the table; the table is the one that the events tell of, and the same
holds of all tables before it. -/
structure Recorded (t : SymbolTable) (es : List Event) : Prop where
  distinct : Distinct t.symbols
  replay : SymbolTable.replay es = t
  before : ∀ fs, fs <+: es → Distinct (SymbolTable.replay fs).symbols

theorem Recorded.empty : Recorded {} [] where
  distinct := List.nodup_nil
  replay := rfl
  before fs hfs := by
    obtain rfl : fs = [] := List.prefix_nil.1 hfs
    exact List.nodup_nil

/-- One more event. -/
theorem Recorded.follow {t : SymbolTable} {es : List Event} (h : Recorded t es) (e : Event)
    (hd : Distinct (t.follow e).symbols) : Recorded (t.follow e) (es ++ [e]) := by
  have hreplay : SymbolTable.replay (es ++ [e]) = t.follow e := by
    rw [SymbolTable.replay, List.foldl_append, ← h.replay]
    rfl
  refine ⟨hd, hreplay, fun fs hfs => ?_⟩
  rcases List.prefix_concat_iff.1 hfs with rfl | hfs
  · rw [hreplay]
    exact hd
  · exact h.before fs hfs

/-- A step keeps the table distinct, as a name is installed only if its scope does not have it. -/
theorem recorded_kept : Pass.Kept Recorded where
  enter p u h := h.follow (.enter p u) h.distinct
  install x h hx := h.follow (.install x) (distinct_concat.2 ⟨h.distinct, by simp [hx]⟩)
  patch type h := h.follow (.patch type _) ((SymbolTable.distinct_patch type).2 h.distinct)

theorem always_recorded (o : Options) {s : State} (hs : Pass.On Recorded s) :
    Pass.parse.Always (Pass.On Recorded) o s := by
  have hparse := composed_parse (d := s.scratch.length) (Terms.whole_allows .same False)
    (congrArg Assembly.Listing.refused)
  exact Pass.always_of_composed hparse (fun h => h) recorded_kept (.same s) hs

/-- Calls on one translator leave a recorded table, whatever they read. -/
theorem recorded_afterCalls (o : Options) (feed : Feed) (output : Assembly.Listing) (n : Nat) :
    Pass.On Recorded ((State.init feed output).afterCalls o n) := by
  induction n with
  | zero => exact Recorded.empty
  | succ n ih =>
    have hlast := (always_recorded o ih).final
    rw [State.afterCalls, State.parse]
    cases hrun : Pass.parse.run o ((State.init feed output).afterCalls o n) with
    | mk r s =>
      rw [hrun] at hlast
      cases r <;> exact hlast

end Compiler

/-- At every point of every call on a translator the table has no identifier twice in a scope. When a source is
accepted, the table is the list of the declarations of the one program that it denotes, and no type is missing. -/
theorem compile_symbols (o : Options) (feed : Feed) (output : Assembly.Listing) (n : Nat)
    (trace : Bool) (source : Text) :
    Pass.parse.Always (fun s => Recorded s.symbols s.events.toList) o
      ((State.init feed output).afterCalls o n) ∧
    ((compile { trace } source).outcome = .success →
      ∃ p, (∀ p', Denotes source p' ↔ p' = p) ∧
        (compile { trace } source).symbols.symbols = p.entries ∧
        ∀ e ∈ (compile { trace } source).symbols.symbols, e.type ≠ .unknown) := by
  refine ⟨always_recorded o (recorded_afterCalls o feed output n), ?_⟩
  intro h
  obtain ⟨hparse, hdone⟩ := parse_of_success h
  obtain ⟨ts, p, g, e, hlex, hread⟩ := parse_sound hparse hdone
  have hp : Denotes source p := ⟨ts, e, hlex, hread.derives⟩
  have hsymbols : (compile { trace } source).symbols.symbols = p.entries :=
    congrArg SymbolTable.symbols hread.symbols
  refine ⟨p, fun p' => ⟨fun hp' => hp'.unique hp, fun heq => heq ▸ hp⟩, hsymbols, ?_⟩
  intro x hx
  rw [hsymbols] at hx
  exact (hread.derives.introduces.known x hx).1

/-- Groups of variables, formal parameters and locals, and names that come again in other scopes. -/
def manyGroups : Text :=
  "program p; a, b: int; c: bool; procedure q(a, x: int; y: bool) b: bool; z, c: int; begin ; end;" ++
    " procedure r() p: int; begin ; end; begin ; end;"

theorem compile_symbols_manyGroups :
    Pass.parse.Always (fun s => Recorded s.symbols s.events.toList) {}
        (State.init (Feed.ofSource manyGroups)) ∧
      (compile {} manyGroups).outcome = .success ∧
      ∃ p, (∀ p', Denotes manyGroups p' ↔ p' = p) ∧
        p.entries =
          [⟨"p", "_EXTERNAL", -1, .programName⟩,
            ⟨"a", "p", -1, .int⟩, ⟨"b", "p", -1, .int⟩, ⟨"c", "p", -1, .bool⟩,
            ⟨"q", "p", -1, .procedureName⟩,
            ⟨"a", "q", 0, .int⟩, ⟨"x", "q", 1, .int⟩, ⟨"y", "q", 2, .bool⟩,
            ⟨"b", "q", -1, .bool⟩, ⟨"z", "q", -1, .int⟩, ⟨"c", "q", -1, .int⟩,
            ⟨"r", "p", -1, .procedureName⟩, ⟨"p", "r", -1, .int⟩] := by
  have hsuccess : (compile {} manyGroups).outcome = .success := by decide +kernel
  obtain ⟨halways, haccepted⟩ :=
    compile_symbols {} (Feed.ofSource manyGroups) {} 0 false manyGroups
  obtain ⟨p, hp, hsymbols, -⟩ := haccepted hsuccess
  exact ⟨halways, hsuccess, p, hp, hsymbols.symm.trans (by decide +kernel)⟩

end OnePass
