import OnePass.Proofs.Assembler.Linking
import OnePass.Proofs.Compiler.ProgramReading
import OnePass.Proofs.Pipeline.StatementCode
import Mathlib.Data.List.Nodup

namespace OnePass

open Assembler Assembly Source

namespace SymbolTable

variable {t : SymbolTable} {scope x : Text}

theorem mem_storage : x ∈ t.storage scope ↔
    ∃ s ∈ t.symbols, s.id = x ∧ s.scope = scope ∧ s.position = noPosition ∧ s.type.isScalar = true := by
  simp only [storage, List.mem_map, List.mem_filter, Bool.and_eq_true, beq_iff_eq]
  constructor
  · rintro ⟨s, ⟨hs, ⟨hscope, hpos⟩, htype⟩, rfl⟩
    exact ⟨s, hs, rfl, hscope, hpos, htype⟩
  · rintro ⟨s, hs, rfl, hscope, hpos, htype⟩
    exact ⟨s, ⟨hs, ⟨hscope, hpos⟩, htype⟩, rfl⟩

theorem mem_declared : t.declared x scope = true ↔ ∃ s ∈ t.symbols, s.id = x ∧ s.scope = scope := by
  simp [declared_iff]

theorem Valid.storage_nodup (h : t.Valid) (scope : Text) : (t.storage scope).Nodup := by
  have hpairs : ((t.symbols.filter fun s => s.scope == scope && s.position == noPosition &&
      s.type.isScalar).map fun s => (s.id, s.scope)).Nodup :=
    h.distinct.sublist (List.filter_sublist.map _)
  refine List.Nodup.of_map (fun x => (x, scope)) ?_
  rw [storage, List.map_map]
  rw [List.map_congr_left (g := fun s => (s.id, s.scope))]
  · exact hpairs
  · intro s hs
    simp only [List.mem_filter, Bool.and_eq_true, beq_iff_eq] at hs
    simp [hs.2.1.1]

theorem Valid.isIdentifier_of_declared (h : t.Valid) (hx : t.declared x scope = true) :
    x.IsIdentifier := by
  obtain ⟨s, hs, rfl, -⟩ := mem_declared.1 hx
  exact h.named s hs

/-- The program itself is named by an identifier. -/
theorem Valid.program_name (h : t.Valid) {p : Program} (hp : t = ⟨p.entries⟩) :
    p.name.IsIdentifier := by
  subst hp
  exact h.named { id := p.name, scope := Compiler.externalScope, type := .programName }
    List.mem_cons_self

theorem declared_of_mem_storage (h : x ∈ t.storage scope) : t.declared x scope = true := by
  obtain ⟨s, hs, hid, hscope, -⟩ := mem_storage.1 h
  exact mem_declared.2 ⟨s, hs, hid, hscope⟩

end SymbolTable

namespace Compiler

/-- The state in which a compilation ends. -/
def finalState (o : Options) (source : Text) : State :=
  ((State.init (Feed.ofSource source)).parse o).2

theorem parse_of_success {o : Options} {source : Text}
    (h : (compile o source).outcome = .success) :
    (State.init (Feed.ofSource source)).parse o = (none, finalState o source) ∧
      (finalState o source).done = true := by
  have hnone : (compile o source).error = none := by
    unfold Compilation.outcome Outcome.ofError at h
    split at h
    · assumption
    all_goals cases h
  unfold finalState
  simp only [compile] at hnone
  generalize (State.init (Feed.ofSource source)).parse o = r at hnone ⊢
  obtain ⟨e, s⟩ := r
  cases e with
  | some e => cases hnone
  | none =>
    simp only [ite_eq_left_iff, reduceCtorEq, imp_false, Bool.not_eq_true, Bool.not_eq_false]
      at hnone
    exact ⟨rfl, hnone⟩

/-- The code of a program from its entry label to its halt. -/
def framed (name : Text) (body : List Line) : List Line :=
  .label ("_" ++ name) :: (body ++ [.halt])

/-- The names of the words of data, the variables before the spill words. -/
def State.dataNames (s : State) : List Text :=
  s.symbols.storage s.program ++ s.main.listing.spills.toList

theorem State.mem_dataNames {s : State} {x : Text} :
    x ∈ s.dataNames ↔ x ∈ s.symbols.storage s.program ∨ x ∈ s.main.listing.spills := by
  simp [dataNames]

/-- The state after the program `p`, with the code of its main block. -/
structure Translates (s : State) (p : Program) (body : List Line) : Prop where
  symbols : s.symbols = ⟨p.entries⟩
  valid : s.symbols.Valid
  program : s.program = p.name
  typed : p.body.Typed s.symbols p.name p.name
  written : s.main.listing.written.toList = moduleLines (framed p.name body) s.dataNames
  code : ∀ l ∈ body, l.IsCode
  closed : Closed body
  orderly : s.main.listing.Orderly
  names : (labels body ++ s.main.listing.spills.toList).Perm s.main.listing.names.toList
  data : ∀ l ∈ body, ∀ x ∈ l.dataNames, x ∈ p.body.names ∨ x ∈ s.main.listing.spills
  reached : ∀ x ∈ p.body.names, x ∈ body.flatMap Line.dataNames
  statement : Machine.StmtCode s.symbols p.name p.body body

theorem written_withData {g : Generator} (h : g.listing.Accepting) (names : List Text) :
    (withData g names).listing =
      { g.listing with
        written := g.listing.written ++ (names.map (Line.data · 1)).toArray } := by
  change names.foldl (fun l x => l.put (.data x 1)) g.listing = _
  generalize g.listing = l at h
  induction names generalizing l with
  | nil => simp
  | cons x names ih =>
    have h' : (l.put (.data x 1)).Accepting := by
      rw [Listing.put_eq h]
      exact h
    rw [List.foldl_cons, ih _ h', Listing.put_eq h]
    simp

/-- The code of a program up to its halt, and the names handed out for it. -/
theorem program_code {t : SymbolTable} {p : Program} {declared : Text → Prop} {g : Generator}
    (hD : ∀ x, declared x → x.IsIdentifier) (hname : p.name.IsIdentifier)
    (hnames : ∀ x ∈ p.body.names, declared x) (ht : p.body.Typed t p.name p.name)
    (h : p.lower.Gives {} () g) :
    ∃ body, g.Sound declared [] ∧ g.listing.written.toList = framed p.name body ∧
      (∀ l ∈ body, l.IsCode) ∧ Closed body ∧
      (labels body ++ g.listing.spills.toList).Perm g.listing.names.toList ∧
      (∀ l ∈ body, ∀ x ∈ l.dataNames, declared x ∨ x ∈ g.listing.spills) ∧
      (∀ x ∈ p.body.names, x ∈ body.flatMap Line.dataNames) ∧
      Machine.StmtCode t p.name p.body body := by
  have hempty : Generator.Sound declared {} [] :=
    ⟨⟨rfl, rfl, rfl⟩, Listing.orderly_empty, Generator.holding_empty, fun _ h => by cases h⟩
  simp only [Program.lower, Gen.gives_bind] at h
  obtain ⟨_, g1, h1, _, g2, h2, h3⟩ := h
  have a1 := Gen.put_label_code hempty hname.underscore_isLabel h1
  obtain ⟨body, hs2, hfrag, hreach, hstmt⟩ := Machine.stmt_code hD hnames ht a1.sound h2
  have a3 := Gen.put_code hs2 h3 ⟨by decide, .nil⟩ (fun _ h => by cases h)
  refine ⟨body, a3.sound, ?_, hfrag.emits.fits, hfrag.closed, ?_, ?_, hreach, hstmt⟩
  · rw [a3.emits.written, hfrag.emits.written, a1.emits.written]
    rfl
  · rw [List.perm_iff_count]
    intro x
    have hb := hfrag.balanced x
    rw [a1.names, a1.spills] at hb
    rw [a3.names, a3.spills, List.count_append]
    simpa using hb
  · rw [a3.spills]
    exact hfrag.emits.data

/-- A program that has been read is translated. -/
theorem translates_of_hasRead {s : State} {ts : List Token} {p : Program} {g : Generator}
    (h : Pass.HasRead s ts p g) : ∃ body, Translates s p body := by
  have hD : ∀ x, x ∈ p.body.names → x.IsIdentifier :=
    fun x hx => h.valid.isIdentifier_of_declared (h.typed.declared hx)
  obtain ⟨body, hs, hw, hcode, hclosed, hperm, hdata, hreach, hstmt⟩ :=
    program_code hD (h.valid.program_name h.symbols) (fun _ hx => hx) h.typed h.lower
  have hlisting := h.main ▸ written_withData hs.accepting
    (s.symbols.storage p.name ++ g.listing.spills.toList)
  refine ⟨body, h.symbols, h.valid, h.program, h.typed, ?_, hcode, hclosed, ?_, ?_, ?_, hreach, hstmt⟩
  all_goals simp only [State.dataNames, hlisting, h.program]
  · rw [Array.toList_append, hw]
    rfl
  · exact ⟨hs.orderly.names, hs.orderly.spills⟩
  · exact hperm
  · exact hdata

end Compiler

end OnePass
