import OnePass.Proofs.Compiler.ProgramReading
import OnePass.Proofs.Compiler.TwoCalls

namespace OnePass.Compiler

open Assembly Generator

namespace Pass

variable {α : Type} {K : Terms} {d : Nat} {A : Generator → Prop} {V : α → α → Prop} {p q : Pass α}
  {B : α → Generator → Prop} {I : Generator → Prop} {s t : State}

theorem mem_fresh (hI : ∀ g, g.Steady → I g) (h : ∀ g ∈ s.generators, I g) :
    ∀ g ∈ ({ s with scratch := {} :: s.scratch } : State).generators, I g := by
  intro g hg
  rcases List.mem_cons.1 hg with rfl | hg
  · exact h _ List.mem_cons_self
  · rcases List.mem_cons.1 hg with rfl | hg
    · exact hI _ Fit.empty.steady
    · exact h g (List.mem_cons_of_mem _ hg)

/-- What is composed keeps the registers in order at every point, if they are at its start. -/
theorem throughout_of_composed (h : Composed K d A V p q B) (hK : K.tracked)
    (hI : ∀ g, g.Steady → I g) (hst : K.like.State d s t) (hs : s.Fed)
    (hgen : ∀ g ∈ s.generators, I g) (hA : A s.current) : p.Throughout I AtRest s := by
  induction h generalizing s t with
  | pure _ _ => exact .aside hgen (.pure _)
  | throw _ he => exact .aside hgen (.throw fun x hx => K.notRegister x (hx ▸ he))
  | get => exact .aside hgen .get
  | enter hp => exact .aside hgen (.enter hp)
  | advance _ => exact .aside hgen .advance
  | declare _ scope type position => exact .aside hgen (.declare _ scope type position)
  | giveType type => exact .aside hgen (.giveType type)
  | name _ => exact .aside hgen (.name _)
  | generate h => exact .generate hgen ((h.works hK _ hA).1.mono hI)
  | bind hp _ ihp ihf =>
    have hfirst := ihp hst hs hgen hA
    refine .bind hfirst fun trace a s' hrun => ?_
    obtain ⟨b, t', hab, hst', horderly⟩ := hp.answer hst (fun _ => ⟨⟨trace, rfl⟩, hs, hA⟩) hrun
    obtain ⟨-, hfed, hB⟩ := horderly hK
    have hgen' := hfirst.final trace
    rw [hrun] at hgen'
    exact ihf a b hab hst' hfed hgen' hB
  | suppress _ ih =>
    exact .suppress (ih hst.suppressed ⟨hs.final, hs.items, hs.lookahead⟩ (mem_fresh hI hgen) Fit.empty)
  | inScope scope _ ih =>
    exact .inScope (ih (hst.inScope scope) ⟨hs.final, hs.items, hs.lookahead⟩ hgen hA)
  | @stmt d n q heq hq ih =>
    refine .stmt heq hA.atRest (fun trace s' hrun => ?_) fun trace s' hrun => ?_
    · have haside := aside_enter .stmt trace s
      have hst' := (Likeness.Mirrors.of_enter .stmt { trace } s t hst).2
      rw [hrun] at haside hst'
      have hreplaces : Replaces s s.current s' := .of_eq haside.main haside.scratch
      refine ih hst' (haside.fed hs) ?_ (hreplaces.current ▸ hA)
      unfold State.generators at *
      rw [haside.main, haside.scratch]
      exact hgen
    · have horderly : K.tracked → Orderly (Fit []) { trace } s := fun _ => ⟨⟨trace, rfl⟩, hs, hA⟩
      obtain ⟨-, -, -, -, hend⟩ := (Composed.stmt heq hq).answer hst horderly hrun
      exact (hend hK).current.atRest

/-- Checked apart, with a fresh generator before those that wait, the part keeps the registers in order at every
point and however it ends, and does not fail for want of one. -/
structure DisciplinedApart (p : Pass α) (s : State) : Prop where
  course : p.Throughout Disciplined AtRest { s with scratch := {} :: s.scratch }
  last : ∀ trace, ∀ g ∈ (p.run { trace } { s with scratch := {} :: s.scratch }).2.generators,
    g.Disciplined
  error : ∀ trace x, (p.run { trace } { s with scratch := {} :: s.scratch }).1 ≠
    .error (.internal (.register x))

/-- A part that begins with no value in use. -/
theorem throughout_and_ends (h : ∀ d, Composed (Terms.whole .same True) d (Fit []) V p p B)
    (hI : ∀ g, g.Steady → I g) (hs : s.Fed) (hgen : ∀ g ∈ s.generators, I g) (hfit : Fit [] s.current) :
    p.Throughout I AtRest s ∧ ∀ trace, Ends s B (p.run { trace } s) := by
  have hp := h s.scratch.length
  refine ⟨throughout_of_composed hp trivial hI (.same s) hs hgen hfit, fun trace => ?_⟩
  exact (hp.runs { trace } s s (.same s) fun _ => ⟨⟨trace, rfl⟩, hs, hfit⟩).2.2 trivial

theorem disciplinedApart (h : ∀ d, Composed (Terms.whole .same True) d (Fit []) V p p B) (hs : s.Fed)
    (hgen : ∀ g ∈ s.generators, g.Disciplined) : p.DisciplinedApart s := by
  have hI : ∀ g : Generator, g.Steady → g.Disciplined := fun _ hg => hg.toDisciplined
  obtain ⟨hcourse, hends⟩ := throughout_and_ends h hI (s := { s with scratch := {} :: s.scratch })
    ⟨hs.final, hs.items, hs.lookahead⟩ (mem_fresh hI hgen) Fit.empty
  refine ⟨hcourse, hcourse.final, fun trace x hx => ?_⟩
  have hend := hends trace
  unfold Ends at hend
  rw [hx] at hend
  exact hend x rfl

end Pass

/-- A compilation from its initial state. -/
theorem parse_keeps (source : Text) :
    Pass.parse.Throughout Steady AtRest (State.init (Feed.ofSource source)) ∧
      ∀ trace, Pass.Ends (State.init (Feed.ofSource source)) (fun _ => Fit [])
        (Pass.parse.run { trace } (State.init (Feed.ofSource source))) := by
  obtain ⟨hscanned, hfinal⟩ := (Cursor.ofText source).items_scanned
  have hparse := fun d => composed_parse (d := d) (Terms.whole_allows .same True) (congrArg Listing.refused)
  refine Pass.throughout_and_ends hparse (fun _ hg => hg) ⟨hfinal, hscanned, .inl rfl⟩ (fun g hg => ?_)
    Fit.empty
  rw [List.mem_singleton.1 hg]
  exact Fit.empty.steady

/-- No compilation fails for want of a register. -/
theorem error_ne_register (trace : Bool) (source : Text) (x : RegisterError) :
    (compile { trace } source).error ≠ some (.internal (.register x)) := by
  intro he
  have hend := (parse_keeps source).2 trace
  unfold compile State.parse at he
  cases hrun : Pass.parse.run { trace } (State.init (Feed.ofSource source)) with
  | mk r s =>
    rw [hrun] at hend he
    cases r with
    | ok u =>
      dsimp only at he
      split at he
      · cases he
      · cases he
    | error e' =>
      cases he
      exact hend x rfl

/-- The registers of a compilation. At every point and in every generator the live values are different and
hold exactly the registers in use; a statement begins and ends with none live and all free. The same holds within
each list of actual parameters and each body that is checked apart. So no compilation fails for want of a
register, and code names the three registers of the pool only. -/
theorem compile_disciplined (trace : Bool) (source : Text) :
    Pass.parse.Throughout Disciplined AtRest (State.init (Feed.ofSource source)) ∧
      (∀ s : State, s.Fed → (∀ g ∈ s.generators, g.Disciplined) →
        (∀ n callee, (Pass.exprList n callee).DisciplinedApart s) ∧
        ∀ n, (Pass.block n).DisciplinedApart s) ∧
      (∀ e, (compile { trace } source).error ≠ some (.internal (.register e))) ∧
      ∀ l ∈ (compile { trace } source).code, ∀ r ∈ l.registers, r ∈ poolRegisters := by
  have hcourse := (parse_keeps source).1
  refine ⟨hcourse.mono (fun _ h => h.toDisciplined) fun _ h => h, fun s hs hgen => ?_,
    error_ne_register trace source, ?_⟩
  · have hK := (Terms.whole_allows .same True).toReading
    refine ⟨fun n callee => ?_, fun n => ?_⟩
    · exact Pass.disciplinedApart (fun _ => composed_exprList hK n callee) hs hgen
    · exact Pass.disciplinedApart (fun _ => composed_block hK n) hs hgen
  have hlast := hcourse.final trace _ List.mem_cons_self
  have hcode : (compile { trace } source).code =
      (Pass.parse.run { trace } (State.init (Feed.ofSource source))).2.main.listing.written.toList := by
    unfold compile State.parse
    cases Pass.parse.run { trace } (State.init (Feed.ofSource source)) with
    | mk r s => cases r <;> rfl
  rw [hcode]
  intro l hl
  exact hlast.pooled l (Array.mem_toList_iff.1 hl)

end OnePass.Compiler
