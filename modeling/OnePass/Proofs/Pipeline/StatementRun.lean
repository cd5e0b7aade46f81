import OnePass.Proofs.Machine.Run
import OnePass.Proofs.Pipeline.StatementCode

namespace OnePass

open Assembler Assembly Source

namespace Source

variable {t : SymbolTable} {program scope : Text}

theorem Store.boolean_zero : Store.Boolean (fun _ => 0) t scope := fun _ _ => .inl rfl

/-- An assignment of the right type keeps truth values. -/
theorem Store.Boolean.update {σ : Store} (hσ : σ.Boolean t scope) {x : Text} {e : Expr}
    {type : ExprType} (hx : lookUp t scope x = some type) (he : e.type? t scope = some type)
    {w : Word} (hw : e.eval σ = some w) : Store.Boolean (Function.update σ x w) t scope := by
  intro y hy
  rw [Function.update_apply]
  split
  · rename_i hyx
    rw [hyx, hx] at hy
    rw [hy] at he
    exact Expr.eval_boolean hσ he hw
  · exact hσ y hy

end Source

namespace Machine

variable {t : SymbolTable} {program scope : Text} {P : Image} {k : Nat} {σ : Store}
  {out : Array Word} {m m' : Machine} {e : Expr} {ls : List Line} {r : Fin 3}

/-- Code for a value, and then a line that stores it. -/
theorem Evaluates.assign (he : Evaluates t scope e ls r) (hP : P.Linked) {x : Text}
    (hs : P.Sits k (ls ++ [.move (.memory x) (.register r.val)])) (hσ : σ.Boolean t scope)
    (hm : Sees P k σ out m) :
    (∀ w, e.eval σ = some w → ∃ m', Path (Within P σ out) m m' ∧
      Sees P (k + width ls + 1) (Function.update σ x w) out m') ∧
    (e.eval σ = none → Aborts P σ out m) := by
  obtain ⟨hs, hmove⟩ := Image.sits_append.1 hs
  have hc := he P k σ out m hP hs hσ hm
  refine ⟨fun w hw => ?_, fun hw => by rw [hw] at hc; exact hc⟩
  rw [hw] at hc
  obtain ⟨m1, hp1, hm1, hreg⟩ := hc
  obtain ⟨hx, hp2, -⟩ := hm1.store hP hmove
  rw [hreg] at hp2
  exact ⟨_, hp1.trans hp2, hm1.setVariable hx w⟩

/-- Code for a value, and then a line that prints it. -/
theorem Evaluates.print (he : Evaluates t scope e ls r) (hP : P.Linked)
    (hs : P.Sits k (ls ++ [.unary .outb r.val])) (hσ : σ.Boolean t scope)
    (hm : Sees P k σ out m) :
    (∀ w, e.eval σ = some w → ∃ m', Path (Within P σ out) m m' ∧
      Sees P (k + width ls + 1) σ (out.push w) m') ∧
    (e.eval σ = none → Aborts P σ out m) := by
  obtain ⟨hs, hout⟩ := Image.sits_append.1 hs
  have hc := he P k σ out m hP hs hσ hm
  refine ⟨fun w hw => ?_, fun hw => by rw [hw] at hc; exact hc⟩
  rw [hw] at hc
  obtain ⟨m1, hp1, hm1, hreg⟩ := hc
  obtain ⟨hp2, hm2, -⟩ := hm1.outb hP hout
  rw [hreg] at hp2 hm2
  exact ⟨_, hp1.trans hp2, hm2⟩

/-- Code for a condition, and then a branch that is taken if it is false. -/
theorem Evaluates.test (he : Evaluates t scope e ls r) (hP : P.Linked) {x : Text} {j : Nat}
    {rest : List Line} (hx : P.labels.target? x = some (.code j))
    (hs : P.Sits k (ls ++ .branch .brez r.val x :: rest)) (hσ : σ.Boolean t scope)
    (hm : Sees P k σ out m) :
    (∀ w, e.eval σ = some w → ∃ m', Path (Within P σ out) m m' ∧
      Sees P (if w = 0 then j else k + width ls + 1) σ out m') ∧
    (e.eval σ = none → Aborts P σ out m) := by
  obtain ⟨hs, hbranch⟩ := Image.sits_append.1 hs
  have hc := he P k σ out m hP hs hσ hm
  refine ⟨fun w hw => ?_, fun hw => by rw [hw] at hc; exact hc⟩
  rw [hw] at hc
  obtain ⟨m1, hp1, hm1, hreg⟩ := hc
  obtain ⟨-, m2, hp2, -, -, hm2⟩ :=
    hm1.branch (p := fun x => x = 0) hP rfl (fun _ _ => rfl) hx hbranch
  rw [hreg] at hm2
  exact ⟨m2, hp1.trans hp2, by simpa using hm2⟩

/-- Where the parts of a conditional stand. -/
theorem sits_ite {lc la lb : List Line} {q : Int} {other done : Text}
    (hs : P.Sits k (lc ++ .branch .brez q other :: (la ++ .jump done :: .label other ::
      (lb ++ [.label done])))) :
    P.labels.target? other = some (.code (k + width lc + 1 + width la + 1)) ∧
    P.labels.target? done = some (.code (k + width lc + 1 + width la + 1 + width lb)) ∧
    P.Sits (k + width lc + 1) la ∧
    P.Sits (k + width lc + 1 + width la) (.jump done :: .label other :: (lb ++ [.label done])) ∧
    P.Sits (k + width lc + 1 + width la + 1) lb := by
  obtain ⟨-, -, hs⟩ := Image.sits_append.1 hs
  obtain ⟨ha, hs⟩ := Image.sits_append.1 hs
  obtain ⟨hb, hdone, -⟩ := Image.sits_append.1 hs.2.2
  exact ⟨hs.2.1, hdone, ha, hs, hb⟩

theorem width_ite (lc la lb : List Line) (q : Int) (other done : Text) :
    k + width (lc ++ .branch .brez q other :: (la ++ .jump done :: .label other ::
      (lb ++ [.label done]))) = k + width lc + 1 + width la + 1 + width lb := by
  simp only [width_append, width_cons_branch, width_cons_jump, width_cons_label, width_nil]
  omega

/-- Where the parts of a loop stand. -/
theorem sits_loop {lc ls : List Line} {q : Int} {again done : Text}
    (hs : P.Sits k (.label again ::
      (lc ++ .branch .brez q done :: (ls ++ [.jump again, .label done])))) :
    P.labels.target? again = some (.code k) ∧
    P.labels.target? done = some (.code (k + width lc + 1 + width ls + 1)) ∧
    P.Sits k (lc ++ .branch .brez q done :: (ls ++ [.jump again, .label done])) ∧
    P.Sits (k + width lc + 1) ls ∧
    P.Sits (k + width lc + 1 + width ls) [.jump again, .label done] := by
  obtain ⟨hagain, hs⟩ := hs
  obtain ⟨-, -, hrest⟩ := Image.sits_append.1 hs
  obtain ⟨hbody, hjump⟩ := Image.sits_append.1 hrest
  exact ⟨hagain, hjump.2.1, hs, hbody, hjump⟩

theorem width_loop (lc ls : List Line) (q : Int) (again done : Text) :
    k + width (.label again :: (lc ++ .branch .brez q done :: (ls ++ [.jump again, .label done])))
      = k + width lc + 1 + width ls + 1 := by
  simp only [width_append, width_cons_branch, width_cons_jump, width_cons_label, width_nil]
  omega

/-- The machine is about to run an instruction of the code, and its variables of type `bool` hold truth
values. -/
def Safe (P : Image) (t : SymbolTable) (scope : Text) (m : Machine) : Prop :=
  ∃ σ, ∃ out : Array Word, σ.Boolean t scope ∧ Within P σ out m

theorem Path.safe (h : Path (Within P σ out) m m') (hσ : σ.Boolean t scope) :
    Path (Safe P t scope) m m' :=
  h.mono fun _ hm => ⟨σ, out, hσ, hm⟩

/-- The machine gets to index `k` with the store and the output at the end of a run of the source, or it
stops at the division by zero. -/
def Follows (P : Image) (t : SymbolTable) (scope : Text) (k : Nat) (m : Machine) (out : Array Word) :
    Ending → Prop
  | .normal σ => σ.Boolean t scope ∧ ∃ m', Path (Safe P t scope) m m' ∧ Sees P k σ out m'
  | .divideByZero => ∃ m' i, Path (Safe P t scope) m m' ∧ Safe P t scope m' ∧ m'.output = out ∧
      m'.step = (some (.failed m'.pc i .divideByZero), m'.stopped)

variable {r : Ending}

theorem Follows.after (h : Path (Safe P t scope) m m') (hf : Follows P t scope k m' out r) :
    Follows P t scope k m out r := by
  cases r with
  | normal σ =>
    obtain ⟨hσ, n, hn, hs⟩ := hf
    exact ⟨hσ, n, h.trans hn, hs⟩
  | divideByZero =>
    obtain ⟨n, i, hn, hs⟩ := hf
    exact ⟨n, i, h.trans hn, hs⟩

theorem Follows.jump (hf : Follows P t scope k m out r) (hP : P.Linked) {j : Nat} {x : Text}
    (hx : P.labels.target? x = some (.code j)) (hs : P.Sits k (.jump x :: ls)) :
    Follows P t scope j m out r := by
  cases r with
  | normal σ =>
    obtain ⟨hσ, n, hn, hm⟩ := hf
    obtain ⟨hp, hm, -⟩ := hm.jumpTo hP hx hs
    exact ⟨hσ, _, hn.trans (hp.safe hσ), hm⟩
  | divideByZero => exact hf

theorem Follows.abort (hσ : σ.Boolean t scope) (h : Aborts P σ out m) :
    Follows P t scope k m out .divideByZero := by
  obtain ⟨m', i, hp, hw, hs⟩ := h
  have hout : m'.output = out := by
    obtain ⟨_, _, hm⟩ := hw
    exact hm.output
  exact ⟨m', i, hp.safe hσ, ⟨σ, out, hσ, hw⟩, hout, hs⟩

/-- Along a run of the source the machine does what the source does. -/
theorem StmtCode.follows (hP : P.Linked) {c : Stmt} {o : List Word} (h : c.Runs σ o r)
    (hc : StmtCode t scope c ls) (ht : c.Typed t program scope) (hs : P.Sits k ls)
    (hσ : σ.Boolean t scope) (hm : Sees P k σ out m) :
    Follows P t scope (k + width ls) m (out ++ o.toArray) r := by
  induction h generalizing ls k m out with
  | skip =>
    cases hc
    exact ⟨hσ, m, .refl m, by simpa using hm⟩
  | call =>
    cases hc
    exact ⟨hσ, m, .refl m, by simpa using hm⟩
  | seq ha hb iha ihb =>
    cases hc with
    | seq hca hcb =>
      obtain ⟨hsa, hsb⟩ := Image.sits_append.1 hs
      obtain ⟨hσ', m1, hp1, hm1⟩ := iha hca ht.1 hsa hσ hm
      have hf := (ihb hcb ht.2 hsb hσ' hm1).after hp1
      simpa [Nat.add_assoc] using hf
  | seqAbort ha iha =>
    cases hc with
    | seq hca hcb =>
      have hf := iha hca ht.1 (Image.sits_append.1 hs).1 hσ hm
      exact hf
  | assign he =>
    cases hc with
    | assign hev =>
      obtain ⟨type, hx, hte⟩ := ht
      obtain ⟨m', hp, hm'⟩ := (hev.assign hP hs hσ hm).1 _ he
      exact ⟨hσ.update hx hte he, m', hp.safe hσ, by simpa [Nat.add_assoc] using hm'⟩
  | assignAbort he =>
    cases hc with
    | assign hev => simpa using Follows.abort hσ ((hev.assign hP hs hσ hm).2 he)
  | print he =>
    cases hc with
    | print hev =>
      obtain ⟨m', hp, hm'⟩ := (hev.print hP hs hσ hm).1 _ he
      exact ⟨hσ, m', hp.safe hσ, by simpa [Nat.add_assoc] using hm'⟩
  | printAbort he =>
    cases hc with
    | print hev => simpa using Follows.abort hσ ((hev.print hP hs hσ hm).2 he)
  | iteTrue he hw ha ih =>
    cases hc with
    | ite hev hca hcb =>
      obtain ⟨hother, hdone, hsa, hsj, -⟩ := sits_ite hs
      obtain ⟨m1, hp1, hm1⟩ := (hev.test hP hother hs hσ hm).1 _ he
      rw [if_neg hw] at hm1
      rw [width_ite]
      exact ((ih hca ht.2.1 hsa hσ hm1).jump hP hdone hsj).after (hp1.safe hσ)
  | iteFalse he hb ih =>
    cases hc with
    | ite hev hca hcb =>
      obtain ⟨hother, -, -, -, hsb⟩ := sits_ite hs
      obtain ⟨m1, hp1, hm1⟩ := (hev.test hP hother hs hσ hm).1 _ he
      rw [if_pos rfl] at hm1
      rw [width_ite]
      exact (ih hcb ht.2.2 hsb hσ hm1).after (hp1.safe hσ)
  | iteAbort he =>
    cases hc with
    | ite hev hca hcb =>
      obtain ⟨hother, -⟩ := sits_ite hs
      simpa using Follows.abort hσ ((hev.test hP hother hs hσ hm).2 he)
  | loopDone he =>
    cases hc with
    | loop hev hcs =>
      obtain ⟨-, hdone, hst, -⟩ := sits_loop hs
      obtain ⟨m1, hp1, hm1⟩ := (hev.test hP hdone hst hσ hm).1 _ he
      rw [if_pos rfl] at hm1
      rw [width_loop]
      exact ⟨hσ, m1, hp1.safe hσ, by simpa using hm1⟩
  | loopMore he hw hs' hl ihs ihl =>
    cases hc with
    | loop hev hcs =>
      obtain ⟨hagain, hdone, hst, hsb, hsj⟩ := sits_loop hs
      obtain ⟨m1, hp1, hm1⟩ := (hev.test hP hdone hst hσ hm).1 _ he
      rw [if_neg hw] at hm1
      obtain ⟨hσ', m2, hp2, hm2⟩ := ihs hcs ht.2 hsb hσ hm1
      obtain ⟨hp3, hm3, -⟩ := hm2.jumpTo hP hagain hsj
      have hf := ihl (.loop hev hcs) ht hs hσ' hm3
      simpa using ((hf.after (hp3.safe hσ')).after hp2).after (hp1.safe hσ)
  | loopBodyAbort he hw hs' ihs =>
    cases hc with
    | loop hev hcs =>
      obtain ⟨-, hdone, hst, hsb, -⟩ := sits_loop hs
      obtain ⟨m1, hp1, hm1⟩ := (hev.test hP hdone hst hσ hm).1 _ he
      rw [if_neg hw] at hm1
      have hf := ihs hcs ht.2 hsb hσ hm1
      exact hf.after (hp1.safe hσ)
  | loopAbort he =>
    cases hc with
    | loop hev hcs =>
      obtain ⟨-, hdone, hst, -⟩ := sits_loop hs
      simpa using Follows.abort hσ ((hev.test hP hdone hst hσ hm).2 he)

/-- If no run of the source ends, the machine runs on for any number of steps. -/
theorem StmtCode.lasts (hP : P.Linked) {c : Stmt} (hc : StmtCode t scope c ls)
    (ht : c.Typed t program scope) (hs : P.Sits k ls) (hσ : σ.Boolean t scope)
    (hm : Sees P k σ out m) (hno : ∀ o r, ¬c.Runs σ o r) (n : Nat) : Lasts (Safe P t scope) n m := by
  induction hc generalizing k m out σ n with
  | skip => exact absurd .skip (hno _ _)
  | call => exact absurd .call (hno _ _)
  | @assign x e ls r hev =>
    cases he : e.eval σ with
    | none => exact absurd (.assignAbort he) (hno _ _)
    | some w => exact absurd (.assign he) (hno _ _)
  | @print e ls r hev =>
    cases he : e.eval σ with
    | none => exact absurd (.printAbort he) (hno _ _)
    | some w => exact absurd (.print he) (hno _ _)
  | @seq a b la lb hca hcb iha ihb =>
    obtain ⟨hsa, hsb⟩ := Image.sits_append.1 hs
    by_cases hrun : ∃ o r, a.Runs σ o r
    · obtain ⟨o, r, ha⟩ := hrun
      cases r with
      | divideByZero => exact absurd (.seqAbort ha) (hno _ _)
      | normal σ' =>
        obtain ⟨hσ', m1, hp1, hm1⟩ := hca.follows hP ha ht.1 hsa hσ hm
        have hnob : ∀ o r, ¬b.Runs σ' o r := fun o r hb => hno _ _ (.seq ha hb)
        exact hp1.lasts (ihb ht.2 hsb hσ' hm1 hnob n)
    · simp only [not_exists] at hrun
      exact iha ht.1 hsa hσ hm hrun n
  | @ite c a b lc la lb r other done hev hca hcb iha ihb =>
    obtain ⟨hother, -, hsa, -, hsb⟩ := sits_ite hs
    cases he : c.eval σ with
    | none => exact absurd (.iteAbort he) (hno _ _)
    | some w =>
      obtain ⟨m1, hp1, hm1⟩ := (hev.test hP hother hs hσ hm).1 w he
      refine (hp1.safe hσ).lasts ?_
      by_cases hw : w = 0
      · rw [if_pos hw] at hm1
        subst hw
        exact ihb ht.2.2 hsb hσ hm1 (fun o r hb => hno _ _ (.iteFalse he hb)) n
      · rw [if_neg hw] at hm1
        exact iha ht.2.1 hsa hσ hm1 (fun o r ha => hno _ _ (.iteTrue he hw ha)) n
  | @loop c s lc ls r again done hev hcs ih =>
    obtain ⟨hagain, hdone, hst, hsb, hsj⟩ := sits_loop hs
    -- each time round takes at least the step of the jump back
    induction n generalizing σ out m with
    | zero => trivial
    | succ n ihn =>
      cases he : c.eval σ with
      | none => exact absurd (.loopAbort he) (hno _ _)
      | some w =>
        by_cases hw : w = 0
        · subst hw
          exact absurd (.loopDone he) (hno _ _)
        obtain ⟨m1, hp1, hm1⟩ := (hev.test hP hdone hst hσ hm).1 w he
        rw [if_neg hw] at hm1
        refine (hp1.safe hσ).lasts ?_
        by_cases hrun : ∃ o r, s.Runs σ o r
        · obtain ⟨o, r, hs'⟩ := hrun
          cases r with
          | divideByZero => exact absurd (.loopBodyAbort he hw hs') (hno _ _)
          | normal σ' =>
            obtain ⟨hσ', m2, hp2, hm2⟩ := hcs.follows hP hs' ht.2 hsb hσ hm1
            obtain ⟨hp3, hm3, -⟩ := hm2.jumpTo hP hagain hsj
            have hnol : ∀ o r, ¬(Stmt.loop c s).Runs σ' o r :=
              fun o r hl => hno _ _ (.loopMore he hw hs' hl)
            refine hp2.lasts ((hp3.safe hσ').lasts_succ ?_ (ihn hσ' hm3 hnol))
            intro heq
            have hsteps : m2.steps = m2.steps + 1 := congrArg Machine.steps heq
            simp at hsteps
        · simp only [not_exists] at hrun
          exact ih ht.2 hsb hσ hm1 hrun (n + 1)

end Machine

end OnePass
