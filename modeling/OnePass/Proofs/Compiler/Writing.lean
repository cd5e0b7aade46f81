import OnePass.Proofs.Compiler.Allocation

namespace OnePass

open Assembly

/-- A line that may stand between the entry of a program and its halt. -/
def Assembly.Line.inBody : Line → Bool
  | .label _ => true
  | .instruction m _ => m != .halt
  | .data _ _ => false

namespace Assembly.Listing

/-- An output that takes every line has got some more lines, all with the property. -/
def Grows (P : Line → Prop) (l m : Listing) : Prop :=
  l.Accepting → m.Accepting ∧ ∃ ls, (∀ x ∈ ls, P x) ∧ m.written.toList = l.written.toList ++ ls

variable {P Q : Line → Prop} {k l m : Listing}

theorem Grows.refl (l : Listing) : Grows P l l := fun h => ⟨h, [], by simp, by simp⟩

theorem Grows.trans (h : Grows P k l) (h' : Grows P l m) : Grows P k m := by
  intro hk
  obtain ⟨hl, xs, hxs, hwritten⟩ := h hk
  obtain ⟨hm, ys, hys, hwritten'⟩ := h' hl
  refine ⟨hm, xs ++ ys, List.forall_mem_append.2 ⟨hxs, hys⟩, ?_⟩
  rw [hwritten', hwritten, List.append_assoc]

theorem Grows.mono (hPQ : ∀ x, P x → Q x) (h : Grows P l m) : Grows Q l m := by
  intro hl
  obtain ⟨hm, xs, hxs, hwritten⟩ := h hl
  exact ⟨hm, xs, fun x hx => hPQ x (hxs x hx), hwritten⟩

theorem grows_put (l : Listing) {line : Line} (h : P line) : Grows P l (l.put line) := by
  intro hl
  rw [put_eq hl]
  exact ⟨hl, [line], by simpa using h, by simp⟩

end Assembly.Listing

namespace Compiler.Gen

variable {α β : Type} {P Q : Line → Prop}

/-- However the action ends, it has written only lines with the property. -/
def Writes (P : Line → Prop) (x : Gen α) : Prop :=
  ∀ g, Listing.Grows P g.listing (x.run.run g).2.listing

/-- It has written labels and instructions that do not halt. -/
abbrev WritesBody (x : Gen α) : Prop := Writes (fun l => l.inBody = true) x

namespace Writes

theorem mono {x : Gen α} (hPQ : ∀ l, P l → Q l) (h : Writes P x) : Writes Q x :=
  fun g => (h g).mono hPQ

theorem bind {x : Gen α} {f : α → Gen β} (hx : Writes P x) (hf : ∀ a, Writes P (f a)) :
    Writes P (x >>= f) := by
  intro g
  have hfirst := hx g
  rw [run_bind]
  cases hrun : x.run.run g with
  | mk r g' =>
    rw [hrun] at hfirst
    cases r with
    | ok a => exact hfirst.trans (hf a g')
    | error e => exact hfirst

theorem of_pure (a : α) : Writes P (pure a) := fun _ => .refl _

/-- The action may depend on the generator, and set it to another one with the same listing. -/
theorem of_get {f : Generator → Gen α}
    (h : ∀ g, Listing.Grows P g.listing ((f g).run.run g).2.listing) : Writes P (get >>= f) := h

theorem of_modify {f : Generator → Generator} (h : ∀ g, (f g).listing = g.listing) :
    Writes P (modify f) := by
  intro g
  change Listing.Grows P g.listing (f g).listing
  rw [h]
  exact .refl _

theorem of_put {l : Line} (h : P l) : Writes P (put l) := fun g => g.listing.grows_put h

theorem of_newLabel (stem : String) : Writes P (newLabel stem) :=
  fun _ h => ⟨h, [], by simp, (List.append_nil _).symm⟩

theorem of_newSpill : Writes P newSpill := fun _ h => ⟨h, [], by simp, (List.append_nil _).symm⟩

theorem of_newValue (o : Operand) : Writes P (newValue o) := fun _ => .refl _

theorem of_operand (v : Nat) : Writes P (operand v) := fun _ => .refl _

theorem of_setOperand (v : Nat) (o : Operand) : Writes P (setOperand v o) := of_modify fun _ => rfl

theorem of_release (v : Nat) : Writes P (release v) := by
  refine (of_operand v).bind fun o => ?_
  cases o with
  | register r =>
    refine of_get fun g => ?_
    cases g.pool.free r with
    | ok pool => exact .refl _
    | error e => exact .refl _
  | immediate n => exact of_pure _
  | memory x => exact of_pure _

theorem of_line {l : Line} (h : l.inBody = true) : WritesBody (put l) := of_put h

theorem of_spill (v : Nat) : WritesBody (spill v) := by
  refine (of_operand v).bind fun o => ?_
  cases o with
  | register r =>
    refine of_newSpill.bind fun name => .bind (of_line rfl) fun _ => ?_
    exact (of_release v).bind fun _ => of_setOperand v _
  | immediate n => exact of_pure _
  | memory x => exact of_pure _

theorem of_makeRoom : WritesBody makeRoom := by
  refine of_get fun g => ?_
  split
  · cases g.live with
    | nil => exact .refl _
    | cons v vs => exact of_spill v g
  · exact .refl _

theorem of_claim : Writes P claim := by
  refine of_get fun g => ?_
  cases g.pool.allocate with
  | ok r => exact .refl _
  | error e => exact .refl _

theorem of_load (v : Nat) (o : Operand) : WritesBody (load v o) := by
  refine of_claim.bind fun r => .bind (of_line rfl) fun _ => (of_setOperand v _).bind fun _ => ?_
  exact (of_modify fun _ => rfl).bind fun _ => of_pure r

theorem of_materialize (v : Nat) : WritesBody (materialize v) := by
  rw [materialize_eq]
  refine (of_operand v).bind fun o => ?_
  cases o with
  | register r => exact of_pure r
  | immediate n => exact of_makeRoom.bind fun _ => of_load v _
  | memory x => exact of_makeRoom.bind fun _ => of_load v _

theorem of_combine {m : Mnemonic} (hm : m ≠ .halt) (v w : Nat) : WritesBody (combine m v w) := by
  have hline : ∀ r o, (Line.binary m r o).inBody = true := fun _ _ => by simpa [Line.inBody, Line.binary]
  refine (of_materialize v).bind fun r => (of_operand w).bind fun o => ?_
  exact (of_put (hline r o)).bind fun _ => (of_release w).bind fun _ => of_pure r

theorem of_disjoin (v w : Nat) : WritesBody (disjoin v w) := by
  refine (of_combine (by decide) v w).bind fun r => (of_newLabel _).bind fun done => ?_
  exact .bind (of_line rfl) fun _ => .bind (of_line rfl) fun _ => of_line rfl

/-- Lines put one after the other. -/
theorem of_forIn {γ : Type} {line : γ → Line} {xs : List γ} (h : ∀ x ∈ xs, P (line x)) :
    Writes P (forIn xs PUnit.unit fun x _ => do
      put (line x)
      pure (ForInStep.yield PUnit.unit)) := by
  induction xs with
  | nil => exact of_pure _
  | cons x xs ih =>
    obtain ⟨hx, hxs⟩ := List.forall_mem_cons.1 h
    rw [List.forIn_cons, bind_assoc]
    refine (of_put hx).bind fun _ => ?_
    rw [pure_bind]
    exact ih hxs

theorem refutations_ne_halt (op : Attr) : ∀ m ∈ refutations op, m ≠ .halt := by
  unfold refutations
  split <;> decide

theorem of_compare (op : Attr) (v w : Nat) : WritesBody (compare op v w) := by
  have hbranch : ∀ r no, ∀ m ∈ refutations op, (Line.branch m r no).inBody = true := fun _ _ m hm => by
    simpa [Line.inBody, Line.branch] using refutations_ne_halt op m hm
  refine (of_combine (by decide) v w).bind fun r => (of_newLabel _).bind fun no => ?_
  refine (of_newLabel _).bind fun done => (of_forIn (hbranch r no)).bind fun _ => ?_
  refine .bind (of_line rfl) fun _ => .bind (of_line rfl) fun _ => ?_
  exact .bind (of_line rfl) fun _ => .bind (of_line rfl) fun _ => of_line rfl

end Writes

end Compiler.Gen

end OnePass
