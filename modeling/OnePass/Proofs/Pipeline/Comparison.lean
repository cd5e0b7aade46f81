import OnePass.Proofs.Pipeline.Pressure

namespace OnePass

namespace Source

/-- What a relational operator says of two integers. -/
def Operator.compares (op : Operator) (a b : Int) : Bool :=
  match op with
  | .equal => a = b
  | .notEqual => a ≠ b
  | .greater => a > b
  | .greaterEqual => a ≥ b
  | .less => a < b
  | .lessEqual => a ≤ b
  | _ => false

/-- The integer is the value of a word. -/
def FitsWord (d : Int) : Prop := -(wordLimit : Int) ≤ d ∧ d < wordLimit

theorem fitsWord_toInt (x : Word) : FitsWord x.toInt := ⟨Int64.le_toInt x, Int64.toInt_lt x⟩

/-- The difference of two words, where it has to be wrapped and where not. -/
theorem toInt_sub_cases (x y : Word) :
    (FitsWord (x.toInt - y.toInt) ∧ (x - y).toInt = x.toInt - y.toInt) ∨
      (x.toInt - y.toInt < -(wordLimit : Int) ∧ 0 < (x - y).toInt) ∨
      ((wordLimit : Int) ≤ x.toInt - y.toInt ∧ (x - y).toInt < 0) := by
  have hx := fitsWord_toInt x
  have hy := fitsWord_toInt y
  have hlimit : (wordLimit : Int) = 9223372036854775808 := rfl
  have hwrap : (x - y).toInt = Int.bmod (x.toInt - y.toInt) 18446744073709551616 := Int64.toInt_sub x y
  rw [Int.bmod_def] at hwrap
  unfold FitsWord at *
  split at hwrap <;> omega

/-- The sign of the wrapped difference decides a comparison as the integers do, exactly if the operator only asks
for zero or the difference fits a word. -/
theorem Operator.holds_sub_iff {op : Operator} (h : op.kind = .relop) (x y : Word) :
    op.holds (x - y) = op.compares x.toInt y.toInt ↔
      op = .equal ∨ op = .notEqual ∨ FitsWord (x.toInt - y.toInt) := by
  have hz : x - y = 0 ↔ (x - y).toInt = 0 := by rw [← Int64.toInt_inj]; rfl
  have hp : 0 < x - y ↔ 0 < (x - y).toInt := Int64.lt_iff_toInt_lt
  have hn : x - y < 0 ↔ (x - y).toInt < 0 := Int64.lt_iff_toInt_lt
  have hp' : 0 ≤ x - y ↔ 0 ≤ (x - y).toInt := Int64.le_iff_toInt_le
  have hn' : x - y ≤ 0 ↔ (x - y).toInt ≤ 0 := Int64.le_iff_toInt_le
  have hcases := toInt_sub_cases x y
  have hlimit : 0 < (wordLimit : Int) := by decide
  unfold FitsWord at *
  rw [Bool.eq_iff_iff]
  cases op <;> simp [Operator.kind] at h <;>
    simp only [holds, compares, decide_eq_true_eq, ne_eq, hz, hp, hn, hp', hn', reduceCtorEq, true_or, or_true,
      false_or, iff_true] <;> omega

end Source

namespace Compiler

open Assembly Assembler Source Machine

variable {declared : Text → Prop} {g : Generator} {used : List Nat} {op : Operator} {left right : Nat}

/-- The code of a comparison, wherever its operands are. It leaves a truth value in the register of the left value,
that of the wrapped difference; this is what the operator says of the two integers exactly if the operator is `=` or
`<>` or the difference fits a word. All other values in use stay. -/
theorem compare_leaves (hop : op.kind = .relop) (hD : ∀ x, declared x → x.IsIdentifier)
    (hg : g.Sound declared (right :: left :: used)) (hright : right ∉ left :: used) :
    ∃ (g' : Generator) (r : Fin 3) (ls : List Line), (Gen.compare op.attr left right).Gives g () g' ∧
      g'.operandOf left = .register r.val ∧
      g'.listing.written.toList = g.listing.written.toList ++ ls ∧ g'.Sound declared (left :: used) ∧
      ∀ (P : Image) (k : Nat) (m : Machine) (val : Nat → Word), P.Linked → P.Sits k ls →
        (∀ x, declared x ∨ x ∈ g'.listing.spills → x ∈ P.data) → P.At k m →
        (∀ u ∈ right :: left :: used, P.Carries m (val u) (g.operandOf u)) →
        ∃ m', Machine.Path (P.Keeps m) m m' ∧ P.Keeps m m' ∧ P.At (k + width ls) m' ∧
          (∀ u ∈ used, u ≠ left → P.Carries m' (val u) (g'.operandOf u)) ∧
          m'.regs.get r.castSucc = truth (op.holds (val left - val right)) ∧
          (m'.regs.get r.castSucc = truth (op.compares (val left).toInt (val right).toInt) ↔
            op = .equal ∨ op = .notEqual ∨ FitsWord ((val left).toInt - (val right).toInt)) := by
  obtain ⟨g', hgives⟩ := Gen.compare_gives hD hg op.attr
  obtain ⟨r, ls, hr, hcode⟩ := compare_code hD hop hg hright hgives
  refine ⟨g', r, ls, hgives, hr, hcode.fragment.emits.written, hcode.sound, ?_⟩
  intro P k m val hP hsits hdata hat hval
  obtain ⟨m', hpath, hkeeps, hend, hcarries⟩ := hcode.computes hP hsits hdata hat trivial hval
  have hleft : m'.regs.get r.castSucc = truth (op.holds (val left - val right)) := by
    have hl := hcarries left List.mem_cons_self
    rw [hr, Function.update_self] at hl
    exact hl.reads.register
  have htruth : ∀ a b, truth a = truth b ↔ a = b := by decide
  refine ⟨m', hpath, hkeeps, hend, fun u hu hne => ?_, hleft, ?_⟩
  · have hu' := hcarries u (List.mem_cons_of_mem _ hu)
    rwa [Function.update_of_ne hne] at hu'
  · rw [hleft, htruth]
    exact Operator.holds_sub_iff hop _ _

/-- Two variables, not loaded yet. -/
def twoVariables : Generator := { operands := #[.memory "x", .memory "y"] }

/-- The code of `x < y`, linked. -/
def lessImage : Image where
  code := #[{ op := .move, a := .register 0, b := .memory 0 }, { op := .sub, a := .register 0, b := .memory 1 },
    { op := .brez, a := .register 0, b := .code 6 }, { op := .brpo, a := .register 0, b := .code 6 },
    { op := .move, a := .register 0, b := .immediate 1 }, { op := .brun, a := .code 7 },
    { op := .move, a := .register 0, b := .immediate 0 }]
  labels := [("x", .data 0), ("y", .data 1), ("_false0", .code 6), ("_done1", .code 7)]
  data := ["x", "y"]

/-- The variables hold two numbers whose difference fits no word. -/
def lessMachine : Machine where
  code := lessImage.code
  memory := #[-9223372036854775807, 2]

def lessLines : List Line :=
  [.move (.register 0) (.memory "x"), .binary .sub 0 (.memory "y"), .branch .brez 0 "_false0",
    .branch .brpo 0 "_false0", .move (.register 0) (.immediate 1), .jump "_done1", .label "_false0",
    .move (.register 0) (.immediate 0), .label "_done1"]

theorem twoVariables_listing :
    ((Gen.compare .less 0 1).run.run twoVariables).2.listing.written.toList = lessLines ∧
      ((Gen.compare .less 0 1).run.run twoVariables).2.listing.spills.toList = [] ∧
      ((Gen.compare .less 0 1).run.run twoVariables).2.operandOf 0 = .register 0 := by
  decide +kernel

theorem twoVariables_sound : twoVariables.Sound (fun x => x = "x" ∨ x = "y") [1, 0] := by
  have hop : ∀ v ∈ [1, 0], twoVariables.operandOf v = .memory (if v = 0 then "x" else "y") := by decide
  refine ⟨⟨rfl, rfl, rfl⟩, Listing.orderly_empty,
    ⟨by decide, by decide, ?_, by decide, by decide, 0, .inl rfl⟩, ?_⟩
  · intro v
    constructor
    · intro hv
      cases hv
    · intro ⟨hv, r, hr⟩
      rw [hop v hv] at hr
      cases hr
  · intro v hv x hx
    rw [hop v hv] at hx
    cases hx
    split
    · exact .inl (.inl rfl)
    · exact .inl (.inr rfl)

theorem lessImage_linked : lessImage.Linked := by
  refine Image.linked_of_labels (by decide) (by decide) fun p hp a ha => ?_
  simp only [lessImage, List.mem_cons, List.not_mem_nil, or_false] at hp
  rcases hp with rfl | rfl | rfl | rfl <;> cases ha <;> decide

/-- The code of `x < y` says no where the integers say yes. -/
theorem compare_leaves_lessMachine : ∃ g' m', (Gen.compare .less 0 1).Gives twoVariables () g' ∧
    Machine.Path (lessImage.Keeps lessMachine) lessMachine m' ∧ lessImage.At 7 m' ∧ m'.regs.get 0 = 0 ∧
    Operator.compares .less (-9223372036854775807) 2 = true := by
  have hD : ∀ x : Text, x = "x" ∨ x = "y" → x.IsIdentifier := by
    intro x hx
    rcases hx with rfl | rfl
    · exact ⟨'x', [], rfl, rfl, by simp⟩
    · exact ⟨'y', [], rfl, rfl, by simp⟩
  have hless : Operator.less.kind = .relop := rfl
  obtain ⟨g', r, ls, hgives, hr, hwritten, -, hrun⟩ :=
    compare_leaves hless hD twoVariables_sound (by decide)
  have hg' : ((Gen.compare .less 0 1).run.run twoVariables).2 = g' := congrArg Prod.snd hgives
  obtain ⟨hlines, hspills, hregister⟩ := twoVariables_listing
  rw [hg'] at hlines hspills hregister
  obtain rfl : lessLines = ls := hlines.symm.trans hwritten
  obtain rfl : r = 0 := by
    rw [hregister, Assembly.Operand.register.injEq] at hr
    omega
  have hsits : lessImage.Sits 0 lessLines :=
    ⟨⟨_, rfl, rfl⟩, ⟨_, rfl, rfl⟩, ⟨_, rfl, rfl⟩, ⟨_, rfl, rfl⟩, ⟨_, rfl, rfl⟩, ⟨_, rfl, rfl⟩, rfl, ⟨_, rfl, rfl⟩,
      rfl, trivial⟩
  have hdata : ∀ x : Text, (x = "x" ∨ x = "y") ∨ x ∈ g'.listing.spills → x ∈ lessImage.data := by
    intro x hx
    rw [← Array.mem_toList_iff, hspills] at hx
    simp only [List.not_mem_nil, or_false] at hx
    rcases hx with rfl | rfl <;> decide
  have hval : ∀ u ∈ [1, 0], lessImage.Carries lessMachine (if u = 0 then -9223372036854775807 else 2)
      (twoVariables.operandOf u) := by
    intro u hu
    simp only [List.mem_cons, List.not_mem_nil, or_false] at hu
    rcases hu with rfl | rfl
    · exact ⟨by decide, rfl⟩
    · exact ⟨by decide, rfl⟩
  obtain ⟨m', hpath, -, hend, -, hzero, -⟩ :=
    hrun lessImage 0 lessMachine (fun u => if u = 0 then -9223372036854775807 else 2) lessImage_linked
      hsits hdata ⟨rfl, rfl, rfl, rfl⟩ hval
  exact ⟨g', m', hgives, hpath, hend, hzero, by decide⟩

/-- A comparison of the same two numbers. -/
def farApart : Text :=
  "program p; x: int; y: int; begin x := -9223372036854775807; y := 2; print x < y; end;"

/-- A compiled comparison can be wrong about integers: the first of these numbers is less, and 0 is printed. -/
theorem farApart_prints : ((assemble (compile {} farApart).assembly).toOption.bind fun q =>
      ({} : Machine).load? q.program).map (fun m => (m.runFor 100 100).2.output) = some #[0] ∧
    Operator.compares .less (-9223372036854775807) 2 = true := by
  decide +kernel

end Compiler

end OnePass
