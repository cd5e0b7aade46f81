import OnePass.Proofs.Compiler.ExpressionReading
import OnePass.Proofs.Compiler.Pressure
import OnePass.Proofs.Machine.Run
import OnePass.Proofs.Pipeline.ExpressionCode

namespace OnePass

namespace Source

/-- An expression with all its parts. -/
def Expr.parts : Expr → List Expr
  | var x => [.var x]
  | num n => [.num n]
  | sign s e => .sign s e :: e.parts
  | binary op a b => .binary op a b :: (a.parts ++ b.parts)

/-- Some division in the expression has a divisor that is zero. -/
def Expr.ZeroDivisor (σ : Store) (e : Expr) : Prop :=
  ∃ a b, .binary .slash a b ∈ e.parts ∧ b.eval σ = some 0

theorem Operator.apply_eq_none_iff {op : Operator} {x y : Word} :
    op.apply x y = none ↔ op = .slash ∧ y = 0 := by
  cases op <;> simp [Operator.apply]

theorem Expr.zeroDivisor_binary {σ : Store} {op : Operator} {a b : Expr} :
    (Expr.binary op a b).ZeroDivisor σ ↔
      (op = .slash ∧ b.eval σ = some 0) ∨ a.ZeroDivisor σ ∨ b.ZeroDivisor σ := by
  constructor
  · intro ⟨c, d, hmem, hd⟩
    simp only [parts, List.mem_cons, Expr.binary.injEq, List.mem_append] at hmem
    rcases hmem with ⟨hop, -, rfl⟩ | hmem | hmem
    · exact .inl ⟨hop.symm, hd⟩
    · exact .inr (.inl ⟨c, d, hmem, hd⟩)
    · exact .inr (.inr ⟨c, d, hmem, hd⟩)
  · intro h
    rcases h with ⟨rfl, hb⟩ | ⟨c, d, hmem, hd⟩ | ⟨c, d, hmem, hd⟩
    · exact ⟨a, b, by simp [parts], hb⟩
    · exact ⟨c, d, by simp [parts, hmem], hd⟩
    · exact ⟨c, d, by simp [parts, hmem], hd⟩

/-- An expression has no value exactly if it divides by zero. -/
theorem Expr.eval_eq_none_iff {σ : Store} {e : Expr} : e.eval σ = none ↔ e.ZeroDivisor σ := by
  induction e with
  | var x => simp [eval, ZeroDivisor, parts]
  | num n => simp [eval, ZeroDivisor, parts]
  | sign s e ih =>
    have hparts : (Expr.sign s e).ZeroDivisor σ ↔ e.ZeroDivisor σ := by simp [ZeroDivisor, parts]
    rw [hparts, ← ih]
    simp [eval]
  | binary op a b iha ihb =>
    rw [zeroDivisor_binary, ← iha, ← ihb]
    have heval : (Expr.binary op a b).eval σ =
        (a.eval σ).bind fun x => (b.eval σ).bind fun y => op.apply x y := rfl
    rw [heval]
    cases ha : a.eval σ with
    | none => simp
    | some x =>
      cases hb : b.eval σ with
      | none => simp
      | some y => simp [Operator.apply_eq_none_iff]

end Source

namespace Machine

open Assembler Assembly Source Compiler

namespace Image

/-- Every data label names a word of data and has its address. -/
theorem linked_of_labels {P : Image} (hcode : P.code.size < wordLimit) (hdata : P.data.length < wordLimit)
    (h : ∀ p ∈ P.labels, ∀ a, p.2 = .data a → p.1 ∈ P.data ∧ a = Int64.ofNat (P.data.idxOf p.1)) :
    P.Linked := by
  refine ⟨hcode, hdata, fun x a hx => ?_⟩
  obtain ⟨l₁, l₂, hsplit, -⟩ := List.lookup_eq_some_iff.1 hx
  exact h (x, .data a) (by rw [hsplit]; simp) a rfl

/-- The machine runs the code of the image and stands at this index. -/
structure At (P : Image) (k : Nat) (m : Machine) : Prop where
  pc : m.pc = Int64.ofNat k
  code : m.code = P.code
  running : m.halted = false
  size : m.memory.size = P.data.length

/-- The operand has this value, and if it names a word there is one. -/
def Carries (P : Image) (m : Machine) (w : Word) : Assembly.Operand → Prop
  | .immediate n => n = w
  | .register r => ∃ i : Fin 4, r = i.val ∧ m.regs.get i = w
  | .memory x => x ∈ P.data ∧ P.word m x = w

/-- Variables, output and the fourth register are as in `m`. -/
structure Keeps (P : Image) (m m' : Machine) : Prop where
  stores : ∀ x ∈ P.data, x.IsIdentifier → P.word m' x = P.word m x
  output : m'.output = m.output
  room : m'.room = m.room
  reserved : m'.regs.get 3 = m.regs.get 3

variable {P : Image} {k : Nat} {m m' : Machine} {w : Word} {o : Assembly.Operand}

theorem Carries.reads (h : P.Carries m w o) : P.Reads m w o := by
  cases o with
  | immediate n => exact h
  | register r => exact h
  | memory x => exact fun _ => h.2

theorem Reads.carries (h : P.Reads m w o) (ho : ∀ x, o = .memory x → x ∈ P.data) :
    P.Carries m w o := by
  cases o with
  | immediate n => exact h
  | register r => exact h
  | memory x => exact ⟨ho x rfl, h (ho x rfl)⟩

/-- What a machine leaves alone while it computes a value. -/
def outside (m : Machine) : Outside := ⟨m.output, m.room, m.regs.get 3⟩

theorem At.sees (h : P.At k m) : Sees P k (P.word m) (outside m) m :=
  ⟨h.pc, h.code, h.running, rfl, h.size, rfl, fun _ _ _ => rfl, rfl⟩

end Image

theorem Sees.at {P : Image} {k : Nat} {σ : Store} {out : Outside} {m : Machine}
    (h : Sees P k σ out m) : P.At k m := ⟨h.pc, h.code, h.running, h.size⟩

theorem Sees.keeps {P : Image} {k : Nat} {m m' : Machine}
    (h : Sees P k (P.word m) (Image.outside m) m') : P.Keeps m m' :=
  ⟨h.stores, h.output, h.room, h.reserved⟩

variable {declared : Text → Prop} {t : SymbolTable} {scope : Text} {g g' : Generator} {used : List Nat}
  {e : Expr} {τ : ExprType} {v : Nat} {ls : List Line}

/-- However the registers are held, the code of an expression can be generated. -/
theorem expr_gives (hD : ∀ x, declared x → x.IsIdentifier) (hnames : ∀ x ∈ e.names, declared x)
    (ht : e.type? t scope = some τ) (hg : g.Sound declared used) :
    ∃ v g', e.lower.Gives g v g' := by
  induction e generalizing g used τ with
  | var x => exact ⟨_, _, Gen.gives_newValue.2 ⟨rfl, rfl⟩⟩
  | num n => exact ⟨_, _, Gen.gives_newValue.2 ⟨rfl, rfl⟩⟩
  | sign s e ih =>
    simp only [Expr.type?, Option.ite_none_right_eq_some] at ht
    obtain ⟨v, g₁, h₁⟩ := ih hnames ht.1 hg
    obtain ⟨-, ls, -, hc⟩ := expr_code (e := e) hD hnames ht.1 hg h₁
    obtain ⟨g₂, h₂⟩ := Sign.lower_gives hc.sound s v
    simp only [Expr.lower, Gen.gives_bind, Gen.gives_pure]
    exact ⟨v, g₂, v, g₁, h₁, (), g₂, h₂, rfl, rfl⟩
  | binary op a b iha ihb =>
    simp only [Expr.type?, Option.ite_none_right_eq_some] at ht
    obtain ⟨⟨hta, htb⟩, -⟩ := ht
    obtain ⟨hna, hnb⟩ := List.forall_mem_append.1 hnames
    obtain ⟨left, g₁, h₁⟩ := iha hna hta hg
    obtain ⟨-, lsa, -, ha⟩ := expr_code hD hna hta hg h₁
    obtain ⟨right, g₂, h₂⟩ := ihb hnb htb ha.sound
    obtain ⟨-, lsb, -, hb⟩ := expr_code hD hnb htb ha.sound h₂
    obtain ⟨g₃, h₃⟩ := Operator.lower_gives hD hb.sound op
    simp only [Expr.lower, Gen.gives_bind, Gen.gives_pure]
    exact ⟨left, g₃, left, g₁, h₁, right, g₂, h₂, (), g₃, h₃, rfl, rfl⟩

/-- The run of code that gives a value to `v`, where every name that stands for a value has its word. -/
theorem ValueCode.computes {pre : Store → (Nat → Word) → Prop} {f : Store → (Nat → Word) → Option Word}
    {used' : List Nat} {P : Image} {k : Nat} {m : Machine} {val : Nat → Word}
    (h : ValueCode declared g used ls g' used' v pre f) (hP : P.Linked) (hs : P.Sits k ls)
    (hdata : ∀ x, declared x ∨ x ∈ g'.listing.spills → x ∈ P.data) (hm : P.At k m)
    (hpre : pre (P.word m) val) (hval : ∀ u ∈ used, P.Carries m (val u) (g.operandOf u)) :
    match f (P.word m) val with
    | none => ∃ m' i, Path (P.Keeps m) m m' ∧ P.Keeps m m' ∧
        m'.step = (some (.failed m'.pc i .divideByZero), m'.stopped)
    | some w => ∃ m', Path (P.Keeps m) m m' ∧ P.Keeps m m' ∧ P.At (k + width ls) m' ∧
        ∀ u ∈ used', P.Carries m' (Function.update val v w u) (g'.operandOf u) := by
  have hwithin : ∀ n, Within P (P.word m) (Image.outside m) n → P.Keeps m n :=
    fun n ⟨_, _, hn⟩ => hn.keeps
  have hrun := h.runs P k _ _ m val hP hs hpre hm.sees fun u hu => (hval u hu).reads
  cases hf : f (P.word m) val with
  | none =>
    rw [hf] at hrun
    obtain ⟨m', i, hp, hw, hstep⟩ := hrun
    exact ⟨m', i, hp.mono hwithin, hwithin m' hw, hstep⟩
  | some w =>
    rw [hf] at hrun
    obtain ⟨m', hp, hsees, hh⟩ := hrun
    refine ⟨m', hp.mono hwithin, hsees.keeps, hsees.at, fun u hu => ?_⟩
    exact (hh u hu).carries fun x hx => hdata x (h.sound.memory u hu x hx)

end Machine

namespace Compiler

open Assembly Source Machine

/-- A variable of type `int` or `bool` that the scope declares. -/
def State.Variable (s : State) (x : Text) : Prop :=
  x.IsIdentifier ∧ (lookUp s.symbols s.scope x = some .int ∨ lookUp s.symbols s.scope x = some .bool)

variable {s : State} {ts : List Token} {e : Expr} {more : List Item} {τ : ExprType} {n : Nat} {used : List Nat}

/-- In front of a well-typed expression over variables its production succeeds, whatever values are in use in
registers, as long as one register is free or held by a live value. Wherever its code is linked, a machine that has
the values in use at their operands, and truth values in the variables of type `bool`, runs into a division by zero
if some division of the expression has a zero divisor; otherwise it reaches the end of the code with the value of
the expression at the operand of the result, and all values in use at their operands, which may have changed. No
variable changes on the way. -/
theorem expr_under_pressure (trace : Bool) (hs : s.Fed) (hg : s.current.Sound s.Variable used)
    (he : ExprForm.expr.Derives ts e) (hn : ts.length ≤ n) (hin : s.input = ts.map .ok ++ more)
    (hm : ExprForm.expr.Halts more) (ht : e.type? s.symbols s.scope = some τ)
    (hvars : ∀ x ∈ e.names, s.Variable x) (hsmall : ∀ k ∈ e.literals, k < wordLimit) :
    ∃ v s' ls, (Pass.expr n).Gives trace s v s' ∧ s'.input = more ∧ v.type = τ ∧ v.id ∉ used ∧
      s'.current.listing.written.toList = s.current.listing.written.toList ++ ls ∧
      s'.current.Sound s.Variable (v.id :: used) ∧
      ∀ (P : Image) (k : Nat) (m : Machine) (val : Nat → Word), P.Linked → P.Sits k ls →
        (∀ x, s.Variable x ∨ x ∈ s'.current.listing.spills → x ∈ P.data) → P.At k m →
        (∀ u ∈ used, P.Carries m (val u) (s.current.operandOf u)) →
        Store.Boolean (P.word m) s.symbols s.scope →
        (e.ZeroDivisor (P.word m) → ∃ m' i, Machine.Path (P.Keeps m) m m' ∧ P.Keeps m m' ∧
          m'.step = (some (.failed m'.pc i .divideByZero), m'.stopped)) ∧
        (¬e.ZeroDivisor (P.word m) → ∃ w m', e.eval (P.word m) = some w ∧
          Machine.Path (P.Keeps m) m m' ∧ P.Keeps m m' ∧ P.At (k + width ls) m' ∧
          P.Carries m' w (s'.current.operandOf v.id) ∧
          ∀ u ∈ used, P.Carries m' (val u) (s'.current.operandOf u)) := by
  have hD : ∀ x, s.Variable x → x.IsIdentifier := fun x hx => hx.1
  obtain ⟨i, g', hlower⟩ := expr_gives hD hvars ht hg
  obtain ⟨hnew, ls, -, hcode⟩ := expr_code hD hvars ht hg hlower
  have hstart := Faces.refl hs
  rw [hin] at hstart
  obtain ⟨v, s', hgives, i', g'', hlower', hvalue⟩ :=
    (Pass.expr_reads he hn hm hstart).gives ⟨⟨τ, ht, hsmall⟩, i, g', hlower⟩
  obtain ⟨rfl, rfl⟩ := hlower.unique hlower'
  obtain rfl := hvalue.id
  have htype : v.type = τ := Option.some.inj (hvalue.fits.type.symm.trans ht)
  have hfaces := hvalue.faces
  rw [← hfaces.current] at hcode
  refine ⟨v, s', ls, hgives, hfaces.input, htype, hnew, hcode.fragment.emits.written, hcode.sound, ?_⟩
  intro P k m val hP hsits hdata hat hval hbool
  have hrun := hcode.computes hP hsits hdata hat hbool hval
  rw [← Expr.eval_eq_none_iff]
  cases heval : e.eval (P.word m) with
  | none =>
    rw [heval] at hrun
    exact ⟨fun _ => hrun, fun h => absurd rfl h⟩
  | some w =>
    rw [heval] at hrun
    obtain ⟨m', hpath, hkeeps, hend, hcarries⟩ := hrun
    refine ⟨fun h => by simp at h, fun _ => ⟨w, m', rfl, hpath, hkeeps, hend, ?_, fun u hu => ?_⟩⟩
    · have hv := hcarries v.id List.mem_cons_self
      rwa [Function.update_self] at hv
    · have hne : u ≠ v.id := fun h => hnew (h ▸ hu)
      have hu' := hcarries u (List.mem_cons_of_mem _ hu)
      rwa [Function.update_of_ne hne] at hu'

/-- In front of `x / (x - y)` two values hold the registers R1 and R2, and R0 is busy without a value. -/
def pressedState : State where
  feed :=
    { items := [.ok { kind := .mulop, attr := .slash }, .ok { kind := .punct, attr := .leftParen },
        .ok { kind := .identifier, lexeme := "x" }, .ok { kind := .addop, attr := .minus },
        .ok { kind := .identifier, lexeme := "y" }, .ok { kind := .punct, attr := .rightParen },
        .ok { kind := .punct, attr := .semicolon }]
      final := { kind := .eof } }
  lookahead := { kind := .identifier, lexeme := "x" }
  symbols := ⟨[{ id := "x", scope := "p", type := .int }, { id := "y", scope := "p", type := .int }]⟩
  main :=
    { pool := ⟨#v[true, true, true]⟩, operands := #[.register 1, .register 2], live := [1, 0] }
  program := "p"
  scope := "p"

def pressedExpr : Expr := .binary .slash (.var "x") (.binary .minus (.var "x") (.var "y"))

/-- Its code, linked. Both operands of the division go through R2: the right one makes room for the left one. -/
def pressedImage : Image where
  code := #[{ op := .move, a := .memory 2, b := .register 2 }, { op := .move, a := .register 2, b := .memory 0 },
    { op := .sub, a := .register 2, b := .memory 1 }, { op := .move, a := .memory 3, b := .register 2 },
    { op := .move, a := .register 2, b := .memory 0 }, { op := .div, a := .register 2, b := .memory 3 }]
  labels := [("x", .data 0), ("y", .data 1), ("_spill0", .data 2), ("_spill1", .data 3)]
  data := ["x", "y", "_spill0", "_spill1"]

def pressedMachine : Machine where
  regs := #v[5, 10, 20, 30]
  code := pressedImage.code
  memory := #[7, 4, 0, 0]

theorem pressedState_fed : pressedState.Fed := by
  have hword : ∀ c : Char, Scanner.isLower c = true → (Text.ofChars [c]).IsIdentifier :=
    fun c hc => ⟨c, [], rfl, hc, by simp⟩
  refine ⟨rfl, ?_, .inr (.inl ⟨rfl, hword 'x' rfl⟩)⟩
  intro t ht
  simp only [pressedState, List.mem_cons, Except.ok.injEq, List.not_mem_nil, or_false] at ht
  rcases ht with rfl | rfl | rfl | rfl | rfl | rfl | rfl
  · exact .inr (.inr (by decide))
  · exact .inr (.inr (by decide))
  · exact .inl ⟨rfl, hword 'x' rfl⟩
  · exact .inr (.inr (by decide))
  · exact .inl ⟨rfl, hword 'y' rfl⟩
  · exact .inr (.inr (by decide))
  · exact .inr (.inr (by decide))

theorem pressedState_lookUp {x : Text} {τ : ExprType}
    (h : lookUp pressedState.symbols pressedState.scope x = some τ) : (x = "x" ∨ x = "y") ∧ τ = .int := by
  have hmem := SymbolTable.declared_iff.1 (declared_of_lookUp h)
  have hx : x = "x" ∨ x = "y" := by simpa [pressedState] using hmem
  have hint : lookUp pressedState.symbols pressedState.scope x = some .int := by
    rcases hx with rfl | rfl <;> decide
  exact ⟨hx, Option.some.inj (h.symm.trans hint)⟩

theorem pressedState_variable {x : Text} : pressedState.Variable x ↔ x = "x" ∨ x = "y" := by
  constructor
  · intro h
    exact h.2.elim (fun h => (pressedState_lookUp h).1) fun h => (pressedState_lookUp h).1
  · intro h
    rcases h with rfl | rfl
    · exact ⟨⟨'x', [], rfl, rfl, by simp⟩, .inl (by decide)⟩
    · exact ⟨⟨'y', [], rfl, rfl, by simp⟩, .inl (by decide)⟩

theorem pressedState_sound : pressedState.current.Sound pressedState.Variable [1, 0] := by
  have hop : ∀ v, pressedState.current.operandOf v =
      if v = 0 then .register 1 else if v = 1 then .register 2 else .immediate 0 := by
    intro v
    match v with
    | 0 | 1 | _ + 2 => rfl
  have hlive : pressedState.current.live = [1, 0] := rfl
  refine ⟨⟨rfl, rfl, rfl⟩, Listing.orderly_empty,
    ⟨by decide, by decide, ?_, ?_, ?_, 1, .inr ⟨0, by decide, rfl⟩⟩, ?_⟩
  · intro v
    simp only [hlive, List.mem_cons, List.not_mem_nil, or_false, hop]
    constructor
    · intro h
      rcases h with rfl | rfl <;> simp
    · exact fun h => h.1
  · intro v hv
    simp only [hlive, List.mem_cons, List.not_mem_nil, or_false] at hv
    rcases hv with rfl | rfl
    · exact ⟨2, rfl, rfl⟩
    · exact ⟨1, rfl, rfl⟩
  · intro u hu v hv
    simp only [hlive, List.mem_cons, List.not_mem_nil, or_false] at hu hv
    rcases hu with rfl | rfl <;> rcases hv with rfl | rfl <;> simp [hop]
  · intro v hv x hx
    simp only [List.mem_cons, List.not_mem_nil, or_false] at hv
    rcases hv with rfl | rfl <;> simp [hop] at hx

theorem pressedExpr_derives : ExprForm.expr.Derives
    [{ kind := .identifier, lexeme := "x" }, { kind := .mulop, attr := .slash },
      { kind := .punct, attr := .leftParen }, { kind := .identifier, lexeme := "x" },
      { kind := .addop, attr := .minus }, { kind := .identifier, lexeme := "y" },
      { kind := .punct, attr := .rightParen }] pressedExpr := by
  have hword : ∀ x : Text, ExprForm.term.Derives [{ kind := .identifier, lexeme := x }] (.var x) :=
    fun x => .term (.identifier rfl) .termDone
  have hinner := ExprForm.Derives.plain (.simple (hword "x")
    (.simpleMore (t := { kind := .addop, attr := .minus }) .minus rfl rfl (hword "y") .simpleDone))
  have hparen := ExprForm.Derives.paren (l := { kind := .punct, attr := .leftParen })
    (r := { kind := .punct, attr := .rightParen }) rfl hinner rfl
  have hfirst : ExprForm.factor.Derives [{ kind := .identifier, lexeme := "x" }] (.var "x") :=
    .identifier rfl
  exact .plain (.simple (.term hfirst
    (.termMore (t := { kind := .mulop, attr := .slash }) .slash rfl rfl hparen .termDone)) .simpleDone)

def pressedLines : List Line :=
  [.move (.memory "_spill0") (.register 2), .move (.register 2) (.memory "x"), .binary .sub 2 (.memory "y"),
    .move (.memory "_spill1") (.register 2), .move (.register 2) (.memory "x"),
    .binary .div 2 (.memory "_spill1")]

theorem pressedState_listing :
    ((Pass.expr 7).run {} pressedState).2.current.listing.written.toList = pressedLines ∧
      ((Pass.expr 7).run {} pressedState).2.current.listing.spills.toList =
        (["_spill0", "_spill1"] : List Text) := by
  decide +kernel

theorem pressedImage_linked : pressedImage.Linked := by
  refine Image.linked_of_labels (by decide) (by decide) fun p hp a ha => ?_
  simp only [pressedImage, List.mem_cons, List.not_mem_nil, or_false] at hp
  rcases hp with rfl | rfl | rfl | rfl <;> cases ha <;> decide

/-- With 7 and 4 in the variables the machine finds 2, and both values in use are as they were. -/
theorem expr_under_pressure_pressedState : ∃ v s' m', (Pass.expr 7).Gives false pressedState v s' ∧
    Machine.Path (pressedImage.Keeps pressedMachine) pressedMachine m' ∧ pressedImage.At 6 m' ∧
    pressedImage.Carries m' 2 (s'.current.operandOf v.id) ∧
    pressedImage.Carries m' 10 (s'.current.operandOf 0) ∧
    pressedImage.Carries m' 20 (s'.current.operandOf 1) := by
  have hvars : ∀ x ∈ pressedExpr.names, pressedState.Variable x := by
    intro x hx
    rw [pressedState_variable]
    simpa [pressedExpr, Expr.names] using hx
  have hsemicolon : ¬ExprForm.expr.Continues { kind := .punct, attr := .semicolon } := by
    simp [ExprForm.Continues]
  obtain ⟨v, s', ls, hgives, -, -, -, hwritten, -, hrun⟩ :=
    expr_under_pressure (τ := .int) (n := 7) false pressedState_fed pressedState_sound
      pressedExpr_derives (by decide) rfl (ExprForm.halts_cons hsemicolon) (by decide) hvars (by decide)
  have hs' : ((Pass.expr 7).run {} pressedState).2 = s' := congrArg Prod.snd hgives
  obtain ⟨hlines, hspills⟩ := pressedState_listing
  rw [hs'] at hlines hspills
  obtain rfl : pressedLines = ls := hlines.symm.trans hwritten
  have hsits : pressedImage.Sits 0 pressedLines :=
    ⟨⟨_, rfl, rfl⟩, ⟨_, rfl, rfl⟩, ⟨_, rfl, rfl⟩, ⟨_, rfl, rfl⟩, ⟨_, rfl, rfl⟩, ⟨_, rfl, rfl⟩, trivial⟩
  have hdata : ∀ x, pressedState.Variable x ∨ x ∈ s'.current.listing.spills → x ∈ pressedImage.data := by
    intro x hx
    rw [pressedState_variable, ← Array.mem_toList_iff, hspills] at hx
    simp only [List.mem_cons, List.not_mem_nil, or_false] at hx
    rcases hx with (rfl | rfl) | rfl | rfl <;> decide
  have hval : ∀ u ∈ [1, 0], pressedImage.Carries pressedMachine (if u = 0 then 10 else 20)
      (pressedState.current.operandOf u) := by
    intro u hu
    simp only [List.mem_cons, List.not_mem_nil, or_false] at hu
    rcases hu with rfl | rfl
    · exact ⟨2, rfl, rfl⟩
    · exact ⟨1, rfl, rfl⟩
  have hbool : Store.Boolean (pressedImage.word pressedMachine) pressedState.symbols
      pressedState.scope := by
    intro x hx
    cases (pressedState_lookUp hx).2
  have heval : pressedExpr.eval (pressedImage.word pressedMachine) = some 2 := by decide
  have hdivides : ¬pressedExpr.ZeroDivisor (pressedImage.word pressedMachine) := by
    rw [← Expr.eval_eq_none_iff, heval]
    simp
  obtain ⟨w, m', hw, hpath, -, hend, hv, hkeep⟩ :=
    (hrun pressedImage 0 pressedMachine (fun u => if u = 0 then 10 else 20) pressedImage_linked hsits
      hdata ⟨rfl, rfl, rfl, rfl⟩ hval hbool).2 hdivides
  obtain rfl : 2 = w := Option.some.inj (heval.symm.trans hw)
  exact ⟨v, s', m', hgives, hpath, hend, hv, hkeep 0 (by simp), hkeep 1 (by simp)⟩

end Compiler

end OnePass
