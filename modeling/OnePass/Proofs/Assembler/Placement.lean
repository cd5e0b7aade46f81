import OnePass.Proofs.Assembler.Reading

namespace OnePass

open Assembly

namespace Assembly

/-- The name that a line gives a place to. -/
def Line.name? : Line → Option Text
  | label x => some x
  | instruction _ _ => none
  | data x _ => some x

/-- The names that the lines define, in order. -/
def definedNames (ls : List Line) : List Text := ls.filterMap Line.name?

end Assembly

namespace Assembler

namespace Labels

variable {ls : Labels} {names : List Text} {x : Text} {t : Target}

theorem target?_eq_none (h : x ∉ ls.map Prod.fst) : ls.target? x = none := by
  rw [target?, List.lookup_eq_none_iff]
  intro p hp
  have hne : x ≠ p.1 := fun hx => h (List.mem_map.2 ⟨p, hp, hx.symm⟩)
  simpa using hne

theorem isSome_target?_iff : (ls.target? x).isSome = true ↔ x ∈ ls.map Prod.fst := by
  constructor
  · intro h
    by_contra hx
    rw [target?_eq_none hx] at h
    cases h
  · intro h
    obtain ⟨p, hp, rfl⟩ := List.mem_map.1 h
    rw [Option.isSome_iff_ne_none, target?, Ne, List.lookup_eq_none_iff]
    intro hall
    simpa using hall p hp

theorem mem_of_target? (h : ls.target? x = some t) : (x, t) ∈ ls := by
  obtain ⟨a, b, rfl, -⟩ := List.lookup_eq_some_iff.1 h
  simp

theorem target?_append (ls' : Labels) :
    Labels.target? (ls ++ ls') x = (ls.target? x).or (ls'.target? x) :=
  List.lookup_append

theorem target?_map (hn : x ∈ names) : Labels.target? (names.map fun n => (n, t)) x = some t := by
  induction names with
  | nil => cases hn
  | cons y names ih =>
    rw [List.map_cons, target?, List.lookup_cons]
    by_cases hx : x = y
    · simp [hx]
    · have hne : (x == y) = false := by simpa using hx
      rw [hne]
      exact ih ((List.mem_cons.1 hn).resolve_left hx)

theorem target?_bind_of_mem (hx : x ∉ ls.map Prod.fst) (hn : x ∈ names) :
    (ls.bind names t).target? x = some t := by
  rw [bind, target?_append, target?_eq_none hx, target?_map hn]
  rfl

end Labels

namespace Layout

variable {l : Layout} {ls : List Line}

/-- The names used so far. -/
def known (l : Layout) : List Text := l.labels.map Prod.fst ++ l.pending

/-- The layout behind a line that brings no old name. -/
def after (l : Layout) : Line → Layout
  | .label x => { l with pending := l.pending ++ [x] }
  | .instruction _ _ => { l.bind (.code l.index) with index := l.index + 1 }
  | .data x n =>
    { ({ l with pending := l.pending ++ [x] } : Layout).bind (.data l.address) with
      address := l.address + n }

/-- At the end the labels still waiting stand for the place behind the code. -/
def finish (l : Layout) : Layout := l.bind (.code l.index)

theorem known_bind (t : Target) : (l.bind t).known = l.known := by
  simp [known, bind, Labels.bind, Function.comp_def]

theorem known_after (ln : Line) : (l.after ln).known = l.known ++ ln.name?.toList := by
  cases ln with
  | label x => simp [after, known, Line.name?]
  | instruction m os =>
    have h : (l.after (.instruction m os)).known = (l.bind (.code l.index)).known := rfl
    rw [h, known_bind]
    simp [Line.name?]
  | data x n =>
    have h : (l.after (.data x n)).known =
        (({ l with pending := l.pending ++ [x] } : Layout).bind (.data l.address)).known := rfl
    rw [h, known_bind]
    simp [known, Line.name?]

theorem await_new {x : Text} (h : x ∉ l.known) :
    l.await [x] = .ok { l with pending := l.pending ++ [x] } := by
  simp only [known, List.mem_append, not_or] at h
  rw [await, if_neg, await]
  rw [Labels.isSome_target?_iff]
  exact not_or.2 h

theorem await_old {x : Text} (h : x ∈ l.known) : l.await [x] = .error (.duplicateLabel x) := by
  rw [await, if_pos]
  rw [Labels.isSome_target?_iff]
  exact List.mem_append.1 h

theorem ofName?_known : ∀ m ∈ Mnemonic.known,
    Mnemonic.ofName? (m.text "") = some m ∧ m.text "" ≠ dataDirective := by decide

theorem dataSize_text {n : Word} (h : 0 < n) : dataSize [Text.ofWord n] = .ok n := by
  simp [dataSize, Numeral.readWord_ofWord, h]

theorem line_text {ln : Line} (hf : ln.Fits) :
    l.line ln.text = (l.await ln.statement.labels).bind fun l => l.placeLine ln.statement := by
  rw [line, Line.read_text hf]
  rfl

theorem placeLine_instruction {m : Mnemonic} {os : List Operand} (hm : m ∈ Mnemonic.known) :
    l.placeLine (Line.instruction m os).statement = .ok (l.after (.instruction m os)) := by
  obtain ⟨hname, hdata⟩ := ofName?_known m hm
  simp [placeLine, Line.statement, hname, hdata, after]

theorem placeLine_data {x : Text} {n : Word} (hn : 0 < n) :
    ({ l with pending := l.pending ++ [x] } : Layout).placeLine (Line.data x n).statement =
      .ok (l.after (.data x n)) := by
  have hp : (l.pending ++ [x]).isEmpty = false := by simp
  simp only [placeLine, Line.statement, dataSize_text hn, hp, if_true]
  rfl

/-- A line with a new name or none. -/
theorem line_new {ln : Line} (hf : ln.Fits) (hn : ∀ x, ln.name? = some x → x ∉ l.known) :
    l.line ln.text = .ok (l.after ln) := by
  rw [line_text hf]
  cases ln with
  | label x =>
    rw [Line.statement, await_new (hn x rfl)]
    rfl
  | instruction m os => exact placeLine_instruction hf.1
  | data x n =>
    have ha : l.await (Line.data x n).statement.labels = _ := await_new (hn x rfl)
    rw [ha]
    exact placeLine_data hf.2

/-- A line with an old name. -/
theorem line_old {ln : Line} (hf : ln.Fits) {x : Text} (hn : ln.name? = some x)
    (hx : x ∈ l.known) : l.line ln.text = .error (.duplicateLabel x) := by
  have hlabels : ln.statement.labels = [x] := by
    cases ln with
    | label y => cases hn; rfl
    | instruction m os => cases hn
    | data y n => cases hn; rfl
  rw [line_text hf, hlabels, await_old hx]
  rfl

end Layout

theorem definedNames_cons (ln : Line) (ls : List Line) :
    definedNames (ln :: ls) = ln.name?.toList ++ definedNames ls := by
  cases ln <;> rfl

/-- The first pass over lines whose names are all new. -/
theorem firstPass_nodup {ls : List Line} (hf : ∀ ln ∈ ls, ln.Fits) {l : Layout}
    (hn : (l.known ++ definedNames ls).Nodup) (n : Nat) :
    firstPass l n (ls.map Line.text ++ [[]]) =
      (.ok (ls.foldl Layout.after l).finish, (ls.foldl Layout.after l).finish.labels) := by
  induction ls generalizing l n with
  | nil => rfl
  | cons ln ls ih =>
    rw [definedNames_cons, ← List.append_assoc, ← Layout.known_after] at hn
    have hnew : ∀ x, ln.name? = some x → x ∉ l.known := by
      intro x hx hmem
      rw [Layout.known_after, hx, List.append_assoc] at hn
      exact (List.nodup_append.1 hn).2.2 x hmem x (by simp) rfl
    rw [List.map_cons, List.cons_append, firstPass, Layout.line_new (hf ln (by simp)) hnew]
    exact ih (fun k hk => hf k (by simp [hk])) hn (n + 1)

/-- The first pass over lines with a name that comes twice. -/
theorem firstPass_duplicate {ls : List Line} (hf : ∀ ln ∈ ls, ln.Fits) {l : Layout}
    (hk : l.known.Nodup) (hn : ¬(l.known ++ definedNames ls).Nodup) (n : Nat) :
    ∃ i x, 2 ≤ (l.known ++ definedNames ls).count x ∧
      (firstPass l n (ls.map Line.text ++ [[]])).1 = .error ⟨i, .duplicateLabel x⟩ := by
  induction ls generalizing l n with
  | nil => exact absurd (by simpa [definedNames] using hk) hn
  | cons ln ls ih =>
    rw [definedNames_cons, ← List.append_assoc, ← Layout.known_after] at hn ⊢
    rw [List.map_cons, List.cons_append, firstPass]
    by_cases hnew : ∀ x, ln.name? = some x → x ∉ l.known
    · rw [Layout.line_new (hf ln (by simp)) hnew]
      refine ih (fun k hk => hf k (by simp [hk])) ?_ hn (n + 1)
      rw [Layout.known_after, List.nodup_append]
      refine ⟨hk, by cases ln.name? <;> simp, fun x hx y hy hxy => ?_⟩
      subst hxy
      exact hnew x (Option.mem_toList.1 hy) hx
    · push Not at hnew
      obtain ⟨x, hx, hmem⟩ := hnew
      rw [Layout.line_old (hf ln (by simp)) hx hmem]
      refine ⟨n, x, ?_, rfl⟩
      have hpos := List.count_pos_iff.2 hmem
      rw [Layout.known_after, hx, List.count_append, List.count_append, Option.toList_some,
        List.count_singleton_self]
      omega

/-- The labels of the lines stand for the indexes where they are written. -/
def Labels.Place (ls : Labels) : Nat → List Line → Prop
  | _, [] => True
  | k, .label x :: cs => ls.target? x = some (.code k) ∧ ls.Place k cs
  | k, .instruction _ _ :: cs => ls.Place (k + 1) cs
  | k, .data _ _ :: cs => ls.Place k cs

namespace Layout

variable {l : Layout} {x : Text} {t : Target}

theorem target?_bind (h : l.labels.target? x = some t) (u : Target) :
    (l.bind u).labels.target? x = some t := by
  rw [bind, Labels.bind, Labels.target?_append, h]
  rfl

theorem target?_after (h : l.labels.target? x = some t) (ln : Line) :
    (l.after ln).labels.target? x = some t := by
  cases ln with
  | label y => exact h
  | instruction m os => exact target?_bind h _
  | data y n => exact target?_bind (l := { l with pending := l.pending ++ [y] }) h _

/-- A label keeps its place. -/
theorem target?_foldl (h : l.labels.target? x = some t) (ls : List Line) :
    (ls.foldl after l).labels.target? x = some t := by
  induction ls generalizing l with
  | nil => exact h
  | cons ln ls ih => exact ih (target?_after h ln)

/-- A waiting label stands for the next instruction. -/
theorem target?_waiting {cs : List Line} (hc : ∀ ln ∈ cs, ln.IsCode) (hx : x ∈ l.pending)
    (hnew : x ∉ l.labels.map Prod.fst) (m : Mnemonic) (os : List Operand) (rest : List Line) :
    ((cs ++ .instruction m os :: rest).foldl after l).labels.target? x = some (.code l.index) := by
  induction cs generalizing l with
  | nil => exact target?_foldl (Labels.target?_bind_of_mem hnew hx) rest
  | cons ln cs ih =>
    cases ln with
    | label y =>
      exact ih (l := l.after (.label y)) (fun k hk => hc k (by simp [hk]))
        (List.mem_append_left _ hx) hnew
    | instruction m' os' =>
      have hbound : (l.after (.instruction m' os')).labels.target? x = some (.code l.index) :=
        Labels.target?_bind_of_mem hnew hx
      exact target?_foldl hbound _
    | data y n => exact False.elim (hc (.data y n) (by simp))

/-- Every label before an instruction gets the place where it is written. -/
theorem place_foldl {cs : List Line} (hc : ∀ ln ∈ cs, ln.IsCode)
    (hn : (l.known ++ definedNames cs).Nodup) (m : Mnemonic) (os : List Operand)
    (rest : List Line) :
    ((cs ++ .instruction m os :: rest).foldl after l).labels.Place l.index cs := by
  induction cs generalizing l with
  | nil => trivial
  | cons ln cs ih =>
    rw [definedNames_cons, ← List.append_assoc, ← known_after] at hn
    have hcs : ∀ k ∈ cs, k.IsCode := fun k hk => hc k (by simp [hk])
    have hrest := ih hcs hn
    cases ln with
    | label y =>
      refine ⟨target?_waiting (l := l.after (.label y)) hcs (by simp [after]) ?_ m os rest, hrest⟩
      intro hy
      have hnd := (List.nodup_append.1 hn).1
      rw [known_after] at hnd
      exact (List.nodup_append.1 hnd).2.2 y (List.mem_append_left _ hy) y (by simp [Line.name?]) rfl
    | instruction m' os' => exact hrest
    | data y n => exact False.elim (hc (.data y n) (by simp))

/-- Code gives no label an address. -/
theorem code_foldl {cs : List Line} (hc : ∀ ln ∈ cs, ln.IsCode)
    (hl : ∀ p ∈ l.labels, ∃ k, p.2 = .code k) :
    ∀ p ∈ (cs.foldl after l).labels, ∃ k, p.2 = .code k := by
  induction cs generalizing l with
  | nil => exact hl
  | cons ln cs ih =>
    refine ih (fun k hk => hc k (by simp [hk])) ?_
    cases ln with
    | label y => exact hl
    | instruction m os =>
      intro p hp
      rcases List.mem_append.1 hp with hp | hp
      · exact hl p hp
      · obtain ⟨y, -, rfl⟩ := List.mem_map.1 hp
        exact ⟨_, rfl⟩
    | data y n => exact False.elim (hc (.data y n) (by simp))

/-- The labels of words of data at consecutive addresses. -/
def dataLabels (a : Word) : List Text → Labels
  | [] => []
  | y :: ds => (y, .data a) :: dataLabels (a + 1) ds

theorem ofNat_succ_add (a : Word) (n : Nat) :
    a + 1 + Int64.ofNat n = a + Int64.ofNat (n + 1) := by
  rw [Int64.ofNat_add, Int64.add_assoc, Int64.add_comm (Int64.ofNat n)]
  rfl

theorem foldl_data (hp : l.pending = []) (ds : List Text) :
    (ds.map (Line.data · 1)).foldl after l =
      { l with
        labels := l.labels ++ dataLabels l.address ds
        address := l.address + Int64.ofNat ds.length } := by
  induction ds generalizing l with
  | nil =>
    simp [dataLabels]
  | cons y ds ih =>
    rw [List.map_cons, List.foldl_cons, ih (l := l.after (.data y 1)) rfl]
    simp [after, bind, Labels.bind, hp, dataLabels, ofNat_succ_add]

theorem map_fst_dataLabels (a : Word) (ds : List Text) : (dataLabels a ds).map Prod.fst = ds := by
  induction ds generalizing a with
  | nil => rfl
  | cons y ds ih => rw [dataLabels, List.map_cons, ih]

theorem target?_dataLabels {ds : List Text} (hx : x ∈ ds) (a : Word) :
    (dataLabels a ds).target? x = some (.data (a + Int64.ofNat (ds.idxOf x))) := by
  induction ds generalizing a with
  | nil => cases hx
  | cons y ds ih =>
    rw [dataLabels, Labels.target?, List.lookup_cons]
    by_cases hxy : x = y
    · subst hxy
      simp
    · have hne : (x == y) = false := by simpa using hxy
      rw [hne, List.idxOf_cons_ne _ (Ne.symm hxy)]
      rw [Nat.succ_eq_add_one, ← ofNat_succ_add]
      exact ih ((List.mem_cons.1 hx).resolve_left hxy) (a + 1)

theorem address_foldl {cs : List Line} (hc : ∀ ln ∈ cs, ln.IsCode) :
    (cs.foldl after l).address = l.address := by
  induction cs generalizing l with
  | nil => rfl
  | cons ln cs ih =>
    rw [List.foldl_cons, ih fun k hk => hc k (by simp [hk])]
    cases ln with
    | label y => rfl
    | instruction m os => rfl
    | data y n => exact False.elim (hc (.data y n) (by simp))

theorem known_foldl (cs : List Line) : (cs.foldl after l).known = l.known ++ definedNames cs := by
  induction cs generalizing l with
  | nil => simp [definedNames]
  | cons ln cs ih => rw [List.foldl_cons, ih, known_after, definedNames_cons, List.append_assoc]

end Layout

namespace Labels

variable {ls : Labels} {cs : List Line} {k : Nat}

theorem Place.append_instruction (h : ls.Place k cs) (m : Mnemonic) (os : List Operand) :
    ls.Place k (cs ++ [.instruction m os]) := by
  induction cs generalizing k with
  | nil => trivial
  | cons ln cs ih =>
    cases ln with
    | label x => exact ⟨h.1, ih h.2⟩
    | instruction m' os' => exact ih (k := k + 1) h
    | data x n => exact ih (k := k) h

theorem Place.code_of_mem (h : ls.Place k cs) {x : Text} (hx : x ∈ labels cs) :
    ∃ i, ls.target? x = some (.code i) := by
  induction cs generalizing k with
  | nil => cases hx
  | cons ln cs ih =>
    cases ln with
    | label y =>
      rcases List.mem_cons.1 hx with rfl | hx
      · exact ⟨k, h.1⟩
      · exact ih h.2 hx
    | instruction m os => exact ih (k := k + 1) h hx
    | data y n => exact ih (k := k) h hx

/-- The labels of code with words of data behind it. -/
structure Lays (ls : Labels) (cs : List Line) (ds : List Text) : Prop where
  place : ls.Place 0 cs
  address : ∀ x ∈ ds, ls.target? x = some (.data (Int64.ofNat (ds.idxOf x)))
  mem_data : ∀ x a, ls.target? x = some (.data a) → x ∈ ds

end Labels

theorem definedNames_code {cs : List Line} (hc : ∀ ln ∈ cs, ln.IsCode) :
    definedNames cs = labels cs := by
  refine List.filterMap_congr fun ln hln => ?_
  cases ln with
  | label x => rfl
  | instruction m os => rfl
  | data x n => exact False.elim (hc (.data x n) hln)

theorem definedNames_data (ds : List Text) : definedNames (ds.map (Line.data · 1)) = ds := by
  rw [definedNames, List.filterMap_map]
  exact List.filterMap_some

/-- The labels of code that ends in an instruction, with one word of data for each name behind it. -/
theorem Layout.lays {cs : List Line} {m : Mnemonic} {os : List Operand} {ds : List Text}
    (hc : ∀ ln ∈ cs, ln.IsCode) (hm : (Line.instruction m os).IsCode)
    (hn : (Assembly.labels cs ++ ds).Nodup) {l : Layout}
    (hl : l = ((cs ++ .instruction m os :: ds.map (Line.data · 1)).foldl after
      { labels := [] }).finish) :
    l.labels.Lays (cs ++ [.instruction m os]) ds ∧ l.address = Int64.ofNat ds.length := by
  have hnd := List.nodup_append.1 hn
  set l₁ := (cs.foldl after { labels := [] }).after (.instruction m os) with hl₁
  have hp : l₁.pending = [] := rfl
  have ha : l₁.address = 0 := address_foldl hc
  have hkeys : l₁.labels.map Prod.fst = Assembly.labels cs := by
    have hk : l₁.known = Assembly.labels cs := by
      rw [hl₁, known_after, known_foldl, definedNames_code hc]
      simp [known, Line.name?]
    simpa [known, hp] using hk
  have hfold : (cs ++ .instruction m os :: ds.map (Line.data · 1)).foldl after { labels := [] } =
      { l₁ with
        labels := l₁.labels ++ dataLabels 0 ds
        address := Int64.ofNat ds.length } := by
    rw [List.foldl_append, List.foldl_cons, ← hl₁, foldl_data hp, ha]
    simp
  have hlabels : l.labels = l₁.labels ++ dataLabels 0 ds := by
    rw [hl, hfold]
    simp [finish, bind, Labels.bind, hp]
  have hplace : l.labels.Place 0 cs := by
    have h := place_foldl (l := { labels := [] }) hc
      (by simpa [known, definedNames_code hc] using hnd.1) m os (ds.map (Line.data · 1))
    rw [hfold] at h
    rw [hlabels]
    exact h
  refine ⟨⟨hplace.append_instruction m os, fun x hx => ?_, fun x a hx => ?_⟩, ?_⟩
  · have hnew : x ∉ l₁.labels.map Prod.fst := by
      rw [hkeys]
      exact fun h => hnd.2.2 x h x hx rfl
    rw [hlabels, Labels.target?_append, Labels.target?_eq_none hnew, target?_dataLabels hx]
    simp
  · rw [hlabels, Labels.target?_append] at hx
    cases h₁ : l₁.labels.target? x with
    | none =>
      rw [h₁, Option.none_or] at hx
      rw [← map_fst_dataLabels 0 ds, ← Labels.isSome_target?_iff, hx]
      rfl
    | some t =>
      rw [h₁, Option.some_or, Option.some.injEq] at hx
      have hcode : ∀ ln ∈ cs ++ [Line.instruction m os], ln.IsCode :=
        List.forall_mem_append.2 ⟨hc, List.forall_mem_singleton.2 hm⟩
      have hall := code_foldl (l := { labels := [] }) hcode (by simp)
      rw [List.foldl_append] at hall
      obtain ⟨k, hk⟩ := hall _ (Labels.mem_of_target? h₁)
      rw [hx] at hk
      cases hk
  · rw [hl, hfold]
    rfl

end Assembler

end OnePass
