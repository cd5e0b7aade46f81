import Mathlib.Data.List.Nodup
import OnePass.Proofs.Assembler.Placement

namespace OnePass.Assembler

open Machine

/-- A line with a mnemonic other than the data directive. -/
def Statement.isInstruction (s : Statement) : Bool := s.mnemonic.any (· != Layout.dataDirective)

def Statement.isData (s : Statement) : Bool := s.mnemonic.any (· == Layout.dataDirective)

/-- The words of memory that a line asks for. -/
def Statement.words (s : Statement) : Nat :=
  if s.isData then ((dataSize s.operands).toOption.getD 0).toInt.toNat else 0

/-- The mnemonic is the data directive with a size, or the name of an instruction, or there is none. -/
structure Statement.Legal (s : Statement) : Prop where
  size : s.isData = true → 0 < s.words
  named : s.isInstruction = true → (s.mnemonic.bind Mnemonic.ofName?).isSome = true

/-- How many of the lines hold an instruction. -/
def instructionCount (ss : List Statement) : Nat := ss.countP Statement.isInstruction

/-- How many words of memory the lines ask for. -/
def wordCount : List Statement → Nat
  | [] => 0
  | s :: ss => s.words + wordCount ss

/-- The names of all labels, in order. -/
def labelNames (ss : List Statement) : List Text := ss.flatMap Statement.labels

/-- The place of a line with a mnemonic behind other lines; addresses wrap. -/
def placeBehind (before : List Statement) (s : Statement) : Target :=
  if s.isData then .data (Int64.ofNat (wordCount before)) else .code (instructionCount before)

/-- What a label on line `i` stands for: the place of the first line from there on with a mnemonic, or the
end of the code. -/
inductive Resolves (ss : List Statement) (i : Nat) : Target → Prop where
  | line {j : Nat} {s : Statement} (hij : i ≤ j) (hs : ss[j]? = some s)
      (hm : s.mnemonic.isSome = true)
      (hgap : ∀ k s', i ≤ k → k < j → ss[k]? = some s' → s'.mnemonic = none) :
      Resolves ss i (placeBehind (ss.take j) s)
  | behind (hgap : ∀ k s', i ≤ k → ss[k]? = some s' → s'.mnemonic = none) :
      Resolves ss i (.code (instructionCount ss))

/-- The name is written as a label, and its target is found from the line where it is written. -/
def Marks (ss : List Statement) (x : Text) (t : Target) : Prop :=
  ∃ i s, ss[i]? = some s ∧ x ∈ s.labels ∧ Resolves ss i t

section Lines

variable {ss before rest : List Statement} {s : Statement} {i : Nat} {t t' : Target}

theorem instructionCount_append :
    instructionCount (before ++ rest) = instructionCount before + instructionCount rest :=
  List.countP_append

theorem wordCount_append : wordCount (before ++ rest) = wordCount before + wordCount rest := by
  induction before with
  | nil => simp [wordCount]
  | cons s before ih =>
    simp only [List.cons_append, wordCount, ih]
    omega

theorem Statement.counts_of_none (h : s.mnemonic = none) :
    s.isInstruction = false ∧ s.isData = false ∧ s.words = 0 := by
  have hi : s.isInstruction = false := by simp [Statement.isInstruction, h]
  have hd : s.isData = false := by simp [Statement.isData, h]
  exact ⟨hi, hd, by simp [Statement.words, hd]⟩

theorem Statement.isInstruction_eq (h : s.mnemonic.isSome = true) : s.isInstruction = !s.isData := by
  obtain ⟨m, hm⟩ := Option.isSome_iff_exists.1 h
  simp [Statement.isInstruction, Statement.isData, hm, bne]

theorem Resolves.unique (h : Resolves ss i t) (h' : Resolves ss i t') : t = t' := by
  cases h with
  | @line j s hij hs hm hgap =>
    cases h' with
    | @line j' s' hij' hs' hm' hgap' =>
      have hle : j ≤ j' := by
        by_contra hlt
        have hnone := hgap j' s' hij' (by omega) hs'
        simp [hnone] at hm'
      have hge : j' ≤ j := by
        by_contra hlt
        have hnone := hgap' j s hij (by omega) hs
        simp [hnone] at hm
      obtain rfl : j = j' := by omega
      rw [hs] at hs'
      cases hs'
      rfl
    | behind hgap' =>
      have hnone := hgap' j s hij hs
      simp [hnone] at hm
  | behind hgap =>
    cases h' with
    | @line j' s' hij' hs' hm' _ =>
      have hnone := hgap j' s' hij' hs'
      simp [hnone] at hm'
    | behind _ => rfl

/-- A line without a mnemonic leaves its labels to the next one. -/
theorem Resolves.skip (h : Resolves ss (i + 1) t) (hs : ss[i]? = some s) (hm : s.mnemonic = none) :
    Resolves ss i t := by
  cases h with
  | @line j s' hij hs' hm' hgap =>
    refine .line (by omega) hs' hm' fun k u hik hkj hu => ?_
    rcases Nat.eq_or_lt_of_le hik with rfl | hlt
    · rw [hs] at hu
      cases hu
      exact hm
    · exact hgap k u hlt hkj hu
  | behind hgap =>
    refine .behind fun k u hik hu => ?_
    rcases Nat.eq_or_lt_of_le hik with rfl | hlt
    · rw [hs] at hu
      cases hu
      exact hm
    · exact hgap k u hlt hu

/-- The place for labels that wait before the lines, where `index` and `address` come next. -/
def nextPlace (index : Nat) (address : Word) : List Statement → Target
  | [] => .code index
  | s :: ss =>
    if s.isData then .data address
    else if s.isInstruction then .code index
    else nextPlace index address ss

theorem mnemonic_eq_none (hd : s.isData = false) (hi : s.isInstruction = false) :
    s.mnemonic = none := by
  cases hm : s.mnemonic with
  | none => rfl
  | some m =>
    have h := Statement.isInstruction_eq (s := s) (by rw [hm]; rfl)
    rw [hd, hi] at h
    cases h

theorem isSome_mnemonic (h : s.isData = true ∨ s.isInstruction = true) :
    s.mnemonic.isSome = true := by
  cases hm : s.mnemonic with
  | none =>
    have hnone := Statement.counts_of_none hm
    simp [hnone.1, hnone.2.1] at h
  | some m => rfl

/-- The next place after the lines before `i` is what a label on line `i` stands for. -/
theorem resolves_nextPlace (ss : List Statement) (i : Nat) :
    Resolves ss i (nextPlace (instructionCount (ss.take i)) (Int64.ofNat (wordCount (ss.take i)))
      (ss.drop i)) := by
  obtain ⟨rest, hrest⟩ : ∃ rest, ss.drop i = rest := ⟨_, rfl⟩
  rw [hrest]
  induction rest generalizing i with
  | nil =>
    have hlen : ss.length ≤ i := List.drop_eq_nil_iff.1 hrest
    rw [List.take_of_length_le hlen]
    refine .behind fun k s hik hs => ?_
    rw [List.getElem?_eq_none (by omega)] at hs
    cases hs
  | cons s rest ih =>
    have hs : ss[i]? = some s := by rw [← List.head?_drop, hrest]; rfl
    have hdrop : ss.drop (i + 1) = rest := by rw [← List.tail_drop, hrest]; rfl
    have htake : ss.take (i + 1) = ss.take i ++ [s] := by rw [List.take_add_one, hs]; rfl
    have hnone : ∀ k s', i ≤ k → k < i → ss[k]? = some s' → s'.mnemonic = none := by omega
    rw [nextPlace]
    by_cases hd : s.isData = true
    · have hplace : placeBehind (ss.take i) s = .data (Int64.ofNat (wordCount (ss.take i))) := by
        rw [placeBehind, if_pos hd]
      rw [if_pos hd, ← hplace]
      exact .line (Nat.le_refl i) hs (isSome_mnemonic (.inl hd)) hnone
    · by_cases hi : s.isInstruction = true
      · have hplace : placeBehind (ss.take i) s = .code (instructionCount (ss.take i)) := by
          rw [placeBehind, if_neg hd]
        rw [if_neg hd, if_pos hi, ← hplace]
        exact .line (Nat.le_refl i) hs (isSome_mnemonic (.inr hi)) hnone
      · have hm : s.mnemonic = none := mnemonic_eq_none (by simpa using hd) (by simpa using hi)
        have hzero := Statement.counts_of_none hm
        have hcount : instructionCount (ss.take (i + 1)) = instructionCount (ss.take i) := by
          rw [htake, instructionCount_append]
          simp [instructionCount, hzero.1]
        have hwords : wordCount (ss.take (i + 1)) = wordCount (ss.take i) := by
          rw [htake, wordCount_append]
          simp [wordCount, hzero.2.2]
        have hnext := ih (i + 1) hdrop
        rw [hcount, hwords] at hnext
        rw [if_neg hd, if_neg hi]
        exact hnext.skip hs hm

end Lines

namespace Layout

variable {l l' : Layout} {s : Statement} {ss : List Statement} {x : Text} {t : Target}

/-- More labels wait. -/
def wait (l : Layout) (names : List Text) : Layout := { l with pending := l.pending ++ names }

/-- The waiting labels get the place of a line, if it has one. -/
def settle (l : Layout) (s : Statement) : Layout :=
  if s.isData then
    { l.bind (.data l.address) with address := l.address + Int64.ofNat s.words }
  else if s.isInstruction then { l.bind (.code l.index) with index := l.index + 1 }
  else l

/-- The layout behind a line that is accepted. -/
def past (l : Layout) (s : Statement) : Layout := (l.wait s.labels).settle s

theorem known_settle (l : Layout) (s : Statement) : (l.settle s).known = l.known := by
  unfold settle
  split
  · exact known_bind _
  · split
    · exact known_bind _
    · rfl

theorem known_past (l : Layout) (s : Statement) : (l.past s).known = l.known ++ s.labels := by
  rw [past, known_settle]
  simp [known, wait]

theorem known_pasts (l : Layout) (ss : List Statement) :
    (ss.foldl past l).known = l.known ++ labelNames ss := by
  induction ss generalizing l with
  | nil => simp [labelNames]
  | cons s ss ih =>
    rw [List.foldl_cons, ih, known_past, List.append_assoc]
    simp [labelNames]

theorem names_finish (l : Layout) : l.finish.labels.map Prod.fst = l.known := by
  simp [finish, bind, Labels.bind, known, Function.comp_def]

theorem index_past (l : Layout) (s : Statement) :
    (l.past s).index = l.index + instructionCount [s] := by
  unfold past settle
  by_cases hd : s.isData = true
  · have hi := Statement.isInstruction_eq (isSome_mnemonic (.inl hd))
    simp [hd, instructionCount, hi, bind, wait]
  · by_cases hi : s.isInstruction = true
    · simp [hd, instructionCount, hi, bind, wait]
    · simp [hd, instructionCount, hi, wait]

theorem index_pasts (l : Layout) (ss : List Statement) :
    (ss.foldl past l).index = l.index + instructionCount ss := by
  induction ss generalizing l with
  | nil => rfl
  | cons s ss ih =>
    have happ : instructionCount ([s] ++ ss) = instructionCount [s] + instructionCount ss :=
      instructionCount_append
    rw [List.singleton_append] at happ
    rw [List.foldl_cons, ih, index_past, happ, Nat.add_assoc]

theorem address_past (l : Layout) (s : Statement) :
    (l.past s).address = l.address + Int64.ofNat s.words := by
  unfold past settle
  by_cases hd : s.isData = true
  · simp [hd, bind, wait]
  · have hw : s.words = 0 := by simp [Statement.words, hd]
    by_cases hi : s.isInstruction = true
    · simp [hd, hi, hw, bind, wait]
    · simp [hd, hi, hw, wait]

theorem address_pasts (l : Layout) (ss : List Statement) :
    (ss.foldl past l).address = l.address + Int64.ofNat (wordCount ss) := by
  induction ss generalizing l with
  | nil => simp [wordCount]
  | cons s ss ih =>
    rw [List.foldl_cons, ih, address_past, wordCount, Int64.ofNat_add, Int64.add_assoc]

theorem target?_settle (h : l.labels.target? x = some t) (s : Statement) :
    (l.settle s).labels.target? x = some t := by
  unfold settle
  split
  · exact target?_bind h _
  · split
    · exact target?_bind h _
    · exact h

theorem target?_pasts (h : l.labels.target? x = some t) (ss : List Statement) :
    (ss.foldl past l).finish.labels.target? x = some t := by
  induction ss generalizing l with
  | nil => exact target?_bind h _
  | cons s ss ih => exact ih (target?_settle (l := l.wait s.labels) h s)

/-- A waiting label gets the next place. -/
theorem target?_next (hx : x ∈ l.pending) (hnew : x ∉ l.labels.map Prod.fst) (s : Statement)
    (rest : List Statement) :
    (rest.foldl past (l.settle s)).finish.labels.target? x =
      some (nextPlace l.index l.address (s :: rest)) := by
  induction rest generalizing l s with
  | nil =>
    rw [nextPlace, settle]
    split
    · exact target?_pasts (Labels.target?_bind_of_mem hnew hx) []
    · split
      · exact target?_pasts (Labels.target?_bind_of_mem hnew hx) []
      · exact Labels.target?_bind_of_mem hnew hx
  | cons s' rest ih =>
    rw [nextPlace, settle]
    split
    · exact target?_pasts (Labels.target?_bind_of_mem hnew hx) _
    · split
      · exact target?_pasts (Labels.target?_bind_of_mem hnew hx) _
      · -- the line has no mnemonic, so the label waits on with those of the next line
        have hwait : x ∈ (l.wait s'.labels).pending := List.mem_append_left _ hx
        exact ih hwait hnew s'

/-- What a label of line `i` is bound to in the end. -/
theorem target?_line {i : Nat} (hs : ss[i]? = some s) (hx : x ∈ s.labels)
    (hn : (l.known ++ labelNames ss).Nodup) :
    (ss.foldl past l).finish.labels.target? x =
      some (nextPlace (l.index + instructionCount (ss.take i))
        (l.address + Int64.ofNat (wordCount (ss.take i))) (ss.drop i)) := by
  obtain ⟨hi, hget⟩ := List.getElem?_eq_some_iff.1 hs
  have hdrop : ss.drop i = s :: ss.drop (i + 1) := by rw [List.drop_eq_getElem_cons hi, hget]
  have hsplit : ss = ss.take i ++ s :: ss.drop (i + 1) := by rw [← hdrop, List.take_append_drop]
  have hnew : x ∉ ((ss.take i).foldl past l).labels.map Prod.fst := by
    intro hmem
    have hbefore : x ∈ ((ss.take i).foldl past l).known := List.mem_append_left _ hmem
    rw [known_pasts] at hbefore
    rw [hsplit] at hn
    have hnames : labelNames (ss.take i ++ s :: ss.drop (i + 1)) =
        labelNames (ss.take i) ++ (s.labels ++ labelNames (ss.drop (i + 1))) := by
      simp [labelNames]
    rw [hnames, ← List.append_assoc, List.nodup_append] at hn
    exact hn.2.2 x hbefore x (List.mem_append_left _ hx) rfl
  have hwait : x ∈ (((ss.take i).foldl past l).wait s.labels).pending := List.mem_append_right _ hx
  have hnext := target?_next hwait hnew s (ss.drop (i + 1))
  have hindex : (((ss.take i).foldl past l).wait s.labels).index =
      l.index + instructionCount (ss.take i) := index_pasts l (ss.take i)
  have haddress : (((ss.take i).foldl past l).wait s.labels).address =
      l.address + Int64.ofNat (wordCount (ss.take i)) := address_pasts l (ss.take i)
  rw [hindex, haddress, ← hdrop] at hnext
  rw [← hnext]
  conv_lhs => rw [hsplit, List.foldl_append, List.foldl_cons]
  rfl

/-- The names are new and all different. -/
theorem await_eq_ok {names : List Text} (h : l.await names = .ok l') (hk : l.known.Nodup) :
    l' = l.wait names ∧ (l.known ++ names).Nodup := by
  induction names generalizing l with
  | nil =>
    cases h
    refine ⟨by simp [wait], by simpa using hk⟩
  | cons n names ih =>
    rw [await] at h
    split at h
    · cases h
    · rename_i hnew
      rw [Labels.isSome_target?_iff, ← List.mem_append] at hnew
      change n ∉ l.known at hnew
      have hmore : (l.wait [n]).known = l.known ++ [n] := by simp [known, wait]
      have hk' : (l.wait [n]).known.Nodup := by
        rw [hmore, ← List.concat_eq_append]
        exact hk.concat hnew
      obtain ⟨rfl, hnodup⟩ := ih (l := l.wait [n]) h hk'
      rw [hmore, List.append_assoc] at hnodup
      exact ⟨by simp [wait], hnodup⟩

theorem dataSize_pos {ws : List Text} {n : Word} (h : dataSize ws = .ok n) : 0 < n := by
  unfold dataSize at h
  split at h
  · split at h
    · split at h
      · cases h
        assumption
      · cases h
    · cases h
  · cases h

theorem toInt_pos {n : Word} (h : 0 < n) : 0 < n.toInt := by
  rwa [Int64.lt_iff_toInt_lt, Int64.toInt_zero] at h

theorem ofNat_toNat {n : Word} (h : 0 < n) : Int64.ofNat n.toInt.toNat = n := by
  have hpos := toInt_pos h
  rw [← Int64.ofInt_eq_ofNat, Int.toNat_of_nonneg (by omega), Int64.ofInt_toInt]

theorem placeLine_eq_ok (h : l.placeLine s = .ok l') : l' = l.settle s ∧ s.Legal := by
  rw [placeLine] at h
  cases hm : s.mnemonic with
  | none =>
    rw [hm] at h
    cases h
    obtain ⟨hi, hd, -⟩ := Statement.counts_of_none hm
    refine ⟨by simp [settle, hi, hd], ?_, ?_⟩
    · simp [hd]
    · simp [hi]
  | some m =>
    rw [hm] at h
    dsimp only at h
    by_cases hdata : m = dataDirective
    · have hd : s.isData = true := by simp [Statement.isData, hm, hdata]
      have hi : s.isInstruction = false := by simp [Statement.isInstruction, hm, hdata]
      rw [if_pos hdata] at h
      cases hsize : dataSize s.operands with
      | error e =>
        rw [hsize] at h
        cases h
      | ok n =>
        have hwords : s.words = n.toInt.toNat := by
          rw [Statement.words, if_pos hd, hsize]
          rfl
        have hpos := toInt_pos (dataSize_pos hsize)
        rw [hsize] at h
        change (if l.pending.isEmpty then throw Cause.unlabelledData else pure _) = _ at h
        split at h
        · cases h
        · cases h
          refine ⟨?_, ?_, ?_⟩
          · rw [settle, if_pos hd, hwords, ofNat_toNat (dataSize_pos hsize)]
          · intro _
            omega
          · simp [hi]
    · have hd : s.isData = false := by simp [Statement.isData, hm, hdata]
      have hi : s.isInstruction = true := by simp [Statement.isInstruction, hm, hdata]
      rw [if_neg hdata] at h
      split at h
      · rename_i hname
        cases h
        refine ⟨by simp [settle, hi, hd], ?_, ?_⟩
        · simp [hd]
        · intro _
          rw [hm]
          exact hname
      · cases h

/-- A line that is accepted. -/
theorem line_eq_ok {raw : Text} (h : l.line raw = .ok l') (hk : l.known.Nodup) :
    ∃ s, Statement.read raw = .ok s ∧ s.Legal ∧ l' = l.past s ∧ l'.known.Nodup := by
  rw [line] at h
  cases hread : Statement.read raw with
  | error e =>
    rw [hread] at h
    cases h
  | ok s =>
    rw [hread] at h
    change (l.await s.labels >>= fun l => l.placeLine s) = _ at h
    cases hawait : l.await s.labels with
    | error e =>
      rw [hawait] at h
      cases h
    | ok l₁ =>
      rw [hawait] at h
      change l₁.placeLine s = .ok l' at h
      obtain ⟨rfl, hnodup⟩ := await_eq_ok hawait hk
      obtain ⟨rfl, hlegal⟩ := placeLine_eq_ok h
      refine ⟨s, rfl, hlegal, rfl, ?_⟩
      rwa [← known_past] at hnodup

end Layout

/-- The lines as they are read. -/
def ReadAs (raws : List Text) (ss : List Statement) : Prop :=
  List.Forall₂ (fun raw s => Statement.read raw = .ok s) raws ss

theorem firstPass_cons_eq_ok {raw : Text} {raws : List Text} {l l' : Layout} {n : Nat} {ls : Labels}
    (h : firstPass l n (raw :: raws) = (.ok l', ls)) :
    ∃ l₁, l.line raw = .ok l₁ ∧ firstPass l₁ (n + 1) raws = (.ok l', ls) := by
  rw [firstPass] at h
  cases hline : l.line raw with
  | error e =>
    rw [hline] at h
    cases h
  | ok l₁ =>
    rw [hline] at h
    exact ⟨l₁, rfl, h⟩

/-- The first pass over a text that is accepted. -/
theorem firstPass_eq_ok {raws : List Text} {l l' : Layout} {n : Nat} {ls : Labels}
    (h : firstPass l n raws = (.ok l', ls)) (hk : l.known.Nodup) :
    ∃ ss, ReadAs raws ss ∧ (∀ s ∈ ss, s.Legal) ∧ (l.known ++ labelNames ss).Nodup ∧
      l' = (ss.foldl Layout.past l).finish ∧ ls = l'.labels := by
  induction raws generalizing l n with
  | nil =>
    cases h
    exact ⟨[], .nil, by simp, by simpa [labelNames] using hk, rfl, rfl⟩
  | cons raw raws ih =>
    obtain ⟨l₁, hline, hrest⟩ := firstPass_cons_eq_ok h
    obtain ⟨s, hread, hlegal, rfl, hk₁⟩ := Layout.line_eq_ok hline hk
    obtain ⟨ss, hreads, hall, hnodup, hlast, hlabels⟩ := ih hrest hk₁
    refine ⟨s :: ss, .cons hread hreads, List.forall_mem_cons.2 ⟨hlegal, hall⟩, ?_, hlast, hlabels⟩
    rw [Layout.known_past, List.append_assoc] at hnodup
    simpa [labelNames] using hnodup

/-- After the first pass a label that is written stands for what its line says. -/
theorem target?_written {ss : List Statement} {s : Statement} {i : Nat} {x : Text}
    (hn : (labelNames ss).Nodup) (hs : ss[i]? = some s) (hx : x ∈ s.labels) :
    ∃ t, (ss.foldl Layout.past { labels := [] }).finish.labels.target? x = some t ∧
      Resolves ss i t := by
  have htarget := Layout.target?_line (l := { labels := [] }) hs hx hn
  have hindex : (0 : Nat) + instructionCount (ss.take i) = instructionCount (ss.take i) :=
    Nat.zero_add _
  have haddress : (0 : Word) + Int64.ofNat (wordCount (ss.take i)) =
      Int64.ofNat (wordCount (ss.take i)) := Int64.zero_add _
  rw [hindex, haddress] at htarget
  exact ⟨_, htarget, resolves_nextPlace ss i⟩

theorem target?_iff_marks {ss : List Statement} (hn : (labelNames ss).Nodup) (x : Text) (t : Target) :
    (ss.foldl Layout.past { labels := [] }).finish.labels.target? x = some t ↔ Marks ss x t := by
  constructor
  · intro h
    have hmem : x ∈ labelNames ss := by
      have hsome : ((ss.foldl Layout.past { labels := [] }).finish.labels.target? x).isSome = true := by
        simp [h]
      rw [Labels.isSome_target?_iff, Layout.names_finish, Layout.known_pasts] at hsome
      simpa [Layout.known] using hsome
    obtain ⟨s, hs, hx⟩ := List.mem_flatMap.1 hmem
    obtain ⟨i, hi⟩ := List.mem_iff_getElem?.1 hs
    obtain ⟨u, hu, hres⟩ := target?_written hn hi hx
    rw [h] at hu
    cases hu
    exact ⟨i, s, hi, hx, hres⟩
  · intro hmarks
    obtain ⟨i, s, hi, hx, hres⟩ := hmarks
    obtain ⟨u, hu, hres'⟩ := target?_written hn hi hx
    rw [hu, hres.unique hres']

end OnePass.Assembler
