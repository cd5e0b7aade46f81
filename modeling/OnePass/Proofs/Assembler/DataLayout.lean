import Mathlib.Data.List.Induction
import OnePass.Proofs.Assembler.Bounds

namespace OnePass

open Assembler Machine

namespace Assembler

variable {ss : List Statement} {s : Statement} {i : Nat} {x : Text}

/-- The name is written on line `i`, or on a line before it with no mnemonic from there on. -/
def Heads (ss : List Statement) (i : Nat) (x : Text) : Prop :=
  ∃ j s, j ≤ i ∧ ss[j]? = some s ∧ x ∈ s.labels ∧
    ∀ k s', j ≤ k → k < i → ss[k]? = some s' → s'.mnemonic = none

/-- What heads a line with a mnemonic stands for its place. -/
theorem Heads.marks (h : Heads ss i x) (hs : ss[i]? = some s) (hm : s.mnemonic.isSome = true) :
    Marks ss x (placeBehind (ss.take i) s) := by
  obtain ⟨j, s', hij, hj, hx, hgap⟩ := h
  exact ⟨j, s', hj, hx, .line hij hs hm hgap⟩

namespace Layout

variable {l l' : Layout}

theorem pending_settle (h : x ∈ (l.settle s).pending) : x ∈ l.pending ∧ s.mnemonic = none := by
  unfold settle at h
  split at h
  · cases h
  · rename_i hd
    split at h
    · cases h
    · rename_i hi
      exact ⟨h, mnemonic_eq_none (by simpa using hd) (by simpa using hi)⟩

/-- A label waits since the line where it is written, if no line before it left one waiting. -/
theorem pending_pasts (hl : l.pending = []) (ss : List Statement) {s : Statement}
    (hx : x ∈ ((ss.foldl past l).wait s.labels).pending) : Heads (ss ++ [s]) ss.length x := by
  induction ss using List.reverseRecOn generalizing s with
  | nil =>
    have hmem : x ∈ s.labels := by simpa [wait, hl] using hx
    exact ⟨0, s, Nat.le_refl _, rfl, hmem, by simp⟩
  | append_singleton ss t ih =>
    have hlast : (ss ++ [t] ++ [s])[(ss ++ [t]).length]? = some s := by simp
    rw [List.foldl_append] at hx
    rcases List.mem_append.1 hx with hx | hx
    · -- the label waits since before, so the line above has no mnemonic
      obtain ⟨hwaits, hnone⟩ := pending_settle hx
      obtain ⟨j, u, hj, hu, hmem, hgap⟩ := ih hwaits
      have hlt : j < (ss ++ [t]).length := by
        rw [List.length_append, List.length_singleton]
        omega
      refine ⟨j, u, by omega, by rwa [List.getElem?_append_left hlt], hmem, ?_⟩
      intro k u' hjk hk hu'
      rw [List.getElem?_append_left hk] at hu'
      rcases Nat.lt_or_ge k ss.length with hlt' | hge
      · exact hgap k u' hjk hlt' hu'
      · rw [List.length_append, List.length_singleton] at hk
        obtain rfl : k = ss.length := by omega
        obtain rfl : t = u' := by simpa using hu'
        exact hnone
    · exact ⟨_, s, Nat.le_refl _, hlast, hx, by omega⟩

/-- A data directive that is accepted has a label. -/
theorem placeLine_pending (h : l.placeLine s = .ok l') (hd : s.isData = true) : l.pending ≠ [] := by
  obtain ⟨m, hm⟩ := Option.isSome_iff_exists.1 (isSome_mnemonic (.inl hd))
  have hdata : m = dataDirective := by simpa [Statement.isData, hm] using hd
  intro hnone
  rw [placeLine, hm] at h
  dsimp only at h
  rw [if_pos hdata, hnone] at h
  cases hsize : dataSize s.operands with
  | error e =>
    rw [hsize] at h
    cases h
  | ok n =>
    rw [hsize] at h
    cases h

theorem line_pending {raw : Text} (h : l.line raw = .ok l') (hk : l.known.Nodup)
    (hread : Statement.read raw = .ok s) (hd : s.isData = true) :
    (l.wait s.labels).pending ≠ [] := by
  rw [line, hread] at h
  change (l.await s.labels >>= fun l => l.placeLine s) = _ at h
  cases hawait : l.await s.labels with
  | error e =>
    rw [hawait] at h
    cases h
  | ok l₁ =>
    rw [hawait] at h
    obtain ⟨rfl, -⟩ := await_eq_ok hawait hk
    exact placeLine_pending h hd

end Layout

/-- When the first pass accepts a text, a label waits at each of its data directives. -/
theorem firstPass_pending {raws : List Text} {l l' : Layout} {n : Nat} {ls : Labels}
    (h : firstPass l n raws = (.ok l', ls)) (hk : l.known.Nodup) (hread : ReadAs raws ss)
    (hs : ss[i]? = some s) (hd : s.isData = true) :
    (((ss.take i).foldl Layout.past l).wait s.labels).pending ≠ [] := by
  induction hread generalizing l n i with
  | nil => cases hs
  | @cons raw t raws ss ht _ ih =>
    obtain ⟨l₁, hline, hrest⟩ := firstPass_cons_eq_ok h
    cases i with
    | zero =>
      obtain rfl : t = s := by simpa using hs
      exact Layout.line_pending hline hk ht hd
    | succ i =>
      obtain ⟨u, hu, -, rfl, hk₁⟩ := Layout.line_eq_ok hline hk
      obtain rfl : u = t := Except.ok.inj (hu.symm.trans ht)
      exact ih hrest hk₁ (by simpa using hs)

/-- Every data directive of a text that is accepted is headed by a name. -/
theorem exists_heads {text : Text} {p : Assembled} (h : assemble text = .ok p)
    (hread : ReadAs text.lines ss) (hs : ss[i]? = some s) (hd : s.isData = true) :
    ∃ x, Heads ss i x := by
  obtain ⟨l, hfirst, -, -⟩ := passes_of_assemble h
  have hpending := firstPass_pending hfirst (by simp [Layout.known]) hread hs hd
  obtain ⟨x, hx⟩ := List.exists_mem_of_ne_nil _ hpending
  obtain ⟨j, t, hj, ht, hmem, hgap⟩ := Layout.pending_pasts rfl (ss.take i) hx
  have hi : i < ss.length := (List.getElem?_eq_some_iff.1 hs).1
  have hlength : (ss.take i).length = i := List.length_take_of_le (Nat.le_of_lt hi)
  have hlines : ss.take i ++ [s] = ss.take (i + 1) := by rw [List.take_add_one, hs]; rfl
  rw [hlength] at hj hgap
  rw [hlines, List.getElem?_take_of_lt (by omega)] at ht
  refine ⟨x, j, t, hj, ht, hmem, ?_⟩
  intro k t' hjk hk ht'
  apply hgap k t' hjk hk
  rwa [hlines, List.getElem?_take_of_lt (by omega)]

/-- The words below the sum of all sizes lie in one line each. -/
theorem exists_line {k : Nat} (h : k < wordCount ss) :
    ∃ i s, ss[i]? = some s ∧ wordCount (ss.take i) ≤ k ∧ k < wordCount (ss.take i) + s.words := by
  induction ss generalizing k with
  | nil => cases h
  | cons s ss ih =>
    rw [wordCount] at h
    by_cases hk : k < s.words
    · exact ⟨0, s, rfl, by simp [wordCount], by simpa [wordCount] using hk⟩
    · obtain ⟨i, t, ht, hle, hlt⟩ := ih (k := k - s.words) (by omega)
      refine ⟨i + 1, t, by simpa using ht, ?_, ?_⟩
      · rw [List.take_succ_cons, wordCount]
        omega
      · rw [List.take_succ_cons, wordCount]
        omega

theorem wordCount_take_le {i j : Nat} (h : i ≤ j) (ss : List Statement) :
    wordCount (ss.take i) ≤ wordCount (ss.take j) := by
  obtain ⟨rest, hrest⟩ := List.take_prefix_take_left (l := ss) h
  rw [← hrest, wordCount_append]
  omega

end Assembler

namespace Assembled

/-- The data directive on line `i` has `n` words from address `a` on: its labels stand for `a`, and it asks for
`n` words. -/
structure Region (p : Assembled) (ss : List Statement) (i : Nat) (a : Word) (n : Nat) : Prop where
  size : ∃ s, ss[i]? = some s ∧ s.isData = true ∧ s.words = n
  address : ∃ x, Heads ss i x ∧ p.labels.target? x = some (.data a)

/-- The data fill the memory: its size is the sum of all sizes, a machine that has as many words loads it, and
the regions follow each other and leave nothing out. -/
structure Packed (p : Assembled) (ss : List Statement) : Prop where
  size : p.dataSize.toInt = wordCount ss
  loads : ∀ (m : Machine) (capacity : Nat), wordCount ss ≤ capacity →
    ∃ m₀, m.load? p.program capacity = some m₀ ∧ m₀.memory.size = wordCount ss
  ordered : ∀ i j a b n k, i < j → p.Region ss i a n → p.Region ss j b k → a.toInt + n ≤ b.toInt
  filled : ∀ k : Int, 0 ≤ k ∧ k < p.dataSize.toInt ↔
    ∃ i a n, p.Region ss i a n ∧ a.toInt ≤ k ∧ k < a.toInt + n

variable {text : Text} {p : Assembled} {ss : List Statement}

/-- The one region of a data directive begins behind the words of the directives before it. -/
theorem region_iff (h : assemble text = .ok p) (hread : ReadAs text.lines ss) {i : Nat} {a : Word}
    {n : Nat} :
    p.Region ss i a n ↔ ∃ s, ss[i]? = some s ∧ s.isData = true ∧
      a = Int64.ofNat (wordCount (ss.take i)) ∧ n = s.words := by
  obtain ⟨ss', hread', -, hnames, hlabels, -, -⟩ := assemble_eq_ok h
  obtain rfl : ss' = ss := hread'.eq_map.trans hread.eq_map.symm
  have hplace : ∀ {s : Statement} {x : Text}, ss'[i]? = some s → s.isData = true →
      Heads ss' i x → p.labels.target? x = some (.data (Int64.ofNat (wordCount (ss'.take i)))) := by
    intro s x hs hd hx
    have hmarks := hx.marks hs (isSome_mnemonic (.inl hd))
    rw [placeBehind, if_pos hd] at hmarks
    rw [hlabels]
    exact (target?_iff_marks hnames _ _).2 hmarks
  constructor
  · intro hregion
    obtain ⟨s, hs, hd, hn⟩ := hregion.size
    obtain ⟨x, hx, ha⟩ := hregion.address
    rw [hplace hs hd hx] at ha
    cases ha
    exact ⟨s, hs, hd, rfl, hn.symm⟩
  · intro hline
    obtain ⟨s, hs, hd, rfl, rfl⟩ := hline
    obtain ⟨x, hx⟩ := exists_heads h hread hs hd
    exact ⟨⟨s, hs, hd, rfl⟩, x, hx, hplace hs hd hx⟩

/-- While all words can be counted, the data fill the memory. -/
theorem packed_of_lt (h : assemble text = .ok p) (hread : ReadAs text.lines ss)
    (hsize : p.dataSize = Int64.ofNat (wordCount ss)) (hlt : wordCount ss < wordLimit) :
    p.Packed ss := by
  have hcount : p.dataSize.toInt = wordCount ss := by rw [hsize, toInt_ofNat hlt]
  have hbound : ∀ {i : Nat} {s : Statement}, ss[i]? = some s →
      wordCount (ss.take i) + s.words ≤ wordCount ss := fun hs => wordCount_take_add_le hs
  refine ⟨hcount, ?_, ?_, ?_⟩
  · intro m capacity hfits
    have hprogram : p.program.dataSize.toInt = wordCount ss := hcount
    have hfits' : p.program.dataSize.toInt ≤ capacity := by omega
    obtain ⟨m₀, hload, hmemory⟩ := exists_load? (by omega) hfits' m
    exact ⟨m₀, hload, by omega⟩
  · intro i j a b n k hij hi hj
    obtain ⟨s, hs, -, rfl, rfl⟩ := (region_iff h hread).1 hi
    obtain ⟨t, ht, -, rfl, rfl⟩ := (region_iff h hread).1 hj
    have hnext : ss.take (i + 1) = ss.take i ++ [s] := by rw [List.take_add_one, hs]; rfl
    have hle := wordCount_take_le (Nat.succ_le_of_lt hij) ss
    have hs' := hbound hs
    have ht' := hbound ht
    rw [Nat.succ_eq_add_one, hnext, wordCount_append, wordCount, wordCount] at hle
    rw [toInt_ofNat (by omega), toInt_ofNat (by omega)]
    omega
  · intro k
    rw [hcount]
    constructor
    · intro hk
      have hk' : k.toNat < wordCount ss := by omega
      obtain ⟨i, s, hs, hle, hin⟩ := exists_line hk'
      have hd : s.isData = true := by
        by_contra hd
        have hwords : s.words = 0 := by simp [Statement.words, hd]
        omega
      have hs' := hbound hs
      refine ⟨i, _, _, (region_iff h hread).2 ⟨s, hs, hd, rfl, rfl⟩, ?_⟩
      rw [toInt_ofNat (by omega)]
      omega
    · intro hk
      obtain ⟨i, a, n, hregion, hle, hin⟩ := hk
      obtain ⟨s, hs, -, rfl, rfl⟩ := (region_iff h hread).1 hregion
      have hs' := hbound hs
      rw [toInt_ofNat (by omega)] at hle hin
      omega

end Assembled

open Assembled

variable {text : Text} {p : Assembled}

/-- The layout of a text that is accepted. The size of the data is the sum of all sizes, wrapped, and each data
directive has one region, which begins behind those before it, wrapped as well. The regions fill the memory
one behind the other exactly if the sum is a machine word. -/
theorem assemble_packed_iff (h : assemble text = .ok p) :
    ∃ ss, ReadAs text.lines ss ∧ p.dataSize = Int64.ofNat (wordCount ss) ∧
      (∀ i s, ss[i]? = some s → s.isData = true → ∀ a n, p.Region ss i a n ↔
        a = Int64.ofNat (wordCount (ss.take i)) ∧ n = s.words) ∧
      (p.Packed ss ↔ wordCount ss < wordLimit) := by
  obtain ⟨ss, hread, -, -, -, hsize, -⟩ := assemble_eq_ok h
  refine ⟨ss, hread, hsize, ?_, ?_, packed_of_lt h hread hsize⟩
  · intro i s hs hd a n
    rw [region_iff h hread]
    constructor
    · intro hline
      obtain ⟨t, ht, -, ha, hn⟩ := hline
      obtain rfl : s = t := Option.some.inj (hs.symm.trans ht)
      exact ⟨ha, hn⟩
    · intro hline
      exact ⟨s, hs, hd, hline⟩
  · intro hpacked
    have htop := p.dataSize.toInt_lt
    have hw : wordLimit = 9223372036854775808 := rfl
    have hsum := hpacked.size
    omega

/-- Two regions, the second under two labels. -/
def sideBySide : Text := "a: data 5\nb: c:\n  data 1\n"

theorem assemble_packed_iff_sideBySide :
    ∃ p, assemble sideBySide = .ok p ∧ p.dataSize.toInt = 6 ∧
      ∃ ss, ReadAs sideBySide.lines ss ∧ wordCount ss = 6 ∧ p.Packed ss := by
  have hok : (assemble sideBySide).toOption.map (fun p => p.dataSize.toInt) = some 6 := by
    decide +kernel
  have hwords : dataWords sideBySide = 6 := by decide +kernel
  obtain ⟨p, hp, hsize⟩ := exists_of_assemble_map hok
  obtain ⟨ss, hread, -, -, hpacked⟩ := assemble_packed_iff hp
  have hcount : wordCount ss = 6 := (congrArg wordCount hread.eq_map).trans hwords
  exact ⟨p, hp, hsize, ss, hread, hcount, hpacked.2 (by rw [hcount]; decide)⟩

/-- One word more than can be counted. -/
def overfull : Text := "a: data 9223372036854775807\nb: data 1\n"

/-- It is accepted with data of negative size, which cannot be loaded. -/
theorem overfull_not_packed :
    ∃ p, assemble overfull = .ok p ∧ p.dataSize.toInt = -9223372036854775808 ∧
      dataWords overfull = 9223372036854775808 ∧
      (∀ (m : Machine) (capacity : Nat), m.load? p.program capacity = none) ∧
      ∀ ss, ReadAs overfull.lines ss → ¬p.Packed ss := by
  have hok : (assemble overfull).toOption.map (fun p => p.dataSize.toInt) =
      some (-9223372036854775808) := by decide +kernel
  obtain ⟨p, hp, hsize⟩ := exists_of_assemble_map hok
  have hnegative : p.program.dataSize.toInt < 0 := by
    change p.dataSize.toInt < 0
    omega
  refine ⟨p, hp, hsize, by decide +kernel, fun m capacity => if_pos (.inl hnegative), ?_⟩
  intro ss _ hpacked
  have hsum := hpacked.size
  omega

end OnePass
