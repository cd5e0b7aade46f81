import Mathlib.Data.List.Nodup
import OnePass.Assembly.Listing
import OnePass.Proofs.Text.Numeral

namespace OnePass.Assembly

/-- The name with this stem and number. -/
def numberedName (stem : Text) (i : Nat) : Text := "_" ++ stem ++ Text.ofNat i

section Numbers

variable {s t : Text} {i j : Nat}

theorem ofNat_inj (h : Text.ofNat i = Text.ofNat j) : i = j := by
  have hdigits : Nat.toDigits 10 i = Nat.toDigits 10 j := by
    rw [← Text.chars_ofChars (Nat.toDigits 10 i), ← Text.chars_ofChars (Nat.toDigits 10 j)]
    exact congrArg Text.chars h
  rw [← Nat.ofDigitChars_ten_toDigits (n := i), hdigits, Nat.ofDigitChars_ten_toDigits]

/-- Digits in front do not make a number smaller. -/
theorem le_of_ofNat_eq_append {ds : Text} (h : Text.ofNat j = ds ++ Text.ofNat i) : i ≤ j := by
  have hdigits : Nat.toDigits 10 j = ds.chars ++ Nat.toDigits 10 i := by
    have hchars := congrArg Text.chars h
    rw [Text.chars, Text.chars, List.map_append] at hchars
    change (Text.ofChars _).chars = Text.chars ds ++ (Text.ofChars _).chars at hchars
    rwa [Text.chars_ofChars, Text.chars_ofChars] at hchars
  calc i = Nat.ofDigitChars 10 (Nat.toDigits 10 i) 0 := Nat.ofDigitChars_ten_toDigits.symm
    _ ≤ Nat.ofDigitChars 10 (Nat.toDigits 10 i) (Nat.ofDigitChars 10 ds.chars 0) := by
      rw [@Nat.ofDigitChars_eq_ofDigitChars_zero (Nat.toDigits 10 i) (Nat.ofDigitChars 10 ds.chars 0)]
      exact Nat.le_add_left _ _
    _ = Nat.ofDigitChars 10 (Nat.toDigits 10 j) 0 := by rw [hdigits, Nat.ofDigitChars_append]
    _ = j := Nat.ofDigitChars_ten_toDigits

/-- Two numbered names are equal exactly if digits can be moved from the later number to the earlier stem. -/
theorem numberedName_eq_iff (h : i < j) :
    numberedName s i = numberedName t j ↔ ∃ ds, s = t ++ ds ∧ Text.ofNat j = ds ++ Text.ofNat i := by
  have hcancel : numberedName s i = numberedName t j ↔ s ++ Text.ofNat i = t ++ Text.ofNat j := by
    rw [numberedName, numberedName, List.append_assoc, List.append_assoc, List.append_cancel_left_eq]
  rw [hcancel, List.append_eq_append_iff]
  constructor
  · intro hsplit
    rcases hsplit with hfront | hback
    · -- the smaller number cannot end in the digits of the greater one
      obtain ⟨ds, -, hi⟩ := hfront
      exact absurd (le_of_ofNat_eq_append hi) (by omega)
    · exact hback
  · exact .inr

/-- A stem that does not end in a decimal digit. -/
def EndsPlain (s : Text) : Prop := s.getLast?.bind Glyph.digit? = none

instance : DecidablePred EndsPlain := fun s =>
  inferInstanceAs (Decidable (s.getLast?.bind Glyph.digit? = none))

/-- The stem takes no digits from the number. -/
theorem not_endsPlain_append {ds rest : Text} (hds : ds ≠ []) (hj : Text.ofNat j = ds ++ rest) :
    ¬EndsPlain (t ++ ds) := by
  obtain ⟨init, g, rfl⟩ : ∃ init g, ds = init ++ [g] := by
    refine ⟨ds.dropLast, ds.getLast hds, ?_⟩
    rw [List.dropLast_append_getLast]
  have hmem : g ∈ Text.ofNat j := by simp [hj]
  obtain ⟨c, hc, rfl⟩ := List.mem_map.1 hmem
  rw [EndsPlain, ← List.append_assoc, List.getLast?_concat, Option.bind_some,
    Glyph.digit?_char (Text.ofNat_digits hc)]
  simp

/-- Behind a stem that does not end in a digit the number can be read off. -/
theorem numberedName_ne (h : i < j) (hs : EndsPlain s) : numberedName s i ≠ numberedName t j := by
  rw [Ne, numberedName_eq_iff h]
  intro hdigits
  obtain ⟨ds, rfl, hj⟩ := hdigits
  refine not_endsPlain_append ?_ hj hs
  rintro rfl
  exact absurd (ofNat_inj hj) (by omega)

end Numbers

/-- A call for a label or a spill word, or one that puts a line. -/
inductive Call where
  | label (stem : Text)
  | spill
  | line (l : Line)
  deriving DecidableEq, Repr

/-- The stem of the name that the call hands out. -/
def Call.stem? : Call → Option Text
  | label stem => some (if stem.isEmpty then "L" else stem)
  | spill => some "spill"
  | line _ => none

/-- The stems of all names that the calls hand out, in order. -/
def stemsOf (cs : List Call) : List Text := cs.filterMap Call.stem?

/-- The stems with numbers from `n` on. -/
def numberFrom (n : Nat) (stems : List Text) : List Text :=
  (stems.zipIdx n).map fun p => numberedName p.1 p.2

namespace Listing

/-- The name that a call hands out, and the listing behind it. -/
def call (l : Listing) : Call → Option Text × Listing
  | .label stem => (some (l.newLabel stem).1, (l.newLabel stem).2)
  | .spill => (some l.newSpill.1, l.newSpill.2)
  | .line ln => (none, l.put ln)

/-- The names that the calls hand out one after the other. -/
def calls (l : Listing) : List Call → List Text
  | [] => []
  | c :: cs => (l.call c).1.toList ++ (l.call c).2.calls cs

variable {l : Listing}

theorem names_put (ln : Line) : (l.put ln).names = l.names := by
  unfold put keep
  split
  · rfl
  · split
    · split <;> rfl
    · rfl
    · split <;> rfl

/-- What one call does: it hands out the stem with the number of the names before, if it hands out a name. -/
theorem call_eq (l : Listing) (c : Call) :
    (l.call c).1 = c.stem?.map (numberedName · l.names.size) ∧
      (l.call c).2.names.size = l.names.size + c.stem?.toList.length := by
  cases c with
  | label stem => exact ⟨rfl, by simp [call, newLabel, Call.stem?]⟩
  | spill => exact ⟨rfl, by simp [call, newSpill, newLabel, Call.stem?]⟩
  | line ln => exact ⟨rfl, by simp [call, names_put, Call.stem?]⟩

/-- What the calls hand out: their stems, numbered on from the names before. -/
theorem calls_eq (l : Listing) (cs : List Call) :
    l.calls cs = numberFrom l.names.size (stemsOf cs) := by
  induction cs generalizing l with
  | nil => rfl
  | cons c cs ih =>
    obtain ⟨hname, hsize⟩ := call_eq l c
    rw [calls, ih, hname, hsize]
    cases hc : c.stem? with
    | none => simp [stemsOf, hc]
    | some stem => simp [stemsOf, hc, numberFrom]

end Listing

theorem getElem?_numberFrom (stems : List Text) (i : Nat) :
    (numberFrom 0 stems)[i]? = stems[i]?.map (numberedName · i) := by
  simp [numberFrom, Function.comp_def]

/-- The number `j` is that of `i` with digits in front, and the stem of the `i`-th name is that of the `j`-th with
these digits behind. -/
def Clash (stems : List Text) (i j : Nat) : Prop :=
  ∃ t ds, stems[i]? = some (t ++ ds) ∧ stems[j]? = some t ∧ Text.ofNat j = ds ++ Text.ofNat i

theorem nodup_numberFrom_iff (stems : List Text) :
    (numberFrom 0 stems).Nodup ↔ ∀ i j, i < j → ¬Clash stems i j := by
  have hlength : (numberFrom 0 stems).length = stems.length := by simp [numberFrom]
  rw [List.nodup_iff_getElem?_ne_getElem?, hlength]
  constructor
  · intro h i j hij hclash
    obtain ⟨t, ds, hi, hj, hdigits⟩ := hclash
    refine h i j hij (List.getElem?_eq_some_iff.1 hj).1 ?_
    rw [getElem?_numberFrom, getElem?_numberFrom, hi, hj]
    exact congrArg some ((numberedName_eq_iff hij).2 ⟨ds, rfl, hdigits⟩)
  · intro h i j hij hlt heq
    rw [getElem?_numberFrom, getElem?_numberFrom, List.getElem?_eq_getElem (Nat.lt_trans hij hlt),
      List.getElem?_eq_getElem hlt] at heq
    obtain ⟨ds, hs, hdigits⟩ := (numberedName_eq_iff hij).1 (Option.some.inj heq)
    refine h i j hij ⟨_, ds, ?_, List.getElem?_eq_getElem hlt, hdigits⟩
    rw [List.getElem?_eq_getElem (Nat.lt_trans hij hlt), hs]

/-- The names that a new listing hands out, whatever its output takes: the `i`-th is made of the `i`-th stem and
the number `i`. They are all different exactly if no two of them clash, so in particular if no stem ends in a
decimal digit. -/
theorem calls_nodup_iff (keeps : Bool) (room : Option Nat) (cs : List Call) :
    (∀ i, (Listing.calls { keeps, room } cs)[i]? = (stemsOf cs)[i]?.map (numberedName · i)) ∧
      ((Listing.calls { keeps, room } cs).Nodup ↔ ∀ i j, i < j → ¬Clash (stemsOf cs) i j) ∧
      ((∀ s ∈ stemsOf cs, EndsPlain s) → (Listing.calls { keeps, room } cs).Nodup) := by
  have hcalls : Listing.calls { keeps, room } cs = numberFrom 0 (stemsOf cs) := Listing.calls_eq _ cs
  rw [hcalls]
  refine ⟨getElem?_numberFrom _, nodup_numberFrom_iff _, ?_⟩
  intro hplain
  rw [nodup_numberFrom_iff]
  intro i j hij hclash
  obtain ⟨t, ds, hi, -, hdigits⟩ := hclash
  have heq : numberedName (t ++ ds) i = numberedName t j :=
    (numberedName_eq_iff hij).2 ⟨ds, rfl, hdigits⟩
  exact numberedName_ne hij (hplain _ (List.mem_of_getElem? hi)) heq

/-- Labels and spill words in turn. -/
def sharedCounter : List Call :=
  [.label "false", .label "done", .spill, .label "", .label "while_cond", .spill]

theorem calls_nodup_iff_sharedCounter :
    Listing.calls {} sharedCounter =
        ["_false0", "_done1", "_spill2", "_L3", "_while_cond4", "_spill5"].map Text.ofString ∧
      (Listing.calls {} sharedCounter).Nodup :=
  ⟨by decide, (calls_nodup_iff true none sharedCounter).2.2 (by decide)⟩

/-- A label whose stem ends in a digit, and the spill word with the number ten. -/
def crossing : List Call := .label "spill1" :: (List.replicate 9 (.label "done") ++ [.spill])

/-- The first name and the last are the same. -/
theorem crossing_clashes :
    crossing.length < wordLimit ∧
      (Listing.calls {} crossing)[0]? = some (Text.ofString "_spill10") ∧
      (Listing.calls {} crossing)[10]? = some (Text.ofString "_spill10") ∧
      ¬(Listing.calls {} crossing).Nodup := by
  have hfirst : (Listing.calls {} crossing)[0]? = some (Text.ofString "_spill10") := by decide
  have hlast : (Listing.calls {} crossing)[10]? = some (Text.ofString "_spill10") := by decide
  refine ⟨by decide, hfirst, hlast, ?_⟩
  intro hnodup
  have hlt := (List.getElem?_eq_some_iff.1 hlast).1
  exact List.nodup_iff_getElem?_ne_getElem?.1 hnodup 0 10 (by decide) hlt (hfirst.trans hlast.symm)

end OnePass.Assembly
