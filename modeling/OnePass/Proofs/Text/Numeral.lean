import OnePass.Text.Numeral

namespace OnePass

theorem Text.ofNat_digits {n : Nat} {c : Char} (h : c ∈ Nat.toDigits 10 n) : c.isDigit = true :=
  Nat.isDigit_of_mem_toDigits (by decide) (by decide) h

theorem Glyph.digit?_char {c : Char} (h : c.isDigit = true) :
    (Glyph.char c).digit? = some (c.toNat - '0'.toNat) := by
  simp [Glyph.digit?, h]

namespace Numeral

theorem le_ofDigitChars (cs : List Char) (n : Nat) : n ≤ Nat.ofDigitChars 10 cs n := by
  induction cs generalizing n with
  | nil => simp
  | cons c cs ih =>
    rw [Nat.ofDigitChars_cons]
    have h := ih (10 * n + (c.toNat - '0'.toNat))
    omega

/-- Digits are read as their value, unless it reaches 2^64 on the way. -/
theorem magnitude_ofChars {cs : List Char} (hcs : ∀ c ∈ cs, c.isDigit = true) {n : Nat}
    (hn : n < 2 * wordLimit) :
    magnitude n (Text.ofChars cs) =
      if Nat.ofDigitChars 10 cs n < 2 * wordLimit then .ok (Nat.ofDigitChars 10 cs n)
      else .error .outOfRange := by
  induction cs generalizing n with
  | nil => simp [Text.ofChars, magnitude, hn]
  | cons c cs ih =>
    have hd := Glyph.digit?_char (hcs c (by simp))
    have ht : ∀ d ∈ cs, d.isDigit = true := fun d hd => hcs d (by simp [hd])
    change magnitude n (.char c :: Text.ofChars cs) = _
    rw [magnitude, hd, Nat.ofDigitChars_cons]
    dsimp only
    split
    · rename_i hlt
      exact ih ht hlt
    · rename_i hge
      have hle := le_ofDigitChars cs (10 * n + (c.toNat - '0'.toNat))
      rw [if_neg (by omega)]

/-- Digits are read as their value, unless that is above the bound. -/
theorem bounded_ofChars {bound : Nat} (hb : bound ≤ wordLimit) {c : Char} {cs : List Char}
    (hcs : ∀ d ∈ c :: cs, d.isDigit = true) :
    bounded bound (Text.ofChars (c :: cs)) =
      if Nat.ofDigitChars 10 (c :: cs) 0 ≤ bound then .ok (Nat.ofDigitChars 10 (c :: cs) 0)
      else .error .outOfRange := by
  have he : (Text.ofChars (c :: cs)).isEmpty = false := rfl
  have hw : 0 < wordLimit := by decide
  rw [bounded, he, magnitude_ofChars hcs (by omega)]
  simp only [Bool.false_eq_true, if_false]
  by_cases h : Nat.ofDigitChars 10 (c :: cs) 0 ≤ bound
  · rw [if_pos (by omega)]
  · rw [if_neg h]
    split
    · rename_i hx
      split at hx
      · cases hx
      · exact hx.symm
    · rename_i hx
      split at hx
      · cases hx
        rw [if_neg h]
      · cases hx

theorem readInt_digits {c : Char} {cs : List Char} (hcs : ∀ d ∈ c :: cs, d.isDigit = true) :
    readInt (Text.ofChars (c :: cs)) =
      (bounded (wordLimit - 1) (Text.ofChars (c :: cs))).map fun n : Nat => (n : Int) := by
  have hc := hcs c (by simp)
  have hm : c ≠ '-' ∧ c ≠ '+' := by
    constructor <;> rintro rfl <;> exact absurd hc (by decide)
  unfold readInt
  split
  · rename_i heq
    simp [Text.ofChars, hm.1] at heq
  · rename_i heq
    simp [Text.ofChars, hm.2] at heq
  · rfl

/-- A numeral is read as the word of its value iff that is below 2^63. -/
theorem readWord_digits {c : Char} {cs : List Char} (hcs : ∀ d ∈ c :: cs, d.isDigit = true) :
    readWord (Text.ofChars (c :: cs)) =
      if Nat.ofDigitChars 10 (c :: cs) 0 < wordLimit then
        .ok (Int64.ofNat (Nat.ofDigitChars 10 (c :: cs) 0))
      else .error .outOfRange := by
  have hw : wordLimit = 9223372036854775808 := rfl
  rw [readWord, readInt_digits hcs, bounded_ofChars (by omega) hcs]
  by_cases h : Nat.ofDigitChars 10 (c :: cs) 0 < wordLimit
  · rw [if_pos h, if_pos (by omega)]
    exact congrArg Except.ok Int64.ofInt_eq_ofNat
  · rw [if_neg h, if_neg (by omega)]
    rfl

theorem toDigits_eq_cons (n : Nat) : ∃ c cs, Nat.toDigits 10 n = c :: cs :=
  List.exists_cons_of_ne_nil Nat.toDigits_ne_nil

/-- The text of a word is read back as that word. -/
theorem readWord_ofWord (w : Word) : readWord (Text.ofWord w) = .ok w := by
  have hlow := w.le_toInt
  have hhigh := w.toInt_lt
  cases hw : w.toInt with
  | ofNat n =>
    obtain ⟨c, cs, hcs⟩ := toDigits_eq_cons n
    have hd : ∀ d ∈ c :: cs, d.isDigit = true := by
      intro d hd
      rw [← hcs] at hd
      exact Text.ofNat_digits hd
    have hv : Nat.ofDigitChars 10 (c :: cs) 0 = n := by rw [← hcs, Nat.ofDigitChars_ten_toDigits]
    have hn : n < wordLimit := by
      rw [hw] at hhigh
      change n < 9223372036854775808
      simp only [Int.ofNat_eq_natCast] at hhigh
      omega
    rw [Text.ofWord, hw, Text.ofInt, Text.ofNat, hcs, readWord_digits hd, hv, if_pos hn]
    rw [← Int64.ofInt_toInt w, hw]
    exact congrArg Except.ok Int64.ofInt_eq_ofNat.symm
  | negSucc n =>
    obtain ⟨c, cs, hcs⟩ := toDigits_eq_cons (n + 1)
    have hd : ∀ d ∈ c :: cs, d.isDigit = true := by
      intro d hd
      rw [← hcs] at hd
      exact Text.ofNat_digits hd
    have hv : Nat.ofDigitChars 10 (c :: cs) 0 = n + 1 := by
      rw [← hcs, Nat.ofDigitChars_ten_toDigits]
    have hn : n + 1 ≤ wordLimit := by
      rw [hw] at hlow
      change n + 1 ≤ 9223372036854775808
      omega
    rw [Text.ofWord, hw, Text.ofInt, Text.ofNat, hcs, readWord, readInt,
      bounded_ofChars (Nat.le_refl _) hd, hv, if_pos hn]
    rw [← Int64.ofInt_toInt w, hw]
    rfl

theorem le_of_bounded {bound n : Nat} {t : Text} (h : bounded bound t = .ok n) : n ≤ bound := by
  unfold bounded at h
  split at h
  · cases h
  · split at h
    · cases h
    · split at h
      · cases h
        assumption
      · cases h

/-- Only ASCII digits are read. -/
theorem digits_of_magnitude {n m : Nat} {t : Text} (h : magnitude n t = .ok m) :
    ∃ cs, t = Text.ofChars cs ∧ ∀ c ∈ cs, c.isDigit = true := by
  induction t generalizing n with
  | nil => exact ⟨[], rfl, by simp⟩
  | cons g t ih =>
    rw [magnitude] at h
    cases g with
    | stray b => cases h
    | char c =>
      by_cases hc : c.isDigit = true
      · rw [Glyph.digit?_char hc] at h
        dsimp only at h
        split at h
        · obtain ⟨cs, rfl, hcs⟩ := ih h
          exact ⟨c :: cs, rfl, List.forall_mem_cons.2 ⟨hc, hcs⟩⟩
        · cases h
      · simp [Glyph.digit?, hc] at h

/-- A word without a sign is read from ASCII digits. -/
theorem digits_of_readWord {g : Glyph} {t : Text} {n : Word} (hminus : g ≠ .char '-')
    (hplus : g ≠ .char '+') (h : readWord (g :: t) = .ok n) :
    ∃ c cs, g :: t = Text.ofChars (c :: cs) ∧ ∀ d ∈ c :: cs, d.isDigit = true := by
  have hread : readInt (g :: t) =
      (bounded (wordLimit - 1) (g :: t)).map fun k : Nat => (k : Int) := by
    unfold readInt
    split
    · rename_i heq
      exact absurd (List.cons.inj heq).1 hminus
    · rename_i heq
      exact absurd (List.cons.inj heq).1 hplus
    · rfl
  rw [readWord, hread, bounded] at h
  cases hm : magnitude 0 (g :: t) with
  | error e =>
    rw [hm] at h
    cases h
  | ok k =>
    obtain ⟨cs, hcs, hdigits⟩ := digits_of_magnitude hm
    cases cs with
    | nil => cases hcs
    | cons c cs => exact ⟨c, cs, hcs, hdigits⟩

/-- Without a minus sign a word is not negative. -/
theorem readWord_nonneg {g : Glyph} {t : Text} {n : Word} (hg : g ≠ .char '-')
    (h : readWord (g :: t) = .ok n) : 0 ≤ n.toInt := by
  have hread : ∃ t', readInt (g :: t) =
      (bounded (wordLimit - 1) t').map fun k : Nat => (k : Int) := by
    unfold readInt
    split
    · rename_i heq
      exact absurd (List.cons.inj heq).1 hg
    · exact ⟨_, rfl⟩
    · exact ⟨_, rfl⟩
  obtain ⟨t', hread⟩ := hread
  rw [readWord, hread] at h
  cases hb : bounded (wordLimit - 1) t' with
  | error e =>
    rw [hb] at h
    cases h
  | ok k =>
    rw [hb] at h
    cases h
    have hk := le_of_bounded hb
    have hw : wordLimit = 9223372036854775808 := rfl
    change 0 ≤ (Int64.ofInt (k : Int)).toInt
    rw [Int64.toInt_ofInt_of_le (by omega) (by omega)]
    omega

end Numeral

end OnePass
