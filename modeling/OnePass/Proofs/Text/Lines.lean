import OnePass.Text.Blank

namespace OnePass.Text

variable {sep : Glyph} {t w : Text}

theorem splitAt_cons_of_ne {g : Glyph} (hg : g ≠ sep) :
    ∃ v vs, splitAt sep t = v :: vs ∧ splitAt sep (g :: t) = (g :: v) :: vs := by
  induction t generalizing g with
  | nil => exact ⟨[], [], rfl, by simp [splitAt, hg]⟩
  | cons h t ih =>
    by_cases hh : h = sep
    · exact ⟨[], splitAt sep t, by simp [splitAt, hh], by simp [splitAt, hg, hh]⟩
    · obtain ⟨v, vs, -, hvs⟩ := ih hh
      exact ⟨h :: v, vs, hvs, by rw [splitAt, if_neg hg, hvs]⟩

theorem splitAt_of_not_mem (hw : sep ∉ w) : splitAt sep w = [w] := by
  induction w with
  | nil => rfl
  | cons g w ih =>
    have hg : g ≠ sep := fun h => hw (by simp [h])
    rw [splitAt, if_neg hg, ih fun h => hw (by simp [h])]

theorem splitAt_append_sep (sep : Glyph) (t w : Text) :
    splitAt sep (t ++ sep :: w) = splitAt sep t ++ splitAt sep w := by
  induction t with
  | nil => simp [splitAt]
  | cons g t ih =>
    by_cases hg : g = sep
    · simp [splitAt, hg, ih]
    · obtain ⟨v, vs, hv, hgv⟩ := splitAt_cons_of_ne (t := t) hg
      rw [hgv, List.cons_append, splitAt, if_neg hg, ih, hv]
      rfl

/-- What follows the last separator is the last piece. -/
theorem splitAt_append_last (hw : sep ∉ w) : splitAt sep (t ++ sep :: w) = splitAt sep t ++ [w] := by
  rw [splitAt_append_sep, splitAt_of_not_mem hw]

theorem not_mem_of_mem_splitAt (h : w ∈ splitAt sep t) : sep ∉ w := by
  induction t generalizing w with
  | nil => simp_all [splitAt]
  | cons g t ih =>
    by_cases hg : g = sep
    · rw [splitAt, if_pos hg] at h
      rcases List.mem_cons.1 h with rfl | h
      · simp
      · exact ih h
    · obtain ⟨v, vs, hv, hgv⟩ := splitAt_cons_of_ne (t := t) hg
      rw [hgv] at h
      rcases List.mem_cons.1 h with rfl | h
      · have hmem := ih (w := v) (by simp [hv])
        simp [hmem, Ne.symm hg]
      · exact ih (by simp [hv, h])

/-- A text without a separator, or what stands before and after its last one. -/
theorem eq_append_last (sep : Glyph) (t : Text) :
    sep ∉ t ∨ ∃ front last, t = front ++ sep :: last ∧ sep ∉ last := by
  by_cases hsep : sep ∈ t
  · obtain ⟨as, bs, hsplit, has⟩ := List.eq_append_cons_of_mem (List.mem_reverse.2 hsep)
    refine .inr ⟨bs.reverse, as.reverse, ?_, by simpa using has⟩
    simpa using congrArg List.reverse hsplit
  · exact .inl hsep

theorem length_splitAt (sep : Glyph) (t : Text) : (splitAt sep t).length = t.count sep + 1 := by
  induction t with
  | nil => rfl
  | cons g t ih =>
    by_cases hg : g = sep
    · simp [splitAt, hg, ih]
    · obtain ⟨v, vs, hv, hgv⟩ := splitAt_cons_of_ne (t := t) hg
      rw [hgv, List.count_cons_of_ne hg, ← ih, hv]
      rfl

/-- The first piece goes on to the first separator. -/
theorem head?_splitAt (sep : Glyph) (t : Text) :
    (splitAt sep t).head? = some (t.takeWhile (· != sep)) := by
  induction t with
  | nil => rfl
  | cons g t ih =>
    by_cases hg : g = sep
    · simp [splitAt, hg]
    · obtain ⟨v, vs, hv, hgv⟩ := splitAt_cons_of_ne (t := t) hg
      rw [hv, List.head?_cons, Option.some.injEq] at ih
      rw [hgv, List.takeWhile_cons_of_pos (by simpa using hg), ← ih]
      rfl

theorem takeWhile_append_of_not_mem (hw : sep ∉ w) (t : Text) :
    (w ++ t).takeWhile (· != sep) = w ++ t.takeWhile (· != sep) :=
  List.takeWhile_append_of_pos fun g hg => by
    simpa using fun h : g = sep => hw (h ▸ hg)

/-- The piece at a place: what stands between the last separator before it and the next one. -/
theorem getElem?_splitAt_count (sep : Glyph) (before after : Text) :
    (splitAt sep (before ++ after))[before.count sep]? =
      some ((before.reverse.takeWhile (· != sep)).reverse ++ after.takeWhile (· != sep)) := by
  rcases eq_append_last sep before with hnone | ⟨front, last, rfl, hlast⟩
  · have hall : before.reverse.takeWhile (· != sep) = before.reverse := by
      simpa using takeWhile_append_of_not_mem (w := before.reverse) (by simpa using hnone) []
    rw [List.count_eq_zero_of_not_mem hnone, ← List.head?_eq_getElem?, head?_splitAt,
      takeWhile_append_of_not_mem hnone, hall, List.reverse_reverse]
  · have hcount : (front ++ sep :: last).count sep = (splitAt sep front).length := by
      rw [length_splitAt, List.count_append, List.count_cons_self,
        List.count_eq_zero_of_not_mem hlast]
    have hline : (front ++ sep :: last).reverse.takeWhile (· != sep) = last.reverse := by
      rw [List.reverse_append, List.reverse_cons, List.append_assoc,
        takeWhile_append_of_not_mem (by simpa using hlast)]
      simp
    rw [hcount, hline, List.append_assoc, List.cons_append, splitAt_append_sep,
      List.getElem?_append_right (Nat.le_refl _), Nat.sub_self, ← List.head?_eq_getElem?,
      head?_splitAt, takeWhile_append_of_not_mem hlast, List.reverse_reverse]

end OnePass.Text
