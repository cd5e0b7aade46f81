import OnePass.Proofs.Assembly.Numbering
import OnePass.Proofs.Compiler.Input

namespace OnePass.Assembly

/-- The stems of labels and spill words. -/
def stems : List String :=
  ["else", "if_done", "while_cond", "while_done", "false", "done", "spill"]

/-- A name that can have been handed out as the `i`-th. -/
def Generated (i : Nat) (x : Text) : Prop := ∃ stem ∈ stems, x = numberedName stem i

theorem numberedName_eq_ofChars (stem : String) (i : Nat) :
    numberedName stem i = Text.ofChars ('_' :: (stem.toList ++ Nat.toDigits 10 i)) := by
  simp [numberedName, Text.ofString, Text.ofNat, Text.ofChars]

theorem endsPlain_stems : ∀ stem ∈ stems, EndsPlain (stem : Text) := by decide

theorem Generated.unique {i j : Nat} {x : Text} (hi : Generated i x) (hj : Generated j x) :
    i = j := by
  obtain ⟨stem, hs, rfl⟩ := hi
  obtain ⟨stem', hs', heq⟩ := hj
  rcases Nat.lt_trichotomy i j with hlt | rfl | hgt
  · exact absurd heq (numberedName_ne hlt (endsPlain_stems stem hs))
  · rfl
  · exact absurd heq.symm (numberedName_ne hgt (endsPlain_stems stem' hs'))

theorem Generated.not_isIdentifier {i : Nat} {x : Text} (h : Generated i x) :
    ¬x.IsIdentifier := by
  obtain ⟨stem, -, rfl⟩ := h
  rintro ⟨c, cs, hx, hc, -⟩
  rw [numberedName_eq_ofChars] at hx
  have hhead : c = '_' := by
    have h := congrArg Text.chars hx
    simp only [Text.chars_ofChars, List.cons.injEq] at h
    exact h.1.symm
  subst hhead
  exact absurd hc (by decide)

namespace Listing

/-- Every name was handed out in its turn. -/
structure Orderly (l : Listing) : Prop where
  names : ∀ i x, l.names[i]? = some x → Generated i x
  spills : ∀ x ∈ l.spills, x ∈ l.names

variable {l : Listing}

theorem orderly_empty : Orderly {} := ⟨by simp, by simp⟩

theorem Orderly.generated {x : Text} (h : l.Orderly) (hx : x ∈ l.names) : ∃ i, Generated i x := by
  obtain ⟨i, hi⟩ := Array.mem_iff_getElem?.1 hx
  exact ⟨i, h.names i x hi⟩

theorem Orderly.not_isIdentifier {x : Text} (h : l.Orderly) (hx : x ∈ l.names) :
    ¬x.IsIdentifier := by
  obtain ⟨i, hi⟩ := h.generated hx
  exact hi.not_isIdentifier

/-- The next name is new. -/
theorem Orderly.next_not_mem {x : Text} (h : l.Orderly) (hx : Generated l.names.size x) :
    x ∉ l.names := by
  intro hmem
  obtain ⟨i, hi⟩ := Array.mem_iff_getElem?.1 hmem
  have hlt := (Array.getElem?_eq_some_iff.1 hi).1
  have heq := (h.names i x hi).unique hx
  omega

theorem Orderly.nodup (h : l.Orderly) : l.names.toList.Nodup := by
  refine List.pairwise_iff_getElem.2 fun i j hi hj hlt heq => ?_
  have hgi := h.names i _ (Array.getElem?_eq_getElem hi)
  have hgj := h.names j _ (Array.getElem?_eq_getElem hj)
  have heq' : l.names[i] = l.names[j] := heq
  rw [heq'] at hgi
  exact absurd (hgi.unique hgj) (Nat.ne_of_lt hlt)

theorem newLabel_eq (stem : String) (h : stem ∈ stems) :
    l.newLabel stem =
      (numberedName stem l.names.size,
        { l with names := l.names.push (numberedName stem l.names.size) }) := by
  have hne : (stem : Text).isEmpty = false := by
    have hall : ∀ s ∈ stems, (Text.ofString s).isEmpty = false := by decide
    exact hall stem h
  simp [newLabel, hne, numberedName]

theorem newSpill_eq :
    l.newSpill =
      (numberedName "spill" l.names.size,
        { l with
          names := l.names.push (numberedName "spill" l.names.size)
          spills := l.spills.push (numberedName "spill" l.names.size) }) := by
  simp only [newSpill, newLabel_eq "spill" (by decide)]

theorem Orderly.push (h : l.Orderly) (stem : String) (hs : stem ∈ stems) :
    Orderly { l with names := l.names.push (numberedName stem l.names.size) } := by
  refine ⟨fun i x hx => ?_, fun x hx => Array.mem_push.2 (.inl (h.spills x hx))⟩
  rcases Nat.lt_trichotomy i l.names.size with hi | rfl | hi
  · rw [Array.getElem?_push_lt hi] at hx
    exact h.names i x (by rw [Array.getElem?_eq_getElem hi]; exact hx)
  · simp only [Array.getElem?_push_size, Option.some.injEq] at hx
    exact ⟨stem, hs, hx.symm⟩
  · rw [Array.getElem?_eq_none (by simp; omega)] at hx
    cases hx

end Listing

end OnePass.Assembly
