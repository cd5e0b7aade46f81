import OnePass.Proofs.Assembly.Name
import OnePass.Proofs.Compiler.Success

namespace OnePass

namespace RegisterPool

variable {p p' : RegisterPool}

theorem allocate_eq_ok {r : Int} (h : p.allocate = .ok (r, p')) :
    ∃ i : Fin 3, r = (i.val : Int) ∧ p.busy.get i = false ∧ p' = ⟨p.busy.setIfInBounds i true⟩ := by
  unfold allocate at h
  split at h
  · rename_i i hi
    cases h
    have hb := List.find?_some hi
    change (!p.busy.get i) = true at hb
    have hset : p.busy.set i true = p.busy.setIfInBounds i true := by
      ext j hj
      rw [Vector.getElem_set, Vector.getElem_setIfInBounds]
    rw [hset]
    exact ⟨i, rfl, by simpa using hb, rfl⟩
  · cases h

theorem free_eq_ok {i : Fin 3} (h : p.free (i.val : Int) = .ok p') :
    p' = ⟨p.busy.setIfInBounds i false⟩ := by
  unfold free at h
  split at h
  · cases h
    rw [Int.toNat_natCast]
  · cases h

theorem busy_of_not_available (h : p.available = false) (i : Fin 3) : p.busy.get i = true := by
  simp only [available, List.any_eq_false] at h
  simpa using h (p.busy.get i) (Vector.mem_toList_iff.2 (Vector.getElem_mem i.isLt))

theorem get_set (b : Vector Bool 3) (i j : Fin 3) (x : Bool) :
    (b.setIfInBounds i x).get j = if j = i then x else b.get j := by
  change (b.setIfInBounds i x)[j.val] = if j = i then x else b[j.val]
  rw [Vector.getElem_setIfInBounds j.isLt]
  simp only [Fin.ext_iff, eq_comm]

end RegisterPool

namespace Compiler

open Assembly

namespace Generator

/-- The registers of the values in use. -/
structure Holding (g : Generator) (used : List Nat) : Prop where
  lt : ∀ v ∈ used, v < g.operands.size
  nodup : g.live.Nodup
  live_iff : ∀ v, v ∈ g.live ↔ v ∈ used ∧ ∃ r, g.operandOf v = .register r
  held : ∀ v ∈ g.live, ∃ i : Fin 3, g.operandOf v = .register i.val ∧ g.pool.busy.get i = true
  apart : ∀ u ∈ g.live, ∀ v ∈ g.live, g.operandOf u = g.operandOf v → u = v
  roomy : ∃ i : Fin 3, g.pool.busy.get i = false ∨ ∃ v ∈ g.live, g.operandOf v = .register i.val

/-- Every busy register belongs to a live value. -/
def Owned (g : Generator) : Prop :=
  ∀ i : Fin 3, g.pool.busy.get i = true → ∃ v ∈ g.live, g.operandOf v = .register i.val

variable {g g' : Generator} {used : List Nat} {v : Nat}

theorem holding_empty : Holding {} [] :=
  ⟨by simp, by simp, by simp, by simp, by simp, 0, .inl rfl⟩

theorem owned_empty : Owned {} := by
  intro i hi
  revert i
  decide

theorem operandOf_push (o : Operand) :
    operandOf { g with operands := g.operands.push o } v =
      if v = g.operands.size then o else g.operandOf v := by
  unfold operandOf
  by_cases h : v = g.operands.size
  · simp [h]
  · rw [if_neg h]
    rcases Nat.lt_or_gt_of_ne h with hlt | hgt
    · rw [Array.getElem?_push_lt hlt, Array.getElem?_eq_getElem hlt]
    · rw [Array.getElem?_eq_none (by simp; omega), Array.getElem?_eq_none (by omega)]

theorem operandOf_set {u : Nat} (hu : u < g.operands.size) (o : Operand) :
    operandOf { g with operands := g.operands.setIfInBounds u o } v =
      if v = u then o else g.operandOf v := by
  unfold operandOf
  rw [Array.getElem?_setIfInBounds]
  by_cases h : v = u
  · subst h
    simp [hu]
  · simp [h, Ne.symm h]

theorem operandOf_congr (ho : g'.operands = g.operands) (v : Nat) :
    g'.operandOf v = g.operandOf v := by
  unfold operandOf
  rw [ho]

namespace Holding

/-- Only the pool, the operands and the live values count. -/
theorem congr (h : g.Holding used) (hp : g'.pool = g.pool) (ho : g'.operands = g.operands)
    (hl : g'.live = g.live) : g'.Holding used := by
  have hop := operandOf_congr ho
  refine ⟨?_, ?_, ?_, ?_, ?_, ?_⟩
  · rw [ho]
    exact h.lt
  · rw [hl]
    exact h.nodup
  · simpa only [hl, hop] using h.live_iff
  · simpa only [hl, hop, hp] using h.held
  · simpa only [hl, hop] using h.apart
  · simpa only [hl, hop, hp] using h.roomy

theorem register (h : g.Holding used) (hv : v ∈ used) {r : Int}
    (hr : g.operandOf v = .register r) :
    v ∈ g.live ∧ ∃ i : Fin 3, r = i.val ∧ g.pool.busy.get i = true := by
  have hlive := (h.live_iff v).2 ⟨hv, r, hr⟩
  obtain ⟨i, hi, hb⟩ := h.held v hlive
  rw [hr] at hi
  cases hi
  exact ⟨hlive, i, rfl, hb⟩

theorem live_ne_size (h : g.Holding used) (hv : v ∈ g.live) : v ≠ g.operands.size :=
  Nat.ne_of_lt (h.lt v ((h.live_iff v).1 hv).1)

theorem operandOf_push_live (h : g.Holding used) (o : Operand) (hv : v ∈ g.live) :
    operandOf { g with operands := g.operands.push o } v = g.operandOf v := by
  rw [operandOf_push, if_neg (h.live_ne_size hv)]

/-- A new value that is in no register. -/
theorem push (h : g.Holding used) {o : Operand} (ho : ∀ r, o ≠ .register r) :
    Holding { g with operands := g.operands.push o } (g.operands.size :: used) := by
  have hnew : ∀ v ∈ g.live, v ≠ g.operands.size := fun v hv => h.live_ne_size hv
  have hop : ∀ v ∈ g.live, operandOf { g with operands := g.operands.push o } v = g.operandOf v :=
    fun v hv => h.operandOf_push_live o hv
  refine ⟨?_, h.nodup, ?_, ?_, ?_, ?_⟩
  · intro v hv
    rw [Array.size_push]
    rcases List.mem_cons.1 hv with rfl | hv
    · exact Nat.lt_succ_self _
    · exact Nat.lt_succ_of_lt (h.lt v hv)
  · intro v
    change v ∈ g.live ↔ _
    rw [operandOf_push]
    by_cases hv : v = g.operands.size
    · subst hv
      simp only [if_pos]
      exact ⟨fun hm => absurd rfl (hnew _ hm), fun ⟨_, r, hr⟩ => absurd hr (ho r)⟩
    · simp only [List.mem_cons, hv, false_or]
      exact h.live_iff v
  · intro v hv
    rw [hop v hv]
    exact h.held v hv
  · intro u hu v hv huv
    rw [hop u hu, hop v hv] at huv
    exact h.apart u hu v hv huv
  · obtain ⟨i, hi⟩ := h.roomy
    refine ⟨i, hi.imp_right fun ⟨v, hv, hr⟩ => ⟨v, hv, ?_⟩⟩
    rw [hop v hv]
    exact hr

/-- A value that is not in a register is given a free one. -/
theorem load (h : g.Holding used) (hv : v ∈ used) (hnot : ∀ r, g.operandOf v ≠ .register r)
    {i : Fin 3} (hi : g.pool.busy.get i = false) :
    Holding { g with
      pool := ⟨g.pool.busy.setIfInBounds i true⟩
      operands := g.operands.setIfInBounds v (.register i.val)
      live := v :: g.live } used := by
  have hvlive : v ∉ g.live := fun hm => ((h.live_iff v).1 hm).2.elim fun r hr => hnot r hr
  have hop : ∀ u, operandOf { g with
      pool := ⟨g.pool.busy.setIfInBounds i true⟩
      operands := g.operands.setIfInBounds v (.register i.val)
      live := v :: g.live } u = if u = v then .register i.val else g.operandOf u :=
    fun u => operandOf_set (h.lt v hv) _
  have hne : ∀ u ∈ g.live, u ≠ v := by
    rintro u hu rfl
    exact hvlive hu
  have hfree : ∀ u ∈ g.live, g.operandOf u ≠ .register i.val := by
    intro u hu heq
    obtain ⟨j, hj, hb⟩ := h.held u hu
    rw [heq] at hj
    have hij : i = j := by
      cases i
      cases j
      simp only [Operand.register.injEq] at hj
      congr
      omega
    rw [hij, hb] at hi
    cases hi
  refine ⟨?_, List.nodup_cons.2 ⟨hvlive, h.nodup⟩, ?_, ?_, ?_, ?_⟩
  · intro u hu
    rw [Array.size_setIfInBounds]
    exact h.lt u hu
  · intro u
    rw [hop]
    by_cases hu : u = v
    · subst hu
      simp [hv]
    · simp only [List.mem_cons, hu, false_or, if_neg, not_false_iff]
      exact h.live_iff u
  · intro u hu
    rw [hop]
    rcases List.mem_cons.1 hu with rfl | hu
    · exact ⟨i, by simp, by rw [RegisterPool.get_set, if_pos rfl]⟩
    · obtain ⟨j, hj, hb⟩ := h.held u hu
      rw [if_neg (hne u hu)]
      refine ⟨j, hj, ?_⟩
      rw [RegisterPool.get_set, hb, ite_self]
  · intro u hu w hw
    rw [hop, hop]
    rcases List.mem_cons.1 hu with hu | hu <;> rcases List.mem_cons.1 hw with hw | hw
    · intro _
      rw [hu, hw]
    · rw [if_pos hu, if_neg (hne w hw)]
      intro heq
      exact absurd heq.symm (hfree w hw)
    · rw [if_neg (hne u hu), if_pos hw]
      intro heq
      exact absurd heq (hfree u hu)
    · rw [if_neg (hne u hu), if_neg (hne w hw)]
      exact h.apart u hu w hw
  · exact ⟨i, .inr ⟨v, List.mem_cons_self, by rw [hop, if_pos rfl]⟩⟩

/-- A live value gives up its register: it is no longer in use, or it has gone to memory. -/
theorem vacate {left : List Nat} (h : g.Holding used) (hv : v ∈ g.live) {i : Fin 3}
    (hi : g.operandOf v = .register i.val) (hp : g'.pool = ⟨g.pool.busy.setIfInBounds i false⟩)
    (hl : g'.live = g.live.erase v) (hsize : g'.operands.size = g.operands.size)
    (hop : ∀ u, u ≠ v → g'.operandOf u = g.operandOf u)
    (hleft : ∀ u, u ≠ v → (u ∈ left ↔ u ∈ used)) (hsub : ∀ u ∈ left, u ∈ used)
    (hout : v ∈ left → ∀ r, g'.operandOf v ≠ .register r) : g'.Holding left := by
  have hmem : ∀ u, u ∈ g.live.erase v ↔ u ≠ v ∧ u ∈ g.live := fun u => h.nodup.mem_erase_iff
  have hbusy : ∀ j : Fin 3, j ≠ i → g'.pool.busy.get j = g.pool.busy.get j := by
    intro j hj
    rw [hp, RegisterPool.get_set, if_neg hj]
  have hfree : g'.pool.busy.get i = false := by
    rw [hp, RegisterPool.get_set, if_pos rfl]
  refine ⟨?_, ?_, ?_, ?_, ?_, ?_⟩
  · intro u hu
    rw [hsize]
    exact h.lt u (hsub u hu)
  · rw [hl]
    exact h.nodup.erase v
  · intro u
    rw [hl, hmem]
    by_cases hu : u = v
    · subst hu
      simp only [ne_eq, not_true_eq_false, false_and, false_iff, not_and]
      rintro hin ⟨r, hr⟩
      exact hout hin r hr
    · rw [hop u hu, hleft u hu, h.live_iff u]
      simp [hu]
  · intro u hu
    rw [hl, hmem] at hu
    obtain ⟨j, hj, hb⟩ := h.held u hu.2
    have hji : j ≠ i := by
      rintro rfl
      exact hu.1 (h.apart u hu.2 v hv (hj.trans hi.symm))
    exact ⟨j, by rw [hop u hu.1]; exact hj, by rw [hbusy j hji]; exact hb⟩
  · intro u hu w hw heq
    rw [hl, hmem] at hu hw
    rw [hop u hu.1, hop w hw.1] at heq
    exact h.apart u hu.2 w hw.2 heq
  · exact ⟨i, .inl hfree⟩

/-- A value that is in no register is no longer in use. -/
theorem forget (h : g.Holding (v :: used)) (hv : v ∉ used)
    (hnot : ∀ r, g.operandOf v ≠ .register r) : g.Holding used := by
  refine ⟨fun u hu => h.lt u (List.mem_cons_of_mem _ hu), h.nodup, ?_, h.held, h.apart, h.roomy⟩
  intro u
  rw [h.live_iff u, List.mem_cons]
  constructor
  · rintro ⟨rfl | hu, r, hr⟩
    · exact absurd hr (hnot r)
    · exact ⟨hu, r, hr⟩
  · rintro ⟨hu, hr⟩
    exact ⟨.inr hu, hr⟩

end Holding

namespace Owned

theorem congr (h : g.Owned) (hp : g'.pool = g.pool) (ho : g'.operands = g.operands)
    (hl : g'.live = g.live) : g'.Owned := by
  simpa only [Owned, hl, operandOf_congr ho, hp] using h

theorem push (h : g.Owned) (hg : g.Holding used) (o : Operand) :
    Owned { g with operands := g.operands.push o } := by
  intro i hi
  obtain ⟨v, hv, hr⟩ := h i hi
  exact ⟨v, hv, by rw [hg.operandOf_push_live o hv]; exact hr⟩

/-- The register that is taken belongs to the value that is loaded. -/
theorem load (h : g.Owned) (hg : g.Holding used) (hv : v ∈ used)
    (hnot : ∀ r, g.operandOf v ≠ .register r) (i : Fin 3) :
    Owned { g with
      pool := ⟨g.pool.busy.setIfInBounds i true⟩
      operands := g.operands.setIfInBounds v (.register i.val)
      live := v :: g.live } := by
  have hop : ∀ u, operandOf { g with
      pool := ⟨g.pool.busy.setIfInBounds i true⟩
      operands := g.operands.setIfInBounds v (.register i.val)
      live := v :: g.live } u = if u = v then .register i.val else g.operandOf u :=
    fun u => operandOf_set (hg.lt v hv) _
  intro j hj
  by_cases hij : i = j
  · subst hij
    exact ⟨v, by simp, by rw [hop, if_pos rfl]⟩
  · rw [RegisterPool.get_set, if_neg (Ne.symm hij)] at hj
    obtain ⟨u, hu, hr⟩ := h j hj
    have huv : u ≠ v := by
      rintro rfl
      exact hnot _ hr
    exact ⟨u, List.mem_cons_of_mem _ hu, by rw [hop, if_neg huv]; exact hr⟩

/-- The register that is given up belonged to no other value. -/
theorem vacate (h : g.Owned) (hg : g.Holding used) {i : Fin 3}
    (hi : g.operandOf v = .register i.val) (hp : g'.pool = ⟨g.pool.busy.setIfInBounds i false⟩)
    (hl : g'.live = g.live.erase v) (hop : ∀ u, u ≠ v → g'.operandOf u = g.operandOf u) :
    g'.Owned := by
  intro j hj
  have hji : j ≠ i := by
    rintro rfl
    rw [hp, RegisterPool.get_set, if_pos rfl] at hj
    cases hj
  rw [hp, RegisterPool.get_set, if_neg hji] at hj
  obtain ⟨u, hu, hr⟩ := h j hj
  have huv : u ≠ v := by
    rintro rfl
    rw [hi] at hr
    simp only [Operand.register.injEq] at hr
    exact hji (Fin.ext (by omega))
  exact ⟨u, by rw [hl, hg.nodup.mem_erase_iff]; exact ⟨huv, hu⟩, by rw [hop u huv]; exact hr⟩

end Owned

/-- Names in use: those that a predicate allows, which are identifiers, and spill words. -/
structure Sound (declared : Text → Prop) (g : Generator) (used : List Nat) : Prop where
  accepting : g.listing.Accepting
  orderly : g.listing.Orderly
  holding : g.Holding used
  memory : ∀ v ∈ used, ∀ x, g.operandOf v = .memory x → declared x ∨ x ∈ g.listing.spills

end Generator

end Compiler

end OnePass
