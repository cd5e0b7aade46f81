import Mathlib.Data.List.Basic
import OnePass.Proofs.Token.Tiling

namespace OnePass

namespace Scanner

theorem takeWhile_append_stop {p : Char → Bool} {xs after : List Char} (hxs : ∀ c ∈ xs, p c = true)
    (hafter : ∀ c, after.head? = some c → p c = false) : (xs ++ after).takeWhile p = xs := by
  rw [List.takeWhile_append_of_pos hxs]
  cases after with
  | nil => simp
  | cons c after => simp [hafter c rfl]

theorem reserved_word_parts : ∀ r ∈ reserved, r.2.spelling ≠ [] ∧ r.2.spelling.all isLower = true := by
  decide

theorem reserved_spelling_injective : ∀ r ∈ reserved, ∀ r' ∈ reserved,
    r.2.spelling = r'.2.spelling → r = r' := by decide

theorem signs_spelling_injective : ∀ s ∈ signs, ∀ s' ∈ signs,
    s.2.spelling = s'.2.spelling → s = s' := by decide

theorem signs_length : ∀ s ∈ signs, s.2.spelling.length = 1 ∨ s.2.spelling.length = 2 := by decide

theorem word_of_reserved {r : Kind × Attr} (hr : r ∈ reserved) :
    word r.2.spelling = ⟨r.1, r.2, r.2.spelling⟩ := by
  unfold word
  split
  · rename_i r' hr'
    have hspell : r'.2.spelling = r.2.spelling := by simpa using List.find?_some hr'
    rw [reserved_spelling_injective r' (List.mem_of_find?_eq_some hr') r hr hspell]
  · rename_i hnone
    have hne := List.find?_eq_none.1 hnone r hr
    simp at hne

theorem word_of_identifier {w : List Char} (h : ∀ r ∈ reserved, r.2.spelling ≠ w) :
    word w = ⟨.identifier, .none, w⟩ := by
  unfold word
  split
  · rename_i r hr
    have hspell : r.2.spelling = w := by simpa using List.find?_some hr
    exact absurd hspell (h r (List.mem_of_find?_eq_some hr))
  · rfl

/-- A word that is followed by no part of a word is scanned as a whole. -/
theorem lexeme?_word {c : Char} {cs after : List Char} (hc : isLower c = true)
    (hcs : ∀ d ∈ cs, isWordPart d = true)
    (hafter : ∀ d, after.head? = some d → isLower d = false ∧ isDigit d = false) :
    lexeme? (c :: cs ++ after) = some (word (c :: cs)) := by
  have hparts : ∀ d ∈ c :: cs, isWordPart d = true := by
    refine List.forall_mem_cons.2 ⟨?_, hcs⟩
    simp [isWordPart, hc]
  have hstop : ∀ d, after.head? = some d → isWordPart d = false := by
    intro d hd
    simp [isWordPart, hafter d hd]
  have htake := takeWhile_append_stop hparts hstop
  rw [List.cons_append] at htake ⊢
  simp [lexeme?, hc, htake]

theorem not_isLower_of_isDigit {c : Char} (h : isDigit c = true) : isLower c = false := by
  simp only [isDigit, isLower, Bool.and_eq_true, decide_eq_true_eq, Bool.and_eq_false_iff,
    decide_eq_false_iff_not, Char.le_def, UInt32.le_iff_toNat_le] at h ⊢
  left
  have h9 : '9'.val.toNat = 57 := rfl
  have ha : 'a'.val.toNat = 97 := rfl
  omega

theorem lexeme?_number {c : Char} {cs after : List Char} (h : ∀ d ∈ c :: cs, isDigit d = true)
    (hafter : ∀ d, after.head? = some d → isDigit d = false) :
    lexeme? (c :: cs ++ after) = some ⟨.number, .none, c :: cs⟩ := by
  have hc := h c (by simp)
  have htake := takeWhile_append_stop h hafter
  rw [List.cons_append] at htake ⊢
  simp [lexeme?, hc, not_isLower_of_isDigit hc, htake]

/-- Of two signs at the same place one goes on where the other ends, unless they are the same. -/
theorem sign_eq_of_prefix {s s' : Kind × Attr} {after after' : List Char} (hs : s ∈ signs)
    (hs' : s' ∈ signs) (heq : s.2.spelling ++ after = s'.2.spelling ++ after')
    (hlong : (Lexeme.mk s.1 s.2 s.2.spelling).Longest after)
    (hlong' : (Lexeme.mk s'.1 s'.2 s'.2.spelling).Longest after') : s = s' := by
  have hshorter : ∀ {t t' : Kind × Attr} {rest rest' : List Char}, t ∈ signs → t' ∈ signs →
      t.2.spelling ++ rest = t'.2.spelling ++ rest' →
      (Lexeme.mk t.1 t.2 t.2.spelling).Longest rest →
      ¬t.2.spelling.length < t'.2.spelling.length := by
    intro t t' rest rest' ht ht' h hl hlt
    have hone : t.2.spelling.length = 1 ∧ t'.2.spelling.length = 2 := by
      have := signs_length t ht
      have := signs_length t' ht'
      omega
    obtain ⟨x, hx⟩ := List.length_eq_one_iff.1 hone.1
    obtain ⟨y, z, hyz⟩ := List.length_eq_two.1 hone.2
    rw [hx, hyz] at h
    simp only [List.cons_append, List.nil_append, List.cons.injEq] at h
    obtain ⟨rfl, rfl⟩ := h
    refine hl.sign z rfl t' ht' ?_
    rw [hx, hyz]
    rfl
  have hlength : s.2.spelling.length = s'.2.spelling.length := by
    have h1 := hshorter hs hs' heq hlong
    have h2 := hshorter hs' hs heq.symm hlong'
    omega
  exact signs_spelling_injective s hs s' hs' (List.append_inj heq hlength).1

theorem lexeme?_sign {s : Kind × Attr} {after : List Char} (hs : s ∈ signs)
    (hlong : (Lexeme.mk s.1 s.2 s.2.spelling).Longest after) :
    lexeme? (s.2.spelling ++ after) = some ⟨s.1, s.2, s.2.spelling⟩ := by
  have hhead := (signs_head s hs).2.2.2
  cases hspell : s.2.spelling with
  | nil =>
    have hlength := signs_length s hs
    simp [hspell] at hlength
  | cons c cs =>
    rw [hspell] at hhead
    have hpart : isLower c = false ∧ isDigit c = false := by simpa [isWordPart] using hhead
    have hfound : ∃ s', signs.find? (fun t => t.2.spelling.isPrefixOf (c :: cs ++ after)) = some s' := by
      rw [← Option.isSome_iff_exists, List.find?_isSome]
      refine ⟨s, hs, ?_⟩
      rw [List.isPrefixOf_iff_prefix, hspell]
      exact List.prefix_append _ _
    obtain ⟨s', hs'⟩ := hfound
    obtain ⟨after', hafter'⟩ : s'.2.spelling <+: c :: cs ++ after := by
      simpa [List.isPrefixOf_iff_prefix] using List.find?_some hs'
    have hsame : s = s' := by
      refine sign_eq_of_prefix hs (List.mem_of_find?_eq_some hs') ?_ hlong
        (sign_longest hs' hafter'.symm)
      rw [hspell, hafter']
    rw [List.cons_append] at hs' ⊢
    simp [lexeme?, hpart, hs', ← hsame, hspell]

/-- A lexeme that could not be longer is what is scanned. -/
theorem lexeme?_append {l : Lexeme} {after : List Char} (hl : l.Valid) (hlong : l.Longest after) :
    lexeme? (l.chars ++ after) = some l := by
  cases hl with
  | identifier hc hcs hr =>
    rw [lexeme?_word hc hcs (hlong.word (.inl rfl)), word_of_identifier hr]
  | @reserved r hr =>
    obtain ⟨hne, hlower⟩ := reserved_word_parts r hr
    have hword := word_of_reserved hr
    have hafter := hlong.word (.inr hr)
    obtain ⟨c, cs, hspell⟩ := List.exists_cons_of_ne_nil hne
    rw [hspell] at hlower hword ⊢
    have hparts := List.forall_mem_cons.1 (List.all_eq_true.1 hlower)
    rw [lexeme?_word hparts.1 (fun d hd => by simp [isWordPart, hparts.2 d hd]) hafter, hword]
  | number h => exact lexeme?_number h (hlong.number rfl)
  | sign hs => exact lexeme?_sign hs hlong

theorem Lexeme.Valid.ne_nil {l : Lexeme} (hl : l.Valid) : l.chars ≠ [] := by
  cases hl with
  | identifier => simp
  | reserved hr => exact (reserved_word_parts _ hr).1
  | number => simp
  | @sign s hs =>
    intro h
    have hlength := signs_length s hs
    have hnil : s.2.spelling.length = 0 := congrArg List.length h
    omega

theorem Lexeme.Valid.not_blank {l : Lexeme} (hl : l.Valid) {c : Char} (hc : l.chars.head? = some c) :
    isSpace c = false ∧ c ≠ '#' := by
  have hpart : ∀ d, isWordPart d = true → isSpace d = false ∧ d ≠ '#' := by
    intro d hd
    constructor
    · by_contra hspace
      have hblank := Cursor.isSpace_iff.1 (by simpa using hspace)
      rcases hblank with rfl | rfl | rfl | rfl <;> exact absurd hd (by decide)
    · rintro rfl
      exact absurd hd (by decide)
  have hword : ∀ r ∈ Scanner.reserved ++ signs,
      r.2.spelling.head?.all (fun d => !isSpace d && d != '#') = true := by decide
  cases hl with
  | identifier hlower _ _ =>
    cases hc
    exact hpart _ (by simp [isWordPart, hlower])
  | reserved hr =>
    have h := hword _ (List.mem_append_left _ hr)
    rw [hc] at h
    simpa using h
  | number h =>
    cases hc
    exact hpart _ (by simp [isWordPart, h _ List.mem_cons_self])
  | sign hs =>
    have h := hword _ (List.mem_append_right _ hs)
    rw [hc] at h
    simpa using h

/-- An item has characters, and the first is neither blank nor the beginning of a comment. -/
theorem Covers.head {before after xs : List Char} {i : Item} (h : Covers before after xs i) :
    ∃ c cs, xs = c :: cs ∧ isSpace c = false ∧ c ≠ '#' := by
  cases h with
  | @token l hl _ =>
    obtain ⟨c, cs, hcs⟩ := List.exists_cons_of_ne_nil hl.ne_nil
    exact ⟨c, cs, hcs, hl.not_blank (by rw [hcs]; rfl)⟩
  | @invalid c _ hspace hmark => exact ⟨c, [], rfl, hspace, hmark⟩

end Scanner

namespace Cursor

open Scanner

theorem skipGap_comment {body : List Char} (hb : '\n' ∉ body) (rest : List Char) (p : Pos) :
    skipGap true (body ++ rest) p = skipGap true rest (p.past body) := by
  induction body generalizing p with
  | nil => rfl
  | cons c body ih =>
    have hc : c ≠ '\n' := fun h => hb (by simp [h])
    rw [List.cons_append, skipGap, if_pos (by simpa using hc)]
    exact ih (fun h => hb (List.mem_cons_of_mem _ h)) _

/-- A comment ends at a line end, and at the end of the source. -/
theorem skipGap_comment_end {rest : List Char} (h : ∀ c, rest.head? = some c → c = '\n') (p : Pos) :
    skipGap true rest p = skipGap false rest p := by
  cases rest with
  | nil => rfl
  | cons c rest =>
    obtain rfl := h c rfl
    rfl

/-- Passing a gap ends where an item begins. -/
theorem skipGap_append {gap after : List Char} (h : Gap gap after)
    (hstop : ∀ c, after.head? = some c → isSpace c = false ∧ c ≠ '#') (p : Pos) :
    skipGap false (gap ++ after) p = ⟨after, p.past gap⟩ := by
  induction h generalizing p with
  | nil after =>
    cases after with
    | nil => rfl
    | cons c after =>
      obtain ⟨hspace, hmark⟩ := hstop c rfl
      simp [skipGap, hspace, hmark, Pos.past]
  | blank hc _ ih =>
    rw [List.cons_append, skipGap, if_neg (by simp), if_pos (isSpace_iff.2 hc)]
    exact ih hstop _
  | @comment body gap after hb he _ ih =>
    rw [List.cons_append, List.append_assoc, skipGap, if_neg (by simp), if_neg (by decide), if_pos rfl,
      skipGap_comment hb, skipGap_comment_end he, ih hstop, ← Pos.past_append]
    rfl

theorem item_of_covers {before after xs : List Char} {i : Item} (h : Covers before after xs i)
    {c : Char} {cs : List Char} (hcs : c :: cs = xs ++ after) (rest : List Char) :
    item ⟨rest, ({} : Pos).past before⟩ c cs = (i, ⟨after, ({} : Pos).past (before ++ xs)⟩) := by
  cases h with
  | token hl hlong =>
    rw [item, hcs, lexeme?_append hl hlong, Pos.past_append]
    simp [pos_past]
  | @invalid d hd _ _ =>
    obtain ⟨rfl, rfl⟩ : c = d ∧ cs = after := by simpa using hcs
    have hnone : lexeme? (c :: cs) = none := by
      by_contra hsome
      obtain ⟨l, hl⟩ := Option.ne_none_iff_exists'.1 hsome
      obtain ⟨rest', hrest, hvalid, -⟩ := lexeme?_eq_some hl
      obtain ⟨e, es, hes⟩ := List.exists_cons_of_ne_nil hvalid.ne_nil
      rw [hes] at hrest
      cases hrest
      exact hd l hvalid (by rw [hes]; rfl)
    rw [item, hnone, Pos.past_append, pos_past]
    rfl

/-- The items of a source are those of its one tiling. -/
theorem items_of_tiled {before cs : List Char} {is : List Item} (h : Tiled before cs is) :
    (items ⟨cs, ({} : Pos).past before⟩).1 = is := by
  induction h with
  | @done before gap hg =>
    have hskip : (Cursor.mk gap (({} : Pos).past before)).skip.rest = [] := by
      have hgap := skipGap_append hg (by simp) (({} : Pos).past before)
      rw [List.append_nil] at hgap
      rw [skip, hgap]
    rw [items_nil hskip]
  | @item before gap xs after i is hg hi ht ih =>
    obtain ⟨c, cs, hxs, hspace, hmark⟩ := hi.head
    have hstop : ∀ d, (xs ++ after).head? = some d → isSpace d = false ∧ d ≠ '#' := by
      intro d hd
      rw [hxs] at hd
      cases hd
      exact ⟨hspace, hmark⟩
    have hskip : (Cursor.mk (gap ++ xs ++ after) (({} : Pos).past before)).skip =
        ⟨xs ++ after, ({} : Pos).past (before ++ gap)⟩ := by
      rw [skip, List.append_assoc, skipGap_append hg hstop, Pos.past_append]
    have hcons : xs ++ after = c :: (cs ++ after) := by rw [hxs, List.cons_append]
    rw [items_cons (by rw [hskip, hcons]), hskip, item_of_covers hi hcons.symm, ih]

end Cursor

/-- Items without an error are tokens. -/
theorem items_of_mapM {is : List Item} {ts : List Token}
    (h : is.mapM id = (.ok ts : Except LexError (List Token))) : is = ts.map .ok := by
  induction is generalizing ts with
  | nil =>
    cases h
    rfl
  | cons i is ih =>
    rw [List.mapM_cons] at h
    cases i with
    | error e => cases h
    | ok t =>
      cases hm : is.mapM id with
      | error e =>
        rw [hm] at h
        cases h
      | ok us =>
        rw [hm] at h
        cases h
        rw [ih hm]
        rfl

theorem lex_of_items {source : Text} {ts : List Token} {e : Token}
    (h : (Cursor.ofText source).items = (ts.map .ok, e)) : lex source = .ok (ts ++ [e]) := by
  have hmap : (ts.map Except.ok).mapM id = (.ok ts : Except LexError (List Token)) := by
    rw [List.mapM_map]
    change ts.mapM (fun t => pure (id t)) = pure ts
    rw [List.mapM_pure, List.map_id]
  simp only [lex, h, hmap]
  rfl

theorem items_of_lex {source : Text} {ts : List Token} (h : lex source = .ok ts) :
    ∃ us e, (Cursor.ofText source).items = (us.map .ok, e) ∧ ts = us ++ [e] := by
  unfold lex at h
  cases hm : (Cursor.ofText source).items.1.mapM id with
  | error e =>
    simp only [hm] at h
    cases h
  | ok us =>
    simp only [hm] at h
    exact ⟨us, _, Prod.ext (items_of_mapM hm) rfl, (Except.ok.inj h).symm⟩

end OnePass
