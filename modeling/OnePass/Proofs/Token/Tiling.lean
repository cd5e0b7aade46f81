import Mathlib.Data.List.Induction
import OnePass.Token.Scanner

namespace OnePass

namespace Scanner

/-- The line on which the next character stands: there is one more than line ends before it. -/
def lineAfter (before : List Char) : Int := before.count '\n' + 1

/-- The column of the next character: one more than there are characters on its line before it. -/
def columnAfter (before : List Char) : Int := (before.reverse.takeWhile (· != '\n')).length + 1

/-- Blanks and whole comments in front of `after`. A comment goes on to a line end or to the end of the
source. -/
inductive Gap : List Char → List Char → Prop where
  | nil (after : List Char) : Gap [] after
  | blank {c : Char} {gap after : List Char} (hc : c = ' ' ∨ c = '\t' ∨ c = '\r' ∨ c = '\n')
      (hg : Gap gap after) : Gap (c :: gap) after
  | comment {body gap after : List Char} (hb : '\n' ∉ body)
      (he : ∀ c, (gap ++ after).head? = some c → c = '\n') (hg : Gap gap after) :
      Gap ('#' :: (body ++ gap)) after

/-- What a token may be spelled like. -/
inductive Lexeme.Valid : Lexeme → Prop where
  | identifier {c : Char} {cs : List Char} (hc : isLower c = true)
      (hcs : ∀ d ∈ cs, isWordPart d = true) (hr : ∀ r ∈ reserved, r.2.spelling ≠ c :: cs) :
      Valid ⟨.identifier, .none, c :: cs⟩
  | reserved {r : Kind × Attr} (hr : r ∈ reserved) : Valid ⟨r.1, r.2, r.2.spelling⟩
  | number {c : Char} {cs : List Char} (h : ∀ d ∈ c :: cs, isDigit d = true) :
      Valid ⟨.number, .none, c :: cs⟩
  | sign {s : Kind × Attr} (hs : s ∈ signs) : Valid ⟨s.1, s.2, s.2.spelling⟩

/-- The next character could not have been taken into the lexeme. -/
structure Lexeme.Longest (l : Lexeme) (after : List Char) : Prop where
  word : l.kind = .identifier ∨ (l.kind, l.attr) ∈ reserved →
    ∀ c, after.head? = some c → isLower c = false ∧ isDigit c = false
  number : l.kind = .number → ∀ c, after.head? = some c → isDigit c = false
  sign : ∀ c, after.head? = some c → ∀ s ∈ signs, s.2.spelling ≠ l.chars ++ [c]

/-- The characters between `before` and `after` are those of the item, which tells where they start. -/
inductive Covers (before after : List Char) : List Char → Item → Prop where
  | token {l : Lexeme} (hl : l.Valid) (hlong : l.Longest after) :
      Covers before after l.chars
        (.ok ⟨l.kind, l.attr, Text.ofChars l.chars, lineAfter before, columnAfter before⟩)
  | invalid {c : Char} (hc : ∀ l : Lexeme, l.Valid → l.chars.head? ≠ some c)
      (hspace : isSpace c = false) (hmark : c ≠ '#') :
      Covers before after [c] (.error ⟨c, lineAfter before, columnAfter before⟩)

/-- The characters after `before` are a gap, an item, a gap, an item, and so on, and a gap at the end. -/
inductive Tiled : List Char → List Char → List Item → Prop where
  | done {before gap : List Char} (hg : Gap gap []) : Tiled before gap []
  | item {before gap cs after : List Char} {i : Item} {is : List Item} (hg : Gap gap (cs ++ after))
      (hi : Covers (before ++ gap) after cs i) (ht : Tiled (before ++ gap ++ cs) after is) :
      Tiled before (gap ++ cs ++ after) (i :: is)

theorem pos_past (before : List Char) :
    ({} : Pos).past before = ⟨lineAfter before, columnAfter before⟩ := by
  induction before using List.reverseRecOn with
  | nil => rfl
  | append_singleton cs c ih =>
    have hnext : ({} : Pos).past (cs ++ [c]) = (({} : Pos).past cs).next c := by
      rw [Pos.past_append]
      rfl
    rw [hnext, ih, Pos.next]
    by_cases hc : c = '\n'
    · simp [hc, lineAfter, columnAfter]
    · simp [hc, lineAfter, columnAfter]

theorem signs_longer_first :
    signs.Pairwise fun s t => t.2.spelling.length ≤ s.2.spelling.length := by decide

theorem signs_head : ∀ s ∈ signs, s.1 ≠ .identifier ∧ s.1 ≠ .number ∧ s ∉ reserved ∧
    s.2.spelling.head?.all (fun c => !isWordPart c) = true := by decide

/-- The first character of a sign is a sign of its own. -/
theorem signs_take_one : ∀ s ∈ signs, ∃ t ∈ signs, t.2.spelling = s.2.spelling.take 1 := by decide

theorem reserved_head : ∀ r ∈ reserved, r.1 ≠ .number ∧
    r.2.spelling.head?.all isLower = true := by decide

/-- No sign begins like a word or a number. -/
theorem sign_ne_of_isWordPart {c : Char} (hc : isWordPart c = true) {cs : List Char} {s : Kind × Attr}
    (hs : s ∈ signs) : s.2.spelling ≠ c :: cs := by
  intro h
  have hhead := (signs_head s hs).2.2.2
  rw [h] at hhead
  simp [hc] at hhead

theorem word_valid {c : Char} {cs : List Char} (hc : isLower c = true)
    (hcs : ∀ d ∈ cs, isWordPart d = true) : (word (c :: cs)).Valid := by
  unfold word
  split
  · rename_i r hr
    have hmem := List.mem_of_find?_eq_some hr
    have hspell : r.2.spelling = c :: cs := by simpa using List.find?_some hr
    rw [← hspell]
    exact .reserved hmem
  · rename_i hr
    have hnone : ∀ r ∈ reserved, r.2.spelling ≠ c :: cs := by
      intro r hmem
      simpa using List.find?_eq_none.1 hr r hmem
    exact .identifier hc hcs hnone

theorem word_kind_ne (w : List Char) : (word w).kind ≠ .number := by
  unfold word
  split
  · rename_i r hr
    exact (reserved_head r (List.mem_of_find?_eq_some hr)).1
  · simp

theorem head?_dropWhile_false {p : Char → Bool} {cs : List Char} {c : Char}
    (h : (cs.dropWhile p).head? = some c) : p c = false := by
  have hnot := List.head?_dropWhile_not p cs
  rw [h] at hnot
  exact hnot

theorem word_longest {c : Char} (hc : isLower c = true) (cs : List Char) :
    (word (c :: cs.takeWhile isWordPart)).Longest (cs.dropWhile isWordPart) := by
  have hpart : isWordPart c = true := by simp [isWordPart, hc]
  refine ⟨fun _ d hd => ?_, fun hk => absurd hk (word_kind_ne _), fun d _ s hs => ?_⟩
  · have hfalse := head?_dropWhile_false hd
    simpa [isWordPart] using hfalse
  · rw [word_chars]
    exact sign_ne_of_isWordPart hpart hs

theorem number_longest {c : Char} (hc : isDigit c = true) (cs : List Char) :
    (Lexeme.mk .number .none (c :: cs.takeWhile isDigit)).Longest (cs.dropWhile isDigit) := by
  have hpart : isWordPart c = true := by simp [isWordPart, hc]
  refine ⟨fun hk => ?_, fun _ d hd => head?_dropWhile_false hd, fun d _ s hs => ?_⟩
  · have hnot : Kind.number ≠ .identifier ∧ (Kind.number, Attr.none) ∉ reserved := by decide
    rcases hk with hk | hk
    · exact absurd hk hnot.1
    · exact absurd hk hnot.2
  · exact sign_ne_of_isWordPart hpart hs

/-- The sign that is found first is the longest one. -/
theorem sign_longest {cs after : List Char} {s : Kind × Attr}
    (h : signs.find? (fun s => s.2.spelling.isPrefixOf cs) = some s)
    (hcs : cs = s.2.spelling ++ after) : (Lexeme.mk s.1 s.2 s.2.spelling).Longest after := by
  have hmem := List.mem_of_find?_eq_some h
  obtain ⟨hid, hnum, hres, -⟩ := signs_head s hmem
  refine ⟨fun hk => ?_, fun hk => absurd hk hnum, fun c hc t ht htext => ?_⟩
  · rcases hk with hk | hk
    · exact absurd hk hid
    · exact absurd hk hres
  · have hlen : t.2.spelling.length = s.2.spelling.length + 1 := by simp [htext]
    have hfirst : t.2.spelling.isPrefixOf cs = true := by
      obtain ⟨rest, rfl⟩ : ∃ rest, after = c :: rest := by
        cases after with
        | nil => simp at hc
        | cons d rest => simp_all
      rw [List.isPrefixOf_iff_prefix, hcs, htext]
      exact ⟨rest, by simp⟩
    obtain ⟨-, as, bs, hsplit, hbefore⟩ := List.find?_eq_some_iff_append.1 h
    have hsorted := signs_longer_first
    rw [hsplit] at ht hsorted
    rw [List.pairwise_append, List.pairwise_cons] at hsorted
    rcases List.mem_append.1 ht with ht | ht
    · have hno := hbefore t ht
      simp [hfirst] at hno
    · rcases List.mem_cons.1 ht with rfl | ht
      · omega
      · have hle := hsorted.2.1.1 t ht
        omega

/-- What the scanner takes for a lexeme is one, and it is as long as it can be. -/
theorem lexeme?_eq_some {cs : List Char} {l : Lexeme} (h : lexeme? cs = some l) :
    ∃ after, cs = l.chars ++ after ∧ l.Valid ∧ l.Longest after := by
  cases cs with
  | nil => simp [lexeme?] at h
  | cons c cs =>
    simp only [lexeme?] at h
    split at h
    · rename_i hc
      have hpart : isWordPart c = true := by simp [isWordPart, hc]
      cases h
      rw [word_chars, List.takeWhile_cons_of_pos hpart]
      refine ⟨cs.dropWhile isWordPart, ?_, word_valid hc ?_, word_longest hc cs⟩
      · rw [List.cons_append, List.takeWhile_append_dropWhile]
      · exact fun d hd => List.all_eq_true.1 List.all_takeWhile d hd
    · split at h
      · rename_i hd
        cases h
        rw [List.takeWhile_cons_of_pos hd]
        refine ⟨cs.dropWhile isDigit, ?_, .number ?_, number_longest hd cs⟩
        · rw [List.cons_append, List.takeWhile_append_dropWhile]
        · refine List.forall_mem_cons.2 ⟨hd, ?_⟩
          exact fun d hd => List.all_eq_true.1 List.all_takeWhile d hd
      · obtain ⟨s, hs, rfl⟩ := Option.map_eq_some_iff.1 h
        have hfirst : s.2.spelling <+: c :: cs := by
          simpa [List.isPrefixOf_iff_prefix] using List.find?_some hs
        obtain ⟨after, hafter⟩ := hfirst
        exact ⟨after, hafter.symm, .sign (List.mem_of_find?_eq_some hs), sign_longest hs hafter.symm⟩

/-- What the scanner takes for no lexeme begins none. -/
theorem lexeme?_eq_none {c : Char} {cs : List Char} (h : lexeme? (c :: cs) = none) {l : Lexeme}
    (hl : l.Valid) : l.chars.head? ≠ some c := by
  simp only [lexeme?] at h
  split at h
  · cases h
  · rename_i hlower
    split at h
    · cases h
    · rename_i hdigit
      intro hhead
      cases hl with
      | identifier hc _ _ =>
        cases hhead
        exact hlower hc
      | @reserved r hr =>
        have hall := (reserved_head r hr).2
        rw [hhead] at hall
        exact hlower hall
      | number hd =>
        cases hhead
        exact hdigit (hd c (by simp))
      | @sign s hs =>
        obtain ⟨t, ht, htext⟩ := signs_take_one s hs
        have hone : t.2.spelling = [c] := by
          rw [htext]
          cases hspell : s.2.spelling with
          | nil => simp [hspell] at hhead
          | cons d ds => simp_all
        have hno := List.find?_eq_none.1 (Option.map_eq_none_iff.1 h) t ht
        simp [hone] at hno

end Scanner

namespace Cursor

open Scanner

theorem gap_comment_cons {c : Char} {gap after : List Char} (h : Gap ('#' :: gap) after)
    (hc : c ≠ '\n') : Gap ('#' :: c :: gap) after := by
  cases h with
  | blank hblank _ => simp at hblank
  | @comment body gap _ hb he hg =>
    have hbody : '\n' ∉ c :: body := by simp [hb, Ne.symm hc]
    exact Gap.comment hbody he hg

theorem isSpace_iff {c : Char} :
    isSpace c = true ↔ c = ' ' ∨ c = '\t' ∨ c = '\r' ∨ c = '\n' := by
  simp only [isSpace, Bool.or_eq_true, beq_iff_eq]
  grind

/-- Passing a gap. Inside a comment the gap has begun with its number sign already. -/
theorem skipGap_gap (comment : Bool) (cs : List Char) (p : Pos) :
    ∃ gap, cs = gap ++ (skipGap comment cs p).rest ∧ (skipGap comment cs p).pos = p.past gap ∧
      Gap (if comment then '#' :: gap else gap) (skipGap comment cs p).rest ∧
      ∀ c, (skipGap comment cs p).rest.head? = some c → isSpace c = false ∧ c ≠ '#' := by
  induction cs generalizing comment p with
  | nil =>
    refine ⟨[], rfl, rfl, ?_, by simp [skipGap]⟩
    cases comment with
    | false => exact .nil []
    | true => exact @Gap.comment [] [] _ (by simp) (by simp [skipGap]) (.nil [])
  | cons c cs ih =>
    rw [skipGap]
    split
    · -- a character of a comment
      rename_i hc
      obtain ⟨rfl, hne⟩ : comment = true ∧ c ≠ '\n' := by simpa using hc
      obtain ⟨gap, hcs, hpos, hgap, hstop⟩ := ih true (p.next c)
      refine ⟨c :: gap, ?_, hpos, gap_comment_cons hgap hne, hstop⟩
      rw [List.cons_append, ← hcs]
    · split
      · -- a blank, which a comment in front of it ends at if it is a line end
        rename_i hc hspace
        obtain ⟨gap, hcs, hpos, hgap, hstop⟩ := ih false (p.next c)
        have hblank : Gap (c :: gap) (skipGap false cs (p.next c)).rest :=
          .blank (isSpace_iff.1 hspace) hgap
        refine ⟨c :: gap, ?_, hpos, ?_, hstop⟩
        · rw [List.cons_append, ← hcs]
        · cases comment with
          | false => exact hblank
          | true =>
            have hline : c = '\n' := by simpa using hc
            exact @Gap.comment [] _ _ (by simp) (by simp [hline]) hblank
      · rename_i hc hspace
        have hout : comment = false := by
          cases comment with
          | false => rfl
          | true =>
            have hline : c = '\n' := by simpa using hc
            exact absurd (isSpace_iff.2 (by simp [hline])) hspace
        subst hout
        split
        · -- a comment begins
          rename_i hmark
          obtain ⟨gap, hcs, hpos, hgap, hstop⟩ := ih true (p.next c)
          refine ⟨c :: gap, ?_, hpos, ?_, hstop⟩
          · rw [List.cons_append, ← hcs]
          · rw [hmark] at hgap ⊢
            exact hgap
        · rename_i hmark
          refine ⟨[], rfl, rfl, .nil _, fun d hd => ?_⟩
          obtain rfl : c = d := by simpa using hd
          exact ⟨by simpa using hspace, hmark⟩

/-- The item behind a gap. -/
theorem item_covers {u : Cursor} {before : List Char} (hp : u.pos = ({} : Pos).past before) {c : Char}
    (hspace : isSpace c = false) (hmark : c ≠ '#') (cs : List Char) :
    ∃ xs after, c :: cs = xs ++ after ∧ xs ≠ [] ∧ Covers before after xs (u.item c cs).1 ∧
      (u.item c cs).2 = ⟨after, ({} : Pos).past (before ++ xs)⟩ := by
  have hline : u.pos.line = lineAfter before := by rw [hp, pos_past]
  have hcol : u.pos.col = columnAfter before := by rw [hp, pos_past]
  rw [item]
  split
  · rename_i l hl
    obtain ⟨after, hcs, hvalid, hlong⟩ := lexeme?_eq_some hl
    refine ⟨l.chars, after, hcs, lexeme?_ne_nil hl, ?_, ?_⟩
    · rw [hline, hcol]
      exact .token hvalid hlong
    · rw [hcs, List.drop_left, hp, Pos.past_append]
  · rename_i hnone
    refine ⟨[c], cs, rfl, by simp, ?_, ?_⟩
    · rw [hline, hcol]
      exact .invalid (fun l hl => lexeme?_eq_none hnone hl) hspace hmark
    · rw [hp, Pos.past_append]
      rfl

theorem skip_gap (u : Cursor) :
    ∃ gap, u.rest = gap ++ u.skip.rest ∧ u.skip.pos = u.pos.past gap ∧ Gap gap u.skip.rest ∧
      ∀ c, u.skip.rest.head? = some c → isSpace c = false ∧ c ≠ '#' :=
  skipGap_gap false u.rest u.pos

theorem items_nil {u : Cursor} (h : u.skip.rest = []) : u.items = ([], u.skip.endToken) := by
  rw [items]
  split
  · rfl
  · rename_i hcons
    rw [h] at hcons
    cases hcons

theorem items_cons {u : Cursor} {c : Char} {cs : List Char} (h : u.skip.rest = c :: cs) :
    u.items = ((u.skip.item c cs).1 :: (u.skip.item c cs).2.items.1,
      (u.skip.item c cs).2.items.2) := by
  rw [items]
  split
  · rename_i hnil
    rw [h] at hnil
    cases hnil
  · rename_i hcons
    rw [h] at hcons
    cases hcons
    rfl

/-- The items of a cursor tile what is left of its source, and the end of input stands behind it. -/
theorem items_tiled (u : Cursor) (before : List Char) (hp : u.pos = ({} : Pos).past before) :
    Tiled before u.rest u.items.1 ∧ u.items.1.length ≤ u.rest.length ∧
      u.items.2 = endToken ⟨[], ({} : Pos).past (before ++ u.rest)⟩ := by
  obtain ⟨n, hn⟩ : ∃ n, u.rest.length = n := ⟨_, rfl⟩
  induction n using Nat.strongRecOn generalizing u before with
  | _ n ih =>
    obtain ⟨gap, hrest, hpos, hgap, hstop⟩ := u.skip_gap
    have hskip : u.skip.pos = ({} : Pos).past (before ++ gap) := by rw [hpos, hp, Pos.past_append]
    cases hleft : u.skip.rest with
    | nil =>
      rw [hleft] at hrest hgap
      rw [List.append_nil] at hrest
      rw [items_nil hleft, hrest]
      refine ⟨.done hgap, Nat.zero_le _, ?_⟩
      rw [← hskip]
      rfl
    | cons c cs =>
      obtain ⟨hspace, hmark⟩ := hstop c (by rw [hleft]; rfl)
      obtain ⟨xs, after, hcs, hne, hcovers, hnext⟩ := item_covers hskip hspace hmark cs
      have hall : u.rest = gap ++ xs ++ after := by rw [hrest, hleft, hcs, List.append_assoc]
      have hlen : u.rest.length = gap.length + xs.length + after.length := by
        rw [hall, List.length_append, List.length_append]
      have hpositive := List.length_pos_iff.2 hne
      rw [items_cons hleft, hnext]
      obtain ⟨htiled, hcount, hlast⟩ :=
        ih after.length (by omega) ⟨after, ({} : Pos).past (before ++ gap ++ xs)⟩ _ rfl rfl
      refine ⟨?_, ?_, ?_⟩
      · rw [hall]
        rw [hleft, hcs] at hgap
        exact .item hgap hcovers htiled
      · have hbound : _ ≤ after.length := hcount
        simp only [List.length_cons]
        omega
      · rw [hlast, hall]
        simp only [List.append_assoc]

theorem take_append_replicate {α : Type} (is : List α) (a : α) (n : Nat) :
    (is ++ List.replicate (n + 1) a).take n = (is ++ List.replicate n a).take n := by
  simp only [List.take_append, List.take_replicate]
  congr 2
  omega

/-- The answers of a cursor are its items, and then the end of input. -/
theorem take_eq_items (n : Nat) (u : Cursor) :
    u.take n = (u.items.1 ++ List.replicate n (Except.ok u.items.2)).take n := by
  induction n generalizing u with
  | zero => rfl
  | succ n ih =>
    cases hleft : u.skip.rest with
    | nil =>
      have hagain : u.skip.skip = u.skip := by
        rw [skip, hleft, skipGap, ← hleft]
      have hnext : u.next = (.ok u.skip.endToken, u.skip) := by rw [next, hleft]
      have hrest : u.skip.items = ([], u.skip.endToken) := by
        rw [items_nil (by rw [hagain, hleft]), hagain]
      rw [take, hnext, ih, hrest, items_nil hleft]
      simp [List.replicate_succ]
    | cons c cs =>
      have hnext : u.next = u.skip.item c cs := by rw [next, hleft]
      rw [take, hnext, ih, items_cons hleft, List.cons_append, List.take_succ_cons,
        take_append_replicate]

theorem kind_ne_eof_of_tiled {before cs : List Char} {is : List Item} (h : Tiled before cs is) {t : Token}
    (ht : Except.ok t ∈ is) : t.kind ≠ .eof := by
  induction h with
  | done => cases ht
  | item _ hi _ ih =>
    rcases List.mem_cons.1 ht with rfl | ht
    · cases hi with
      | token hl _ =>
        have hwords : ∀ r ∈ reserved ++ signs, r.1 ≠ .eof := by decide
        cases hl with
        | identifier => simp
        | reserved hr => exact hwords _ (List.mem_append_left _ hr)
        | number => simp
        | sign hs => exact hwords _ (List.mem_append_right _ hs)
    · exact ih ht

/-- Scanning tiles the source: the items up to the end of input are all that calls give before it, there
are no more of them than characters, and the end of input is given for ever after. -/
theorem scan_tiles (source : Text) :
    ∃ is last, (ofText source).items = (is, last) ∧ Tiled [] source.chars is ∧
      is.length ≤ source.chars.length ∧ (∀ t, Except.ok t ∈ is → t.kind ≠ .eof) ∧
      last = { kind := .eof, line := lineAfter source.chars, col := columnAfter source.chars } ∧
      ∀ n, (ofText source).take n = (is ++ List.replicate n (Except.ok last)).take n := by
  obtain ⟨htiled, hcount, hlast⟩ := (ofText source).items_tiled [] rfl
  have hend : (ofText source).items.2 =
      { kind := .eof, line := lineAfter source.chars, col := columnAfter source.chars } := by
    rw [hlast, List.nil_append, pos_past]
    rfl
  exact ⟨_, _, rfl, htiled, hcount, fun t ht => kind_ne_eof_of_tiled htiled ht, hend,
    fun n => take_eq_items n _⟩

end Cursor

end OnePass
