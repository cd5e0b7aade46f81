import OnePass.Diagnostic
import OnePass.Proofs.Compiler.TwoCalls
import OnePass.Proofs.Text.Lines
import OnePass.Proofs.Token.Tiling

namespace OnePass

open Compiler Assembly

namespace Text

theorem toChar_eq_iff {g : Glyph} {c : Char} (hc : c ≠ '�') : g.toChar = c ↔ g = .char c := by
  cases g with
  | char d => simp [Glyph.toChar]
  | stray b => simp [Glyph.toChar, Ne.symm hc]

theorem chars_append (a b : Text) : (a ++ b).chars = a.chars ++ b.chars := List.map_append

theorem chars_reverse (t : Text) : chars t.reverse = (chars t).reverse := List.map_reverse

theorem count_chars (t : Text) : t.chars.count '\n' = t.count (.char '\n') := by
  rw [chars, List.count, List.countP_map, List.count]
  refine List.countP_congr fun g _ => ?_
  simp [toChar_eq_iff (c := '\n') (by decide)]

theorem chars_takeWhile (t : Text) :
    chars (t.takeWhile (· != .char '\n')) = (chars t).takeWhile (· != '\n') := by
  induction t with
  | nil => rfl
  | cons g t ih =>
    by_cases hg : g = .char '\n'
    · simp [hg, chars, Glyph.toChar]
    · have hchar : g.toChar ≠ '\n' := fun h => hg ((toChar_eq_iff (by decide)).1 h)
      have hcons : chars (g :: t) = g.toChar :: chars t := rfl
      rw [List.takeWhile_cons_of_pos (by simpa using hg), hcons,
        List.takeWhile_cons_of_pos (by simpa using hchar), ← ih]
      rfl

theorem size_ofChars {cs : List Char} (h : ∀ c ∈ cs, c.utf8Size = 1) :
    (ofChars cs).size = cs.length := by
  induction cs with
  | nil => rfl
  | cons c cs ih =>
    have htail : (ofChars cs).size = cs.length := ih fun d hd => h d (List.mem_cons_of_mem _ hd)
    have hhead : (ofChars (c :: cs)).size = c.utf8Size + (ofChars cs).size := by
      simp [size, bytes, ofChars, Glyph.bytes, String.length_utf8EncodeChar]
    rw [hhead, htail, h c List.mem_cons_self, List.length_cons, Nat.add_comm]

end Text

namespace Scanner

/-- The characters stand in the source on one line, from this place on. -/
def StandsAt (source cs : List Char) (line col : Int) : Prop :=
  '\n' ∉ cs ∧ ∃ before after, source = before ++ cs ++ after ∧
    line = lineAfter before ∧ col = columnAfter before

/-- An item stands where it says, and its lexeme has as many bytes as characters. -/
def ItemStands (source : List Char) : Item → Prop
  | .ok t => StandsAt source t.lexeme.chars t.line t.col ∧ t.lexeme.size = t.lexeme.length
  | .error e => StandsAt source [e.char] e.line e.col

theorem isWordPart_narrow {c : Char} (hc : isWordPart c = true) : c.utf8Size = 1 ∧ c ≠ '\n' := by
  constructor
  · rw [Char.utf8Size_eq_one_iff]
    simp only [isWordPart, isLower, isDigit, Bool.or_eq_true, Bool.and_eq_true, decide_eq_true_eq,
      Char.le_def] at hc
    rcases hc with ⟨-, hc⟩ | ⟨-, hc⟩
    · exact UInt32.le_trans hc (by decide)
    · exact UInt32.le_trans hc (by decide)
  · rintro rfl
    exact absurd hc (by decide)

theorem Lexeme.Valid.narrow {l : Lexeme} (hl : l.Valid) :
    ∀ c ∈ l.chars, c.utf8Size = 1 ∧ c ≠ '\n' := by
  have hspellings : ∀ r ∈ Scanner.reserved ++ signs,
      r.2.spelling.all (fun c => c.utf8Size == 1 && c != '\n') = true := by decide
  have hspelled : ∀ r ∈ Scanner.reserved ++ signs, ∀ c ∈ r.2.spelling, c.utf8Size = 1 ∧ c ≠ '\n' := by
    intro r hr c hc
    simpa using List.all_eq_true.1 (hspellings r hr) c hc
  intro c hc
  cases hl with
  | identifier hlower hparts _ =>
    rcases List.mem_cons.1 hc with rfl | hc
    · exact isWordPart_narrow (by simp [isWordPart, hlower])
    · exact isWordPart_narrow (hparts c hc)
  | reserved hr => exact hspelled _ (List.mem_append_left _ hr) c hc
  | number hdigits => exact isWordPart_narrow (by simp [isWordPart, hdigits c hc])
  | sign hs => exact hspelled _ (List.mem_append_right _ hs) c hc

theorem Covers.stands {before after cs : List Char} {i : Item} (h : Covers before after cs i) :
    ItemStands (before ++ cs ++ after) i := by
  cases h with
  | @token l hl _ =>
    have hline : '\n' ∉ l.chars := fun h => (hl.narrow _ h).2 rfl
    have hsize := Text.size_ofChars fun c hc => (hl.narrow c hc).1
    refine ⟨⟨?_, before, after, ?_, rfl, rfl⟩, ?_⟩
    · simpa [Text.chars_ofChars] using hline
    · rw [Text.chars_ofChars]
    · simpa [Text.ofChars] using hsize
  | @invalid c _ hspace _ =>
    have hline : c ≠ '\n' := by
      rintro rfl
      exact absurd hspace (by decide)
    exact ⟨by simpa using Ne.symm hline, before, after, rfl, rfl, rfl⟩

theorem Tiled.stands {before cs : List Char} {is : List Item} (h : Tiled before cs is) :
    ∀ i ∈ is, ItemStands (before ++ cs) i := by
  induction h with
  | done _ => simp
  | @item before gap cs after i is _ hi _ ih =>
    have hassoc : before ++ (gap ++ cs ++ after) = before ++ gap ++ cs ++ after := by
      simp only [List.append_assoc]
    rw [hassoc]
    exact List.forall_mem_cons.2 ⟨hi.stands, ih⟩

end Scanner

open Scanner

/-- All items of a source stand where they say, and so does its end. -/
theorem ofSource_stands (source : Text) :
    (∀ i ∈ (Feed.ofSource source).items, ItemStands source.chars i) ∧
      ItemStands source.chars (.ok (Feed.ofSource source).final) := by
  obtain ⟨htiled, -, hlast⟩ := (Cursor.ofText source).items_tiled [] rfl
  refine ⟨htiled.stands, ?_⟩
  have hfinal : (Feed.ofSource source).final = (Cursor.ofText source).items.2 := rfl
  rw [hfinal, hlast, pos_past]
  exact ⟨⟨by simp [Text.chars, Cursor.endToken], source.chars, [],
    by simp [Text.chars, Cursor.endToken], rfl, rfl⟩, rfl⟩

namespace Compiler.Likeness

/-- One run beside itself: what has a place stands there in the source. -/
def standing (source : List Char) : Likeness :=
  sameOutput (fun t u => t = u ∧ (t.line ≤ 0 ∨ ItemStands source (.ok t)))
    (fun e f => e = f ∧ ItemStands source (.error e))
    (congrArg Token.kind ·.1) (congrArg Token.attr ·.1) (congrArg Token.lexeme ·.1)

theorem standing_feed (source : Text) :
    (standing source.chars).Feed (Feed.ofSource source) (Feed.ofSource source) := by
  obtain ⟨hitems, hfinal⟩ := ofSource_stands source
  constructor
  · refine List.forall₂_same.2 fun i hi => ?_
    have hi := hitems i hi
    cases i with
    | ok t => exact .ok ⟨rfl, .inr hi⟩
    | error e => exact .error ⟨rfl, hi⟩
  · exact ⟨rfl, .inr hfinal⟩

end Compiler.Likeness

open Compiler.Likeness

/-- The carets for the bytes of a lexeme are as many as its characters. -/
theorem width_of_token {e : CompileError} {t : Token} (ht : e.token? = some t)
    (hsize : t.lexeme.size = t.lexeme.length) :
    e.width = max 1 (e.token?.elim 0 fun t => t.lexeme.length) := by
  rw [CompileError.width, ht]
  exact congrArg (max 1) hsize

theorem position_of_token {e : CompileError} {t : Token} (ht : e.token? = some t) :
    e.position? = if 0 < t.line then some (t.line, t.col) else none := by
  cases e <;> cases ht <;> rfl

/-- What an error of a place is about stands at this place. -/
theorem stands_of_position {o : Options} {source : Text} {e : CompileError} {line col : Int}
    (he : (compile o source).error = some e) (hp : e.position? = some (line, col)) :
    ∃ cs, StandsAt source.chars cs line col ∧
      (∀ t, e.token? = some t → cs = t.lexeme.chars) ∧ (∀ x, e = .lexical x → cs = [x.char]) ∧
      e.width = max 1 (e.token?.elim 0 fun t => t.lexeme.length) := by
  obtain ⟨herror, -⟩ := compile_alike (L := standing source.chars) (congrArg Listing.refused) o
    (standing_feed source) rfl ⟨rfl, .inl (Int.le_refl 0)⟩
  rw [he] at herror
  -- the three errors about a token differ only in what they say about it
  have htoken : ∀ t, e.token? = some t → (t.line ≤ 0 ∨ ItemStands source.chars (.ok t)) →
      ∃ cs, StandsAt source.chars cs line col ∧
        (∀ t, e.token? = some t → cs = t.lexeme.chars) ∧ (∀ x, e = .lexical x → cs = [x.char]) ∧
        e.width = max 1 (e.token?.elim 0 fun t => t.lexeme.length) := by
    intro t ht hstands
    rw [position_of_token ht] at hp
    split at hp
    · rename_i hline
      cases hp
      rcases hstands with hzero | ⟨hat, hsize⟩
      · omega
      · refine ⟨_, hat, fun u hu => ?_, fun x hx => ?_, width_of_token ht hsize⟩
        · cases ht.symm.trans hu
          rfl
        · rw [hx] at ht
          cases ht
    · cases hp
  cases herror with
  | some h =>
    cases h with
    | @lexical x _ hx =>
      cases hp
      refine ⟨_, hx.2, ?_, ?_, rfl⟩
      · intro t ht
        cases ht
      · intro y hy
        cases hy
        rfl
    | unexpected ht => exact htoken _ rfl ht.2
    | extraTokens ht => exact htoken _ rfl ht.2
    | semantic ht => exact htoken _ rfl ht.2
    | internal => cases hp
    | outputFull => cases hp

/-- The line at a place of the source, with what stands on it from there on. -/
theorem exists_line {source : Text} {before rest : List Char} (h : source.chars = before ++ rest) :
    ∃ text, source.lines[(lineAfter before).toNat - 1]? = some text ∧
      Text.chars (text.drop (columnAfter before - 1).toNat) = rest.takeWhile (· != '\n') := by
  obtain ⟨a, b, rfl, rfl, rfl⟩ := List.map_eq_append_iff.1 h
  have hline : (lineAfter (a.map Glyph.toChar)).toNat - 1 = a.count (.char '\n') := by
    have hcount := Text.count_chars a
    rw [Text.chars] at hcount
    rw [lineAfter, hcount]
    omega
  have hcol : (columnAfter (a.map Glyph.toChar) - 1).toNat =
      (a.reverse.takeWhile (· != .char '\n')).reverse.length := by
    have hprior := Text.chars_takeWhile a.reverse
    rw [Text.chars_reverse, Text.chars, Text.chars] at hprior
    rw [columnAfter, ← hprior, List.length_map, List.length_reverse]
    omega
  refine ⟨_, hline ▸ Text.getElem?_splitAt_count (.char '\n') a b, ?_⟩
  rw [hcol, List.drop_left, Text.chars_takeWhile]
  rfl

namespace Diagnostic

theorem length_indent (t : Text) (n : Nat) : (indent t n).length = n := by
  simp only [indent, Text.spaces, List.length_append, List.length_map, List.length_take,
    List.length_replicate]
  omega

theorem getElem?_indent (t : Text) {i n : Nat} (hi : i < n) :
    (indent t n)[i]? = some (if t.chars[i]? = some '\t' then .char '\t' else .char ' ') := by
  rw [Text.chars, List.getElem?_map]
  by_cases hlength : i < t.length
  · have htab := Text.toChar_eq_iff (g := t[i]) (c := '\t') (by decide)
    rw [indent, List.getElem?_append_left (by simp; omega), List.getElem?_map,
      List.getElem?_take_of_lt hi, List.getElem?_eq_getElem hlength]
    simp [htab]
  · rw [indent, List.getElem?_append_right (by simp; omega),
      List.getElem?_eq_none (l := t) (by omega), Text.spaces, List.getElem?_replicate, if_pos]
    · simp
    · simp only [List.length_map, List.length_take]
      omega

/-- What is cut off a line are carriage returns, and all at its end. -/
theorem stripReturns_append (t : Text) :
    ∃ n, t = stripReturns t ++ List.replicate n (.char '\r') ∧
      (stripReturns t).getLast? ≠ some (.char '\r') := by
  have hcut := List.takeWhile_append_dropWhile (p := (· == Glyph.char '\r')) (l := t.reverse)
  have hreturns : t.reverse.takeWhile (· == .char '\r') =
      List.replicate (t.reverse.takeWhile (· == .char '\r')).length (.char '\r') :=
    List.eq_replicate_iff.2 ⟨rfl, fun g hg => by
      simpa using List.all_eq_true.1 List.all_takeWhile g hg⟩
  refine ⟨(t.reverse.takeWhile (· == .char '\r')).length, ?_, ?_⟩
  · rw [stripReturns, ← List.reverse_replicate, ← hreturns, ← List.reverse_append, hcut,
      List.reverse_reverse]
  · rw [stripReturns, List.getLast?_reverse]
    intro hhead
    have hnot := List.head?_dropWhile_not (· == Glyph.char '\r') t.reverse
    rw [hhead] at hnot
    simp at hnot

/-- A tab of a line is not among the carriage returns at its end. -/
theorem tab_stripReturns (t : Text) (i : Nat) :
    (stripReturns t).chars[i]? = some '\t' ↔ t.chars[i]? = some '\t' := by
  obtain ⟨n, ht, -⟩ := stripReturns_append t
  have hchars : t.chars = (stripReturns t).chars ++ List.replicate n '\r' := by
    conv_lhs => rw [ht, Text.chars_append]
    simp [Text.chars, Glyph.toChar]
  rw [hchars]
  by_cases hi : i < (stripReturns t).chars.length
  · rw [List.getElem?_append_left hi]
  · rw [List.getElem?_append_right (by omega), List.getElem?_eq_none (by omega),
      List.getElem?_replicate]
    split <;> simp

/-- The five lines of a message with an excerpt. -/
def excerptLines (classification file description : Text) (line col : Int) (shown underline : Text) :
    List Text :=
  let number := Text.ofInt line
  let margin := Text.spaces number.length
  ["error: " ++ classification,
    " " ++ margin ++ "--> " ++ file ++ ":" ++ number ++ ":" ++ Text.ofInt col,
    " " ++ margin ++ " |",
    " " ++ number ++ " | " ++ shown,
    " " ++ margin ++ " | " ++ underline ++ " " ++ description]

theorem renderExcerpt_eq (d : Diagnostic) (shown : Text) :
    d.renderExcerpt false shown = Text.join "\n" (excerptLines d.classification d.filename d.description
      d.line d.col shown (d.underline false shown)) := by
  have hpaint : ∀ (p : Paint) (t : Text), p.apply false t = t := fun _ _ => rfl
  -- both sides as one chain of the same short texts
  have hbreak : Text.ofString "\n " = Text.ofString "\n" ++ Text.ofString " " := rfl
  have harrow : Text.ofString "--> " = Text.ofString "-->" ++ Text.ofString " " := rfl
  have hbar : Text.ofString " |" = Text.ofString " " ++ Text.ofString "|" := rfl
  have hmargin : Text.ofString " | " = Text.ofString " " ++ Text.ofString "|" ++ Text.ofString " " := rfl
  unfold renderExcerpt excerptLines heading
  simp only [hpaint, hbreak, harrow, hbar, hmargin, Text.join, List.append_assoc]

theorem report_eq {file source text : Text} {e : CompileError} {line col : Int}
    (hp : e.position? = some (line, col)) (hline : 0 < line)
    (htext : source.lines[line.toNat - 1]? = some text) :
    report file source e false =
      Text.join "\n" (excerptLines e.classification file e.message line col (stripReturns text)
        (indent (stripReturns text) (col - 1).toNat ++ List.replicate e.width (.char '^'))) := by
  have hplace : (ofError file source e).line = line ∧ (ofError file source e).col = col := by
    simp [ofError, hp]
  have hexcerpt : (ofError file source e).excerpt? = some (stripReturns text) := by
    rw [excerpt?, hplace.1, if_pos hline]
    exact congrArg (Option.map stripReturns) htext
  have hwidth : ¬ (ofError file source e).width < 0 := by simp [ofError]
  have hrender : report file source e false =
      (ofError file source e).renderExcerpt false (stripReturns text) := by
    unfold report render?
    rw [hexcerpt]
    simp only [hwidth, if_false, Option.getD_some]
  rw [hrender, renderExcerpt_eq, underline, hplace.1, hplace.2]
  rfl

end Diagnostic

theorem take_takeWhile_append {cs after : List Char} (hcs : '\n' ∉ cs) :
    ((cs ++ after).takeWhile (· != '\n')).take cs.length = cs := by
  rw [List.takeWhile_append_of_pos fun c hc => by simpa using fun h : c = '\n' => hcs (h ▸ hc),
    List.take_left]

/-- The message for an error that has a place shows the line of that place, which is a line of the source, without
carriage returns at its end. Below it there are the columns before the place, with the tabs of the line and blanks
elsewhere, and as many carets as the lexeme has characters, but at least one. In the columns of the carets stands the
lexeme, or the character that is no token. -/
theorem report_points_at_error (o : Options) (file source : Text) {e : CompileError} {line col : Int}
    (he : (compile o source).error = some e) (hp : e.position? = some (line, col)) :
    ∃ (text shown padding : Text) (returns : Nat),
      Diagnostic.report file source e false =
        Text.join "\n" (Diagnostic.excerptLines e.classification file e.message line col shown
          (padding ++
            List.replicate (max 1 (e.token?.elim 0 fun t => t.lexeme.length)) (.char '^'))) ∧
      (0 < line ∧ source.lines[line.toNat - 1]? = some text ∧
        text = shown ++ List.replicate returns (.char '\r') ∧
        shown.getLast? ≠ some (.char '\r')) ∧
      (0 < col ∧ padding.length = (col - 1).toNat ∧
        ∀ i < padding.length,
          padding[i]? = some (if text.chars[i]? = some '\t' then .char '\t' else .char ' ')) ∧
      (∀ t, e.token? = some t →
        (text.chars.drop padding.length).take t.lexeme.length = t.lexeme.chars) ∧
      ∀ x, e = .lexical x → text.chars[padding.length]? = some x.char := by
  obtain ⟨cs, ⟨hone, before, after, hsource, rfl, rfl⟩, htoken, hlexical, hwidth⟩ :=
    stands_of_position he hp
  rw [List.append_assoc] at hsource
  obtain ⟨text, htext, hrest⟩ := exists_line hsource
  have hline : 0 < lineAfter before := by
    rw [lineAfter]
    omega
  have hcol : 0 < columnAfter before := by
    rw [columnAfter]
    omega
  obtain ⟨returns, hreturns, hlast⟩ := Diagnostic.stripReturns_append text
  have hlength := Diagnostic.length_indent (Diagnostic.stripReturns text) (columnAfter before - 1).toNat
  have hcs : (text.chars.drop (columnAfter before - 1).toNat).take cs.length = cs := by
    rw [Text.chars, List.map_drop] at hrest
    rw [Text.chars, hrest]
    exact take_takeWhile_append hone
  refine ⟨text, Diagnostic.stripReturns text, Diagnostic.indent (Diagnostic.stripReturns text) _, returns,
    ?_, ⟨hline, htext, hreturns, hlast⟩, ⟨hcol, hlength, fun i hi => ?_⟩, fun t ht => ?_, fun x hx => ?_⟩
  · rw [Diagnostic.report_eq hp hline htext, hwidth]
  · rw [hlength] at hi
    rw [Diagnostic.getElem?_indent _ hi]
    simp only [Diagnostic.tab_stripReturns]
  · have hcount : cs.length = t.lexeme.length := by rw [htoken t ht, Text.chars, List.length_map]
    rw [hlength, ← htoken t ht, ← hcount, hcs]
  · rw [hlexical x hx] at hcs
    have hhead := congrArg List.head? hcs
    rw [hlength, ← List.head?_drop]
    simpa only [List.length_singleton, List.head?_take, Nat.one_ne_zero, if_false,
      List.head?_cons] using hhead

/-- A source with tabs and carriage returns, and a name that is not declared. -/
def tabbedSource : Text := "program p;\r\n\ta : int;\r\nbegin\r\n\tprint\tbcd;\r\nend;\r\n"

theorem report_points_at_error_tabbed :
    ∃ e, (compile {} tabbedSource).error = some e ∧ e.position? = some (4, 8) ∧
      ∃ (text shown padding : Text) (returns : Nat),
        Diagnostic.report "p" tabbedSource e false =
          Text.join "\n" (Diagnostic.excerptLines "semantic error (not declared)" "p"
            "The identifier bcd has not been declared." 4 8 shown (padding ++ "^^^")) ∧
        tabbedSource.lines[3]? = some text ∧
        text = shown ++ List.replicate returns (.char '\r') ∧ padding.length = 7 ∧
        (text.chars.drop 7).take 3 = ['b', 'c', 'd'] := by
  have he : (compile {} tabbedSource).error =
      some (.semantic (.notDeclared "bcd") ⟨.identifier, .none, "bcd", 4, 8⟩) := by decide +kernel
  obtain ⟨text, shown, padding, returns, hreport, ⟨-, htext, hreturns, -⟩, ⟨-, hpadding, -⟩, hlexeme, -⟩ :=
    report_points_at_error {} "p" tabbedSource he rfl
  have hcolumns : (text.chars.drop padding.length).take 3 = ['b', 'c', 'd'] := hlexeme _ rfl
  rw [hpadding] at hcolumns
  exact ⟨_, he, rfl, text, shown, padding, returns, hreport, htext, hreturns, hpadding, hcolumns⟩

end OnePass
