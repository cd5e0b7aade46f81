import OnePass.Proofs.Compiler.TwoCalls
import OnePass.Proofs.Source.Places
import OnePass.Proofs.Token.Rescanning

namespace OnePass

open Compiler Assembly

namespace Scanner

/-- Texts that have the same items one after the other, with any gaps between them. In both texts each lexeme is as
long as it can be. -/
inductive Respaced : List Char → List Char → Prop where
  | done {gap gap' : List Char} (hg : Gap gap []) (hg' : Gap gap' []) : Respaced gap gap'
  | token {gap gap' after after' : List Char} {l : Lexeme} (hl : l.Valid)
      (hg : Gap gap (l.chars ++ after)) (hg' : Gap gap' (l.chars ++ after'))
      (hlong : l.Longest after) (hlong' : l.Longest after') (h : Respaced after after') :
      Respaced (gap ++ l.chars ++ after) (gap' ++ l.chars ++ after')
  | invalid {gap gap' after after' : List Char} {c : Char}
      (hc : ∀ l : Lexeme, l.Valid → l.chars.head? ≠ some c) (hspace : isSpace c = false)
      (hmark : c ≠ '#') (hg : Gap gap ([c] ++ after)) (hg' : Gap gap' ([c] ++ after'))
      (h : Respaced after after') : Respaced (gap ++ [c] ++ after) (gap' ++ [c] ++ after')

end Scanner

/-- The same state before another feed. -/
def Compiler.State.reading (s : State) (f : Feed) : State := { s with feed := f }

namespace Compiler.Likeness

open Scanner

/-- Tokens may stand at other places, and so may characters that are no tokens; the output is the same. -/
def layout : Likeness :=
  sameOutput Token.Alike (fun e f => e.char = f.char) (·.kind) (·.attr) (·.lexeme)

instance : DecidableRel layout.Item := fun i j =>
  match i, j with
  | .ok t, .ok u => decidable_of_iff (t.Alike u) ⟨fun h => .ok h, fun h => by cases h; assumption⟩
  | .error e, .error f => decidable_of_iff (e.char = f.char)
      ⟨fun h => .error h, fun h => by cases h; assumption⟩
  | .ok _, .error _ => isFalse fun h => by cases h
  | .error _, .ok _ => isFalse fun h => by cases h

theorem layout_refused {l m : Listing} (h : layout.listing l m) : l.refused = m.refused :=
  congrArg Listing.refused h

theorem text_of_alike {t u : Token} (h : t.Alike u) : t.text = u.text := by
  unfold Token.text
  rw [h.kind, h.attr, h.lexeme]

/-- Errors about other places have the same text. -/
theorem message_of_alike {e f : CompileError} (h : layout.Error e f) : e.message = f.message := by
  cases h with
  | @lexical e f h =>
    have hchar : e.char = f.char := h
    rw [CompileError.message, CompileError.message, LexError.message, LexError.message, hchar]
  | unexpected h =>
    rw [CompileError.message, CompileError.message, text_of_alike h]
  | extraTokens h =>
    rw [CompileError.message, CompileError.message, text_of_alike h]
  | semantic h => rfl
  | internal => rfl
  | outputFull => rfl

theorem messages_of_alike {a b : Option CompileError} (h : Option.Rel layout.Error a b) :
    a.map CompileError.message = b.map CompileError.message := by
  cases h with
  | none => rfl
  | some h => exact congrArg some (message_of_alike h)

theorem outcome_of_alike {a b : Option CompileError} (h : Option.Rel layout.Error a b) :
    Outcome.ofError a = Outcome.ofError b := by
  cases h with
  | none => rfl
  | some h => cases h <;> rfl

theorem alike_refl (t : Token) : t.Alike t := ⟨rfl, rfl, rfl⟩

theorem event_refl (e : Compiler.Event) : layout.Event e e := by
  cases e with
  | enter p t => exact .enter (alike_refl t)
  | install s => exact .install
  | patch type n => exact .patch

/-- The same state before two feeds. -/
theorem state_of_feeds (s : Compiler.State) {f g : OnePass.Feed} (h : layout.Feed f g) :
    layout.State s.scratch.length (s.reading f) (s.reading g) where
  feed := h
  delivered := rfl
  lookahead := alike_refl _
  symbols := rfl
  main := ⟨rfl, rfl, rfl, rfl⟩
  scratch := rfl
  depth := rfl
  program := rfl
  scope := rfl
  events := List.forall₂_same.2 fun e _ => event_refl e

theorem Generator.eq_of_layout {g h : Compiler.Generator} (hgh : layout.Generator g h) : g = h := by
  obtain ⟨listing, pool, operands, live⟩ := g
  obtain ⟨hlisting, hpool, hoperands, hlive⟩ := hgh
  simp only at hpool hoperands hlive
  rw [hpool, hoperands, hlive, show listing = h.listing from hlisting]

/-- Respaced texts have tilings with items that are alike. -/
theorem exists_tilings {a b : List Char} (h : Respaced a b) (p q : List Char) :
    ∃ is js, Tiled p a is ∧ Tiled q b js ∧ List.Forall₂ layout.Item is js := by
  induction h generalizing p q with
  | done hg hg' => exact ⟨[], [], .done hg, .done hg', .nil⟩
  | @token gap gap' after after' l hl hg hg' hlong hlong' _ ih =>
    obtain ⟨is, js, his, hjs, hitems⟩ := ih (p ++ gap ++ l.chars) (q ++ gap' ++ l.chars)
    exact ⟨_, _, .item hg (.token hl hlong) his, .item hg' (.token hl hlong') hjs,
      .cons (.ok ⟨rfl, rfl, rfl⟩) hitems⟩
  | @invalid gap gap' after after' c hc hspace hmark hg hg' _ ih =>
    obtain ⟨is, js, his, hjs, hitems⟩ := ih (p ++ gap ++ [c]) (q ++ gap' ++ [c])
    exact ⟨_, _, .item hg (.invalid hc hspace hmark) his, .item hg' (.invalid hc hspace hmark) hjs,
      .cons (.error rfl) hitems⟩

/-- Items that are alike have the same characters. -/
theorem respaced_of_tiled {p a : List Char} {is : List OnePass.Item} (ha : Tiled p a is) {q b : List Char}
    {js : List OnePass.Item} (hb : Tiled q b js) (h : List.Forall₂ layout.Item is js) :
    Respaced a b := by
  induction ha generalizing q b js with
  | done hg =>
    cases h
    cases hb with
    | done hg' => exact .done hg hg'
  | item hg hi _ ih =>
    cases h with
    | cons hij hrest =>
      cases hb with
      | item hg' hj ht' =>
        have hafter := ih ht' hrest
        cases hij with
        | ok htu =>
          cases hi with
          | @token l hl hlong =>
            cases hj with
            | @token l' _ hlong' =>
              obtain rfl : l = l' := by
                have hchars := congrArg Text.chars htu.lexeme
                simp only [Text.chars_ofChars] at hchars
                obtain ⟨k, a, cs⟩ := l
                obtain ⟨k', a', cs'⟩ := l'
                exact Lexeme.mk.injEq .. ▸ ⟨htu.kind, htu.attr, hchars⟩
              exact .token hl hg hg' hlong hlong' hafter
        | error hef =>
          cases hi with
          | invalid hc hspace hmark =>
            cases hj with
            | invalid _ _ _ =>
              obtain rfl := hef
              exact .invalid hc hspace hmark hg hg' hafter

/-- Texts are respaced exactly if the scanner finds items in them that are alike. -/
theorem respaced_iff {a b : Text} :
    Respaced a.chars b.chars ↔
      List.Forall₂ layout.Item (Feed.ofSource a).items (Feed.ofSource b).items := by
  constructor
  · intro h
    obtain ⟨is, js, his, hjs, hitems⟩ := exists_tilings h [] []
    have ha : (Feed.ofSource a).items = is := Cursor.items_of_tiled his
    have hb : (Feed.ofSource b).items = js := Cursor.items_of_tiled hjs
    rw [ha, hb]
    exact hitems
  · exact respaced_of_tiled ((Cursor.ofText a).items_tiled [] rfl).1
      ((Cursor.ofText b).items_tiled [] rfl).1

theorem feed_of_respaced {a b : Text} (h : Respaced a.chars b.chars) :
    layout.Feed (Feed.ofSource a) (Feed.ofSource b) := by
  have hend : ∀ t : Text, (Feed.ofSource t).final.Alike { kind := .eof } := by
    intro t
    have hlast := ((Cursor.ofText t).items_tiled [] rfl).2.2
    have hfinal : (Feed.ofSource t).final = (Cursor.ofText t).items.2 := rfl
    rw [hfinal, hlast]
    exact ⟨rfl, rfl, rfl⟩
  have ha := hend a
  have hb := hend b
  exact ⟨respaced_iff.1 h, ha.kind.trans hb.kind.symm, ha.attr.trans hb.attr.symm,
    ha.lexeme.trans hb.lexeme.symm⟩

end Compiler.Likeness

open Compiler.Likeness Scanner

/-- Calls from equal states on the same tokens at other places make the same translation: the same code, table,
registers and spill words from as many tokens, and errors that differ at most in the place of the token they
quote. So sources that differ only in blanks and comments between their tokens compile to the same outcome and the
same assembly. -/
theorem parse_ignores_layout (o : Options) (s : State) {f g : Feed} (h : layout.Feed f g) :
    (((s.reading f).parse o).2.main = ((s.reading g).parse o).2.main ∧
      ((s.reading f).parse o).2.symbols = ((s.reading g).parse o).2.symbols ∧
      ((s.reading f).parse o).2.delivered = ((s.reading g).parse o).2.delivered ∧
      Option.Rel layout.Error ((s.reading f).parse o).1 ((s.reading g).parse o).1 ∧
      ((s.reading f).parse o).1.map CompileError.message =
        ((s.reading g).parse o).1.map CompileError.message) ∧
    ∀ a b : Text, Respaced a.chars b.chars →
      (compile o a).outcome = (compile o b).outcome ∧
      (compile o a).assembly = (compile o b).assembly ∧
      (compile o a).symbols = (compile o b).symbols ∧
      Option.Rel layout.Error (compile o a).error (compile o b).error := by
  constructor
  · obtain ⟨herror, hstate⟩ := parse_alike layout_refused o (state_of_feeds s h)
    exact ⟨Generator.eq_of_layout hstate.main, hstate.symbols, hstate.delivered, herror,
      messages_of_alike herror⟩
  · intro a b hab
    obtain ⟨herror, hsymbols, l, m, hlisting, ha, hb⟩ :=
      compile_alike layout_refused o (feed_of_respaced hab) rfl (alike_refl _)
    obtain rfl : l = m := hlisting
    refine ⟨outcome_of_alike herror, ?_, hsymbols, herror⟩
    rw [Compilation.assembly, Compilation.assembly, ha, hb]

/-- A source with an undeclared variable, on one line and without a blank that is not needed. -/
def tightSource : Text := "program p;a:int;begin a:=1;print b;end;"

/-- The same source with comments, tabs and line ends. -/
def looseSource : Text :=
  "# first\nprogram p ; # a comment ;\n\ta : int;\r\nbegin\n\ta := 1;\n\tprint # b\n\t  b;\nend ; # last"

theorem parse_ignores_layout_tight_loose :
    layout.Feed (Feed.ofSource tightSource) (Feed.ofSource looseSource) ∧
      Respaced tightSource.chars looseSource.chars ∧
      (compile {} tightSource).outcome = .fatal ∧
      (compile {} tightSource).error ≠ (compile {} looseSource).error ∧
      Option.Rel layout.Error (compile {} tightSource).error (compile {} looseSource).error ∧
      (compile {} tightSource).assembly = (compile {} looseSource).assembly := by
  have hrespaced : Respaced tightSource.chars looseSource.chars := respaced_iff.2 (by decide +kernel)
  have hfeed := feed_of_respaced hrespaced
  obtain ⟨-, hassembly, -, herror⟩ :=
    (parse_ignores_layout {} (State.init (Feed.ofSource tightSource)) hfeed).2 _ _ hrespaced
  exact ⟨hfeed, hrespaced, by decide +kernel, by decide +kernel, herror, hassembly⟩

end OnePass
