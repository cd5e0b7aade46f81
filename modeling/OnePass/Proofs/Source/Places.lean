import Mathlib.Data.List.Forall2
import OnePass.Proofs.Source.Unambiguous

namespace OnePass

/-- The same token, maybe at another place. -/
structure Token.Alike (t u : Token) : Prop where
  kind : t.kind = u.kind
  attr : t.attr = u.attr
  lexeme : t.lexeme = u.lexeme

instance : DecidableRel Token.Alike := fun t u =>
  decidable_of_iff (t.kind = u.kind ∧ t.attr = u.attr ∧ t.lexeme = u.lexeme)
    ⟨fun h => ⟨h.1, h.2.1, h.2.2⟩, fun h => ⟨h.kind, h.attr, h.lexeme⟩⟩

theorem Token.Alike.is {t u : Token} (h : t.Alike u) {k : Kind} {a : Attr} (ht : t.is k a = true) :
    u.is k a = true := by
  rw [Token.is, ← h.kind, ← h.attr]
  exact ht

namespace Source

/-- Pointwise the same tokens. -/
abbrev Relaid (ts us : List Token) : Prop := List.Forall₂ Token.Alike ts us

theorem Relaid.split {ts us vs : List Token} (h : Relaid (ts ++ us) vs) :
    ∃ ts' us', vs = ts' ++ us' ∧ Relaid ts ts' ∧ Relaid us us' := by
  induction ts generalizing vs with
  | nil => exact ⟨[], vs, rfl, .nil, h⟩
  | cons t ts ih =>
    cases h with
    | cons ht hs =>
      obtain ⟨ts', us', rfl, hts, hus⟩ := ih hs
      exact ⟨_ :: ts', us', rfl, .cons ht hts, hus⟩

theorem Relaid.uncons {t : Token} {ts vs : List Token} (h : Relaid (t :: ts) vs) :
    ∃ t' vs', vs = t' :: vs' ∧ t.Alike t' ∧ Relaid ts vs' := by
  cases h with
  | cons ht hs => exact ⟨_, _, rfl, ht, hs⟩

theorem Relaid.single {t : Token} {vs : List Token} (h : Relaid [t] vs) :
    ∃ t', vs = [t'] ∧ t.Alike t' := by
  cases h with
  | cons ht hs =>
    cases hs
    exact ⟨_, rfl, ht⟩

variable {ts us : List Token}

theorem ExprForm.Derives.relaid {form : ExprForm} {e : Expr} (h : form.Derives ts e)
    (hu : Relaid ts us) : form.Derives us e := by
  induction h generalizing us with
  | identifier ht =>
    obtain ⟨t', rfl, ha⟩ := hu.single
    rw [ha.lexeme]
    exact .identifier (ha.kind ▸ ht)
  | number ht =>
    obtain ⟨t', rfl, ha⟩ := hu.single
    rw [ha.lexeme]
    exact .number (ha.kind ▸ ht)
  | paren hl _ hr ih =>
    obtain ⟨l', u', rfl, al, hu⟩ := hu.uncons
    obtain ⟨ts', rs', rfl, hts, hrs⟩ := hu.split
    obtain ⟨r', rfl, ar⟩ := hrs.single
    exact .paren (al.is hl) (ih hts) (ar.is hr)
  | signed s ht _ ih =>
    obtain ⟨t', u', rfl, same, hu⟩ := hu.uncons
    exact .signed s (same.is ht) (ih hu)
  | term _ _ iha ihe =>
    obtain ⟨ts', us', rfl, hts, hus⟩ := hu.split
    exact .term (iha hts) (ihe hus)
  | termDone =>
    cases hu
    exact .termDone
  | termMore op hk ht _ _ ihb ihe =>
    obtain ⟨t', u', rfl, same, hu⟩ := hu.uncons
    obtain ⟨ts', us', rfl, hts, hus⟩ := hu.split
    exact .termMore op hk (same.is ht) (ihb hts) (ihe hus)
  | simple _ _ iha ihe =>
    obtain ⟨ts', us', rfl, hts, hus⟩ := hu.split
    exact .simple (iha hts) (ihe hus)
  | simpleDone =>
    cases hu
    exact .simpleDone
  | simpleMore op hk ht _ _ ihb ihe =>
    obtain ⟨t', u', rfl, same, hu⟩ := hu.uncons
    obtain ⟨ts', us', rfl, hts, hus⟩ := hu.split
    exact .simpleMore op hk (same.is ht) (ihb hts) (ihe hus)
  | plain _ ih => exact .plain (ih hu)
  | relation op _ hk ht _ iha ihb =>
    obtain ⟨ts', us', rfl, hts, hus⟩ := hu.split
    obtain ⟨t', us', rfl, same, hus⟩ := hus.uncons
    exact .relation op (iha hts) hk (same.is ht) (ihb hus)

theorem ActualsDerive.relaid {es : List Expr} (h : ActualsDerive ts es) (hu : Relaid ts us) :
    ActualsDerive us es := by
  induction h generalizing us with
  | last he => exact .last (he.relaid hu)
  | more he ht _ ih =>
    obtain ⟨ts', us', rfl, hts, hus⟩ := hu.split
    obtain ⟨t', us', rfl, same, hus⟩ := hus.uncons
    exact .more (he.relaid hts) (same.is ht) (ih hus)

theorem ExprListDerives.relaid {es : List Expr} (h : ExprListDerives ts es) (hu : Relaid ts us) :
    ExprListDerives us es := by
  cases h with
  | none =>
    cases hu
    exact .none
  | some h => exact .some (h.relaid hu)

theorem StmtForm.Derives.relaid {form : StmtForm} {a : Stmt} (h : form.Derives ts a)
    (hu : Relaid ts us) : form.Derives us a := by
  induction h generalizing us with
  | block hb _ he ih =>
    obtain ⟨b', u', rfl, ab, hu⟩ := hu.uncons
    obtain ⟨ts', es', rfl, hts, hes⟩ := hu.split
    obtain ⟨e', rfl, ae⟩ := hes.single
    exact .block (ab.is hb) (ih hts) (ae.is he)
  | first _ ht _ iha ihb =>
    obtain ⟨ts', us', rfl, hts, hus⟩ := hu.split
    obtain ⟨t', us', rfl, same, hus⟩ := hus.uncons
    exact .first (iha hts) (same.is ht) (ihb hus)
  | lone ht _ ih =>
    obtain ⟨t', u', rfl, same, hu⟩ := hu.uncons
    exact .lone (same.is ht) (ih hu)
  | done =>
    cases hu
    exact .done
  | more _ ht _ iha ihb =>
    obtain ⟨ts', us', rfl, hts, hus⟩ := hu.split
    obtain ⟨t', us', rfl, same, hus⟩ := hus.uncons
    exact .more (iha hts) (same.is ht) (ihb hus)
  | assign ht hw he =>
    obtain ⟨t', u', rfl, same, hu⟩ := hu.uncons
    obtain ⟨w', u', rfl, aw, hu⟩ := hu.uncons
    rw [same.lexeme]
    exact .assign (same.kind ▸ ht) (aw.is hw) (he.relaid hu)
  | call ht hl hs hr =>
    obtain ⟨t', u', rfl, same, hu⟩ := hu.uncons
    obtain ⟨l', u', rfl, al, hu⟩ := hu.uncons
    obtain ⟨ts', rs', rfl, hts, hrs⟩ := hu.split
    obtain ⟨r', rfl, ar⟩ := hrs.single
    rw [same.lexeme]
    exact .call (same.kind ▸ ht) (al.is hl) (hs.relaid hts) (ar.is hr)
  | ifThen hi hc ht _ ih =>
    obtain ⟨i', u', rfl, ai, hu⟩ := hu.uncons
    obtain ⟨cs', us', rfl, hcs, hus⟩ := hu.split
    obtain ⟨t', us', rfl, same, hus⟩ := hus.uncons
    exact .ifThen (ai.is hi) (hc.relaid hcs) (same.is ht) (ih hus)
  | ifElse hi hc ht _ hw _ iha ihb =>
    obtain ⟨i', u', rfl, ai, hu⟩ := hu.uncons
    obtain ⟨cs', us', rfl, hcs, hus⟩ := hu.split
    obtain ⟨t', us', rfl, same, hus⟩ := hus.uncons
    obtain ⟨as', vs', rfl, has, hvs⟩ := hus.split
    obtain ⟨w', vs', rfl, aw, hvs⟩ := hvs.uncons
    exact .ifElse (ai.is hi) (hc.relaid hcs) (same.is ht) (iha has) (aw.is hw) (ihb hvs)
  | loop hw hc hl _ ih =>
    obtain ⟨w', u', rfl, aw, hu⟩ := hu.uncons
    obtain ⟨cs', us', rfl, hcs, hus⟩ := hu.split
    obtain ⟨l', us', rfl, al, hus⟩ := hus.uncons
    exact .loop (aw.is hw) (hc.relaid hcs) (al.is hl) (ih hus)
  | print hp he =>
    obtain ⟨p', u', rfl, ap, hu⟩ := hu.uncons
    exact .print (ap.is hp) (he.relaid hu)

theorem NamesDerive.relaid {ns : List Text} (h : NamesDerive ts ns) (hu : Relaid ts us) :
    NamesDerive us ns := by
  induction h generalizing us with
  | last ht =>
    obtain ⟨t', rfl, ha⟩ := hu.single
    rw [ha.lexeme]
    exact .last (ha.kind ▸ ht)
  | more ht hc _ ih =>
    obtain ⟨t', u', rfl, same, hu⟩ := hu.uncons
    obtain ⟨c', u', rfl, ac, hu⟩ := hu.uncons
    rw [same.lexeme]
    exact .more (same.kind ▸ ht) (ac.is hc) (ih hu)

theorem TypeDerives.alike {t u : Token} {type : ExprType} (h : TypeDerives t type) (hu : t.Alike u) :
    TypeDerives u type := by
  cases h with
  | int h => exact .int (hu.is h)
  | bool h => exact .bool (hu.is h)

theorem GroupDerives.relaid {g : Group} (h : GroupDerives ts g) (hu : Relaid ts us) :
    GroupDerives us g := by
  cases h with
  | mk hs ht hw =>
    obtain ⟨ns', us', rfl, hns, hus⟩ := hu.split
    obtain ⟨t', us', rfl, same, hus⟩ := hus.uncons
    obtain ⟨w', rfl, aw⟩ := hus.single
    exact .mk (hs.relaid hns) (same.is ht) (hw.alike aw)

theorem VarsDerive.relaid {gs : List Group} (h : VarsDerive ts gs) (hu : Relaid ts us) :
    VarsDerive us gs := by
  induction h generalizing us with
  | none =>
    cases hu
    exact .none
  | more hg ht _ ih =>
    obtain ⟨ts', us', rfl, hts, hus⟩ := hu.split
    obtain ⟨t', us', rfl, same, hus⟩ := hus.uncons
    exact .more (hg.relaid hts) (same.is ht) (ih hus)

theorem FormalsDerive.relaid {gs : List Group} (h : FormalsDerive ts gs) (hu : Relaid ts us) :
    FormalsDerive us gs := by
  induction h generalizing us with
  | last hg => exact .last (hg.relaid hu)
  | more hg ht _ ih =>
    obtain ⟨ts', us', rfl, hts, hus⟩ := hu.split
    obtain ⟨t', us', rfl, same, hus⟩ := hus.uncons
    exact .more (hg.relaid hts) (same.is ht) (ih hus)

theorem ArgsDerive.relaid {gs : List Group} (h : ArgsDerive ts gs) (hu : Relaid ts us) :
    ArgsDerive us gs := by
  cases h with
  | none =>
    cases hu
    exact .none
  | some h => exact .some (h.relaid hu)

theorem ProcedureDerives.relaid {p : Procedure} (h : ProcedureDerives ts p) (hu : Relaid ts us) :
    ProcedureDerives us p := by
  cases h with
  | mk hp hn hl ha hr hv hb =>
    obtain ⟨p', u', rfl, ap, hu⟩ := hu.uncons
    obtain ⟨n', u', rfl, an, hu⟩ := hu.uncons
    obtain ⟨l', u', rfl, al, hu⟩ := hu.uncons
    obtain ⟨as', us', rfl, has, hus⟩ := hu.split
    obtain ⟨r', us', rfl, ar, hus⟩ := hus.uncons
    obtain ⟨vs', bs', rfl, hvs, hbs⟩ := hus.split
    rw [an.lexeme]
    exact .mk (ap.is hp) (an.kind ▸ hn) (al.is hl) (ha.relaid has) (ar.is hr) (hv.relaid hvs)
      (hb.relaid hbs)

theorem ProceduresDerive.relaid {ps : List Procedure} (h : ProceduresDerive ts ps)
    (hu : Relaid ts us) : ProceduresDerive us ps := by
  induction h generalizing us with
  | none =>
    cases hu
    exact .none
  | more hp ht _ ih =>
    obtain ⟨ts', us', rfl, hts, hus⟩ := hu.split
    obtain ⟨t', us', rfl, same, hus⟩ := hus.uncons
    exact .more (hp.relaid hts) (same.is ht) (ih hus)

theorem ProgramDerives.relaid {p : Program} (h : ProgramDerives ts p) (hu : Relaid ts us) :
    ProgramDerives us p := by
  cases h with
  | mk hp hn hs hv hps hb he =>
    obtain ⟨p', u', rfl, ap, hu⟩ := hu.uncons
    obtain ⟨n', u', rfl, an, hu⟩ := hu.uncons
    obtain ⟨s', u', rfl, same, hu⟩ := hu.uncons
    obtain ⟨vs', us', rfl, hvs, hus⟩ := hu.split
    obtain ⟨ps', us', rfl, hpp, hus⟩ := hus.split
    obtain ⟨bs', es', rfl, hbs, hes⟩ := hus.split
    obtain ⟨e', rfl, ae⟩ := hes.single
    rw [an.lexeme]
    exact .mk (ap.is hp) (an.kind ▸ hn) (same.is hs) (hv.relaid hvs) (hps.relaid hpp)
      (hb.relaid hbs) (ae.is he)

end Source

end OnePass
