import MooScript.Proofs.Syntax.Words

/-! Token lists that tell what a tree tells, each in its own spelling. -/
namespace MooScript

namespace Word

variable {t : Token}

/-- The token is of the word's kind, and has its text where the word has one. -/
def Tells (w : Word) (t : Token) : Prop := t.kind = w.kind ∧ ∀ text ∈ w.text?, t.text = text

theorem symbol_tells {s : Symbol} (h : t.kind = .symbol s) : (symbol s).Tells t :=
  ⟨h, fun text htext => absurd htext (Option.not_mem_none text)⟩

theorem keyword_tells {k : Keyword} (h : t.kind = .keyword k) : (keyword k).Tells t :=
  ⟨h, fun text htext => absurd htext (Option.not_mem_none text)⟩

theorem own_tells {k : Kind} (h : t.kind = k) : (own k t).Tells t :=
  ⟨h, fun _ htext => Option.some.inj htext⟩

theorem name_tells (h : t.kind = .identifier) : (name t.text).Tells t :=
  ⟨h, fun _ htext => Option.some.inj htext⟩

end Word

/-- The tokens of `ts` up to `rest` are those of the words, apart from semicolons, a comma before a
closing symbol, the number of an object and parentheses around a range that is looped over. -/
inductive Respelled : List Token → List Word → List Token → Prop
  | nil {ts} : Respelled ts [] ts
  | word {t ts rest} {w : Word} {ws} (hw : w.Tells t) (h : Respelled ts ws rest) :
    Respelled (t :: ts) (w :: ws) rest
  | semicolon {t ts rest ws} (ht : t.kind = .symbol .semicolon) (h : Respelled ts ws rest) :
    Respelled (t :: ts) ws rest
  | noSemicolon {ts rest ws} (h : Respelled ts ws rest) :
    Respelled ts (.symbol .semicolon :: ws) rest
  | comma {t closing ts rest ws} {s : Symbol} (ht : t.kind = .symbol .comma)
    (hs : s = .rightBrace ∨ s = .rightParen) (hclosing : closing.kind = .symbol s)
    (h : Respelled ts ws rest) : Respelled (t :: closing :: ts) (.symbol s :: ws) rest
  | object {t number ts rest ws} {id : ObjectId} (ht : t.kind = .symbol .hash)
    (hnumber : number.kind = .integer) (hid : Syntax.objectId? false number = some id)
    (h : Respelled ts ws rest) :
    Respelled (t :: number :: ts) (.own (.symbol .hash) t :: (Word.ofObjectId id ++ ws)) rest
  | negativeObject {t minus number ts rest ws} {id : ObjectId} (ht : t.kind = .symbol .hash)
    (hminus : minus.kind = .symbol .minus) (hnumber : number.kind = .integer)
    (hid : Syntax.objectId? true number = some id) (h : Respelled ts ws rest) :
    Respelled (t :: minus :: number :: ts)
      (.own (.symbol .hash) t :: (Word.ofObjectId id ++ ws)) rest
  | iterable {t opening closing own ts mid rest ws} {first last : Expr}
    (ht : t.kind = .keyword .in_) (hopening : opening.kind = .symbol .leftParen)
    (hclosing : closing.kind = .symbol .rightParen)
    (hrange : Respelled ts (Expr.range first last own).words (closing :: mid))
    (h : Respelled mid ws rest) :
    Respelled (t :: opening :: ts)
      (.keyword .in_ :: ((Expr.range first last own).words ++ ws)) rest

variable {t : Token} {ts mid rest : List Token} {ws ws' : List Word}

namespace Respelled

theorem append (h : Respelled ts ws mid) (h' : Respelled mid ws' rest) :
    Respelled ts (ws ++ ws') rest := by
  induction h with
  | nil => exact h'
  | word hw _ ih => exact .word hw (ih h')
  | semicolon ht _ ih => exact .semicolon ht (ih h')
  | noSemicolon _ ih => exact .noSemicolon (ih h')
  | comma ht hs hclosing _ ih => exact .comma ht hs hclosing (ih h')
  | object ht hnumber hid _ ih =>
    rw [List.cons_append, List.append_assoc]
    exact .object ht hnumber hid (ih h')
  | negativeObject ht hminus hnumber hid _ ih =>
    rw [List.cons_append, List.append_assoc]
    exact .negativeObject ht hminus hnumber hid (ih h')
  | iterable ht hopening hclosing hrange _ _ ih =>
    rw [List.cons_append, List.append_assoc]
    exact .iterable ht hopening hclosing hrange (ih h')

/-- What is left of the tokens was there before. -/
theorem suffix (h : Respelled ts ws rest) : rest <:+ ts := by
  induction h with
  | nil => exact List.suffix_refl _
  | word _ _ ih | semicolon _ _ ih => exact ih.trans (List.suffix_cons _ _)
  | noSemicolon _ ih => exact ih
  | comma _ _ _ _ ih | object _ _ _ _ ih =>
    exact ih.trans ((List.suffix_cons _ _).trans (List.suffix_cons _ _))
  | negativeObject _ _ _ _ _ ih =>
    exact ih.trans
      ((List.suffix_cons _ _).trans ((List.suffix_cons _ _).trans (List.suffix_cons _ _)))
  | iterable _ _ _ _ _ ihrange ih =>
    have hmid := ih.trans ((List.suffix_cons _ _).trans ihrange)
    exact hmid.trans ((List.suffix_cons _ _).trans (List.suffix_cons _ _))

theorem forall_mem {P : Token → Prop} (h : Respelled ts ws rest) (hts : ∀ t ∈ ts, P t) :
    ∀ t ∈ rest, P t :=
  fun t ht => hts t (h.suffix.subset ht)

theorem symbol {s : Symbol} (ht : t.kind = .symbol s) (h : Respelled ts ws rest) :
    Respelled (t :: ts) (.symbol s :: ws) rest :=
  .word (Word.symbol_tells ht) h

theorem keyword {k : Keyword} (ht : t.kind = .keyword k) (h : Respelled ts ws rest) :
    Respelled (t :: ts) (.keyword k :: ws) rest :=
  .word (Word.keyword_tells ht) h

theorem own {k : Kind} (ht : t.kind = k) (h : Respelled ts ws rest) :
    Respelled (t :: ts) (.own k t :: ws) rest :=
  .word (Word.own_tells ht) h

theorem name (ht : t.kind = .identifier) (h : Respelled ts ws rest) :
    Respelled (t :: ts) (.name t.text :: ws) rest :=
  .word (Word.name_tells ht) h

end Respelled
end MooScript
