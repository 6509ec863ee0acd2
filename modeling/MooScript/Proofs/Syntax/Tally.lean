import MooScript.Proofs.Evaluation.Invariant
import MooScript.Proofs.Syntax.Soundness.Program

/-! The floats of a tree are those of its tokens, one for one and in their order. -/
namespace MooScript

/-- The double that a value is. -/
def Value.float? : Value → Option Float
  | .float x => some x
  | _ => none

/-- The double that a token denotes. -/
def Token.float? (t : Token) : Option Float :=
  if t.kind = .float then Decimal.readFloat? t.text else none

/-- The double that a word tells. -/
def Word.float? (w : Word) : Option Float :=
  if w.kind = .float then w.text?.bind Decimal.readFloat? else none

theorem Word.Tells.float?_eq {w : Word} {t : Token} (h : w.Tells t)
    (htext : w.kind = .float → w.text?.isSome = true) : t.float? = w.float? := by
  obtain ⟨hkind, htold⟩ := h
  rw [Token.float?, Word.float?, hkind]
  split
  next hfloat =>
    obtain ⟨text, hsome⟩ := Option.isSome_iff_exists.mp (htext hfloat)
    rw [hsome, Option.bind_some, htold text hsome]
  next => rfl

theorem Token.float?_of_kind {t : Token} (h : t.kind ≠ .float) : t.float? = none := if_neg h

theorem Word.float?_of_kind {w : Word} (h : w.kind ≠ .float) : w.float? = none := if_neg h

theorem Word.float?_symbol (s : Symbol) : (Word.symbol s).float? = none := rfl

theorem Word.float?_keyword (k : Keyword) : (Word.keyword k).float? = none := rfl

/-- The words tell the floats among the values, and no others. -/
structure Tally (ws : List Word) (values : List Value) : Prop where
  floats : ws.filterMap Word.float? = values.filterMap Value.float?
  texts : ∀ w ∈ ws, w.kind = .float → w.text?.isSome = true

namespace Tally

variable {w : Word} {ws ws' : List Word} {values values' : List Value}

theorem nil : Tally [] [] := ⟨rfl, List.forall_mem_nil _⟩

theorem cons (hw : (w.kind == .float) = false) (h : Tally ws values) : Tally (w :: ws) values where
  floats := by
    rw [List.filterMap_cons_none (Word.float?_of_kind (beq_eq_false_iff_ne.mp hw)), h.floats]
  texts := List.forall_mem_cons.mpr
    ⟨fun hfloat => absurd hfloat (beq_eq_false_iff_ne.mp hw), h.texts⟩

theorem append (h : Tally ws values) (h' : Tally ws' values') :
    Tally (ws ++ ws') (values ++ values') where
  floats := by rw [List.filterMap_append, List.filterMap_append, h.floats, h'.floats]
  texts := List.forall_mem_append.mpr ⟨h.texts, h'.texts⟩

theorem lone (hw : (w.kind == .float) = false) : Tally [w] [] := nil.cons hw

/-- What follows tells no values. -/
theorem followed (h : Tally ws values) (h' : Tally ws' []) : Tally (ws ++ ws') values := by
  have happend := h.append h'
  rwa [List.append_nil] at happend

theorem closed {s : Symbol} (h : Tally ws values) : Tally (ws ++ [.symbol s]) values :=
  h.followed (lone rfl)

theorem ended {k : Keyword} (h : Tally ws values) : Tally (ws ++ [.keyword k]) values :=
  h.followed (lone rfl)

/-- A value that is no float is told by other words. -/
theorem other {value : Value} (hvalue : value.float? = none) (h : Tally ws values) :
    Tally ws (value :: values) where
  floats := by rw [List.filterMap_cons_none hvalue, h.floats]
  texts := h.texts

end Tally

open Tally

theorem Word.tally_ofObjectId (id : ObjectId) : Tally (Word.ofObjectId id) [] := by
  rw [ofObjectId]
  split
  · exact cons rfl (lone rfl)
  · exact lone rfl

namespace Expr

theorem float?_own {t : Token} {value : Value} (h : Denotes t value) :
    (Word.own t.kind t).float? = value.float? := by
  rcases h with h | ⟨hkind, rfl⟩ | ⟨hkind, rfl⟩ | ⟨hkind, id, rfl⟩
  · unfold Syntax.literalValue? at h
    split at h
    next hkind =>
      obtain ⟨n, -, rfl⟩ := Option.map_eq_some_iff.mp h
      rw [hkind]
      rfl
    next hkind =>
      obtain ⟨x, hx, rfl⟩ := Option.map_eq_some_iff.mp h
      rw [hkind]
      exact hx
    next hkind =>
      cases h
      rw [hkind]
      rfl
    next => cases h
  all_goals
    rw [hkind]
    rfl

theorem tally_literal {t : Token} {value : Value} (h : Denotes t value) :
    Tally [.own t.kind t] [value] where
  floats := by rw [List.filterMap_cons, List.filterMap_cons, float?_own h]; rfl
  texts := List.forall_mem_singleton.mpr fun _ => rfl

theorem literals_of_isSystem {e : Expr} (h : e.isSystem = true) : e.literals = [.object 0] := by
  cases e with
  | literal value t =>
    cases value with
    | object id =>
      rw [isSystem, Bool.and_eq_true, beq_iff_eq] at h
      rw [literals, h.1]
    | _ => cases h
  | _ => cases h

mutual

theorem tally_words (e : Expr) (he : e.Conformant) : Tally e.words e.literals := by
  cases e with
  | binary op left right t =>
    have ⟨hleft, hright⟩ : left.Conformant ∧ right.Conformant := by
      cases op with
      | assign => exact he.2
      | _ => exact he.2.2
    exact (left.tally_words hleft).append (cons rfl (right.tally_words hright))
  | unary op operand t => exact cons rfl (operand.tally_words he.2)
  | grouping inner t => exact cons rfl (inner.tally_words he).closed
  | literal value t =>
    cases value with
    | object id => exact cons rfl ((Word.tally_ofObjectId id).other rfl)
    | _ => exact tally_literal he
  | identifier name t => exact lone rfl
  | list elements t => exact cons rfl (tally_wordsAll elements he).closed
  | range first last t =>
    exact cons rfl
      ((first.tally_words he.1).append (cons rfl (last.tally_words he.2).closed))
  | property object name t =>
    rw [words]
    split
    next hsystem =>
      rw [literals, literals_of_isSystem hsystem]
      exact other rfl (cons rfl (lone rfl))
    next =>
      exact (object.tally_words (he.resolve_left ‹_›).2).followed (cons rfl (lone rfl))
  | call callee args t =>
    exact (callee.tally_words he.2.1).append (cons rfl (tally_wordsAll args he.2.2).closed)
  | verbCall object verb args t =>
    have hargs : Tally (argumentWords args) (literalsAll args) :=
      cons rfl (tally_wordsAll args he.2).closed
    rw [words]
    split
    next hsystem =>
      rw [literals, literals_of_isSystem hsystem]
      exact other rfl (cons rfl (cons rfl hargs))
    next =>
      exact (object.tally_words (he.1.resolve_left ‹_›).2).append (cons rfl (cons rfl hargs))
  | recover body filters alternative t =>
    exact cons rfl ((body.tally_words he.1).append (cons rfl
      ((tally_filterWords filters he.2.1).append
        (cons rfl (alternative.tally_words he.2.2).closed))))

theorem tally_wordsAll (es : List Expr) (hes : AllConformant es) :
    Tally (wordsAll es) (literalsAll es) := by
  cases es with
  | nil => exact nil
  | cons e es => exact (e.tally_words hes.1).append (tally_wordsMore es hes.2)

theorem tally_wordsMore (es : List Expr) (hes : AllConformant es) :
    Tally (wordsMore es) (literalsAll es) := by
  cases es with
  | nil => exact nil
  | cons e es => exact cons rfl ((e.tally_words hes.1).append (tally_wordsMore es hes.2))

theorem tally_filterWords (es : List Expr) (hes : AllConformant es) :
    Tally (filterWords es) (literalsAll es) := by
  cases es with
  | nil => exact lone rfl
  | cons e es => exact (e.tally_words hes.1).append (tally_wordsMore es hes.2)

end

theorem tally_conditionWords (e : Expr) (he : e.Conformant) : Tally e.conditionWords e.literals :=
  cons rfl (e.tally_words he).closed

theorem tally_iterableWords (e : Expr) (he : e.Conformant) : Tally e.iterableWords e.literals := by
  cases e with
  | range => exact tally_words _ he
  | _ => exact tally_conditionWords _ he

theorem tally_absent {e : Expr} (h : e.isAbsent = true) : Tally [] e.literals := by
  cases e with
  | literal value t =>
    cases value with
    | integer n => exact nil.other rfl
    | _ => cases h
  | _ => cases h

end Expr

namespace Stmt

mutual

theorem tally_words (s : Stmt) (hs : s.Conformant) : Tally s.words s.literals := by
  cases s with
  | expr e =>
    rw [words]
    split
    next habsent => exact Expr.tally_absent habsent
    next => exact (e.tally_words hs).closed
  | block body =>
    rcases hs with ⟨e, habsent, rfl⟩ | ⟨_, hbody⟩
    · rw [words, wordsAll, words, habsent]
      exact (Expr.tally_absent habsent).append nil
    · exact tally_wordsAll body hbody
  | return_ e t =>
    rw [words]
    split
    next habsent => exact cons rfl ((Expr.tally_absent habsent).followed (lone rfl))
    next habsent => exact cons rfl (e.tally_words (hs.resolve_left habsent)).closed
  | if_ conditions consequences otherwise t =>
    obtain ⟨_, hlength, hconditions, hconsequences, helse⟩ := hs
    exact (tally_wordsOfBranches _ rfl conditions consequences hlength hconditions
      hconsequences).append (tally_wordsOfElse otherwise helse).ended
  | for_ var iterable body t =>
    exact cons rfl (cons rfl (cons rfl
      ((iterable.tally_iterableWords hs.1).append (body.tally_words hs.2.2).ended)))
  | try_ body arms t =>
    exact cons rfl ((body.tally_words hs.2.1).append (tally_wordsOfArms arms hs.2.2.2).ended)

theorem tally_wordsAll (ss : List Stmt) (hss : AllConformant ss) :
    Tally (wordsAll ss) (literalsAll ss) := by
  cases ss with
  | nil => exact nil
  | cons s ss => exact (s.tally_words hss.2.1).append (tally_wordsAll ss hss.2.2)

theorem tally_wordsOfBranches (opening : Word) (hopening : (opening.kind == .float) = false)
    (conditions : List Expr) (bodies : List Stmt) (hlength : conditions.length = bodies.length)
    (hconditions : Expr.AllConformant conditions) (hbodies : BodiesConformant bodies) :
    Tally (wordsOfBranches opening conditions bodies) (literalsOfBranches conditions bodies) := by
  cases conditions with
  | nil =>
    cases bodies with
    | nil => exact nil
    | cons body bodies => cases hlength
  | cons condition conditions =>
    cases bodies with
    | nil => cases hlength
    | cons body bodies =>
      obtain ⟨hcondition, hconditions⟩ := hconditions
      obtain ⟨_, hbody, hbodies⟩ := hbodies
      have hrest := tally_wordsOfBranches (.keyword .elseIf) rfl conditions bodies
        (Nat.succ.inj hlength) hconditions hbodies
      exact cons hopening ((condition.tally_conditionWords hcondition).append
        ((body.tally_words hbody).append hrest))

theorem tally_wordsOfElse (otherwise : Option Stmt) (helse : ElseConformant otherwise) :
    Tally (wordsOfElse otherwise) (literalsOfElse otherwise) := by
  cases otherwise with
  | none => exact nil
  | some body => exact cons rfl (body.tally_words helse.2)

theorem tally_wordsOfArms (arms : List Arm) (harms : ArmsConformant arms) :
    Tally (Arm.wordsAll arms) (Arm.literalsAll arms) := by
  cases arms with
  | nil => exact nil
  | cons arm arms =>
    obtain ⟨binding, filters, body, t⟩ := arm
    obtain ⟨hfilters, _, hbody, harms⟩ := harms
    have hbinding : Tally (binding.toList.map .name) [] := by
      cases binding with
      | none => exact nil
      | some name => exact lone rfl
    have hrest := (body.tally_words hbody).append (tally_wordsOfArms arms harms)
    exact cons rfl (hbinding.append (cons rfl
      ((Expr.tally_filterWords filters hfilters).append (cons rfl hrest))))

end

end Stmt

/-- Tokens that tell the words hold the same floats as these. -/
theorem Respelled.floats {ts rest : List Token} {ws : List Word} (h : Respelled ts ws rest)
    (hws : ∀ w ∈ ws, w.kind = .float → w.text?.isSome = true) :
    ts.filterMap Token.float? = ws.filterMap Word.float? ++ rest.filterMap Token.float? := by
  have hplain {t : Token} {k : Kind} (ht : t.kind = k) (hk : (k == .float) = false) :
      t.float? = none :=
    Token.float?_of_kind (ht ▸ beq_eq_false_iff_ne.mp hk)
  have hobject (t : Token) (id : ObjectId) :
      (Word.own (.symbol .hash) t :: Word.ofObjectId id).filterMap Word.float? = [] :=
    (cons rfl (Word.tally_ofObjectId id)).floats
  induction h with
  | nil => rfl
  | word hw _ ih =>
    obtain ⟨htext, hws⟩ := List.forall_mem_cons.mp hws
    rw [List.filterMap_cons, List.filterMap_cons, hw.float?_eq htext, ih hws]
    cases Word.float? _ <;> rfl
  | semicolon ht _ ih => rw [List.filterMap_cons_none (hplain ht rfl), ih hws]
  | noSemicolon _ ih =>
    rw [ih (List.forall_mem_cons.mp hws).2, List.filterMap_cons_none (Word.float?_symbol _)]
  | comma ht hs hclosing _ ih =>
    rw [List.filterMap_cons_none (hplain ht rfl), List.filterMap_cons_none (hplain hclosing rfl),
      List.filterMap_cons_none (Word.float?_symbol _), ih (List.forall_mem_cons.mp hws).2]
  | object ht hnumber hid _ ih =>
    rw [← List.cons_append] at hws ⊢
    rw [List.filterMap_cons_none (hplain ht rfl), List.filterMap_cons_none (hplain hnumber rfl),
      List.filterMap_append, hobject, ih (List.forall_mem_append.mp hws).2]
    rfl
  | negativeObject ht hminus hnumber hid _ ih =>
    rw [← List.cons_append] at hws ⊢
    rw [List.filterMap_cons_none (hplain ht rfl), List.filterMap_cons_none (hplain hminus rfl),
      List.filterMap_cons_none (hplain hnumber rfl), List.filterMap_append, hobject,
      ih (List.forall_mem_append.mp hws).2]
    rfl
  | iterable ht hopening hclosing hrange _ ihrange ih =>
    obtain ⟨-, hws⟩ := List.forall_mem_cons.mp hws
    obtain ⟨htexts, hws⟩ := List.forall_mem_append.mp hws
    rw [List.filterMap_cons_none (hplain ht rfl), List.filterMap_cons_none (hplain hopening rfl),
      ihrange htexts, List.filterMap_cons_none (hplain hclosing rfl), ih hws,
      List.filterMap_cons_none (Word.float?_keyword _), List.filterMap_append,
      List.append_assoc]

open Grammar

variable {tokens : List Token}

theorem Token.filterMap_float?_filter (tokens : List Token) :
    (tokens.filter (·.kind != .comment)).filterMap Token.float? =
      tokens.filterMap Token.float? := by
  rw [List.filterMap_filter]
  congr
  funext t
  split
  next => rfl
  next hcomment =>
    rw [bne_iff_ne, not_not] at hcomment
    rw [Token.float?_of_kind (by rw [hcomment]; decide)]

/-- A program has the floats of its tokens. -/
theorem Stmt.floats_of_parse {tree : Stmt} (hmem : ∀ t ∈ tokens, t.kind ≠ .eof)
    (h : Stmt.parse tokens = .ok tree) :
    tree.literals.filterMap Value.float? = tokens.filterMap Token.float? := by
  have htells : ParseTells (fun _ => True) (input tokens).1 (Stmt.parse tokens) :=
    parse_tells (fun _ _ => trivial) trivial
  rw [h, input_of_forall_ne_eof hmem] at htells
  have htally := tree.tally_words htells.conformant.2
  have hfloats := htells.respelled.floats htally.texts
  rw [Token.filterMap_float?_filter, htally.floats, List.filterMap_nil, List.append_nil] at hfloats
  exact hfloats.symm

theorem Expr.yields_of_parse {e : Expr} (h : Expr.parse tokens = .ok e) :
    (expr (input tokens).2 (input tokens).1).Yields e [] := by
  unfold Expr.parse at h
  generalize input tokens = given at *
  obtain ⟨ts, finish⟩ := given
  dsimp only at *
  cases hread : expr finish ts with
  | error e =>
    rw [hread] at h
    cases h
  | ok p =>
    obtain ⟨e', rest, hlt⟩ := p
    rw [hread] at h
    cases rest with
    | nil =>
      cases h
      exact ⟨hlt, rfl⟩
    | cons t rest => cases h

/-- An expression has the floats of its tokens. -/
theorem Expr.floats_of_parse {e : Expr} (hmem : ∀ t ∈ tokens, t.kind ≠ .eof)
    (h : Expr.parse tokens = .ok e) :
    e.literals.filterMap Value.float? = tokens.filterMap Token.float? := by
  have hread : (expr (input tokens).2 (input tokens).1).Ensures
      (IsRead (fun _ => True) 0 (input tokens).1) fun _ => True :=
    expr_ensures trivial fun _ _ => trivial
  have he := hread.of_yields (Expr.yields_of_parse h)
  rw [input_of_forall_ne_eof hmem] at he
  have htally := e.tally_words he.conformant
  have hfloats := he.respelled.floats htally.texts
  rw [Token.filterMap_float?_filter, htally.floats, List.filterMap_nil, List.append_nil] at hfloats
  exact hfloats.symm

end MooScript
