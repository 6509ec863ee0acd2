import MooScript.Proofs.Syntax.Spelling

/-! Trees written out as tokens: nothing among them is a comment or ends the input. -/
namespace MooScript

/-- The kinds of which words are. -/
def Kind.isVoiced : Kind → Bool
  | comment | eof => false
  | _ => true

def Voiced (ws : List Word) : Prop := ∀ w ∈ ws, w.kind.isVoiced = true

namespace Voiced

variable {w : Word} {ws ws' : List Word}

theorem nil : Voiced [] := List.forall_mem_nil _

theorem cons (hw : w.kind.isVoiced = true) (h : Voiced ws) : Voiced (w :: ws) :=
  List.forall_mem_cons.mpr ⟨hw, h⟩

theorem append (h : Voiced ws) (h' : Voiced ws') : Voiced (ws ++ ws') :=
  List.forall_mem_append.mpr ⟨h, h'⟩

theorem lone (hw : w.kind.isVoiced = true) : Voiced [w] := cons hw nil

theorem closed {s : Symbol} (h : Voiced ws) : Voiced (ws ++ [.symbol s]) := h.append (lone rfl)

theorem ended {k : Keyword} (h : Voiced ws) : Voiced (ws ++ [.keyword k]) := h.append (lone rfl)

end Voiced

open Voiced

theorem Word.voiced_ofObjectId (id : ObjectId) : Voiced (Word.ofObjectId id) := by
  rw [ofObjectId]
  split
  · exact cons rfl (lone rfl)
  · exact lone rfl

namespace Expr

theorem isVoiced_of_denotes {t : Token} {value : Value} (h : Denotes t value) :
    t.kind.isVoiced = true := by
  have hall : ∀ k ∈ Kind.denoting, k.isVoiced = true := by decide
  exact hall t.kind (kind_mem_denoting h)

mutual

theorem voiced_words (e : Expr) (he : e.Conformant) : Voiced e.words := by
  cases e with
  | binary op left right t =>
    have ⟨hleft, hright⟩ : left.Conformant ∧ right.Conformant := by
      cases op with
      | assign => exact he.2
      | _ => exact he.2.2
    exact (left.voiced_words hleft).append (cons rfl (right.voiced_words hright))
  | unary op operand t => exact cons rfl (operand.voiced_words he.2)
  | grouping inner t => exact cons rfl (inner.voiced_words he).closed
  | literal value t =>
    cases value with
    | object id => exact cons rfl (Word.voiced_ofObjectId id)
    | _ => exact lone (isVoiced_of_denotes he)
  | identifier name t => exact lone rfl
  | list elements t => exact cons rfl (voiced_wordsAll elements he).closed
  | range first last t =>
    exact cons rfl ((first.voiced_words he.1).append (cons rfl (last.voiced_words he.2).closed))
  | property object name t =>
    rw [words]
    split
    · exact cons rfl (lone rfl)
    · exact (object.voiced_words (he.resolve_left ‹_›).2).append (cons rfl (lone rfl))
  | call callee args t =>
    exact (callee.voiced_words he.2.1).append (cons rfl (voiced_wordsAll args he.2.2).closed)
  | verbCall object verb args t =>
    have hargs : Voiced (argumentWords args) := cons rfl (voiced_wordsAll args he.2).closed
    rw [words]
    split
    · exact cons rfl (cons rfl hargs)
    · exact (object.voiced_words (he.1.resolve_left ‹_›).2).append (cons rfl (cons rfl hargs))
  | recover body filters alternative t =>
    exact cons rfl ((body.voiced_words he.1).append (cons rfl
      ((voiced_filterWords filters he.2.1).append
        (cons rfl (alternative.voiced_words he.2.2).closed))))

theorem voiced_wordsAll (es : List Expr) (hes : AllConformant es) : Voiced (wordsAll es) := by
  cases es with
  | nil => exact nil
  | cons e es => exact (e.voiced_words hes.1).append (voiced_wordsMore es hes.2)

theorem voiced_wordsMore (es : List Expr) (hes : AllConformant es) : Voiced (wordsMore es) := by
  cases es with
  | nil => exact nil
  | cons e es => exact cons rfl ((e.voiced_words hes.1).append (voiced_wordsMore es hes.2))

theorem voiced_filterWords (es : List Expr) (hes : AllConformant es) : Voiced (filterWords es) := by
  cases es with
  | nil => exact lone rfl
  | cons e es => exact (e.voiced_words hes.1).append (voiced_wordsMore es hes.2)

end

theorem voiced_conditionWords (e : Expr) (he : e.Conformant) : Voiced e.conditionWords :=
  cons rfl (e.voiced_words he).closed

theorem voiced_iterableWords (e : Expr) (he : e.Conformant) : Voiced e.iterableWords := by
  cases e with
  | range => exact voiced_words _ he
  | _ => exact voiced_conditionWords _ he

end Expr

namespace Stmt

mutual

theorem voiced_words (s : Stmt) (hs : s.Conformant) : Voiced s.words := by
  cases s with
  | expr e =>
    rw [words]
    split
    · exact nil
    · exact (e.voiced_words hs).closed
  | block body =>
    rcases hs with ⟨e, habsent, rfl⟩ | ⟨_, hbody⟩
    · rw [words, wordsAll, words, habsent]
      exact nil
    · exact voiced_wordsAll body hbody
  | return_ e t =>
    rw [words]
    split
    · exact cons rfl (lone rfl)
    · exact cons rfl (e.voiced_words (hs.resolve_left ‹_›)).closed
  | if_ conditions consequences otherwise t =>
    obtain ⟨_, _, hconditions, hconsequences, helse⟩ := hs
    exact (voiced_wordsOfBranches _ rfl conditions consequences hconditions hconsequences).append
      (voiced_wordsOfElse otherwise helse).ended
  | for_ var iterable body t =>
    exact cons rfl (cons rfl (cons rfl
      ((iterable.voiced_iterableWords hs.1).append (body.voiced_words hs.2.2).ended)))
  | try_ body arms t =>
    exact cons rfl ((body.voiced_words hs.2.1).append (voiced_wordsOfArms arms hs.2.2.2).ended)

theorem voiced_wordsAll (ss : List Stmt) (hss : AllConformant ss) : Voiced (wordsAll ss) := by
  cases ss with
  | nil => exact nil
  | cons s ss => exact (s.voiced_words hss.2.1).append (voiced_wordsAll ss hss.2.2)

theorem voiced_wordsOfBranches (opening : Word) (hopening : opening.kind.isVoiced = true)
    (conditions : List Expr) (bodies : List Stmt) (hconditions : Expr.AllConformant conditions)
    (hbodies : BodiesConformant bodies) : Voiced (wordsOfBranches opening conditions bodies) := by
  cases conditions with
  | nil => cases bodies <;> exact nil
  | cons condition conditions =>
    cases bodies with
    | nil => exact nil
    | cons body bodies =>
      obtain ⟨hcondition, hconditions⟩ := hconditions
      obtain ⟨_, hbody, hbodies⟩ := hbodies
      have hrest := voiced_wordsOfBranches (.keyword .elseIf) rfl conditions bodies hconditions
        hbodies
      exact cons hopening ((condition.voiced_conditionWords hcondition).append
        ((body.voiced_words hbody).append hrest))

theorem voiced_wordsOfElse (otherwise : Option Stmt) (helse : ElseConformant otherwise) :
    Voiced (wordsOfElse otherwise) := by
  cases otherwise with
  | none => exact nil
  | some body => exact cons rfl (body.voiced_words helse.2)

theorem voiced_wordsOfArms (arms : List Arm) (harms : ArmsConformant arms) :
    Voiced (Arm.wordsAll arms) := by
  cases arms with
  | nil => exact nil
  | cons arm arms =>
    obtain ⟨binding, filters, body, t⟩ := arm
    obtain ⟨hfilters, _, hbody, harms⟩ := harms
    have hbinding : Voiced (binding.toList.map .name) := by
      cases binding with
      | none => exact nil
      | some name => exact lone rfl
    have hrest := (body.voiced_words hbody).append (voiced_wordsOfArms arms harms)
    exact cons rfl (hbinding.append (cons rfl
      ((Expr.voiced_filterWords filters hfilters).append (cons rfl hrest))))

end

end Stmt

theorem Spelled.isVoiced {ts rest : List Token} {ws : List Word} (h : Spelled ts ws rest)
    (hws : Voiced ws) (hrest : ∀ t ∈ rest, t.kind.isVoiced = true) :
    ∀ t ∈ ts, t.kind.isVoiced = true := by
  induction h with
  | nil => exact hrest
  | word hw _ ih =>
    obtain ⟨hfirst, hws⟩ := List.forall_mem_cons.mp hws
    exact List.forall_mem_cons.mpr ⟨hw.1 ▸ hfirst, ih hws hrest⟩

/-- A token for the word, without a place in a source. -/
def Word.token (w : Word) : Token := ⟨w.kind, .point 0, w.text?.getD w.kind.text, ⟨1, 1⟩⟩

/-- A token of the kind, with the text that all of the kind have if they have one. -/
def Kind.token (k : Kind) : Token := Word.token ⟨k, none⟩

theorem Kind.token_kind (k : Kind) : k.token.kind = k := rfl

theorem Spelled.render (ws : List Word) : Spelled (ws.map Word.token) ws [] := by
  induction ws with
  | nil => exact .nil
  | cons w ws ih =>
    refine .word ⟨rfl, fun _ text htext => ?_⟩ ih
    rw [Word.token, htext]
    rfl

end MooScript
