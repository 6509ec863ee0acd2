import MooScript.Proofs.Location.Unplaced
import MooScript.Proofs.Syntax.Conformance
import MooScript.Proofs.Syntax.Tokens
import MooScript.Syntax.Grammar.Expression

/-! The rules for expressions read alike what is alike: from tokens that differ in their places
only, they make trees that differ in their tokens only, or errors that differ in their place. -/
namespace MooScript

/-- The expressions differ in their tokens only, and their own tokens are alike. -/
structure Expr.Alike (e e' : Expr) : Prop where
  bare : e.bare = e'.bare
  token : e.token.Alike e'.token

theorem Expr.Alike.name? {e e' : Expr} (h : e.Alike e') : e'.name? = e.name? := by
  rw [← e'.name?_bare, ← h.bare, e.name?_bare]

/-- The lists of expressions differ in their tokens only. -/
def Expr.AllAlike (es es' : List Expr) : Prop := Expr.bareAll es = Expr.bareAll es'

theorem Expr.Alike.cons {e e' : Expr} {es es' : List Expr} (he : e.Alike e')
    (hes : Expr.AllAlike es es') : Expr.AllAlike (e :: es) (e' :: es') := by
  rw [AllAlike, bareAll, bareAll, he.bare, hes]

namespace Grammar

open Reading

variable {α β : Type} {n n' : Nat}

/-- Both readings yield what is related and leave tokens alike, or both fail alike. -/
inductive Parallel (R : α → α → Prop) :
    Reading SyntaxError Token α n → Reading SyntaxError Token α n' → Prop
  | ok {p : Parsed Token α n} {p' : Parsed Token α n'} (value : R p.value p'.value)
      (rest : List.Forall₂ Token.Alike p.rest p'.rest) : Parallel R (.ok p) (.ok p')
  | error {e e' : SyntaxError} (h : e.unplaced = e'.unplaced) : Parallel R (.error e) (.error e')

section

variable {R : α → α → Prop} {S : β → β → Prop} {a a' : α} {ts ts' : List Token}
  {r : Reading SyntaxError Token α n} {r' : Reading SyntaxError Token α n'}

theorem parallel_keep (ha : R a a') (hts : List.Forall₂ Token.Alike ts ts') :
    Parallel R (keep a ts) (keep a' ts') := .ok ha hts

theorem Parallel.widen (h : Parallel R r r') : Parallel R r.widen r'.widen := by
  cases h with
  | ok value rest => exact .ok value rest
  | error h => exact .error h

theorem Parallel.map {f f' : α → β} (h : Parallel R r r')
    (hf : ∀ a a', R a a' → S (f a) (f' a')) : Parallel S (r.map f) (r'.map f') := by
  cases h with
  | ok value rest => exact .ok (hf _ _ value) rest
  | error h => exact .error h

theorem Parallel.andThen
    {next : (a : α) → (rest : List Token) → rest.length < n →
      Reading SyntaxError Token β (rest.length + 1)}
    {next' : (a : α) → (rest : List Token) → rest.length < n' →
      Reading SyntaxError Token β (rest.length + 1)}
    (h : Parallel R r r')
    (hnext : ∀ a a' rest rest' (hlt : rest.length < n) (hlt' : rest'.length < n'), R a a' →
      List.Forall₂ Token.Alike rest rest' → Parallel S (next a rest hlt) (next' a' rest' hlt')) :
    Parallel S (r.andThen next) (r'.andThen next') := by
  cases h with
  | error h => exact .error h
  | @ok p p' value rest =>
    have hp := hnext _ _ _ _ p.shorter p'.shorter value rest
    simp only [Reading.andThen]
    cases hq : next p.value p.rest p.shorter <;> cases hq' : next' p'.value p'.rest p'.shorter <;>
      rw [hq, hq'] at hp <;> cases hp
    · exact .error ‹_›
    · exact .ok ‹_› ‹_›

end

variable {finish finish' t t' : Token} {ts ts' : List Token}

theorem parallel_fail {R : α → α → Prop} {m m' : Nat} (hfinish : finish.Alike finish')
    (expected : Expectation) (hts : List.Forall₂ Token.Alike ts ts') :
    Parallel R (fail finish expected ts : Reading SyntaxError Token α m)
      (fail finish' expected ts' : Reading SyntaxError Token α m') := by
  cases hts with
  | nil => exact .error (congrArg (SyntaxError.unexpectedEnd expected) hfinish.unplaced)
  | cons ht _ => exact .error (congrArg (SyntaxError.unexpectedToken expected) ht.unplaced)

theorem startsWith_alike (k : Kind) (hts : List.Forall₂ Token.Alike ts ts') :
    startsWith k ts' = startsWith k ts := by
  cases hts with
  | nil => rfl
  | cons ht _ => rw [startsWith, startsWith, ht.kind]

theorem expect_parallel (hfinish : finish.Alike finish') (k : Kind)
    (hts : List.Forall₂ Token.Alike ts ts') :
    Parallel Token.Alike (expect finish k ts) (expect finish' k ts') := by
  cases hts with
  | nil => exact parallel_fail hfinish _ .nil
  | cons ht hts =>
    rw [expect, expect, ht.kind]
    split
    · exact parallel_keep ht hts
    · exact parallel_fail hfinish _ (.cons ht hts)

theorem objectId?_alike (negative : Bool) (ht : t.Alike t') :
    Syntax.objectId? negative t' = Syntax.objectId? negative t := by
  rw [Syntax.objectId?, Syntax.objectId?, ht.text]

theorem objectId_parallel (hfinish : finish.Alike finish') (negative : Bool)
    (hts : List.Forall₂ Token.Alike ts ts') :
    Parallel Eq (objectId finish negative ts) (objectId finish' negative ts') := by
  refine (expect_parallel hfinish .integer hts).andThen fun number number' rest rest' _ _ ht h => ?_
  rw [objectId?_alike negative ht]
  cases Syntax.objectId? negative number with
  | none => exact .error (congrArg (SyntaxError.unexpectedToken _) ht.unplaced)
  | some id => exact parallel_keep rfl h

theorem objectNumber_parallel (hfinish : finish.Alike finish')
    (hts : List.Forall₂ Token.Alike ts ts') :
    Parallel Eq (objectNumber finish ts) (objectNumber finish' ts') := by
  cases hts with
  | nil => exact objectId_parallel hfinish false .nil
  | cons ht hts =>
    rw [objectNumber, objectNumber, ht.kind]
    split
    · exact (objectId_parallel hfinish true hts).widen
    · exact objectId_parallel hfinish false (.cons ht hts)

/-- The tokens at the end are alike, and the rule for expressions reads alike what is alike, of
lists of fewer than `n` tokens. -/
structure AlikeBelow (finish finish' : Token) (n : Nat) : Prop where
  ends : finish.Alike finish'
  reads : ∀ {ts ts' : List Token}, ts.length < n → List.Forall₂ Token.Alike ts ts' →
    Parallel Expr.Alike (expr finish ts) (expr finish' ts')

mutual

theorem nonemptyList_parallel {closing : Symbol} {ts ts' : List Token}
    (h : AlikeBelow finish finish' n) (hn : ts.length < n)
    (hts : List.Forall₂ Token.Alike ts ts') :
    Parallel Expr.AllAlike (nonemptyList finish closing ts) (nonemptyList finish' closing ts') := by
  rw [nonemptyList, nonemptyList]
  refine (h.reads hn hts).andThen fun e e' rest rest' hlt _ he hrest => ?_
  exact (separatedTail_parallel h (by omega) hrest).widen.map fun es es' hes => he.cons hes
termination_by 3 * ts.length + 1

theorem listTail_parallel {closing : Symbol} {ts ts' : List Token}
    (h : AlikeBelow finish finish' n) (hn : ts.length < n)
    (hts : List.Forall₂ Token.Alike ts ts') :
    Parallel Expr.AllAlike (listTail finish closing ts) (listTail finish' closing ts') := by
  cases hts with
  | nil =>
    rw [listTail, listTail]
    exact nonemptyList_parallel h hn .nil
  | cons ht hts =>
    rw [listTail, listTail, ht.kind]
    split
    · exact parallel_keep rfl hts
    · exact nonemptyList_parallel h hn (.cons ht hts)
termination_by 3 * ts.length + 2

theorem separatedTail_parallel {closing : Symbol} {ts ts' : List Token}
    (h : AlikeBelow finish finish' n) (hn : ts.length ≤ n)
    (hts : List.Forall₂ Token.Alike ts ts') :
    Parallel Expr.AllAlike (separatedTail finish closing ts)
      (separatedTail finish' closing ts') := by
  cases hts with
  | nil =>
    rw [separatedTail, separatedTail]
    exact parallel_fail h.ends _ .nil
  | cons ht hts =>
    rw [separatedTail, separatedTail, ht.kind]
    split
    · exact parallel_keep rfl hts
    · split
      · exact (listTail_parallel h hn hts).widen
      · exact parallel_fail h.ends _ (.cons ht hts)
termination_by 3 * ts.length

end

theorem arguments_parallel (h : AlikeBelow finish finish' n) (hn : ts.length ≤ n)
    (hts : List.Forall₂ Token.Alike ts ts') :
    Parallel Expr.AllAlike (arguments finish ts) (arguments finish' ts') := by
  rw [arguments, arguments]
  refine (expect_parallel h.ends _ hts).andThen fun _ _ rest rest' hlt _ _ hrest => ?_
  exact (listTail_parallel h (by omega) hrest).widen

mutual

theorem filterList_parallel {ts ts' : List Token} (h : AlikeBelow finish finish' n)
    (hn : ts.length < n) (hts : List.Forall₂ Token.Alike ts ts') :
    Parallel Expr.AllAlike (filterList finish ts) (filterList finish' ts') := by
  rw [filterList, filterList]
  refine (h.reads hn hts).andThen fun e e' rest rest' hlt _ he hrest => ?_
  exact (filterTail_parallel h (by omega) hrest).map fun es es' hes => he.cons hes
termination_by 2 * ts.length + 1

theorem filterTail_parallel {ts ts' : List Token} (h : AlikeBelow finish finish' n)
    (hn : ts.length ≤ n) (hts : List.Forall₂ Token.Alike ts ts') :
    Parallel Expr.AllAlike (filterTail finish ts) (filterTail finish' ts') := by
  cases hts with
  | nil =>
    rw [filterTail, filterTail]
    exact parallel_keep rfl .nil
  | cons ht hts =>
    rw [filterTail, filterTail, ht.kind]
    split
    · exact (filterList_parallel h hn hts).widen.widen
    · exact parallel_keep rfl (.cons ht hts)
termination_by 2 * ts.length

end

theorem errorFilters_parallel (h : AlikeBelow finish finish' n) (hn : ts.length < n)
    (hts : List.Forall₂ Token.Alike ts ts') :
    Parallel Expr.AllAlike (errorFilters finish ts) (errorFilters finish' ts') := by
  cases hts with
  | nil =>
    rw [errorFilters, errorFilters]
    exact filterList_parallel h hn .nil
  | cons ht hts =>
    rw [errorFilters, errorFilters, ht.kind]
    split
    · exact parallel_keep rfl hts
    · exact filterList_parallel h hn (.cons ht hts)

theorem callTail_parallel {callee callee' : Expr} (h : AlikeBelow finish finish' n)
    (hn : ts.length ≤ n) (hcallee : callee.Alike callee') (ht : t.Alike t')
    (hts : List.Forall₂ Token.Alike ts ts') :
    Parallel Expr.Alike (callTail finish callee t ts) (callTail finish' callee' t' ts') := by
  rw [callTail, callTail, startsWith_alike _ hts]
  split
  · refine (arguments_parallel h hn hts).widen.map fun args args' hargs => ⟨?_, ht⟩
    rw [Expr.bare, Expr.bare, hcallee.bare, hargs]
  · exact parallel_keep hcallee hts

theorem systemTail_parallel (h : AlikeBelow finish finish' n) (hn : ts.length ≤ n) (name : String)
    (ht : t.Alike t') (hts : List.Forall₂ Token.Alike ts ts') :
    Parallel Expr.Alike (systemTail finish name t ts) (systemTail finish' name t' ts') := by
  rw [systemTail, systemTail, startsWith_alike _ hts]
  split
  · refine (arguments_parallel h hn hts).widen.map fun args args' hargs => ⟨?_, ht⟩
    rw [Expr.bare, Expr.bare, hargs]
    rfl
  · exact parallel_keep ⟨rfl, ht⟩ hts

section

variable (h : AlikeBelow finish finish' n) (hn : ts.length < n) (ht : t.Alike t')
  (hts : List.Forall₂ Token.Alike ts ts')
include h hn ht hts

theorem grouping_parallel (hkind : t.kind = .symbol .leftParen) :
    Parallel Expr.Alike (atom finish (t :: ts)) (atom finish' (t' :: ts')) := by
  rw [atom, atom, ht.kind, hkind]
  refine (h.reads hn hts).widen.andThen fun inner inner' rest rest' hlt _ hinner hrest => ?_
  refine (expect_parallel h.ends _ hrest).widen.andThen fun _ _ mid mid' hlt' _ _ hmid => ?_
  refine callTail_parallel h (by omega) ⟨?_, ht⟩ ht hmid
  rw [Expr.bare, Expr.bare, hinner.bare]

theorem range_parallel (hkind : t.kind = .symbol .leftBracket) :
    Parallel Expr.Alike (atom finish (t :: ts)) (atom finish' (t' :: ts')) := by
  rw [atom, atom, ht.kind, hkind]
  refine (h.reads hn hts).widen.andThen fun first first' rest rest' hlt _ hfirst hrest => ?_
  refine (expect_parallel h.ends _ hrest).widen.andThen fun _ _ mid mid' hlt' _ _ hmid => ?_
  refine (h.reads (by omega) hmid).widen.andThen fun last last' rest rest' _ _ hlast hrest => ?_
  refine (expect_parallel h.ends _ hrest).widen.map fun _ _ _ => ⟨?_, ht⟩
  rw [Expr.bare, Expr.bare, hfirst.bare, hlast.bare]

theorem recover_parallel (hkind : t.kind = .symbol .backtick) :
    Parallel Expr.Alike (atom finish (t :: ts)) (atom finish' (t' :: ts')) := by
  rw [atom, atom, ht.kind, hkind]
  refine (h.reads hn hts).widen.andThen fun body body' ts₁ ts₁' hlt₁ _ hbody hts₁ => ?_
  refine (expect_parallel h.ends _ hts₁).widen.andThen fun _ _ ts₂ ts₂' hlt₂ _ _ hts₂ => ?_
  refine (errorFilters_parallel h (by omega) hts₂).widen.andThen
    fun filters filters' ts₃ ts₃' hlt₃ _ hfilters hts₃ => ?_
  refine (expect_parallel h.ends _ hts₃).widen.andThen fun _ _ ts₄ ts₄' hlt₄ _ _ hts₄ => ?_
  refine (h.reads (by omega) hts₄).widen.andThen
    fun alternative alternative' rest rest' _ _ halternative hrest => ?_
  refine (expect_parallel h.ends _ hrest).widen.map fun _ _ _ => ⟨?_, ht⟩
  rw [Expr.bare, Expr.bare, hbody.bare, hfilters, halternative.bare]

end

theorem atom_parallel (h : AlikeBelow finish finish' n) (hn : ts.length ≤ n)
    (hts : List.Forall₂ Token.Alike ts ts') :
    Parallel Expr.Alike (atom finish ts) (atom finish' ts') := by
  cases hts with
  | nil =>
    rw [atom, atom]
    exact parallel_fail h.ends _ .nil
  | @cons t t' ts ts' ht hts =>
    have hlen : ts.length < n := hn
    cases hkind : t.kind with
    | identifier =>
      rw [atom, atom, ht.kind, hkind]
      refine callTail_parallel h (Nat.le_of_lt hlen) ⟨?_, ht⟩ ht hts
      rw [Expr.bare, Expr.bare, ht.text]
    | integer | float | string =>
      rw [atom, atom, ht.kind, hkind]
      dsimp only
      rw [Syntax.literalValue?_congr ht.kind ht.text]
      cases Syntax.literalValue? t with
      | none => exact .error (congrArg (SyntaxError.unexpectedToken _) ht.unplaced)
      | some value => exact parallel_keep ⟨rfl, ht⟩ hts
    | keyword k =>
      rw [atom, atom, ht.kind, hkind]
      cases k with
      | true_ | false_ => exact parallel_keep ⟨rfl, ht⟩ hts
      | _ => exact parallel_fail h.ends _ (.cons ht hts)
    | symbol s =>
      cases s with
      | leftParen => exact grouping_parallel h hlen ht hts hkind
      | leftBracket => exact range_parallel h hlen ht hts hkind
      | backtick => exact recover_parallel h hlen ht hts hkind
      | dollar =>
        rw [atom, atom, ht.kind, hkind]
        refine (expect_parallel h.ends _ hts).widen.andThen
          fun name name' rest rest' hlt _ hname hrest => ?_
        rw [hname.text]
        exact systemTail_parallel h (by omega) _ ht hrest
      | leftBrace =>
        rw [atom, atom, ht.kind, hkind]
        refine (listTail_parallel h hlen hts).widen.map fun es es' hes => ⟨?_, ht⟩
        rw [Expr.bare, Expr.bare, hes]
      | hash =>
        rw [atom, atom, ht.kind, hkind]
        refine (objectNumber_parallel h.ends hts).widen.map fun id id' hid => ⟨?_, ht⟩
        rw [Expr.bare, Expr.bare, hid]
      | _ =>
        rw [atom, atom, ht.kind, hkind]
        exact parallel_fail h.ends _ (.cons ht hts)
    | comment | eof =>
      rw [atom, atom, ht.kind, hkind]
      exact parallel_fail h.ends _ (.cons ht hts)

theorem verbTail_parallel {object object' : Expr} {ts ts' : List Token}
    (h : AlikeBelow finish finish' n) (hn : ts.length ≤ n) (hobject : object.Alike object')
    (hts : List.Forall₂ Token.Alike ts ts') :
    Parallel Expr.Alike (verbTail finish object ts) (verbTail finish' object' ts') := by
  match ts, ts', hts with
  | [], [], .nil =>
    rw [verbTail, verbTail]
    exact parallel_keep hobject .nil
  | t :: ts, t' :: ts', .cons ht hts =>
    rw [List.length_cons] at hn
    rw [verbTail, verbTail, ht.kind]
    split
    · refine ((expect_parallel h.ends _ hts).widen.andThen
        fun verb verb' rest rest' hlt _ hverb hrest => ?_).widen
      refine (arguments_parallel h (by omega) hrest).widen.andThen
        fun args args' rest rest' hlt' _ hargs hrest => ?_
      refine verbTail_parallel h (by omega) ⟨?_, ht⟩ hrest
      rw [Expr.bare, Expr.bare, hobject.bare, hverb.text, hargs]
    · exact parallel_keep hobject (.cons ht hts)
termination_by ts.length

theorem primary_parallel (h : AlikeBelow finish finish' n) (hn : ts.length ≤ n)
    (hts : List.Forall₂ Token.Alike ts ts') :
    Parallel Expr.Alike (primary finish ts) (primary finish' ts') := by
  rw [primary, primary]
  refine (atom_parallel h hn hts).andThen fun object object' rest rest' hlt _ hobject hrest => ?_
  exact verbTail_parallel h (by omega) hobject hrest

theorem unary_parallel (h : AlikeBelow finish finish' n) (hn : ts.length ≤ n)
    (hts : List.Forall₂ Token.Alike ts ts') :
    Parallel Expr.Alike (unary finish ts) (unary finish' ts') := by
  induction hts with
  | nil =>
    rw [unary, unary]
    exact primary_parallel h hn .nil
  | @cons t t' ts ts' ht hts ih =>
    rw [unary, unary, ht.kind]
    cases unaryOperator? t.kind with
    | none => exact primary_parallel h hn (.cons ht hts)
    | some op =>
      refine (ih (Nat.le_of_lt hn)).widen.map fun e e' he => ⟨?_, ht⟩
      rw [Expr.bare, Expr.bare, he.bare]

theorem propertyTail_parallel {object object' : Expr} {ts ts' : List Token}
    (hfinish : finish.Alike finish') (hobject : object.Alike object')
    (hts : List.Forall₂ Token.Alike ts ts') :
    Parallel Expr.Alike (propertyTail finish object ts) (propertyTail finish' object' ts') := by
  match ts, ts', hts with
  | [], [], .nil =>
    rw [propertyTail, propertyTail]
    exact parallel_keep hobject .nil
  | t :: ts, t' :: ts', .cons ht hts =>
    rw [propertyTail, propertyTail, ht.kind]
    split
    · refine ((expect_parallel hfinish _ hts).widen.andThen
        fun name name' rest rest' hlt _ hname hrest => ?_).widen
      refine propertyTail_parallel hfinish ⟨?_, ht⟩ hrest
      rw [Expr.bare, Expr.bare, hobject.bare, hname.text]
    · exact parallel_keep hobject (.cons ht hts)
termination_by ts.length

theorem property_parallel (h : AlikeBelow finish finish' n) (hn : ts.length ≤ n)
    (hts : List.Forall₂ Token.Alike ts ts') :
    Parallel Expr.Alike (property finish ts) (property finish' ts') := by
  rw [property, property]
  refine (unary_parallel h hn hts).andThen fun object object' rest rest' _ _ hobject hrest => ?_
  exact propertyTail_parallel h.ends hobject hrest

section

variable {level : Level}
  (hoperand : ∀ {ts ts' : List Token}, ts.length ≤ n → List.Forall₂ Token.Alike ts ts' →
    Parallel Expr.Alike (operand finish level ts) (operand finish' level ts'))
include hoperand

theorem chainTail_parallel {left left' : Expr} {ts ts' : List Token} (hn : ts.length ≤ n)
    (hleft : left.Alike left') (hts : List.Forall₂ Token.Alike ts ts') :
    Parallel Expr.Alike (chainTail finish level left ts) (chainTail finish' level left' ts') := by
  match ts, ts', hts with
  | [], [], .nil =>
    rw [chainTail, chainTail]
    exact parallel_keep hleft .nil
  | t :: ts, t' :: ts', .cons ht hts =>
    rw [List.length_cons] at hn
    rw [chainTail, chainTail, ht.kind]
    cases level.operator? t.kind with
    | none => exact parallel_keep hleft (.cons ht hts)
    | some op =>
      refine ((hoperand (by omega) hts).widen.andThen
        fun right right' rest rest' hlt _ hright hrest => ?_).widen
      refine chainTail_parallel (by omega) ⟨?_, ht⟩ hrest
      rw [Expr.bare, Expr.bare, hleft.bare, hright.bare]
termination_by ts.length

theorem chain_parallel_of_operand (hn : ts.length ≤ n) (hts : List.Forall₂ Token.Alike ts ts') :
    Parallel Expr.Alike (chain finish level ts) (chain finish' level ts') := by
  rw [chain, chain]
  refine (hoperand hn hts).andThen fun left left' rest rest' hlt _ hleft hrest => ?_
  exact chainTail_parallel hoperand (by omega) hleft hrest

end

/-- From the tightest level to the loosest. -/
theorem operand_parallel (h : AlikeBelow finish finish' n) (level : Level) {ts ts' : List Token}
    (hn : ts.length ≤ n) (hts : List.Forall₂ Token.Alike ts ts') :
    Parallel Expr.Alike (operand finish level ts) (operand finish' level ts') := by
  rw [operand, operand]
  split
  · exact chain_parallel_of_operand (operand_parallel h _) hn hts
  · exact property_parallel h hn hts
termination_by level.rank
decreasing_by
  have := Level.rank_tighter ‹_›
  omega

theorem assignmentTail_parallel {left left' : Expr} (h : AlikeBelow finish finish' n)
    (hn : ts.length ≤ n) (hleft : left.Alike left') (hts : List.Forall₂ Token.Alike ts ts') :
    Parallel Expr.Alike (assignmentTail finish left ts) (assignmentTail finish' left' ts') := by
  cases hts with
  | nil =>
    rw [assignmentTail, assignmentTail]
    exact parallel_keep hleft .nil
  | cons ht hts =>
    rw [assignmentTail, assignmentTail, ht.kind, hleft.name?]
    split
    · split
      · refine ((h.reads hn hts).widen.map fun right right' hright => ⟨?_, ht⟩).widen
        rw [Expr.bare, Expr.bare, hleft.bare, hright.bare]
      · exact .error (congrArg SyntaxError.invalidAssignment hleft.token.unplaced)
    · exact parallel_keep hleft (.cons ht hts)

theorem alikeBelow (hfinish : finish.Alike finish') (n : Nat) : AlikeBelow finish finish' n := by
  induction n with
  | zero => exact ⟨hfinish, fun hn => absurd hn (Nat.not_lt_zero _)⟩
  | succ n ih =>
    refine ⟨hfinish, fun {ts ts'} hn hts => ?_⟩
    have hn : ts.length ≤ n := Nat.le_of_lt_succ hn
    rw [expr, expr]
    refine (chain_parallel_of_operand (operand_parallel ih .disjunction) hn hts).andThen
      fun left left' rest rest' hlt _ hleft hrest => ?_
    exact assignmentTail_parallel ih (by omega) hleft hrest

theorem expr_parallel (hfinish : finish.Alike finish') (hts : List.Forall₂ Token.Alike ts ts') :
    Parallel Expr.Alike (expr finish ts) (expr finish' ts') :=
  (alikeBelow hfinish (ts.length + 1)).reads (Nat.lt_succ_self _) hts

end Grammar
end MooScript
