import MooScript.Proofs.Reading
import MooScript.Proofs.Syntax.Soundness.Node

/-! What the rules for expressions read is what the tokens tell; else they blame one of them. -/
namespace MooScript

namespace SyntaxError

def token : SyntaxError → Token
  | unexpectedToken _ t | unexpectedEnd _ t | invalidAssignment t => t

/-- A literal was expected, and the token is of its kind all the same: its text makes none. -/
def IsMalformed : SyntaxError → Prop
  | unexpectedToken (.kind k) t => t.kind = k ∧ k ∈ [Kind.integer, .float, .string]
  | _ => False

end SyntaxError

namespace Grammar

/-- The token that is blamed has the property; as a malformed literal only one without a value is
blamed. -/
structure Blames (P : Token → Prop) (e : SyntaxError) : Prop where
  token : P e.token
  malformed : e.IsMalformed → Syntax.literalValue? e.token = none

open Reading MooScript.Expr

variable {P : Token → Prop} {finish : Token}

theorem unmet_token {expected : Expectation} {ts : List Token} (hfinish : P finish)
    (hts : ∀ t ∈ ts, P t) : P (unmet finish expected ts).token := by
  cases ts with
  | nil => exact hfinish
  | cons t ts => exact hts t List.mem_cons_self

theorem unmet_blames {expected : Expectation} {ts : List Token} (hfinish : P finish)
    (hts : ∀ t ∈ ts, P t) (hexpected : ∀ k ∈ [Kind.integer, .float, .string], expected ≠ .kind k) :
    Blames P (unmet finish expected ts) := by
  refine ⟨unmet_token hfinish hts, fun h => ?_⟩
  cases ts with
  | nil => exact h.elim
  | cons t ts =>
    cases expected with
    | kind k => exact absurd rfl (hexpected k h.2)
    | _ => exact h.elim

theorem expect_ensures {k : Kind} {ts : List Token} (hfinish : P finish) (hts : ∀ t ∈ ts, P t) :
    (expect finish k ts).Ensures
      (fun t rest => t.kind = k ∧ ts = t :: rest ∧ ∀ t' ∈ rest, P t') (Blames P) := by
  cases ts with
  | nil => exact ensures_error ⟨hfinish, False.elim⟩
  | cons t ts =>
    rw [expect]
    split
    · exact ensures_keep ⟨‹_›, rfl, (List.forall_mem_cons.mp hts).2⟩
    · exact ensures_error ⟨hts t List.mem_cons_self, fun h => absurd h.1 ‹_›⟩

/-- The number, and the token that it is read from. -/
theorem objectId_ensures {negative : Bool} {ts : List Token} (hfinish : P finish)
    (hts : ∀ t ∈ ts, P t) :
    (objectId finish negative ts).Ensures
      (fun id rest => ∃ number, ts = number :: rest ∧ number.kind = .integer ∧
        Syntax.objectId? negative number = some id) (Blames P) := by
  refine (expect_ensures hfinish hts).andThen fun number rest _ h => ?_
  obtain ⟨hnumber, rfl, _⟩ := h
  cases hid : Syntax.objectId? negative number with
  | none => exact ensures_error ⟨hts number List.mem_cons_self, False.elim⟩
  | some id => exact ensures_keep ⟨number, rfl, hnumber, hid⟩

theorem objectNumber_ensures {t : Token} {ts : List Token} (hfinish : P finish)
    (ht : t.kind = .symbol .hash) (hts : ∀ t' ∈ t :: ts, P t') :
    (objectNumber finish ts).Ensures
      (fun id rest => (Expr.literal (.object id) t).IsRead P 9 (t :: ts) rest) (Blames P) := by
  obtain ⟨hown, hts⟩ := List.forall_mem_cons.mp hts
  have hplain : (objectId finish false ts).Ensures
      (fun id rest => (Expr.literal (.object id) t).IsRead P 9 (t :: ts) rest) (Blames P) := by
    refine (objectId_ensures hfinish hts).mono fun id rest _ h => ?_
    obtain ⟨number, rfl, hnumber, hid⟩ := h
    exact isRead_object ht hnumber hid hown
  cases ts with
  | nil => exact hplain
  | cons minus ts =>
    rw [objectNumber]
    split
    · obtain ⟨_, hts⟩ := List.forall_mem_cons.mp hts
      refine ((objectId_ensures hfinish hts).mono fun id rest _ h => ?_).widen
      obtain ⟨number, rfl, hnumber, hid⟩ := h
      exact isRead_negativeObject ht ‹_› hnumber hid hown
    · exact hplain

/-- The statement about `expr`, of lists of fewer than `n` tokens. -/
def SoundBelow (P : Token → Prop) (finish : Token) (n : Nat) : Prop :=
  ∀ ts : List Token, ts.length < n → (∀ t ∈ ts, P t) →
    (expr finish ts).Ensures (IsRead P 0 ts) (Blames P)

variable {n : Nat} {closing : Symbol}

/-- What comes of reading expressions, at least one of them, with words `ws` behind them. -/
def Nonempty (P : Token → Prop) (ts : List Token) (ws : List Word) (es : List Expr)
    (rest : List Token) : Prop :=
  ∃ e es', es = e :: es' ∧ AreRead P ts (e.words ++ (wordsMore es' ++ ws)) es rest

theorem Nonempty.all {ts rest : List Token} {ws : List Word} {es : List Expr}
    (h : Nonempty P ts ws es rest) : AreRead P ts (wordsAll es ++ ws) es rest := by
  obtain ⟨e, es, rfl, hes⟩ := h
  rwa [wordsAll, List.append_assoc]

theorem Nonempty.more {comma : Token} {ts rest : List Token} {ws : List Word} {es : List Expr}
    (hcomma : comma.kind = .symbol .comma) (h : Nonempty P ts ws es rest) :
    AreRead P (comma :: ts) (wordsMore es ++ ws) es rest := by
  obtain ⟨e, es, rfl, hes⟩ := h
  rw [wordsMore, List.cons_append, List.append_assoc]
  exact hes.behind hcomma

theorem nonemptyList_ensures_of_tail {ts : List Token} (hexpr : SoundBelow P finish n)
    (hn : ts.length < n) (hts : ∀ t ∈ ts, P t)
    (htail : ∀ rest : List Token, rest.length < ts.length → (∀ t ∈ rest, P t) →
      (separatedTail finish closing rest).Ensures
        (fun es rest' => AreRead P rest (wordsMore es ++ [.symbol closing]) es rest')
        (Blames P)) :
    (nonemptyList finish closing ts).Ensures (Nonempty P ts [.symbol closing]) (Blames P) := by
  rw [nonemptyList]
  refine (hexpr ts hn hts).andThen fun e rest hlt he => ?_
  apply Ensures.map
  refine ((htail rest hlt (he.respelled.forall_mem hts)).mono fun es rest' _ hes => ?_).widen
  exact ⟨e, es, rfl, he.cons hes⟩

theorem filterList_ensures_of_tail {ts : List Token} (hexpr : SoundBelow P finish n)
    (hn : ts.length < n) (hts : ∀ t ∈ ts, P t)
    (htail : ∀ rest : List Token, rest.length < ts.length → (∀ t ∈ rest, P t) →
      (filterTail finish rest).Ensures
        (fun es rest' => AreRead P rest (wordsMore es ++ []) es rest') (Blames P)) :
    (filterList finish ts).Ensures (Nonempty P ts []) (Blames P) := by
  rw [filterList]
  refine (hexpr ts hn hts).andThen fun e rest hlt he => ?_
  apply Ensures.map
  refine (htail rest hlt (he.respelled.forall_mem hts)).mono fun es rest' _ hes => ?_
  exact ⟨e, es, rfl, he.cons hes⟩

section

variable (hfinish : P finish) (hexpr : SoundBelow P finish n)
include hfinish hexpr

theorem separatedTail_ensures (hclosing : closing = .rightBrace ∨ closing = .rightParen)
    (ts : List Token) (hn : ts.length ≤ n) (hts : ∀ t ∈ ts, P t) :
    (separatedTail finish closing ts).Ensures
      (fun es rest => AreRead P ts (wordsMore es ++ [.symbol closing]) es rest) (Blames P) := by
  match ts, hts with
  | [], hts =>
    rw [separatedTail]
    exact ensures_error (unmet_blames hfinish hts (by decide))
  | t :: ts, hts =>
    rw [separatedTail]
    split
    · exact ensures_keep (areRead_nil ‹_›)
    · split
      · apply Ensures.widen
        have hrest := (List.forall_mem_cons.mp hts).2
        have hnonempty := (nonemptyList_ensures_of_tail hexpr hn hrest fun rest hlt h =>
          separatedTail_ensures hclosing rest (Nat.le_of_lt (Nat.lt_trans hlt hn)) h).mono
            fun es rest _ hes => hes.more ‹_›
        cases ts with
        | nil =>
          rw [listTail]
          exact hnonempty
        | cons t' ts =>
          rw [listTail]
          split
          · exact ensures_keep (areRead_comma ‹_› hclosing ‹_›)
          · exact hnonempty
      · exact ensures_error (unmet_blames hfinish hts (by decide))
termination_by ts.length

theorem listTail_ensures (hclosing : closing = .rightBrace ∨ closing = .rightParen)
    (ts : List Token) (hn : ts.length < n) (hts : ∀ t ∈ ts, P t) :
    (listTail finish closing ts).Ensures
      (fun es rest => AreRead P ts (wordsAll es ++ [.symbol closing]) es rest) (Blames P) := by
  have hnonempty := (nonemptyList_ensures_of_tail hexpr hn hts fun rest hlt h =>
    separatedTail_ensures hfinish hexpr hclosing rest (Nat.le_of_lt (Nat.lt_trans hlt hn)) h).mono
      fun es rest _ hes => hes.all
  cases ts with
  | nil =>
    rw [listTail]
    exact hnonempty
  | cons t ts =>
    rw [listTail]
    split
    · exact ensures_keep (areRead_nil ‹_›)
    · exact hnonempty

theorem arguments_ensures (ts : List Token) (hn : ts.length ≤ n) (hts : ∀ t ∈ ts, P t) :
    (arguments finish ts).Ensures
      (fun args rest => AreRead P ts (argumentWords args) args rest) (Blames P) := by
  rw [arguments]
  refine (expect_ensures hfinish hts).andThen fun opening rest hlt h => ?_
  obtain ⟨hopening, rfl, hrest⟩ := h
  refine ((listTail_ensures hfinish hexpr (.inr rfl) rest hn hrest).mono
    fun args rest' _ hargs => ?_).widen
  exact hargs.behind hopening

omit hfinish in
theorem filterTail_ensures (ts : List Token) (hn : ts.length ≤ n) (hts : ∀ t ∈ ts, P t) :
    (filterTail finish ts).Ensures
      (fun es rest => AreRead P ts (wordsMore es ++ []) es rest) (Blames P) := by
  match ts, hts with
  | [], _ =>
    rw [filterTail]
    exact ensures_keep areRead_none
  | t :: ts, hts =>
    rw [filterTail]
    split
    · have hrest := (List.forall_mem_cons.mp hts).2
      refine ((filterList_ensures_of_tail hexpr hn hrest fun rest hlt h => ?_).mono
        fun es rest _ hes => hes.more ‹_›).widen.widen
      exact filterTail_ensures rest (Nat.le_of_lt (Nat.lt_trans hlt hn)) h
    · exact ensures_keep areRead_none
termination_by ts.length

omit hfinish in
theorem errorFilters_ensures (ts : List Token) (hn : ts.length < n) (hts : ∀ t ∈ ts, P t) :
    (errorFilters finish ts).Ensures
      (fun es rest => AreRead P ts (filterWords es) es rest) (Blames P) := by
  have hlist : (filterList finish ts).Ensures
      (fun es rest => AreRead P ts (filterWords es) es rest) (Blames P) := by
    refine (filterList_ensures_of_tail hexpr hn hts fun rest hlt h =>
      filterTail_ensures hexpr rest (Nat.le_of_lt (Nat.lt_trans hlt hn)) h).mono
        fun es rest _ hes => ?_
    obtain ⟨e, es, rfl, hes⟩ := hes
    rwa [List.append_nil] at hes
  cases ts with
  | nil =>
    rw [errorFilters]
    exact hlist
  | cons t ts =>
    rw [errorFilters]
    split
    · exact ensures_keep (areRead_any ‹_›)
    · exact hlist

theorem callTail_ensures {before ts : List Token} {callee : Expr} {t : Token}
    (hcallee : callee.isCallee = true) (hn : ts.length ≤ n) (ht : P t)
    (hbefore : ∀ t ∈ before, P t) (h : callee.IsRead P 9 before ts) :
    (callTail finish callee t ts).Ensures (IsRead P 9 before) (Blames P) := by
  rw [callTail]
  split
  · apply Ensures.map
    refine ((arguments_ensures hfinish hexpr ts hn (h.respelled.forall_mem hbefore)).mono
      fun args rest _ hargs => ?_).widen
    exact h.call hcallee ht hargs
  · exact ensures_keep h

theorem systemTail_ensures {t name : Token} {ts : List Token} (hkind : t.kind = .symbol .dollar)
    (hname : name.kind = .identifier) (hn : ts.length ≤ n) (ht : P t) (hts : ∀ t ∈ ts, P t) :
    (systemTail finish name.text t ts).Ensures (IsRead P 9 (t :: name :: ts)) (Blames P) := by
  rw [systemTail]
  split
  · apply Ensures.map
    refine ((arguments_ensures hfinish hexpr ts hn hts).mono fun args rest _ hargs => ?_).widen
    exact hargs.systemCall hkind hname ht
  · exact ensures_keep (isRead_systemProperty hkind hname ht)

theorem range_ensures {t : Token} {ts : List Token} (hkind : t.kind = .symbol .leftBracket)
    (hn : ts.length < n) (ht : P t) (hts : ∀ t ∈ ts, P t) :
    (atom finish (t :: ts)).Ensures
      (fun e rest => (∃ first last, e = .range first last t) ∧ e.IsRead P 9 (t :: ts) rest)
      (Blames P) := by
  rw [atom, hkind]
  refine (hexpr ts hn hts).widen.andThen fun first rest hrest hfirst => ?_
  have hfrest := hfirst.respelled.forall_mem hts
  refine (expect_ensures hfinish hfrest).widen.andThen fun dots mid hmid h => ?_
  obtain ⟨hdots, rfl, hpmid⟩ := h
  refine (hexpr mid (by omega) hpmid).widen.andThen fun last rest' hrest' hlast => ?_
  apply Ensures.map
  refine ((expect_ensures hfinish (hlast.respelled.forall_mem hpmid)).mono
    fun closing rest'' _ h => ?_).widen
  obtain ⟨hclosing, rfl, _⟩ := h
  exact ⟨⟨first, last, rfl⟩, .range hkind ht hdots hclosing hfirst hlast⟩

theorem grouping_ensures {t : Token} {ts : List Token} (hkind : t.kind = .symbol .leftParen)
    (hn : ts.length < n) (ht : P t) (hts : ∀ t ∈ ts, P t) :
    (atom finish (t :: ts)).Ensures (IsRead P 9 (t :: ts)) (Blames P) := by
  rw [atom, hkind]
  refine (hexpr ts hn hts).widen.andThen fun inner rest hrest hinner => ?_
  refine (expect_ensures hfinish (hinner.respelled.forall_mem hts)).widen.andThen
    fun closing mid hmid h => ?_
  obtain ⟨hclosing, rfl, _⟩ := h
  exact callTail_ensures hfinish hexpr rfl (by omega) ht (List.forall_mem_cons.mpr ⟨ht, hts⟩)
    (hinner.grouping hkind ht hclosing)

theorem recover_ensures {t : Token} {ts : List Token} (hkind : t.kind = .symbol .backtick)
    (hn : ts.length < n) (ht : P t) (hts : ∀ t ∈ ts, P t) :
    (atom finish (t :: ts)).Ensures (IsRead P 9 (t :: ts)) (Blames P) := by
  rw [atom, hkind]
  refine (hexpr ts hn hts).widen.andThen fun body afterBody hbodyLt hbody => ?_
  have hp := hbody.respelled.forall_mem hts
  refine (expect_ensures hfinish hp).widen.andThen fun bang ts₁ hlt₁ h => ?_
  obtain ⟨hbang, rfl, hp₁⟩ := h
  refine (errorFilters_ensures hexpr ts₁ (by omega) hp₁).widen.andThen
    fun filters afterFilters hfiltersLt hfilters => ?_
  have hp := hfilters.respelled.forall_mem hp₁
  refine (expect_ensures hfinish hp).widen.andThen fun arrow ts₂ hlt₂ h => ?_
  obtain ⟨harrow, rfl, hp₂⟩ := h
  refine (hexpr ts₂ (by omega) hp₂).widen.andThen fun alternative rest _ halternative => ?_
  apply Ensures.map
  refine ((expect_ensures hfinish (halternative.respelled.forall_mem hp₂)).mono
    fun quote rest' _ h => ?_).widen
  obtain ⟨hquote, rfl, _⟩ := h
  exact .recover hkind ht hbang harrow hquote hbody hfilters halternative

theorem atom_ensures (ts : List Token) (hn : ts.length ≤ n) (hts : ∀ t ∈ ts, P t) :
    (atom finish ts).Ensures (IsRead P 9 ts) (Blames P) := by
  cases ts with
  | nil =>
    rw [atom]
    exact ensures_error (unmet_blames hfinish hts (by decide))
  | cons t ts =>
    obtain ⟨ht, hrest⟩ := List.forall_mem_cons.mp hts
    cases hkind : t.kind with
    | identifier =>
      rw [atom, hkind]
      exact callTail_ensures hfinish hexpr rfl (Nat.le_of_lt hn) ht hts
        (isRead_identifier hkind ht)
    | integer | float | string =>
      rw [atom, hkind]
      dsimp only
      cases hvalue : Syntax.literalValue? t with
      | none => exact ensures_error ⟨ht, fun _ => hvalue⟩
      | some value =>
        have hobject := Syntax.ne_object_of_literalValue? hvalue
        exact ensures_keep (isRead_literal (.inl hvalue) hobject ht)
    | keyword k =>
      cases k with
      | true_ =>
        rw [atom, hkind]
        exact ensures_keep (isRead_literal (.inr (.inl ⟨hkind, rfl⟩)) (by rintro _ ⟨⟩) ht)
      | false_ =>
        rw [atom, hkind]
        exact ensures_keep (isRead_literal (.inr (.inr (.inl ⟨hkind, rfl⟩))) (by rintro _ ⟨⟩) ht)
      | _ =>
        rw [atom, hkind]
        exact ensures_error (unmet_blames hfinish hts (by decide))
    | symbol s =>
      cases s with
      | leftParen => exact grouping_ensures hfinish hexpr hkind hn ht hrest
      | leftBracket =>
        exact (range_ensures hfinish hexpr hkind hn ht hrest).mono fun e rest _ h => h.2
      | backtick => exact recover_ensures hfinish hexpr hkind hn ht hrest
      | leftBrace =>
        rw [atom, hkind]
        apply Ensures.map
        refine ((listTail_ensures hfinish hexpr (.inl rfl) ts hn hrest).mono
          fun es rest _ hes => ?_).widen
        exact hes.list hkind ht
      | hash =>
        rw [atom, hkind]
        apply Ensures.map
        exact (objectNumber_ensures hfinish hkind hts).widen
      | dollar =>
        rw [atom, hkind]
        refine (expect_ensures hfinish hrest).widen.andThen fun name rest hlt h => ?_
        obtain ⟨hname, rfl, hafter⟩ := h
        have hlen : rest.length ≤ n := Nat.le_of_lt (Nat.lt_of_lt_of_le hlt hn)
        exact systemTail_ensures hfinish hexpr hkind hname hlen ht hafter
      | _ =>
        rw [atom, hkind]
        exact ensures_error (unmet_blames hfinish hts (by decide))
    | comment | eof =>
      rw [atom, hkind]
      exact ensures_error (unmet_blames hfinish hts (by decide))

end

section

variable (hfinish : P finish) (hexpr : SoundBelow P finish n)
include hfinish hexpr

theorem verbTail_ensures (before : List Token) (object : Expr) (ts : List Token)
    (hn : ts.length ≤ n) (hbefore : ∀ t ∈ before, P t) (h : object.IsRead P 8 before ts) :
    (verbTail finish object ts).Ensures (IsRead P 8 before) (Blames P) := by
  match ts, hn, h with
  | [], _, h =>
    rw [verbTail]
    exact ensures_keep h
  | t :: ts, hn, h =>
    rw [verbTail]
    split
    · obtain ⟨ht, hts⟩ := List.forall_mem_cons.mp (h.respelled.forall_mem hbefore)
      apply Ensures.widen
      refine (expect_ensures hfinish hts).widen.andThen fun name rest hlt hname => ?_
      obtain ⟨hname, rfl, hrest⟩ := hname
      have hlen : rest.length ≤ n := Nat.le_of_lt (Nat.lt_of_lt_of_le hlt hn)
      refine (arguments_ensures hfinish hexpr rest hlen hrest).widen.andThen
        fun args rest' hlt' hargs => ?_
      exact verbTail_ensures before _ rest' (by omega) hbefore (h.verbCall ‹_› hname ht hargs)
    · exact ensures_keep h
termination_by ts.length

theorem primary_ensures (ts : List Token) (hn : ts.length ≤ n) (hts : ∀ t ∈ ts, P t) :
    (primary finish ts).Ensures (IsRead P 8 ts) (Blames P) := by
  rw [primary]
  refine (atom_ensures hfinish hexpr ts hn hts).andThen fun object rest hlt h => ?_
  have hlen : rest.length ≤ n := by omega
  exact verbTail_ensures hfinish hexpr ts object rest hlen hts (h.mono (by decide))

theorem unary_ensures (ts : List Token) (hn : ts.length ≤ n) (hts : ∀ t ∈ ts, P t) :
    (unary finish ts).Ensures (IsRead P 7 ts) (Blames P) := by
  have hprimary : (primary finish ts).Ensures (IsRead P 7 ts) (Blames P) :=
    (primary_ensures hfinish hexpr ts hn hts).mono fun e rest _ h => h.mono (by decide)
  induction ts with
  | nil =>
    rw [unary]
    exact hprimary
  | cons t ts ih =>
    rw [unary]
    split
    · exact hprimary
    · rename_i op hop
      obtain ⟨ht, hrest⟩ := List.forall_mem_cons.mp hts
      have hlen : ts.length ≤ n := Nat.le_of_lt hn
      apply Ensures.map
      refine ((ih hlen hrest ?_).mono fun e rest _ h => ?_).widen
      · exact (primary_ensures hfinish hexpr ts hlen hrest).mono
          fun e rest _ h => h.mono (by decide)
      · exact h.unary (unaryOperator?_eq_some_iff.mp hop) ht

omit hexpr in
theorem propertyTail_ensures (before : List Token) (object : Expr) (ts : List Token)
    (hbefore : ∀ t ∈ before, P t) (h : object.IsRead P 6 before ts) :
    (propertyTail finish object ts).Ensures (IsRead P 6 before) (Blames P) := by
  match ts, h with
  | [], h =>
    rw [propertyTail]
    exact ensures_keep h
  | t :: ts, h =>
    rw [propertyTail]
    split
    · obtain ⟨ht, hts⟩ := List.forall_mem_cons.mp (h.respelled.forall_mem hbefore)
      apply Ensures.widen
      refine (expect_ensures hfinish hts).widen.andThen fun name rest hlt hname => ?_
      obtain ⟨hname, rfl, _⟩ := hname
      exact propertyTail_ensures before _ rest hbefore (h.property ‹_› hname ht)
    · exact ensures_keep h
termination_by ts.length

theorem property_ensures (ts : List Token) (hn : ts.length ≤ n) (hts : ∀ t ∈ ts, P t) :
    (property finish ts).Ensures (IsRead P 6 ts) (Blames P) := by
  rw [property]
  refine (unary_ensures hfinish hexpr ts hn hts).andThen fun object rest _ h => ?_
  exact propertyTail_ensures hfinish ts object rest hts (h.mono (by decide))

end

section

variable {level : Level}
  (hoperand : ∀ ts : List Token, ts.length ≤ n → (∀ t ∈ ts, P t) →
    (operand finish level ts).Ensures (IsRead P (level.tier + 1) ts) (Blames P))
include hoperand

theorem chainTail_ensures (before : List Token) (left : Expr) (ts : List Token)
    (hn : ts.length ≤ n) (hbefore : ∀ t ∈ before, P t) (h : left.IsRead P level.tier before ts) :
    (chainTail finish level left ts).Ensures (IsRead P level.tier before) (Blames P) := by
  match ts, hn, h with
  | [], _, h =>
    rw [chainTail]
    exact ensures_keep h
  | t :: ts, hn, h =>
    rw [chainTail]
    split
    · exact ensures_keep h
    · rename_i op hop
      obtain ⟨ht, hts⟩ := List.forall_mem_cons.mp (h.respelled.forall_mem hbefore)
      have hlen : ts.length ≤ n := Nat.le_of_lt hn
      apply Ensures.widen
      refine (hoperand ts hlen hts).widen.andThen fun right rest hlt hright => ?_
      exact chainTail_ensures before _ rest (by omega) hbefore (.binary hop ht h hright)
termination_by ts.length

theorem chain_ensures_of_operand (ts : List Token) (hn : ts.length ≤ n) (hts : ∀ t ∈ ts, P t) :
    (chain finish level ts).Ensures (IsRead P level.tier ts) (Blames P) := by
  rw [chain]
  refine (hoperand ts hn hts).andThen fun left rest hlt hleft => ?_
  have hlen : rest.length ≤ n := by omega
  exact chainTail_ensures hoperand ts left rest hlen hts (hleft.mono (Nat.le_succ _))

end

/-- From the tightest level to the loosest. -/
theorem operand_ensures (hfinish : P finish) (hexpr : SoundBelow P finish n) (level : Level)
    (ts : List Token) (hn : ts.length ≤ n) (hts : ∀ t ∈ ts, P t) :
    (operand finish level ts).Ensures (IsRead P (level.tier + 1) ts) (Blames P) := by
  rw [operand]
  split
  · rename_i next hnext
    rw [← Level.tier_tighter hnext]
    exact chain_ensures_of_operand (operand_ensures hfinish hexpr next) ts hn hts
  · rw [Level.tier_of_not_tighter ‹_›]
    exact property_ensures hfinish hexpr ts hn hts
termination_by level.rank
decreasing_by
  have := Level.rank_tighter ‹_›
  omega

theorem assignmentTail_ensures (hexpr : SoundBelow P finish n) {before : List Token} {left : Expr}
    {ts : List Token} (hn : ts.length ≤ n) (hbefore : ∀ t ∈ before, P t)
    (h : left.IsRead P 1 before ts) :
    (assignmentTail finish left ts).Ensures (IsRead P 0 before) (Blames P) := by
  have hkeep : left.IsRead P 0 before ts := h.mono (Nat.zero_le 1)
  cases ts with
  | nil =>
    rw [assignmentTail]
    exact ensures_keep hkeep
  | cons t ts =>
    rw [assignmentTail]
    split
    · split
      · obtain ⟨ht, hts⟩ := List.forall_mem_cons.mp (h.respelled.forall_mem hbefore)
        apply Ensures.widen
        apply Ensures.map
        refine ((hexpr ts hn hts).mono fun right rest _ hright => ?_).widen
        exact .assign ‹_› ‹_› ht h hright
      · exact ensures_error ⟨h.kept _ left.token_mem_tokens, False.elim⟩
    · exact ensures_keep hkeep

theorem soundBelow (hfinish : P finish) (n : Nat) : SoundBelow P finish n := by
  induction n with
  | zero => exact fun ts hn => absurd hn (Nat.not_lt_zero _)
  | succ n ih =>
    intro ts hn hts
    have hn : ts.length ≤ n := Nat.le_of_lt_succ hn
    -- Inside an atom and behind an equals sign there are fewer tokens, to which `ih` applies.
    rw [expr]
    refine (chain_ensures_of_operand (operand_ensures hfinish ih .disjunction) ts hn hts).andThen
      fun left rest hlt hleft => ?_
    have hlen : rest.length ≤ n := by omega
    exact assignmentTail_ensures ih hlen hts hleft

theorem expr_blames (hfinish : P finish) {ts : List Token} (hts : ∀ t ∈ ts, P t) :
    (expr finish ts).Ensures (IsRead P 0 ts) (Blames P) :=
  soundBelow hfinish (ts.length + 1) ts (Nat.lt_succ_self _) hts

theorem expr_ensures (hfinish : P finish) {ts : List Token} (hts : ∀ t ∈ ts, P t) :
    (expr finish ts).Ensures (IsRead P 0 ts) (P ·.token) :=
  (expr_blames hfinish hts).mono_error fun _ h => h.token

end Grammar
end MooScript
