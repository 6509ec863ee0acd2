import MooScript.Interpreter
import MooScript.Proofs.Literal.Evaluation
import MooScript.Proofs.Literal.Scan
import MooScript.Proofs.Syntax.Floats
import MooScript.Value.Literal

/-! Literals read back: what the literal of a value is lexed, parsed and evaluated to. -/
namespace MooScript

open Lexer

namespace Value

mutual

/-- Booleans, integers, strings, objects, errors and lists of these. -/
def Plain : Value → Prop
  | boolean _ | integer _ | string _ | object _ | error _ => True
  | list items => AllPlain items
  | float _ | character _ | returned _ => False

def AllPlain : List Value → Prop
  | [] => True
  | value :: items => value.Plain ∧ AllPlain items

end

mutual

/-- What the literal of a value is read back as. The least integer is the negation of a number that
is no integer, but a double. -/
def reread : Value → Value
  | integer n =>
    if n = Int64.minValue then float (Binary64.negate (Decimal.nearest (2 ^ 63) 0)) else integer n
  | string s => string (String.ofList (s.toList.flatMap Text.reread))
  | list items => list (rereadAll items)
  | value => value

def rereadAll : List Value → List Value
  | [] => []
  | value :: items => value.reread :: rereadAll items

end

mutual

/-- At no depth there is the least integer or a character that is escaped by its number. -/
def Faithful : Value → Prop
  | integer n => n ≠ Int64.minValue
  | string s => ∀ c ∈ s.toList, Text.isNumbered c = false
  | list items => AllFaithful items
  | _ => True

def AllFaithful : List Value → Prop
  | [] => True
  | value :: items => value.Faithful ∧ AllFaithful items

end

mutual

theorem reread_eq_self_iff (v : Value) : v.reread = v ↔ v.Faithful := by
  cases v with
  | integer n =>
    rw [reread, Faithful]
    split
    · exact iff_of_false (fun h => by cases h) fun h => h ‹_›
    · exact iff_of_true rfl ‹_›
  | string s =>
    rw [reread, Faithful, string.injEq, ← String.toList_inj, String.toList_ofList,
      Text.flatMap_reread_eq_self_iff]
  | list items =>
    rw [reread, Faithful, list.injEq]
    exact rereadAll_eq_self_iff items
  | _ => exact iff_of_true (by rw [reread] <;> simp) trivial

theorem rereadAll_eq_self_iff (vs : List Value) : rereadAll vs = vs ↔ AllFaithful vs := by
  cases vs with
  | nil => exact iff_of_true rfl trivial
  | cons v vs =>
    rw [rereadAll, AllFaithful, List.cons.injEq]
    exact and_congr (reread_eq_self_iff v) (rereadAll_eq_self_iff vs)

end

end Value

/-- The expression has the words of the value's literal, and evaluates to what that is read back
as. -/
structure Value.Rereads (v : Value) (e : Expr) : Prop where
  conformant : e.Conformant
  scans : Scans v.literal.toList e.words
  evaluates : e.Evaluates v.reread

namespace Value

variable {v : Value} {vs : List Value} {e : Expr} {es : List Expr}

/-! ### Numbers -/

/-- The value of digits: from the bound of integers on it is a double. -/
def ofDigits (n : ℕ) : Value :=
  if n < 2 ^ 63 then integer (Int64.ofInt n) else float (Decimal.nearest n 0)

/-- The word of a number without a sign. -/
def digitsWord (n : ℕ) : Word :=
  ⟨numberKind (toString n).toList, some (toString n)⟩

theorem isDigits_toString (n : ℕ) : IsDigits (toString n).toList := by
  rw [Decimal.toList_toString]
  exact ⟨Nat.toDigits_ne_nil, fun c hc => Nat.isDigit_of_mem_toDigits (by decide) (by decide) hc⟩

theorem isInteger_toString {n : ℕ} : IsInteger (toString n).toList ↔ n < 2 ^ 63 := by
  constructor
  · intro h
    have hsmall := h.small
    rwa [Decimal.digitsValue_toString] at hsmall
  · intro h
    exact ⟨isDigits_toString n, by rwa [Decimal.digitsValue_toString]⟩

theorem readInt64?_toString {n : ℕ} (h : n < 2 ^ 63) :
    Decimal.readInt64? (toString n) = some (Int64.ofInt n) := by
  have hmin : Int64.minValue.toInt = -9223372036854775808 := by decide
  have hmax : Int64.maxValue.toInt = 9223372036854775807 := by decide
  rw [Decimal.readInt64?, Decimal.readInteger?_toString, Option.bind_some, Word.int64?, hmin, hmax,
    if_pos (by omega)]

theorem readFloat?_toString (n : ℕ) :
    Decimal.readFloat? (toString n) = some (Decimal.nearest n 0) := by
  have hread := Decimal.readFloat?_of_isNumber (.inl (isDigits_toString n))
  rwa [Decimal.ofNumber_of_isDigits (isDigits_toString n), Decimal.digitsValue_toString,
    String.ofList_toList] at hread

theorem digitsWord_of_lt {n : ℕ} (h : n < 2 ^ 63) :
    digitsWord n = ⟨.integer, some (toString n)⟩ := by
  rw [digitsWord, numberKind_of_isInteger (isInteger_toString.mpr h)]

theorem literalValue?_digitsWord (n : ℕ) :
    Syntax.literalValue? (digitsWord n).token = some (ofDigits n) := by
  by_cases hn : n < 2 ^ 63
  · rw [digitsWord_of_lt hn, ofDigits, if_pos hn]
    exact congrArg (Option.map integer) (readInt64?_toString hn)
  · have hkind : (digitsWord n).token.kind = .float :=
      numberKind_of_not_isInteger (fun h => hn (isInteger_toString.mp h))
        (isDigits_toString n).nonempty
    rw [Syntax.literalValue?, hkind, ofDigits, if_neg hn]
    exact congrArg (Option.map float) (readFloat?_toString n)

/-- Digits, behind a minus if the number is negative. -/
theorem scans_toString (n : ℤ) (text? : Option String) : Scans (toString n).toList
    (if n < 0 then [⟨.symbol .minus, text?⟩, digitsWord n.natAbs] else [digitsWord n.natAbs]) := by
  have hdigits : ∀ k : ℕ, Scans (toString k).toList [digitsWord k] := fun k => by
    have hscans := scans_number (isDigits_toString k)
    rwa [String.ofList_toList] at hscans
  cases n with
  | ofNat k => exact hdigits k
  | negSucc k =>
    have htext : (toString (Int.negSucc k)).toList = '-' :: (toString (k + 1)).toList :=
      String.toList_append
    rw [if_pos (Int.negSucc_lt_zero k), htext]
    exact .symbol (fun cs => rfl) rfl (hdigits (k + 1))

theorem isError_ofDigits (n : ℕ) : (ofDigits n).isError = false := by
  rw [ofDigits]
  split <;> rfl

/-- An integer is read back as its digits are, negated if it is negative. -/
theorem reread_integer (n : Int64) : (integer n).reread =
    if n.toInt < 0 then (ofDigits n.toInt.natAbs).applyUnary .neg else ofDigits n.toInt.natAbs := by
  have hlo : -2 ^ 63 ≤ n.toInt := n.le_toInt
  have hhi : n.toInt < 2 ^ 63 := n.toInt_lt
  by_cases hmin : n = Int64.minValue
  · have hint : n.toInt = -2 ^ 63 := by rw [hmin]; rfl
    have hnatAbs : n.toInt.natAbs = 2 ^ 63 := by rw [hint]; rfl
    rw [if_pos (by omega), hnatAbs, ofDigits, if_neg (Nat.lt_irrefl _), reread, if_pos hmin]
    rfl
  · have hne : n.toInt ≠ -2 ^ 63 := fun h => hmin (Int64.toInt_inj.mp h)
    have hsmall : n.toInt.natAbs < 2 ^ 63 := by omega
    rw [reread, if_neg hmin, ofDigits, if_pos hsmall]
    split
    · have hneg : -Int64.ofInt n.toInt.natAbs = n := by
        rw [← Int64.ofInt_neg, show -(n.toInt.natAbs : ℤ) = n.toInt by omega, Int64.ofInt_toInt]
      exact congrArg integer hneg.symm
    · rw [show (n.toInt.natAbs : ℤ) = n.toInt by omega, Int64.ofInt_toInt]

theorem rereads_integer (n : Int64) : ∃ e, Rereads (integer n) e := by
  let size := ofDigits n.toInt.natAbs
  let digits : Expr := .literal size (digitsWord n.toInt.natAbs).token
  have hvalue : Syntax.literalValue? (digitsWord n.toInt.natAbs).token = some size :=
    literalValue?_digitsWord _
  have hwords : digits.words = [digitsWord n.toInt.natAbs] :=
    Expr.words_literal (Syntax.ne_object_of_literalValue? hvalue)
  have hscans := scans_toString n.toInt (some "-")
  have hreread := reread_integer n
  have hdigits : digits.Evaluates size := Expr.evaluates_literal
  by_cases hn : n.toInt < 0
  · -- Of a negative integer the minus is a token of its own, an operator.
    rw [if_pos hn] at hscans hreread
    refine ⟨.unary .neg digits (Kind.symbol .minus).token, ⟨?_, .inl hvalue⟩, ?_, ?_⟩
    · exact (by decide : 7 ≤ 9)
    · rw [Expr.words, hwords]
      exact hscans
    · rw [hreread]
      exact hdigits.neg (isError_ofDigits _)
  · rw [if_neg hn] at hscans hreread
    exact ⟨digits, .inl hvalue, hwords ▸ hscans, hreread ▸ hdigits⟩

/-! ### The other values -/

theorem rereads_boolean (b : Bool) : ∃ e, Rereads (boolean b) e := by
  cases b with
  | true =>
    refine ⟨.literal (.boolean true) (Kind.keyword .true_).token, .inr (.inl ⟨rfl, rfl⟩), ?_,
      Expr.evaluates_literal⟩
    have hscans := scans_word (Keyword.isWord .true_)
    rwa [wordKind_of_eq rfl] at hscans
  | false =>
    refine ⟨.literal (.boolean false) (Kind.keyword .false_).token, .inr (.inr (.inl ⟨rfl, rfl⟩)),
      ?_, Expr.evaluates_literal⟩
    have hscans := scans_word (Keyword.isWord .false_)
    rwa [wordKind_of_eq rfl] at hscans

theorem rereads_string (s : String) : ∃ e, Rereads (string s) e := by
  have hvalue : Syntax.literalValue? (Word.token ⟨.string, some (Text.quoted s)⟩) =
      some (string s).reread := by
    rw [reread, ← Text.stringValue_quoted]
    rfl
  exact ⟨.literal (string s).reread _, .inl hvalue, scans_quoted s, Expr.evaluates_literal⟩

theorem rereads_object (id : ObjectId) : ∃ e, Rereads (object id) e := by
  refine ⟨.literal (.object id) (Kind.symbol .hash).token, .inr (.inr (.inr ⟨rfl, id, rfl⟩)), ?_,
    Expr.evaluates_literal⟩
  have hlo : -2147483648 ≤ id.toInt := id.le_toInt
  have hhi : id.toInt < 2147483648 := id.toInt_lt
  have htext : (object id).literal.toList = '#' :: (toString id.toInt).toList :=
    String.toList_append
  have hscans := scans_toString id.toInt none
  rw [digitsWord_of_lt (by omega)] at hscans
  rw [htext]
  exact .symbol (fun cs => rfl) rfl hscans

theorem isWord_name (code : ErrorCode) : IsWord code.name.toList := by
  cases code <;> simp [ErrorCode.name, IsWord, isWordStart, isWordChar]

/-- No keyword begins in upper case. -/
theorem wordKind_name (code : ErrorCode) : wordKind code.name.toList = .identifier := by
  refine wordKind_of_ne fun k hk => ?_
  have hname : code.name.toList.head? = some 'E' := by
    cases code <;> simp [ErrorCode.name]
  have hkeyword : k.text.toList.head? ≠ some 'E' := by
    cases k <;> simp [Keyword.text]
  exact hkeyword (hk ▸ hname)

theorem rereads_error (code : ErrorCode) : ∃ e, Rereads (error code) e := by
  have hscans := scans_word (isWord_name code)
  rw [wordKind_name, String.ofList_toList] at hscans
  exact ⟨.identifier code.name .erased, trivial, hscans, Expr.evaluates_name code⟩

/-! ### Lists -/

theorem allConformant_of_rereads (h : List.Forall₂ Rereads vs es) : Expr.AllConformant es := by
  induction h with
  | nil => trivial
  | cons h _ ih => exact ⟨h.conformant, ih⟩

theorem evaluateAll_of_rereads (h : List.Forall₂ Rereads vs es) :
    Expr.EvaluateAll es (rereadAll vs) := by
  induction h with
  | nil => exact Expr.evaluateAll_nil
  | cons h _ ih => exact h.evaluates.cons ih

/-- The elements of a list, with what stands between them. -/
theorem scans_of_rereads (h : List.Forall₂ Rereads vs es) :
    Scans (", ".intercalate (literals vs)).toList (Expr.wordsAll es) := by
  induction h with
  | nil => exact scans_nil
  | @cons v e vs es h hrest ih =>
    cases hrest with
    | nil =>
      have hwords : Expr.wordsAll [e] = e.words := List.append_nil e.words
      rw [hwords, literals, literals, String.intercalate_singleton]
      exact h.scans
    | @cons v' e' vs es h' hrest =>
      have htext : (", ".intercalate (literals (v :: v' :: vs))).toList =
          v.literal.toList ++ ',' :: ' ' :: (", ".intercalate (literals (v' :: vs))).toList := by
        rw [literals, literals, String.intercalate_cons_cons, String.toList_append,
          String.toList_append, List.append_assoc]
        rfl
      rw [htext]
      -- The comma belongs to what follows it, and separates the element in front.
      refine h.scans.append ?_ fun rest _ => separates_comma _
      exact .symbol (fun cs => rfl) rfl (ih.blank rfl)

theorem rereads_list (h : List.Forall₂ Rereads vs es) : Rereads (list vs) (.list es .erased) where
  conformant := allConformant_of_rereads h
  scans := by
    have htext : (list vs).literal.toList =
        '\x7b' :: ((", ".intercalate (literals vs)).toList ++ ['\x7d']) := by
      rw [literal, String.toList_append, String.toList_append, List.append_assoc]
      rfl
    rw [htext]
    have hclose : Scans ['\x7d'] [.symbol .rightBrace] :=
      .symbol (fun cs => rfl) rfl scans_nil
    exact .symbol (fun cs => rfl) rfl
      ((scans_of_rereads h).append hclose fun rest _ => separates_brace _)
  evaluates := (evaluateAll_of_rereads h).list

mutual

/-- By induction on the value, for it and for lists of values. -/
theorem Plain.rereads (v : Value) (h : v.Plain) : ∃ e, Rereads v e := by
  cases v with
  | boolean b => exact rereads_boolean b
  | integer n => exact rereads_integer n
  | string s => exact rereads_string s
  | object id => exact rereads_object id
  | error code => exact rereads_error code
  | list vs =>
    obtain ⟨es, hes⟩ := AllPlain.rereads vs h
    exact ⟨.list es .erased, rereads_list hes⟩
  | float | character | returned => cases h

theorem AllPlain.rereads (vs : List Value) (h : AllPlain vs) :
    ∃ es, List.Forall₂ Rereads vs es := by
  cases vs with
  | nil => exact ⟨[], .nil⟩
  | cons v vs =>
    obtain ⟨e, he⟩ := Plain.rereads v h.1
    obtain ⟨es, hes⟩ := AllPlain.rereads vs h.2
    exact ⟨e :: es, .cons he hes⟩

end

end Value

/-- Tokens that spell a conformant expression are parsed to it. -/
theorem Expr.exists_parse {e : Expr} {tokens : List Token} (he : e.Conformant)
    (h : Spelled tokens e.words []) : ∃ e', Expr.parse tokens = .ok e' ∧ e'.bare = e.bare := by
  have hvoiced := h.isVoiced (e.voiced_words he) (List.forall_mem_nil _)
  have hfilter : tokens.filter (·.kind != .comment) = tokens := by
    refine List.filter_eq_self.mpr fun t ht => bne_iff_ne.mpr fun hkind => ?_
    have hkinds := hvoiced t ht
    rw [hkind] at hkinds
    cases hkinds
  have hspelled : Spelled (Grammar.input tokens).1 e.words [] := by
    rw [Grammar.input_of_spelled (e.voiced_words he) (hfilter.symm ▸ h), hfilter]
    exact h
  obtain ⟨e', hbare, hyields⟩ := e.parses he _ [] hspelled Grammar.stops_nil
  exact ⟨e', Expr.parse_eq_ok hyields, hbare⟩

namespace Interpreter

variable {v : Value}

/-- Where every error goes by its name, a literal is read back and nothing changes. -/
theorem evalSource_of_plain {i : Interpreter} (hi : i.machine.environment.NamesErrors)
    (h : v.Plain) : i.evalSource v.literal = (.ok v.reread, i) := by
  obtain ⟨e, he⟩ := h.rereads
  obtain ⟨tokens, hscan, hspelled⟩ := he.scans .start [] [] separates_nil (scan_nil _)
  rw [List.append_nil] at hscan
  obtain ⟨e', hparse, hbare⟩ := Expr.exists_parse he.conformant hspelled
  have hlex : Token.lex v.literal = .ok tokens := hscan
  have hsource : Expr.ofSource v.literal = .ok e' := by
    rw [Expr.ofSource, hlex]
    exact congrArg (Except.mapError Failure.syntactic) hparse
  rw [evalSource, hsource]
  dsimp only
  rw [eval, he.evaluates e' hbare i.host i.machine hi]
  rfl

/-- A fresh interpreter evaluates the literal of a value to what it is read back as: to the value
itself if that holds neither the least integer nor a character that is escaped by its number, and
only then. -/
theorem evalSource_literal (h : v.Plain) (n : ℕ) :
    (fresh n).evalSource v.literal = (.ok v.reread, fresh n) ∧
      ((fresh n).evalSource v.literal = (.ok v, fresh n) ↔ v.Faithful) := by
  have heval := evalSource_of_plain (i := fresh n) Environment.namesErrors_initial h
  refine ⟨heval, ?_⟩
  rw [heval, ← Value.reread_eq_self_iff]
  constructor
  · exact fun heq => Except.ok.inj (Prod.mk.inj heq).1
  · intro heq
    rw [heq]

/-- Escapes that are known, the outermost integers that are read back, and a list in a list. -/
theorem evalSource_literal_nested :
    let v : Value := .list [.integer (-9223372036854775807), .string "\x22\\\n",
      .list [.error .type, .object (-7)], .integer Int64.maxValue]
    v.Plain ∧ (fresh 0).evalSource v.literal = (.ok v.reread, fresh 0) ∧
      ((fresh 0).evalSource v.literal = (.ok v, fresh 0) ↔ v.Faithful) := by
  intro v
  have hplain : v.Plain := ⟨trivial, trivial, ⟨trivial, trivial, trivial⟩, trivial, trivial⟩
  exact ⟨hplain, evalSource_literal hplain 0⟩

/-- The least integer becomes a double, and a character that is escaped by its number a text. -/
theorem evalSource_literal_ne :
    let least : Value := .integer Int64.minValue
    let control : Value := .string "\x01"
    ((fresh 0).evalSource least.literal).1 ≠ .ok least ∧
      ((fresh 0).evalSource control.literal).1 ≠ .ok control := by
  intro least control
  have hne : ∀ v : Value, v.Plain → ¬ v.Faithful → ((fresh 0).evalSource v.literal).1 ≠ .ok v := by
    intro v hplain hfaithful heq
    rw [evalSource_of_plain (i := fresh 0) Environment.namesErrors_initial hplain] at heq
    exact hfaithful ((Value.reread_eq_self_iff v).mp (Except.ok.inj heq))
  refine ⟨hne least trivial fun h => h rfl, hne control trivial fun h => ?_⟩
  have hmem : '\x01' ∈ "\x01".toList := by simp
  have hnumbered : Text.isNumbered '\x01' = true := by decide +kernel
  exact Bool.false_ne_true ((h _ hmem).symm.trans hnumbered)

end Interpreter
end MooScript
