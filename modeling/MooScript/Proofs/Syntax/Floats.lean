import MooScript.Proofs.Decimal.Digits
import MooScript.Proofs.Decimal.Nearest
import MooScript.Proofs.Lexing.Scan
import MooScript.Proofs.Syntax.Completeness.Program
import MooScript.Proofs.Syntax.Tally

/-! Which sources have floats that are not finite: those with a number from the overflow bound
on. -/
namespace MooScript

open Lexer

namespace Decimal

/-- The number that digits with at most a point among them denote. -/
def ofNumber (text : List Char) : Decimal :=
  let whole := text.takeWhile Char.isDigit
  let fraction := (text.dropWhile Char.isDigit).drop 1
  ⟨digitsValue (whole ++ fraction), -fraction.length⟩

theorem ofNumber_of_isDigits {text : List Char} (h : IsDigits text) :
    ofNumber text = ⟨digitsValue text, 0⟩ := by
  rw [ofNumber, List.takeWhile_eq_self_iff.mpr h.digits, List.dropWhile_eq_nil_iff.mpr h.digits,
    List.drop_nil, List.append_nil]
  rfl

theorem toLower_of_isDigit {c : Char} (h : c.isDigit = true) : c.toLower = c := by
  simp only [Char.isDigit, Bool.and_eq_true, decide_eq_true_eq, UInt32.le_iff_toNat_le] at h
  unfold Char.toLower
  split
  next hupper =>
    have hle := UInt32.le_iff_toNat_le.mp hupper.1
    simp at hle h
    omega
  next => rfl

/-- Only digits begin a number, so that no word is one. -/
theorem map_toLower_ne {c : Char} {cs word : List Char} {d : Char} (h : c.isDigit = true)
    (hd : d.isDigit = false) :
    String.ofList ((c :: cs).map Char.toLower) ≠ String.ofList (d :: word) := by
  intro heq
  have hlist := String.ofList_injective heq
  rw [List.map_cons, toLower_of_isDigit h] at hlist
  have hhead := (List.cons.inj hlist).1
  rw [hhead, hd] at h
  cases h

theorem readUnsigned?_of_isDigits {text : List Char} (h : IsDigits text) :
    readUnsigned? text = some (nearest (digitsValue text) 0) := by
  have htake : text.takeWhile Char.isDigit = text := List.takeWhile_eq_self_iff.mpr h.digits
  have hdrop : text.dropWhile Char.isDigit = [] := List.dropWhile_eq_nil_iff.mpr h.digits
  have hne : text.isEmpty = false := List.isEmpty_eq_false_iff.mpr h.nonempty
  have hexponent : readExponent? [] = some 0 := rfl
  simp only [readUnsigned?, htake, hdrop, hne, hexponent, Bool.false_and, Bool.false_eq_true,
    if_false, List.append_nil, Option.bind_eq_bind, Option.bind_some]
  rfl

section Point

variable {whole fraction : List Char} (hwhole : IsDigits whole)

include hwhole

theorem takeWhile_of_point : (whole ++ '.' :: fraction).takeWhile Char.isDigit = whole := by
  rw [List.takeWhile_append_of_pos hwhole.digits]
  exact List.append_nil whole

theorem dropWhile_of_point :
    (whole ++ '.' :: fraction).dropWhile Char.isDigit = '.' :: fraction :=
  List.dropWhile_append_of_pos hwhole.digits

theorem ofNumber_of_point :
    ofNumber (whole ++ '.' :: fraction) =
      ⟨digitsValue (whole ++ fraction), -fraction.length⟩ := by
  rw [ofNumber, takeWhile_of_point hwhole, dropWhile_of_point hwhole, List.drop_one,
    List.tail_cons]

theorem readUnsigned?_of_point (hfraction : IsDigits fraction) :
    readUnsigned? (whole ++ '.' :: fraction) =
      some (nearest (digitsValue (whole ++ fraction)) (-fraction.length)) := by
  have htake : fraction.takeWhile Char.isDigit = fraction :=
    List.takeWhile_eq_self_iff.mpr hfraction.digits
  have hdrop : fraction.dropWhile Char.isDigit = [] :=
    List.dropWhile_eq_nil_iff.mpr hfraction.digits
  have hne : whole.isEmpty = false := List.isEmpty_eq_false_iff.mpr hwhole.nonempty
  have hexponent : readExponent? [] = some 0 := rfl
  simp only [readUnsigned?, takeWhile_of_point hwhole, dropWhile_of_point hwhole, htake, hdrop, hne,
    hexponent, Bool.false_and, Bool.false_eq_true, if_false, Option.bind_eq_bind,
    Option.bind_some, zero_sub]

end Point

theorem readUnsigned?_of_isNumber {text : List Char} (h : IsNumber text) :
    readUnsigned? text = some (nearest (ofNumber text).digits (ofNumber text).exponent) := by
  rcases h with hdigits | ⟨whole, fraction, rfl, hwhole, hfraction⟩
  · rw [readUnsigned?_of_isDigits hdigits, ofNumber_of_isDigits hdigits]
  · rw [readUnsigned?_of_point hwhole hfraction, ofNumber_of_point hwhole]

/-- A number without a sign or an exponent is read as the nearest double. -/
theorem readFloat?_of_isNumber {text : List Char} (h : IsNumber text) :
    readFloat? (String.ofList text) =
      some (nearest (ofNumber text).digits (ofNumber text).exponent) := by
  obtain ⟨c, cs, rfl, hc⟩ := h.exists_cons
  have hinf : String.ofList ((c :: cs).map Char.toLower) ≠ "inf" :=
    map_toLower_ne hc (by decide : 'i'.isDigit = false)
  have hinfinity : String.ofList ((c :: cs).map Char.toLower) ≠ "infinity" :=
    map_toLower_ne hc (by decide : 'i'.isDigit = false)
  have hnan : String.ofList ((c :: cs).map Char.toLower) ≠ "nan" :=
    map_toLower_ne hc (by decide : 'n'.isDigit = false)
  simp only [readFloat?, String.toList_ofList, splitSign_cons hc, hinf, hinfinity, hnan,
    decide_false, Bool.or_self, if_false, readUnsigned?_of_isNumber h, Option.bind_eq_bind,
    Option.bind_some, Bool.false_eq_true]

end Decimal

/-- The number that a float token denotes. -/
def Token.decimal (t : Token) : Decimal := Decimal.ofNumber t.text.toList

variable {source : String} {tokens : List Token} {literals : List Value}

theorem Token.float?_eq_some_iff {t : Token} {x : Float} (hlex : Token.lex source = .ok tokens)
    (ht : t ∈ tokens) :
    t.float? = some x ↔
      t.kind = .float ∧ Decimal.nearest t.decimal.digits t.decimal.exponent = x := by
  have hlexeme : ∀ kind : Kind, kind.Lexeme t.text.toList ↔ t.kind = kind :=
    (scan_cut hlex).cover.kind t ht
  rw [Token.float?]
  split
  next hkind =>
    have hnumber : IsNumber t.text.toList := ((hlexeme .float).mpr hkind).1
    have hread := Decimal.readFloat?_of_isNumber hnumber
    rw [String.ofList_toList] at hread
    rw [hread, Option.some_inj]
    exact (and_iff_right hkind).symm
  next hkind =>
    refine iff_of_false (Option.some_ne_none x).symm ?_
    exact fun h => hkind h.1

/-- The literals, at any depth, of what a token list is parsed to, as a program or an expression. -/
def ParsesToLiterals (tokens : List Token) (literals : List Value) : Prop :=
  (∃ tree, Stmt.parse tokens = .ok tree ∧ tree.literals = literals) ∨
    ∃ e, Expr.parse tokens = .ok e ∧ e.literals = literals

theorem ParsesToLiterals.mem_float_iff (h : ParsesToLiterals tokens literals)
    (hlex : Token.lex source = .ok tokens) {x : Float} :
    .float x ∈ literals ↔ ∃ t ∈ tokens, t.kind = .float ∧
      Decimal.nearest t.decimal.digits t.decimal.exponent = x := by
  have hmem : ∀ t ∈ tokens, t.kind ≠ .eof := (scan_cut hlex).cover.no_end
  have hfloats : literals.filterMap Value.float? = tokens.filterMap Token.float? := by
    rcases h with ⟨tree, hparse, rfl⟩ | ⟨e, hparse, rfl⟩
    · exact Stmt.floats_of_parse hmem hparse
    · exact Expr.floats_of_parse hmem hparse
  have hvalue : .float x ∈ literals ↔ x ∈ literals.filterMap Value.float? := by
    rw [List.mem_filterMap]
    constructor
    · intro hx
      exact ⟨.float x, hx, rfl⟩
    · rintro ⟨value, hvalue, hx⟩
      cases value with
      | float y =>
        cases hx
        exact hvalue
      | _ => cases hx
  rw [hvalue, hfloats, List.mem_filterMap]
  constructor
  · rintro ⟨t, ht, hx⟩
    exact ⟨t, ht, (Token.float?_eq_some_iff hlex ht).mp hx⟩
  · rintro ⟨t, ht, hx⟩
    exact ⟨t, ht, (Token.float?_eq_some_iff hlex ht).mpr hx⟩

/-- A number that is no integer, alone in a source, is a literal of the nearest double. -/
theorem Expr.parse_number {text : List Char} (h : IsNumber text) (hi : ¬ IsInteger text) :
    ∃ tokens e, Token.lex (String.ofList text) = .ok tokens ∧ Expr.parse tokens = .ok e ∧
      e.literals = [.float
        (Decimal.nearest (Decimal.ofNumber text).digits (Decimal.ofNumber text).exponent)] := by
  obtain ⟨c, cs, rfl, -⟩ := h.exists_cons
  have hlex := lex_number h
  rw [numberKind_of_not_isInteger hi (List.cons_ne_nil c cs)] at hlex
  let number := Decimal.ofNumber (c :: cs)
  have hvalue : Syntax.literalValue? (tokenAt .start .float (c :: cs)) =
      some (.float (Decimal.nearest number.digits number.exponent)) :=
    congrArg (Option.map Value.float) (Decimal.readFloat?_of_isNumber h)
  exact ⟨_, _, hlex, Expr.parse_token hvalue, rfl⟩

/-- Float literals are finite or positive infinities, and all finite just if every number of the
source is less than half a unit in the last place above the largest finite double. -/
theorem ParsesToLiterals.isFinite_iff (hlex : Token.lex source = .ok tokens)
    (h : ParsesToLiterals tokens literals) :
    (∀ x, .float x ∈ literals → Binary64.isFinite x = true ∨ x = Binary64.infinity false) ∧
      ((∀ x, .float x ∈ literals → Binary64.isFinite x = true) ↔
        ∀ t ∈ tokens, t.kind = .float → t.decimal.toRat < Binary64.overflowBound 970) := by
  constructor
  · intro x hx
    obtain ⟨t, -, -, rfl⟩ := (h.mem_float_iff hlex).mp hx
    exact (Decimal.isFinite_nearest t.decimal).2
  · constructor
    · intro hall t ht hkind
      have hx := (h.mem_float_iff hlex).mpr ⟨t, ht, hkind, rfl⟩
      exact (Decimal.isFinite_nearest t.decimal).1.mp (hall _ hx)
    · intro hall x hx
      obtain ⟨t, ht, hkind, rfl⟩ := (h.mem_float_iff hlex).mp hx
      exact (Decimal.isFinite_nearest t.decimal).1.mpr (hall t ht hkind)

/-- The least number that is no integer any more. -/
theorem ParsesToLiterals.isFinite_iff_edge :
    ∃ tokens literals, Token.lex "9223372036854775808" = .ok tokens ∧
      ParsesToLiterals tokens literals ∧
      (∀ x, .float x ∈ literals → Binary64.isFinite x = true ∨ x = Binary64.infinity false) ∧
        ((∀ x, .float x ∈ literals → Binary64.isFinite x = true) ↔
          ∀ t ∈ tokens, t.kind = .float → t.decimal.toRat < Binary64.overflowBound 970) := by
  have hall : "9223372036854775808".toList.all Char.isDigit = true := by cbv
  have hdigits : IsDigits "9223372036854775808".toList :=
    ⟨by simp, List.all_eq_true.mp hall⟩
  have hfits : ("9223372036854775808".toList.all Char.isDigit &&
      (Word.int64? (Decimal.digitsValue "9223372036854775808".toList)).isSome) = false := by cbv
  have hlarge : ¬ IsInteger "9223372036854775808".toList := by
    rw [isInteger_iff hdigits.nonempty, hfits]
    exact Bool.false_ne_true
  obtain ⟨tokens, e, hlex, hparse, -⟩ := Expr.parse_number (.inl hdigits) hlarge
  have hliterals : ParsesToLiterals tokens e.literals := .inr ⟨e, hparse, rfl⟩
  exact ⟨tokens, e.literals, hlex, hliterals, ParsesToLiterals.isFinite_iff hlex hliterals⟩

namespace Decimal

theorem foldl_zeros (m n : ℕ) :
    (List.replicate n '0').foldl (fun n c => 10 * n + (c.toNat - '0'.toNat)) m = m * 10 ^ n := by
  induction n generalizing m with
  | zero => exact (Nat.mul_one m).symm
  | succ n ih =>
    rw [List.replicate_succ, List.foldl_cons, ih, pow_succ]
    change (10 * m + 0) * 10 ^ n = _
    ring

/-- A one with zeros behind it. -/
theorem digitsValue_one_zeros (n : ℕ) : digitsValue ('1' :: List.replicate n '0') = 10 ^ n := by
  rw [digitsValue, List.foldl_cons, foldl_zeros]
  exact Nat.one_mul _

theorem isDigits_one_zeros (n : ℕ) : IsDigits ('1' :: List.replicate n '0') := by
  refine isDigits_cons.mpr ⟨by decide, fun d hd => ?_⟩
  rw [List.eq_of_mem_replicate hd]
  decide

theorem toRat_one_zeros (n : ℕ) : (ofNumber ('1' :: List.replicate n '0')).toRat = 10 ^ n := by
  rw [ofNumber_of_isDigits (isDigits_one_zeros n), toRat, digitsValue_one_zeros]
  simp

theorem overflowBound_le_powerOfTen {place n : ℕ} (k : ℕ) (hplace : 54 + place ≤ 93 * k + 1)
    (hn : 28 * k + 1 ≤ n) : Binary64.overflowBound place ≤ 10 ^ n :=
  calc Binary64.overflowBound place ≤ 2 ^ (93 * k + 1) := Binary64.overflowBound_le_two_pow hplace
    _ = (2 ^ 93) ^ k * 2 := by rw [pow_succ, pow_mul]
    _ ≤ (10 ^ 28) ^ k * 10 := Nat.mul_le_mul (Nat.pow_le_pow_left (by norm_num) k) (by decide)
    _ = 10 ^ (28 * k + 1) := by rw [← pow_mul, ← pow_succ]
    _ ≤ 10 ^ n := Nat.pow_le_pow_right (by decide) hn

end Decimal

/-- From 309 zeros on, a one with zeros behind it is an infinite literal. -/
theorem Expr.parse_one_zeros {n : ℕ} (hn : 309 ≤ n) :
    ∃ tokens e, Token.lex (String.ofList ('1' :: List.replicate n '0')) = .ok tokens ∧
      Expr.parse tokens = .ok e ∧ ∃ x, .float x ∈ e.literals ∧ Binary64.isFinite x = false := by
  have hdigits := Decimal.isDigits_one_zeros n
  have hlarge : ¬ IsInteger ('1' :: List.replicate n '0') := by
    intro hinteger
    have hsmall := hinteger.small
    rw [Decimal.digitsValue_one_zeros] at hsmall
    have hpow : 10 ^ 19 ≤ 10 ^ n := Nat.pow_le_pow_right (by decide) (by omega)
    exact absurd (lt_of_le_of_lt hpow hsmall) (by decide)
  obtain ⟨tokens, e, hlex, hparse, hliterals⟩ := Expr.parse_number (.inl hdigits) hlarge
  refine ⟨tokens, e, hlex, hparse, _, by rw [hliterals]; exact List.mem_singleton_self _, ?_⟩
  rw [← Bool.not_eq_true, (Decimal.isFinite_nearest _).1, Decimal.toRat_one_zeros, not_lt]
  exact_mod_cast Decimal.overflowBound_le_powerOfTen 11 (by decide) hn

/-- Not every literal is finite. -/
theorem Expr.parse_infinite :
    let source := String.ofList ('1' :: List.replicate 309 '0')
    ∃ tokens e, Token.lex source = .ok tokens ∧ Expr.parse tokens = .ok e ∧
      ∃ x, .float x ∈ e.literals ∧ Binary64.isFinite x = false :=
  Expr.parse_one_zeros (Nat.le_refl 309)

end MooScript
