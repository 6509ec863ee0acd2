import Mathlib
import MooScript.Proofs.Lexing.Cover
import MooScript.Proofs.Literal.Written
import MooScript.Proofs.Syntax.Floats
import MooScript.Proofs.Syntax.Soundness.Program

/-! Literals of a source text. The scanner makes only tokens whose texts denote values, so that the
grammar, which would also be given others, finds none malformed. -/
namespace MooScript

open Lexer Reading

variable {t : Token} {source : String} {tokens : List Token}

/-! ### Integers and objects -/

namespace Decimal

def signed (negative : Bool) (n : ℕ) : ℤ := if negative then -n else n

theorem le_of_signed {negative : Bool} {n : ℕ} {id : ObjectId} (h : id.toInt = signed negative n) :
    n ≤ 2147483648 := by
  have hlow := id.le_toInt
  have hhigh := id.toInt_lt
  cases negative with
  | true =>
    rw [signed, if_pos rfl] at h
    omega
  | false =>
    rw [signed, if_neg Bool.false_ne_true] at h
    omega

/-- Without an overflow: the number is not negative. -/
theorem toInt_signed {negative : Bool} {n : Int64} {k : ℕ} (h : n.toInt = k) :
    (if negative then -n else n).toInt = signed negative k := by
  cases negative with
  | true =>
    rw [if_pos rfl, signed, if_pos rfl, Word.toInt_neg_of_nonneg (h ▸ Int.natCast_nonneg k), h]
  | false => exact h

theorem readInt64?_eq_some_iff {s : String} {n : Int64} (h : IsDigits s.toList) :
    readInt64? s = some n ↔ n.toInt = digitsValue s.toList := by
  rw [readInt64?, readInteger?_of_digits h.nonempty h.digits, Option.bind_some,
    Word.int64?_eq_some_iff]

end Decimal

theorem Lexer.IsInteger.exists_int64 {text : List Char} (h : IsInteger text) :
    ∃ n : Int64, n.toInt = Decimal.digitsValue text := by
  have hfits := (Bool.and_eq_true_iff.mp ((isInteger_iff h.digits.nonempty).mp h)).2
  obtain ⟨n, hn⟩ := Option.isSome_iff_exists.mp hfits
  exact ⟨n, Word.int64?_eq_some_iff.mp hn⟩

namespace Syntax

theorem literalValue?_of_isInteger (hkind : t.kind = .integer) (h : IsInteger t.text.toList) :
    ∃ n : Int64, literalValue? t = some (.integer n) ∧
      n.toInt = Decimal.digitsValue t.text.toList := by
  obtain ⟨n, hn⟩ := h.exists_int64
  refine ⟨n, ?_, hn⟩
  rw [literalValue?, hkind]
  exact congrArg (Option.map Value.integer) ((Decimal.readInt64?_eq_some_iff h.digits).mpr hn)

theorem objectId?_eq_some_iff {negative : Bool} {id : ObjectId} (h : IsDigits t.text.toList) :
    objectId? negative t = some id ↔
      id.toInt = Decimal.signed negative (Decimal.digitsValue t.text.toList) := by
  simp only [objectId?, Option.bind_eq_bind, Option.bind_eq_some_iff,
    Decimal.readInt64?_eq_some_iff h, Word.int32?_eq_some_iff]
  constructor
  · rintro ⟨n, hn, hid⟩
    exact hid.trans (Decimal.toInt_signed hn)
  · intro hid
    -- What fits 32 bits fits 64.
    have hsmall := Decimal.le_of_signed hid
    have hvalue : (Int64.ofInt (Decimal.digitsValue t.text.toList)).toInt =
        Decimal.digitsValue t.text.toList :=
      Int64.toInt_ofInt_of_le (by omega) (by omega)
    exact ⟨_, hvalue, hid.trans (Decimal.toInt_signed hvalue).symm⟩

end Syntax

namespace Grammar

variable {finish hash : Token} {ts rest : List Token} {id : ObjectId} {e : Expr}

theorem yields_expect_iff {k : Kind} {t' : Token} :
    (expect finish k (t :: ts)).Yields t' rest ↔ t.kind = k ∧ t = t' ∧ ts = rest := by
  rw [expect]
  by_cases hkind : t.kind = k
  · rw [if_pos hkind, yields_keep_iff, and_iff_right hkind]
  · rw [if_neg hkind]
    exact iff_of_false yields_error_iff fun h => hkind h.1

theorem yields_objectId_iff {negative : Bool} :
    (objectId finish negative (t :: ts)).Yields id rest ↔
      t.kind = .integer ∧ Syntax.objectId? negative t = some id ∧ ts = rest := by
  rw [objectId, yields_andThen_iff]
  constructor
  · rintro ⟨number, mid, _, hnumber, hid⟩
    obtain ⟨hkind, rfl, rfl⟩ := yields_expect_iff.mp hnumber
    cases h : Syntax.objectId? negative t with
    | none =>
      rw [h] at hid
      exact absurd hid yields_error_iff
    | some id' =>
      rw [h] at hid
      obtain ⟨rfl, rfl⟩ := yields_keep_iff.mp hid
      exact ⟨hkind, rfl, rfl⟩
  · rintro ⟨hkind, hid, rfl⟩
    refine ⟨t, ts, Nat.lt_succ_self _, yields_expect_iff.mpr ⟨hkind, rfl, rfl⟩, ?_⟩
    rw [hid]
    exact yields_keep

theorem yields_objectNumber_iff {sign : Option Token} (hsign : ∀ m ∈ sign, m.kind = .symbol .minus)
    (ht : t.kind ≠ .symbol .minus) :
    (objectNumber finish (sign.toList ++ t :: ts)).Yields id rest ↔
      t.kind = .integer ∧ Syntax.objectId? sign.isSome t = some id ∧ ts = rest := by
  cases sign with
  | none =>
    rw [Option.toList_none, List.nil_append, objectNumber, if_neg ht]
    exact yields_objectId_iff
  | some minus =>
    rw [Option.toList_some, List.singleton_append, objectNumber, if_pos (hsign minus rfl),
      yields_widen_iff]
    exact yields_objectId_iff

theorem yields_atom_hash_iff (hhash : hash.kind = .symbol .hash) :
    (atom finish (hash :: ts)).Yields e rest ↔
      ∃ id, (objectNumber finish ts).Yields id rest ∧ .literal (.object id) hash = e := by
  rw [atom, hhash]
  simp only [yields_map_iff, yields_widen_iff]

end Grammar

/-! ### Strings -/

namespace Syntax

/-- What is left of a text each time `unescape` goes on. -/
def unescapeSteps : List Char → List (List Char)
  | '\\' :: c :: cs => ('\\' :: c :: cs) :: unescapeSteps cs
  | c :: cs => (c :: cs) :: unescapeSteps cs
  | [] => [[]]

/-- Between quotes a backslash has a character behind it. -/
theorem lone_backslash_not_mem_unescapeSteps {body : List Char} (h : QuotedBody body) :
    ['\\'] ∉ unescapeSteps body := by
  induction h with
  | nil => simp [unescapeSteps]
  | plain hq hb h ih =>
    rw [unescapeSteps, List.mem_cons, not_or]
    · exact ⟨fun heq => hb (List.cons.inj heq).1.symm, ih⟩
    · rintro _ _ rfl _
      exact hb rfl
  | escape hc h ih =>
    rw [unescapeSteps, List.mem_cons, not_or]
    exact ⟨fun heq => List.cons_ne_nil _ _ (List.cons.inj heq).2.symm, ih⟩

theorem literalValue?_of_inQuotes {body : List Char} (hkind : t.kind = .string)
    (htext : t.text.toList = '\x22' :: (body ++ ['\x22'])) :
    literalValue? t = some (.string (String.ofList (unescape body))) := by
  have hquoted : t.text = Text.inQuotes body := by
    rw [Text.inQuotes, ← htext, String.ofList_toList]
  rw [literalValue?, hkind, hquoted]
  exact congrArg (fun s => some (Value.string s)) (Text.stringValue_inQuotes body)

end Syntax

/-! ### The tokens of a text -/

/-- How the grammar reads the literals among tokens. -/
structure Token.Legible (tokens : List Token) : Prop where
  value : ∀ t ∈ tokens, t.kind ∈ [Kind.integer, .float, .string] →
    ∃ v, Syntax.literalValue? t = some v
  integer : ∀ t ∈ tokens, t.kind = .integer → ∃ n : Int64,
    Syntax.literalValue? t = some (.integer n) ∧
      n.toInt = Decimal.digitsValue t.text.toList ∧ 0 ≤ n.toInt ∧ (-n).toInt = -n.toInt
  object : ∀ t ∈ tokens, IsDigits t.text.toList →
    ∀ (finish hash : Token) (sign : Option Token) (ts : List Token) (e : Expr) (rest : List Token),
      hash.kind = .symbol .hash → (∀ minus ∈ sign, minus.kind = .symbol .minus) →
      ((Grammar.atom finish (hash :: (sign.toList ++ t :: ts))).Yields e rest ↔
        ∃ id : ObjectId,
          id.toInt = Decimal.signed sign.isSome (Decimal.digitsValue t.text.toList) ∧
          e = .literal (.object id) hash ∧ rest = ts)
  string : ∀ t ∈ tokens, t.kind = .string → ∃ body,
    t.text.toList = '\x22' :: (body ++ ['\x22']) ∧
      Syntax.literalValue? t = some (.string (String.ofList (Syntax.unescape body))) ∧
      ['\\'] ∉ Syntax.unescapeSteps body
  program : ∀ e, Stmt.parse tokens = .error e → ¬e.IsMalformed
  expression : ∀ e, Expr.parse tokens = .error e → ¬e.IsMalformed

/-- Digits of a text are an integer unless they do not fit one. -/
theorem kind_of_isDigits (hkind : ∀ kind : Kind, kind.Lexeme t.text.toList ↔ t.kind = kind)
    (h : IsDigits t.text.toList) :
    t.kind = .integer ∨ t.kind = .float ∧ ¬IsInteger t.text.toList := by
  by_cases hi : IsInteger t.text.toList
  · exact .inl ((hkind .integer).mp hi)
  · exact .inr ⟨(hkind .float).mp ⟨.inl h, hi⟩, hi⟩

theorem exists_literalValue? (hkind : ∀ kind : Kind, kind.Lexeme t.text.toList ↔ t.kind = kind)
    (ht : t.kind ∈ [Kind.integer, .float, .string]) : ∃ v, Syntax.literalValue? t = some v := by
  rcases List.mem_cons.mp ht with hinteger | ht
  · obtain ⟨n, hvalue, -⟩ :=
      Syntax.literalValue?_of_isInteger hinteger ((hkind .integer).mpr hinteger)
    exact ⟨_, hvalue⟩
  · rcases List.mem_cons.mp ht with hfloat | ht
    · have hread := Decimal.readFloat?_of_isNumber ((hkind .float).mpr hfloat).1
      rw [String.ofList_toList] at hread
      rw [Syntax.literalValue?, hfloat]
      exact ⟨_, congrArg (Option.map Value.float) hread⟩
    · have hstring := List.mem_singleton.mp ht
      obtain ⟨body, htext, -⟩ := (hkind .string).mpr hstring
      exact ⟨_, Syntax.literalValue?_of_inQuotes hstring htext⟩

/-- Digits that make no integer are too many for an object as well. -/
theorem isInteger_of_toInt {text : List Char} {negative : Bool} {id : ObjectId} (h : IsDigits text)
    (hid : id.toInt = Decimal.signed negative (Decimal.digitsValue text)) : IsInteger text := by
  have hbound : 2147483648 < Nat.pow 2 63 := by decide
  exact ⟨h, Nat.lt_of_le_of_lt (Decimal.le_of_signed hid) hbound⟩

theorem yields_object_iff (hkind : ∀ kind : Kind, kind.Lexeme t.text.toList ↔ t.kind = kind)
    (h : IsDigits t.text.toList) {finish hash : Token} {sign : Option Token} {ts rest : List Token}
    {e : Expr} (hhash : hash.kind = .symbol .hash) (hsign : ∀ m ∈ sign, m.kind = .symbol .minus) :
    (Grammar.atom finish (hash :: (sign.toList ++ t :: ts))).Yields e rest ↔
      ∃ id : ObjectId,
        id.toInt = Decimal.signed sign.isSome (Decimal.digitsValue t.text.toList) ∧
        e = .literal (.object id) hash ∧ rest = ts := by
  have hminus : t.kind ≠ .symbol .minus := by
    rcases kind_of_isDigits hkind h with hinteger | ⟨hfloat, -⟩
    · exact hinteger ▸ (by decide)
    · exact hfloat ▸ (by decide)
  simp only [Grammar.yields_atom_hash_iff hhash, Grammar.yields_objectNumber_iff hsign hminus,
    Syntax.objectId?_eq_some_iff h]
  constructor
  · rintro ⟨id, ⟨-, hid, rfl⟩, rfl⟩
    exact ⟨id, hid, rfl, rfl⟩
  · rintro ⟨id, hid, rfl, rfl⟩
    have hinteger := (hkind .integer).mp (isInteger_of_toInt h hid)
    exact ⟨id, ⟨hinteger, hid, rfl⟩, rfl⟩

/-- What is blamed as malformed is a literal, and literals have values. -/
theorem not_isMalformed_of_blames {e : SyntaxError}
    (hvalue : ∀ t ∈ tokens, t.kind ∈ [Kind.integer, .float, .string] →
      ∃ v, Syntax.literalValue? t = some v)
    (he : Grammar.Blames (fun t => t ∈ tokens ∨ t.kind = .eof) e) : ¬e.IsMalformed := by
  intro hmalformed
  have hnone := he.malformed hmalformed
  have hliteral : e.token.kind ∈ [Kind.integer, .float, .string] := by
    cases e with
    | unexpectedToken expected found =>
      cases expected with
      | kind k => exact hmalformed.1 ▸ hmalformed.2
      | _ => exact hmalformed.elim
    | _ => exact hmalformed.elim
  rcases he.token with hmem | heof
  · obtain ⟨v, hv⟩ := hvalue e.token hmem hliteral
    exact absurd (hnone.symm.trans hv) (Option.some_ne_none v).symm
  · rw [heof] at hliteral
    exact absurd hliteral (by decide)

/-- The literals of a text all have values, an object is read just where its number fits, and a
parse fails with no other complaint about a literal. -/
theorem Token.legible_of_lex (hlex : Token.lex source = .ok tokens) : Token.Legible tokens := by
  have hkind : ∀ t ∈ tokens, ∀ kind : Kind, kind.Lexeme t.text.toList ↔ t.kind = kind :=
    (scan_cut hlex).cover.kind
  have hvalue : ∀ t ∈ tokens, t.kind ∈ [Kind.integer, .float, .string] →
      ∃ v, Syntax.literalValue? t = some v := fun t ht => exists_literalValue? (hkind t ht)
  have hinput : ∀ t ∈ (Grammar.input tokens).1, t ∈ tokens ∨ t.kind = .eof :=
    fun t ht => .inl (Grammar.mem_of_mem_input ht)
  have hfinish : (Grammar.input tokens).2 ∈ tokens ∨ (Grammar.input tokens).2.kind = .eof :=
    .inr (Grammar.input_finish_kind tokens)
  refine ⟨hvalue, fun t ht hinteger => ?_, ?_, fun t ht hstring => ?_, ?_, ?_⟩
  · obtain ⟨n, hn, hdigits⟩ :=
      Syntax.literalValue?_of_isInteger hinteger ((hkind t ht .integer).mpr hinteger)
    have hnonneg : 0 ≤ n.toInt := hdigits ▸ Int.natCast_nonneg _
    exact ⟨n, hn, hdigits, hnonneg, Word.toInt_neg_of_nonneg hnonneg⟩
  · intro t ht hdigits finish hash sign ts e rest hhash hsign
    exact yields_object_iff (hkind t ht) hdigits hhash hsign
  · obtain ⟨body, htext, hbody⟩ := (hkind t ht .string).mpr hstring
    exact ⟨body, htext, Syntax.literalValue?_of_inQuotes hstring htext,
      Syntax.lone_backslash_not_mem_unescapeSteps hbody⟩
  · exact fun e he => not_isMalformed_of_blames hvalue (Stmt.parse_blames hinput hfinish he)
  · exact fun e he => not_isMalformed_of_blames hvalue (Expr.parse_blames hinput hfinish he)

/-- The lowest object; without its sign the number is one too high. -/
theorem Token.legible_of_lex_lowest :
    let hash : Token := ⟨.symbol .hash, ⟨0, 1⟩, "#", ⟨1, 1⟩⟩
    let minus : Token := ⟨.symbol .minus, ⟨1, 2⟩, "-", ⟨1, 2⟩⟩
    let number : Token := ⟨.integer, ⟨2, 12⟩, "2147483648", ⟨1, 3⟩⟩
    let finish : Token := .endOfInput (some number)
    Token.lex "#-2147483648" = .ok [hash, minus, number] ∧
      Token.Legible [hash, minus, number] ∧
      (Grammar.atom finish [hash, minus, number]).Yields
        (.literal (.object Int32.minValue) hash) [] ∧
      ∀ e rest, ¬(Grammar.atom finish [hash, number]).Yields e rest := by
  intro hash minus number finish
  have hlex : Token.lex "#-2147483648" = .ok [hash, minus, number] := by cbv
  have hlegible := Token.legible_of_lex hlex
  have hdigits : IsDigits number.text.toList :=
    ⟨by decide, List.all_eq_true.mp (by cbv)⟩
  have hvalue : Decimal.digitsValue number.text.toList = 2147483648 := by cbv
  have hobject (sign : Option Token) := hlegible.object number (by simp) hdigits finish hash sign
  refine ⟨hlex, hlegible, ?_, fun e rest h => ?_⟩
  · refine (hobject (some minus) [] _ [] rfl (by simp [minus])).mpr ⟨_, ?_, rfl, rfl⟩
    rw [hvalue]
    decide
  · obtain ⟨id, hid, -⟩ := (hobject none [] e rest rfl (by simp)).mp h
    have hhigh := id.toInt_lt
    rw [hvalue, Option.isSome_none, Decimal.signed, if_neg Bool.false_ne_true] at hid
    omega

end MooScript
