import Mathlib
import MooScript.Proofs.Lexing.Lexeme

/-! What the scanner takes off the front of a text: a lexeme, of the one kind that has it, and as
long as any that stands there. -/
namespace MooScript

variable {c : Char} {cs text rest : List Char}

namespace Lexer

/-! ### Digits and numbers -/

theorem takeWhile_append_of_head {p : Char → Bool} (htext : ∀ c ∈ text, p c = true)
    (hrest : ∀ c ∈ rest.head?, p c = false) : (text ++ rest).takeWhile p = text := by
  rw [List.takeWhile_append_of_pos htext]
  cases rest with
  | nil => exact List.append_nil text
  | cons c rest => rw [List.takeWhile_cons_of_neg (by simp [hrest c rfl]), List.append_nil]

theorem take_digitCount (cs : List Char) : cs.take (digitCount cs) = cs.takeWhile Char.isDigit :=
  (List.prefix_iff_eq_take.mp (List.takeWhile_prefix _)).symm

theorem drop_digitCount (cs : List Char) : cs.drop (digitCount cs) = cs.dropWhile Char.isDigit := by
  have hsplit := List.take_append_drop (digitCount cs) cs
  rw [take_digitCount] at hsplit
  exact List.append_cancel_left (hsplit.trans List.takeWhile_append_dropWhile.symm)

theorem digitCount_append (h : ∀ d ∈ text, d.isDigit = true) (rest : List Char) :
    digitCount (text ++ rest) = text.length + digitCount rest := by
  rw [digitCount, List.takeWhile_append_of_pos h, List.length_append, digitCount]

theorem length_le_digitCount (h : ∀ d ∈ text, d.isDigit = true) (hp : text <+: cs) :
    text.length ≤ digitCount cs := by
  obtain ⟨post, rfl⟩ := hp
  rw [digitCount_append h]
  exact Nat.le_add_right _ _

theorem isDigits_cons : IsDigits (c :: cs) ↔ c.isDigit = true ∧ ∀ d ∈ cs, d.isDigit = true :=
  ⟨fun h => List.forall_mem_cons.mp h.digits,
    fun h => ⟨List.cons_ne_nil c cs, List.forall_mem_cons.mpr h⟩⟩

theorem isNumber_cons : IsNumber (c :: text) ↔ c.isDigit = true ∧
    ((∀ d ∈ text, d.isDigit = true) ∨ ∃ whole fraction, text = whole ++ '.' :: fraction ∧
      (∀ d ∈ whole, d.isDigit = true) ∧ IsDigits fraction) := by
  constructor
  · rintro (h | ⟨whole, fraction, heq, hwhole, hfraction⟩)
    · obtain ⟨hc, hdigits⟩ := isDigits_cons.mp h
      exact ⟨hc, .inl hdigits⟩
    · cases whole with
      | nil => exact absurd rfl hwhole.nonempty
      | cons c' whole =>
        obtain ⟨rfl, rfl⟩ := List.cons.inj heq
        obtain ⟨hc, hdigits⟩ := isDigits_cons.mp hwhole
        exact ⟨hc, .inr ⟨whole, fraction, rfl, hdigits, hfraction⟩⟩
  · rintro ⟨hc, h | ⟨whole, fraction, rfl, hwhole, hfraction⟩⟩
    · exact .inl (isDigits_cons.mpr ⟨hc, h⟩)
    · exact .inr ⟨c :: whole, fraction, rfl, isDigits_cons.mpr ⟨hc, hwhole⟩, hfraction⟩

theorem IsNumber.exists_cons (h : IsNumber text) :
    ∃ c cs, text = c :: cs ∧ c.isDigit = true := by
  cases text with
  | nil =>
    rcases h with hdigits | ⟨whole, fraction, heq, -⟩
    · exact absurd rfl hdigits.nonempty
    · exact absurd heq.symm (List.append_ne_nil_of_right_ne_nil _ (List.cons_ne_nil _ _))
  | cons c cs => exact ⟨c, cs, rfl, (isNumber_cons.mp h).1⟩

/-- The scanner's length ends a run of digits, or a fraction behind it. -/
theorem numberLength_cases (cs : List Char) :
    numberLength cs = digitCount cs ∨
      ∃ rest, cs = cs.takeWhile Char.isDigit ++ '.' :: rest ∧ digitCount rest ≠ 0 ∧
        numberLength cs = digitCount cs + 1 + digitCount rest := by
  unfold numberLength
  dsimp only
  split
  · rename_i rest hrest
    by_cases h : digitCount rest = 0
    · exact .inl (if_pos h)
    · refine .inr ⟨rest, ?_, h, if_neg h⟩
      rw [← hrest, drop_digitCount, List.takeWhile_append_dropWhile]
  · exact .inl rfl

theorem digitCount_le_numberLength (cs : List Char) : digitCount cs ≤ numberLength cs := by
  rcases numberLength_cases cs with h | ⟨rest, _, _, h⟩ <;> omega

theorem numberLength_le (cs : List Char) : numberLength cs ≤ cs.length := by
  have hdigits : ∀ ds : List Char, digitCount ds ≤ ds.length := fun ds =>
    (List.takeWhile_prefix _).length_le
  rcases numberLength_cases cs with h | ⟨rest, hsplit, _, h⟩
  · rw [h]
    exact hdigits cs
  · have hlength := congrArg List.length hsplit
    rw [List.length_append, List.length_cons] at hlength
    have hrest := hdigits rest
    have hwhole : digitCount cs = (cs.takeWhile Char.isDigit).length := rfl
    omega

theorem isNumber_take (hc : c.isDigit = true) (cs : List Char) :
    IsNumber (c :: cs.take (numberLength cs)) := by
  have hdigits : ∀ ds : List Char, ∀ d ∈ ds.takeWhile Char.isDigit, d.isDigit = true :=
    fun ds d hd => List.mem_takeWhile_imp hd
  refine isNumber_cons.mpr ⟨hc, ?_⟩
  rcases numberLength_cases cs with h | ⟨rest, hsplit, hrest, h⟩
  · left
    rw [h, take_digitCount]
    exact hdigits cs
  · right
    refine ⟨cs.takeWhile Char.isDigit, rest.takeWhile Char.isDigit, ?_, hdigits cs, ?_,
      hdigits rest⟩
    · have hlength : digitCount cs + 1 + digitCount rest =
          (cs.takeWhile Char.isDigit).length + (digitCount rest + 1) := by
        rw [digitCount]
        omega
      rw [h, hlength]
      nth_rewrite 2 [hsplit]
      rw [List.take_length_add_append, List.take_succ_cons, take_digitCount]
    · exact fun hnil => hrest (congrArg List.length hnil)

theorem length_le_numberLength (h : IsNumber (c :: text)) (hp : text <+: cs) :
    text.length ≤ numberLength cs := by
  obtain ⟨_, hdigits | ⟨whole, fraction, rfl, hwhole, hfraction⟩⟩ := isNumber_cons.mp h
  · exact (length_le_digitCount hdigits hp).trans (digitCount_le_numberLength cs)
  · obtain ⟨post, rfl⟩ := hp
    have hcount : digitCount (whole ++ '.' :: (fraction ++ post)) = whole.length := by
      rw [digitCount_append hwhole]
      rfl
    have hfraction' := digitCount_append hfraction.digits post
    have hpositive := List.length_pos_iff.mpr hfraction.nonempty
    have hlength : numberLength (whole ++ '.' :: (fraction ++ post)) =
        whole.length + 1 + digitCount (fraction ++ post) := by
      unfold numberLength
      dsimp only
      rw [hcount, List.drop_left]
      exact if_neg (by omega)
    rw [List.append_assoc, List.cons_append, hlength, List.length_append, List.length_cons]
    omega

/-- A number is taken as a whole in front of anything that cannot continue one. -/
theorem numberLength_append (h : IsNumber (c :: text))
    (hrest : ∀ d ∈ rest.head?, (d.isDigit || d == '.') = false) :
    numberLength (text ++ rest) = text.length := by
  have hdigit : ∀ d ∈ rest.head?, d.isDigit = false := fun d hd =>
    (Bool.or_eq_false_iff.mp (hrest d hd)).1
  obtain ⟨_, hdigits | ⟨whole, fraction, rfl, hwhole, hfraction⟩⟩ := isNumber_cons.mp h
  · have hcount : digitCount (text ++ rest) = text.length := by
      rw [digitCount, takeWhile_append_of_head hdigits hdigit]
    rw [numberLength, hcount, List.drop_left]
    split
    · exact absurd (hrest '.' rfl) (by decide)
    · rfl
  · have hcount : digitCount (whole ++ '.' :: (fraction ++ rest)) = whole.length := by
      rw [digitCount_append hwhole]
      rfl
    have hfraction' : digitCount (fraction ++ rest) = fraction.length := by
      rw [digitCount, takeWhile_append_of_head hfraction.digits hdigit]
    have hpositive := List.length_pos_iff.mpr hfraction.nonempty
    rw [List.append_assoc, List.cons_append, numberLength, hcount, List.drop_left]
    simp only [hfraction', if_neg hpositive.ne', List.length_append, List.length_cons]
    omega

theorem isInteger_iff (h : text ≠ []) : IsInteger text ↔
    (text.all Char.isDigit && (Word.int64? (Decimal.digitsValue text)).isSome) = true := by
  have hmin : Int64.minValue.toInt = -9223372036854775808 := by decide
  have hmax : Int64.maxValue.toInt = 9223372036854775807 := by decide
  have hbound : Nat.pow 2 63 = 9223372036854775808 := by decide
  have hfits : (Word.int64? (Decimal.digitsValue text)).isSome = true ↔
      Decimal.digitsValue text < Nat.pow 2 63 := by
    rw [Word.int64?, hmin, hmax, hbound, Option.isSome_ite]
    omega
  rw [Bool.and_eq_true, hfits, List.all_eq_true]
  exact ⟨fun hi => ⟨hi.digits.digits, hi.small⟩, fun hi => ⟨⟨h, hi.1⟩, hi.2⟩⟩

theorem numberKind_of_isInteger (h : IsInteger text) : numberKind text = .integer :=
  if_pos ((isInteger_iff h.digits.nonempty).mp h)

theorem numberKind_of_not_isInteger (h : ¬ IsInteger text) (hne : text ≠ []) :
    numberKind text = .float :=
  if_neg fun hi => h ((isInteger_iff hne).mpr hi)

theorem numberKind_lexeme (h : IsNumber (c :: text)) :
    (numberKind (c :: text)).Lexeme (c :: text) := by
  by_cases hi : IsInteger (c :: text)
  · rw [numberKind_of_isInteger hi]
    exact hi
  · rw [numberKind_of_not_isInteger hi (List.cons_ne_nil c text)]
    exact ⟨h, hi⟩

/-! ### Words -/

theorem not_isDigit_of_isWordStart (h : isWordStart c = true) : ¬ c.isDigit = true := by
  simp only [isWordStart, Char.isAlpha, Char.isUpper, Char.isLower, Bool.or_eq_true,
    Bool.and_eq_true, decide_eq_true_eq, beq_iff_eq, UInt32.le_iff_toNat_le] at h
  simp only [Char.isDigit, Bool.and_eq_true, decide_eq_true_eq, UInt32.le_iff_toNat_le]
  rcases h with (h | h) | rfl
  · simp_all; omega
  · simp_all; omega
  · decide

end Lexer

theorem Keyword.ofText?_eq_some_iff {s : String} {k : Keyword} :
    ofText? s = some k ↔ s = k.text := by
  constructor
  · intro h
    have hfound := (List.find?_eq_some_iff_append.mp h).1
    exact (beq_iff_eq.mp hfound).symm
  · rintro rfl
    cases k <;> simp [ofText?, all, text]

theorem Keyword.isWord (k : Keyword) : Lexer.IsWord k.text.toList := by
  cases k <;> simp [Keyword.text, Lexer.IsWord, Lexer.isWordStart, Lexer.isWordChar]

namespace Lexer

theorem wordKind_of_eq {k : Keyword} (h : text = k.text.toList) : wordKind text = .keyword k := by
  have hk : Keyword.ofText? (String.ofList text) = some k := by
    rw [Keyword.ofText?_eq_some_iff, h, String.ofList_toList]
  rw [wordKind, hk]

theorem wordKind_of_ne (h : ∀ k : Keyword, text ≠ k.text.toList) :
    wordKind text = .identifier := by
  have hnone : Keyword.ofText? (String.ofList text) = none := by
    refine Option.eq_none_iff_forall_ne_some.mpr fun k hk => h k ?_
    rw [← Keyword.ofText?_eq_some_iff.mp hk, String.toList_ofList]
  rw [wordKind, hnone]

theorem wordKind_lexeme (h : IsWord text) : (wordKind text).Lexeme text := by
  by_cases hk : ∃ k : Keyword, text = k.text.toList
  · obtain ⟨k, hk⟩ := hk
    rw [wordKind_of_eq hk]
    exact hk
  · have hne : ∀ k : Keyword, text ≠ k.text.toList := fun k heq => hk ⟨k, heq⟩
    rw [wordKind_of_ne hne]
    exact ⟨h, hne⟩

theorem length_le_takeWhile {p : Char → Bool} (h : ∀ d ∈ text, p d = true) (hp : text <+: cs) :
    text.length ≤ (cs.takeWhile p).length := by
  obtain ⟨post, rfl⟩ := hp
  rw [List.takeWhile_append_of_pos h, List.length_append]
  exact Nat.le_add_right _ _

/-! ### Strings -/

theorem throughClosingQuote?_of_quotedBody {body : List Char} (h : QuotedBody body)
    (rest : List Char) :
    throughClosingQuote? (body ++ '\x22' :: rest) = some (body.length + 1) := by
  induction h with
  | nil => rfl
  | plain hq hb h ih =>
    rw [List.cons_append, throughClosingQuote?, ih]
    · rfl
    · exact hq
    · exact fun c cs heq => absurd heq hb
  | escape hc h ih =>
    rw [List.cons_append, List.cons_append, throughClosingQuote?, if_neg hc, ih]
    rfl

theorem quotedBody_of_throughClosingQuote? {n : Nat} (h : throughClosingQuote? cs = some n) :
    ∃ body rest, cs = body ++ '\x22' :: rest ∧ QuotedBody body ∧ n = body.length + 1 := by
  fun_induction throughClosingQuote? cs generalizing n with
  | case1 => cases h
  | case2 cs =>
    cases h
    exact ⟨[], cs, rfl, .nil, rfl⟩
  | case3 cs => cases h
  | case4 c cs hc ih =>
    obtain ⟨m, hm, rfl⟩ := Option.map_eq_some_iff.mp h
    obtain ⟨body, rest, rfl, hbody, rfl⟩ := ih hm
    exact ⟨'\\' :: c :: body, rest, rfl, .escape hc hbody, rfl⟩
  | case5 c cs hq hb ih =>
    obtain ⟨m, hm, rfl⟩ := Option.map_eq_some_iff.mp h
    obtain ⟨body, rest, rfl, hbody, rfl⟩ := ih hm
    -- Something stands behind `c`, be it the closing quote alone.
    have hescape : c ≠ '\\' := by
      intro heq
      cases body with
      | nil => exact hb _ _ heq rfl
      | cons d body => exact hb _ _ heq rfl
    exact ⟨c :: body, rest, rfl, .plain hq hescape hbody, rfl⟩

/-! ### Comments -/

theorem bne_newline {line : List Char} (h : '\n' ∉ line) : ∀ d ∈ line, (d != '\n') = true := by
  intro d hd
  rw [bne_iff_ne]
  exact ne_of_mem_of_not_mem hd h

theorem commentBody_nil : ¬ CommentBody [] := fun h =>
  absurd (List.suffix_nil.mp h.closed) (List.cons_ne_nil _ _)

theorem commentBody_closing : CommentBody ['*', '/'] := by
  refine ⟨List.suffix_rfl, fun pre post h => ?_⟩
  have hlength := congrArg List.length h
  simp only [List.length_append, List.length_cons, List.length_nil] at hlength
  exact List.length_eq_zero_iff.mp (by omega)

theorem commentBody_cons (h : ∀ rest, c :: cs ≠ '*' :: '/' :: rest) :
    CommentBody (c :: cs) ↔ CommentBody cs := by
  constructor
  · intro hbody
    refine ⟨?_, fun pre post heq => hbody.first (c :: pre) post (congrArg (c :: ·) heq)⟩
    rcases List.suffix_cons_iff.mp hbody.closed with heq | hclosed
    · exact absurd heq.symm (h [])
    · exact hclosed
  · intro hbody
    refine ⟨hbody.closed.trans (List.suffix_cons c cs), fun pre post heq => ?_⟩
    cases pre with
    | nil => exact absurd heq (h post)
    | cons d pre => exact hbody.first pre post (List.cons.inj heq).2

theorem throughCommentEnd?_cons (h : ∀ rest, c :: cs ≠ '*' :: '/' :: rest) :
    throughCommentEnd? (c :: cs) = (throughCommentEnd? cs).map (· + 1) := by
  rw [throughCommentEnd?]
  rintro rest rfl rfl
  exact h rest rfl

theorem throughCommentEnd?_of_commentBody {body : List Char} (h : CommentBody body)
    (rest : List Char) : throughCommentEnd? (body ++ rest) = some body.length := by
  induction body with
  | nil => exact absurd h commentBody_nil
  | cons c body ih =>
    by_cases hopen : ∃ tail, c :: body = '*' :: '/' :: tail
    · obtain ⟨tail, heq⟩ := hopen
      have htail := h.first [] tail heq
      rw [heq, htail]
      rfl
    · have hbody := (commentBody_cons (not_exists.mp hopen)).mp h
      have hopen' : ∀ tail, c :: (body ++ rest) ≠ '*' :: '/' :: tail := by
        intro tail heq
        cases body with
        | nil => exact commentBody_nil hbody
        | cons d body =>
          obtain ⟨hc, heq⟩ := List.cons.inj heq
          obtain ⟨hd, _⟩ := List.cons.inj heq
          exact hopen ⟨body, by rw [hc, hd]⟩
      rw [List.cons_append, throughCommentEnd?_cons hopen', ih hbody]
      rfl

theorem commentBody_of_throughCommentEnd? {n : Nat} (h : throughCommentEnd? cs = some n) :
    n ≤ cs.length ∧ CommentBody (cs.take n) := by
  fun_induction throughCommentEnd? cs generalizing n with
  | case1 rest =>
    cases h
    exact ⟨Nat.le_add_left _ _, commentBody_closing⟩
  | case2 c cs hopen ih =>
    obtain ⟨m, hm, rfl⟩ := Option.map_eq_some_iff.mp h
    obtain ⟨hle, hbody⟩ := ih hm
    refine ⟨Nat.succ_le_succ hle, ?_⟩
    rw [List.take_succ_cons, commentBody_cons]
    · exact hbody
    · intro rest heq
      obtain ⟨hc, heq⟩ := List.cons.inj heq
      obtain ⟨tail, rfl⟩ := heq ▸ List.take_prefix m cs
      exact hopen _ hc rfl
  | case3 => cases h

/-! ### Symbols -/

theorem symbol_mem_all (s : Symbol) : s ∈ Symbol.all := by cases s <;> decide

/-- Of the symbols at the front of a text the scanner takes one that is as long as any. -/
theorem symbol?_longest {s s' : Symbol} (h : symbol? cs = some s)
    (hp : s'.text.toList <+: cs) : s'.text.length ≤ s.text.length := by
  have hsorted : Symbol.all.Pairwise fun a b => b.text.length ≤ a.text.length := by decide
  obtain ⟨_, longer, shorter, hall, hlonger⟩ := List.find?_eq_some_iff_append.mp h
  have hmem := symbol_mem_all s'
  rw [hall] at hmem hsorted
  rcases List.mem_append.mp hmem with hmem | hmem
  · have hno := hlonger s' hmem
    rw [List.isPrefixOf_iff_prefix.mpr hp] at hno
    cases hno
  · rcases List.mem_cons.mp hmem with rfl | hmem
    · exact le_rfl
    · exact (List.pairwise_cons.mp (List.pairwise_append.mp hsorted).2.1).1 s' hmem

theorem prefix_of_symbol? {s : Symbol} (h : symbol? cs = some s) : s.text.toList <+: cs :=
  List.isPrefixOf_iff_prefix.mp (List.find?_eq_some_iff_append.mp h).1

theorem lexeme_symbol_take {s : Symbol} (h : s.text.toList <+: c :: cs) :
    s.text.length - 1 ≤ cs.length ∧ s.text.toList = c :: cs.take (s.text.length - 1) := by
  have hlength : s.text.toList.length = s.text.length := String.length_toList
  have hpositive : 0 < s.text.length := by cases s <;> decide
  obtain ⟨n, hn⟩ := Nat.exists_eq_succ_of_ne_zero hpositive.ne'
  have hle := h.length_le
  have htake := List.prefix_iff_eq_take.mp h
  rw [hlength, hn, List.length_cons] at hle
  rw [hlength, hn, List.take_succ_cons] at htake
  rw [hn]
  exact ⟨Nat.le_of_succ_le_succ hle, htake⟩

/-! ### The scanner's choice -/

/-- The text ends, or goes on with a line feed. -/
def EndsLine (cs : List Char) : Prop := ∀ c ∈ cs.head?, c = '\n'

theorem endsLine_nil : EndsLine [] := fun c hc => absurd hc (Option.not_mem_none c)

theorem endsLine_newline (cs : List Char) : EndsLine ('\n' :: cs) := by
  rintro _ ⟨⟩
  rfl

theorem EndsLine.not_of_head {p : Char → Bool} (h : EndsLine rest) (hp : p '\n' = false) :
    ∀ c ∈ rest.head?, p c = false := by
  intro c hc
  rw [h c hc]
  exact hp

theorem munch?_digit (h : c.isDigit = true) (cs : List Char) : munch? c cs =
    some (numberKind (c :: cs.take (numberLength cs)), numberLength cs) :=
  if_pos h

theorem munch?_word (h : isWordStart c = true) (cs : List Char) : munch? c cs =
    some (wordKind (c :: cs.takeWhile isWordChar), (cs.takeWhile isWordChar).length) := by
  unfold munch?
  rw [if_neg (not_isDigit_of_isWordStart h), if_pos h]

theorem munch?_string {body : List Char} (h : QuotedBody body) (rest : List Char) :
    munch? '\x22' (body ++ '\x22' :: rest) = some (.string, body.length + 1) := by
  change (throughClosingQuote? (body ++ '\x22' :: rest)).map (Kind.string, ·) = _
  rw [throughClosingQuote?_of_quotedBody h]
  rfl

theorem munch?_symbol {s : Symbol} (h : s.text.toList = c :: text) (hs : s ≠ .slash)
    (cs : List Char) :
    munch? c cs = (symbol? (c :: cs)).map fun s => (.symbol s, s.text.length - 1) := by
  cases s with
  | slash => exact absurd rfl hs
  | _ =>
    obtain ⟨rfl, _⟩ := List.cons.inj h
    rfl

theorem munch?_line (rest : List Char) : munch? '/' ('/' :: rest) =
    some (.comment, (rest.takeWhile (· != '\n')).length + 1) := rfl

theorem munch?_block {body : List Char} (h : CommentBody body) (rest : List Char) :
    munch? '/' ('*' :: (body ++ rest)) = some (.comment, body.length + 1) := by
  change (throughCommentEnd? (body ++ rest)).map (fun n => (Kind.comment, n + 1)) = _
  rw [throughCommentEnd?_of_commentBody h]
  rfl

/-- What is taken is a lexeme of the kind that it is given. -/
theorem lexeme_of_munch? {kind : Kind} {n : Nat} (h : munch? c cs = some (kind, n)) :
    n ≤ cs.length ∧ kind.Lexeme (c :: cs.take n) := by
  by_cases hdigit : c.isDigit = true
  · rw [munch?_digit hdigit] at h
    cases h
    exact ⟨numberLength_le cs, numberKind_lexeme (isNumber_take hdigit cs)⟩
  by_cases hword : isWordStart c = true
  · rw [munch?_word hword] at h
    cases h
    have hlead := List.takeWhile_prefix (l := cs) isWordChar
    refine ⟨hlead.length_le, ?_⟩
    rw [← List.prefix_iff_eq_take.mp hlead]
    exact wordKind_lexeme ⟨hword, fun d hd => List.mem_takeWhile_imp hd⟩
  unfold munch? at h
  rw [if_neg hdigit, if_neg hword] at h
  split at h
  · obtain ⟨m, hm, heq⟩ := Option.map_eq_some_iff.mp h
    cases heq
    obtain ⟨body, rest, rfl, hbody, rfl⟩ := quotedBody_of_throughClosingQuote? hm
    refine ⟨by simp, body, ?_, hbody⟩
    rw [List.take_length_add_append]
    rfl
  · rename_i rest
    cases h
    have hlead := List.takeWhile_prefix (l := rest) (· != '\n')
    refine ⟨Nat.succ_le_succ hlead.length_le, .inl ⟨rest.takeWhile (· != '\n'), ?_, ?_⟩⟩
    · rw [List.take_succ_cons, ← List.prefix_iff_eq_take.mp hlead]
    · exact fun hmem => absurd (List.mem_takeWhile_imp hmem) (by decide)
  · obtain ⟨m, hm, heq⟩ := Option.map_eq_some_iff.mp h
    cases heq
    obtain ⟨hle, hbody⟩ := commentBody_of_throughCommentEnd? hm
    exact ⟨Nat.succ_le_succ hle, .inr ⟨_, by rw [List.take_succ_cons], hbody⟩⟩
  · obtain ⟨s, hs, heq⟩ := Option.map_eq_some_iff.mp h
    cases heq
    obtain ⟨hle, htake⟩ := lexeme_symbol_take (prefix_of_symbol? hs)
    exact ⟨hle, htake.symm⟩

/-- No lexeme of any kind that stands there is longer than what is taken. -/
theorem length_le_of_munch? {kind kind' : Kind} {n : Nat} (h : munch? c cs = some (kind, n))
    (hl : kind'.Lexeme (c :: text)) (hp : text <+: cs) : text.length ≤ n := by
  have hnumber : IsNumber (c :: text) → text.length ≤ n := by
    intro hnumber
    rw [munch?_digit (isNumber_cons.mp hnumber).1] at h
    cases h
    exact length_le_numberLength hnumber hp
  have hword : IsWord (c :: text) → text.length ≤ n := by
    rintro ⟨hstart, htext⟩
    rw [munch?_word hstart] at h
    cases h
    exact length_le_takeWhile htext hp
  obtain ⟨post, rfl⟩ := hp
  cases kind' with
  | comment =>
    rcases hl with ⟨line, heq, hline⟩ | ⟨body, heq, hbody⟩
    · obtain ⟨rfl, rfl⟩ := List.cons.inj heq
      rw [List.cons_append, munch?_line] at h
      cases h
      have hlead := List.prefix_append line post
      exact Nat.succ_le_succ (length_le_takeWhile (bne_newline hline) hlead)
    · obtain ⟨rfl, rfl⟩ := List.cons.inj heq
      rw [List.cons_append, munch?_block hbody] at h
      cases h
      exact le_rfl
  | keyword k =>
    have hk := k.isWord
    rw [← show c :: text = k.text.toList from hl] at hk
    exact hword hk
  | integer => exact hnumber (.inl (IsInteger.digits hl))
  | float => exact hnumber hl.1
  | string =>
    obtain ⟨body, heq, hbody⟩ := hl
    obtain ⟨rfl, rfl⟩ := List.cons.inj heq
    rw [List.append_assoc, List.singleton_append, munch?_string hbody] at h
    cases h
    rw [List.length_append, List.length_singleton]
  | identifier => exact hword hl.1
  | symbol s =>
    have hs : s.text.toList = c :: text := Eq.symm hl
    have hlength : text.length + 1 = s.text.length := by
      rw [← String.length_toList, hs, List.length_cons]
    by_cases hslash : s = .slash
    · subst hslash
      have : text.length + 1 = 1 := hlength
      omega
    · rw [munch?_symbol hs hslash] at h
      obtain ⟨s', hs', heq⟩ := Option.map_eq_some_iff.mp h
      cases heq
      have hlead : s.text.toList <+: c :: (text ++ post) := by
        rw [hs, ← List.cons_append]
        exact List.prefix_append (c :: text) post
      have hlongest := symbol?_longest hs' hlead
      omega
  | eof => exact hl.elim

/-- A symbol is taken as a whole at the end of a line. -/
theorem munch?_symbol_append {s : Symbol} (h : s.text.toList = c :: text) (hrest : EndsLine rest) :
    munch? c (text ++ rest) = some (.symbol s, text.length) := by
  cases rest with
  | nil => cases s <;> (obtain ⟨rfl, rfl⟩ := List.cons.inj h; rfl)
  | cons d rest =>
    obtain rfl := hrest d rfl
    cases s <;> (obtain ⟨rfl, rfl⟩ := List.cons.inj h; rfl)

/-- At the end of a line a lexeme is taken as a whole, for one of its kind. -/
theorem munch?_lexeme_append {kind : Kind} (h : kind.Lexeme (c :: text)) (hrest : EndsLine rest) :
    munch? c (text ++ rest) = some (kind, text.length) := by
  have hnumber : IsNumber (c :: text) →
      munch? c (text ++ rest) = some (numberKind (c :: text), text.length) := by
    intro hnumber
    have hlength := numberLength_append hnumber (hrest.not_of_head rfl)
    rw [munch?_digit (isNumber_cons.mp hnumber).1, hlength, List.take_left]
  have hword : IsWord (c :: text) →
      munch? c (text ++ rest) = some (wordKind (c :: text), text.length) := by
    rintro ⟨hstart, htext⟩
    rw [munch?_word hstart, takeWhile_append_of_head htext (hrest.not_of_head rfl)]
  cases kind with
  | comment =>
    rcases h with ⟨line, heq, hline⟩ | ⟨body, heq, hbody⟩
    · obtain ⟨rfl, rfl⟩ := List.cons.inj heq
      have htake := takeWhile_append_of_head (bne_newline hline) (hrest.not_of_head rfl)
      rw [List.cons_append, munch?_line, htake, List.length_cons]
    · obtain ⟨rfl, rfl⟩ := List.cons.inj heq
      exact munch?_block hbody rest
  | keyword k =>
    have htext : c :: text = k.text.toList := h
    have hk := k.isWord
    rw [← htext] at hk
    rw [hword hk, wordKind_of_eq htext]
  | integer =>
    rw [hnumber (.inl (IsInteger.digits h)), numberKind_of_isInteger h]
  | float =>
    rw [hnumber h.1, numberKind_of_not_isInteger h.2 (List.cons_ne_nil c text)]
  | string =>
    obtain ⟨body, heq, hbody⟩ := h
    obtain ⟨rfl, rfl⟩ := List.cons.inj heq
    rw [List.append_assoc, List.singleton_append, munch?_string hbody, List.length_append,
      List.length_singleton]
  | identifier => rw [hword h.1, wordKind_of_ne h.2]
  | symbol s => exact munch?_symbol_append (Eq.symm h) hrest
  | eof => exact h.elim

/-- A lexeme alone is taken as a whole, for one of its kind. -/
theorem munch?_of_lexeme {kind : Kind} (h : kind.Lexeme (c :: text)) :
    munch? c text = some (kind, text.length) := by
  have hmunch := munch?_lexeme_append h endsLine_nil
  rwa [List.append_nil] at hmunch

end Lexer

/-- A text is a lexeme of one kind at most. -/
theorem Kind.Lexeme.unique {kind kind' : Kind} (h : kind.Lexeme (c :: text))
    (h' : kind'.Lexeme (c :: text)) : kind = kind' := by
  have hmunch := (Lexer.munch?_of_lexeme h).symm.trans (Lexer.munch?_of_lexeme h')
  exact congrArg Prod.fst (Option.some.inj hmunch)

end MooScript
