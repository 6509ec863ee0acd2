import MooScript.Proofs.Lexing.Scan

/-! Where scanning stops: what begins no token, said without the scanner, and that the first such
place of a text is the one that is reported. -/
namespace MooScript

variable {source : String} {place : Cursor} {c : Char} {cs rest text : List Char} {kind : Kind}
  {tokens : List Token}

namespace Lexer

/-- No token can be read off the front of such a text, which is not one of blanks either. -/
inductive Offence : List Char → Prop
  | character {c : Char} {cs : List Char} (hc : isBlank c = false)
      (h : ∀ (kind : Kind) (text : List Char), ¬ kind.Lexeme (c :: text)) : Offence (c :: cs)
  | lone {c : Char} {cs : List Char} (hc : c = '&' ∨ c = '|') (h : cs.head? ≠ some c) :
      Offence (c :: cs)
  | comment {cs : List Char} (h : ¬ ['*', '/'] <:+: cs) : Offence ('/' :: '*' :: cs)
  | string {cs : List Char} (h : ∀ body, QuotedBody body → ¬ body ++ ['\x22'] <+: cs) :
      Offence ('\x22' :: cs)

/-- The longest text of a token at the front of `text ++ rest` is `text`. -/
structure Longest (kind : Kind) (text rest : List Char) : Prop where
  lexeme : kind.Lexeme text
  longest : ∀ (kind' : Kind) (longer : List Char), kind'.Lexeme longer →
    longer <+: text ++ rest → longer.length ≤ text.length

/-- From `place` on a text is read as blanks and as tokens, each as long as can be, and with `rest`
behind it nowhere stops. -/
inductive Scanned (rest : List Char) : Cursor → List Char → List Token → Prop
  | done {place : Cursor} : Scanned rest place [] []
  | blank {place : Cursor} {c : Char} {read : List Char} {tokens : List Token}
      (hc : isBlank c = true) (h : Scanned rest (place.next c) read tokens) :
      Scanned rest place (c :: read) tokens
  | token {place : Cursor} {kind : Kind} {text read : List Char} {tokens : List Token}
      (hlongest : Longest kind text (read ++ rest)) (hgoes : ¬ Offence (text ++ (read ++ rest)))
      (h : Scanned rest (place.after text) read tokens) :
      Scanned rest place (text ++ read) (tokenAt place kind text :: tokens)

/-! ### What the scanner takes for an offence -/

theorem throughCommentEnd?_eq_none_iff :
    throughCommentEnd? cs = none ↔ ¬ ['*', '/'] <:+: cs := by
  fun_induction throughCommentEnd? cs with
  | case1 rest =>
    have hclosed : ['*', '/'] <:+: '*' :: '/' :: rest := (List.prefix_append _ rest).isInfix
    simp [hclosed]
  | case2 c cs hopen ih =>
    have hhead : ¬ ['*', '/'] <+: c :: cs := by
      rintro ⟨rest, heq⟩
      obtain ⟨rfl, rfl⟩ := List.cons.inj heq
      exact hopen _ rfl rfl
    rw [Option.map_eq_none_iff, ih, List.infix_cons_iff, or_iff_right hhead]
  | case3 => simp

theorem throughClosingQuote?_eq_none_iff : throughClosingQuote? cs = none ↔
    ∀ body, QuotedBody body → ¬ body ++ ['\x22'] <+: cs := by
  constructor
  · rintro hnone body hbody ⟨rest, rfl⟩
    rw [List.append_assoc, List.singleton_append, throughClosingQuote?_of_quotedBody hbody]
      at hnone
    cases hnone
  · intro hopen
    refine Option.eq_none_iff_forall_ne_some.mpr fun n hn => ?_
    obtain ⟨body, rest, rfl, hbody, _⟩ := quotedBody_of_throughClosingQuote? hn
    refine hopen body hbody ⟨rest, ?_⟩
    rw [List.append_assoc, List.singleton_append]

theorem symbol?_eq_none_iff : symbol? cs = none ↔ ∀ s : Symbol, ¬ s.text.toList <+: cs := by
  simp only [symbol?, List.find?_eq_none, List.isPrefixOf_iff_prefix]
  exact ⟨fun h s => h s (symbol_mem_all s), fun h s _ => h s⟩

/-- Two characters alone begin symbols without being one. -/
theorem symbol?_singleton {s : Symbol} (h : s.text.toList = c :: text) :
    (∃ s', symbol? [c] = some s') ∨ c = '&' ∨ c = '|' := by
  rw [← Option.isSome_iff_exists]
  cases s <;> (obtain ⟨rfl, rfl⟩ := List.cons.inj h; decide)

theorem head?_ne_of_none (hnone : symbol? (c :: cs) = none) (hc : c = '&' ∨ c = '|') :
    cs.head? ≠ some c := by
  intro hhead
  obtain ⟨tail, rfl⟩ := List.head?_eq_some_iff.mp hhead
  have hsymbol := symbol?_eq_none_iff.mp hnone
  rcases hc with rfl | rfl
  · exact hsymbol .ampAmp (List.prefix_append ['&', '&'] tail)
  · exact hsymbol .pipePipe (List.prefix_append ['|', '|'] tail)

theorem symbol?_of_head?_ne (hc : c = '&' ∨ c = '|') (h : cs.head? ≠ some c) :
    symbol? (c :: cs) = none := by
  refine symbol?_eq_none_iff.mpr fun s => ?_
  rintro ⟨tail, heq⟩
  rcases hc with rfl | rfl <;> cases s <;> simp [Symbol.text] at heq
  · exact h (by rw [← heq]; rfl)
  · exact h (by rw [← heq]; rfl)

/-- What a lexeme can begin with. -/
theorem head_of_lexeme (h : kind.Lexeme (c :: text)) : c.isDigit = true ∨ isWordStart c = true ∨
    c = '\x22' ∨ ∃ (s : Symbol) (tail : List Char), s.text.toList = c :: tail := by
  have hword : IsWord (c :: text) → isWordStart c = true := And.left
  cases kind with
  | comment =>
    have hslash : c = '/' := by
      rcases h with ⟨line, heq, _⟩ | ⟨body, heq, _⟩ <;> exact (List.cons.inj heq).1
    exact .inr (.inr (.inr ⟨.slash, [], by rw [hslash]; rfl⟩))
  | keyword k =>
    have hk := k.isWord
    rw [← show c :: text = k.text.toList from h] at hk
    exact .inr (.inl (hword hk))
  | integer => exact .inl (isDigits_cons.mp (IsInteger.digits h)).1
  | float => exact .inl (isNumber_cons.mp h.1).1
  | string =>
    obtain ⟨body, heq, _⟩ := h
    exact .inr (.inr (.inl (List.cons.inj heq).1))
  | identifier => exact .inr (.inl (hword h.1))
  | symbol s => exact .inr (.inr (.inr ⟨s, text, Eq.symm h⟩))
  | eof => exact h.elim

theorem offence_of_munch? (hc : isBlank c = false) (h : munch? c cs = none) :
    Offence (c :: cs) := by
  by_cases hdigit : c.isDigit = true
  · rw [munch?_digit hdigit] at h
    cases h
  by_cases hword : isWordStart c = true
  · rw [munch?_word hword] at h
    cases h
  unfold munch? at h
  rw [if_neg hdigit, if_neg hword] at h
  split at h
  next => exact .string (throughClosingQuote?_eq_none_iff.mp (Option.map_eq_none_iff.mp h))
  next => cases h
  next => exact .comment (throughCommentEnd?_eq_none_iff.mp (Option.map_eq_none_iff.mp h))
  next hquote _ _ =>
    have hnone := Option.map_eq_none_iff.mp h
    by_cases hlone : c = '&' ∨ c = '|'
    · exact .lone hlone (head?_ne_of_none hnone hlone)
    refine .character hc fun kind text hl => ?_
    rcases head_of_lexeme hl with hd | hw | hq | ⟨s, tail, hs⟩
    · exact hdigit hd
    · exact hword hw
    · exact hquote hq
    · -- Its first character alone would do.
      obtain ⟨s', hs'⟩ := (symbol?_singleton hs).resolve_right hlone
      exact symbol?_eq_none_iff.mp hnone s'
        ((prefix_of_symbol? hs').trans (List.prefix_append [c] cs))

theorem Offence.isBlank (h : Offence (c :: cs)) : isBlank c = false := by
  cases h with
  | character hc => exact hc
  | lone hc => rcases hc with rfl | rfl <;> rfl
  | comment | string => rfl

theorem Offence.munch? (h : Offence (c :: cs)) : munch? c cs = none := by
  cases h with
  | character hc h =>
    refine Option.eq_none_iff_forall_ne_some.mpr fun taken hm => ?_
    exact h taken.1 _ (lexeme_of_munch? hm).2
  | lone hc h =>
    have hnone := symbol?_of_head?_ne hc h
    rcases hc with rfl | rfl <;> exact congrArg (Option.map _) hnone
  | comment h => exact Option.map_eq_none_iff.mpr (throughCommentEnd?_eq_none_iff.mpr h)
  | string h => exact Option.map_eq_none_iff.mpr (throughClosingQuote?_eq_none_iff.mpr h)

/-! ### Tokens as long as can be -/

theorem longest_of_munch? {n : Nat} (h : munch? c cs = some (kind, n)) :
    Longest kind (c :: cs.take n) (cs.drop n) ∧ ¬ Offence (c :: cs) := by
  obtain ⟨hle, hlexeme⟩ := lexeme_of_munch? h
  refine ⟨⟨hlexeme, fun kind' longer hl hlead => ?_⟩, fun hoffence => ?_⟩
  · obtain ⟨d, tail, rfl⟩ := hl.exists_cons
    rw [List.cons_append, List.take_append_drop, List.cons_prefix_cons] at hlead
    obtain ⟨rfl, hlead⟩ := hlead
    rw [List.length_cons, List.length_cons, List.length_take_of_le hle]
    exact Nat.succ_le_succ (length_le_of_munch? h hl hlead)
  · rw [hoffence.munch?] at h
    cases h

theorem Longest.munch? (h : Longest kind (c :: text) rest)
    (hgoes : ¬ Offence (c :: (text ++ rest))) :
    munch? c (text ++ rest) = some (kind, text.length) := by
  have hblank := isBlank_of_munch? (munch?_of_lexeme h.lexeme)
  cases hm : Lexer.munch? c (text ++ rest) with
  | none => exact absurd (offence_of_munch? hblank hm) hgoes
  | some taken =>
    obtain ⟨kind', n⟩ := taken
    obtain ⟨hle, hlexeme⟩ := lexeme_of_munch? hm
    have hlead : c :: (text ++ rest).take n <+: c :: text ++ rest :=
      List.cons_prefix_cons.mpr ⟨rfl, List.take_prefix n _⟩
    have hshort := h.longest kind' _ hlexeme hlead
    rw [List.length_cons, List.length_cons, List.length_take_of_le hle] at hshort
    have hlong := length_le_of_munch? hm h.lexeme (List.prefix_append text rest)
    obtain rfl : n = text.length := by omega
    rw [List.take_left] at hlexeme
    rw [hlexeme.unique h.lexeme]

/-- What stops the scanner in front of a text stops it with less of the text there, but for the
slash of a comment that is not there any more. -/
theorem Offence.of_append (h : Offence (c :: (text ++ rest))) :
    Offence (c :: text) ∨ c = '/' ∧ text = [] ∧ ∃ cs, rest = '*' :: cs := by
  generalize hcs : text ++ rest = cs at h
  cases h with
  | character hc h => exact .inl (.character hc h)
  | lone hc h =>
    refine .inl (.lone hc fun hhead => h ?_)
    rw [← hcs, List.head?_append, hhead, Option.some_or]
  | comment h =>
    rename_i cs
    cases text with
    | nil => exact .inr ⟨rfl, rfl, cs, hcs⟩
    | cons d text =>
      obtain ⟨rfl, rfl⟩ := List.cons.inj hcs
      exact .inl (.comment fun hclosed => h (hclosed.trans (List.prefix_append text rest).isInfix))
  | string h =>
    refine .inl (.string fun body hbody hlead => h body hbody ?_)
    rw [← hcs]
    exact hlead.trans (List.prefix_append text rest)

/-- A token is found again without what does not belong to it. -/
theorem Longest.not_offence {read : List Char} (h : Longest kind text (read ++ rest))
    (hgoes : ¬ Offence (text ++ (read ++ rest))) : ¬ Offence (text ++ read) := by
  obtain ⟨c, text, rfl⟩ := h.lexeme.exists_cons
  have hm := h.munch? hgoes
  intro hoffence
  rcases hoffence.of_append with hoffence | ⟨rfl, rfl, cs, rfl⟩
  · have hnone := hoffence.munch?
    rw [munch?_of_lexeme h.lexeme] at hnone
    cases hnone
  · obtain ⟨n, _, heq⟩ := Option.map_eq_some_iff.mp hm
    cases heq

theorem Longest.of_append {read : List Char} (h : Longest kind text (read ++ rest)) :
    Longest kind text read :=
  ⟨h.lexeme, fun kind' longer hl hlead => h.longest kind' longer hl <| hlead.trans <| by
    rw [← List.append_assoc]
    exact List.prefix_append _ rest⟩

/-! ### Up to the offence -/

theorem Scanned.of_append (h : Scanned rest place cs tokens) : Scanned [] place cs tokens := by
  induction h with
  | done => exact .done
  | blank hc h ih => exact .blank hc ih
  | token hlongest hgoes h ih =>
    have hgoes' := hlongest.not_offence hgoes
    refine .token ?_ ?_ ih
    · rw [List.append_nil]
      exact hlongest.of_append
    · rwa [List.append_nil]

/-- The scanner goes through what can be read, and on with the rest. -/
theorem Scanned.scan (h : Scanned rest place cs tokens) :
    scan place (cs ++ rest) = (scan (place.after cs) rest).map (tokens ++ ·) := by
  induction h with
  | done =>
    rename_i place
    rw [List.nil_append, Cursor.after_nil]
    cases Lexer.scan place rest <;> rfl
  | blank hc h ih => rw [List.cons_append, scan_blank hc, ih, Cursor.after_cons]
  | token hlongest hgoes h ih =>
    rename_i place kind text read tokens
    obtain ⟨c, text, rfl⟩ := hlongest.lexeme.exists_cons
    rw [List.append_assoc, List.cons_append, scan_munch place (hlongest.munch? hgoes), ih,
      Cursor.after_append]
    cases Lexer.scan ((place.after (c :: text)).after read) rest <;> rfl

theorem Scanned.scan_eq_ok (h : Scanned rest place cs tokens) :
    Lexer.scan place cs = .ok tokens := by
  have hscan := h.of_append.scan
  rw [List.append_nil, scan_nil] at hscan
  rw [hscan]
  exact congrArg Except.ok (List.append_nil tokens)

theorem Offence.scan (h : Offence (c :: cs)) (place : Cursor) :
    Lexer.scan place (c :: cs) = .error ⟨c, place⟩ := by
  rw [Lexer.scan, h.isBlank, if_neg Bool.false_ne_true, h.munch?]

theorem Scanned.scan_eq_error (h : Scanned (c :: rest) place cs tokens)
    (hoffence : Offence (c :: rest)) :
    Lexer.scan place (cs ++ c :: rest) = .error ⟨c, place.after cs⟩ := by
  rw [h.scan, hoffence.scan]
  rfl

theorem exists_offence_of_scan {e : LexicalError} (h : scan place cs = .error e) :
    ∃ read c rest tokens, cs = read ++ c :: rest ∧ Scanned (c :: rest) place read tokens ∧
      Offence (c :: rest) ∧ e = ⟨c, place.after read⟩ := by
  fun_induction scan place cs with
  | case1 place => cases h
  | case2 place c cs hblank ih =>
    obtain ⟨read, d, rest, tokens, rfl, hread, hoffence, rfl⟩ := ih h
    exact ⟨c :: read, d, rest, tokens, rfl, .blank hblank hread, hoffence, rfl⟩
  | case3 place c cs hblank hmunch =>
    cases h
    have hoffence := offence_of_munch? (Bool.not_eq_true _ ▸ hblank) hmunch
    exact ⟨[], c, cs, [], rfl, .done, hoffence, rfl⟩
  | case4 place c cs hblank kind n hmunch text stop ih =>
    cases hscan : scan stop (cs.drop n) with
    | ok tokens =>
      rw [hscan] at h
      cases h
    | error e' =>
      rw [hscan] at h
      cases h
      obtain ⟨read, d, rest, tokens, hdrop, hread, hoffence, rfl⟩ := ih hscan
      obtain ⟨hlongest, hgoes⟩ := longest_of_munch? hmunch
      have hsplit : c :: cs = text ++ (read ++ d :: rest) := by
        rw [← hdrop, List.cons_append, List.take_append_drop]
      rw [hdrop] at hlongest
      rw [hsplit] at hgoes
      refine ⟨text ++ read, d, rest, _, ?_, .token hlongest hgoes hread, hoffence, ?_⟩
      · rw [hsplit, List.append_assoc]
      · rw [Cursor.after_append]

/-- Up to the byte offset the source is read as the tokens and blanks, and there it goes no
further. -/
def StopsAt (source : String) (offset : Nat) (tokens : List Token) : Prop :=
  ∃ read rest, source.toList = read ++ rest ∧ (String.ofList read).utf8ByteSize = offset ∧
    Scanned rest .start read tokens ∧ Offence rest

theorem stopsAt_of_lex {e : LexicalError} (h : Token.lex source = .error e) :
    ∃ tokens, StopsAt source e.location.span.start tokens := by
  obtain ⟨read, c, rest, tokens, hsource, hread, hoffence, rfl⟩ := exists_offence_of_scan h
  exact ⟨tokens, read, c :: rest, hsource, (start_offset read).symm, hread, hoffence⟩

/-- The error, and the text in front of it. -/
theorem StopsAt.lex {offset : Nat} (h : StopsAt source offset tokens) :
    ∃ (e : LexicalError) (before after : String), Token.lex source = .error e ∧
      source = before ++ (String.singleton e.found ++ after) ∧ before.utf8ByteSize = offset ∧
      e.location.span = ⟨offset, offset + e.found.utf8Size⟩ ∧
      (LineIndex.ofSource source).position? offset = some e.location.position ∧
      Token.lex before = .ok tokens := by
  obtain ⟨read, rest, hsource, rfl, hread, hoffence⟩ := h
  obtain ⟨c, rest, rfl⟩ : ∃ c cs, rest = c :: cs := by
    cases hoffence <;> exact ⟨_, _, rfl⟩
  refine ⟨⟨c, Cursor.start.after read⟩, String.ofList read, String.ofList rest, ?_, ?_, rfl, ?_,
    LineIndex.position?_after hsource, ?_⟩
  · rw [Token.lex, hsource]
    exact hread.scan_eq_error hoffence
  · rw [← String.toList_inj, hsource]
    simp
  · simp only [LexicalError.location, start_offset]
  · rw [Token.lex, String.toList_ofList]
    exact hread.scan_eq_ok

end Lexer

/-- A text fails at the first place that begins no token, and nowhere else: the error is one of the
character there, and what stands in front of it is read without it. -/
theorem Token.lex_error_iff (source : String) (offset : Nat) :
    ((∃ e, lex source = .error e ∧ e.location.span.start = offset) ↔
      ∃ tokens, Lexer.StopsAt source offset tokens) ∧
    ∀ tokens, Lexer.StopsAt source offset tokens →
      ∃ (e : LexicalError) (before after : String), lex source = .error e ∧
        source = before ++ (String.singleton e.found ++ after) ∧ before.utf8ByteSize = offset ∧
        e.location.span = ⟨offset, offset + e.found.utf8Size⟩ ∧
        (LineIndex.ofSource source).position? offset = some e.location.position ∧
        lex before = .ok tokens := by
  refine ⟨⟨?_, ?_⟩, fun tokens h => h.lex⟩
  · rintro ⟨e, h, rfl⟩
    exact Lexer.stopsAt_of_lex h
  · rintro ⟨tokens, h⟩
    obtain ⟨e, _, _, hlex, _, _, hspan, _⟩ := h.lex
    exact ⟨e, hlex, congrArg Span.start hspan⟩

/-- A comment without an end, whose slash would do alone. -/
theorem Token.lex_error_iff_comment :
    let source := "\"é\"/2 /*/ \""
    lex source = .error ⟨'/', 7, 1, 7⟩ ∧ ∃ tokens, Lexer.StopsAt source 7 tokens := by
  intro source
  have hlex : lex source = .error ⟨'/', 7, 1, 7⟩ := by cbv
  exact ⟨hlex, (lex_error_iff source 7).1.mp ⟨_, hlex, rfl⟩⟩

end MooScript
