import MooScript.Proofs.Lexing.Scan
import MooScript.Proofs.Literal.Text
import MooScript.Proofs.Syntax.Rendering

/-! Texts that are scanned to the tokens of given words, in front of what separates the elements of
a list. -/
namespace MooScript.Lexer

variable {c : Char} {cs cs' rest text : List Char} {w : Word} {ws ws' : List Word} {kind : Kind}
  {s : Symbol}

/-- The text ends, or goes on with a comma or a closing brace. -/
def Separates (cs : List Char) : Prop := ∀ c ∈ cs.head?, c = ',' ∨ c = '\x7d'

theorem separates_nil : Separates [] := fun c hc => absurd hc (Option.not_mem_none c)

theorem separates_comma (cs : List Char) : Separates (',' :: cs) := by
  rintro _ ⟨⟩
  exact .inl rfl

theorem separates_brace (cs : List Char) : Separates ('\x7d' :: cs) := by
  rintro _ ⟨⟩
  exact .inr rfl

theorem Separates.not_of_head {p : Char → Bool} (h : Separates rest) (hcomma : p ',' = false)
    (hbrace : p '\x7d' = false) : ∀ c ∈ rest.head?, p c = false := by
  intro c hc
  rcases h c hc with rfl | rfl
  · exact hcomma
  · exact hbrace

/-- In front of a separator, the text is scanned to tokens that fit the words. -/
def Scans (cs : List Char) (ws : List Word) : Prop :=
  ∀ place rest tokens, Separates rest → scan (place.after cs) rest = .ok tokens →
    ∃ ts, scan place (cs ++ rest) = .ok ts ∧ Spelled ts ws tokens

theorem scans_nil : Scans [] [] := fun _ _ tokens _ hscan => ⟨tokens, hscan, .nil⟩

theorem Scans.append (h : Scans cs ws) (h' : Scans cs' ws')
    (hsep : ∀ rest, Separates rest → Separates (cs' ++ rest)) :
    Scans (cs ++ cs') (ws ++ ws') := by
  intro place rest tokens hrest hscan
  rw [Cursor.after_append] at hscan
  obtain ⟨ts', hts', hspelled'⟩ := h' (place.after cs) rest tokens hrest hscan
  obtain ⟨ts, hts, hspelled⟩ := h place (cs' ++ rest) ts' (hsep rest hrest) hts'
  refine ⟨ts, ?_, Spelled.append_iff.mpr ⟨ts', hspelled, hspelled'⟩⟩
  rw [List.append_assoc, hts]

theorem Scans.blank (hc : isBlank c = true) (h : Scans cs ws) : Scans (c :: cs) ws := by
  intro place rest tokens hrest hscan
  obtain ⟨ts, hts, hspelled⟩ := h (place.next c) rest tokens hrest hscan
  refine ⟨ts, ?_, hspelled⟩
  rw [List.cons_append, scan_blank hc, hts]

/-- A symbol that is one character, and of which no longer one begins with it. -/
theorem Scans.symbol (hm : ∀ cs, munch? c cs = some (.symbol s, 0))
    (hw : w.kind = .symbol s) (h : Scans cs ws) : Scans (c :: cs) (w :: ws) := by
  intro place rest tokens hrest hscan
  obtain ⟨ts, hts, hspelled⟩ := h (place.after [c]) rest tokens hrest hscan
  have hscanned : scan place (c :: ([] ++ (cs ++ rest))) =
      .ok (tokenAt place (.symbol s) [c] :: ts) := scan_token place (hm (cs ++ rest)) hts
  refine ⟨_, hscanned, .word ⟨hw.symm, fun hv => ?_⟩ hspelled⟩
  rw [hw] at hv
  cases hv

theorem scans_token
    (hm : ∀ rest, Separates rest → munch? c (cs ++ rest) = some (kind, cs.length)) :
    Scans (c :: cs) [⟨kind, some (String.ofList (c :: cs))⟩] := by
  intro place rest tokens hrest hscan
  refine ⟨_, scan_token place (hm rest hrest) hscan, .word ⟨rfl, ?_⟩ .nil⟩
  exact fun _ text htext => Option.some.inj htext

theorem scans_number (h : IsDigits text) :
    Scans text [⟨numberKind text, some (String.ofList text)⟩] := by
  cases text with
  | nil => exact absurd rfl h.nonempty
  | cons c cs =>
    obtain ⟨hc, hcs⟩ := isDigits_cons.mp h
    refine scans_token fun rest hrest => ?_
    have hlength := numberLength_append (.inl h) (hrest.not_of_head rfl rfl)
    rw [munch?_digit hc, hlength, List.take_left]

theorem scans_word (h : IsWord text) :
    Scans text [⟨wordKind text, some (String.ofList text)⟩] := by
  cases text with
  | nil => cases h
  | cons c cs =>
    obtain ⟨hc, hcs⟩ := h
    refine scans_token fun rest hrest => ?_
    rw [munch?_word hc, takeWhile_append_of_head hcs (hrest.not_of_head rfl rfl)]

theorem scans_quoted (s : String) :
    Scans (Text.quoted s).toList [⟨.string, some (Text.quoted s)⟩] := by
  have htext : (Text.quoted s).toList = '\x22' :: (s.toList.flatMap Text.escaped ++ ['\x22']) :=
    String.toList_ofList
  have hquoted : Text.quoted s =
      String.ofList ('\x22' :: (s.toList.flatMap Text.escaped ++ ['\x22'])) := rfl
  rw [htext, hquoted]
  refine scans_token fun rest _ => ?_
  rw [List.append_assoc, List.length_append]
  exact munch?_string (Text.quotedBody_escaped s.toList) rest

end MooScript.Lexer
