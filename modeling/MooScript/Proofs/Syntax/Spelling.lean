import MooScript.Proofs.Syntax.Words

/-! Token lists that spell the words of a tree. -/
namespace MooScript

/-- Kinds with tokens of many texts; a token of any other kind is told by its kind. -/
def Kind.varies : Kind → Bool
  | integer | float | string | identifier => true
  | _ => false

/-- The token is of the word's kind, and has its text if texts differ within the kind. -/
def Word.Fits (w : Word) (t : Token) : Prop :=
  t.kind = w.kind ∧ (w.kind.varies = true → ∀ text ∈ w.text?, t.text = text)

/-- The tokens of `ts` up to `rest` fit the words, one after the other. -/
inductive Spelled : List Token → List Word → List Token → Prop
  | nil {ts} : Spelled ts [] ts
  | word {t ts rest} {w : Word} {ws} (hw : w.Fits t) (h : Spelled ts ws rest) :
    Spelled (t :: ts) (w :: ws) rest

namespace Spelled

variable {t : Token} {ts rest : List Token} {w : Word} {ws ws' : List Word}

theorem nil_iff : Spelled ts [] rest ↔ ts = rest := by
  constructor
  · rintro ⟨⟩
    rfl
  · rintro rfl
    exact .nil

theorem cons_iff :
    Spelled ts (w :: ws) rest ↔ ∃ t mid, ts = t :: mid ∧ w.Fits t ∧ Spelled mid ws rest := by
  constructor
  · rintro (_ | ⟨hw, h⟩)
    exact ⟨_, _, rfl, hw, h⟩
  · rintro ⟨t, mid, rfl, hw, h⟩
    exact .word hw h

theorem singleton_iff : Spelled ts [w] rest ↔ ∃ t, ts = t :: rest ∧ w.Fits t := by
  simp only [cons_iff, nil_iff]
  constructor
  · rintro ⟨t, _, rfl, hw, rfl⟩
    exact ⟨t, rfl, hw⟩
  · rintro ⟨t, rfl, hw⟩
    exact ⟨t, rest, rfl, hw, rfl⟩

theorem append_iff :
    Spelled ts (ws ++ ws') rest ↔ ∃ mid, Spelled ts ws mid ∧ Spelled mid ws' rest := by
  induction ws generalizing ts with
  | nil => simp only [List.nil_append, nil_iff, exists_eq_left']
  | cons w ws ih =>
    simp only [List.cons_append, cons_iff, ih]
    constructor
    · rintro ⟨t, _, rfl, hw, mid, h, h'⟩
      exact ⟨mid, ⟨t, _, rfl, hw, h⟩, h'⟩
    · rintro ⟨mid, ⟨t, _, rfl, hw, h⟩, h'⟩
      exact ⟨t, _, rfl, hw, mid, h, h'⟩

theorem symbol {s : Symbol} (h : Spelled ts (.symbol s :: ws) rest) :
    ∃ t mid, ts = t :: mid ∧ t.kind = .symbol s ∧ Spelled mid ws rest := by
  obtain ⟨t, mid, rfl, hw, h⟩ := cons_iff.mp h
  exact ⟨t, mid, rfl, hw.1, h⟩

theorem keyword {k : Keyword} (h : Spelled ts (.keyword k :: ws) rest) :
    ∃ t mid, ts = t :: mid ∧ t.kind = .keyword k ∧ Spelled mid ws rest := by
  obtain ⟨t, mid, rfl, hw, h⟩ := cons_iff.mp h
  exact ⟨t, mid, rfl, hw.1, h⟩

theorem own {k : Kind} (h : Spelled ts (.own k t :: ws) rest) :
    ∃ t' mid, ts = t' :: mid ∧ t'.kind = k ∧ Spelled mid ws rest := by
  obtain ⟨t', mid, rfl, hw, h⟩ := cons_iff.mp h
  exact ⟨t', mid, rfl, hw.1, h⟩

theorem name {text : String} (h : Spelled ts (.name text :: ws) rest) :
    ∃ t mid, ts = t :: mid ∧ t.kind = .identifier ∧ t.text = text ∧ Spelled mid ws rest := by
  obtain ⟨t, mid, rfl, hw, h⟩ := cons_iff.mp h
  exact ⟨t, mid, rfl, hw.1, hw.2 rfl text rfl, h⟩

theorem loneSymbol {s : Symbol} (h : Spelled ts [.symbol s] rest) :
    ∃ t, ts = t :: rest ∧ t.kind = .symbol s := by
  obtain ⟨t, rfl, hw⟩ := singleton_iff.mp h
  exact ⟨t, rfl, hw.1⟩

theorem loneKeyword {k : Keyword} (h : Spelled ts [.keyword k] rest) :
    ∃ t, ts = t :: rest ∧ t.kind = .keyword k := by
  obtain ⟨t, rfl, hw⟩ := singleton_iff.mp h
  exact ⟨t, rfl, hw.1⟩

theorem loneName {text : String} (h : Spelled ts [.name text] rest) :
    ∃ t, ts = t :: rest ∧ t.kind = .identifier ∧ t.text = text := by
  obtain ⟨t, rfl, hw⟩ := singleton_iff.mp h
  exact ⟨t, rfl, hw.1, hw.2 rfl text rfl⟩

end Spelled
end MooScript
