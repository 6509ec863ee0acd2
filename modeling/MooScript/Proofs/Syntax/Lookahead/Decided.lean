import MooScript.Proofs.Syntax.Lookahead.Run
import MooScript.Proofs.Syntax.Rendering

/-! Runs that look one token ahead: what they make of a list is decided by the tokens up to the next
one, and where they fail, other tokens would have done. -/
namespace MooScript

/-- The error reports this token, or the end if there is none. -/
def SyntaxError.Reports (e : SyntaxError) : Option Token → Prop
  | none => ∃ expected finish, e = .unexpectedEnd expected finish
  | some t => (∃ expected, e = .unexpectedToken expected t) ∨
      t.kind = .symbol .equal ∧ ∃ target, e = .invalidAssignment target

namespace Grammar

open Run

variable {α β : Type} {p q : Kind → Bool} {F : Run α} {G : α → Run β} {a : α} {f : α → β}
  {e : SyntaxError} {t finish : Token} {used used' u u' ts rest : List Token}

/-- The list ends, or goes on with a token of such a kind. -/
def Ends (p : Kind → Bool) (ts : List Token) : Prop := ∀ t ∈ ts.head?, p t.kind = true

theorem ends_nil : Ends p [] := fun t ht => absurd ht (Option.not_mem_none t)

theorem ends_cons (h : p t.kind = true) : Ends p (t :: ts) := by
  intro t' ht'
  cases ht'
  exact h

/-- Any kind may follow. -/
def anyKind (_ : Kind) : Bool := true

theorem ends_anyKind : Ends anyKind ts := fun _ _ => rfl

theorem Ends.mono (hpq : ∀ k, q k = true → p k = true) (h : Ends q ts) : Ends p ts :=
  fun t ht => hpq t.kind (h t ht)

/-- With the tokens `u` in front of such an end, a list is read up to it. -/
structure Finishes (p : Kind → Bool) (F : Run α) (u : List Token) : Prop where
  voiced : ∀ t ∈ u, t.kind.isVoiced = true
  reads : ∀ finish rest, Ends p rest → ∃ a, F finish (u ++ rest) = .ok (a, rest)

/-- The tokens `used` are read as `a` if the next one is that of `rest`, and as something in front
of every end. -/
structure Accepts (p : Kind → Bool) (F : Run α) (used : List Token) (a : α)
    (rest : List Token) : Prop where
  same : ∀ t ∈ rest.head?, ∀ finish rest', F finish (used ++ t :: rest') = .ok (a, t :: rest')
  finishes : Finishes p (F.behind used) []

/-- Behind `used` the error comes of the next token alone; other tokens would have done there. -/
structure Rejects (p : Kind → Bool) (F : Run α) (used : List Token) (e : SyntaxError)
    (rest : List Token) : Prop where
  reports : e.Reports rest.head?
  same : ∀ t ∈ rest.head?, ∀ finish rest', F finish (used ++ t :: rest') = .error e
  finishes : ∃ u, Finishes p (F.behind used) u

/-- What comes of a list is decided by the tokens up to the next one. -/
inductive Decided (p : Kind → Bool) (F : Run α) (finish : Token) (ts : List Token) : Prop
  | accepted {used rest : List Token} {a : α} (hts : ts = used ++ rest)
      (h : F finish ts = .ok (a, rest)) (hused : Accepts p F used a rest)
  | rejected {used rest : List Token} {e : SyntaxError} (hts : ts = used ++ rest)
      (h : F finish ts = .error e) (hused : Rejects p F used e rest)

/-- The tokens `u` can stand in front of an end, and are none only if the run may take none. -/
structure Ready (p : Kind → Bool) (F : Run α) (u : List Token) : Prop
    extends Finishes p F u where
  shrinks : F.Takes 0
  takes : u ≠ [] → F.Takes 1

namespace Finishes

theorem keep (h : ∀ finish rest, Ends p rest → ∃ a, F finish rest = .ok (a, rest)) :
    Finishes p F [] :=
  ⟨List.forall_mem_nil _, h⟩

theorem mono (h : Finishes p F u) (hpq : ∀ k, q k = true → p k = true) : Finishes q F u :=
  ⟨h.voiced, fun finish rest hrest => h.reads finish rest (hrest.mono hpq)⟩

theorem cons (ht : t.kind.isVoiced = true) (h : Finishes p (F.behind [t]) u) :
    Finishes p F (t :: u) :=
  ⟨List.forall_mem_cons.mpr ⟨ht, h.voiced⟩, h.reads⟩

theorem map (h : Finishes p F u) (f : α → β) : Finishes p (F.map f) u := by
  refine ⟨h.voiced, fun finish rest hrest => ?_⟩
  obtain ⟨a, ha⟩ := h.reads finish rest hrest
  exact ⟨f a, map_of_ok ha⟩

theorem bind (hF : Finishes p F u) (hG : ∀ a, F.Gives a → Finishes q (G a) u')
    (hends : ∀ rest, Ends q rest → Ends p (u' ++ rest)) : Finishes q (F.bind G) (u ++ u') := by
  constructor
  · obtain ⟨a, ha⟩ := hF.reads (.endOfInput none) (u' ++ []) (hends [] ends_nil)
    exact List.forall_mem_append.mpr ⟨hF.voiced, (hG a ⟨_, _, _, ha⟩).voiced⟩
  · intro finish rest hrest
    obtain ⟨a, ha⟩ := hF.reads finish (u' ++ rest) (hends rest hrest)
    obtain ⟨b, hb⟩ := (hG a ⟨_, _, _, ha⟩).reads finish rest hrest
    refine ⟨b, ?_⟩
    rw [List.append_assoc, bind_of_ok ha, hb]

end Finishes

namespace Ready

theorem ofTail {r : Token → (ts : List Token) → Tail α ts} (h : Finishes p (Run.ofTail r) []) :
    Ready p (Run.ofTail r) [] :=
  ⟨h, takes_ofTail r, fun hne => absurd rfl hne⟩

theorem ofRule {r : Token → (ts : List Token) → Rule α ts} (h : Finishes p (Run.ofRule r) u) :
    Ready p (Run.ofRule r) u :=
  ⟨h, fun _ _ _ _ hr => Nat.le_of_lt (takes_ofRule r hr), fun _ => takes_ofRule r⟩

theorem mono (h : Ready p F u) (hpq : ∀ k, q k = true → p k = true) : Ready q F u :=
  ⟨h.toFinishes.mono hpq, h.shrinks, h.takes⟩

theorem map (h : Ready p F u) (f : α → β) : Ready p (F.map f) u :=
  ⟨h.toFinishes.map f, h.shrinks.map, fun hne => (h.takes hne).map⟩

theorem bind (hF : Ready p F u) (hG : ∀ a, Ready q (G a) u')
    (hends : ∀ rest, Ends q rest → Ends p (u' ++ rest)) : Ready q (F.bind G) (u ++ u') := by
  refine ⟨hF.toFinishes.bind (fun a _ => (hG a).toFinishes) hends,
    hF.shrinks.bind fun a => (hG a).shrinks, fun hne => ?_⟩
  by_cases hu : u = []
  · have hu' : u' ≠ [] := fun hu' => hne (by rw [hu, hu', List.append_nil])
    exact hF.shrinks.bind fun a => (hG a).takes hu'
  · exact (hF.takes hu).bind fun a => (hG a).shrinks

theorem eq_nil (hF : Ready p F u) (h : F finish ts = .ok (a, ts)) : u = [] := by
  cases u with
  | nil => rfl
  | cons t u => exact absurd (hF.takes (List.cons_ne_nil t u) h) (Nat.not_succ_le_self _)

end Ready

theorem Run.Gives.of_behind (h : (F.behind used).Gives a) : F.Gives a := by
  obtain ⟨finish, ts, rest, h⟩ := h
  exact ⟨finish, used ++ ts, rest, h⟩

/-- With the next token among those that `G` reads, `F` reads the same as before. -/
theorem Accepts.finishes_bind (hF : Accepts p F used a (t :: rest))
    (hG : Finishes q ((G a).behind (t :: used')) u) :
    Finishes q ((F.bind G).behind (used ++ t :: used')) u := by
  refine ⟨hG.voiced, fun finish rest' hrest' => ?_⟩
  obtain ⟨b, hb⟩ := hG.reads finish rest' hrest'
  refine ⟨b, ?_⟩
  rw [behind, List.append_assoc, List.cons_append,
    bind_of_ok (hF.same t rfl finish (used' ++ (u ++ rest')))]
  exact hb

/-- Where `G` has its next token, `F` has one, and reads the same in front of it. -/
theorem Accepts.ok_of_head {us : List Token} (hF : Accepts p F used a (used' ++ rest))
    (ht : t ∈ rest.head?) :
    F finish (used ++ used' ++ t :: us) = .ok (a, used' ++ t :: us) := by
  rw [List.append_assoc]
  cases used' with
  | nil => exact hF.same t ht finish us
  | cons t' used' => exact hF.same t' rfl finish (used' ++ t :: us)

namespace Decided

theorem mono (h : Decided p F finish ts) (hpq : ∀ k, q k = true → p k = true) :
    Decided q F finish ts := by
  cases h with
  | accepted hts h hused => exact .accepted hts h ⟨hused.same, hused.finishes.mono hpq⟩
  | rejected hts h hused =>
    obtain ⟨u, hu⟩ := hused.finishes
    exact .rejected hts h ⟨hused.reports, hused.same, u, hu.mono hpq⟩

theorem map (h : Decided p F finish ts) (f : α → β) : Decided p (F.map f) finish ts := by
  cases h with
  | accepted hts h hused =>
    refine .accepted hts (map_of_ok h) ⟨fun t ht finish' rest' => ?_, hused.finishes.map f⟩
    exact map_of_ok (hused.same t ht finish' rest')
  | rejected hts h hused =>
    obtain ⟨u, hu⟩ := hused.finishes
    refine .rejected hts (map_of_error h) ⟨hused.reports, fun t ht finish' rest' => ?_, u, hu.map f⟩
    exact map_of_error (hused.same t ht finish' rest')

/-- One run behind another, whose result the first one's lookahead fixes. Where `F` fails, `u` makes
up for what `G` would have read. -/
theorem bind (hF : Decided p F finish ts)
    (hG : ∀ a rest, F finish ts = .ok (a, rest) → Decided q (G a) finish rest)
    (hready : ∀ a, F.Gives a → Ready q (G a) u)
    (hends : ∀ rest, Ends q rest → Ends p (u ++ rest)) : Decided q (F.bind G) finish ts := by
  cases hF with
  | rejected hts h hused =>
    obtain ⟨u', hu'⟩ := hused.finishes
    refine .rejected hts (bind_of_error h)
      ⟨hused.reports, fun t ht finish' rest' => ?_, u' ++ u, ?_⟩
    · exact bind_of_error (hused.same t ht finish' rest')
    · exact hu'.bind (fun a ha => (hready a ha.of_behind).toFinishes) hends
  | @accepted used mid a hts h hused =>
    have hg := hG a mid h
    have hfinishes : Finishes q ((F.bind G).behind used) u :=
      hused.finishes.bind (fun a ha => (hready a ha.of_behind).toFinishes) hends
    cases hg with
    | @accepted used' rest b hmid hb hused' =>
      subst hmid
      refine .accepted (by rw [hts, List.append_assoc]) (by rw [bind_of_ok h, hb])
        ⟨fun t ht finish' rest' => ?_, ?_⟩
      · rw [bind_of_ok (hused.ok_of_head ht), hused'.same t ht]
      · cases used' with
        | nil =>
          rw [(hready a ⟨_, _, _, h⟩).eq_nil hb] at hfinishes
          rwa [List.append_nil]
        | cons t used' => exact hused.finishes_bind hused'.finishes
    | @rejected used' rest e hmid he hused' =>
      subst hmid
      refine .rejected (by rw [hts, List.append_assoc]) (by rw [bind_of_ok h, he])
        ⟨hused'.reports, fun t ht finish' rest' => ?_, ?_⟩
      · rw [bind_of_ok (hused.ok_of_head ht), hused'.same t ht]
      · cases used' with
        | nil =>
          rw [List.append_nil]
          exact ⟨u, hfinishes⟩
        | cons t used' =>
          obtain ⟨u', hu'⟩ := hused'.finishes
          exact ⟨u', hused.finishes_bind hu'⟩

theorem cons (h : Decided p (F.behind [t]) finish ts) : Decided p F finish (t :: ts) := by
  cases h with
  | @accepted used rest a hts h hused =>
    subst hts
    exact .accepted (List.cons_append).symm h ⟨hused.same, hused.finishes⟩
  | @rejected used rest e hts h hused =>
    subst hts
    exact .rejected (List.cons_append).symm h ⟨hused.reports, hused.same, hused.finishes⟩

/-- Nothing more is to be read. -/
theorem done : Decided p (fun _ ts => .ok (a, ts)) finish ts :=
  .accepted (List.nil_append ts).symm rfl ⟨fun _ _ _ _ => rfl, .keep fun _ _ _ => ⟨a, rfl⟩⟩

/-- The token is taken, and nothing else. -/
theorem taken (h : ∀ finish rest, F finish (t :: rest) = .ok (a, rest)) :
    Decided p F finish (t :: ts) := by
  have hbehind : F.behind [t] = fun _ rest => .ok (a, rest) := by
    funext finish rest
    exact h finish rest
  refine .cons ?_
  rw [hbehind]
  exact .done

theorem kept_nil (hF : Finishes p F []) (h : F finish [] = .ok (a, [])) : Decided p F finish [] :=
  .accepted (List.append_nil []).symm h ⟨fun t ht => absurd ht (Option.not_mem_none t), hF⟩

theorem kept (hF : Finishes p F []) (h : ∀ finish rest, F finish (t :: rest) = .ok (a, t :: rest)) :
    Decided p F finish (t :: ts) := by
  refine .accepted (List.nil_append _).symm (h finish ts) ⟨fun t' ht' finish' rest' => ?_, hF⟩
  cases ht'
  exact h finish' rest'

theorem ended (hF : Finishes p F u) (expected : Expectation)
    (h : F finish [] = .error (.unexpectedEnd expected finish)) : Decided p F finish [] :=
  .rejected (List.append_nil []).symm h
    ⟨⟨expected, finish, rfl⟩, fun t ht => absurd ht (Option.not_mem_none t), u, hF⟩

theorem blamed (hF : Finishes p F u) (he : e.Reports (some t))
    (h : ∀ finish rest, F finish (t :: rest) = .error e) : Decided p F finish (t :: ts) := by
  refine .rejected (List.nil_append _).symm (h finish ts)
    ⟨he, fun t' ht' finish' rest' => ?_, u, hF⟩
  cases ht'
  exact h finish' rest'

/-- The end of the input, or its next token, tells that the list is one for `F'`. -/
theorem peek {F' : Run α} (hF : Ready p F u)
    (heq : ∀ finish rest, rest.head? = ts.head? → F finish rest = F' finish rest)
    (h : Decided p F' finish ts) : Decided p F finish ts := by
  have hhead : ∀ {used rest : List Token}, ts = used ++ rest → ∀ t ∈ rest.head?,
      ∀ finish rest', F finish (used ++ t :: rest') = F' finish (used ++ t :: rest') := by
    intro used rest hts t ht finish rest'
    refine heq finish _ ?_
    rw [hts]
    cases used with
    | nil => exact ht.symm
    | cons t' used => rfl
  have hbehind : ∀ {t : Token} {used rest : List Token}, ts = t :: used ++ rest →
      F.behind (t :: used) = F'.behind (t :: used) := by
    intro t used rest hts
    funext finish rest'
    exact heq finish _ (by rw [hts]; rfl)
  cases h with
  | @accepted used rest a hts h hused =>
    refine .accepted hts (by rw [heq finish ts rfl, h]) ⟨fun t ht finish' rest' => ?_, ?_⟩
    · rw [hhead hts t ht, hused.same t ht]
    · cases used with
      | nil =>
        rw [← heq finish ts rfl, hts] at h
        obtain rfl := hF.eq_nil h
        exact hF.toFinishes
      | cons t used =>
        rw [hbehind hts]
        exact hused.finishes
  | @rejected used rest e hts h hused =>
    refine .rejected hts (by rw [heq finish ts rfl, h])
      ⟨hused.reports, fun t ht finish' rest' => ?_, ?_⟩
    · rw [hhead hts t ht, hused.same t ht]
    · cases used with
      | nil => exact ⟨u, hF.toFinishes⟩
      | cons t used =>
        rw [hbehind hts]
        exact hused.finishes

theorem peek_nil {F' : Run α} (hF : Ready p F u) (heq : ∀ finish, F finish [] = F' finish [])
    (h : Decided p F' finish []) : Decided p F finish [] := by
  refine peek hF (fun finish rest hrest => ?_) h
  rw [List.head?_eq_none_iff.mp hrest, heq]

theorem peek_cons {F' : Run α} (hF : Ready p F u)
    (heq : ∀ finish rest, F finish (t :: rest) = F' finish (t :: rest))
    (h : Decided p F' finish (t :: ts)) : Decided p F finish (t :: ts) := by
  refine peek hF (fun finish rest hrest => ?_) h
  obtain ⟨rest, rfl⟩ := List.head?_eq_some_iff.mp hrest
  exact heq finish rest

end Decided
/-- Unless a token of the kind opens it, nothing is read, which stands for `a`. -/
structure Opens (kind : Kind) (F : Run α) (a : α) : Prop where
  nil : ∀ finish, F finish [] = .ok (a, [])
  cons : ∀ finish t rest, t.kind ≠ kind → F finish (t :: rest) = .ok (a, t :: rest)

namespace Opens

variable {kind : Kind} {r : Token → (ts : List Token) → Tail α ts}

theorem ready (h : Opens kind (ofTail r) a) (hp : p kind = false) : Ready p (ofTail r) [] := by
  refine .ofTail (.keep fun finish rest hrest => ⟨a, ?_⟩)
  cases rest with
  | nil => exact h.nil finish
  | cons t rest =>
    refine h.cons finish t rest fun ht => ?_
    have hend := hrest t rfl
    rw [ht, hp] at hend
    cases hend

theorem decided (h : Opens kind (ofTail r) a) (hp : p kind = false)
    (hopened : ∀ t rest, ts = t :: rest → t.kind = kind →
      Decided p ((ofTail r).behind [t]) finish rest) : Decided p (ofTail r) finish ts := by
  have hready := (h.ready hp).toFinishes
  cases ts with
  | nil => exact .kept_nil hready (h.nil finish)
  | cons t ts =>
    by_cases ht : t.kind = kind
    · exact .cons (hopened t ts rfl ht)
    · exact .kept hready fun finish rest => h.cons finish t rest ht

end Opens
end Grammar
end MooScript
