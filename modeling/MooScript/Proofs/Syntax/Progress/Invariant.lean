import MooScript.Proofs.Reading
import MooScript.Proofs.Syntax.Progress.Parser

/-! What a walk of the cursor keeps: it only goes on, it stays in front of the end of the input, it
comes to what the rule reads off the tokens ahead of it, or else to an integer that does not fit,
and its loops are counted. -/
namespace MooScript.Parser

variable {α β : Type} {arithmetic : Arithmetic} {tokens input ts : List Token} {finish t : Token}
  {p p' : Nat} {k : Kind}

/-- The cursor has before it what is left of `input`, in which nothing ends the input, and then
`finish`, which does. -/
structure Faces (tokens input : List Token) (finish : Token) (p : Nat) : Prop where
  split : ∃ behind, tokens = input ++ finish :: behind
  ends : finish.kind = .eof
  inside : p ≤ input.length
  goesOn : ∀ t ∈ input.drop p, t.kind ≠ .eof

theorem drop_succ (hd : input.drop p = t :: ts) :
    p < input.length ∧ input.drop (p + 1) = ts := by
  constructor
  · refine Nat.lt_of_not_le fun hge => ?_
    rw [List.drop_eq_nil_of_le hge] at hd
    cases hd
  · rw [← List.drop_drop, hd, List.drop_one, List.tail_cons]

theorem startsWith_drop (h : Grammar.startsWith k (input.drop p) = true) :
    ∃ t, t.kind = k ∧ input.drop p = t :: input.drop (p + 1) := by
  cases hd : input.drop p with
  | nil =>
    rw [hd] at h
    cases h
  | cons t ts =>
    rw [hd] at h
    obtain ⟨-, rfl⟩ := drop_succ hd
    exact ⟨t, beq_iff_eq.mp h, rfl⟩

theorem ne_of_startsWith (h : Grammar.startsWith k (t :: ts) = false) : t.kind ≠ k :=
  ne_of_beq_false h

namespace Faces

theorem mono (h : Faces tokens input finish p) (hle : p ≤ p') (hinside : p' ≤ input.length) :
    Faces tokens input finish p' := by
  refine ⟨h.split, h.ends, hinside, fun t ht => h.goesOn t ?_⟩
  obtain ⟨n, rfl⟩ := Nat.exists_eq_add_of_le hle
  rw [← List.drop_drop] at ht
  exact List.mem_of_mem_drop ht

theorem succ (h : Faces tokens input finish p) (hd : input.drop p = t :: ts) :
    Faces tokens input finish (p + 1) :=
  h.mono (Nat.le_succ p) (drop_succ hd).1

theorem getElem? (h : Faces tokens input finish p) :
    tokens[p]? = some ((input.drop p).headD finish) := by
  obtain ⟨behind, rfl⟩ := h.split
  rw [← List.head?_drop, List.drop_append_of_le_length h.inside]
  cases input.drop p with
  | nil => rfl
  | cons t ts => rfl

theorem succ_lt (h : Faces tokens input finish p) (hd : input.drop p = t :: ts) :
    p + 1 < tokens.length := by
  obtain ⟨behind, rfl⟩ := h.split
  have hlt := (drop_succ hd).1
  rw [List.length_append, List.length_cons]
  omega

theorem headD_kind (h : Faces tokens input finish p) (hk : k ≠ .eof) :
    (((input.drop p).headD finish).kind == k) = Grammar.startsWith k (input.drop p) := by
  cases input.drop p with
  | nil =>
    change (finish.kind == k) = false
    rw [h.ends]
    exact beq_false_of_ne hk.symm
  | cons t ts => rfl

end Faces

/-! ### Looking at the cursor -/

/-- The walk looks at the cursor some times, and comes to `a` with the cursor at `p'`. -/
def Glances (w : Moves α) (p : Nat) (a : α) (p' : Nat) : Prop :=
  ∃ n, w p = ⟨.ok a, p', List.replicate n (p, .look)⟩

theorem Glances.bind {w : Moves α} {f : α → Moves β} {a : α} {b : β} (h : Glances w p a p)
    (h' : Glances (f a) p b p') : Glances (w >>= f) p b p' := by
  obtain ⟨m, hm⟩ := h
  obtain ⟨n, hn⟩ := h'
  refine ⟨m + n, ?_⟩
  rw [Walk.bind_of_ok (by rw [hm]), hm]
  dsimp only
  rw [hn, List.replicate_append_replicate]

theorem glances_pure (a : α) (p : Nat) : Glances (Pure.pure a : Moves α) p a p := ⟨0, rfl⟩

section

variable (hp : Faces tokens input finish p)

include hp

theorem glances_current : Glances (current tokens) p ((input.drop p).headD finish) p := by
  refine ⟨1, ?_⟩
  rw [current, Walk.note_bind, Walk.state_bind, hp.getElem?]
  rfl

theorem glances_sees (hk : k ≠ .eof) :
    Glances (sees tokens k) p (Grammar.startsWith k (input.drop p)) p := by
  rw [← hp.headD_kind hk]
  exact (glances_current hp).bind (glances_pure _ p)

theorem glances_advance (hd : input.drop p = t :: ts) :
    Glances (advance tokens) p t (p + 1) := by
  have ht : (input.drop p).headD finish = t := by rw [hd]; rfl
  have hproceed : proceed tokens p = ⟨.ok (), p + 1, []⟩ := by
    rw [proceed, Walk.state_bind, if_pos (hp.succ_lt hd)]
    rfl
  refine (glances_current hp).bind ⟨0, ?_⟩
  rw [ht, Walk.bind_of_ok (by rw [hproceed]), hproceed]
  rfl

theorem glances_expect (hk : k ≠ .eof) (hd : input.drop p = t :: ts) (ht : t.kind = k) :
    Glances (expect tokens k) p t (p + 1) := by
  have hseen : Grammar.startsWith k (input.drop p) = true := by
    rw [hd]
    exact beq_iff_eq.mpr ht
  refine (glances_sees hp hk).bind ?_
  rw [hseen, if_pos rfl]
  exact glances_advance hp hd

end

/-! ### What a walk keeps -/

/-- A loop has no more turns than there are tokens; the one over statements, which is left from
inside of a turn, may begin one more. -/
def Act.Counted (size : Nat) : Act → Prop
  | .look => True
  | .turn .statements number => number ≤ size + 1
  | .turn _ number => number ≤ size

/-- In front stands the number of an object behind a minus sign, and it is the least integer. -/
inductive NegatesLeast (number : Token) : List Token → Prop
  | intro {hash minus : Token} {rest : List Token} (hash_kind : hash.kind = .symbol .hash)
      (minus_kind : minus.kind = .symbol .minus) (number_kind : number.kind = .integer)
      (least : Decimal.readInt64? number.text = some Int64.minValue) :
      NegatesLeast number (hash :: minus :: number :: rest)

/-- Where integers are checked, the walk stops right behind a number whose negation does not fit.
Where they wrap around, that number is refused. -/
structure Overflows (arithmetic : Arithmetic) (tokens : List Token) (p : Nat)
    (t : Walked SyntaxError Nat Act α) (o : Except SyntaxError β) : Prop
    extends Walked.Forward id p t where
  checked : arithmetic = .checked
  result : t.result = .error .overflow
  behind : ∃ q number, t.state = q + 3 ∧ NegatesLeast number (tokens.drop q) ∧
    o = .error (.unexpectedToken .objectNumber number)

theorem NegatesLeast.inside {number : Token} (h : NegatesLeast number (input.drop p)) :
    p + 3 ≤ input.length := by
  generalize hd : input.drop p = ts at h
  cases h
  have hlength := congrArg List.length hd
  simp only [List.length_drop, List.length_cons] at hlength
  omega

theorem NegatesLeast.append {number : Token} (h : NegatesLeast number ts) (us : List Token) :
    NegatesLeast number (ts ++ us) := by
  obtain ⟨hhash, hminus, hnumber, hleast⟩ := h
  exact .intro hhash hminus hnumber hleast

theorem Overflows.inside {t : Walked SyntaxError Nat Act α} {o : Except SyntaxError β}
    (h : Overflows arithmetic input p t o) : t.state ≤ input.length := by
  obtain ⟨q, number, hstate, hleast, -⟩ := h.behind
  rw [hstate]
  exact hleast.inside

/-- The walk keeps to the outcome of reading what is ahead of the cursor, unless an integer does not
fit, and counts its turns. -/
structure Keeps (arithmetic : Arithmetic) (input : List Token) (p : Nat)
    (t : Walked SyntaxError Nat Act α) (o : Except SyntaxError (α × List Token)) : Prop where
  counted : ∀ e ∈ t.journal, e.2.Counted input.length
  comes : Walked.Follows id input p t o ∨ Overflows arithmetic input p t o

namespace Keeps

section

variable {t : Walked SyntaxError Nat Act α} {o : Except SyntaxError (α × List Token)}

theorem forward (h : Keeps arithmetic input p t o) : Walked.Forward id p t :=
  h.comes.elim (·.toForward) (·.toForward)

theorem le (h : Keeps arithmetic input p t o) : p ≤ t.state := h.forward.le

theorem inside (h : Keeps arithmetic input p t o) : t.state ≤ input.length :=
  h.comes.elim (·.inside) (·.inside)

theorem eq_ok (h : Keeps arithmetic input p t o) {a : α} (ht : t.result = .ok a) :
    o = .ok (a, input.drop t.state) := by
  rcases h.comes with h | h
  · exact h.eq_ok ht
  · rw [h.result] at ht
    cases ht

/-- Where integers wrap around, nothing fails to fit. -/
theorem result (h : Keeps .wrapping input p t o) :
    t.result = (o.map Prod.fst).mapError .refused := by
  rcases h.comes with h | h
  · exact h.result
  · cases h.checked

end

theorem pure (a : α) (h : p ≤ input.length) :
    Keeps arithmetic input p ((Pure.pure a : Moves α) p) (.ok (a, input.drop p)) where
  counted := List.forall_mem_nil _
  comes := .inl (.pure a h)

theorem refuse (e : SyntaxError) (h : p ≤ input.length) :
    Keeps arithmetic input p ((Walk.refuse e : Moves α) p) (.error e) where
  counted := List.forall_mem_nil _
  comes := .inl (.refuse e h)

theorem overflow {q : Nat} {number : Token} (hp : p = q + 3)
    (h : NegatesLeast number (input.drop q)) :
    Keeps .checked input p ((Walk.halt .overflow : Moves α) p)
      (.error (.unexpectedToken .objectNumber number)) where
  counted := List.forall_mem_nil _
  comes := .inr ⟨.refl rfl rfl, rfl, rfl, q, number, hp, h, rfl⟩

/-- A walk goes on where it is. -/
theorem andThen {w : Moves α} {f : α → Moves β} {o : Except SyntaxError (α × List Token)}
    {g : α × List Token → Except SyntaxError (β × List Token)}
    (h : Keeps arithmetic input p (w p) o)
    (hf : ∀ a, (w p).result = .ok a →
      Keeps arithmetic input (w p).state (f a (w p).state) (g (a, input.drop (w p).state))) :
    Keeps arithmetic input p ((w >>= f) p) (o >>= g) := by
  have hforward := h.forward.bind fun a ha => (hf a ha).forward
  cases hw : (w p).result with
  | error stop =>
    have hnone (a : α) (ha : (w p).result = .ok a) : False := by
      rw [hw] at ha
      cases ha
    refine ⟨?_, ?_⟩
    · rw [Walk.bind_of_error hw]
      exact h.counted
    · rcases h.comes with hfollows | hover
      · exact .inl (hfollows.bind fun a ha => (hnone a ha).elim)
      · obtain rfl : stop = .overflow := Except.error.inj (hw.symm.trans hover.result)
        obtain ⟨q, number, hstate, hleast, rfl⟩ := hover.behind
        rw [Walk.bind_of_error hw] at hforward ⊢
        exact .inr ⟨hforward, hover.checked, rfl, q, number, hstate, hleast, rfl⟩
  | ok a =>
    have hthen := hf a hw
    obtain rfl := h.eq_ok hw
    rw [Walk.bind_of_ok hw] at hforward ⊢
    refine ⟨?_, ?_⟩
    · intro e he
      rcases List.mem_append.mp he with he | he
      · exact h.counted e he
      · exact hthen.counted e he
    · rcases hthen.comes with hfollows | hover
      · exact .inl ⟨hforward, hfollows.result, hfollows.inside, hfollows.left⟩
      · exact .inr ⟨hforward, hover.checked, hover.result, hover.behind⟩

theorem bind {w : Moves α} {f : α → Moves β} {o : Except SyntaxError (α × List Token)}
    {g : α × List Token → Except SyntaxError (β × List Token)}
    (hp : Faces tokens input finish p) (h : Keeps arithmetic input p (w p) o)
    (hf : ∀ a p', Faces tokens input finish p' → p ≤ p' → o = .ok (a, input.drop p') →
      Keeps arithmetic input p' (f a p') (g (a, input.drop p'))) :
    Keeps arithmetic input p ((w >>= f) p) (o >>= g) :=
  h.andThen fun a ha => hf a _ (hp.mono h.le h.inside) h.le (h.eq_ok ha)

theorem of_glances {w : Moves α} {a : α} (h : Glances w p a p') (hle : p ≤ p')
    (hinside : p' ≤ input.length) : Keeps arithmetic input p (w p) (.ok (a, input.drop p')) := by
  obtain ⟨n, hn⟩ := h
  rw [hn]
  refine ⟨?_, .inl ⟨⟨hle, ?_, ?_⟩, rfl, hinside, ?_⟩⟩
  · intro e he
    obtain rfl := List.eq_of_mem_replicate he
    trivial
  · intro e he
    obtain rfl := List.eq_of_mem_replicate he
    exact ⟨Nat.le_refl p, hle⟩
  · rw [List.map_replicate]
    exact List.pairwise_replicate.mpr (.inr (Nat.le_refl p))
  · intro a rest ho
    cases ho
    rfl

/-- Looks at the cursor and a step over a token change nothing of what is read behind them. -/
theorem glance {w : Moves α} {f : α → Moves β} {a : α}
    {o : Except SyntaxError (β × List Token)} (h : Glances w p a p') (hle : p ≤ p')
    (hf : Keeps arithmetic input p' (f a p') o) : Keeps arithmetic input p ((w >>= f) p) o := by
  have hw : Keeps arithmetic input p (w p) (.ok (a, input.drop p')) :=
    of_glances h hle (Nat.le_trans hf.le hf.inside)
  obtain ⟨n, hn⟩ := h
  refine hw.andThen (g := fun _ => o) fun a' ha => ?_
  rw [hn] at ha ⊢
  cases ha
  exact hf

theorem note {i : Act} {f : Unit → Moves α} {o : Except SyntaxError (α × List Token)}
    (hi : i.Counted input.length) (h : Keeps arithmetic input p (f () p) o) :
    Keeps arithmetic input p ((Walk.note i >>= f) p) o where
  counted := by
    rw [Walk.note_bind]
    intro e he
    rcases List.mem_cons.mp he with rfl | he
    · exact hi
    · exact h.counted e he
  comes := h.comes.imp (·.note) fun hover =>
    ⟨hover.toForward.note, hover.checked, hover.result, hover.behind⟩

variable (hp : Faces tokens input finish p)

include hp

theorem refused (expected : Expectation) :
    Keeps arithmetic input p ((Parser.refuse tokens expected : Moves α) p)
      (.error (Grammar.unmet finish expected (input.drop p))) := by
  have hunmet : (if ((input.drop p).headD finish).kind = .eof
      then Walk.refuse (.unexpectedEnd expected ((input.drop p).headD finish))
      else Walk.refuse (.unexpectedToken expected ((input.drop p).headD finish)) : Moves α) =
        Walk.refuse (Grammar.unmet finish expected (input.drop p)) := by
    cases hd : input.drop p with
    | nil => exact if_pos hp.ends
    | cons t ts => exact if_neg (hp.goesOn t (hd ▸ List.mem_cons_self))
  refine glance (glances_current hp) (Nat.le_refl p) ?_
  rw [hunmet]
  exact refuse _ hp.inside

theorem expect (hk : k ≠ .eof) :
    Keeps arithmetic input p (Parser.expect tokens k p)
      (Grammar.expect finish k (input.drop p)).outcome := by
  refine glance (glances_sees hp hk) (Nat.le_refl p) ?_
  have hrefused : Keeps arithmetic input p ((Parser.refuse tokens (.kind k) : Moves Token) p) _ :=
    refused hp (.kind k)
  cases hd : input.drop p with
  | nil =>
    rw [hd] at hrefused
    exact hrefused
  | cons t ts =>
    rw [hd] at hrefused
    rw [Grammar.expect, Grammar.startsWith]
    by_cases ht : t.kind = k
    · obtain ⟨hlt, rfl⟩ := drop_succ hd
      rw [if_pos (beq_iff_eq.mpr ht), if_pos ht]
      exact of_glances (glances_advance hp hd) (Nat.le_succ p) hlt
    · rw [if_neg (mt beq_iff_eq.mp ht), if_neg ht]
      exact hrefused

/-- Where the next token decides between two ways to go on. -/
theorem sees (hk : k ≠ .eof) {yes no : Moves α}
    (read : List Token → Except SyntaxError (α × List Token))
    (hyes : ∀ t, t.kind = k → input.drop p = t :: input.drop (p + 1) →
      Faces tokens input finish (p + 1) →
        Keeps arithmetic input p (yes p) (read (t :: input.drop (p + 1))))
    (hno : Grammar.startsWith k (input.drop p) = false →
      Keeps arithmetic input p (no p) (read (input.drop p))) :
    Keeps arithmetic input p ((Parser.sees tokens k >>= fun seen => if seen then yes else no) p)
      (read (input.drop p)) := by
  refine glance (glances_sees hp hk) (Nat.le_refl p) ?_
  cases hseen : Grammar.startsWith k (input.drop p) with
  | false => exact hno hseen
  | true =>
    obtain ⟨t, ht, hd⟩ := startsWith_drop hseen
    have hthen := hyes t ht hd (hp.succ hd)
    rw [← hd] at hthen
    exact hthen

theorem loop {turn : Nat → α → (α → Moves β) → Moves β}
    (tail : α → List Token → Except SyntaxError (β × List Token)) {p₀ : Nat}
    (hturn : ∀ number a again p, Faces tokens input finish p → p₀ ≤ p → number + p₀ ≤ p + 1 →
      (∀ a' p', Faces tokens input finish p' → p < p' →
        Keeps arithmetic input p' (again a' p') (tail a' (input.drop p'))) →
      Keeps arithmetic input p (turn number a again p) (tail a (input.drop p)))
    {steps number : Nat} {a : α} (hle : p₀ ≤ p) (hsteps : input.length - p < steps)
    (hnumber : number + p₀ ≤ p + 1) :
    Keeps arithmetic input p (Parser.loop turn steps number a p) (tail a (input.drop p)) := by
  -- A turn that goes on has moved the cursor, so the turns are counted by it.
  induction steps generalizing number a p with
  | zero => exact absurd hsteps (Nat.not_lt_zero _)
  | succ steps ih =>
    refine hturn number a _ p hp hle hnumber fun a' p' hp' hlt => ?_
    have hinside := hp'.inside
    exact ih hp' (by omega) (by omega) (by omega)

end Keeps

/-! ### Lists that grow -/

namespace Nonterminal

/-- Orders the rules that may be called where the cursor stands: a rule calls those of less rank. -/
def rank : {α : Type} → Nonterminal α → Nat
  | _, block => 19
  | _, stmt => 18
  | _, return_ | _, if_ | _, for_ | _, try_ => 17
  | _, filters | _, condition => 16
  | _, expr => 15
  | _, level l => 8 + l.rank
  | _, property => 7
  | _, unary => 6
  | _, primary => 5
  | _, atom => 4
  | _, range | _, recover => 3
  | _, call _ _ => 2
  | _, arguments => 1

theorem rank_pos (x : Nonterminal α) : 0 < x.rank := by
  cases x with
  | level l => exact Nat.lt_add_right _ (by decide)
  | call callee token => exact Nat.two_pos
  | _ => decide

theorem rank_lt (x : Nonterminal α) : x.rank < 32 := by
  cases x with
  | level l => cases l <;> decide
  | call callee token => exact Nat.lt_of_sub_pos (Nat.succ_pos 29)
  | _ => decide

/-- What a rule that a token of the kind leads reads. -/
def led (finish : Token) (k : Kind) (o : Except SyntaxError (α × List Token)) (ts : List Token) :
    Except SyntaxError (α × List Token) :=
  if Grammar.startsWith k ts then o else .error (Grammar.unmet finish (.kind k) ts)

/-- What a rule reads off the front of a token list. -/
def reading (finish : Token) :
    {α : Type} → Nonterminal α → List Token → Except SyntaxError (α × List Token)
  | _, block, ts => (Grammar.block finish ts).outcome
  | _, stmt, ts => (Grammar.stmt finish ts).outcome
  | _, return_, ts => led finish (.keyword .return_) (Grammar.stmt finish ts).outcome ts
  | _, if_, ts => led finish (.keyword .if_) (Grammar.stmt finish ts).outcome ts
  | _, for_, ts => led finish (.keyword .for_) (Grammar.stmt finish ts).outcome ts
  | _, try_, ts => led finish (.keyword .try_) (Grammar.stmt finish ts).outcome ts
  | _, condition, ts => (Grammar.condition finish ts).outcome
  | _, filters, ts => (Grammar.errorFilters finish ts).outcome
  | _, expr, ts => (Grammar.expr finish ts).outcome
  | _, level l, ts => (Grammar.chain finish l ts).outcome
  | _, property, ts => (Grammar.property finish ts).outcome
  | _, unary, ts => (Grammar.unary finish ts).outcome
  | _, primary, ts => (Grammar.primary finish ts).outcome
  | _, atom, ts => (Grammar.atom finish ts).outcome
  | _, call callee token, ts =>
    (Grammar.arguments finish ts).outcome.map fun p => (.call callee p.1 token, p.2)
  | _, arguments, ts => (Grammar.arguments finish ts).outcome
  | _, range, ts => led finish (.symbol .leftBracket) (Grammar.atom finish ts).outcome ts
  | _, recover, ts => led finish (.symbol .backtick) (Grammar.atom finish ts).outcome ts

end Nonterminal

theorem outcome_expect_of_not (h : Grammar.startsWith k ts = false) :
    (Grammar.expect finish k ts).outcome = .error (Grammar.unmet finish (.kind k) ts) := by
  cases ts with
  | nil => rfl
  | cons t ts =>
    rw [Grammar.expect, if_neg (ne_of_startsWith h)]
    rfl

theorem Keeps.led (hp : Faces tokens input finish p) (hk : k ≠ .eof) {f : Token → Moves α}
    (read : List Token → Except SyntaxError (α × List Token))
    (hthen : ∀ t, t.kind = k → Faces tokens input finish (p + 1) →
      Keeps arithmetic input (p + 1) (f t (p + 1)) (read (t :: input.drop (p + 1)))) :
    Keeps arithmetic input p ((Parser.expect tokens k >>= f) p)
      (Nonterminal.led finish k (read (input.drop p)) (input.drop p)) := by
  rw [Nonterminal.led]
  cases hseen : Grammar.startsWith k (input.drop p) with
  | false =>
    have hexpect : Keeps arithmetic input p (Parser.expect tokens k p) _ := expect hp hk
    rw [outcome_expect_of_not hseen] at hexpect
    refine bind (g := fun _ => .error (Grammar.unmet finish (.kind k) (input.drop p))) hp hexpect
      fun a p' _ _ ho => ?_
    cases ho
  | true =>
    obtain ⟨t, ht, hd⟩ := startsWith_drop hseen
    have hkeeps := hthen t ht (hp.succ hd)
    rw [← hd] at hkeeps
    exact glance (glances_expect hp hk hd ht) (Nat.le_succ p) hkeeps

/-- The steps suffice for a call of the rule where the cursor stands. -/
def Enough (input : List Token) (x : Nonterminal α) (p steps : Nat) : Prop :=
  32 * (input.length - p) + x.rank < steps

namespace Enough

variable {x : Nonterminal α} {steps : Nat}

theorem tighter (h : Enough input x p (steps + 1)) (y : Nonterminal β) (hle : p ≤ p')
    (hy : y.rank < x.rank) : Enough input y p' steps := by
  unfold Enough at *
  omega

theorem later (h : Enough input x p (steps + 1)) (y : Nonterminal β) (hlt : p < p')
    (hinside : p' ≤ input.length) : Enough input y p' steps := by
  have hy := y.rank_lt
  unfold Enough at *
  omega

theorem mono (h : Enough input x p steps) (hle : p ≤ p') : Enough input x p' steps := by
  unfold Enough at *
  omega

theorem loop (h : Enough input x p (steps + 1)) (hle : p ≤ p') : input.length - p' < steps := by
  have hx := x.rank_pos
  unfold Enough at h
  omega

end Enough

/-- With steps enough, what is called keeps to what its rule reads. -/
def Obeys (arithmetic : Arithmetic) (tokens input : List Token) (finish : Token)
    (call : (α : Type) → Nonterminal α → Moves α) (steps : Nat) : Prop :=
  ∀ (α : Type) (x : Nonterminal α) (p : Nat), Faces tokens input finish p →
    Enough input x p steps → Keeps arithmetic input p (call α x p) (x.reading finish (input.drop p))

namespace Obeys

variable {call : (α : Type) → Nonterminal α → Moves α} {steps : Nat} {x : Nonterminal β}

theorem tighter (hcall : Obeys arithmetic tokens input finish call steps) (y : Nonterminal α)
    (h : Enough input x p (steps + 1)) (hp : Faces tokens input finish p') (hle : p ≤ p')
    (hy : y.rank < x.rank) :
    Keeps arithmetic input p' (call α y p') (y.reading finish (input.drop p')) :=
  hcall α y p' hp (h.tighter y hle hy)

theorem later (hcall : Obeys arithmetic tokens input finish call steps) (y : Nonterminal α)
    (h : Enough input x p (steps + 1)) (hp : Faces tokens input finish p') (hlt : p < p') :
    Keeps arithmetic input p' (call α y p') (y.reading finish (input.drop p')) :=
  hcall α y p' hp (h.later y hlt hp.inside)

end Obeys

end MooScript.Parser
