import MooScript.Proofs.Location.Cursor
import MooScript.Source.LineIndex

/-! The table of lines finds at each offset the position that reading up to it gives. -/
namespace MooScript.LineIndex

open String (utf8Len)

variable {source : String} {pre post front line : List Char} {c : Char} {offset : ℕ}

/-! ### Offsets in a source -/

theorem utf8Len_toList (source : String) : utf8Len source.toList = source.utf8ByteSize := by
  rw [← String.utf8ByteSize_ofList, String.ofList_toList]

theorem le_utf8ByteSize {rest : List Char} (hsource : source.toList = pre ++ c :: rest) :
    utf8Len pre + c.utf8Size ≤ source.utf8ByteSize := by
  rw [← utf8Len_toList, hsource, String.utf8Len_append, String.utf8Len_cons]
  omega

/-- An offset is between two characters, with that of the end for those beyond it, or inside one. -/
theorem exists_place (source : String) (offset : ℕ) :
    (∃ pre post, source.toList = pre ++ post ∧
      utf8Len pre = min offset source.utf8ByteSize) ∨
    ∃ pre c rest, source.toList = pre ++ c :: rest ∧
      utf8Len pre < offset ∧ offset < utf8Len pre + c.utf8Size := by
  have hle : min offset source.utf8ByteSize ≤ utf8Len source.toList := by
    rw [utf8Len_toList]
    exact Nat.min_le_right _ _
  obtain ⟨pre, post, hsource, heq | ⟨hlt, c, rest, rfl, hc⟩⟩ := exists_split _ hle
  · exact .inl ⟨pre, post, hsource, heq⟩
  · have hsize := le_utf8ByteSize hsource
    exact .inr ⟨pre, c, rest, hsource, by omega, by omega⟩

/-! ### The search -/

theorem behindFeeds_append (offset : ℕ) (pre post : List Char) :
    behindFeeds offset (pre ++ post) =
      behindFeeds offset pre ++ behindFeeds (offset + utf8Len pre) post := by
  induction pre generalizing offset with
  | nil => rfl
  | cons c pre ih =>
    have hsum : offset + utf8Len (c :: pre) = offset + c.utf8Size + utf8Len pre := by
      rw [String.utf8Len_cons]
      omega
    rw [List.cons_append, behindFeeds, behindFeeds, hsum, ih]
    split
    · rfl
    · rfl

theorem length_behindFeeds (offset : ℕ) (cs : List Char) :
    (behindFeeds offset cs).length = cs.count '\n' := by
  induction cs generalizing offset with
  | nil => rfl
  | cons c cs ih =>
    rw [behindFeeds, List.count_cons]
    by_cases hc : c = '\n'
    · rw [if_pos hc, if_pos (beq_iff_eq.mpr hc), List.length_cons, ih]
    · rw [if_neg hc, if_neg (mt beq_iff_eq.mp hc), ih, Nat.add_zero]

theorem mem_behindFeeds {start offset : ℕ} {cs : List Char} (h : start ∈ behindFeeds offset cs) :
    offset < start ∧ start ≤ offset + utf8Len cs := by
  induction cs generalizing offset with
  | nil => cases h
  | cons c cs ih =>
    have hpos := c.utf8Size_pos
    rw [String.utf8Len_cons]
    have hrest (h : start ∈ behindFeeds (offset + c.utf8Size) cs) :
        offset < start ∧ start ≤ offset + (utf8Len cs + c.utf8Size) := by
      have := ih h
      omega
    rw [behindFeeds] at h
    split at h
    · rcases List.mem_cons.mp h with rfl | h
      · omega
      · exact hrest h
    · exact hrest h

theorem behindFeeds_sorted (offset : ℕ) (cs : List Char) :
    (behindFeeds offset cs).Pairwise (· < ·) := by
  induction cs generalizing offset with
  | nil => exact .nil
  | cons c cs ih =>
    rw [behindFeeds]
    split
    · exact .cons (fun _ h => (mem_behindFeeds h).1) (ih _)
    · exact ih _

/-- The first `count` lines begin at the offset or before it, and of these only the last one can
begin at it. -/
structure Splits (starts : Array ℕ) (offset count : ℕ) : Prop where
  size : count ≤ starts.size
  before : ∀ i start, starts[i]? = some start → i < count → start ≤ offset
  behind : ∀ i start, starts[i]? = some start → count ≤ i → offset < start
  last : ∀ i, starts[i]? = some offset → i + 1 = count

theorem search?_of_splits {starts : Array ℕ} {count low high : ℕ} (h : Splits starts offset count)
    (hlow : low ≤ count) (hhigh : count ≤ high) (hsize : high ≤ starts.size) :
    search? starts offset low high = some (.error count) ∨
      ∃ line, search? starts offset low high = some (.ok line) ∧ line + 1 = count := by
  -- The answer stays between the two ends, and they come together.
  fun_induction search? starts offset low high with
  | case1 low high hlt middle hnone =>
    rw [Array.getElem?_eq_none_iff] at hnone
    omega
  | case2 low high hlt middle hexact => exact .inr ⟨middle, rfl, h.last middle hexact⟩
  | case3 low high hlt middle start hstart hne hless ih =>
    apply ih _ hhigh hsize
    by_contra hlate
    have := h.behind middle start hstart (by omega)
    omega
  | case4 low high hlt middle start hstart hne hless ih =>
    apply ih hlow _ (by omega)
    by_contra hearly
    have := h.before middle start hstart (by omega)
    omega
  | case5 low high hge =>
    left
    rw [Nat.le_antisymm hlow (by omega)]

theorem line?_of_splits {index : LineIndex} {line : ℕ}
    (h : Splits index.starts offset (line + 1)) : index.line? offset = some line := by
  rw [line?]
  rcases search?_of_splits h (Nat.zero_le _) h.size (Nat.le_refl _) with
    hsearch | ⟨m, hsearch, hm⟩
  · rw [hsearch]
  · rw [hsearch, Nat.succ.inj hm]

/-! ### A source that is read up to an offset -/

theorem getElem?_starts (source : String) (i : ℕ) :
    (ofSource source).starts[i]? = (0 :: behindFeeds 0 source.toList)[i]? :=
  List.getElem?_toArray

theorem starts_of_append (hsource : source.toList = pre ++ post) :
    0 :: behindFeeds 0 source.toList =
      (0 :: behindFeeds 0 pre) ++ behindFeeds (utf8Len pre) post := by
  rw [hsource, behindFeeds_append, Nat.zero_add, List.cons_append]

theorem splits_of_append (hsource : source.toList = pre ++ post) (hle : utf8Len pre ≤ offset)
    (hbehind : ∀ start ∈ behindFeeds (utf8Len pre) post, offset < start) :
    Splits (ofSource source).starts offset (pre.count '\n' + 1) := by
  have hlength : (0 :: behindFeeds 0 pre).length = pre.count '\n' + 1 := by
    rw [List.length_cons, length_behindFeeds]
  have hsorted : (0 :: behindFeeds 0 source.toList).Pairwise (· < ·) :=
    .cons (fun _ h => (mem_behindFeeds h).1) (behindFeeds_sorted _ _)
  have hbefore (i start : ℕ) (h : (ofSource source).starts[i]? = some start)
      (hi : i < pre.count '\n' + 1) : start ≤ offset := by
    rw [getElem?_starts, starts_of_append hsource, List.getElem?_append_left (by omega)] at h
    rcases List.mem_cons.mp (List.mem_of_getElem? h) with rfl | hmem
    · exact Nat.zero_le _
    · have := mem_behindFeeds hmem
      omega
  have hlater (i start : ℕ) (h : (ofSource source).starts[i]? = some start)
      (hi : pre.count '\n' + 1 ≤ i) : offset < start := by
    rw [getElem?_starts, starts_of_append hsource, List.getElem?_append_right (by omega)] at h
    exact hbehind start (List.mem_of_getElem? h)
  have hsize : pre.count '\n' + 1 ≤ (ofSource source).starts.size := by
    change _ ≤ (0 :: behindFeeds 0 source.toList).length
    rw [starts_of_append hsource, List.length_append, hlength]
    exact Nat.le_add_right _ _
  refine ⟨hsize, hbefore, hlater, fun i hexact => ?_⟩
  -- A line that begins at the offset has none behind it that begins there or before.
  by_contra hne
  have hi : i < pre.count '\n' + 1 := by
    by_contra hge
    exact absurd (hlater i offset hexact (by omega)) (Nat.lt_irrefl _)
  obtain ⟨next, hnext⟩ : ∃ next, (ofSource source).starts[i + 1]? = some next :=
    ⟨_, Array.getElem?_eq_getElem (by omega)⟩
  have hle := hbefore (i + 1) next hnext (by omega)
  rw [getElem?_starts, List.getElem?_eq_some_iff] at hexact hnext
  obtain ⟨hi, rfl⟩ := hexact
  obtain ⟨hi', rfl⟩ := hnext
  have := List.pairwise_iff_getElem.mp hsorted i (i + 1) hi hi' (Nat.lt_succ_self i)
  omega

/-- The line that a text ends in begins where the lines before it end. -/
theorem start_of_endsIn (hsource : source.toList = pre ++ post) (h : EndsIn pre front line) :
    (ofSource source).starts[pre.count '\n']? = some (utf8Len front) := by
  have hparts : source.toList = front ++ (line ++ post) := by
    rw [hsource, h.parts, List.append_assoc]
  rw [getElem?_starts, h.count_eq]
  rcases h.opened with rfl | ⟨earlier, rfl⟩
  · rfl
  · have hlength : (0 :: behindFeeds 0 earlier).length = (earlier ++ ['\n']).count '\n' := by
      rw [List.length_cons, length_behindFeeds, List.count_append, List.count_singleton_self]
    rw [List.append_assoc] at hparts
    rw [starts_of_append hparts, List.getElem?_append_right (Nat.le_of_eq hlength), hlength,
      Nat.sub_self, List.singleton_append, behindFeeds, if_pos rfl, String.utf8Len_append,
      String.utf8Len_cons, String.utf8Len_nil, Nat.zero_add]
    rfl

theorem countTo?_append (pre post : List Char) (size : ℕ) :
    countTo? (utf8Len pre + size) (pre ++ post) = (countTo? size post).map (· + pre.length) := by
  induction pre with
  | nil => simp
  | cons c pre ih =>
    have hpos := c.utf8Size_pos
    have hrest : utf8Len pre + c.utf8Size + size - c.utf8Size = utf8Len pre + size := by omega
    rw [List.cons_append, String.utf8Len_cons, countTo?, if_neg (by omega), if_neg (by omega),
      hrest, ih, Option.map_map, List.length_cons]
    rfl

theorem countTo?_zero (cs : List Char) : countTo? 0 cs = some 0 := by
  cases cs with
  | nil => rfl
  | cons c cs => rfl

theorem countTo?_of_append (hsource : source.toList = pre ++ post) :
    countTo? (utf8Len pre) source.toList = some pre.length := by
  have h := countTo?_append pre post 0
  rw [countTo?_zero, Nat.add_zero, Option.map_some, Nat.zero_add] at h
  rw [hsource, h]

theorem countTo?_within {rest : List Char} (hsource : source.toList = pre ++ c :: rest)
    (hlt : utf8Len pre < offset) (hc : offset < utf8Len pre + c.utf8Size) :
    countTo? offset source.toList = none := by
  obtain ⟨part, rfl⟩ := Nat.exists_eq_add_of_le hlt.le
  rw [hsource, countTo?_append, countTo?, if_neg (by omega), if_pos (by omega), Option.map_none]

theorem position?_eq {start width count : ℕ} {p : ℕ} (hp : p = min offset source.utf8ByteSize)
    (hsplits : Splits (ofSource source).starts p (count + 1))
    (hstart : (ofSource source).starts[count]? = some start)
    (hwidth : width? source start p = some width) :
    (ofSource source).position? offset = some ⟨count + 1, width + 1⟩ := by
  have hline : line? (ofSource source) p = some count := line?_of_splits hsplits
  have hmin : min offset (ofSource source).source.utf8ByteSize = p := hp.symm
  simp only [position?, hmin, hline, hstart, Option.bind_eq_bind, Option.bind_some]
  change (width? source start p).bind _ = _
  rw [hwidth]
  rfl

theorem position?_of_append (hsource : source.toList = pre ++ post)
    (h : utf8Len pre = min offset source.utf8ByteSize) :
    (ofSource source).position? offset = some (Cursor.start.after pre).position := by
  obtain ⟨front, line, hends⟩ := exists_endsIn pre
  have hsum : utf8Len pre = utf8Len front + utf8Len line := by
    rw [hends.parts, String.utf8Len_append]
  have hparts : source.toList = front ++ (line ++ post) := by
    rw [hsource, hends.parts, List.append_assoc]
  have hcount : pre.length - front.length = line.length := by
    rw [hends.parts, List.length_append, Nat.add_sub_cancel_left]
  have hwidth : width? source (utf8Len front) (utf8Len pre) = some line.length := by
    rw [width?, countBetween?, countTo?_of_append hparts, countTo?_of_append hsource]
    dsimp only
    rw [if_pos (by omega), hcount]
  have hsplits := splits_of_append hsource (Nat.le_refl _) fun _ hs => (mem_behindFeeds hs).1
  rw [position?_eq h hsplits (start_of_endsIn hsource hends) hwidth,
    Cursor.position_of_endsIn hends, Nat.add_comm 1, Nat.add_comm 1]

theorem position?_within {rest : List Char} (hsource : source.toList = pre ++ c :: rest)
    (hlt : utf8Len pre < offset) (hc : offset < utf8Len pre + c.utf8Size) :
    (ofSource source).position? offset = some (Position.ofOffset source offset) := by
  obtain ⟨front, line, hends⟩ := exists_endsIn pre
  have hsum : utf8Len pre = utf8Len front + utf8Len line := by
    rw [hends.parts, String.utf8Len_append]
  have hsize := le_utf8ByteSize hsource
  have hmin : offset = min offset source.utf8ByteSize := by omega
  have hwidth : width? source (utf8Len front) offset = some (offset - utf8Len front) := by
    have hcount : countBetween? source (utf8Len front) offset = none := by
      rw [countBetween?, countTo?_within hsource hlt hc]
      split
      · rename_i h
        cases h
      · rfl
    rw [width?, hcount]
    dsimp only
    rw [if_pos (by omega)]
  have hbehind : ∀ start ∈ behindFeeds (utf8Len pre) (c :: rest), offset < start := by
    intro start hs
    rw [behindFeeds, if_neg (ne_lineFeed_of_within hlt hc)] at hs
    have := mem_behindFeeds hs
    omega
  have hsplits := splits_of_append hsource hlt.le hbehind
  rw [position?_eq hmin hsplits (start_of_endsIn hsource hends) hwidth, Position.ofOffset,
    hsource, Position.locate_within hends hlt hc, Nat.add_comm 1, Nat.add_comm 1]

/-! ### The scan of the source -/

/-- Scanning for an offset beyond the end stops at the end. -/
theorem ofOffset_of_append (hsource : source.toList = pre ++ post)
    (h : utf8Len pre = min offset source.utf8ByteSize) :
    Position.ofOffset source offset = (Cursor.start.after pre).position := by
  have hsize := utf8Len_toList source
  rw [hsource, String.utf8Len_append] at hsize
  obtain ⟨beyond, rfl⟩ : ∃ beyond, offset = utf8Len pre + beyond :=
    Nat.exists_eq_add_of_le (by omega)
  have hlocate := Position.locate_append pre post beyond 0 Cursor.start
  rw [Position.ofOffset, hsource]
  refine hlocate.trans ?_
  rcases Nat.eq_zero_or_pos beyond with rfl | hpos
  · cases post with
    | nil => rfl
    | cons c cs => rfl
  · have hpost : post = [] := String.utf8Len_eq_zero.mp (by omega)
    rw [hpost]
    rfl

/-- At each offset, beyond the end too, the table agrees with the scan of the source. -/
theorem position?_eq_ofOffset (source : String) (offset : ℕ) :
    (ofSource source).position? offset = some (Position.ofOffset source offset) := by
  rcases exists_place source offset with
    ⟨pre, post, hsource, heq⟩ | ⟨pre, c, rest, hsource, hlt, hc⟩
  · rw [position?_of_append hsource heq, ofOffset_of_append hsource heq]
  · exact position?_within hsource hlt hc

theorem position?_after (hsource : source.toList = pre ++ post) :
    (ofSource source).position? (String.ofList pre).utf8ByteSize =
      some (Cursor.start.after pre).position := by
  have hsize := utf8Len_toList source
  rw [hsource, String.utf8Len_append] at hsize
  refine position?_of_append hsource ?_
  rw [String.utf8ByteSize_ofList]
  omega

end MooScript.LineIndex
