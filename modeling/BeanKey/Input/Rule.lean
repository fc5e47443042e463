import BeanKey.Input.Table

/-! What a rule over characters asks of the end of the buffer, and which of the rules that match
is taken. -/
namespace BeanKey.Input

def characters (text : List Grapheme) : List KeyElement :=
  text.map fun value => .piece (.character value)

/-- Characters lead to the last element of the key, which asks for no modifiers. -/
def Mapping.Spelled (mapping : Mapping) : Prop :=
  ∃ start last, mapping.key = characters start ++ [last] ∧
    ∀ intention input modifiers, last ≠ .piece (.key intention input modifiers)

def Mapping.written (mapping : Mapping) (wildcard : Option InputPiece) : List Grapheme :=
  mapping.value.filterMap fun element =>
    match element with
    | .character value => some value
    | .any => wildcard.bind InputPiece.displayed

/-! ### Matching -/

theorem currentPiece_succ (buffer : List Grapheme) (added : InputPiece) (depth : Nat) :
    currentPiece buffer added (depth + 1) = (buffer.reverse[depth]?).map .character := by
  unfold currentPiece
  rw [if_neg (Nat.succ_ne_zero depth)]
  by_cases h : depth + 1 ≤ buffer.length
  · rw [if_pos h, List.getElem?_reverse (by omega), Nat.sub_sub, Nat.add_comm 1 depth]
  · rw [if_neg h, List.getElem?_eq_none (by rw [List.length_reverse]; omega)]
    rfl

theorem matchElement_character (expected value : Grapheme) (progress : MatchProgress) :
    matchElement (.piece (.character expected)) (.character value) progress =
      if value = expected then some progress else none := by
  by_cases h : value = expected
  · simp [matchElement, pieceMatches, InputPiece.displayed, h]
  · simp [matchElement, pieceMatches, InputPiece.displayed, h]

theorem matchElement_expected {expected value : Grapheme} {progress : MatchProgress}
    (h : matchElement (.piece (.character expected)) (.character value) {} = some progress) :
    value = expected ∧ progress = {} := by
  rw [matchElement_character] at h
  split at h
  · next heq => exact ⟨heq, (Option.some.inj h).symm⟩
  · cases h

/-- Characters are looked for from the end of the buffer on, and leave the counters as they were. -/
theorem matchElements_characters (buffer : List Grapheme) (added : InputPiece) (depth : Nat)
    (text : List Grapheme) (progress : MatchProgress) :
    matchElements buffer added (depth + 1) (characters text) progress =
      if text <+: buffer.reverse.drop depth then some progress else none := by
  induction text generalizing depth with
  | nil => simp [characters, matchElements]
  | cons expected rest ih =>
    change (currentPiece buffer added (depth + 1)).bind (fun current =>
      (matchElement (.piece (.character expected)) current progress).bind
        (matchElements buffer added (depth + 1 + 1) (characters rest))) = _
    rw [currentPiece_succ]
    cases hdrop : buffer.reverse.drop depth with
    | nil =>
      rw [List.getElem?_eq_none (List.drop_eq_nil_iff.mp hdrop)]
      simp
    | cons value tail =>
      have hvalue : buffer.reverse[depth]? = some value := by
        rw [← List.head?_drop, hdrop, List.head?_cons]
      have htail : buffer.reverse.drop (depth + 1) = tail := by
        rw [← List.tail_drop, hdrop, List.tail_cons]
      rw [hvalue, Option.map_some, Option.bind_some, matchElement_character]
      by_cases h : value = expected
      · rw [if_pos h, Option.bind_some, ih, htail, h]
        simp [List.cons_prefix_cons]
      · rw [if_neg h, Option.bind_none,
          if_neg fun hprefix => h (List.cons_prefix_cons.mp hprefix).1.symm]

namespace InputTable
variable {table : InputTable}

theorem length_le_maxKeyCount {mapping : Mapping} (h : mapping ∈ table.mappings) :
    mapping.key.length ≤ table.maxKeyCount := by
  have hmem : mapping.key.length ∈ table.mappings.map fun mapping => mapping.key.length :=
    List.mem_map.mpr ⟨mapping, h, rfl⟩
  unfold maxKeyCount
  generalize (table.mappings.map fun mapping => mapping.key.length) = lengths at hmem
  induction lengths with
  | nil => exact absurd hmem List.not_mem_nil
  | cons length lengths ih =>
    rw [List.foldr_cons]
    cases List.mem_cons.mp hmem with
    | inl h => exact h ▸ Nat.le_max_left _ _
    | inr h => exact (ih h).trans (Nat.le_max_right _ _)

/-- A spelled rule matches where the buffer ends with its characters and its last element stands for
the piece. -/
theorem matchMapping_spelled {mapping : Mapping} (hmem : mapping ∈ table.mappings)
    {start : List Grapheme} {last : KeyElement} (hkey : mapping.key = characters start ++ [last])
    (buffer : List Grapheme) (added : InputPiece) (index : Nat) :
    table.matchMapping buffer added mapping index =
      if start <:+ buffer then
        (matchElement last added {}).map fun progress =>
          { mappingIndex := index
            depth := start.length + 1
            wildcardCount := progress.wildcardCount
            exactKeyCount := progress.exactKeyCount
            resolvedWildcard := progress.resolvedWildcard }
      else none := by
  have hlength : mapping.key.length = start.length + 1 := by rw [hkey]; simp [characters]
  have hreverse : mapping.key.reverse = last :: characters start.reverse := by
    rw [hkey]
    simp [characters]
  have hne : mapping.key ≠ [] := by rw [hkey]; simp
  rw [matchMapping, if_neg (by simp [hne, length_le_maxKeyCount hmem]), hreverse, hlength,
    matchElements]
  change ((some added).bind fun current => _).map _ = _
  simp only [Option.bind_some, matchElements_characters, List.drop_zero, List.reverse_prefix]
  by_cases h : start <:+ buffer
  · simp [h]
  · simp [h]

end InputTable

/-! ### The best match -/

/-- Where a relation holds along `compareMatches`, it holds from every match to the chosen one. -/
theorem maxMatch_related {R : Match → Match → Prop} (htrans : ∀ {a b c}, R a b → R b c → R a c)
    (hrefl : ∀ a, R a a) (hgt : ∀ {left right}, compareMatches left right = .gt → R right left)
    (hle : ∀ {left right}, compareMatches left right ≠ .gt → R left right) {best : Option Match}
    {rest : List Match} {result : Match} (h : maxMatch best rest = some result) :
    (∀ b, best = some b → R b result) ∧ ∀ m ∈ rest, R m result := by
  induction rest generalizing best with
  | nil =>
    refine ⟨fun b hb => ?_, by simp⟩
    obtain rfl : b = result := by
      rw [maxMatch, hb] at h
      exact Option.some.inj h
    exact hrefl b
  | cons m rest ih =>
    cases best with
    | none =>
      obtain ⟨hm, hrest⟩ := ih h
      exact ⟨by simp, List.forall_mem_cons.mpr ⟨hm m rfl, hrest⟩⟩
    | some b =>
      obtain ⟨hchosen, hrest⟩ := ih h
      by_cases hb : compareMatches b m = .gt
      · rw [if_pos hb] at hchosen
        have hresult := hchosen b rfl
        exact ⟨by rintro _ ⟨⟩; exact hresult,
          List.forall_mem_cons.mpr ⟨htrans (hgt hb) hresult, hrest⟩⟩
      · rw [if_neg hb] at hchosen
        have hresult := hchosen m rfl
        exact ⟨by rintro _ ⟨⟩; exact htrans (hle hb) hresult,
          List.forall_mem_cons.mpr ⟨hresult, hrest⟩⟩

/-- A longer key, and of keys of one length the one with fewer wildcards. -/
def Match.AtMost (left right : Match) : Prop :=
  left.depth < right.depth ∨ left.depth = right.depth ∧ right.wildcardCount ≤ left.wildcardCount

theorem Match.AtMost.trans {a b c : Match} (hab : a.AtMost b) (hbc : b.AtMost c) : a.AtMost c := by
  unfold Match.AtMost at *
  omega

theorem compareMatches_ne_gt {left right : Match} (h : compareMatches left right ≠ .gt) :
    left.AtMost right := by
  cases Nat.lt_or_eq_of_le (compareMatches_depth_le h) with
  | inl hlt => exact .inl hlt
  | inr heq =>
    refine .inr ⟨heq, ?_⟩
    by_contra hlt
    have hgt : compare right.wildcardCount left.wildcardCount = .gt :=
      Nat.compare_eq_gt.mpr (by omega)
    exact h (by simp [compareMatches, heq, hgt, Ordering.then])

theorem compareMatches_gt {left right : Match} (h : compareMatches left right = .gt) :
    right.AtMost left := by
  cases Nat.lt_or_eq_of_le (compareMatches_gt_depth h) with
  | inl hlt => exact .inl hlt
  | inr heq =>
    refine .inr ⟨heq, ?_⟩
    by_contra hlt
    have hless : compare right.wildcardCount left.wildcardCount = .lt :=
      Nat.compare_eq_lt.mpr (by omega)
    simp [compareMatches, heq, hless, Ordering.then] at h

theorem maxMatch_atMost {rest : List Match} {result : Match}
    (h : maxMatch none rest = some result) :
    ∀ m ∈ rest, m.AtMost result :=
  (maxMatch_related (R := Match.AtMost) Match.AtMost.trans (fun _ => .inr ⟨rfl, le_rfl⟩)
    compareMatches_gt compareMatches_ne_gt h).2

/-- The choice sees only what `compareMatches` compares. -/
theorem maxMatch_map (f : Match → Match)
    (hf : ∀ left right, compareMatches (f left) (f right) = compareMatches left right)
    (best : Option Match) (rest : List Match) :
    maxMatch (best.map f) (rest.map f) = (maxMatch best rest).map f := by
  induction rest generalizing best with
  | nil => cases best <;> rfl
  | cons m rest ih =>
    cases best with
    | none => exact ih (some m)
    | some b =>
      simp only [List.map_cons, Option.map_some, maxMatch, hf]
      rw [← ih]
      congr 1
      split <;> rfl

namespace InputTable
variable {table : InputTable}

/-! ### The rule that is taken -/

/-- The rule that answers a piece: the buffer ends with its characters, its last element stands for
the piece, and no rule that matches has a longer key, or one as long with fewer wildcards. -/
structure Wins (table : InputTable) (buffer : List Grapheme) (added : InputPiece)
    (mapping : Mapping)
    (start : List Grapheme) (last : KeyElement) (progress : MatchProgress) : Prop where
  mem : mapping ∈ table.mappings
  key : mapping.key = characters start ++ [last]
  ends : start <:+ buffer
  stands : matchElement last added {} = some progress
  best : ∀ other ∈ table.mappings, ∀ start' last' progress', other.key =
    characters start' ++ [last'] →
    start' <:+ buffer → matchElement last' added {} = some progress' →
      start'.length < start.length ∨
        start'.length = start.length ∧ progress.wildcardCount ≤ progress'.wildcardCount

theorem mem_candidates_spelled {buffer : List Grapheme} {added : InputPiece} {mapping : Mapping}
    (hmem : mapping ∈ table.mappings) {start : List Grapheme} {last : KeyElement}
    {progress : MatchProgress} (hkey : mapping.key = characters start ++ [last])
    (hends : start <:+ buffer) (hstands : matchElement last added {} = some progress) :
    ∃ m ∈ table.candidates buffer added, m.depth = start.length + 1 ∧
      m.wildcardCount = progress.wildcardCount := by
  obtain ⟨index, hindex⟩ := List.getElem?_of_mem hmem
  have hmatch := matchMapping_spelled hmem hkey buffer added index
  rw [if_pos hends, hstands, Option.map_some] at hmatch
  exact ⟨_, List.mem_filterMap.mpr
    ⟨(mapping, index), List.mem_zipIdx_iff_getElem?.mpr hindex, hmatch⟩,
    rfl, rfl⟩

/-- Either no rule answers and the piece is written as it is, or one wins and writes its value in
place of what it asked for. -/
theorem apply_spelled (hspelled : ∀ mapping ∈ table.mappings, mapping.Spelled)
    (buffer : List Grapheme)
    (added : InputPiece) :
    table.candidates buffer added = [] ∧ table.apply buffer added =
      (buffer ++ added.displayed.toList, 0) ∨
      ∃ mapping start last progress, table.Wins buffer added mapping start last progress ∧
        table.apply buffer added = (buffer.take (buffer.length - start.length) ++
          mapping.written progress.resolvedWildcard, start.length) := by
  cases hbest : maxMatch none (table.candidates buffer added) with
  | none => exact .inl ⟨((maxMatch_spec none _).2 hbest).2, by rw [apply, hbest]⟩
  | some best =>
    obtain ⟨hfound, -, -⟩ := (maxMatch_spec none _).1 best hbest
    obtain ⟨⟨mapping, index⟩, hindexed, hmatch⟩ :=
      List.mem_filterMap.mp (hfound.resolve_left (by simp))
    have hindex := List.mem_zipIdx_iff_getElem?.mp hindexed
    have hmem : mapping ∈ table.mappings := List.mem_of_getElem? hindex
    obtain ⟨start, last, hkey, -⟩ := hspelled mapping hmem
    change table.matchMapping buffer added mapping index = some best at hmatch
    rw [matchMapping_spelled hmem hkey] at hmatch
    by_cases hends : start <:+ buffer
    · rw [if_pos hends] at hmatch
      obtain ⟨progress, hstands, rfl⟩ := Option.map_eq_some_iff.mp hmatch
      refine .inr ⟨mapping, start, last, progress, ⟨hmem, hkey, hends, hstands, ?_⟩, ?_⟩
      · intro other hother start' last' progress' hkey' hends' hstands'
        obtain ⟨m, hm, hdepth, hcount⟩ := mem_candidates_spelled hother hkey' hends' hstands'
        have hmost := maxMatch_atMost hbest m hm
        simp only [Match.AtMost, hdepth, hcount] at hmost
        omega
      · simp only [apply, hbest, emit, hindex, Nat.add_sub_cancel]
        rfl
    · simp [hends] at hmatch

/-- A rule that asks for the whole buffer and the typed character answers it. -/
theorem apply_whole (hspelled : ∀ mapping ∈ table.mappings, mapping.Spelled) {mapping : Mapping}
    (hmem : mapping ∈ table.mappings) {start : List Grapheme} {value : Grapheme}
    (hkey : mapping.key = characters start ++ [.piece (.character value)]) :
    (table.apply start (.character value)).1 = mapping.written none := by
  have hstands : matchElement (.piece (.character value)) (.character value) {} = some {} := by
    rw [matchElement_character, if_pos rfl]
  rcases table.apply_spelled hspelled start (.character value) with ⟨hnone, -⟩ |
    ⟨winner, start', last, progress, hwins, happly⟩
  · obtain ⟨m, hm, -⟩ := mem_candidates_spelled hmem hkey (List.suffix_refl start) hstands
    rw [hnone] at hm
    cases hm
  · have hbest := hwins.best mapping hmem start _ {} hkey (List.suffix_refl start) hstands
    have hlength := hwins.ends.length_le
    obtain rfl : start' = start := hwins.ends.eq_of_length (by omega)
    have hwinner := hwins.key
    -- a wildcard would count, so the last element is the character
    have hlast : last = .piece (.character value) ∧ progress = {} := by
      have hprogress := hwins.stands
      cases last with
      | any =>
        obtain rfl := Option.some.inj hprogress
        simp at hbest
      | piece expected =>
        cases expected with
        | character expected =>
          obtain ⟨rfl, rfl⟩ := matchElement_expected hprogress
          exact ⟨rfl, rfl⟩
        | compositionSeparator => cases hprogress
        | key intention input modifiers => cases hprogress
    obtain ⟨rfl, rfl⟩ := hlast
    have hsame : winner = mapping := by
      refine List.inj_on_of_nodup_map table.keys_nodup hwins.mem hmem ?_
      rw [hwinner, hkey]
    rw [happly, hsame, Nat.sub_self, List.take_zero, List.nil_append]

/-! ### Keys and characters -/

def inPlaceOf (value : Grapheme) (added piece : InputPiece) : InputPiece :=
  if piece = .character value then added else piece

theorem displayed_inPlaceOf {added : InputPiece} {value : Grapheme}
    (hvalue : added.displayed = some value)
    (piece : InputPiece) : (inPlaceOf value added piece).displayed = piece.displayed := by
  unfold inPlaceOf
  split
  · next h => rw [hvalue, h, InputPiece.displayed]
  · rfl

theorem matchElement_displayed {last : KeyElement} {added : InputPiece} {value : Grapheme}
    (hlast : ∀ intention input modifiers, last ≠ .piece (.key intention input modifiers))
    (hvalue : added.displayed = some value) :
    matchElement last added {} =
      (matchElement last (.character value) {}).map fun progress =>
        { progress with resolvedWildcard :=
          progress.resolvedWildcard.map (inPlaceOf value added) } := by
  cases last with
  | any => simp [matchElement, inPlaceOf]
  | piece expected =>
    cases expected with
    | character expected =>
      rw [matchElement_character]
      by_cases h : value = expected
      · simp [matchElement, pieceMatches, hvalue, h]
      · simp [matchElement, pieceMatches, hvalue, h]
    | compositionSeparator =>
      cases added with
      | compositionSeparator => cases hvalue
      | character _ => rfl
      | key intention input modifiers => rfl
    | key intention input modifiers => exact absurd rfl (hlast intention input modifiers)

theorem apply_displayed (hspelled : ∀ mapping ∈ table.mappings, mapping.Spelled)
    (buffer : List Grapheme)
    {added : InputPiece} {value : Grapheme} (hvalue : added.displayed = some value) :
    table.apply buffer added = table.apply buffer (.character value) := by
  have hcandidates : table.candidates buffer added =
      (table.candidates buffer (.character value)).map fun m : Match =>
        { m with resolvedWildcard := m.resolvedWildcard.map (inPlaceOf value added) } := by
    unfold candidates
    rw [List.map_filterMap]
    apply List.filterMap_congr
    rintro ⟨mapping, index⟩ hindexed
    have hmem : mapping ∈ table.mappings :=
      List.mem_of_getElem? (List.mem_zipIdx_iff_getElem?.mp hindexed)
    obtain ⟨start, last, hkey, hlast⟩ := hspelled mapping hmem
    dsimp only
    rw [matchMapping_spelled hmem hkey, matchMapping_spelled hmem hkey,
      matchElement_displayed hlast hvalue]
    split
    · rw [Option.map_map, Option.map_map]
      rfl
    · rfl
  have hbest :=
    maxMatch_map (fun m =>
      { m with resolvedWildcard := m.resolvedWildcard.map (inPlaceOf value added) })
    (fun _ _ => rfl) none (table.candidates buffer (.character value))
  rw [Option.map_none, ← hcandidates] at hbest
  unfold apply
  rw [hbest]
  cases maxMatch none (table.candidates buffer (.character value)) with
  | none =>
    rw [hvalue]
    rfl
  | some best =>
    simp only [Option.map_some, emit]
    cases table.mappings[best.mappingIndex]? with
    | none => rfl
    | some mapping =>
      congr 2
      apply List.filterMap_congr
      intro element _
      cases element with
      | character value => rfl
      | any =>
        cases best.resolvedWildcard with
        | none => rfl
        | some piece => exact displayed_inPlaceOf hvalue piece

end InputTable

end BeanKey.Input
