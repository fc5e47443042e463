import BeanKey.Input.Boundary

/-! Editing the composing text: every edit keeps the surface the conversion of the
whole input, except an insertion where hidden input is all that is left. -/
namespace BeanKey.Input
variable {tables : InputTableRegistry}

/-! ### Forcing the cursor -/

theorem take_append_mid_append_drop {α : Type*} (xs : List α) {start stop : Nat}
    (h : start ≤ stop) : xs.take start ++ (xs.take stop).drop start ++ xs.drop stop = xs := by
  have htake : xs.take start = (xs.take stop).take start := by
    rw [List.take_take, Nat.min_eq_left h]
  rw [htake, List.take_append_drop, List.take_append_drop]

theorem quiet_frozenCharacters (surface : List Grapheme) :
    ∀ element ∈ frozenCharacters surface, element.Quiet tables := by
  intro element hin
  obtain ⟨value, -, rfl⟩ := List.mem_map.mp hin
  exact quiet_of_frozen rfl

/-- The surface between two boundaries, frozen, stands for the input between them. -/
theorem CutAt.of_frozen {text : ComposingText} (h : text.Coherent tables)
    {first last : IndexPair} (hfirst : IsBoundary tables text.input first)
    (hlast : IsBoundary tables text.input last) {target : Nat}
    (hlow : first.surface < target) (hhigh : target < last.surface) :
    CutAt tables text target
      ({ text with
          input := text.input.take first.input ++
            frozenCharacters ((text.surface.take last.surface).drop first.surface) ++
              text.input.drop last.input },
        target - first.surface + first.input) := by
  have hcutFirst := CutAt.of_boundary h hfirst
  have hcutLast := CutAt.of_boundary h hlast
  have hbefore : convertElements tables (text.input.take first.input) =
      text.surface.take first.surface := hcutFirst.before
  have hafter : convertElements tables (text.input.drop last.input) =
      text.surface.drop last.surface := hcutLast.after
  have hlen : last.surface ≤ text.surface.length := by
    rw [← hlast.surface, hcutLast.before, List.length_take]
    exact min_le_right _ _
  generalize hmid : (text.surface.take last.surface).drop first.surface = middle
  have hmidLen : middle.length = last.surface - first.surface := by
    rw [← hmid, List.length_drop, List.length_take, Nat.min_eq_left hlen]
  have hsplit : text.surface.take first.surface ++ middle ++ text.surface.drop last.surface =
      text.surface := by
    rw [← hmid]
    exact take_append_mid_append_drop text.surface (by omega)
  have hfirstLen : (text.input.take first.input).length = first.input := by
    rw [List.length_take, Nat.min_eq_left hfirst.le]
  have hsurfaceLen : (text.surface.take first.surface).length = first.surface := by
    rw [← hbefore, hfirst.surface]
  have hindex : target - first.surface + first.input =
      (text.input.take first.input).length + (target - first.surface) := by omega
  have htarget : target = (text.surface.take first.surface).length + (target - first.surface) := by
    omega
  have hfrozenTake : (frozenCharacters middle).take (target - first.surface) =
      frozenCharacters (middle.take (target - first.surface)) := List.map_take.symm
  have hfrozenDrop : (frozenCharacters middle).drop (target - first.surface) =
      frozenCharacters (middle.drop (target - first.surface)) := List.map_drop.symm
  have hfrozenLen : (frozenCharacters middle).length = middle.length := List.length_map _
  have hquietDrop : ∀ element ∈ text.input.drop last.input, element.Quiet tables :=
    fun element hin => h.quiet element (List.mem_of_mem_drop hin)
  refine ⟨rfl, rfl, ⟨?_, ?_⟩, ?_, ?_, ?_⟩
  · show text.surface = convertElements tables _
    have hne : middle ≠ [] := List.ne_nil_of_length_pos (by omega)
    rw [(ends_frozenCharacters tables _ hne).convert_append _ hquietDrop,
      convert_frozenCharacters tables,
      hbefore, hafter, hsplit]
  · refine List.forall_mem_append.mpr ⟨List.forall_mem_append.mpr ⟨?_, ?_⟩, hquietDrop⟩
    · exact fun element hin => h.quiet element (List.mem_of_mem_take hin)
    · exact quiet_frozenCharacters middle
  · simp only [List.length_append, hfirstLen, hfrozenLen, hmidLen]
    omega
  · simp only
    rw [List.append_assoc, hindex, List.take_length_add_append,
      List.take_append_of_le_length (by omega), hfrozenTake,
        convert_frozenCharacters tables, hbefore]
    conv_rhs => rw [← hsplit, List.append_assoc, htarget, List.take_length_add_append,
      List.take_append_of_le_length (by omega)]
  · simp only
    rw [List.append_assoc, hindex, List.drop_length_add_append,
      List.drop_append_of_le_length (by omega), hfrozenDrop]
    have hne : middle.drop (target - first.surface) ≠ [] :=
      List.ne_nil_of_length_pos (by rw [List.length_drop]; omega)
    have hends := ends_frozenCharacters tables [] hne
    have hconvert := convert_frozenCharacters tables []
      (middle.drop (target - first.surface))
    simp only [List.nil_append, convertElements_nil] at hends hconvert
    rw [hends.convert_append _ hquietDrop, hconvert, hafter]
    conv_rhs => rw [← hsplit, List.append_assoc, htarget, List.drop_length_add_append,
      List.drop_append_of_le_length (by omega)]

theorem searchCursor_independentBoundaries {text : ComposingText}
    (h : text.Coherent tables) {target : Nat} (hlt : target < text.surface.length) :
    SearchFound (independentBoundaries tables text.input) target
      (searchCursor target (independentBoundaries tables text.input)
        ⟨text.input.length, text.surface.length⟩) := by
  have hinv := scan_invariant tables text.input
  refine searchCursor_found hinv.sorted _ [] rfl (by simp) hinv.bottom _ ?_ hlt
  rw [h.surface]
  exact List.mem_of_mem_head? hinv.top

theorem forceInputCursor_cut {text : ComposingText} (h : text.Coherent tables)
    (target : Nat) :
    CutAt tables text target (text.forceInputCursor tables target) := by
  unfold ComposingText.forceInputCursor
  by_cases hzero : target = 0
  · rw [if_pos hzero, hzero]
    exact CutAt.of_boundary h (isBoundary_zero text.input)
  · rw [if_neg hzero]
    by_cases hend : text.surface.length ≤ target
    · rw [if_pos hend]
      refine ⟨rfl, rfl, h, le_rfl, ?_, ?_⟩
      · rw [List.take_length, List.take_of_length_le hend, ← h.surface]
      · rw [List.drop_length, List.drop_of_length_le hend, convertElements_nil]
    · rw [if_neg hend]
      have hinv := scan_invariant tables text.input
      have hfound := searchCursor_independentBoundaries h (not_le.mp hend)
      cases hsearch : searchCursor target (independentBoundaries tables text.input)
          ⟨text.input.length, text.surface.length⟩ with
      | boundary input =>
        rw [hsearch] at hfound
        exact CutAt.of_boundary h (h.isBoundary hfound)
      | inside first last =>
        rw [hsearch] at hfound
        obtain ⟨hfirst, hlast, hlow, hhigh, -⟩ := hfound
        exact CutAt.of_frozen h (h.isBoundary hfirst) (h.isBoundary hlast) hlow hhigh

/-- The index the first call returns is a boundary for the next one. -/
theorem forceInputCursor_boundary {text : ComposingText} (h : text.Coherent tables)
    {target : Nat} (hlt : target < text.surface.length) :
    ⟨(text.forceInputCursor tables target).2, target⟩ ∈
      independentBoundaries tables (text.forceInputCursor tables target).1.input := by
  have hinv := scan_invariant tables text.input
  have hcut := forceInputCursor_cut h target
  unfold ComposingText.forceInputCursor at hcut ⊢
  by_cases hzero : target = 0
  · rw [if_pos hzero, hzero]
    exact hinv.bottom
  · rw [if_neg hzero, if_neg (not_le.mpr hlt)] at hcut ⊢
    have hfound := searchCursor_independentBoundaries h hlt
    cases hsearch : searchCursor target (independentBoundaries tables text.input)
        ⟨text.input.length, text.surface.length⟩ with
    | boundary input =>
      rw [hsearch] at hfound
      exact hfound
    | inside first last =>
      rw [hsearch] at hfound hcut
      obtain ⟨hfirst, hlast, hlow, hhigh, -⟩ := hfound
      have hbefore := hcut.before
      have hle := hcut.le
      simp only at hbefore hle ⊢
      generalize hmid : (text.surface.take last.surface).drop first.surface = middle at *
      have hlastLe : last.surface ≤ text.surface.length := by
        rw [← (h.isBoundary hlast).surface, (CutAt.of_boundary h (h.isBoundary hlast)).before,
          List.length_take]
        exact min_le_right _ _
      have hmidLen : middle.length = last.surface - first.surface := by
        rw [← hmid, List.length_drop, List.length_take, Nat.min_eq_left hlastLe]
      have hfirstLen : (text.input.take first.input).length = first.input := by
        rw [List.length_take, Nat.min_eq_left (h.isBoundary hfirst).le]
      have hfrozen : frozenCharacters middle =
          frozenCharacters (middle.take (target - first.surface)) ++
            frozenCharacters (middle.drop (target - first.surface)) := by
        rw [frozenCharacters, frozenCharacters, frozenCharacters, ← List.map_append,
          List.take_append_drop]
      have hne : middle.take (target - first.surface) ≠ [] :=
        List.ne_nil_of_length_pos (by rw [List.length_take]; omega)
      have hmem := mem_independentBoundaries_of_ends
        (ends_frozenCharacters tables (text.input.take first.input) hne)
        (frozenCharacters (middle.drop (target - first.surface)) ++ text.input.drop last.input)
        (List.forall_mem_append.mpr ⟨quiet_frozenCharacters _,
          fun element hin => h.quiet element (List.mem_of_mem_drop hin)⟩)
      have hfrozenLen : (text.input.take first.input ++
          frozenCharacters (middle.take (target - first.surface))).length =
            target - first.surface + first.input := by
        simp only [List.length_append, hfirstLen, frozenCharacters, List.length_map,
          List.length_take]
        omega
      have hinput : text.input.take first.input ++ frozenCharacters middle ++
          text.input.drop last.input = text.input.take first.input ++
            frozenCharacters (middle.take (target - first.surface)) ++
              (frozenCharacters (middle.drop (target - first.surface)) ++
                text.input.drop last.input) := by
        rw [hfrozen]
        simp only [List.append_assoc]
      rw [hinput, ← hfrozenLen, List.take_left] at hbefore
      rw [hbefore, hfrozenLen, List.length_take, Nat.min_eq_left hlt.le, ← hinput] at hmem
      exact hmem

/-- Forcing a later position leaves the input before an earlier boundary alone. -/
theorem forceInputCursor_keeps {text : ComposingText} (h : text.Coherent tables)
    {input surface target : Nat}
    (hpair : ⟨input, surface⟩ ∈ independentBoundaries tables text.input)
    (hlt : surface < target) :
    (text.forceInputCursor tables target).1.input.take input = text.input.take input ∧
      input ≤ (text.forceInputCursor tables target).2 := by
  have hinv := scan_invariant tables text.input
  have hle : input ≤ text.input.length := (h.isBoundary hpair).le
  unfold ComposingText.forceInputCursor
  rw [if_neg (by omega : ¬target = 0)]
  by_cases hend : text.surface.length ≤ target
  · rw [if_pos hend]
    exact ⟨rfl, hle⟩
  · rw [if_neg hend]
    have hfound := searchCursor_independentBoundaries h (not_le.mp hend)
    cases hsearch : searchCursor target (independentBoundaries tables text.input)
        ⟨text.input.length, text.surface.length⟩ with
    | boundary index =>
      rw [hsearch] at hfound
      exact ⟨rfl, (input_lt_of_surface_lt hinv.sorted hpair hfound hlt).le⟩
    | inside first last =>
      rw [hsearch] at hfound
      obtain ⟨hfirst, -, -, -, hclosest⟩ := hfound
      have hinput : input ≤ first.input := hclosest _ hpair hlt
      have hfirstLe := (h.isBoundary hfirst).le
      refine ⟨?_, by simp only; omega⟩
      simp only
      rw [List.append_assoc, List.take_append_of_le_length (by rw [List.length_take]; omega),
        List.take_take, Nat.min_eq_left hinput]

/-! ### The edits -/

/-- The surface is the conversion of the input, and the cursor stands in it. -/
structure ComposingText.WellFormed (tables : InputTableRegistry) (text : ComposingText) : Prop where
  coherent : text.Coherent tables
  cursor_le : text.cursor ≤ text.surface.length

/-- The text shows nothing, yet some input is left. -/
def ComposingText.HidesInput (text : ComposingText) : Prop :=
  text.surface = [] ∧ text.input ≠ []

instance (text : ComposingText) : Decidable text.HidesInput :=
  inferInstanceAs (Decidable (_ ∧ _))

namespace ComposingText

theorem new_wellFormed : new.WellFormed tables :=
  ⟨⟨rfl, fun _ hin => absurd hin (List.not_mem_nil)⟩, le_rfl⟩

theorem commonPrefixLen_le {α : Type*} [DecidableEq α] (left right : List α) :
    commonPrefixLen left right ≤ left.length ∧ commonPrefixLen left right ≤ right.length := by
  induction left generalizing right with
  | nil => simp [commonPrefixLen]
  | cons l left ih =>
    cases right with
    | nil => simp [commonPrefixLen]
    | cons r right =>
      have := ih right
      by_cases h : l = r
      · simp only [commonPrefixLen, if_pos h, List.length_cons]
        omega
      · simp [commonPrefixLen, h]

theorem take_commonPrefixLen {α : Type*} [DecidableEq α] (left right : List α) :
    left.take (commonPrefixLen left right) = right.take (commonPrefixLen left right) := by
  induction left generalizing right with
  | nil => simp [commonPrefixLen]
  | cons l left ih =>
    cases right with
    | nil => simp [commonPrefixLen]
    | cons r right =>
      by_cases h : l = r
      · simp [commonPrefixLen, h, ih right]
      · simp [commonPrefixLen, h]

/-- Dropping a frozen separator shortens the input before the cut by what shows nothing. -/
theorem dropSeparatorBefore_spec (tables : InputTableRegistry) {input : List InputElement}
    {position : Nat}
    (hle : position ≤ input.length) :
    (dropSeparatorBefore input position).2 ≤ position ∧
      (dropSeparatorBefore input position).2 ≤ (dropSeparatorBefore input position).1.length ∧
      convertElements tables ((dropSeparatorBefore input position).1.take
        (dropSeparatorBefore input position).2) = convertElements tables (input.take position) ∧
      (dropSeparatorBefore input position).1.drop (dropSeparatorBefore input position).2 =
        input.drop position := by
  unfold dropSeparatorBefore
  by_cases h : 0 < position ∧ input[position - 1]? = some .frozenSeparator
  · rw [if_pos h]
    obtain ⟨hpos, hget⟩ := h
    have hlt : position - 1 < input.length := by omega
    have htake : input.take position = input.take (position - 1) ++ [.frozenSeparator] := by
      obtain ⟨n, rfl⟩ : ∃ n, position = n + 1 := ⟨position - 1, by omega⟩
      rw [List.take_add_one, Nat.add_sub_cancel]
      rw [Nat.add_sub_cancel] at hget
      rw [hget]
      rfl
    have herase : input.eraseIdx (position - 1) =
        input.take (position - 1) ++ input.drop position := by
      rw [List.eraseIdx_eq_take_drop_succ, Nat.sub_add_cancel hpos]
    have hlen : (input.take (position - 1)).length = position - 1 := by
      rw [List.length_take]
      omega
    simp only [herase]
    refine ⟨by omega, ?_, ?_, ?_⟩
    · rw [List.length_append, hlen]
      omega
    · rw [List.take_left' hlen, htake, convert_frozenSeparator]
    · rw [List.drop_left' hlen]
  · rw [if_neg h]
    exact ⟨le_rfl, hle, rfl, rfl⟩

theorem mem_of_mem_dropSeparatorBefore {input : List InputElement} {position : Nat}
    {element : InputElement} (h : element ∈ (dropSeparatorBefore input position).1) :
    element ∈ input := by
  unfold dropSeparatorBefore at h
  split at h
  · exact List.mem_of_mem_eraseIdx h
  · exact h

theorem quiet_frozenSeparator : InputElement.frozenSeparator.Quiet tables := quiet_of_frozen rfl

/-- At the end of a text with a visible surface, or before everything, the insertion
point has nothing after it. -/
theorem forceInputCursor_drop_end (tables : InputTableRegistry) {text : ComposingText}
    (hvisible : ¬text.HidesInput) (hend : text.cursor = text.surface.length) :
    (text.forceInputCursor tables text.cursor).1.input.drop
      (text.forceInputCursor tables text.cursor).2 = [] := by
  unfold forceInputCursor
  by_cases hzero : text.cursor = 0
  · rw [if_pos hzero]
    have hsurface : text.surface = [] := List.eq_nil_of_length_eq_zero (hend ▸ hzero)
    by_contra hne
    exact hvisible ⟨hsurface, fun hinput => hne (by rw [hinput]; rfl)⟩
  · rw [if_neg hzero, if_pos hend.ge, List.drop_length]

theorem insert_coherent {text : ComposingText} (h : text.Coherent tables)
    {elements : List InputElement} (hq : ∀ element ∈ elements, element.Quiet tables)
    (hvisible : elements ≠ [] → ¬text.HidesInput) :
    (text.insert tables elements).Coherent tables := by
  by_cases hnil : elements = []
  · rw [insert, if_pos hnil]
    exact h
  · have hcut := forceInputCursor_cut h text.cursor
    have hdrop := forceInputCursor_drop_end tables (hvisible hnil)
    simp only [insert, if_neg hnil]
    generalize text.forceInputCursor tables text.cursor = forced at hcut hdrop ⊢
    obtain ⟨-, hpositionLe, -, hafter⟩ := dropSeparatorBefore_spec tables hcut.le
    have hmem : ∀ element ∈ (dropSeparatorBefore forced.1.input forced.2).1,
        element.Quiet tables := fun element hin =>
      hcut.coherent.quiet element (mem_of_mem_dropSeparatorBefore hin)
    generalize dropSeparatorBefore forced.1.input forced.2 = cut at hpositionLe hafter hmem ⊢
    generalize hadded : (if forced.1.isAtEnd then elements else elements ++ [.frozenSeparator]) =
      added
    have hadd : ∀ element ∈ added, element.Quiet tables := by
      rw [← hadded]
      split
      · exact hq
      · exact List.forall_mem_append.mpr ⟨hq, by simpa using quiet_frozenSeparator⟩
    have hquiet : ∀ element ∈ cut.1.take cut.2 ++ added ++ cut.1.drop cut.2,
        element.Quiet tables :=
      List.forall_mem_append.mpr ⟨List.forall_mem_append.mpr
        ⟨fun element hin => hmem element (List.mem_of_mem_take hin), hadd⟩,
        fun element hin => hmem element (List.mem_of_mem_drop hin)⟩
    have hprefixLen : (cut.1.take cut.2).length = cut.2 := by
      rw [List.length_take, Nat.min_eq_left hpositionLe]
    have htake : (cut.1.take cut.2 ++ added ++ cut.1.drop cut.2).take (cut.2 + added.length) =
        cut.1.take cut.2 ++ added := by
      rw [List.take_left' (by rw [List.length_append, hprefixLen])]
    have hsurface : convertElements tables (cut.1.take cut.2 ++ added ++ cut.1.drop cut.2) =
        convertElements tables (cut.1.take cut.2 ++ added) ++ text.surface.drop text.cursor := by
      rw [hafter]
      by_cases hend : forced.1.isAtEnd = true
      · have hcursor : text.cursor = text.surface.length := by
          simpa [isAtEnd, hcut.cursor, hcut.surface] using hend
        rw [hdrop hcursor, hcursor, List.drop_length, List.append_nil, List.append_nil]
      · rw [if_neg hend] at hadded
        rw [← hadded, ← List.append_assoc,
          (ends_frozen _ InputElement.frozenSeparator rfl).convert_append _
            fun element hin => hcut.coherent.quiet element (List.mem_of_mem_drop hin), hcut.after]
    rw [htake]
    refine ⟨?_, hquiet⟩
    show _ ++ _ = _
    rw [hsurface, hcut.surface, hcut.cursor]

theorem insert_wellFormed {text : ComposingText} (h : text.WellFormed tables)
    {elements : List InputElement} (hq : ∀ element ∈ elements, element.Quiet tables)
    (hvisible : elements ≠ [] → ¬text.HidesInput) :
    (text.insert tables elements).WellFormed tables := by
  refine ⟨insert_coherent h.coherent hq hvisible, ?_⟩
  by_cases hnil : elements = []
  · rw [insert, if_pos hnil]
    exact h.cursor_le
  · have hcut := forceInputCursor_cut h.coherent text.cursor
    simp only [insert, if_neg hnil]
    generalize text.forceInputCursor tables text.cursor = forced at hcut ⊢
    generalize convertElements tables _ = newPrefix
    have hcommon := commonPrefixLen_le (forced.1.surface.take forced.1.cursor) newPrefix
    have hcursor := h.cursor_le
    simp only [List.length_append, List.length_drop, List.length_take, hcut.surface,
      hcut.cursor] at hcommon ⊢
    omega

/-- A deletion converts the whole input that is left. -/
theorem deleteBackward_coherent {text : ComposingText} (h : text.Coherent tables) (count : Nat) :
    (text.deleteBackward tables count).Coherent tables := by
  unfold deleteBackward
  by_cases hzero : min count text.cursor = 0
  · simp only [hzero, if_true]
    exact h
  · simp only [if_neg hzero]
    have hcut := forceInputCursor_cut h (text.cursor - min count text.cursor)
    generalize text.forceInputCursor tables (text.cursor - min count text.cursor) =
      targeted at hcut ⊢
    have hcut' := forceInputCursor_cut hcut.coherent text.cursor
    generalize targeted.1.forceInputCursor tables text.cursor = forced at hcut' ⊢
    have hmem : ∀ element ∈ (dropSeparatorBefore forced.1.input targeted.2).1,
        element.Quiet tables := fun element hin =>
      hcut'.coherent.quiet element (mem_of_mem_dropSeparatorBefore hin)
    generalize dropSeparatorBefore forced.1.input targeted.2 = cut at hmem ⊢
    have hmemTake : ∀ element ∈ cut.1.take cut.2, element.Quiet tables :=
      fun element hin => hmem element (List.mem_of_mem_take hin)
    have hmemDrop : ∀ position, ∀ element ∈ cut.1.drop position, element.Quiet tables :=
      fun _ element hin => hmem element (List.mem_of_mem_drop hin)
    refine ⟨rfl, ?_⟩
    simp only
    split
    · exact List.forall_mem_append.mpr ⟨hmemTake, hmemDrop _⟩
    · exact List.forall_mem_append.mpr ⟨List.forall_mem_append.mpr
        ⟨hmemTake, by simpa using quiet_frozenSeparator⟩, hmemDrop _⟩

theorem deleteBackward_wellFormed {text : ComposingText} (h : text.WellFormed tables)
    (count : Nat) :
    (text.deleteBackward tables count).WellFormed tables := by
  refine ⟨deleteBackward_coherent h.coherent count, ?_⟩
  unfold deleteBackward
  by_cases hzero : min count text.cursor = 0
  · simp only [hzero, if_true]
    exact h.cursor_le
  · simp only [if_neg hzero]
    have hcursor := h.cursor_le
    generalize hcount : min count text.cursor = deleted at hzero ⊢
    have hdeleted : deleted ≤ text.cursor := hcount ▸ min_le_right _ _
    have hlt : text.cursor - deleted < text.surface.length := by omega
    have hcut := forceInputCursor_cut h.coherent (text.cursor - deleted)
    have hboundary := forceInputCursor_boundary h.coherent hlt
    generalize text.forceInputCursor tables (text.cursor - deleted) = targeted at hcut hboundary ⊢
    have hcut' := forceInputCursor_cut hcut.coherent text.cursor
    obtain ⟨hkeeps, hle⟩ := forceInputCursor_keeps hcut.coherent hboundary
      (by omega : text.cursor - deleted < text.cursor)
    generalize targeted.1.forceInputCursor tables text.cursor = forced at hcut' hkeeps hle ⊢
    obtain ⟨hpos, hposLe, hbefore, -⟩ := dropSeparatorBefore_spec tables
      (hle.trans hcut'.le)
    rw [hkeeps, hcut.before] at hbefore
    have hmem : ∀ element ∈ (dropSeparatorBefore forced.1.input targeted.2).1,
        element.Quiet tables := fun element hin =>
      hcut'.coherent.quiet element (mem_of_mem_dropSeparatorBefore hin)
    generalize dropSeparatorBefore forced.1.input targeted.2 = cut at hpos hposLe hbefore hmem ⊢
    have hmemDrop : ∀ position, ∀ element ∈ cut.1.drop position, element.Quiet tables :=
      fun _ element hin => hmem element (List.mem_of_mem_drop hin)
    -- what stands before the cut shows everything before the new cursor
    have hshown : (convertElements tables (cut.1.take cut.2)).length = text.cursor - deleted := by
      rw [hbefore, List.length_take, Nat.min_eq_left hlt.le]
    by_cases hfirst : cut.2 = 0
    · rw [hfirst] at hshown
      have hnone : text.cursor - deleted = 0 := hshown.symm
      omega
    · by_cases hlast : forced.2 - (targeted.2 - cut.2) = cut.1.length
      · simp only [hfirst, hlast, or_true, if_true, List.drop_length, List.append_nil]
        exact hshown.ge
      · simp only [hfirst, hlast, or_false, if_false]
        rw [(ends_frozen _ InputElement.frozenSeparator rfl).convert_append _ (hmemDrop _),
          convert_frozenSeparator, List.length_append]
        omega

theorem deleteForward_wellFormed {text : ComposingText} (h : text.WellFormed tables)
    (count : Nat) :
    (text.deleteForward tables count).WellFormed tables := by
  unfold deleteForward
  by_cases hzero : min count (text.surface.length - text.cursor) = 0
  · simp only [hzero, if_true]
    exact h
  · simp only [if_neg hzero]
    have hcursor := h.cursor_le
    generalize hcount : min count (text.surface.length - text.cursor) = moved
    have hmoved : WellFormed tables { text with cursor := text.cursor + moved } :=
      ⟨⟨h.coherent.surface, h.coherent.quiet⟩, by simp only; omega⟩
    exact deleteBackward_wellFormed hmoved moved

theorem moveCursor_wellFormed {text : ComposingText} (h : text.WellFormed tables) (count : Int) :
    (text.moveCursor count).1.WellFormed tables := by
  refine ⟨⟨h.coherent.surface, h.coherent.quiet⟩, ?_⟩
  have := h.cursor_le
  simp only [moveCursor]
  omega

theorem completePrefix_surface_wellFormed {text : ComposingText} (h : text.WellFormed tables)
    (count : Nat) :
    (text.completePrefix tables (.surface count)).WellFormed tables := by
  have hcut := forceInputCursor_cut h.coherent (min count text.surface.length)
  have hcursor := h.cursor_le
  simp only [completePrefix]
  generalize text.forceInputCursor tables (min count text.surface.length) = forced at hcut ⊢
  refine ⟨⟨?_, fun element hin => hcut.coherent.quiet element (List.mem_of_mem_drop hin)⟩, ?_⟩
  · show forced.1.surface.drop _ = _
    rw [hcut.after, hcut.surface]
  · simp only [List.length_drop, hcut.surface, hcut.cursor]
    by_cases hzero : text.cursor - min count text.surface.length = 0
    · rw [if_pos hzero]
    · rw [if_neg hzero]
      omega

theorem prefixToCursor_wellFormed {text : ComposingText} (h : text.WellFormed tables)
    : (text.prefixToCursor tables).WellFormed tables := by
  have hcut := forceInputCursor_cut h.coherent text.cursor
  simp only [prefixToCursor]
  generalize text.forceInputCursor tables text.cursor = forced at hcut ⊢
  refine ⟨⟨?_, fun element hin => hcut.coherent.quiet element (List.mem_of_mem_take hin)⟩, ?_⟩
  · show forced.1.surface.take _ = _
    rw [hcut.before, hcut.surface, hcut.cursor]
  · have := h.cursor_le
    simp only [List.length_take, hcut.surface, hcut.cursor]
    omega

end ComposingText

end BeanKey.Input
