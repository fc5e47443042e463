import BeanKey.Input.Composing

/-! Where a conversion can be cut in two: the segments of a whole input against
those of its end alone, and the boundaries the source keeps on its stack. -/
namespace BeanKey.Input
variable {tables : InputTableRegistry}

/-- A separator typed on an empty buffer shows nothing. -/
def InputTableRegistry.Silent (tables : InputTableRegistry) : Prop :=
  ∀ style table, tables.resolve style = some table →
    (table.apply [] .compositionSeparator).1 = []

/-! ### One segment -/

theorem updateSurface_deleted_le (surface : List Grapheme) (piece : InputPiece)
    (style : InputStyle) : (updateSurface tables surface piece style).2 ≤ surface.length := by
  unfold updateSurface
  cases tables.resolve style with
  | none => simp
  | some table => exact table.apply_deleted_le surface piece

theorem updateSurface_length (tables : InputTableRegistry) (surface : List Grapheme)
    (piece : InputPiece) (style : InputStyle) :
    surface.length - (updateSurface tables surface piece style).2 ≤
      (updateSurface tables surface piece style).1.length := by
  unfold updateSurface
  cases tables.resolve style with
  | none => simp
  | some table => exact table.apply_length surface piece

theorem updateSurface_append (tables : InputTableRegistry) (before surface : List Grapheme)
    (piece : InputPiece)
    (style : InputStyle)
    (h : (updateSurface tables (before ++ surface) piece style).2 ≤ surface.length) :
    updateSurface tables (before ++ surface) piece style =
      (before ++ (updateSurface tables surface piece style).1,
        (updateSurface tables surface piece style).2) := by
  unfold updateSurface at h ⊢
  cases hr : tables.resolve style with
  | none => simp
  | some table =>
    rw [hr] at h
    exact table.apply_append before surface piece h

@[simp] theorem updateSurface_frozen (surface : List Grapheme) (piece : InputPiece) :
    updateSurface tables surface piece .frozen = (surface ++ piece.displayed.toList, 0) := rfl

/-- A separator among the elements shows nothing where it is the first. -/
def InputElement.Quiet (tables : InputTableRegistry) (element : InputElement) : Prop :=
  element.piece = .compositionSeparator →
    (updateSurface tables [] .compositionSeparator element.inputStyle).1 = []

theorem InputTableRegistry.Silent.quiet (hs : tables.Silent) (element : InputElement) :
    element.Quiet tables := by
  intro _
  unfold updateSurface
  cases hr : tables.resolve element.inputStyle with
  | none => simp [InputPiece.displayed]
  | some table => exact hs element.inputStyle table hr

theorem quiet_of_piece_ne {element : InputElement} (h : element.piece ≠ .compositionSeparator) :
    element.Quiet tables := fun hsep => absurd hsep h

theorem quiet_of_frozen {element : InputElement} (h : element.inputStyle = .frozen) :
    element.Quiet tables := by
  intro _
  rw [h, updateSurface_frozen]
  rfl

/-! ### The segments under one element -/

theorem updateSegments_same (tables : InputTableRegistry) (last : SurfaceSegment)
    (rest : List SurfaceSegment)
    (element : InputElement) (h : last.inputStyle = element.inputStyle) :
    updateSegments tables (last :: rest) element =
      (⟨(updateSurface tables last.graphemes element.piece element.inputStyle).1,
          last.inputStyle⟩ :: rest,
        (updateSurface tables last.graphemes element.piece element.inputStyle).2) := by
  simp [updateSegments, h]

theorem updateSegments_other (tables : InputTableRegistry) (last : SurfaceSegment)
    (rest : List SurfaceSegment)
    (element : InputElement) (h : last.inputStyle ≠ element.inputStyle) :
    updateSegments tables (last :: rest) element =
      (⟨(updateSurface tables [] element.piece element.inputStyle).1, element.inputStyle⟩ ::
        last :: rest, 0) := by
  simp [updateSegments, h]

theorem updateSegments_separator (element : InputElement)
    (h : element.piece = .compositionSeparator) :
    updateSegments tables [] element = ([], 0) := by
  simp [updateSegments, h]

theorem updateSegments_first (element : InputElement)
    (h : element.piece ≠ .compositionSeparator) :
    updateSegments tables [] element =
      ([⟨(updateSurface tables [] element.piece element.inputStyle).1, element.inputStyle⟩],
        0) := by
  simp [updateSegments, h]

theorem updateSegments_deleted_le (tables : InputTableRegistry) (segments : List SurfaceSegment)
    (element : InputElement) :
    (updateSegments tables segments element).2 ≤ tailLen segments := by
  cases segments with
  | nil => by_cases h : element.piece = .compositionSeparator <;> simp [updateSegments, h]
  | cons last rest =>
    by_cases h : last.inputStyle = element.inputStyle
    · rw [updateSegments_same tables last rest element h]
      exact updateSurface_deleted_le _ _ _
    · simp [updateSegments_other tables last rest element h]

@[simp] theorem segmentsSurface_nil : segmentsSurface [] = [] := rfl

@[simp] theorem segmentsSurface_cons (last : SurfaceSegment) (rest : List SurfaceSegment) :
    segmentsSurface (last :: rest) = segmentsSurface rest ++ last.graphemes := by
  simp [segmentsSurface]

theorem tailLen_le (segments : List SurfaceSegment) :
    tailLen segments ≤ (segmentsSurface segments).length := by
  cases segments with
  | nil => simp [tailLen]
  | cons last rest => simp [tailLen]

@[simp] theorem segmentsOf_nil : segmentsOf tables [] = [] := rfl

theorem segmentsOf_concat (elements : List InputElement) (element : InputElement) :
    segmentsOf tables (elements ++ [element]) =
      (updateSegments tables (segmentsOf tables elements) element).1 := by
  simp [segmentsOf]

@[simp] theorem convertElements_nil : convertElements tables [] = [] := rfl

/-! ### A suffix on its own -/

/-- `whole` shows `before` and then what `suffix` shows, and the last segment of
`suffix` is the end of the last segment of `whole`. -/
def Aligned (before : List Grapheme) (whole : List SurfaceSegment) :
    List SurfaceSegment → Prop
  | [] => segmentsSurface whole = before
  | last :: rest => ∃ earlier closed,
      whole = ⟨earlier ++ last.graphemes, last.inputStyle⟩ :: closed ∧
      segmentsSurface closed ++ earlier = before ++ segmentsSurface rest ∧
      (rest = [] ∨ earlier = [])

theorem Aligned.refl (segments : List SurfaceSegment) : Aligned [] segments segments := by
  cases segments with
  | nil => rfl
  | cons last rest => exact ⟨[], rest, rfl, by simp, .inr rfl⟩

theorem Aligned.start (segments : List SurfaceSegment) :
    Aligned (segmentsSurface segments) segments [] := rfl

theorem Aligned.surface {before : List Grapheme} {whole suffix : List SurfaceSegment}
    (h : Aligned before whole suffix) :
    segmentsSurface whole = before ++ segmentsSurface suffix := by
  cases suffix with
  | nil => rw [segmentsSurface_nil, List.append_nil]; exact h
  | cons last rest =>
    obtain ⟨earlier, closed, rfl, hclosed, -⟩ := h
    rw [segmentsSurface_cons, segmentsSurface_cons, ← List.append_assoc, hclosed,
      List.append_assoc]

/-- What an element consumes within the surface of the suffix it consumes within the
suffix's last segment. -/
theorem Aligned.deleted_le {before : List Grapheme} {whole suffix : List SurfaceSegment}
    (h : Aligned before whole suffix) (element : InputElement)
    (hd : (updateSegments tables whole element).2 ≤ (segmentsSurface suffix).length) :
    (updateSegments tables whole element).2 ≤ tailLen suffix := by
  cases suffix with
  | nil => simpa [tailLen] using hd
  | cons last rest =>
    obtain ⟨earlier, closed, rfl, -, hrest⟩ := h
    cases hrest with
    | inl hnil => simpa [hnil, tailLen] using hd
    | inr hnil => simpa [hnil, tailLen] using updateSegments_deleted_le tables _ element

theorem aligned_fresh {element : InputElement} (hq : element.Quiet tables)
    (earlier : List Grapheme) (closed : List SurfaceSegment) :
    Aligned (segmentsSurface closed ++ earlier)
      (⟨earlier ++ (updateSurface tables [] element.piece element.inputStyle).1,
        element.inputStyle⟩ :: closed) (updateSegments tables [] element).1 := by
  by_cases hsep : element.piece = .compositionSeparator
  · rw [updateSegments_separator element hsep, hsep, hq hsep]
    simp [Aligned]
  · rw [updateSegments_first element hsep]
    exact ⟨earlier, closed, rfl, by simp, .inl rfl⟩

theorem tailLen_fresh {element : InputElement} (hq : element.Quiet tables) :
    tailLen (updateSegments tables [] element).1 =
      (updateSurface tables [] element.piece element.inputStyle).1.length := by
  by_cases hsep : element.piece = .compositionSeparator
  · rw [updateSegments_separator element hsep, hsep, hq hsep]
    rfl
  · rw [updateSegments_first element hsep]
    rfl

/-- A step that does not reach across the cut keeps the two conversions aligned. -/
theorem Aligned.step {before : List Grapheme} {whole suffix : List SurfaceSegment}
    (h : Aligned before whole suffix) {element : InputElement} (hq : element.Quiet tables)
    (hd : (updateSegments tables whole element).2 ≤ tailLen suffix) :
    Aligned before (updateSegments tables whole element).1
      (updateSegments tables suffix element).1 := by
  have hsurface := h.surface
  cases suffix with
  | cons last rest =>
    obtain ⟨earlier, closed, rfl, hclosed, hrest⟩ := h
    by_cases hstyle : last.inputStyle = element.inputStyle
    · have hsame := updateSegments_same tables
        ⟨earlier ++ last.graphemes, last.inputStyle⟩ closed element hstyle
      rw [hsame] at hd ⊢
      rw [updateSegments_same tables last rest element hstyle,
        updateSurface_append tables earlier last.graphemes element.piece element.inputStyle hd]
      exact ⟨earlier, closed, rfl, hclosed, hrest⟩
    · have hother := updateSegments_other tables
        ⟨earlier ++ last.graphemes, last.inputStyle⟩ closed element hstyle
      rw [hother, updateSegments_other tables last rest element hstyle]
      exact ⟨[], _, rfl, by simpa using hsurface, .inr rfl⟩
  | nil =>
    have hbefore : segmentsSurface whole = before := by simpa using hsurface
    cases whole with
    | nil =>
      obtain rfl : before = [] := by simpa using hbefore.symm
      exact Aligned.refl _
    | cons last rest =>
      by_cases hstyle : last.inputStyle = element.inputStyle
      · have hsame := updateSegments_same tables last rest element hstyle
        rw [hsame] at hd ⊢
        have happ := updateSurface_append tables last.graphemes [] element.piece
          element.inputStyle (by simpa [tailLen] using hd)
        rw [List.append_nil] at happ
        rw [happ, hstyle, ← hbefore, segmentsSurface_cons]
        exact aligned_fresh hq last.graphemes rest
      · rw [updateSegments_other tables last rest element hstyle]
        have hfresh := aligned_fresh hq [] (last :: rest)
        rwa [List.append_nil, hbefore] at hfresh

/-! ### A sealed cut -/

/-- Aligned, and no later element can reach across the cut. -/
def Sealed (before : List Grapheme) (whole suffix : List SurfaceSegment) : Prop :=
  Aligned before whole suffix ∧
    (tailLen whole ≤ tailLen suffix ∨
      ∃ last rest, whole = last :: rest ∧ last.inputStyle = .frozen)

theorem Sealed.deleted_le (tables : InputTableRegistry) {before : List Grapheme}
    {whole suffix : List SurfaceSegment}
    (h : Sealed before whole suffix) (element : InputElement) :
    (updateSegments tables whole element).2 ≤ tailLen suffix := by
  obtain ⟨-, hshort | ⟨last, rest, rfl, hfrozen⟩⟩ := h
  · exact (updateSegments_deleted_le tables whole element).trans hshort
  · by_cases hstyle : last.inputStyle = element.inputStyle
    · rw [updateSegments_same tables last rest element hstyle, ← hstyle, hfrozen]
      exact Nat.zero_le _
    · rw [updateSegments_other tables last rest element hstyle]
      exact Nat.zero_le _

/-- The last segments stay as long as each other, since the shorter one hides nothing. -/
theorem tailLen_step {before : List Grapheme} {whole suffix : List SurfaceSegment}
    (h : Aligned before whole suffix) (hshort : tailLen whole ≤ tailLen suffix)
    {element : InputElement} (hq : element.Quiet tables) :
    tailLen (updateSegments tables whole element).1 ≤
      tailLen (updateSegments tables suffix element).1 := by
  cases suffix with
  | nil =>
    cases whole with
    | nil => exact le_rfl
    | cons last rest =>
      have hlast : last.graphemes = [] := by simpa [tailLen] using hshort
      rw [tailLen_fresh hq]
      by_cases hstyle : last.inputStyle = element.inputStyle
      · simp [updateSegments_same tables last rest element hstyle, hlast, tailLen]
      · simp [updateSegments_other tables last rest element hstyle, tailLen]
  | cons slast srest =>
    obtain ⟨earlier, closed, rfl, -, -⟩ := h
    have hearlier : earlier = [] := by
      apply List.eq_nil_of_length_eq_zero
      simp only [tailLen, List.length_append] at hshort
      omega
    subst hearlier
    by_cases hstyle : slast.inputStyle = element.inputStyle
    · rw [List.nil_append, updateSegments_same tables slast closed element hstyle,
        updateSegments_same tables slast srest element hstyle]
      simp [tailLen]
    · rw [List.nil_append, updateSegments_other tables slast closed element hstyle,
        updateSegments_other tables slast srest element hstyle]
      simp [tailLen]

theorem Sealed.step {before : List Grapheme} {whole suffix : List SurfaceSegment}
    (h : Sealed before whole suffix) {element : InputElement} (hq : element.Quiet tables) :
    Sealed before (updateSegments tables whole element).1
      (updateSegments tables suffix element).1 := by
  refine ⟨h.1.step hq (h.deleted_le tables element), ?_⟩
  obtain ⟨haligned, hshort | ⟨last, rest, rfl, hfrozen⟩⟩ := h
  · exact .inl (tailLen_step haligned hshort hq)
  · by_cases hstyle : last.inputStyle = element.inputStyle
    · rw [updateSegments_same tables last rest element hstyle]
      exact .inr ⟨_, _, rfl, hfrozen⟩
    · left
      rw [updateSegments_other tables last rest element hstyle]
      cases suffix with
      | nil => rw [tailLen_fresh hq]; rfl
      | cons slast srest =>
        obtain ⟨earlier, closed, heq, -, -⟩ := haligned
        obtain ⟨rfl, rfl⟩ := List.cons.inj heq
        rw [updateSegments_other tables slast srest element hstyle]
        rfl

/-- A sealed cut stays one whatever is typed after it. -/
theorem Sealed.run {before : List Grapheme} {whole suffix : List SurfaceSegment}
    (h : Sealed before whole suffix) (elements : List InputElement)
    (hq : ∀ element ∈ elements, element.Quiet tables) :
    Sealed before
      (elements.foldl (fun segments element => (updateSegments tables segments element).1) whole)
      (elements.foldl (fun segments element => (updateSegments tables segments element).1)
        suffix) := by
  induction elements generalizing whole suffix with
  | nil => exact h
  | cons element elements ih =>
    obtain ⟨hfirst, hrest⟩ := List.forall_mem_cons.mp hq
    exact ih (h.step hfirst) hrest

/-- The end of `elements` can be cut off without changing what either side shows. -/
def Ends (tables : InputTableRegistry) (elements : List InputElement) : Prop :=
  Sealed (convertElements tables elements) (segmentsOf tables elements) []

theorem Ends.convert_append {elements : List InputElement} (h : Ends tables elements)
    (more : List InputElement) (hq : ∀ element ∈ more, element.Quiet tables) :
    convertElements tables (elements ++ more) =
      convertElements tables elements ++ convertElements tables more := by
  have hrun := (h.run more hq).1.surface
  simpa [convertElements, segmentsOf, List.foldl_append] using hrun

/-- A frozen element seals everything before it. -/
theorem ends_frozen (elements : List InputElement) (element : InputElement)
    (h : element.inputStyle = .frozen) : Ends tables (elements ++ [element]) := by
  refine ⟨Aligned.start _, ?_⟩
  rw [segmentsOf_concat]
  cases hsegments : segmentsOf tables elements with
  | nil =>
    by_cases hsep : element.piece = .compositionSeparator
    · rw [updateSegments_separator element hsep]
      exact .inl le_rfl
    · rw [updateSegments_first element hsep]
      exact .inr ⟨_, _, rfl, h⟩
  | cons last rest =>
    by_cases hstyle : last.inputStyle = element.inputStyle
    · rw [updateSegments_same tables last rest element hstyle]
      exact .inr ⟨_, _, rfl, hstyle.trans h⟩
    · rw [updateSegments_other tables last rest element hstyle]
      exact .inr ⟨_, _, rfl, h⟩

theorem convert_frozen (elements : List InputElement) (element : InputElement)
    (h : element.inputStyle = .frozen) :
    convertElements tables (elements ++ [element]) =
      convertElements tables elements ++ element.piece.displayed.toList := by
  rw [convertElements, convertElements, segmentsOf_concat]
  cases hsegments : segmentsOf tables elements with
  | nil =>
    by_cases hsep : element.piece = .compositionSeparator
    · simp [updateSegments_separator element hsep, hsep, InputPiece.displayed]
    · simp [updateSegments_first element hsep, h]
  | cons last rest =>
    by_cases hstyle : last.inputStyle = element.inputStyle
    · simp [updateSegments_same tables last rest element hstyle, h]
    · simp [updateSegments_other tables last rest element hstyle, h]

theorem convert_directCharacters (tables : InputTableRegistry) (elements : List InputElement)
    (surface : List Grapheme) :
    convertElements tables (elements ++ surface.map fun value => .character value .direct) =
      convertElements tables elements ++ surface := by
  induction surface using List.reverseRecOn with
  | nil => simp
  | append_singleton surface value ih =>
    rw [List.map_append, List.map_singleton, ← List.append_assoc, ← List.append_assoc, ← ih]
    generalize elements ++ surface.map (fun value => InputElement.character value .direct) = typed
    rw [convertElements, convertElements, segmentsOf_concat]
    cases segmentsOf tables typed with
    | nil => simp [updateSegments, updateSurface, InputTableRegistry.resolve,
        InputElement.character, InputPiece.displayed, segmentsSurface]
    | cons last rest =>
      by_cases hstyle : last.inputStyle = .direct
      · simp [updateSegments, hstyle, updateSurface, InputTableRegistry.resolve,
          InputElement.character, InputPiece.displayed, segmentsSurface]
      · simp [updateSegments, hstyle, updateSurface, InputTableRegistry.resolve,
          InputElement.character, InputPiece.displayed, segmentsSurface]

theorem convert_frozenSeparator (elements : List InputElement) :
    convertElements tables (elements ++ [.frozenSeparator]) = convertElements tables elements := by
  rw [convert_frozen elements .frozenSeparator rfl]
  exact List.append_nil _

theorem convert_frozenCharacters (tables : InputTableRegistry) (elements : List InputElement)
    (surface : List Grapheme) :
    convertElements tables (elements ++ frozenCharacters surface) =
      convertElements tables elements ++ surface := by
  induction surface generalizing elements with
  | nil => simp [frozenCharacters]
  | cons value surface ih =>
    have hcons : elements ++ frozenCharacters (value :: surface) =
        elements ++ [.character value .frozen] ++ frozenCharacters surface := by
      simp [frozenCharacters]
    rw [hcons, ih, convert_frozen elements (.character value .frozen) rfl]
    simp [InputElement.character, InputPiece.displayed]

theorem ends_frozenCharacters (tables : InputTableRegistry) (elements : List InputElement)
    {surface : List Grapheme}
    (h : surface ≠ []) : Ends tables (elements ++ frozenCharacters surface) := by
  have hlast : frozenCharacters surface =
      frozenCharacters surface.dropLast ++ [.character (surface.getLast h) .frozen] := by
    conv_lhs => rw [← List.dropLast_append_getLast h]
    simp [frozenCharacters]
  rw [hlast, ← List.append_assoc]
  exact ends_frozen _ _ rfl

end BeanKey.Input
