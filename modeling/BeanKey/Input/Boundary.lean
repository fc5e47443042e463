import BeanKey.Input.Conversion

/-! The boundaries of `independent_boundaries` are cuts of the conversion, and
forcing the cursor onto a surface position cuts the input there. -/
namespace BeanKey.Input
variable {tables : InputTableRegistry}

/-! ### The scan -/

def scanOf (tables : InputTableRegistry) (input : List InputElement) : BoundaryScan :=
  input.zipIdx.foldl (BoundaryScan.step tables) {}

theorem scanOf_concat (input : List InputElement) (element : InputElement) :
    scanOf tables (input ++ [element]) = (scanOf tables input).step tables
      (element, input.length) := by
  simp [scanOf, List.zipIdx_append]

theorem step_boundaries (scan : BoundaryScan) (element : InputElement) (index : Nat) :
    (scan.step tables (element, index)).boundaries =
      ⟨index + 1, (scan.step tables (element, index)).convertedLen⟩ ::
        scan.boundaries.dropWhile fun pair => !(pair.surface ≤
          scan.convertedLen - (updateSegments tables scan.converting element).2) := rfl

theorem updateSegments_surface_length (segments : List SurfaceSegment) (element : InputElement) :
    (segmentsSurface (updateSegments tables segments element).1).length =
      if (updateSegments tables segments element).1.length = segments.length then
        (segmentsSurface segments).length - tailLen segments +
          tailLen (updateSegments tables segments element).1
      else (segmentsSurface segments).length +
        tailLen (updateSegments tables segments element).1 := by
  cases segments with
  | nil =>
    by_cases hsep : element.piece = .compositionSeparator
    · simp [updateSegments_separator element hsep, tailLen]
    · simp [updateSegments_first element hsep, tailLen]
  | cons last rest =>
    by_cases hstyle : last.inputStyle = element.inputStyle
    · simp [updateSegments_same tables last rest element hstyle, tailLen]
    · simp [updateSegments_other tables last rest element hstyle, tailLen, Nat.add_assoc]

/-- An element takes away no more of the surface than it consumes. -/
theorem updateSegments_keeps (tables : InputTableRegistry) (segments : List SurfaceSegment)
    (element : InputElement) :
    (segmentsSurface segments).length - (updateSegments tables segments element).2 ≤
      (segmentsSurface (updateSegments tables segments element).1).length := by
  cases segments with
  | nil => simp
  | cons last rest =>
    by_cases hstyle : last.inputStyle = element.inputStyle
    · have hlen := updateSurface_length tables last.graphemes element.piece
        element.inputStyle
      simp only [updateSegments_same tables last rest element hstyle, segmentsSurface_cons,
        List.length_append]
      omega
    · simp only [updateSegments_other tables last rest element hstyle, segmentsSurface_cons,
        List.length_append]
      omega

/-- The input can be cut at `pair.input`, and what stands before shows `pair.surface`
graphemes. -/
structure IsBoundary (tables : InputTableRegistry) (input : List InputElement)
    (pair : IndexPair) : Prop where
  le : pair.input ≤ input.length
  surface : (convertElements tables (input.take pair.input)).length = pair.surface
  aligned : Aligned (convertElements tables (input.take pair.input)) (segmentsOf tables input)
    (segmentsOf tables (input.drop pair.input))

theorem IsBoundary.convert {input : List InputElement} {pair : IndexPair}
    (h : IsBoundary tables input pair) :
    convertElements tables input = convertElements tables (input.take pair.input) ++
      convertElements tables (input.drop pair.input) :=
  h.aligned.surface

theorem isBoundary_end (tables : InputTableRegistry) (input : List InputElement) :
    IsBoundary tables input ⟨input.length, (convertElements tables input).length⟩ where
  le := le_rfl
  surface := by rw [List.take_length]
  aligned := by
    rw [List.take_length, List.drop_length]
    exact Aligned.start _

theorem isBoundary_zero (input : List InputElement) : IsBoundary tables input ⟨0, 0⟩ where
  le := Nat.zero_le _
  surface := rfl
  aligned := Aligned.refl _

theorem IsBoundary.concat {input : List InputElement} {pair : IndexPair}
    (h : IsBoundary tables input pair) {element : InputElement} (hq : element.Quiet tables)
    (hd : pair.surface ≤ (convertElements tables input).length -
      (updateSegments tables (segmentsOf tables input) element).2) :
    IsBoundary tables (input ++ [element]) pair where
  le := by
    have := h.le
    rw [List.length_append]
    omega
  surface := by rw [List.take_append_of_le_length h.le, h.surface]
  aligned := by
    rw [List.take_append_of_le_length h.le, List.drop_append_of_le_length h.le,
      segmentsOf_concat, segmentsOf_concat]
    refine h.aligned.step hq (h.aligned.deleted_le element ?_)
    have hsplit := congrArg List.length h.convert
    rw [List.length_append, h.surface] at hsplit
    have hle := (updateSegments_deleted_le tables
      (segmentsOf tables input) element).trans (tailLen_le _)
    have hsum : (segmentsSurface (segmentsOf tables input)).length = pair.surface +
        (segmentsSurface (segmentsOf tables (input.drop pair.input))).length := hsplit
    have hconv : convertElements tables input = segmentsSurface (segmentsOf tables input) := rfl
    rw [hconv] at hd
    omega

structure ScanInvariant (tables : InputTableRegistry) (input : List InputElement)
    (scan : BoundaryScan) : Prop where
  converting : scan.converting = segmentsOf tables input
  convertedLen : scan.convertedLen = (convertElements tables input).length
  top : scan.boundaries.head? = some ⟨input.length, (convertElements tables input).length⟩
  bottom : ⟨0, 0⟩ ∈ scan.boundaries
  within : ∀ pair ∈ scan.boundaries, pair.input ≤ input.length
  sorted : scan.boundaries.Pairwise fun later earlier =>
    earlier.input < later.input ∧ earlier.surface ≤ later.surface

/-- On a stack of falling surfaces, popping stops where every surface is low enough. -/
theorem le_of_mem_dropWhile {boundaries : List IndexPair} (bound : Nat)
    (hsorted : boundaries.Pairwise fun later earlier =>
      earlier.input < later.input ∧ earlier.surface ≤ later.surface)
    {pair : IndexPair} (hmem : pair ∈ boundaries.dropWhile fun pair => !(pair.surface ≤ bound)) :
    pair.surface ≤ bound := by
  induction boundaries with
  | nil => simp at hmem
  | cons first rest ih =>
    obtain ⟨hfirst, hrest⟩ := List.pairwise_cons.mp hsorted
    by_cases h : first.surface ≤ bound
    · rw [List.dropWhile_cons_of_neg (by simpa using h)] at hmem
      obtain rfl | hin := List.mem_cons.mp hmem
      · exact h
      · exact (hfirst pair hin).2.trans h
    · rw [List.dropWhile_cons_of_pos (by simpa using h)] at hmem
      exact ih hrest hmem

theorem mem_dropWhile_of_le {boundaries : List IndexPair} {bound : Nat} {pair : IndexPair}
    (hmem : pair ∈ boundaries) (h : pair.surface ≤ bound) :
    pair ∈ boundaries.dropWhile fun pair => !(pair.surface ≤ bound) := by
  induction boundaries with
  | nil => simp at hmem
  | cons first rest ih =>
    by_cases hfirst : first.surface ≤ bound
    · rwa [List.dropWhile_cons_of_neg (by simpa using hfirst)]
    · rw [List.dropWhile_cons_of_pos (by simpa using hfirst)]
      obtain rfl | hin := List.mem_cons.mp hmem
      · exact absurd h hfirst
      · exact ih hin

theorem ScanInvariant.step {input : List InputElement} {scan : BoundaryScan}
    (h : ScanInvariant tables input scan) (element : InputElement) :
    ScanInvariant tables (input ++ [element]) (scan.step tables (element, input.length)) := by
  have hlen : (scan.step tables (element, input.length)).convertedLen =
      (convertElements tables (input ++ [element])).length := by
    rw [convertElements, segmentsOf_concat, updateSegments_surface_length]
    simp only [BoundaryScan.step, h.converting, h.convertedLen, convertElements]
  have hconverting : (scan.step tables (element, input.length)).converting =
      segmentsOf tables (input ++ [element]) := by
    rw [segmentsOf_concat, ← h.converting]
    rfl
  have hboundaries : (scan.step tables (element, input.length)).boundaries =
      ⟨input.length + 1, (convertElements tables (input ++ [element])).length⟩ ::
        scan.boundaries.dropWhile fun pair => !(pair.surface ≤
          (convertElements tables input).length -
            (updateSegments tables (segmentsOf tables input) element).2) := by
    rw [step_boundaries, hlen, h.converting, h.convertedLen]
  have hsub := List.dropWhile_sublist (l := scan.boundaries) fun pair => !(pair.surface ≤
    (convertElements tables input).length -
      (updateSegments tables (segmentsOf tables input) element).2)
  refine ⟨hconverting, hlen, ?_, ?_, ?_, ?_⟩
  · rw [hboundaries, List.length_append]
    rfl
  · rw [hboundaries]
    exact List.mem_cons_of_mem _ (mem_dropWhile_of_le h.bottom (Nat.zero_le _))
  · rw [hboundaries]
    intro pair hpair
    obtain rfl | hin := List.mem_cons.mp hpair
    · rw [List.length_append]
      exact le_rfl
    · rw [List.length_append]
      exact (h.within pair (hsub.subset hin)).trans (Nat.le_add_right _ _)
  · rw [hboundaries]
    refine List.pairwise_cons.mpr ⟨?_, h.sorted.sublist hsub⟩
    intro pair hin
    have hle := h.within pair (hsub.subset hin)
    have hsurface := le_of_mem_dropWhile _ h.sorted hin
    have hkeeps := updateSegments_keeps tables (segmentsOf tables input) element
    have hnew : convertElements tables (input ++ [element]) =
        segmentsSurface (updateSegments tables (segmentsOf tables input) element).1 := by
      rw [convertElements, segmentsOf_concat]
    have hold : convertElements tables input = segmentsSurface (segmentsOf tables input) := rfl
    constructor
    · simp only
      omega
    · simp only [hnew]
      rw [hold] at hsurface
      omega

theorem scan_invariant (tables : InputTableRegistry) (input : List InputElement) :
    ScanInvariant tables input (scanOf tables input) := by
  induction input using List.reverseRecOn with
  | nil => exact ⟨rfl, rfl, rfl, by simp [scanOf], by simp [scanOf], by simp [scanOf]⟩
  | append_singleton input element ih =>
    rw [scanOf_concat]
    exact ih.step element

theorem length_take_of_boundary {input : List InputElement} {pair : IndexPair}
    (h : pair ∈ (scanOf tables input).boundaries) : (input.take pair.input).length =
    pair.input := by
  rw [List.length_take, Nat.min_eq_left ((scan_invariant tables input).within pair h)]

/-- The scan's next stack: the new end, over what the element did not reach into. -/
theorem scanOf_concat_boundaries (input : List InputElement) (element : InputElement) :
    (scanOf tables (input ++ [element])).boundaries =
      ⟨input.length + 1, (convertElements tables (input ++ [element])).length⟩ ::
        (scanOf tables input).boundaries.dropWhile fun pair => !(pair.surface ≤
          (convertElements tables input).length -
            (updateSegments tables (segmentsOf tables input) element).2) := by
  have hnew := (scan_invariant tables (input ++ [element])).convertedLen
  have hold := scan_invariant tables input
  rw [scanOf_concat] at hnew ⊢
  rw [step_boundaries, hnew, hold.convertedLen, hold.converting]

theorem isBoundary_of_mem (input : List InputElement)
    (hq : ∀ element ∈ input, element.Quiet tables) :
    ∀ pair ∈ independentBoundaries tables input, IsBoundary tables input pair := by
  induction input using List.reverseRecOn with
  | nil =>
    intro pair hpair
    obtain rfl : pair = ⟨0, 0⟩ := by simpa [independentBoundaries] using hpair
    exact isBoundary_zero []
  | append_singleton input element ih =>
    obtain ⟨hinput, helement⟩ := List.forall_mem_append.mp hq
    intro pair hpair
    have hpair : pair ∈ (scanOf tables (input ++ [element])).boundaries := hpair
    rw [scanOf_concat_boundaries] at hpair
    obtain rfl | hin := List.mem_cons.mp hpair
    · have := isBoundary_end tables (input ++ [element])
      rwa [List.length_append] at this
    · have hmem := (List.dropWhile_sublist _).subset hin
      exact (ih hinput pair hmem).concat (helement element (by simp))
        (le_of_mem_dropWhile _ (scan_invariant tables input).sorted hin)

/-- A sealed end is still on the stack whatever is typed after it. -/
theorem mem_independentBoundaries_of_ends {elements : List InputElement}
    (h : Ends tables elements) (more : List InputElement)
    (hq : ∀ element ∈ more, element.Quiet tables) :
    ⟨elements.length, (convertElements tables elements).length⟩ ∈
      independentBoundaries tables (elements ++ more) := by
  induction more using List.reverseRecOn with
  | nil =>
    have htop := (scan_invariant tables elements).top
    rw [List.append_nil]
    exact List.mem_of_mem_head? htop
  | append_singleton more element ih =>
    obtain ⟨hmore, -⟩ := List.forall_mem_append.mp hq
    have hsealed := h.run more hmore
    have hwhole : segmentsOf tables (elements ++ more) =
        more.foldl (fun segments element => (updateSegments tables segments element).1)
          (segmentsOf tables elements) := by
      simp [segmentsOf, List.foldl_append]
    rw [← hwhole] at hsealed
    have hdeleted := hsealed.deleted_le tables element
    have hsurface := congrArg List.length hsealed.1.surface
    rw [List.length_append] at hsurface
    have htail := tailLen_le (more.foldl
      (fun segments element => (updateSegments tables segments element).1) [])
    have hlen : (convertElements tables (elements ++ more)).length = _ := hsurface
    show _ ∈ (scanOf tables (elements ++ (more ++ [element]))).boundaries
    rw [← List.append_assoc, scanOf_concat_boundaries, hlen]
    refine List.mem_cons_of_mem _ (mem_dropWhile_of_le (ih hmore) ?_)
    simp only
    omega

/-! ### Searching the stack -/

/-- What `force_input_cursor` finds: a boundary on the target, or the two boundaries
around it. -/
def SearchFound (boundaries : List IndexPair) (target : Nat) : CursorSearch → Prop
  | .boundary input => ⟨input, target⟩ ∈ boundaries
  | .inside segmentStart segmentEnd =>
    segmentStart ∈ boundaries ∧ segmentEnd ∈ boundaries ∧
      segmentStart.surface < target ∧ target < segmentEnd.surface ∧
      ∀ pair ∈ boundaries, pair.surface < target → pair.input ≤ segmentStart.input

theorem searchCursor_found {boundaries : List IndexPair} {target : Nat}
    (hsorted : boundaries.Pairwise fun later earlier =>
      earlier.input < later.input ∧ earlier.surface ≤ later.surface)
    (stack passed : List IndexPair) (hstack : boundaries = passed ++ stack)
    (hpassed : ∀ pair ∈ passed, target < pair.surface) (hbottom : ⟨0, 0⟩ ∈ stack)
    (segmentEnd : IndexPair) (hend : segmentEnd ∈ boundaries) (hlt : target < segmentEnd.surface) :
    SearchFound boundaries target (searchCursor target stack segmentEnd) := by
  induction stack generalizing passed segmentEnd with
  | nil => simp at hbottom
  | cons start rest ih =>
    have hstart : start ∈ boundaries := by simp [hstack]
    have hrec : target < start.surface → ∀ segmentEnd ∈ boundaries, target < segmentEnd.surface →
        SearchFound boundaries target (searchCursor target rest segmentEnd) := by
      intro hover segmentEnd' hend' hlt'
      have hrest : ⟨0, 0⟩ ∈ rest := by
        obtain rfl | hin := List.mem_cons.mp hbottom
        · exact absurd hover (Nat.not_lt_zero _)
        · exact hin
      refine ih (passed ++ [start]) (by simp [hstack]) ?_ hrest segmentEnd' hend' hlt'
      intro pair hpair
      obtain hin | hone := List.mem_append.mp hpair
      · exact hpassed pair hin
      · rwa [List.mem_singleton.mp hone]
    by_cases heq : start.surface = target
    · rw [searchCursor, if_pos heq, SearchFound, ← heq]
      exact hstart
    · by_cases hunder : start.surface < target
      · rw [searchCursor, if_neg heq, if_pos hunder]
        refine ⟨hstart, hend, hunder, hlt, ?_⟩
        intro pair hpair hsurface
        rw [hstack] at hpair hsorted
        obtain hin | hin := List.mem_append.mp hpair
        · exact absurd (hpassed pair hin) (by omega)
        · obtain rfl | hlater := List.mem_cons.mp hin
          · exact le_rfl
          · have := (List.pairwise_cons.mp (List.pairwise_append.mp hsorted).2.1).1 pair hlater
            exact this.1.le
      · have hover : target < start.surface := by omega
        rw [searchCursor, if_neg heq, if_neg hunder]
        by_cases hcloser : start.surface < segmentEnd.surface
        · rw [if_pos hcloser]
          exact hrec hover start hstart hover
        · rw [if_neg hcloser]
          exact hrec hover segmentEnd hend hlt

/-- The order of the stack, by surfaces. -/
theorem input_lt_of_surface_lt {boundaries : List IndexPair}
    (hsorted : boundaries.Pairwise fun later earlier =>
      earlier.input < later.input ∧ earlier.surface ≤ later.surface)
    {low high : IndexPair} (hlow : low ∈ boundaries) (hhigh : high ∈ boundaries)
    (h : low.surface < high.surface) : low.input < high.input := by
  induction boundaries with
  | nil => simp at hlow
  | cons first rest ih =>
    obtain ⟨hfirst, hrest⟩ := List.pairwise_cons.mp hsorted
    obtain hlow | hlow := List.mem_cons.mp hlow
    · obtain hhigh | hhigh := List.mem_cons.mp hhigh
      · exact absurd h (by simp [hlow, hhigh])
      · have := (hfirst high hhigh).2
        rw [← hlow] at this
        omega
    · obtain hhigh | hhigh := List.mem_cons.mp hhigh
      · rw [hhigh]
        exact (hfirst low hlow).1
      · exact ih hrest hlow hhigh

/-! ### Forcing the cursor -/

/-- The surface is what the whole input converts to, and no separator of the input
shows anything. -/
structure ComposingText.Coherent (tables : InputTableRegistry) (text : ComposingText) : Prop where
  surface : text.surface = convertElements tables text.input
  quiet : ∀ element ∈ text.input, element.Quiet tables

theorem ComposingText.Coherent.isBoundary {text : ComposingText} (h : text.Coherent tables)
    {pair : IndexPair} (hpair : pair ∈ independentBoundaries tables text.input) :
    IsBoundary tables text.input pair :=
  isBoundary_of_mem text.input h.quiet pair hpair

/-- What `force_input_cursor` leaves: the same surface, and an input index that cuts
the input where the target cuts the surface. -/
structure CutAt (tables : InputTableRegistry) (text : ComposingText) (target : Nat)
    (forced : ComposingText × Nat) : Prop where
  cursor : forced.1.cursor = text.cursor
  surface : forced.1.surface = text.surface
  coherent : forced.1.Coherent tables
  le : forced.2 ≤ forced.1.input.length
  before : convertElements tables (forced.1.input.take forced.2) = text.surface.take target
  after : convertElements tables (forced.1.input.drop forced.2) = text.surface.drop target

theorem CutAt.of_boundary {text : ComposingText} (h : text.Coherent tables) {pair : IndexPair}
    (hpair : IsBoundary tables text.input pair) : CutAt tables text pair.surface
    (text, pair.input) where
  cursor := rfl
  surface := rfl
  coherent := h
  le := hpair.le
  before := by rw [h.surface, hpair.convert, ← hpair.surface, List.take_left]
  after := by rw [h.surface, hpair.convert, ← hpair.surface, List.drop_left]

end BeanKey.Input
