import BeanKey.Input.Editing

/-! The boundaries of a part of the input, and the one that a search for a surface position
finds. -/
namespace BeanKey.Input
variable {tables : InputTableRegistry}

/-! ### The boundaries of a part of the input -/

theorem mem_boundaries_concat (input : List InputElement) (element : InputElement)
    (pair : IndexPair) :
    pair ∈ independentBoundaries tables (input ++ [element]) ↔
      pair = ⟨input.length + 1, (convertElements tables (input ++ [element])).length⟩ ∨
        pair ∈ independentBoundaries tables input ∧
          pair.surface ≤ (convertElements tables input).length -
            (updateSegments tables (segmentsOf tables input) element).2 := by
  show pair ∈ (scanOf tables (input ++ [element])).boundaries ↔ _
  rw [scanOf_concat_boundaries, List.mem_cons]
  apply or_congr_right
  constructor
  · intro hmem
    exact ⟨(List.dropWhile_sublist _).subset hmem,
      le_of_mem_dropWhile _ (scan_invariant tables input).sorted hmem⟩
  · rintro ⟨hmem, hle⟩
    exact mem_dropWhile_of_le hmem hle

theorem boundaries_sorted (tables : InputTableRegistry) (input : List InputElement) :
    (independentBoundaries tables input).Pairwise fun later earlier =>
      earlier.input < later.input ∧ earlier.surface ≤ later.surface :=
  (scan_invariant tables input).sorted

theorem zero_mem_boundaries (tables : InputTableRegistry) (input : List InputElement) :
    ⟨0, 0⟩ ∈ independentBoundaries tables input :=
  (scan_invariant tables input).bottom

theorem end_mem_boundaries (tables : InputTableRegistry) (input : List InputElement) :
    ⟨input.length, (convertElements tables input).length⟩ ∈ independentBoundaries tables input :=
  List.mem_of_mem_head? (scan_invariant tables input).top

theorem surface_le_of_input_le {input : List InputElement} {low high : IndexPair}
    (hlow : low ∈ independentBoundaries tables input)
    (hhigh : high ∈ independentBoundaries tables input) (h : low.input ≤ high.input) :
    low.surface ≤ high.surface := by
  by_contra hlt
  have := input_lt_of_surface_lt (boundaries_sorted tables input) hhigh hlow (by omega)
  omega

/-- A boundary was one before the elements after it were typed. -/
theorem mem_boundaries_of_append {before after : List InputElement} {pair : IndexPair}
    (h : pair ∈ independentBoundaries tables (before ++ after)) (hle : pair.input ≤ before.length) :
    pair ∈ independentBoundaries tables before := by
  induction after using List.reverseRecOn with
  | nil => rwa [List.append_nil] at h
  | append_singleton after element ih =>
    rw [← List.append_assoc, mem_boundaries_concat] at h
    rcases h with rfl | ⟨hmem, -⟩
    · simp only [List.length_append] at hle
      omega
    · exact ih hmem

/-- Up to a boundary, the boundaries are those of what was typed up to it. -/
theorem mem_boundaries_append_iff {before after : List InputElement} {surface : Nat}
    (h : ⟨before.length, surface⟩ ∈ independentBoundaries tables (before ++ after))
    (pair : IndexPair) :
    pair ∈ independentBoundaries tables before ↔
      pair ∈ independentBoundaries tables (before ++ after) ∧ pair.input ≤ before.length := by
  constructor
  · intro hpair
    have hle := (scan_invariant tables before).within pair hpair
    refine ⟨?_, hle⟩
    induction after using List.reverseRecOn with
    | nil => rwa [List.append_nil]
    | append_singleton after element ih =>
      rw [← List.append_assoc, mem_boundaries_concat] at h ⊢
      rcases h with heq | ⟨hmem, hbound⟩
      · have := congrArg IndexPair.input heq
        simp only [List.length_append] at this
        omega
      · refine .inr ⟨ih hmem, le_trans ?_ hbound⟩
        exact surface_le_of_input_le (ih hmem) hmem hle
  · rintro ⟨hmem, hle⟩
    exact mem_boundaries_of_append hmem hle

/-- Within the surface of the suffix, an element consumes as much of the whole as of the suffix. -/
theorem Aligned.deleted_eq {before : List Grapheme} {whole suffix : List SurfaceSegment}
    (h : Aligned before whole suffix) (element : InputElement)
    (hd : (updateSegments tables whole element).2 ≤ tailLen suffix) :
    (updateSegments tables whole element).2 = (updateSegments tables suffix element).2 := by
  cases suffix with
  | nil =>
    have hsuffix := updateSegments_deleted_le tables [] element
    simp only [tailLen] at hd hsuffix
    omega
  | cons last rest =>
    obtain ⟨earlier, closed, rfl, -, -⟩ := h
    by_cases hstyle : last.inputStyle = element.inputStyle
    · have hsame := updateSegments_same tables ⟨earlier ++ last.graphemes, last.inputStyle⟩ closed
        element hstyle
      rw [hsame] at hd ⊢
      rw [updateSegments_same tables last rest element hstyle,
        updateSurface_append tables earlier last.graphemes element.piece element.inputStyle hd]
    · rw [updateSegments_other tables _ closed element (by exact hstyle),
        updateSegments_other tables last rest element hstyle]

theorem mem_boundaries_drop {input : List InputElement}
    (hq : ∀ element ∈ input, element.Quiet tables) {pair : IndexPair}
    (hpair : pair ∈ independentBoundaries tables input) (next : IndexPair) :
    next ∈ independentBoundaries tables (input.drop pair.input) ↔
      ⟨pair.input + next.input, pair.surface + next.surface⟩ ∈
        independentBoundaries tables input := by
  induction input using List.reverseRecOn with
  | nil =>
    obtain rfl : pair = ⟨0, 0⟩ := by simpa [independentBoundaries] using hpair
    simp
  | append_singleton input element ih =>
    obtain ⟨hinput, helement⟩ := List.forall_mem_append.mp hq
    have hboundary := isBoundary_of_mem _ hq pair hpair
    rcases (mem_boundaries_concat input element pair).mp hpair with rfl | ⟨hmem, hbound⟩
    · rw [List.drop_of_length_le (by simp)]
      constructor
      · intro hnext
        obtain rfl : next = ⟨0, 0⟩ := by simpa [independentBoundaries] using hnext
        exact hpair
      · intro hnext
        have hwithin := (scan_invariant tables (input ++ [element])).within _ hnext
        simp only [List.length_append, List.length_singleton] at hwithin
        have hzero : next.input = 0 := by omega
        have hle := surface_le_of_input_le hnext hpair (by simp [hzero])
        simp only at hle
        have hsurface : next.surface = 0 := by omega
        have hnext : next = ⟨0, 0⟩ := by
          cases next
          simp_all
        simp [hnext, independentBoundaries]
    · have hold := isBoundary_of_mem _ hinput pair hmem
      have hlength := congrArg List.length hold.convert
      have hlength' := congrArg List.length hboundary.convert
      rw [List.length_append, hold.surface] at hlength
      rw [List.length_append, hboundary.surface, List.drop_append_of_le_length hold.le] at hlength'
      have hreach : (updateSegments tables (segmentsOf tables input) element).2 ≤
          (convertElements tables (input.drop pair.input)).length := by
        have hle := (updateSegments_deleted_le tables (segmentsOf tables input) element).trans
          (tailLen_le _)
        rw [convertElements] at hlength hbound
        omega
      have hdeleted := hold.aligned.deleted_eq element (hold.aligned.deleted_le element hreach)
      have hle := hold.le
      rw [List.drop_append_of_le_length hold.le, mem_boundaries_concat, mem_boundaries_concat,
        ih hinput hmem, ← hdeleted, List.length_drop, hlength, hlength']
      apply or_congr
      · constructor
        · rintro rfl
          simp only [IndexPair.mk.injEq, and_true]
          omega
        · intro heq
          obtain ⟨hinputs, hsurfaces⟩ := IndexPair.mk.inj heq
          cases next
          simp only [IndexPair.mk.injEq] at hinputs hsurfaces ⊢
          omega
      · apply and_congr_right
        intro _
        simp only
        omega

theorem boundary_eq_of_input_eq {input : List InputElement} {pair pair' : IndexPair}
    (hpair : pair ∈ independentBoundaries tables input)
    (hpair' : pair' ∈ independentBoundaries tables input) (h : pair.input = pair'.input) :
    pair = pair' := by
  have hle := surface_le_of_input_le hpair hpair' h.le
  have hge := surface_le_of_input_le hpair' hpair h.ge
  cases pair
  cases pair'
  simp only [IndexPair.mk.injEq]
  exact ⟨h, le_antisymm hle hge⟩

/-! ### The boundary at a surface position -/

/-- The last boundary at a surface position; the stack has its top first. -/
def boundaryAt (boundaries : List IndexPair) (surface : Nat) : Option IndexPair :=
  boundaries.find? fun pair => pair.surface = surface

def boundaryOf (boundaries : List IndexPair) (input : Nat) : Option IndexPair :=
  boundaries.find? fun pair => pair.input = input

theorem boundaryOf_eq_some {input : List InputElement} {index : Nat} {pair : IndexPair} :
    boundaryOf (independentBoundaries tables input) index = some pair ↔
      pair ∈ independentBoundaries tables input ∧ pair.input = index := by
  constructor
  · intro h
    exact ⟨List.mem_of_find?_eq_some h, by simpa using List.find?_some h⟩
  · rintro ⟨hmem, rfl⟩
    cases hfound : boundaryOf (independentBoundaries tables input) pair.input with
    | none => exact absurd (List.find?_eq_none.mp hfound pair hmem) (by simp)
    | some found =>
      have hinput : found.input = pair.input := by simpa using List.find?_some hfound
      rw [boundary_eq_of_input_eq (List.mem_of_find?_eq_some hfound) hmem hinput]

theorem boundaryAt_last {input : List InputElement} {surface : Nat} {pair : IndexPair}
    (h : boundaryAt (independentBoundaries tables input) surface = some pair) :
    ∀ other ∈ independentBoundaries tables input, other.surface = surface →
      other.input ≤ pair.input := by
  have hsorted := boundaries_sorted tables input
  obtain ⟨-, before, after, hsplit, hbefore⟩ := List.find?_eq_some_iff_append.mp h
  rw [hsplit] at hsorted ⊢
  intro other hother hsame
  rcases List.mem_append.mp hother with hin | hin
  · exact absurd hsame (by simpa using hbefore other hin)
  · rcases List.mem_cons.mp hin with rfl | hlater
    · exact le_rfl
    · exact ((List.pairwise_cons.mp (List.pairwise_append.mp hsorted).2.1).1 other hlater).1.le

theorem boundaryAt_eq_some {input : List InputElement} {surface : Nat} {pair : IndexPair} :
    boundaryAt (independentBoundaries tables input) surface = some pair ↔
      pair ∈ independentBoundaries tables input ∧ pair.surface = surface ∧
        ∀ other ∈ independentBoundaries tables input, other.surface = surface →
          other.input ≤ pair.input := by
  constructor
  · intro h
    exact ⟨List.mem_of_find?_eq_some h, by simpa using List.find?_some h, boundaryAt_last h⟩
  · rintro ⟨hmem, hsurface, htop⟩
    cases hfound : boundaryAt (independentBoundaries tables input) surface with
    | none => exact absurd (List.find?_eq_none.mp hfound pair hmem) (by simpa using hsurface)
    | some found =>
      have hin : found ∈ independentBoundaries tables input := List.mem_of_find?_eq_some hfound
      have hle := htop found hin (by simpa using List.find?_some hfound)
      have hge := boundaryAt_last hfound pair hmem hsurface
      rw [boundary_eq_of_input_eq hin hmem (le_antisymm hle hge)]

theorem boundaryAt_eq_none {boundaries : List IndexPair} {surface : Nat} :
    boundaryAt boundaries surface = none ↔ ∀ pair ∈ boundaries, pair.surface ≠ surface := by
  simp [boundaryAt]

theorem searchCursor_boundary {stack : List IndexPair} {index target : Nat}
    (hsorted : stack.Pairwise fun later earlier =>
      earlier.input < later.input ∧ earlier.surface ≤ later.surface)
    (hmem : ⟨index, target⟩ ∈ stack)
    (htop : ∀ pair ∈ stack, pair.surface = target → pair.input ≤ index) (segmentEnd : IndexPair) :
    searchCursor target stack segmentEnd = .boundary index := by
  induction stack generalizing segmentEnd with
  | nil => exact absurd hmem List.not_mem_nil
  | cons start rest ih =>
    obtain ⟨hstart, hrest⟩ := List.pairwise_cons.mp hsorted
    obtain ⟨htopStart, htopRest⟩ := List.forall_mem_cons.mp htop
    rcases List.mem_cons.mp hmem with heq | hin
    · rw [searchCursor, ← heq, if_pos rfl]
    · have horder := hstart _ hin
      simp only at horder
      have hne : start.surface ≠ target := fun heq => absurd (htopStart heq) (by omega)
      rw [searchCursor, if_neg hne, if_neg (by omega)]
      split
      · exact ih hrest hin htopRest start
      · exact ih hrest hin htopRest segmentEnd

/-- No boundary lies between the target and the end of the segment that is cut. -/
theorem searchCursor_closest {stack : List IndexPair} {target : Nat}
    (hsorted : stack.Pairwise fun later earlier =>
      earlier.input < later.input ∧ earlier.surface ≤ later.surface)
    {segmentEnd first last : IndexPair}
    (h : searchCursor target stack segmentEnd = .inside first last) :
    last.surface ≤ segmentEnd.surface ∧
      ∀ pair ∈ stack, target < pair.surface → last.surface ≤ pair.surface := by
  induction stack generalizing segmentEnd with
  | nil =>
    cases h
    exact ⟨le_rfl, fun _ hin => absurd hin List.not_mem_nil⟩
  | cons start rest ih =>
    obtain ⟨hstart, hrest⟩ := List.pairwise_cons.mp hsorted
    rw [searchCursor] at h
    split at h
    · cases h
    · split at h
      · next hlt =>
        cases h
        refine ⟨le_rfl, fun pair hpair hover => ?_⟩
        rcases List.mem_cons.mp hpair with rfl | hin
        · omega
        · have := (hstart pair hin).2
          omega
      · split at h
        · next hcloser =>
          obtain ⟨hle, hall⟩ := ih hrest h
          exact ⟨by omega, List.forall_mem_cons.mpr ⟨fun _ => hle, hall⟩⟩
        · obtain ⟨hle, hall⟩ := ih hrest h
          exact ⟨hle, List.forall_mem_cons.mpr ⟨fun _ => by omega, hall⟩⟩

/-! ### Frozen beginnings -/

theorem convert_frozen_append (surface : List Grapheme) {more : List InputElement}
    (hq : ∀ element ∈ more, element.Quiet tables) :
    convertElements tables (frozenCharacters surface ++ more) =
      surface ++ convertElements tables more := by
  cases surface with
  | nil => rfl
  | cons value surface =>
    have hends := ends_frozenCharacters tables [] (List.cons_ne_nil value surface)
    have hconvert := convert_frozenCharacters tables [] (value :: surface)
    rw [List.nil_append] at hends hconvert
    rw [hends.convert_append more hq, hconvert]
    rfl

/-- Between frozen characters the input can be cut, and nothing else shows as much. -/
theorem frozen_boundary (before : List InputElement) (surface : List Grapheme)
    (hne : surface ≠ []) {more : List InputElement} (hq : ∀ element ∈ more, element.Quiet tables) :
    ⟨(before ++ frozenCharacters surface).length,
        (convertElements tables (before ++ frozenCharacters surface)).length⟩ ∈
      independentBoundaries tables (before ++ frozenCharacters surface ++ more) :=
  mem_independentBoundaries_of_ends (ends_frozenCharacters tables before hne) more hq

theorem frozen_start_boundary (surface : List Grapheme) {more : List InputElement}
    (hq : ∀ element ∈ more, element.Quiet tables) :
    ⟨surface.length, surface.length⟩ ∈
      independentBoundaries tables (frozenCharacters surface ++ more) := by
  cases surface with
  | nil => exact zero_mem_boundaries tables _
  | cons value surface =>
    have hmem := frozen_boundary [] (value :: surface) (List.cons_ne_nil _ _) hq
    have hconvert := convert_frozenCharacters tables [] (value :: surface)
    rw [List.nil_append] at hmem hconvert
    rw [hconvert] at hmem
    simpa [frozenCharacters] using hmem

/-- Right before a frozen character no element shows nothing. -/
theorem input_eq_zero_of_frozen {value : Grapheme} {surface : List Grapheme}
    {more : List InputElement} (hq : ∀ element ∈ more, element.Quiet tables) {index : Nat}
    (h : ⟨index, 0⟩ ∈
      independentBoundaries tables (frozenCharacters (value :: surface) ++ more)) : index = 0 := by
  have hone : ⟨1, 1⟩ ∈
      independentBoundaries tables (frozenCharacters (value :: surface) ++ more) := by
    have hrest : ∀ element ∈ frozenCharacters surface ++ more, element.Quiet tables :=
      List.forall_mem_append.mpr ⟨quiet_frozenCharacters surface, hq⟩
    have hmem := frozen_start_boundary [value] hrest
    rwa [← List.append_assoc] at hmem
  by_contra hne
  have := surface_le_of_input_le hone h (by simp only; omega)
  simp at this

end BeanKey.Input
