import BeanKey.Input.Parts
import BeanKey.Input.Complete

/-! What is left of a text once a count is completed, followed along the boundaries of the whole
input. -/
namespace BeanKey.Input
variable {tables : InputTableRegistry}

/-! ### Following a count -/

/-- Where the completion of a count stands: before an element of the whole input, or at a surface
position with no boundary. -/
inductive Standing where
  | atInput (index : Nat)
  | within (surface : Nat)
  deriving DecidableEq

def Standing.surface? (boundaries : List IndexPair) : Standing → Option Nat
  | .atInput index => (boundaryOf boundaries index).map IndexPair.surface
  | .within surface => some surface

def standingAt (boundaries : List IndexPair) (surface : Nat) : Standing :=
  match boundaryAt boundaries surface with
  | some pair => .atInput pair.input
  | none => .within surface

theorem surface?_atInput {input : List InputElement} {index surface : Nat} :
    (Standing.atInput index).surface? (independentBoundaries tables input) = some surface ↔
      ⟨index, surface⟩ ∈ independentBoundaries tables input := by
  constructor
  · intro h
    obtain ⟨pair, hpair, rfl⟩ := Option.map_eq_some_iff.mp h
    obtain ⟨hmem, rfl⟩ := boundaryOf_eq_some.mp hpair
    exact hmem
  · intro hmem
    exact Option.map_eq_some_iff.mpr ⟨_, boundaryOf_eq_some.mpr ⟨hmem, rfl⟩, rfl⟩

/-- Goes on by the parts of a count, none of them past `limit` on the surface. Only a boundary has
both an input and a surface position. -/
def ComposingCount.follow (boundaries : List IndexPair) (limit : Nat) :
    ComposingCount → Standing → Option Standing
  | .input count, .atInput index => some (.atInput (index + count))
  | .input _, .within _ => none
  | .surface count, standing =>
    if count = 0 then some standing
    else
      (standing.surface? boundaries).bind fun surface =>
        if surface + count ≤ limit then some (standingAt boundaries (surface + count)) else none
  | .composite left right, standing =>
    (left.follow boundaries limit standing).bind (right.follow boundaries limit)

/-- No part of a count ends past the limit on the surface. -/
theorem follow_within_le {boundaries : List IndexPair} {limit surface : Nat}
    {count : ComposingCount} {standing : Standing}
    (h : count.follow boundaries limit standing = some (.within surface))
    (hstart : ∀ position, standing = .within position → position ≤ limit) : surface ≤ limit := by
  induction count generalizing standing surface with
  | input count =>
    cases standing with
    | atInput index => cases h
    | within position => cases h
  | surface count =>
    rw [ComposingCount.follow] at h
    split at h
    · exact hstart surface (Option.some.inj h)
    · obtain ⟨position, -, hstep⟩ := Option.bind_eq_some_iff.mp h
      split at hstep
      · next hle =>
        have hthere := Option.some.inj hstep
        rw [standingAt] at hthere
        split at hthere
        · cases hthere
        · cases hthere
          exact hle
      · cases hstep
  | composite left right ihleft ihright =>
    obtain ⟨middle, hleft, hright⟩ := Option.bind_eq_some_iff.mp h
    apply ihright hright
    rintro position rfl
    exact ihleft hleft hstart

namespace ComposingText

def landing (tables : InputTableRegistry) (text : ComposingText) (count : ComposingCount) :
    Option Nat :=
  (count.follow (independentBoundaries tables text.input) text.cursor (.atInput 0)).bind
    (Standing.surface? (independentBoundaries tables text.input))

def Lands (tables : InputTableRegistry) (text : ComposingText) (count : ComposingCount) : Prop :=
  ∃ surface ≤ text.cursor, text.landing tables count = some surface

/-- `rest` is `whole` from the boundary `last` on, after frozen surface. -/
structure LeavesFrozen (tables : InputTableRegistry) (whole rest : ComposingText)
    (frozen : List Grapheme) (last : IndexPair) : Prop where
  coherent : rest.Coherent tables
  input : rest.input = frozenCharacters frozen ++ whole.input.drop last.input
  boundary : last ∈ independentBoundaries tables whole.input

def Leaves (tables : InputTableRegistry) (whole rest : ComposingText) : Standing → Prop
  | .atInput index => rest.Coherent tables ∧ rest.input = whole.input.drop index
  | .within surface => ∃ last,
    LeavesFrozen tables whole rest ((whole.surface.take last.surface).drop surface) last ∧
      surface < last.surface ∧
      ∀ pair ∈ independentBoundaries tables whole.input,
        surface < pair.surface → last.surface ≤ pair.surface

variable {whole rest : ComposingText}

theorem Coherent.drop_boundary (hc : whole.Coherent tables) {pair : IndexPair}
    (hpair : pair ∈ independentBoundaries tables whole.input) :
    convertElements tables (whole.input.drop pair.input) = whole.surface.drop pair.surface :=
  (CutAt.of_boundary hc (hc.isBoundary hpair)).after

theorem Coherent.quiet_drop (hc : whole.Coherent tables) (index : Nat) :
    ∀ element ∈ whole.input.drop index, element.Quiet tables :=
  fun element hin => hc.quiet element (List.mem_of_mem_drop hin)

theorem Coherent.boundary_le (hc : whole.Coherent tables) {pair : IndexPair}
    (hpair : pair ∈ independentBoundaries tables whole.input) :
    pair.surface ≤ whole.surface.length := by
  rw [hc.surface]
  exact surface_le_of_input_le hpair (end_mem_boundaries tables _)
    ((scan_invariant tables whole.input).within pair hpair)

section
variable {frozen : List Grapheme} {last : IndexPair}

theorem LeavesFrozen.surface (h : LeavesFrozen tables whole rest frozen last)
    (hc : whole.Coherent tables) : rest.surface = frozen ++ whole.surface.drop last.surface := by
  rw [h.coherent.surface, h.input, convert_frozen_append frozen (hc.quiet_drop _),
    hc.drop_boundary h.boundary]

theorem LeavesFrozen.start_boundary (h : LeavesFrozen tables whole rest frozen last)
    (hc : whole.Coherent tables) :
    ⟨frozen.length, frozen.length⟩ ∈ independentBoundaries tables rest.input := by
  rw [h.input]
  exact frozen_start_boundary frozen (hc.quiet_drop _)

theorem LeavesFrozen.drop_input (h : LeavesFrozen tables whole rest frozen last) (count : Nat) :
    rest.input.drop (frozen.length + count) = whole.input.drop (last.input + count) := by
  have hlength : (frozenCharacters frozen).length = frozen.length := List.length_map _
  rw [h.input, ← hlength, List.drop_length_add_append, List.drop_drop]

/-- After the frozen surface the boundaries are those of the whole. -/
theorem LeavesFrozen.mem_boundaries (h : LeavesFrozen tables whole rest frozen last)
    (hc : whole.Coherent tables) (input surface : Nat) :
    ⟨frozen.length + input, frozen.length + surface⟩ ∈ independentBoundaries tables rest.input ↔
      ⟨last.input + input, last.surface + surface⟩ ∈ independentBoundaries tables whole.input := by
  have hrest := mem_boundaries_drop h.coherent.quiet (h.start_boundary hc) ⟨input, surface⟩
  have hwhole := mem_boundaries_drop hc.quiet h.boundary ⟨input, surface⟩
  have hdrop := h.drop_input 0
  simp only [Nat.add_zero] at hdrop
  rw [hdrop] at hrest
  exact hrest.symm.trans hwhole

/-- A boundary of what is left that lies after the frozen surface is one of the whole. -/
theorem LeavesFrozen.exists_boundary (h : LeavesFrozen tables whole rest frozen last)
    (hc : whole.Coherent tables) {pair : IndexPair}
    (hpair : pair ∈ independentBoundaries tables rest.input) (hle : frozen.length ≤ pair.input) :
    ∃ input surface, pair = ⟨frozen.length + input, frozen.length + surface⟩ ∧
      ⟨last.input + input, last.surface + surface⟩ ∈ independentBoundaries tables whole.input := by
  have hsurface := surface_le_of_input_le (h.start_boundary hc) hpair hle
  obtain ⟨input, hinput⟩ := Nat.exists_eq_add_of_le hle
  obtain ⟨surface, hsame⟩ := Nat.exists_eq_add_of_le hsurface
  have heq : pair = ⟨frozen.length + input, frozen.length + surface⟩ := by
    rw [← hinput, ← hsame]
  exact ⟨input, surface, heq, (h.mem_boundaries hc input surface).mp (heq ▸ hpair)⟩

end

/-! ### One part of a count -/

theorem completePrefix_input_coherent (hrest : rest.Coherent tables) (count : Nat) :
    (rest.completePrefix tables (.input count)).Coherent tables :=
  ⟨rfl, fun element hin => hrest.quiet element (List.mem_of_mem_drop hin)⟩

theorem completePrefix_surface_coherent (hrest : rest.Coherent tables) (count : Nat) :
    (rest.completePrefix tables (.surface count)).Coherent tables := by
  have hcut := forceInputCursor_cut hrest (min count rest.surface.length)
  refine ⟨?_, fun element hin => hcut.coherent.quiet element (List.mem_of_mem_drop hin)⟩
  show (rest.forceInputCursor tables _).1.surface.drop _ = convertElements tables _
  rw [hcut.surface]
  exact hcut.after.symm

theorem completePrefix_coherent (hrest : rest.Coherent tables) (count : ComposingCount) :
    (rest.completePrefix tables count).Coherent tables := by
  induction count generalizing rest with
  | input count => exact completePrefix_input_coherent hrest count
  | surface count => exact completePrefix_surface_coherent hrest count
  | composite left right ihleft ihright => exact ihright (ihleft hrest)

/-- A surface count that ends at a boundary drops the input before the last one there. -/
theorem completePrefix_at_boundary (hrest : rest.Coherent tables) {index count : Nat}
    (hpos : 0 < count) (hmem : ⟨index, count⟩ ∈ independentBoundaries tables rest.input)
    (hlast : ∀ other ∈ independentBoundaries tables rest.input,
      other.surface = count → other.input ≤ index) :
    (rest.completePrefix tables (.surface count)).input = rest.input.drop index := by
  have hle := hrest.boundary_le hmem
  simp only [completePrefix, Nat.min_eq_left hle, forceInputCursor, if_neg hpos.ne']
  by_cases hend : rest.surface.length ≤ count
  · have hsame := hlast _ (end_mem_boundaries tables rest.input)
      (by simp only; rw [← hrest.surface]; exact le_antisymm hend hle)
    have hwithin : index ≤ rest.input.length := (scan_invariant tables rest.input).within _ hmem
    rw [if_pos hend, le_antisymm hwithin hsame]
  · rw [if_neg hend, searchCursor_boundary (boundaries_sorted tables rest.input) hmem hlast]

/-- A surface count that ends between boundaries freezes what stands between them. -/
theorem completePrefix_inside (hrest : rest.Coherent tables) {count : Nat} (hpos : 0 < count)
    (hlt : count < rest.surface.length)
    (hnone : boundaryAt (independentBoundaries tables rest.input) count = none) :
    ∃ last ∈ independentBoundaries tables rest.input, count < last.surface ∧
      (∀ pair ∈ independentBoundaries tables rest.input,
        count < pair.surface → last.surface ≤ pair.surface) ∧
      (rest.completePrefix tables (.surface count)).input =
        frozenCharacters ((rest.surface.take last.surface).drop count) ++
          rest.input.drop last.input := by
  have hinv := scan_invariant tables rest.input
  have hfound := searchCursor_independentBoundaries hrest hlt
  simp only [completePrefix, Nat.min_eq_left hlt.le, forceInputCursor, if_neg hpos.ne',
    if_neg (not_le.mpr hlt)]
  cases hsearch : searchCursor count (independentBoundaries tables rest.input)
      ⟨rest.input.length, rest.surface.length⟩ with
  | boundary index =>
    rw [hsearch] at hfound
    exact absurd rfl (boundaryAt_eq_none.mp hnone _ hfound)
  | inside first last =>
    rw [hsearch] at hfound
    obtain ⟨hfirst, hlast, hlow, hhigh, -⟩ := hfound
    refine ⟨last, hlast, hhigh, (searchCursor_closest hinv.sorted hsearch).2, ?_⟩
    have hfirstLen := length_take_of_boundary hfirst
    have hlastLe := hrest.boundary_le hlast
    have hindex : count - first.surface + first.input =
        (rest.input.take first.input).length + (count - first.surface) := by omega
    have hfrozen : (frozenCharacters ((rest.surface.take last.surface).drop first.surface)).drop
        (count - first.surface) =
          frozenCharacters ((rest.surface.take last.surface).drop count) := by
      rw [frozenCharacters, ← List.map_drop, List.drop_drop]
      congr 2
      omega
    simp only
    rw [List.append_assoc, hindex, List.drop_length_add_append, List.drop_append_of_le_length,
      hfrozen]
    simp only [frozenCharacters, List.length_map, List.length_drop, List.length_take]
    omega

/-- Within the frozen surface a count takes frozen characters away. -/
theorem LeavesFrozen.complete_frozen {frozen : List Grapheme} {last : IndexPair} {count : Nat}
    (h : LeavesFrozen tables whole rest frozen last) (hc : whole.Coherent tables)
    (hpos : 0 < count) (hlt : count < frozen.length) :
    LeavesFrozen tables whole (rest.completePrefix tables (.surface count)) (frozen.drop count)
      last := by
  refine ⟨completePrefix_surface_coherent h.coherent count, ?_, h.boundary⟩
  have hinput : rest.input = frozenCharacters (frozen.take count) ++
      (frozenCharacters (frozen.drop count) ++ whole.input.drop last.input) := by
    rw [h.input, ← List.append_assoc, frozenCharacters, frozenCharacters, frozenCharacters,
      ← List.map_append, List.take_append_drop]
  have hlength : (frozen.take count).length = count := by
    rw [List.length_take, Nat.min_eq_left hlt.le]
  have hfrozenLength : (frozenCharacters (frozen.take count)).length = count :=
    (List.length_map _).trans hlength
  have hmore : ∀ element ∈ frozenCharacters (frozen.drop count) ++ whole.input.drop last.input,
      element.Quiet tables :=
    List.forall_mem_append.mpr ⟨quiet_frozenCharacters _, hc.quiet_drop _⟩
  have hdrop : rest.input.drop count =
      frozenCharacters (frozen.drop count) ++ whole.input.drop last.input := by
    rw [hinput, List.drop_left' hfrozenLength]
  have hboundary : ⟨count, count⟩ ∈ independentBoundaries tables rest.input := by
    have hmem := @frozen_start_boundary tables (frozen.take count) _ hmore
    rwa [hlength, ← hinput] at hmem
  rw [← hdrop]
  apply completePrefix_at_boundary h.coherent hpos hboundary
  intro other hother hsame
  by_contra hover
  obtain ⟨input, hover⟩ := Nat.exists_eq_add_of_le (not_le.mp hover).le
  have hafter := (mem_boundaries_drop h.coherent.quiet hboundary ⟨input, 0⟩).mpr (by
    rw [← hover, Nat.add_zero, ← hsame]
    exact hother)
  obtain ⟨value, surface, hcons⟩ := List.exists_cons_of_ne_nil
    (List.ne_nil_of_length_pos (by rw [List.length_drop]; omega) : frozen.drop count ≠ [])
  rw [hdrop, hcons] at hafter
  have := input_eq_zero_of_frozen (hc.quiet_drop _) hafter
  omega

/-- From the end of the frozen surface on, a count stands where the whole input has it. -/
theorem LeavesFrozen.complete {frozen : List Grapheme} {last : IndexPair}
    (h : LeavesFrozen tables whole rest frozen last) (hc : whole.Coherent tables) (count : Nat)
    (hpos : 0 < frozen.length + count)
    (hle : last.surface + count ≤ whole.surface.length) :
    Leaves tables whole (rest.completePrefix tables (.surface (frozen.length + count)))
      (standingAt (independentBoundaries tables whole.input) (last.surface + count)) := by
  have hcoherent := completePrefix_surface_coherent h.coherent (frozen.length + count)
  have hstart := h.start_boundary hc
  cases hfound : boundaryAt (independentBoundaries tables whole.input) (last.surface + count) with
  | some pair =>
    simp only [standingAt, hfound, Leaves]
    refine ⟨hcoherent, ?_⟩
    obtain ⟨hmem, hsurface, hlast⟩ := boundaryAt_eq_some.mp hfound
    have hinput : last.input ≤ pair.input := by
      rcases Nat.eq_zero_or_pos count with rfl | hcount
      · exact hlast last h.boundary rfl
      · exact (input_lt_of_surface_lt (boundaries_sorted tables whole.input) h.boundary hmem
          (by omega)).le
    obtain ⟨input, hinput⟩ := Nat.exists_eq_add_of_le hinput
    have hpair : pair = ⟨last.input + input, last.surface + count⟩ := by
      rw [← hinput, ← hsurface]
    rw [hpair] at hmem hlast ⊢
    rw [← h.drop_input input]
    apply completePrefix_at_boundary h.coherent hpos ((h.mem_boundaries hc input count).mpr hmem)
    intro other hother hsame
    by_contra hover
    obtain ⟨input', surface, rfl, hin⟩ := h.exists_boundary hc hother (by omega)
    simp only at hsame hover
    have := hlast _ hin (by simp only; omega)
    simp only at this
    omega
  | none =>
    have hnot := boundaryAt_eq_none.mp hfound
    have hcount : 0 < count := by
      rcases Nat.eq_zero_or_pos count with rfl | hcount
      · exact absurd rfl (hnot last h.boundary)
      · exact hcount
    simp only [standingAt, hfound, Leaves]
    -- a boundary of what is left at the count would be one of the whole
    have hafter : ∀ pair ∈ independentBoundaries tables rest.input,
        frozen.length < pair.surface → frozen.length ≤ pair.input := by
      intro pair hpair hlt
      exact (input_lt_of_surface_lt (boundaries_sorted tables rest.input) hstart hpair hlt).le
    have hnone : boundaryAt (independentBoundaries tables rest.input) (frozen.length + count) =
        none := by
      refine boundaryAt_eq_none.mpr fun pair hpair hsame => ?_
      obtain ⟨input, surface, rfl, hin⟩ := h.exists_boundary hc hpair (hafter pair hpair (by omega))
      simp only at hsame
      exact hnot _ hin (by simp only; omega)
    have hsurface := h.surface hc
    have hlength := congrArg List.length hsurface
    rw [List.length_append, List.length_drop] at hlength
    have hlt : last.surface + count < whole.surface.length := by
      refine lt_of_le_of_ne hle fun heq => ?_
      exact hnot _ (end_mem_boundaries tables whole.input) (by simp only; rw [← hc.surface, heq])
    obtain ⟨stop, hstop, hover, hclosest, hinput⟩ :=
      completePrefix_inside h.coherent hpos (by omega) hnone
    obtain ⟨input, surface, rfl, hin⟩ := h.exists_boundary hc hstop (hafter stop hstop (by omega))
    simp only at hover hclosest hinput
    refine ⟨⟨last.input + input, last.surface + surface⟩,
      ⟨hcoherent, ?_, hin⟩, by simp only; omega, ?_⟩
    · rw [hinput, h.drop_input, hsurface]
      congr 2
      simp only
      rw [List.take_length_add_append, List.drop_length_add_append, List.take_drop, List.drop_drop]
    · intro pair hpair hpast
      obtain ⟨input', hinput'⟩ := Nat.exists_eq_add_of_le (input_lt_of_surface_lt
        (boundaries_sorted tables whole.input) h.boundary hpair (by omega)).le
      obtain ⟨surface', hsurface'⟩ :=
        Nat.exists_eq_add_of_le (by omega : last.surface ≤ pair.surface)
      have hmem := (h.mem_boundaries hc input' surface').mpr (by
        rw [← hinput', ← hsurface']
        exact hpair)
      have := hclosest _ hmem (by simp only; omega)
      simp only at this ⊢
      omega

/-! ### Whole counts -/

theorem Leaves.coherent {standing : Standing} (h : Leaves tables whole rest standing) :
    rest.Coherent tables := by
  cases standing with
  | atInput index => exact h.1
  | within surface =>
    obtain ⟨last, hlast, -, -⟩ := h
    exact hlast.coherent

theorem Leaves.surface {standing : Standing} {surface : Nat}
    (h : Leaves tables whole rest standing) (hc : whole.Coherent tables)
    (hstanding : standing.surface? (independentBoundaries tables whole.input) = some surface) :
    rest.surface = whole.surface.drop surface := by
  cases standing with
  | atInput index =>
    have hmem := surface?_atInput.mp hstanding
    rw [h.1.surface, h.2, hc.drop_boundary hmem]
  | within position =>
    obtain rfl : position = surface := Option.some.inj hstanding
    obtain ⟨last, hlast, hlt, -⟩ := h
    have hsplit : whole.surface.drop position =
        (whole.surface.take last.surface).drop position ++ whole.surface.drop last.surface := by
      have hle := hc.boundary_le hlast.boundary
      conv_lhs => rw [← List.take_append_drop last.surface whole.surface]
      rw [List.drop_append_of_le_length (by rw [List.length_take]; omega)]
    rw [hlast.surface hc, hsplit]

theorem Leaves.complete_surface {standing : Standing} {surface count : Nat}
    (h : Leaves tables whole rest standing) (hc : whole.Coherent tables)
    (hstanding : standing.surface? (independentBoundaries tables whole.input) = some surface)
    (hpos : 0 < count) (hle : surface + count ≤ whole.surface.length) :
    Leaves tables whole (rest.completePrefix tables (.surface count))
      (standingAt (independentBoundaries tables whole.input) (surface + count)) := by
  cases standing with
  | atInput index =>
    have hmem := surface?_atInput.mp hstanding
    have hfrozen : LeavesFrozen tables whole rest [] ⟨index, surface⟩ := ⟨h.1, h.2, hmem⟩
    have hcomplete := hfrozen.complete hc count (by simpa using hpos) hle
    rwa [List.length_nil, Nat.zero_add] at hcomplete
  | within position =>
    obtain rfl : position = surface := Option.some.inj hstanding
    obtain ⟨last, hlast, hlt, hclosest⟩ := h
    have hlastLe := hc.boundary_le hlast.boundary
    have hlength : ((whole.surface.take last.surface).drop position).length =
        last.surface - position := by
      rw [List.length_drop, List.length_take, Nat.min_eq_left hlastLe]
    by_cases hinside : position + count < last.surface
    · have hnone : boundaryAt (independentBoundaries tables whole.input) (position + count) =
          none := by
        refine boundaryAt_eq_none.mpr fun pair hpair hsame => ?_
        have := hclosest pair hpair (by omega)
        omega
      have hcomplete := hlast.complete_frozen hc hpos (by omega)
      rw [List.drop_drop] at hcomplete
      simp only [standingAt, hnone, Leaves]
      refine ⟨last, hcomplete, hinside, fun pair hpair hover => ?_⟩
      exact hclosest pair hpair (by omega)
    · obtain ⟨more, hmore⟩ := Nat.exists_eq_add_of_le (not_lt.mp hinside)
      have hcount : count = ((whole.surface.take last.surface).drop position).length + more := by
        omega
      have hcomplete := hlast.complete hc more (hcount ▸ hpos) (by omega)
      rwa [← hcount, ← hmore] at hcomplete

theorem Leaves.complete_input {index count : Nat} (h : Leaves tables whole rest (.atInput index)) :
    Leaves tables whole (rest.completePrefix tables (.input count)) (.atInput (index + count)) := by
  refine ⟨completePrefix_input_coherent h.1 count, ?_⟩
  show rest.input.drop (min count rest.input.length) = _
  rw [drop_min_length, h.2, List.drop_drop]

/-- A completion stands where its count leads along the boundaries of the whole input. -/
theorem Leaves.follow {count : ComposingCount} {limit : Nat} {standing standing' : Standing}
    (h : Leaves tables whole rest standing) (hc : whole.Coherent tables)
    (hlimit : limit ≤ whole.surface.length)
    (hfollow : count.follow (independentBoundaries tables whole.input) limit standing =
      some standing') :
    Leaves tables whole (rest.completePrefix tables count) standing' := by
  induction count generalizing rest standing standing' with
  | input count =>
    cases standing with
    | atInput index =>
      obtain rfl := Option.some.inj hfollow
      exact h.complete_input
    | within surface => cases hfollow
  | surface count =>
    rw [ComposingCount.follow] at hfollow
    split at hfollow
    · next hzero =>
      obtain rfl := Option.some.inj hfollow
      subst hzero
      have hsame : (rest.completePrefix tables (.surface 0)).input = rest.input ∧
          (rest.completePrefix tables (.surface 0)).surface = rest.surface := by
        simp [completePrefix, forceInputCursor]
      have hcoherent := completePrefix_surface_coherent h.coherent 0
      cases standing with
      | atInput index => exact ⟨hcoherent, hsame.1.trans h.2⟩
      | within surface =>
        obtain ⟨last, hlast, hrest⟩ := h
        exact ⟨last, ⟨hcoherent, hsame.1.trans hlast.input, hlast.boundary⟩, hrest⟩
    · next hpos =>
      obtain ⟨surface, hstanding, hstep⟩ := Option.bind_eq_some_iff.mp hfollow
      split at hstep
      · next hle =>
        obtain rfl := Option.some.inj hstep
        exact h.complete_surface hc hstanding (Nat.pos_of_ne_zero hpos) (hle.trans hlimit)
      · cases hstep
  | composite left right ihleft ihright =>
    obtain ⟨middle, hleft, hright⟩ := Option.bind_eq_some_iff.mp hfollow
    exact ihright (ihleft h hleft) hright

/-- What is left after a count that lands. -/
theorem completePrefix_landing {count : ComposingCount} {surface : Nat}
    (hc : whole.Coherent tables) (hcursor : whole.cursor ≤ whole.surface.length)
    (h : whole.landing tables count = some surface) :
    (whole.completePrefix tables count).surface = whole.surface.drop surface := by
  obtain ⟨standing, hfollow, hstanding⟩ := Option.bind_eq_some_iff.mp h
  have hstart : Leaves tables whole whole (.atInput 0) := ⟨hc, rfl⟩
  exact (hstart.follow hc hcursor hfollow).surface hc hstanding

/-! ### The text before the cursor -/

variable {text : ComposingText}

/-- The input before the cursor: a beginning of the whole, frozen where the cursor splits what a
rule wrote. -/
theorem prefixToCursor_input (hc : text.Coherent tables) (hpos : 0 < text.cursor)
    (hlt : text.cursor < text.surface.length) :
    (∃ pair, boundaryAt (independentBoundaries tables text.input) text.cursor = some pair ∧
      (text.prefixToCursor tables).input = text.input.take pair.input) ∨
    ∃ first ∈ independentBoundaries tables text.input, first.surface < text.cursor ∧
      (∀ pair ∈ independentBoundaries tables text.input,
        pair.surface ≤ text.cursor → pair.input ≤ first.input) ∧
      (text.prefixToCursor tables).input = text.input.take first.input ++
        frozenCharacters ((text.surface.take text.cursor).drop first.surface) := by
  simp only [prefixToCursor, forceInputCursor, if_neg hpos.ne', if_neg (not_le.mpr hlt)]
  cases hfound : boundaryAt (independentBoundaries tables text.input) text.cursor with
  | some pair =>
    obtain ⟨hmem, hsurface, hlast⟩ := boundaryAt_eq_some.mp hfound
    have hhere : ⟨pair.input, text.cursor⟩ ∈ independentBoundaries tables text.input := by
      rw [← hsurface]
      exact hmem
    rw [searchCursor_boundary (boundaries_sorted tables text.input) hhere hlast]
    exact .inl ⟨pair, rfl, rfl⟩
  | none =>
    have hnot := boundaryAt_eq_none.mp hfound
    have hsearched := searchCursor_independentBoundaries hc hlt
    cases hsearch : searchCursor text.cursor (independentBoundaries tables text.input)
        ⟨text.input.length, text.surface.length⟩ with
    | boundary index =>
      rw [hsearch] at hsearched
      exact absurd rfl (hnot _ hsearched)
    | inside first last =>
      rw [hsearch] at hsearched
      obtain ⟨hfirst, hlast, hlow, hhigh, hclosest⟩ := hsearched
      refine .inr ⟨first, hfirst, hlow, fun pair hpair hle => ?_, ?_⟩
      · exact hclosest pair hpair (lt_of_le_of_ne hle (hnot pair hpair))
      · have hfirstLen := length_take_of_boundary hfirst
        have hindex : text.cursor - first.surface + first.input =
            (text.input.take first.input).length + (text.cursor - first.surface) := by omega
        have hlastLe := hc.boundary_le hlast
        simp only
        rw [List.append_assoc, hindex, List.take_length_add_append, List.take_append_of_le_length]
        · rw [frozenCharacters, frozenCharacters, ← List.map_take, List.take_drop, List.take_take]
          congr 4
          omega
        · simp only [frozenCharacters, List.length_map, List.length_drop, List.length_take]
          omega

/-- Frozen characters consume nothing, so every boundary before them stays. -/
theorem mem_boundaries_append_frozen {input : List InputElement} {pair : IndexPair}
    (h : pair ∈ independentBoundaries tables input) (surface : List Grapheme) :
    pair ∈ independentBoundaries tables (input ++ frozenCharacters surface) := by
  induction surface using List.reverseRecOn with
  | nil => simpa [frozenCharacters] using h
  | append_singleton surface value ih =>
    have hsplit : input ++ frozenCharacters (surface ++ [value]) =
        input ++ frozenCharacters surface ++ [.character value .frozen] := by
      simp [frozenCharacters]
    have hdeleted : (updateSegments tables (segmentsOf tables (input ++ frozenCharacters surface))
        (.character value .frozen)).2 = 0 := by
      cases segmentsOf tables (input ++ frozenCharacters surface) with
      | nil => rfl
      | cons last rest =>
        by_cases hstyle : last.inputStyle = (InputElement.character value .frozen).inputStyle
        · rw [updateSegments_same tables last rest _ hstyle]
          rfl
        · rw [updateSegments_other tables last rest _ hstyle]
    rw [hsplit, mem_boundaries_concat, hdeleted]
    refine .inr ⟨ih, ?_⟩
    exact surface_le_of_input_le ih (end_mem_boundaries tables _)
      ((scan_invariant tables _).within pair ih)

theorem mem_boundaries_prefixToCursor (hc : text.Coherent tables) (hpos : 0 < text.cursor)
    (hlt : text.cursor < text.surface.length) {pair : IndexPair}
    (hpair : pair ∈ independentBoundaries tables text.input) (hle : pair.surface ≤ text.cursor) :
    pair ∈ independentBoundaries tables (text.prefixToCursor tables).input := by
  have htake : ∀ index, pair.input ≤ index →
      pair ∈ independentBoundaries tables (text.input.take index) := by
    intro index hindex
    rw [← List.take_append_drop index text.input] at hpair
    refine mem_boundaries_of_append hpair ?_
    have hin := (scan_invariant tables _).within pair hpair
    rw [List.take_append_drop] at hin
    rw [List.length_take]
    omega
  rcases prefixToCursor_input hc hpos hlt with ⟨last, hlast, hinput⟩ |
    ⟨first, -, -, hclosest, hinput⟩
  · obtain ⟨hmem, hsurface, htop⟩ := boundaryAt_eq_some.mp hlast
    rw [hinput]
    apply htake
    by_contra hover
    have hge := surface_le_of_input_le hmem hpair (not_le.mp hover).le
    exact hover (htop pair hpair (by omega))
  · rw [hinput]
    exact mem_boundaries_append_frozen (htake _ (hclosest pair hpair hle)) _

theorem boundaryAt_prefixToCursor (hc : text.Coherent tables) (hpos : 0 < text.cursor)
    (hlt : text.cursor < text.surface.length) {surface : Nat} {pair : IndexPair}
    (hpair : boundaryAt (independentBoundaries tables text.input) surface = some pair)
    (hle : surface ≤ text.cursor) :
    boundaryAt (independentBoundaries tables (text.prefixToCursor tables).input) surface =
      some pair := by
  obtain ⟨hmem, rfl, htop⟩ := boundaryAt_eq_some.mp hpair
  have hleads := mem_boundaries_prefixToCursor hc hpos hlt hmem hle
  refine boundaryAt_eq_some.mpr ⟨hleads, rfl, fun other hother hsame => ?_⟩
  have hwhole : ∀ {index surface : Nat},
      ⟨index, surface⟩ ∈ independentBoundaries tables text.input →
      other ∈ independentBoundaries tables (text.input.take index) → other.input ≤ pair.input := by
    intro index surface hindex hin
    have hlength : (text.input.take index).length = index := length_take_of_boundary hindex
    have hboundary : ⟨(text.input.take index).length, surface⟩ ∈
        independentBoundaries tables (text.input.take index ++ text.input.drop index) := by
      rwa [hlength, List.take_append_drop]
    have hboth := ((mem_boundaries_append_iff hboundary other).mp hin).1
    rw [List.take_append_drop] at hboth
    exact htop other hboth hsame
  rcases prefixToCursor_input hc hpos hlt with ⟨last, hlast, hinput⟩ |
    ⟨first, hfirst, hlow, hclosest, hinput⟩
  · obtain ⟨hin, -, -⟩ := boundaryAt_eq_some.mp hlast
    rw [hinput] at hother
    exact hwhole hin hother
  · have hquiet : ∀ element ∈ (text.prefixToCursor tables).input, element.Quiet tables := by
      rw [hinput]
      exact List.forall_mem_append.mpr
        ⟨fun element hin => hc.quiet element (List.mem_of_mem_take hin), quiet_frozenCharacters _⟩
    have hfirstPrefix := mem_boundaries_prefixToCursor hc hpos hlt hfirst hlow.le
    have hlength := length_take_of_boundary hfirst
    by_cases hbefore : other.input ≤ first.input
    · rw [hinput] at hother
      exact hwhole hfirst (mem_boundaries_of_append hother (by rw [hlength]; exact hbefore))
    · -- past the beginning the first boundary already shows a frozen character
      exfalso
      have hpairLe := surface_le_of_input_le hmem hfirst (hclosest pair hmem hle)
      have hotherLe := surface_le_of_input_le hfirstPrefix hother (by omega)
      obtain ⟨more, hmore⟩ := Nat.exists_eq_add_of_le (not_le.mp hbefore).le
      have hafter := (mem_boundaries_drop hquiet hfirstPrefix ⟨more, 0⟩).mpr (by
        rw [← hmore, show first.surface + 0 = other.surface by omega]
        exact hother)
      have hne : (text.surface.take text.cursor).drop first.surface ≠ [] :=
        List.ne_nil_of_length_pos (by rw [List.length_drop, List.length_take]; omega)
      obtain ⟨value, surface, hcons⟩ := List.exists_cons_of_ne_nil hne
      rw [hinput, List.drop_left' hlength, hcons,
        ← List.append_nil (frozenCharacters (value :: surface))] at hafter
      have := input_eq_zero_of_frozen (fun _ hin => absurd hin List.not_mem_nil) hafter
      omega

/-- `prefixed` is where the text before the cursor has `standing`: at the same element, or at the
same surface position, where it may have a boundary of its own. -/
def SameStanding (boundaries : List IndexPair) : Standing → Standing → Prop
  | .atInput index, prefixed => prefixed = .atInput index
  | .within surface, prefixed => prefixed.surface? boundaries = some surface

theorem SameStanding.surface {standing prefixed : Standing} {surface : Nat}
    (hc : text.Coherent tables) (hpos : 0 < text.cursor) (hlt : text.cursor < text.surface.length)
    (h : SameStanding (independentBoundaries tables (text.prefixToCursor tables).input) standing
      prefixed)
    (hstanding : standing.surface? (independentBoundaries tables text.input) = some surface)
    (hle : surface ≤ text.cursor) :
    prefixed.surface? (independentBoundaries tables (text.prefixToCursor tables).input) =
      some surface := by
  cases standing with
  | atInput index =>
    obtain rfl : prefixed = .atInput index := h
    have hmem := surface?_atInput.mp hstanding
    exact surface?_atInput.mpr (mem_boundaries_prefixToCursor hc hpos hlt hmem hle)
  | within position =>
    obtain rfl : position = surface := Option.some.inj hstanding
    exact h

theorem standingAt_surface {input : List InputElement} (surface : Nat) :
    (standingAt (independentBoundaries tables input) surface).surface?
      (independentBoundaries tables input) = some surface := by
  rw [standingAt]
  cases hfound : boundaryAt (independentBoundaries tables input) surface with
  | none => rfl
  | some pair =>
    obtain ⟨hmem, rfl, -⟩ := boundaryAt_eq_some.mp hfound
    exact surface?_atInput.mpr hmem

theorem sameStanding_standingAt (hc : text.Coherent tables) (hpos : 0 < text.cursor)
    (hlt : text.cursor < text.surface.length) {surface : Nat} (hle : surface ≤ text.cursor) :
    SameStanding (independentBoundaries tables (text.prefixToCursor tables).input)
      (standingAt (independentBoundaries tables text.input) surface)
      (standingAt (independentBoundaries tables (text.prefixToCursor tables).input) surface) := by
  cases hfound : boundaryAt (independentBoundaries tables text.input) surface with
  | some pair =>
    have hleads := boundaryAt_prefixToCursor hc hpos hlt hfound hle
    simp only [standingAt, hfound, hleads, SameStanding]
  | none =>
    have hsurface := @standingAt_surface tables (text.prefixToCursor tables).input surface
    rwa [standingAt, hfound]

/-- A count goes the same way in the text before the cursor as in the whole text. -/
theorem follow_prefix (hc : text.Coherent tables) (hpos : 0 < text.cursor)
    (hlt : text.cursor < text.surface.length) {count : ComposingCount}
    {standing standing' prefixed : Standing}
    (h : SameStanding (independentBoundaries tables (text.prefixToCursor tables).input) standing
      prefixed)
    (hfollow : count.follow (independentBoundaries tables text.input) text.cursor standing =
      some standing') :
    ∃ prefixed', count.follow (independentBoundaries tables (text.prefixToCursor tables).input)
        text.cursor prefixed = some prefixed' ∧
      SameStanding (independentBoundaries tables (text.prefixToCursor tables).input) standing'
        prefixed' := by
  induction count generalizing standing standing' prefixed with
  | input count =>
    cases standing with
    | atInput index =>
      obtain rfl : prefixed = .atInput index := h
      obtain rfl := Option.some.inj hfollow
      exact ⟨_, rfl, rfl⟩
    | within surface => cases hfollow
  | surface count =>
    rw [ComposingCount.follow] at hfollow ⊢
    split at hfollow
    · next hzero =>
      obtain rfl := Option.some.inj hfollow
      exact ⟨prefixed, if_pos hzero, h⟩
    · next hcount =>
      obtain ⟨surface, hstanding, hstep⟩ := Option.bind_eq_some_iff.mp hfollow
      split at hstep
      · next hle =>
        obtain rfl := Option.some.inj hstep
        rw [if_neg hcount, h.surface hc hpos hlt hstanding (by omega), Option.bind_some,
          if_pos hle]
        exact ⟨_, rfl, sameStanding_standingAt hc hpos hlt hle⟩
      · cases hstep
  | composite left right ihleft ihright =>
    obtain ⟨middle, hleft, hright⟩ := Option.bind_eq_some_iff.mp hfollow
    obtain ⟨middle', hleft', hmiddle⟩ := ihleft h hleft
    obtain ⟨final, hright', hfinal⟩ := ihright hmiddle hright
    exact ⟨final, Option.bind_eq_some_iff.mpr ⟨middle', hleft', hright'⟩, hfinal⟩

theorem landing_prefixToCursor (hc : text.Coherent tables) (hpos : 0 < text.cursor)
    (hlt : text.cursor < text.surface.length) {count : ComposingCount} {surface : Nat}
    (h : text.landing tables count = some surface) (hle : surface ≤ text.cursor) :
    (text.prefixToCursor tables).landing tables count = some surface := by
  obtain ⟨standing, hfollow, hstanding⟩ := Option.bind_eq_some_iff.mp h
  have hcursor : (text.prefixToCursor tables).cursor = text.cursor :=
    (forceInputCursor_cut hc text.cursor).cursor
  have hstart : SameStanding (independentBoundaries tables (text.prefixToCursor tables).input)
      (.atInput 0) (.atInput 0) := rfl
  obtain ⟨prefixed, hprefixed, hsame⟩ := follow_prefix hc hpos hlt hstart hfollow
  rw [landing, hcursor]
  exact Option.bind_eq_some_iff.mpr
    ⟨prefixed, hprefixed, hsame.surface hc hpos hlt hstanding hle⟩

theorem prefixToCursor_surface (text : ComposingText) :
    (text.prefixToCursor tables).surface = text.surface.take text.cursor := by
  have hcursor : (text.forceInputCursor tables text.cursor).1.cursor = text.cursor := by
    rw [forceInputCursor]
    split
    · rfl
    · split
      · rfl
      · split <;> rfl
  show (text.forceInputCursor tables text.cursor).1.surface.take
    (text.forceInputCursor tables text.cursor).1.cursor = _
  rw [forceInputCursor_surface, hcursor]

/-- A count that lands up to the cursor leaves the rest of the text before the cursor, and then what
stands after it. -/
theorem completePrefix_of_lands (hc : text.Coherent tables) (hpos : 0 < text.cursor)
    (hlt : text.cursor < text.surface.length) {count : ComposingCount}
    (h : text.Lands tables count) :
    (text.completePrefix tables count).surface =
      ((text.prefixToCursor tables).completePrefix tables count).surface ++
        text.surface.drop text.cursor := by
  obtain ⟨surface, hle, hlanding⟩ := h
  have hleads := prefixToCursor_wellFormed ⟨hc, hlt.le⟩
  have hsurface := @prefixToCursor_surface tables text
  have hcut : text.surface.drop surface =
      (text.surface.take text.cursor).drop surface ++ text.surface.drop text.cursor := by
    conv_lhs => rw [← List.take_append_drop text.cursor text.surface]
    rw [List.drop_append_of_le_length (by rw [List.length_take]; omega)]
  rw [completePrefix_landing hc hlt.le hlanding, completePrefix_landing hleads.coherent
    hleads.cursor_le (landing_prefixToCursor hc hpos hlt hlanding hle), hsurface, hcut]

/-! ### A cursor on a boundary -/

/-- Before a cursor on a boundary the boundaries are those of the whole text. -/
theorem mem_boundaries_prefix_iff (hc : text.Coherent tables) (hpos : 0 < text.cursor)
    (hlt : text.cursor < text.surface.length) {index : Nat}
    (hindex : ⟨index, text.cursor⟩ ∈ independentBoundaries tables text.input) (pair : IndexPair) :
    pair ∈ independentBoundaries tables (text.prefixToCursor tables).input ↔
      pair ∈ independentBoundaries tables text.input ∧ pair.surface ≤ text.cursor := by
  constructor
  · intro hpair
    rcases prefixToCursor_input hc hpos hlt with ⟨last, hlast, hinput⟩ |
      ⟨first, hfirst, hlow, hclosest, -⟩
    · obtain ⟨hmem, hsurface, -⟩ := boundaryAt_eq_some.mp hlast
      have hlength := length_take_of_boundary hmem
      have hboundary : ⟨(text.input.take last.input).length, last.surface⟩ ∈
          independentBoundaries tables
            (text.input.take last.input ++ text.input.drop last.input) := by
        rwa [hlength, List.take_append_drop]
      rw [hinput, mem_boundaries_append_iff hboundary, List.take_append_drop, hlength] at hpair
      exact ⟨hpair.1, hsurface ▸ surface_le_of_input_le hpair.1 hmem hpair.2⟩
    · have := surface_le_of_input_le hindex hfirst (hclosest _ hindex le_rfl)
      simp only at this
      omega
  · rintro ⟨hmem, hle⟩
    exact mem_boundaries_prefixToCursor hc hpos hlt hmem hle

theorem follow_of_prefix (hc : text.Coherent tables) (hpos : 0 < text.cursor)
    (hlt : text.cursor < text.surface.length) {index : Nat}
    (hindex : ⟨index, text.cursor⟩ ∈ independentBoundaries tables text.input)
    {count : ComposingCount} {standing standing' : Standing}
    (hfollow : count.follow (independentBoundaries tables (text.prefixToCursor tables).input)
      text.cursor standing = some standing') :
    count.follow (independentBoundaries tables text.input) text.cursor standing =
      some standing' := by
  have hboth := mem_boundaries_prefix_iff hc hpos hlt hindex
  induction count generalizing standing standing' with
  | input count =>
    cases standing with
    | atInput index => exact hfollow
    | within surface => cases hfollow
  | surface count =>
    rw [ComposingCount.follow] at hfollow ⊢
    split at hfollow
    · next hzero => rwa [if_pos hzero]
    · next hcount =>
      obtain ⟨surface, hstanding, hstep⟩ := Option.bind_eq_some_iff.mp hfollow
      have hsame : standing.surface? (independentBoundaries tables text.input) = some surface := by
        cases standing with
        | atInput index =>
          have hmem := surface?_atInput.mp hstanding
          exact surface?_atInput.mpr ((hboth _).mp hmem).1
        | within position => exact hstanding
      split at hstep
      · next hle =>
        rw [if_neg hcount, hsame, Option.bind_some, if_pos hle, ← hstep]
        congr 1
        rw [standingAt, standingAt]
        cases hfound : boundaryAt (independentBoundaries tables text.input) (surface + count) with
        | some pair => rw [boundaryAt_prefixToCursor hc hpos hlt hfound hle]
        | none =>
          have hnot := boundaryAt_eq_none.mp hfound
          rw [boundaryAt_eq_none.mpr fun pair hpair => hnot pair ((hboth pair).mp hpair).1]
      · cases hstep
  | composite left right ihleft ihright =>
    obtain ⟨middle, hleft, hright⟩ := Option.bind_eq_some_iff.mp hfollow
    exact Option.bind_eq_some_iff.mpr ⟨middle, ihleft hleft, ihright hright⟩

end ComposingText

end BeanKey.Input
