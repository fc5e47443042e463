import BeanKey.Lattice.Follow

/-! When the order of the positions lets every path reach a position that is still to come. -/
namespace BeanKey.Lattice
open Input
variable {tables : InputTableRegistry} {order : HashOrder} {composing : ComposingText}

/-! ### The map -/

/-- Earlier input positions are mapped to earlier surface positions, or to the same one. -/
theorem inputToSurfaceMap_monotone {input input' surface surface' : Nat}
    (h : (input, surface) ∈ composing.inputToSurfaceMap tables)
    (h' : (input', surface') ∈ composing.inputToSurfaceMap tables) (hlt : input < input') :
    surface ≤ surface' := by
  obtain heq | hgt | hless := pairwise_trichotomy (scan_invariant tables composing.input).sorted
    (mem_boundaries_of_map h) (mem_boundaries_of_map h')
  · cases heq
    exact absurd hlt (lt_irrefl _)
  · exact absurd hgt.1 (not_lt.mpr hlt.le)
  · exact hless.2

theorem le_of_mem_inputToSurfaceMap {input surface : Nat}
    (h : (input, surface) ∈ composing.inputToSurfaceMap tables) :
    input ≤ composing.input.length :=
  (scan_invariant tables composing.input).within _ (mem_boundaries_of_map h)

theorem zero_mem_inputToSurfaceMap (tables : InputTableRegistry) (composing : ComposingText) :
    (0, 0) ∈ composing.inputToSurfaceMap tables := by
  rw [ComposingText.inputToSurfaceMap]
  split
  · exact List.mem_map.mpr ⟨0, List.mem_range.mpr (Nat.succ_pos _), rfl⟩
  · exact List.mem_map.mpr ⟨⟨0, 0⟩, (scan_invariant tables composing.input).bottom, rfl⟩

theorem lookup_of_mem {input surface : Nat}
    (h : (input, surface) ∈ composing.inputToSurfaceMap tables) :
    (composing.inputToSurfaceMap tables).lookup input = some surface := by
  cases hlookup : (composing.inputToSurfaceMap tables).lookup input with
  | none =>
    have hne := List.lookup_eq_none_iff.mp hlookup _ h
    exact absurd hne (by simp)
  | some other => rw [inputToSurfaceMap_functional (mem_of_lookup hlookup) h]

namespace DualIndexMap

theorem dual_input_of_mem (order : HashOrder) {input surface : Nat}
    (hle : input ≤ composing.input.length)
    (h : (input, surface) ∈ composing.inputToSurfaceMap tables) :
    (new order composing tables).dual (.input input) = .both input surface := by
  rw [dual]
  split
  · next hidentity =>
    rw [inputToSurfaceMap_functional h ((identity_spec hidentity).2 input hle)]
  · simp only [new, lookup_of_mem h]

theorem indicesAt_unmapped (order : HashOrder) (surfaceCount pointer : Nat) {input : Nat}
    (h : (composing.inputToSurfaceMap tables).lookup input = none) :
    (new order composing tables).indicesAt surfaceCount pointer input =
      ([.input input], pointer) := by
  simp only [indicesAt, new, h]

theorem indicesAt_mapped (order : HashOrder) (surfaceCount pointer : Nat) {input surface : Nat}
    (h : (composing.inputToSurfaceMap tables).lookup input = some surface) :
    (new order composing tables).indicesAt surfaceCount pointer input =
      ((List.range' pointer (surface - pointer)).map .surface ++
        [if pointer ≤ surface ∧ surface < surfaceCount then .both input surface
          else .input input], surface + 1) := by
  simp only [indicesAt, new, h]

/-! ### The order -/

/-- Where `item` stands before `next`, the positions of `next` come later. -/
structure Precedes (entries : List (Nat × Nat)) (item next : DualIndex) : Prop where
  inputs : ∀ input input', item.input? = some input → next.input? = some input' → input < input'
  surfaces : ∀ surface surface', item.surface? = some surface → next.surface? = some surface' →
    surface < surface'
  mapped : ∀ input surface surface', item.input? = some input → (input, surface) ∈ entries →
    next.surface? = some surface' → surface < surface'
  reached : ∀ surface input, item.surface? = some surface → next.input? = some input →
    ∃ entry ∈ entries, entry.1 ≤ input ∧ surface ≤ entry.2

/-- The list names every position once, in an order that agrees with the map. -/
structure Lined (entries : List (Nat × Nat)) (inputCount surfaceCount : Nat)
    (indices : List DualIndex) : Prop where
  ordered : indices.Pairwise (Precedes entries)
  inputs : ∀ input < inputCount, ∃ item ∈ indices, item.input? = some input
  surfaces : ∀ surface < surfaceCount, ∃ item ∈ indices, item.surface? = some surface
  paired : ∀ input surface, .both input surface ∈ indices → (input, surface) ∈ entries
  known : ∀ item ∈ indices, ∀ surface, item.surface? = some surface →
    surface < surfaceCount ∨ ∀ input, (input, surface) ∉ entries

/-- What the loop of `indices` has listed after `count` input positions. -/
structure LinedUpTo (entries : List (Nat × Nat)) (surfaceCount count : Nat)
    (visited : List DualIndex × Nat) : Prop
    extends Lined entries count (min visited.2 surfaceCount) visited.1 where
  inputs_lt : ∀ item ∈ visited.1, ∀ input, item.input? = some input → input < count
  surfaces_lt : ∀ item ∈ visited.1, ∀ surface, item.surface? = some surface → surface < visited.2
  passed : ∀ input surface, (input, surface) ∈ entries → input < count → surface < visited.2
  reached : ∀ item ∈ visited.1, ∀ surface, item.surface? = some surface →
    ∃ entry ∈ entries, entry.1 < count ∧ surface ≤ entry.2

theorem Precedes.surface {entries : List (Nat × Nat)} {item : DualIndex} {next : Nat}
    (hsurfaces : ∀ surface, item.surface? = some surface → surface < next)
    (hmapped : ∀ input surface, item.input? = some input → (input, surface) ∈ entries →
      surface < next) : Precedes entries item (.surface next) := by
  refine ⟨?_, ?_, ?_, ?_⟩
  · intro _ input' _ hinput'
    exact absurd hinput' (by simp [DualIndex.input?])
  · intro surface surface' hsurface hnext
    cases hnext
    exact hsurfaces surface hsurface
  · intro input surface surface' hinput hentry hnext
    cases hnext
    exact hmapped input surface hinput hentry
  · intro _ input' _ hinput'
    exact absurd hinput' (by simp [DualIndex.input?])

theorem surfaces_ordered (entries : List (Nat × Nat)) (start count : Nat) :
    ((List.range' start count).map DualIndex.surface).Pairwise (Precedes entries) := by
  refine List.pairwise_map.mpr ((List.pairwise_lt_range' 1 Nat.one_pos).imp fun hlt => ?_)
  refine .surface ?_ ?_
  · intro surface hsurface
    cases hsurface
    exact hlt
  · intro input _ hinput _
    exact absurd hinput (by simp [DualIndex.input?])

section loop
variable {surfaceCount count : Nat} {visited : List DualIndex × Nat}
  (h : LinedUpTo (composing.inputToSurfaceMap tables) surfaceCount count visited)
include h

/-- One step of the loop lists surface positions that it skips, and `here` with the input
position. -/
theorem LinedUpTo.append (skipped pointer : Nat) (here : DualIndex)
    (hinput : here.input? = some count)
    (hsurface : ∀ surface, here.surface? = some surface → surface = visited.2 + skipped ∧
      surface < surfaceCount ∧ (count, surface) ∈ composing.inputToSurfaceMap tables)
    (hskipped : ∀ surface < visited.2 + skipped, visited.2 ≤ surface →
      ∃ target, (count, target) ∈ composing.inputToSurfaceMap tables ∧ surface < target)
    (hfilled : ∀ surface < min pointer surfaceCount, visited.2 + skipped ≤ surface →
      here.surface? = some surface)
    (hpassed : ∀ input surface, (input, surface) ∈ composing.inputToSurfaceMap tables →
      input < count + 1 → surface < pointer) :
    LinedUpTo (composing.inputToSurfaceMap tables) surfaceCount (count + 1)
      (visited.1 ++ ((List.range' visited.2 skipped).map .surface ++ [here]), pointer) := by
  -- what the new list holds
  have hitem : ∀ item ∈ visited.1 ++ ((List.range' visited.2 skipped).map .surface ++ [here]),
      item ∈ visited.1 ∨ (∃ surface < visited.2 + skipped, visited.2 ≤ surface ∧
        item = .surface surface) ∨ item = here := by
    intro item hin
    rcases List.mem_append.mp hin with hold | hnew
    · exact .inl hold
    · rcases List.mem_append.mp hnew with hskip | hlast
      · obtain ⟨surface, hrange, rfl⟩ := List.mem_map.mp hskip
        obtain ⟨hle, hlt⟩ := List.mem_range'_1.mp hrange
        exact .inr (.inl ⟨surface, hlt, hle, rfl⟩)
      · exact .inr (.inr (List.mem_singleton.mp hlast))
  have hreached : ∀ item ∈ visited.1 ++ ((List.range' visited.2 skipped).map .surface ++ [here]),
      ∀ surface, item.surface? = some surface →
        ∃ entry ∈ composing.inputToSurfaceMap tables, entry.1 < count + 1 ∧ surface ≤ entry.2 := by
    intro item hin surface hnamed
    rcases hitem item hin with hold | ⟨value, hlt, hle, rfl⟩ | rfl
    · obtain ⟨entry, hentry, hlt, hle⟩ := h.reached item hold surface hnamed
      exact ⟨entry, hentry, hlt.trans (Nat.lt_succ_self _), hle⟩
    · cases hnamed
      obtain ⟨target, htarget, hbelow⟩ := hskipped surface hlt hle
      exact ⟨_, htarget, Nat.lt_succ_self _, hbelow.le⟩
    · exact ⟨_, (hsurface surface hnamed).2.2, Nat.lt_succ_self _, le_rfl⟩
  have hnames : ∀ item ∈ visited.1 ++ ((List.range' visited.2 skipped).map .surface ++ [here]),
      ∀ surface, item.surface? = some surface → surface < pointer := by
    intro item hin surface hnamed
    obtain ⟨⟨input, target⟩, hentry, hlt, hle⟩ := hreached item hin surface hnamed
    exact hle.trans_lt (hpassed input target hentry hlt)
  have hbefore : ∀ item : DualIndex,
      (∀ surface, item.surface? = some surface → surface < visited.2 + skipped) →
      (∀ input, item.input? = some input → input < count) →
      (∀ surface, item.surface? = some surface → ∃ entry ∈ composing.inputToSurfaceMap tables,
        entry.1 < count + 1 ∧ surface ≤ entry.2) →
      Precedes (composing.inputToSurfaceMap tables) item here := by
    intro item hsurfaces hinputs hentries
    refine ⟨?_, ?_, ?_, ?_⟩
    · intro input input' hnamed hnamed'
      rw [hinput] at hnamed'
      cases hnamed'
      exact hinputs input hnamed
    · intro surface surface' hnamed hnamed'
      rw [(hsurface surface' hnamed').1]
      exact hsurfaces surface hnamed
    · intro input surface surface' hnamed hentry hnamed'
      rw [(hsurface surface' hnamed').1]
      exact (h.passed input surface hentry (hinputs input hnamed)).trans_le (Nat.le_add_right _ _)
    · intro surface input hnamed hnamed'
      rw [hinput] at hnamed'
      cases hnamed'
      obtain ⟨entry, hentry, hlt, hle⟩ := hentries surface hnamed
      exact ⟨entry, hentry, Nat.lt_succ_iff.mp hlt, hle⟩
  refine ⟨⟨?_, ?_, ?_, ?_, ?_⟩, ?_, hnames, hpassed, hreached⟩
  · refine List.pairwise_append.mpr ⟨h.ordered, List.pairwise_append.mpr
      ⟨surfaces_ordered _ _ _, List.pairwise_singleton _ _, ?_⟩, ?_⟩
    · intro item hskip next hnext
      obtain rfl := List.mem_singleton.mp hnext
      obtain ⟨value, hrange, rfl⟩ := List.mem_map.mp hskip
      obtain ⟨hle, hlt⟩ := List.mem_range'_1.mp hrange
      exact hbefore _ (fun surface hnamed => Option.some.inj hnamed ▸ hlt)
        (fun _ hnamed => absurd hnamed (by simp [DualIndex.input?]))
        (hreached _ (List.mem_append_right _ (List.mem_append_left _ hskip)))
    · intro item hold next hnew
      rcases List.mem_append.mp hnew with hskip | hlast
      · obtain ⟨value, hrange, rfl⟩ := List.mem_map.mp hskip
        have hle := (List.mem_range'_1.mp hrange).1
        refine .surface ?_ ?_
        · intro surface hnamed
          exact (h.surfaces_lt item hold surface hnamed).trans_le hle
        · intro input surface hnamed hentry
          exact (h.passed input surface hentry (h.inputs_lt item hold input hnamed)).trans_le hle
      · obtain rfl := List.mem_singleton.mp hlast
        refine hbefore item ?_ ?_ (hreached item (List.mem_append_left _ hold))
        · intro surface hnamed
          exact (h.surfaces_lt item hold surface hnamed).trans_le (Nat.le_add_right _ _)
        · exact h.inputs_lt item hold
  · intro input hlt
    obtain hbelow | rfl := Nat.lt_succ_iff_lt_or_eq.mp hlt
    · obtain ⟨item, hin, hsome⟩ := h.inputs input hbelow
      exact ⟨item, List.mem_append_left _ hin, hsome⟩
    · exact ⟨here, by simp, hinput⟩
  · intro surface hlt
    by_cases hold : surface < visited.2
    · obtain ⟨item, hin, hsome⟩ := h.surfaces surface (by omega)
      exact ⟨item, List.mem_append_left _ hin, hsome⟩
    · by_cases hskip : surface < visited.2 + skipped
      · refine ⟨.surface surface, ?_, rfl⟩
        have hrange := List.mem_range'_1.mpr ⟨not_lt.mp hold, hskip⟩
        exact List.mem_append_right _ (List.mem_append_left _ (List.mem_map_of_mem hrange))
      · exact ⟨here, by simp, hfilled surface hlt (not_lt.mp hskip)⟩
  · intro input surface hin
    rcases hitem _ hin with hold | ⟨value, -, -, heq⟩ | heq
    · exact h.paired input surface hold
    · exact absurd heq (by simp)
    · rw [← heq] at hinput hsurface
      obtain rfl : input = count := Option.some.inj hinput
      exact (hsurface surface rfl).2.2
  · intro item hin surface hnamed
    have hbelow := hnames item hin surface hnamed
    rcases hitem item hin with hold | ⟨value, hlt, hle, rfl⟩ | rfl
    · refine (h.known item hold surface hnamed).imp (fun hlt => ?_) id
      omega
    · cases hnamed
      -- a position past the end that is skipped is no input position's
      by_contra hcases
      obtain ⟨hend, hentry⟩ := not_or.mp hcases
      push Not at hentry
      obtain ⟨input, hentry⟩ := hentry
      obtain ⟨target, htarget, hlt'⟩ := hskipped surface hlt hle
      obtain hless | rfl | hgreater := lt_trichotomy input count
      · exact absurd (h.passed input surface hentry hless) (not_lt.mpr hle)
      · exact absurd hlt' (inputToSurfaceMap_functional hentry htarget).not_lt
      · exact absurd hlt' (not_lt.mpr (inputToSurfaceMap_monotone htarget hentry hgreater))
    · have := (hsurface surface hnamed).2.1
      exact .inl (by omega)
  · intro item hin input hnamed
    rcases hitem item hin with hold | ⟨value, -, -, rfl⟩ | rfl
    · exact (h.inputs_lt item hold input hnamed).trans (Nat.lt_succ_self _)
    · exact absurd hnamed (by simp [DualIndex.input?])
    · rw [hinput] at hnamed
      cases hnamed
      exact Nat.lt_succ_self _

theorem LinedUpTo.step :
    LinedUpTo (composing.inputToSurfaceMap tables) surfaceCount (count + 1)
      (visited.1 ++ ((new order composing tables).indicesAt surfaceCount visited.2 count).1,
        ((new order composing tables).indicesAt surfaceCount visited.2 count).2) := by
  cases hlookup : (composing.inputToSurfaceMap tables).lookup count with
  | none =>
    rw [indicesAt_unmapped order surfaceCount visited.2 hlookup]
    have hno : ∀ surface, (count, surface) ∉ composing.inputToSurfaceMap tables := by
      intro surface hin
      rw [lookup_of_mem hin] at hlookup
      exact absurd hlookup (by simp)
    refine h.append 0 visited.2 (.input count) rfl ?_ ?_ ?_ ?_
    · intro surface hnamed
      exact absurd hnamed (by simp [DualIndex.surface?])
    · intro surface hlt hle
      omega
    · intro surface hlt hle
      omega
    · intro input surface hentry hlt
      obtain hbelow | rfl := Nat.lt_succ_iff_lt_or_eq.mp hlt
      · exact h.passed input surface hentry hbelow
      · exact absurd hentry (hno surface)
  | some target =>
    rw [indicesAt_mapped order surfaceCount visited.2 hlookup]
    have htarget := mem_of_lookup hlookup
    refine h.append (target - visited.2) (target + 1) _ ?_ ?_ ?_ ?_ ?_
    · split <;> rfl
    · intro surface hnamed
      split at hnamed
      · next hin =>
        cases hnamed
        exact ⟨by omega, hin.2, htarget⟩
      · exact absurd hnamed (by simp [DualIndex.surface?])
    · intro surface hlt hle
      exact ⟨target, htarget, by omega⟩
    · intro surface hlt hle
      obtain rfl : surface = target := by omega
      rw [if_pos ⟨by omega, by omega⟩]
      rfl
    · intro input surface hentry hlt
      obtain hbelow | rfl := Nat.lt_succ_iff_lt_or_eq.mp hlt
      · exact Nat.lt_succ_of_le (inputToSurfaceMap_monotone hentry htarget hbelow)
      · rw [inputToSurfaceMap_functional hentry htarget]
        exact Nat.lt_succ_self _

end loop

theorem linedUpTo (order : HashOrder) (composing : ComposingText) (tables : InputTableRegistry)
    (surfaceCount count : Nat) :
    LinedUpTo (composing.inputToSurfaceMap tables) surfaceCount count
      ((new order composing tables).indicesUpTo surfaceCount count) := by
  induction count with
  | zero =>
    refine ⟨⟨List.Pairwise.nil, ?_, ?_, ?_, ?_⟩, ?_, ?_, ?_, ?_⟩
    all_goals simp [indicesUpTo]
  | succ count ih =>
    rw [indicesUpTo_succ]
    exact ih.step

theorem lined_identity (hidentity : (new order composing tables).identity = true) :
    Lined (composing.inputToSurfaceMap tables) composing.input.length composing.surface.length
      ((List.range composing.surface.length).map fun index => .both index index) := by
  obtain ⟨hcount, hall⟩ := identity_spec hidentity
  refine ⟨?_, ?_, ?_, ?_, ?_⟩
  · refine List.pairwise_map.mpr
      ((List.pairwise_lt_range).imp_of_mem fun {index next} _ hnext hlt => ?_)
    have hnext := List.mem_range.mp hnext
    refine ⟨?_, ?_, ?_, ?_⟩
    · intro input input' hnamed hnamed'
      cases hnamed
      cases hnamed'
      exact hlt
    · intro surface surface' hnamed hnamed'
      cases hnamed
      cases hnamed'
      exact hlt
    · intro input surface surface' hnamed hentry hnamed'
      cases hnamed
      cases hnamed'
      rw [inputToSurfaceMap_functional hentry (hall index (by omega))]
      exact hlt
    · intro surface input hnamed hnamed'
      cases hnamed
      cases hnamed'
      exact ⟨_, hall next (by omega), le_rfl, hlt.le⟩
  · intro input hlt
    exact ⟨.both input input, by simp; omega, rfl⟩
  · intro surface hlt
    exact ⟨.both surface surface, by simp; omega, rfl⟩
  · intro input surface hin
    obtain ⟨index, hindex, heq⟩ := List.mem_map.mp hin
    cases heq
    have := List.mem_range.mp hindex
    exact hall input (by omega)
  · intro item hin surface hnamed
    obtain ⟨index, hindex, rfl⟩ := List.mem_map.mp hin
    cases hnamed
    exact .inl (List.mem_range.mp hindex)

/-- The list of a text, also where the surface has drifted. -/
theorem lined_indices (order : HashOrder) (composing : ComposingText)
    (tables : InputTableRegistry) :
    Lined (composing.inputToSurfaceMap tables) composing.input.length composing.surface.length
      ((new order composing tables).indices composing.input.length composing.surface.length) := by
  by_cases hidentity : (new order composing tables).identity = true
  · rw [indices, if_pos hidentity, (identity_spec hidentity).1, Nat.min_self]
    have h := lined_identity hidentity
    rwa [(identity_spec hidentity).1] at h
  · rw [indices_eq_upTo hidentity]
    have h := linedUpTo order composing tables composing.surface.length composing.input.length
    generalize (new order composing tables).indicesUpTo composing.surface.length
      composing.input.length = visited at h ⊢
    have htrailing : ∀ item ∈ (List.range' visited.2 (composing.surface.length - visited.2)).map
        DualIndex.surface, ∃ surface, item = .surface surface ∧ visited.2 ≤ surface ∧
          surface < composing.surface.length := by
      intro item hin
      obtain ⟨surface, hrange, rfl⟩ := List.mem_map.mp hin
      have := List.mem_range'_1.mp hrange
      exact ⟨surface, rfl, by omega, by omega⟩
    refine ⟨?_, ?_, ?_, ?_, ?_⟩
    · refine List.pairwise_append.mpr ⟨h.ordered, surfaces_ordered _ _ _, ?_⟩
      intro item hin next hnext
      obtain ⟨surface, rfl, hle, -⟩ := htrailing next hnext
      refine .surface ?_ ?_
      · intro surface' hnamed
        exact (h.surfaces_lt item hin surface' hnamed).trans_le hle
      · intro input surface' hnamed hentry
        exact (h.passed input surface' hentry (h.inputs_lt item hin input hnamed)).trans_le hle
    · intro input hlt
      obtain ⟨item, hin, hnamed⟩ := h.inputs input hlt
      exact ⟨item, List.mem_append_left _ hin, hnamed⟩
    · intro surface hlt
      by_cases hbelow : surface < visited.2
      · obtain ⟨item, hin, hnamed⟩ := h.surfaces surface (by omega)
        exact ⟨item, List.mem_append_left _ hin, hnamed⟩
      · refine ⟨.surface surface, List.mem_append_right _ (List.mem_map_of_mem ?_), rfl⟩
        exact List.mem_range'_1.mpr ⟨by omega, by omega⟩
    · intro input surface hin
      obtain hin | hin := List.mem_append.mp hin
      · exact h.paired input surface hin
      · obtain ⟨_, heq, -⟩ := htrailing _ hin
        exact absurd heq (by simp)
    · intro item hin surface hnamed
      obtain hin | hin := List.mem_append.mp hin
      · refine (h.known item hin surface hnamed).imp (fun hlt => ?_) id
        omega
      · obtain ⟨_, rfl, -, hlt⟩ := htrailing item hin
        cases hnamed
        exact .inl hlt

/-! ### Paths to positions that are still to come -/

end DualIndexMap

def LatticeRange.startIndex : LatticeRange → LatticeIndex
  | .input first _ => .input first
  | .surface first _ => .surface first

def LatticeRange.IsWithin (composing : ComposingText) : LatticeRange → Prop
  | .input first last => first < last ∧ last ≤ composing.input.length
  | .surface first last => first < last ∧ last ≤ composing.surface.length

namespace DualIndexMap

/-- The list names every position once, and a range that starts at an item and ends inside the
text ends at positions of later items. -/
structure Ordered (map : DualIndexMap) (composing : ComposingText) (indices : List DualIndex) :
    Prop where
  inputs : ∀ input < composing.input.length, (indices.filterMap DualIndex.input?).count input = 1
  surfaces : ∀ surface < composing.surface.length,
    (indices.filterMap DualIndex.surface?).count surface = 1
  later : ∀ before item after, indices = before ++ item :: after →
    ∀ range : LatticeRange, range.startIndex ∈ item.starts → range.IsWithin composing →
      ¬EndsText composing (map.dual range.endIndex) →
        ∀ position ∈ (map.dual range.endIndex).starts, ∃ next ∈ after, position ∈ next.starts

/-- No boundary before the end of the input shares a surface position inside the text with an
earlier boundary, and none lies past the surface. -/
def Separated (composing : ComposingText) (tables : InputTableRegistry) : Prop :=
  ∀ input surface, (input, surface) ∈ composing.inputToSurfaceMap tables →
    input < composing.input.length → surface = composing.surface.length ∨
      surface < composing.surface.length ∧
        ∀ earlier < input, (earlier, surface) ∉ composing.inputToSurfaceMap tables

theorem mem_starts_input {index : DualIndex} {input : Nat} :
    .input input ∈ index.starts ↔ index.input? = some input := by
  cases index <;> simp [DualIndex.starts, DualIndex.input?, eq_comm]

theorem mem_starts_surface {index : DualIndex} {surface : Nat} :
    .surface surface ∈ index.starts ↔ index.surface? = some surface := by
  cases index <;> simp [DualIndex.starts, DualIndex.surface?, eq_comm]

theorem count_filterMap {indices : List DualIndex} {position? : DualIndex → Option Nat}
    (hordered : (indices.filterMap position?).Pairwise (· < ·)) {position : Nat}
    (h : ∃ item ∈ indices, position? item = some position) :
    (indices.filterMap position?).count position = 1 := by
  refine List.count_eq_one_of_mem (hordered.imp Nat.ne_of_lt) ?_
  obtain ⟨item, hin, hnamed⟩ := h
  exact List.mem_filterMap.mpr ⟨item, hin, hnamed⟩

section lined
variable {entries : List (Nat × Nat)} {inputCount surfaceCount : Nat}
  {before after : List DualIndex}
  {item : DualIndex}

theorem Lined.mem_after (h : Lined entries inputCount surfaceCount (before ++ item :: after))
    {next : DualIndex} (hin : next ∈ before ++ item :: after) (hne : next ≠ item)
    (hnot : ¬Precedes entries next item) : next ∈ after := by
  obtain hbefore | hcons := List.mem_append.mp hin
  · have hrel := (List.pairwise_append.mp h.ordered).2.2 next hbefore item List.mem_cons_self
    exact absurd hrel hnot
  · exact (List.mem_cons.mp hcons).resolve_left hne

theorem Lined.precedes (h : Lined entries inputCount surfaceCount (before ++ item :: after))
    {next : DualIndex} (hnext : next ∈ after) : Precedes entries item next :=
  (List.pairwise_cons.mp (List.pairwise_append.mp h.ordered).2.1).1 next hnext

end lined

theorem both_of_named {item : DualIndex} {input surface : Nat}
    (hinput : item.input? = some input) (hsurface : item.surface? = some surface) :
    item = .both input surface := by
  cases item with
  | input index => exact absurd hsurface (by simp [DualIndex.surface?])
  | surface index => exact absurd hinput (by simp [DualIndex.input?])
  | both first second =>
    cases hinput
    cases hsurface
    rfl

section ranges
variable {before after : List DualIndex} {item : DualIndex}
  (hlined : Lined (composing.inputToSurfaceMap tables) composing.input.length
    composing.surface.length (before ++ item :: after))
include hlined

theorem Lined.later_input {first last : Nat} (hseparated : Separated composing tables)
    (hfirst : item.input? = some first) (hlt : first < last)
    (hlast : last ≤ composing.input.length)
    (hinside : ¬EndsText composing ((new order composing tables).dual (.input last)))
    {position : LatticeIndex}
    (hposition : position ∈ ((new order composing tables).dual (.input last)).starts) :
    ∃ next ∈ after, position ∈ next.starts := by
  have hbelow : last < composing.input.length := by
    refine lt_of_le_of_ne hlast fun hend => hinside (.inr ?_)
    rw [dual_input, hend]
  cases position with
  | input input =>
    have hinput := mem_starts_input.mp hposition
    rw [dual_input] at hinput
    cases hinput
    obtain ⟨next, hin, hnamed⟩ := hlined.inputs last hbelow
    refine ⟨next, hlined.mem_after hin ?_ ?_, mem_starts_input.mpr hnamed⟩
    · rintro rfl
      rw [hfirst] at hnamed
      exact hlt.ne (Option.some.inj hnamed)
    · intro hprecedes
      exact absurd (hprecedes.inputs last first hnamed hfirst) hlt.not_gt
  | surface surface =>
    have hsurface := mem_starts_surface.mp hposition
    have hentry := dual_input_surface hlast hsurface
    obtain rfl | ⟨hin, hfree⟩ := hseparated last surface hentry hbelow
    · exact absurd (.inl hsurface) hinside
    · obtain ⟨next, hmem, hnamed⟩ := hlined.surfaces surface hin
      refine ⟨next, hlined.mem_after hmem ?_ ?_, mem_starts_surface.mpr hnamed⟩
      · rintro rfl
        have hboth := both_of_named hfirst hnamed
        exact hfree first hlt (hlined.paired first surface (by rw [← hboth]; exact hmem))
      · intro hprecedes
        -- the input position that brought `surface` in is mapped to it as well
        obtain ⟨⟨earlier, target⟩, htarget, hle, hreached⟩ :=
          hprecedes.reached surface first hnamed hfirst
        have hearlier : earlier < last := lt_of_le_of_lt hle hlt
        have hback := inputToSurfaceMap_monotone htarget hentry hearlier
        obtain rfl : target = surface := le_antisymm hback hreached
        exact hfree earlier hearlier htarget

theorem Lined.later_surface {first last : Nat} (hfirst : item.surface? = some first)
    (hlt : first < last) (hlast : last ≤ composing.surface.length)
    (hinside : ¬EndsText composing ((new order composing tables).dual (.surface last)))
    {position : LatticeIndex}
    (hposition : position ∈ ((new order composing tables).dual (.surface last)).starts) :
    ∃ next ∈ after, position ∈ next.starts := by
  have hbelow : last < composing.surface.length := by
    refine lt_of_le_of_ne hlast fun hend => hinside (.inl ?_)
    rw [dual_surface, hend]
  cases position with
  | surface surface =>
    have hsurface := mem_starts_surface.mp hposition
    rw [dual_surface] at hsurface
    cases hsurface
    obtain ⟨next, hin, hnamed⟩ := hlined.surfaces last hbelow
    refine ⟨next, hlined.mem_after hin ?_ ?_, mem_starts_surface.mpr hnamed⟩
    · rintro rfl
      rw [hfirst] at hnamed
      exact hlt.ne (Option.some.inj hnamed)
    · intro hprecedes
      exact absurd (hprecedes.surfaces last first hnamed hfirst) hlt.not_gt
  | input input =>
    have hinput := mem_starts_input.mp hposition
    have hentry := dual_surface_input hlast hinput
    have hin : input < composing.input.length := by
      refine lt_of_le_of_ne (le_of_mem_inputToSurfaceMap hentry) fun hend => hinside (.inr ?_)
      rw [hinput, hend]
    obtain ⟨next, hmem, hnamed⟩ := hlined.inputs input hin
    refine ⟨next, hlined.mem_after hmem ?_ ?_, mem_starts_input.mpr hnamed⟩
    · rintro rfl
      have hboth := both_of_named hnamed hfirst
      have hpaired := hlined.paired input first (by rw [← hboth]; exact hmem)
      exact hlt.ne (inputToSurfaceMap_functional hpaired hentry)
    · intro hprecedes
      exact absurd (hprecedes.mapped input last first hnamed hentry hfirst) hlt.not_gt

end ranges

/-- Every position is listed once. The order lets every path reach a position that is still to
come exactly where boundaries inside the text are mapped to positions of their own. -/
theorem indices_ordered_iff (order : HashOrder) (composing : ComposingText)
    (tables : InputTableRegistry) :
    (new order composing tables).Ordered composing
        ((new order composing tables).indices composing.input.length composing.surface.length) ↔
      Separated composing tables := by
  have hlined := lined_indices order composing tables
  generalize (new order composing tables).indices composing.input.length composing.surface.length =
    indices at hlined ⊢
  constructor
  · intro h input surface hentry hlt
    by_cases hend : surface = composing.surface.length
    · exact .inl hend
    have hdual := dual_input_of_mem order hlt.le hentry
    -- a range that ends at `input` is followed by an item that names `surface`
    have hlater : ∀ first < input, ∃ before item after, indices = before ++ item :: after ∧
        item.input? = some first ∧ ∃ next ∈ after, next.surface? = some surface := by
      intro first hfirst
      obtain ⟨item, hin, hnamed⟩ := hlined.inputs first (hfirst.trans hlt)
      obtain ⟨before, after, hsplit⟩ := List.append_of_mem hin
      obtain ⟨next, hnext, hposition⟩ := h.later before item after hsplit (.input first input)
        (mem_starts_input.mpr hnamed) ⟨hfirst, hlt.le⟩
        (by simp [EndsText, LatticeRange.endIndex, hdual, DualIndex.surface?,
          DualIndex.input?, hend,
          hlt.ne])
        (.surface surface) (by simp [LatticeRange.endIndex, hdual, DualIndex.starts])
      exact ⟨before, item, after, hsplit, hnamed, next, hnext, mem_starts_surface.mp hposition⟩
    refine .inr ⟨?_, ?_⟩
    · by_contra hpast
      have hpositive : 0 < input := by
        refine Nat.pos_of_ne_zero ?_
        rintro rfl
        have := inputToSurfaceMap_functional hentry (zero_mem_inputToSurfaceMap tables composing)
        omega
      obtain ⟨before, item, after, rfl, -, next, hnext, hnamed⟩ := hlater 0 hpositive
      have hin : next ∈ before ++ item :: after :=
        List.mem_append_right _ (List.mem_cons_of_mem _ hnext)
      exact (hlined.known next hin surface hnamed).elim hpast fun hno => hno input hentry
    · intro earlier hearlier hshared
      obtain ⟨before, item, after, rfl, hfirst, next, hnext, hnamed⟩ := hlater earlier hearlier
      exact absurd ((hlined.precedes hnext).mapped earlier surface surface hfirst hshared hnamed)
        (lt_irrefl _)
  · intro hseparated
    refine ⟨?_, ?_, ?_⟩
    · intro input hlt
      refine count_filterMap (List.pairwise_filterMap.mpr ?_) (hlined.inputs input hlt)
      exact hlined.ordered.imp fun hprecedes first hfirst next hnext =>
        hprecedes.inputs first next hfirst hnext
    · intro surface hlt
      refine count_filterMap (List.pairwise_filterMap.mpr ?_) (hlined.surfaces surface hlt)
      exact hlined.ordered.imp fun hprecedes first hfirst next hnext =>
        hprecedes.surfaces first next hfirst hnext
    · rintro before item after rfl (⟨first, last⟩ | ⟨first, last⟩) hstart ⟨hlt, hlast⟩ hinside
        position hposition
      · exact hlined.later_input hseparated (mem_starts_input.mp hstart) hlt hlast hinside hposition
      · exact hlined.later_surface (mem_starts_surface.mp hstart) hlt hlast hinside hposition

def separatedText : ComposingText :=
  ComposingText.new.insert endingTables
    [.character ['a'] .romanToKana, ⟨.compositionSeparator, .romanToKana⟩,
      .character ['i'] .romanToKana]

/-- The second and the third input position are both mapped to the second surface position, which
is listed with the second input position only. -/
theorem indices_hand_back : ¬∀ (unicode : UnicodeTable) (tables : InputTableRegistry)
    (composing : ComposingText) (order : HashOrder),
    ComposingText.Reachable unicode tables composing →
      (new order composing tables).Ordered composing
        ((new order composing tables).indices composing.input.length composing.surface.length) := by
  intro hall
  have hreach : ComposingText.Reachable .kana endingTables separatedText :=
    .edit (.insert _) .new trivial
  have hordered := hall .kana endingTables separatedText .identity hreach
  have hindices : (new .identity separatedText endingTables).indices separatedText.input.length
      separatedText.surface.length = [.both 0 0] ++ .both 1 1 :: [.input 2] := by
    decide +kernel
  have hdual : (new .identity separatedText endingTables).dual (.input 2) = .both 2 1 := by
    decide +kernel
  have hends : ¬EndsText separatedText (.both 2 1) := by decide +kernel
  obtain ⟨next, hnext, hposition⟩ := hordered.later _ _ _ hindices (.input 1 2) (by decide)
    ⟨by decide, by decide +kernel⟩ (by rw [LatticeRange.endIndex, hdual]; exact hends)
    (.surface 1) (by rw [LatticeRange.endIndex, hdual]; decide)
  obtain rfl := List.mem_singleton.mp hnext
  exact absurd hposition (by decide)

end DualIndexMap

end BeanKey.Lattice
