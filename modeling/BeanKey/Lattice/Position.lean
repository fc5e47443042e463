import BeanKey.Lattice.Index

/-! The positions of a text that has not drifted: where the boundaries lie, what the
dual index of a position is, and the order the positions are visited in. -/
namespace BeanKey.Lattice
open Input
variable {tables : InputTableRegistry} {order : HashOrder} {composing : ComposingText}

/-! ### Boundaries -/

/-- What the entries of `input_to_surface_map` satisfy on a text whose surface is the
conversion of its input. -/
structure MapWithin (composing : ComposingText) (entries : List (Nat × Nat)) : Prop where
  input_le : ∀ entry ∈ entries, entry.1 ≤ composing.input.length
  surface_le : ∀ entry ∈ entries, entry.2 ≤ composing.surface.length
  last : ∀ entry ∈ entries, entry.1 = composing.input.length →
    entry.2 = composing.surface.length
  monotone : ∀ entry ∈ entries, ∀ entry' ∈ entries, entry.1 < entry'.1 → entry.2 ≤ entry'.2
  functional : ∀ entry ∈ entries, ∀ entry' ∈ entries, entry.1 = entry'.1 → entry = entry'

theorem mapWithin_identity {count : Nat} (hinput : composing.input.length = count)
    (hsurface : composing.surface.length = count) :
    MapWithin composing ((List.range (count + 1)).map fun index => (index, index)) := by
  have hmem : ∀ entry ∈ (List.range (count + 1)).map fun index => (index, index),
      entry.1 ≤ count ∧ entry.2 = entry.1 := by
    intro entry hentry
    obtain ⟨index, hindex, rfl⟩ := List.mem_map.mp hentry
    have := List.mem_range.mp hindex
    exact ⟨by simp only; omega, rfl⟩
  refine ⟨?_, ?_, ?_, ?_, ?_⟩
  · intro entry hentry
    have := hmem entry hentry
    omega
  · intro entry hentry
    have := hmem entry hentry
    omega
  · intro entry hentry hlast
    have := hmem entry hentry
    omega
  · intro entry hentry entry' hentry' hlt
    have := hmem entry hentry
    have := hmem entry' hentry'
    omega
  · intro entry hentry entry' hentry' heq
    have h := hmem entry hentry
    have h' := hmem entry' hentry'
    exact Prod.ext heq (by omega)

theorem pairwise_trichotomy {α : Type*} {r : α → α → Prop} {xs : List α} (h : xs.Pairwise r)
    {x y : α} (hx : x ∈ xs) (hy : y ∈ xs) : x = y ∨ r x y ∨ r y x := by
  induction xs with
  | nil => simp at hx
  | cons z xs ih =>
    obtain ⟨hz, hxs⟩ := List.pairwise_cons.mp h
    obtain hxz | hx := List.mem_cons.mp hx
    · obtain hyz | hy := List.mem_cons.mp hy
      · exact .inl (hxz.trans hyz.symm)
      · exact .inr (.inl (hxz ▸ hz y hy))
    · obtain hyz | hy := List.mem_cons.mp hy
      · exact .inr (.inr (hyz ▸ hz x hx))
      · exact ih hxs hx hy

theorem mapWithin_boundaries (h : composing.surface = convertElements tables composing.input) :
    MapWithin composing
      ((independentBoundaries tables composing.input).map
        fun pair => (pair.input, pair.surface)) := by
  have hinv := scan_invariant tables composing.input
  have hbelow : ∀ pair ∈ independentBoundaries tables composing.input,
      pair = ⟨composing.input.length, composing.surface.length⟩ ∨
        pair.input < composing.input.length ∧ pair.surface ≤ composing.surface.length := by
    intro pair hpair
    have htop : ⟨composing.input.length, composing.surface.length⟩ ∈
        independentBoundaries tables composing.input := by
      rw [h]
      exact List.mem_of_mem_head? hinv.top
    obtain heq | hlt | hgt := pairwise_trichotomy hinv.sorted hpair htop
    · exact .inl heq
    · have := hinv.within pair hpair
      exact absurd hlt.1 (by simp only; omega)
    · exact .inr hgt
  have hmem : ∀ entry ∈ (independentBoundaries tables composing.input).map
      fun pair => (pair.input, pair.surface),
      ∃ pair ∈ independentBoundaries tables composing.input,
        (pair.input, pair.surface) = entry := by
    intro entry hentry
    exact List.mem_map.mp hentry
  refine ⟨?_, ?_, ?_, ?_, ?_⟩
  · intro entry hentry
    obtain ⟨pair, hpair, rfl⟩ := hmem entry hentry
    exact hinv.within pair hpair
  · intro entry hentry
    obtain ⟨pair, hpair, rfl⟩ := hmem entry hentry
    obtain rfl | hlt := hbelow pair hpair
    · exact le_rfl
    · exact hlt.2
  · intro entry hentry hlast
    obtain ⟨pair, hpair, rfl⟩ := hmem entry hentry
    obtain rfl | hlt := hbelow pair hpair
    · rfl
    · exact absurd hlast hlt.1.ne
  · intro entry hentry entry' hentry' hlt
    obtain ⟨pair, hpair, rfl⟩ := hmem entry hentry
    obtain ⟨pair', hpair', rfl⟩ := hmem entry' hentry'
    obtain rfl | hgt | hless := pairwise_trichotomy hinv.sorted hpair hpair'
    · exact le_rfl
    · exact absurd hgt.1 (not_lt.mpr hlt.le)
    · exact hless.2
  · intro entry hentry entry' hentry' heq
    obtain ⟨pair, hpair, rfl⟩ := hmem entry hentry
    obtain ⟨pair', hpair', rfl⟩ := hmem entry' hentry'
    obtain rfl | hgt | hless := pairwise_trichotomy hinv.sorted hpair hpair'
    · rfl
    · exact absurd heq hgt.1.ne'
    · exact absurd heq hless.1.ne

theorem mapWithin (h : composing.surface = convertElements tables composing.input) :
    MapWithin composing (composing.inputToSurfaceMap tables) := by
  unfold ComposingText.inputToSurfaceMap
  by_cases hidentity : composing.hasIdentityMapping = true
  · rw [if_pos hidentity]
    have hcount : composing.input.length = composing.surface.length := by
      simp only [ComposingText.hasIdentityMapping, Bool.and_eq_true, decide_eq_true_eq] at hidentity
      exact hidentity.1
    rw [hcount]
    exact mapWithin_identity hcount rfl
  · rw [if_neg hidentity]
    exact mapWithin_boundaries h

/-! ### Dual indices -/

theorem mem_of_lookup {α β : Type*} [BEq α] [LawfulBEq α] {entries : List (α × β)} {key : α}
    {value : β} (h : entries.lookup key = some value) : (key, value) ∈ entries := by
  obtain ⟨before, after, rfl, -⟩ := List.lookup_eq_some_iff.mp h
  simp

namespace DualIndexMap

theorem dual_surface (index : Nat) :
    ((new order composing tables).dual (.surface index)).surface? = some index := by
  unfold dual
  split
  · rfl
  · simp only
    split <;> rfl

theorem dual_input (index : Nat) :
    ((new order composing tables).dual (.input index)).input? = some index := by
  unfold dual
  split
  · rfl
  · simp only
    split <;> rfl

/-- With the identity map both counts agree and every position maps to itself. -/
theorem identity_spec (h : (new order composing tables).identity = true) :
    composing.input.length = composing.surface.length ∧
      ∀ index ≤ composing.input.length, (index, index) ∈ composing.inputToSurfaceMap tables := by
  simp only [new, Bool.and_eq_true, decide_eq_true_eq, List.all_eq_true, List.mem_range] at h
  exact ⟨h.1, fun index hle => mem_of_lookup (h.2 index (by omega))⟩

theorem dual_surface_input_or {index input : Nat}
    (h : ((new order composing tables).dual (.surface index)).input? = some input) :
    ((new order composing tables).identity = true ∧ input = index) ∨
      (input, index) ∈ composing.inputToSurfaceMap tables := by
  unfold dual at h
  split at h
  · next hidentity => exact .inl ⟨hidentity, (Option.some.inj h).symm⟩
  · simp only at h
    split at h
    · next found hfound =>
      obtain rfl : found = input := Option.some.inj h
      obtain ⟨entry, hentry, heq⟩ := List.mem_map.mp (mem_of_lookup hfound)
      have hswap : entry = (found, index) := by rw [← Prod.swap_swap entry, heq]; rfl
      rw [hswap] at hentry
      exact .inr ((order.perm _ _).mem_iff.mp hentry)
    · exact absurd h (by simp [DualIndex.input?])

theorem dual_surface_input {index input : Nat} (hle : index ≤ composing.surface.length)
    (h : ((new order composing tables).dual (.surface index)).input? = some input) :
    (input, index) ∈ composing.inputToSurfaceMap tables := by
  obtain ⟨hidentity, rfl⟩ | hmem := dual_surface_input_or h
  · obtain ⟨hcount, hall⟩ := identity_spec hidentity
    exact hall input (by omega)
  · exact hmem

theorem dual_input_surface {index surface : Nat} (hle : index ≤ composing.input.length)
    (h : ((new order composing tables).dual (.input index)).surface? = some surface) :
    (index, surface) ∈ composing.inputToSurfaceMap tables := by
  unfold dual at h
  split at h
  · next hidentity =>
    obtain ⟨-, hmem⟩ := identity_spec hidentity
    obtain rfl : index = surface := Option.some.inj h
    exact hmem index hle
  · simp only at h
    split at h
    · next found hfound =>
      obtain rfl : found = surface := Option.some.inj h
      exact mem_of_lookup hfound
    · exact absurd h (by simp [DualIndex.surface?])

/-! ### The order of the positions -/

def indicesUpTo (map : DualIndexMap) (surfaceCount count : Nat) : List DualIndex × Nat :=
  (List.range count).foldl
    (fun (indices, surfacePointer) input =>
      let (added, surfacePointer) := map.indicesAt surfaceCount surfacePointer input
      (indices ++ added, surfacePointer)) (([] : List DualIndex), 0)

theorem indicesUpTo_succ (map : DualIndexMap) (surfaceCount count : Nat) :
    map.indicesUpTo surfaceCount (count + 1) =
      ((map.indicesUpTo surfaceCount count).1 ++
          (map.indicesAt surfaceCount (map.indicesUpTo surfaceCount count).2 count).1,
        (map.indicesAt surfaceCount (map.indicesUpTo surfaceCount count).2 count).2) := by
  simp [indicesUpTo, List.range_succ]

theorem indices_eq_upTo {map : DualIndexMap} (h : ¬map.identity = true)
    (inputCount surfaceCount : Nat) :
    map.indices inputCount surfaceCount = (map.indicesUpTo surfaceCount inputCount).1 ++
      (List.range' (map.indicesUpTo surfaceCount inputCount).2
        (surfaceCount - (map.indicesUpTo surfaceCount inputCount).2)).map .surface := by
  rw [indices, if_neg h]
  rfl

/-- The surface positions visited by the loop, and where its pointer stands. -/
structure VisitedUpTo (entries : List (Nat × Nat)) (surfaceCount count : Nat)
    (visited : List DualIndex × Nat) : Prop where
  surfaces : visited.1.filterMap DualIndex.surface? = List.range (min visited.2 surfaceCount)
  inputs : ∀ index ∈ visited.1, ∀ input, index.input? = some input → input < count
  pointer_le : visited.2 ≤ surfaceCount + 1
  pointer : visited.2 = 0 ∨ ∃ input < count, (input, visited.2 - 1) ∈ entries

theorem range_append_range' {start stop : Nat} (h : start ≤ stop) :
    List.range start ++ List.range' start (stop - start) = List.range stop := by
  have happend := List.range'_append_1 (s := 0) (m := start) (n := stop - start)
  rw [Nat.zero_add, Nat.add_sub_cancel' h] at happend
  rw [List.range_eq_range', List.range_eq_range', happend]

/-- Where a range is cut, the part before counts up to the cut. -/
theorem range_eq_append_cons {count here : Nat} {before after : List Nat}
    (h : List.range count = before ++ here :: after) :
    before = List.range here ∧ here < count := by
  have hlen := congrArg List.length h
  simp only [List.length_range, List.length_append, List.length_cons] at hlen
  have hhere : (List.range count)[before.length]? = some here := by
    rw [h, List.getElem?_append_right le_rfl, Nat.sub_self]
    rfl
  rw [List.getElem?_range (by omega)] at hhere
  have hlength : before.length = here := Option.some.inj hhere
  refine ⟨?_, by omega⟩
  have htake := congrArg (List.take before.length) h
  rw [List.take_left, List.take_range, hlength, Nat.min_eq_left (by omega)] at htake
  exact htake.symm

theorem range'_map_surface (start count : Nat) :
    ((List.range' start count).map DualIndex.surface).filterMap DualIndex.surface? =
      List.range' start count := by
  rw [List.filterMap_map]
  exact List.filterMap_some

theorem visitedUpTo (map : DualIndexMap) (surfaceCount count : Nat)
    (hle : ∀ entry ∈ map.inputToSurface, entry.2 ≤ surfaceCount)
    (hmonotone : ∀ entry ∈ map.inputToSurface, ∀ entry' ∈ map.inputToSurface,
      entry.1 < entry'.1 → entry.2 ≤ entry'.2) :
    VisitedUpTo map.inputToSurface surfaceCount count (map.indicesUpTo surfaceCount count) := by
  induction count with
  | zero => exact ⟨by simp [indicesUpTo], by simp [indicesUpTo], by simp [indicesUpTo], .inl rfl⟩
  | succ count ih =>
    rw [indicesUpTo_succ]
    generalize map.indicesUpTo surfaceCount count = visited at ih ⊢
    obtain ⟨hsurfaces, hinputs, hpointerLe, hpointer⟩ := ih
    unfold indicesAt
    cases hlookup : map.inputToSurface.lookup count with
    | none =>
      refine ⟨?_, ?_, hpointerLe, ?_⟩
      · simp only [List.filterMap_append]
        rw [hsurfaces]
        exact List.append_nil _
      · intro index hindex input hinput
        obtain hin | hnew := List.mem_append.mp hindex
        · exact (hinputs index hin input hinput).trans (Nat.lt_succ_self _)
        · obtain rfl : index = .input count := List.mem_singleton.mp hnew
          obtain rfl : count = input := Option.some.inj hinput
          exact Nat.lt_succ_self _
      · exact hpointer.imp id fun ⟨input, hlt, hmem⟩ =>
          ⟨input, hlt.trans (Nat.lt_succ_self _), hmem⟩
    | some surface =>
      have hentry := mem_of_lookup hlookup
      have hsurfaceLe : surface ≤ surfaceCount := hle _ hentry
      -- the pointer is at most one past the surface of an earlier input position
      have hpointerSurface : visited.2 ≤ surface + 1 := by
        obtain hzero | ⟨input, hlt, hmem⟩ := hpointer
        · omega
        · have := hmonotone _ hmem _ hentry hlt
          simp only at this
          omega
      refine ⟨?_, ?_, by simp only; omega, .inr ⟨count, Nat.lt_succ_self _, by simpa using hentry⟩⟩
      · simp only [List.filterMap_append]
        rw [hsurfaces, range'_map_surface]
        by_cases hboth : visited.2 ≤ surface ∧ surface < surfaceCount
        · rw [if_pos hboth, Nat.min_eq_left (by omega), Nat.min_eq_left (by omega)]
          have hlast : [DualIndex.both count surface].filterMap DualIndex.surface? =
              [surface] := rfl
          rw [hlast, ← List.append_assoc, range_append_range' hboth.1, ← List.range_succ]
        · rw [if_neg hboth]
          have hlast : [DualIndex.input count].filterMap DualIndex.surface? = [] := rfl
          rw [hlast, List.append_nil]
          by_cases hpast : visited.2 ≤ surface
          · obtain rfl : surface = surfaceCount := by omega
            rw [Nat.min_eq_left hpast, Nat.min_eq_right (Nat.le_succ _), range_append_range' hpast]
          · obtain hequal : visited.2 = surface + 1 := by omega
            rw [hequal, Nat.sub_eq_zero_of_le (Nat.le_succ _)]
            simp
      · intro index hindex input hinput
        obtain hin | hnew := List.mem_append.mp hindex
        · exact (hinputs index hin input hinput).trans (Nat.lt_succ_self _)
        · obtain hskipped | hhere := List.mem_append.mp hnew
          · obtain ⟨value, -, rfl⟩ := List.mem_map.mp hskipped
            exact absurd hinput (by simp [DualIndex.input?])
          · have heq := List.mem_singleton.mp hhere
            have hcount : index.input? = some count := by
              rw [heq]
              split <;> rfl
            obtain rfl : count = input := by simpa [hcount] using hinput
            exact Nat.lt_succ_self _

/-- Every surface position is visited once, in order, and no input position outside. -/
theorem indices_spec (order : HashOrder)
    (h : composing.surface = convertElements tables composing.input) :
    ((new order composing tables).indices composing.input.length composing.surface.length).filterMap
        DualIndex.surface? = List.range composing.surface.length ∧
      ∀ index ∈ (new order composing tables).indices composing.input.length
        composing.surface.length,
        ∀ input, index.input? = some input → input < composing.input.length := by
  have hwithin := mapWithin h
  by_cases hidentity : (new order composing tables).identity = true
  · obtain ⟨hcount, -⟩ := identity_spec hidentity
    rw [indices, if_pos hidentity, hcount, Nat.min_self]
    constructor
    · rw [List.filterMap_map]
      exact List.filterMap_some
    · intro index hindex input hinput
      obtain ⟨value, hvalue, rfl⟩ := List.mem_map.mp hindex
      obtain rfl : value = input := Option.some.inj hinput
      exact List.mem_range.mp hvalue
  · have hvisited := visitedUpTo (new order composing tables) composing.surface.length
      composing.input.length hwithin.surface_le hwithin.monotone
    rw [indices_eq_upTo hidentity]
    generalize (new order composing tables).indicesUpTo composing.surface.length
      composing.input.length = visited at hvisited ⊢
    constructor
    · rw [List.filterMap_append, hvisited.surfaces, range'_map_surface]
      by_cases hshort : visited.2 ≤ composing.surface.length
      · rw [Nat.min_eq_left hshort, range_append_range' hshort]
      · rw [Nat.min_eq_right (by omega), Nat.sub_eq_zero_of_le (by omega)]
        simp
    · intro index hindex input hinput
      obtain hin | hnew := List.mem_append.mp hindex
      · exact hvisited.inputs index hin input hinput
      · obtain ⟨value, -, rfl⟩ := List.mem_map.mp hnew
        exact absurd hinput (by simp [DualIndex.input?])

end DualIndexMap

end BeanKey.Lattice
