import BeanKey.Text
import Mathlib.Data.Finset.Basic

/-! Input tables: the rules that turn typed keys into kana, and the rule that wins. -/
namespace BeanKey.Input

inductive InputModifier where
  | shift
  deriving DecidableEq, Repr

inductive InputPiece where
  | character (value : Grapheme)
  | compositionSeparator
  | key (intention : Option Grapheme) (input : Grapheme) (modifiers : Finset InputModifier)
  deriving DecidableEq

def InputPiece.displayed : InputPiece → Option Grapheme
  | .character value => some value
  | .compositionSeparator => none
  | .key intention input _ => some (intention.getD input)

inductive KeyElement where
  | piece (value : InputPiece)
  | any
  deriving DecidableEq

inductive ValueElement where
  | character (value : Grapheme)
  | any
  deriving DecidableEq

structure Mapping where
  key : List KeyElement
  value : List ValueElement
  deriving DecidableEq

/-- A later rule replaces the value of the rule with its key. -/
def insertMapping (mappings : List Mapping) (entry : Mapping) : List Mapping :=
  if entry.key ∈ mappings.map Mapping.key then
    mappings.map fun mapping => if mapping.key = entry.key then entry else mapping
  else mappings ++ [entry]

structure InputTable where
  mappings : List Mapping
  keys_nodup : (mappings.map Mapping.key).Nodup

theorem insertMapping_nodup (mappings : List Mapping) (entry : Mapping)
    (h : (mappings.map Mapping.key).Nodup) :
    ((insertMapping mappings entry).map Mapping.key).Nodup := by
  by_cases hk : entry.key ∈ mappings.map Mapping.key
  · have hkeys :
        (mappings.map fun mapping => if mapping.key = entry.key then entry else mapping).map
          Mapping.key = mappings.map Mapping.key := by
      rw [List.map_map]
      apply List.map_congr_left
      intro mapping _
      by_cases he : mapping.key = entry.key <;> simp [he]
    rwa [insertMapping, if_pos hk, hkeys]
  · rw [insertMapping, if_neg hk, List.map_append]
    refine List.nodup_append.mpr ⟨h, by simp, ?_⟩
    intro key hkey key' hkey' he
    obtain rfl : key' = entry.key := by simpa using hkey'
    exact hk (he ▸ hkey)

namespace InputTable

def empty : InputTable := ⟨[], by simp⟩

def new (entries : List Mapping) : InputTable where
  mappings := entries.foldl insertMapping []
  keys_nodup := by
    suffices h : ∀ mappings : List Mapping, (mappings.map Mapping.key).Nodup →
        ((entries.foldl insertMapping mappings).map Mapping.key).Nodup from h [] (by simp)
    induction entries with
    | nil => exact fun _ h => h
    | cons entry entries ih => exact fun _ h => ih _ (insertMapping_nodup _ entry h)

def maxKeyCount (table : InputTable) : Nat :=
  (table.mappings.map fun mapping => mapping.key.length).foldr max 0

end InputTable

theorem mem_new {entries : List Mapping} {rule : Mapping}
    (h : rule ∈ (InputTable.new entries).mappings) : rule ∈ entries := by
  induction entries using List.reverseRecOn generalizing rule with
  | nil => exact h
  | append_singleton entries entry ih =>
    change rule ∈ (entries ++ [entry]).foldl insertMapping [] at h
    rw [List.foldl_append, List.foldl_cons, List.foldl_nil, insertMapping] at h
    split at h
    · obtain ⟨old, hold, rfl⟩ := List.mem_map.mp h
      split
      · simp
      · exact List.mem_append_left _ (ih hold)
    · exact (List.mem_append.mp h).elim (fun hold => List.mem_append_left _ (ih hold))
        (List.mem_append_right _)

theorem mem_new_of_mem {entries : List Mapping} {entry : Mapping} (hin : entry ∈ entries)
    (honly : ∀ other ∈ entries, other.key = entry.key → other = entry) :
    entry ∈ (InputTable.new entries).mappings := by
  induction entries using List.reverseRecOn with
  | nil => exact absurd hin List.not_mem_nil
  | append_singleton entries next ih =>
    change entry ∈ (entries ++ [next]).foldl insertMapping []
    rw [List.foldl_append, List.foldl_cons, List.foldl_nil, insertMapping]
    have hnext : next.key = entry.key → next = entry := honly next (by simp)
    have hearlier : entry ∈ entries → entry ∈ (InputTable.new entries).mappings := fun hold =>
      ih hold fun other hother => honly other (List.mem_append_left _ hother)
    split
    · next hkey =>
      obtain ⟨old, hold, hsame⟩ := List.mem_map.mp hkey
      refine List.mem_map.mpr ?_
      cases List.mem_append.mp hin with
      | inl hentry =>
        refine ⟨entry, hearlier hentry, ?_⟩
        split
        · next heq => exact hnext heq.symm
        · rfl
      | inr hlast =>
        rw [List.mem_singleton.mp hlast]
        exact ⟨old, hold, if_pos hsame⟩
    · exact (List.mem_append.mp hin).elim (fun hentry => List.mem_append_left _ (hearlier hentry))
        (List.mem_append_right _)

structure Match where
  mappingIndex : Nat
  depth : Nat
  wildcardCount : Nat
  exactKeyCount : Nat
  resolvedWildcard : Option InputPiece

/-- The counters `match_mapping` carries from the last key element to the first. -/
structure MatchProgress where
  resolvedWildcard : Option InputPiece := none
  wildcardCount : Nat := 0
  exactKeyCount : Nat := 0

/-- The new count of exactly matched keys, or `none` where the pieces differ. -/
def pieceMatches (expected current : InputPiece) (exactKeyCount : Nat) : Option Nat :=
  match expected, current with
  | .character expected, current =>
    if current.displayed = some expected then some exactKeyCount else none
  | .compositionSeparator, .compositionSeparator => some exactKeyCount
  | .key _ expectedInput expectedModifiers, .key intention input modifiers =>
    if intention.getD input = expectedInput ∧ modifiers = expectedModifiers then
      some (exactKeyCount + 1)
    else none
  | _, _ => none

/-- What stands `depth` places back: the added piece, then the buffer from its end. -/
def currentPiece (buffer : List Grapheme) (added : InputPiece) (depth : Nat) : Option InputPiece :=
  if depth = 0 then some added
  else if depth ≤ buffer.length then (buffer[buffer.length - depth]?).map .character
  else none

def matchElement (expected : KeyElement) (current : InputPiece) (progress : MatchProgress) :
    Option MatchProgress :=
  match expected with
  | .any =>
    match progress.resolvedWildcard with
    | some previous =>
      if previous ≠ current then none
      else some { progress with wildcardCount := progress.wildcardCount + 1 }
    | none => some
        { progress with
          resolvedWildcard := some current
          wildcardCount := progress.wildcardCount + 1 }
  | .piece expected =>
    (pieceMatches expected current progress.exactKeyCount).map
      fun count => { progress with exactKeyCount := count }

/-- The loop of `match_mapping` over the key, its last element first. -/
def matchElements (buffer : List Grapheme) (added : InputPiece) :
    Nat → List KeyElement → MatchProgress → Option MatchProgress
  | _, [], progress => some progress
  | depth, expected :: rest, progress =>
    (currentPiece buffer added depth).bind fun current =>
      (matchElement expected current progress).bind (matchElements buffer added (depth + 1) rest)

def compareMatches (left right : Match) : Ordering :=
  (compare left.depth right.depth).then <|
    (compare right.wildcardCount left.wildcardCount).then <|
      (compare left.exactKeyCount right.exactKeyCount).then <|
        compare right.mappingIndex left.mappingIndex

/-- `Iterator::max_by`: of equal elements the last one stays. -/
def maxMatch : Option Match → List Match → Option Match
  | best, [] => best
  | none, m :: rest => maxMatch (some m) rest
  | some best, m :: rest =>
    maxMatch (some (if compareMatches best m = .gt then best else m)) rest

namespace InputTable

def matchMapping (table : InputTable) (buffer : List Grapheme) (added : InputPiece)
    (mapping : Mapping) (mappingIndex : Nat) : Option Match :=
  if mapping.key = [] ∨ table.maxKeyCount < mapping.key.length then none
  else
    (matchElements buffer added 0 mapping.key.reverse {}).map fun progress =>
      { mappingIndex
        depth := mapping.key.length
        wildcardCount := progress.wildcardCount
        exactKeyCount := progress.exactKeyCount
        resolvedWildcard := progress.resolvedWildcard }

def candidates (table : InputTable) (buffer : List Grapheme) (added : InputPiece) : List Match :=
  table.mappings.zipIdx.filterMap fun (mapping, index) =>
    table.matchMapping buffer added mapping index

def emit (table : InputTable) (best : Match) : List Grapheme :=
  match table.mappings[best.mappingIndex]? with
  | some mapping => mapping.value.filterMap fun element =>
      match element with
      | .character value => some value
      | .any => best.resolvedWildcard.bind InputPiece.displayed
  | none => []

/-- The buffer after a piece is typed, and how much of its end the rule consumed. -/
def apply (table : InputTable) (buffer : List Grapheme) (added : InputPiece) :
    List Grapheme × Nat :=
  match maxMatch none (table.candidates buffer added) with
  | some best =>
    let deleteCount := best.depth - 1
    (buffer.take (buffer.length - deleteCount) ++ table.emit best, deleteCount)
  | none => (buffer ++ added.displayed.toList, 0)

end InputTable

/-! ### A rule sees only the end of the buffer it consumes -/

theorem currentPiece_append (before buffer : List Grapheme) (added : InputPiece) (depth : Nat)
    (h : depth ≤ buffer.length) :
    currentPiece (before ++ buffer) added depth = currentPiece buffer added depth := by
  unfold currentPiece
  by_cases h0 : depth = 0
  · simp [h0]
  · have hle : depth ≤ (before ++ buffer).length := by rw [List.length_append]; omega
    have hidx : (before ++ buffer).length - depth = before.length + (buffer.length - depth) := by
      rw [List.length_append]; omega
    rw [if_neg h0, if_neg h0, if_pos hle, if_pos h, hidx,
      List.getElem?_append_right (Nat.le_add_right _ _), Nat.add_sub_cancel_left]

theorem matchElements_append (before buffer : List Grapheme) (added : InputPiece)
    (key : List KeyElement) (depth : Nat) (progress : MatchProgress)
    (h : depth + key.length ≤ buffer.length + 1) :
    matchElements (before ++ buffer) added depth key progress =
      matchElements buffer added depth key progress := by
  induction key generalizing depth progress with
  | nil => rfl
  | cons expected rest ih =>
    simp only [List.length_cons] at h
    simp only [matchElements, currentPiece_append before buffer added depth (by omega)]
    congr 1
    funext current
    congr 1
    funext next
    exact ih (depth + 1) next (by omega)

/-- A key longer than the buffer and the added piece together never matches. -/
theorem matchElements_depth (buffer : List Grapheme) (added : InputPiece)
    (key : List KeyElement) (depth : Nat) (progress progress' : MatchProgress)
    (hdepth : depth ≤ buffer.length + 1)
    (h : matchElements buffer added depth key progress = some progress') :
    depth + key.length ≤ buffer.length + 1 := by
  induction key generalizing depth progress with
  | nil => simpa using hdepth
  | cons expected rest ih =>
    simp only [matchElements, Option.bind_eq_some_iff] at h
    obtain ⟨current, hcurrent, next, -, hrest⟩ := h
    have hle : depth ≤ buffer.length := by
      unfold currentPiece at hcurrent
      by_cases h0 : depth = 0
      · omega
      · rw [if_neg h0] at hcurrent
        by_contra hgt
        rw [if_neg hgt] at hcurrent
        exact absurd hcurrent (by simp)
    have := ih (depth + 1) next (by omega) hrest
    simp only [List.length_cons]
    omega

theorem compareMatches_depth_le {left right : Match} (h : compareMatches left right ≠ .gt) :
    left.depth ≤ right.depth := by
  by_contra hlt
  have hgt : compare left.depth right.depth = .gt := Nat.compare_eq_gt.mpr (by omega)
  exact h (by simp [compareMatches, hgt, Ordering.then])

theorem compareMatches_gt_depth {left right : Match} (h : compareMatches left right = .gt) :
    right.depth ≤ left.depth := by
  by_contra hlt
  have hlt' : compare left.depth right.depth = .lt := Nat.compare_eq_lt.mpr (by omega)
  simp [compareMatches, hlt', Ordering.then] at h

theorem maxMatch_spec (best : Option Match) (rest : List Match) :
    (∀ r, maxMatch best rest = some r → (best = some r ∨ r ∈ rest) ∧
      (∀ b, best = some b → b.depth ≤ r.depth) ∧ ∀ m ∈ rest, m.depth ≤ r.depth) ∧
    (maxMatch best rest = none → best = none ∧ rest = []) := by
  induction rest generalizing best with
  | nil => cases best <;> simp [maxMatch]
  | cons m rest ih =>
    cases best with
    | none =>
      obtain ⟨hs, hn⟩ := ih (some m)
      refine ⟨fun r hr => ?_, fun h => absurd (hn h).1 (by simp)⟩
      obtain ⟨hmem, hbest, hrest⟩ := hs r hr
      refine ⟨.inr ?_, by simp, List.forall_mem_cons.mpr ⟨hbest m rfl, hrest⟩⟩
      rcases hmem with h | h
      · exact List.mem_cons.mpr (.inl (Option.some.inj h).symm)
      · exact List.mem_cons_of_mem m h
    | some b =>
      obtain ⟨hs, hn⟩ := ih (some (if compareMatches b m = .gt then b else m))
      refine ⟨fun r hr => ?_, fun h => absurd (hn h).1 (by simp)⟩
      obtain ⟨hmem, hbest, hrest⟩ := hs r hr
      by_cases hgt : compareMatches b m = .gt
      · rw [if_pos hgt] at hmem hbest
        have hb := hbest b rfl
        refine ⟨hmem.imp id (List.mem_cons_of_mem m), by simpa using hb, ?_⟩
        exact List.forall_mem_cons.mpr ⟨(compareMatches_gt_depth hgt).trans hb, hrest⟩
      · rw [if_neg hgt] at hmem hbest
        have hm := hbest m rfl
        refine ⟨.inr ?_, by simpa using (compareMatches_depth_le hgt).trans hm,
          List.forall_mem_cons.mpr ⟨hm, hrest⟩⟩
        rcases hmem with h | h
        · exact List.mem_cons.mpr (.inl (Option.some.inj h).symm)
        · exact List.mem_cons_of_mem m h

namespace InputTable
variable (table : InputTable)

theorem matchMapping_depth {buffer : List Grapheme} {added : InputPiece} {mapping : Mapping}
    {index : Nat} {m : Match} (h : table.matchMapping buffer added mapping index = some m) :
    m.depth = mapping.key.length ∧ mapping.key.length ≤ buffer.length + 1 := by
  unfold matchMapping at h
  split at h
  · exact absurd h (by simp)
  · obtain ⟨progress, hprogress, rfl⟩ := Option.map_eq_some_iff.mp h
    have := matchElements_depth buffer added _ 0 _ _ (by omega) hprogress
    refine ⟨rfl, ?_⟩
    simpa using this

theorem matchMapping_append (before buffer : List Grapheme) (added : InputPiece)
    (mapping : Mapping) (index : Nat) (h : mapping.key.length ≤ buffer.length + 1) :
    table.matchMapping (before ++ buffer) added mapping index =
      table.matchMapping buffer added mapping index := by
  unfold matchMapping
  rw [matchElements_append before buffer added _ 0 _ (by simpa using h)]

/-- Where every rule that matches the longer buffer fits the shorter one, the same
rules match both. -/
theorem candidates_append (before buffer : List Grapheme) (added : InputPiece)
    (h : ∀ m ∈ table.candidates (before ++ buffer) added, m.depth ≤ buffer.length + 1) :
    table.candidates (before ++ buffer) added = table.candidates buffer added := by
  apply List.filterMap_congr
  rintro ⟨mapping, index⟩ hmem
  by_cases hlen : mapping.key.length ≤ buffer.length + 1
  · exact table.matchMapping_append before buffer added mapping index hlen
  · have hshort : table.matchMapping buffer added mapping index = none := by
      by_contra hne
      obtain ⟨m, hm⟩ := Option.ne_none_iff_exists'.mp hne
      exact hlen (table.matchMapping_depth hm).2
    have hlong : table.matchMapping (before ++ buffer) added mapping index = none := by
      by_contra hne
      obtain ⟨m, hm⟩ := Option.ne_none_iff_exists'.mp hne
      have hdepth := h m (List.mem_filterMap.mpr ⟨(mapping, index), hmem, hm⟩)
      exact hlen ((table.matchMapping_depth hm).1 ▸ hdepth)
    exact hlong.trans hshort.symm

theorem apply_deleted_le (buffer : List Grapheme) (added : InputPiece) :
    (table.apply buffer added).2 ≤ buffer.length := by
  unfold apply
  split
  · next best hbest =>
    obtain ⟨hmem, -, -⟩ := (maxMatch_spec none _).1 best hbest
    rcases hmem with h | h
    · simp at h
    · obtain ⟨⟨mapping, index⟩, -, hm⟩ := List.mem_filterMap.mp h
      obtain ⟨hd, hl⟩ := table.matchMapping_depth hm
      simp only
      omega
  · simp

theorem apply_length (buffer : List Grapheme) (added : InputPiece) :
    buffer.length - (table.apply buffer added).2 ≤ (table.apply buffer added).1.length := by
  unfold apply
  split
  · simp only [List.length_append, List.length_take]
    omega
  · simp

/-- A piece that consumes no more than `buffer` acts on `before ++ buffer` as on
`buffer` alone. -/
theorem apply_append (before buffer : List Grapheme) (added : InputPiece)
    (h : (table.apply (before ++ buffer) added).2 ≤ buffer.length) :
    table.apply (before ++ buffer) added =
      (before ++ (table.apply buffer added).1, (table.apply buffer added).2) := by
  have hspec := maxMatch_spec none (table.candidates (before ++ buffer) added)
  have hsame : table.candidates (before ++ buffer) added = table.candidates buffer added := by
    apply table.candidates_append
    intro m hm
    cases hbest : maxMatch none (table.candidates (before ++ buffer) added) with
    | none => simp [(hspec.2 hbest).2] at hm
    | some best =>
      have hle := (hspec.1 best hbest).2.2 m hm
      simp only [apply, hbest] at h
      omega
  unfold apply at h ⊢
  rw [hsame] at h ⊢
  split at h
  · next best hbest =>
    simp only at h
    have hlen : (before ++ buffer).length - (best.depth - 1) =
        before.length + (buffer.length - (best.depth - 1)) := by
      rw [List.length_append]; omega
    simp only [hlen, List.take_length_add_append, List.append_assoc]
  · simp

@[simp] theorem empty_apply (buffer : List Grapheme) (added : InputPiece) :
    empty.apply buffer added = (buffer ++ added.displayed.toList, 0) := rfl

end InputTable

end BeanKey.Input
