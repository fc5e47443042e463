import BeanKey.Dictionary.Shards

/-! The entries behind a prefix: which nodes the bounds on depth and count let the enumeration
find. -/
namespace BeanKey.Dictionary
open BeanKey.Lattice Packing
open BeanKey.Descent (offspring Leads)

namespace Louds

/-- The loop adds to what it has; below the limit it has added all that there is below the
children. -/
theorem extendWalk_all {visit : Nat → Nat → Option Walk} {below : Nat → List Nat} {maxCount : Nat}
    {children : List Nat} {walk ended : Walk}
    (hvisit : ∀ child ∈ children, ∀ count found, visit child count = some found →
      found.output.Sublist (below child) ∧
        (found.output.length ≤ count → found.output = below child))
    (h : extendWalk visit maxCount children walk = some ended) :
    walk.output <+: ended.output ∧ ended.output.Sublist (walk.output ++ children.flatMap below) ∧
      (ended.output.length ≤ maxCount → ended.output = walk.output ++ children.flatMap below) := by
  induction children generalizing walk with
  | nil =>
    cases h
    simp
  | cons child children ih =>
    rw [extendWalk] at h
    by_cases hstop : maxCount < walk.output.length
    · rw [if_pos hstop] at h
      cases h
      exact ⟨List.prefix_rfl, List.sublist_append_left _ _, fun hle => absurd hle (by omega)⟩
    · rw [if_neg hstop] at h
      obtain ⟨found, hfound, hrest⟩ := Option.bind_eq_some_iff.mp h
      obtain ⟨hsublist, hall⟩ := hvisit child List.mem_cons_self _ found hfound
      obtain ⟨hstarts, hended, hwhole⟩ :=
        ih (fun other hin => hvisit other (List.mem_cons_of_mem _ hin)) hrest
      rw [List.append_assoc] at hended hwhole
      rw [List.flatMap_cons]
      refine ⟨(List.prefix_append _ _).trans hstarts,
        hended.trans ((hsublist.append_right _).append_left _), fun hle => ?_⟩
      have hlength := hstarts.length_le
      rw [List.length_append] at hlength
      rw [hwhole hle, hall (by omega)]

/-- An enumeration that stays below its limit lists all nodes down to its depth. -/
theorem ParsedAs.walkFrom_all {louds : Louds} {nodeIds : List UInt8} {zeros : List Nat}
    (h : louds.ParsedAs nodeIds zeros) {maxDepth fuel depth parent maxCount : Nat} {walk : Walk}
    (hreached : louds.Reachable parent) (hdepth : depth ≤ maxDepth)
    (hwalk : louds.walkFrom maxDepth fuel depth parent maxCount = some walk) :
    walk.output.Sublist (offspring louds.laterChildren (maxDepth - depth + 1) parent) ∧
      (walk.output.length ≤ maxCount →
        walk.output = offspring louds.laterChildren (maxDepth - depth + 1) parent) := by
  induction fuel generalizing depth parent maxCount walk with
  | zero => cases hwalk
  | succ fuel ih =>
    rw [walkFrom] at hwalk
    rw [offspring, h.laterChildren_eq hreached]
    by_cases hend : depth = maxDepth
    · rw [if_pos hend] at hwalk
      cases hwalk
      simp [hend, offspring]
    · rw [if_neg hend] at hwalk
      have hstep : maxDepth - depth = maxDepth - (depth + 1) + 1 := by omega
      rw [hstep]
      exact (extendWalk_all (fun child hin count found hfound =>
        ih (.child hreached hin) (by omega) hfound) hwalk).2

end Louds

section
variable {louds : Louds} {ids : List UInt8} {root : Nat}

theorem descendantsWithin_all {bits chars : Bytes} (hparse : Louds.parse bits chars = .ok louds)
    (hsearch : louds.search ids = some root) (maximumDepth maximumCount : Nat) :
    (descendantsWithin louds ids maximumDepth maximumCount).Sublist
        (offspring louds.laterChildren (maximumDepth + 1) root) ∧
      ((descendantsWithin louds ids maximumDepth maximumCount).length ≤ maximumCount →
        descendantsWithin louds ids maximumDepth maximumCount =
          offspring louds.laterChildren (maximumDepth + 1) root) := by
  have hparsed := Louds.parse_parsedAs hparse
  have hreached : louds.Reachable root := by
    have hpath := (hparsed.searchPath_increasing .root ids).2
    exact (hpath root (List.mem_of_getLast? (Louds.searchPath_getLast? hsearch))).1
  obtain ⟨walk, hwalk, -⟩ := hparsed.walkFrom_ends maximumDepth 0 maximumCount hreached
    (Nat.succ_pos louds.nodeCount) (by omega)
  rw [descendantsWithin, hsearch]
  simp only [hwalk]
  exact hparsed.walkFrom_all hreached (Nat.zero_le maximumDepth) hwalk

end

section
variable {unicode : UnicodeTable} {format : FloatFormat} {characterIds : CharacterIdMap}
  {files : Files}

theorem Files.loadLouds_parse {identifier : Text} {louds : Louds}
    (h : files.loadLouds identifier = .ok (some louds)) :
    ∃ bits chars, Louds.parse bits chars = .ok louds := by
  rw [Files.loadLouds] at h
  generalize files.readOptional
    ("louds/".toList ++ escapedIdentifier identifier ++ ".louds".toList) = bits at h
  generalize files.readOptional
    ("louds/".toList ++ escapedIdentifier identifier ++ ".loudschars2".toList) = chars at h
  rcases bits with _ | _ | bits <;> rcases chars with _ | _ | chars <;>
    simp only [bind, Except.bind, pure, Except.pure, reduceCtorEq, Except.ok.injEq] at h
  refine ⟨bits, chars, ?_⟩
  cases hparse : Louds.parse bits chars with
  | error error => simp [hparse, Except.mapError, Except.map] at h
  | ok parsed =>
    rw [hparse] at h
    simpa [Except.mapError, Except.map] using h

/-- What is loaded for a prefix is the entries of nodes behind the prefix, as far down as one level
below the depth, and of each node once; where these are no more than the count, of all such
nodes. -/
theorem prefix_entries {ruby : Text} {identifier : Grapheme} {ids : List UInt8} {louds : Louds}
    {root maximumDepth maximumCount : Nat} {entries : List DictionaryEntry}
    (hkey : lookupKey unicode characterIds ruby = some (identifier, ids))
    (hlouds : files.loadLouds identifier = .ok (some louds))
    (hsearch : louds.search ids = some root)
    (h : entriesAfterPrefix unicode format characterIds (files.loading format) ruby maximumDepth
      maximumCount = .ok entries) :
    ∃ nodes : List Nat, nodes.Nodup ∧
      entries.Perm (nodes.flatMap (nodeEntries format files identifier)) ∧
      (∀ node ∈ nodes, ∃ path, path ≠ [] ∧ path.length ≤ maximumDepth + 1 ∧
        Leads louds.laterChildren root path node) ∧
      (nodes.length ≤ maximumCount → ∀ path node, path ≠ [] → path.length ≤ maximumDepth + 1 →
        Leads louds.laterChildren root path node → node ∈ nodes) := by
  obtain ⟨bits, chars, hparse⟩ := Files.loadLouds_parse hlouds
  have hparsed := Louds.parse_parsedAs hparse
  have hloading : (files.loading format).loadLouds identifier = .ok (some louds) := hlouds
  rw [entriesAfterPrefix, hkey] at h
  simp only [hloading, bind, Except.bind] at h
  obtain ⟨hsublist, hall⟩ := descendantsWithin_all hparse hsearch maximumDepth maximumCount
  refine ⟨descendantsWithin louds ids maximumDepth maximumCount,
    (hparsed.offspring_nodup _ root).sublist hsublist, (loadEntries_perm h).1, ?_, ?_⟩
  · exact fun node hin => Descent.mem_offspring.mp (hsublist.subset hin)
  · intro hle path node hne hlength hleads
    rw [hall hle]
    exact Descent.mem_offspring.mpr ⟨path, hne, hlength, hleads⟩

def chainBits : Bytes := encodeLouds [true, false, true, false, true, false, false]

def chainShard : Bytes :=
  [4, 0, 18, 0, 0, 0, 20, 0, 0, 0, 22, 0, 0, 0, 24, 0, 0, 0] ++ [0, 0, 0, 0, 0, 0] ++
    [1, 0, 5, 0, 5, 0, 1, 0, 0, 0, 0, 0] ++ utf8 ['ア', 'ア', '\t']

def chainFiles : Files := fun path =>
  if path = "louds/[30A2].louds".toList then .content chainBits
  else if path = "louds/[30A2].loudschars2".toList then .content [0, 0, 0, 0]
  else if path = "louds/[30A2]0.loudstxt3".toList then .content chainShard
  else .notFound

def chainTree : Louds := ⟨[0, 0, 0, 0], [(0, 0), (2, 3), (3, 4), (4, 4)]⟩

theorem prefix_entries_chain : ∃ nodes : List Nat, nodes.Nodup ∧
    [{ smallEntry with word := ['ア', 'ア'], ruby := ['ア', 'ア'] }].Perm
      (nodes.flatMap (nodeEntries zeroFormat chainFiles ['ア'])) ∧
    (∀ node ∈ nodes, ∃ path, path ≠ [] ∧ path.length ≤ 3 + 1 ∧
      Leads chainTree.laterChildren 2 path node) ∧
    (nodes.length ≤ 700 → ∀ path node, path ≠ [] → path.length ≤ 3 + 1 →
      Leads chainTree.laterChildren 2 path node → node ∈ nodes) :=
  @prefix_entries .kana zeroFormat smallIds chainFiles ['ア'] ['ア'] [0] chainTree 2 3 700 _
    (by decide +kernel) (by decide +kernel) (by decide +kernel) (by decide +kernel)

end

end BeanKey.Dictionary
