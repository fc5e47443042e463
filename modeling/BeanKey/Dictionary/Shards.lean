import BeanKey.Dictionary.Store

/-! Entries by the nodes of a tree: how the nodes are spread over the shards, and the dictionary of
the user, which is read whole. -/
namespace BeanKey.Dictionary
open BeanKey.Lattice Packing

def shardSize : Nat := 2 ^ shardShift

/-! ### The dictionary of the user -/

namespace Files
variable (format : FloatFormat) (files : Files)

def userShard (identifier : Text) (shard : Nat) : Except DictionaryError (Option Bytes) :=
  files.readOptional (identifier ++ (toString shard).toList ++ ".loudstxt3".toList)

/-- The loop over the shards, each with as many nodes as are left from its first one on. -/
def userShards (identifier : Text) (nodeCount : Nat) : List Nat →
    Except DictionaryError (List DictionaryEntry)
  | [] => .ok []
  | shard :: shards => do
    let binary ← files.userShard identifier shard
    let entries ← match binary with
      | none => pure []
      | some binary =>
        (parseEntryShard format binary
          (List.range (min (nodeCount - shard * shardSize) shardSize))).mapError .binary
    let output ← userShards identifier nodeCount shards
    return entries ++ output

def loadUserEntries (identifier : Text) : Except DictionaryError (List DictionaryEntry) := do
  let bits ← files.readOptional (identifier ++ ".louds".toList)
  let chars ← files.readOptional (identifier ++ ".loudschars2".toList)
  match bits, chars with
  | some bits, some chars =>
    let louds ← (Louds.parse bits chars).mapError .louds
    let output ← files.userShards format identifier louds.nodeCount
      (List.range ((louds.nodeCount + shardSize - 1) / shardSize))
    return output.map fun entry =>
      { entry with metadata := { entry.metadata with userDictionary := true } }
  | _, _ => return []

end Files

/-! ### Slots -/

def nodeSlot (node : Nat) : Nat × Nat := (node >>> shardShift, node &&& shardMask)

theorem nodeSlot_eq (node : Nat) : nodeSlot node = (node / shardSize, node % shardSize) := by
  rw [nodeSlot, shardSize, Nat.shiftRight_eq_div_pow, shardMask, Nat.and_two_pow_sub_one_eq_mod]

theorem nodeSlot_place {shard index : Nat} (h : index < shardSize) :
    nodeSlot (shard * shardSize + index) = (shard, index) := by
  have hpos : 0 < shardSize := by decide
  rw [nodeSlot_eq, Nat.add_comm, Nat.add_mul_div_right _ _ hpos, Nat.add_mul_mod_self_right,
    Nat.div_eq_of_lt h, Nat.mod_eq_of_lt h, Nat.zero_add]

def slots (shards : List (Nat × List Nat)) : List (Nat × Nat) :=
  shards.flatMap fun shard => shard.2.map fun index => (shard.1, index)

theorem slots_cons (shard : Nat) (indices : List Nat) (shards : List (Nat × List Nat)) :
    slots ((shard, indices) :: shards) = indices.map (fun index => (shard, index)) ++
      slots shards :=
  rfl

theorem slots_insertNode (shard index : Nat) (shards : List (Nat × List Nat)) :
    (slots (insertNode shard index shards)).Perm ((shard, index) :: slots shards) := by
  induction shards with
  | nil => simp [insertNode, slots]
  | cons first shards ih =>
    obtain ⟨other, indices⟩ := first
    rw [insertNode]
    split
    · simp [slots]
    · split
      · next hsame =>
        subst hsame
        simp only [slots, List.flatMap_cons, List.map_append, List.map_cons, List.map_nil,
          List.append_assoc]
        exact List.perm_middle
      · simp only [slots, List.flatMap_cons] at ih ⊢
        exact (ih.append_left _).trans List.perm_middle

/-- Every node is in its slot, once. -/
theorem slots_byShard (nodes : List Nat) : (slots (byShard nodes)).Perm (nodes.map nodeSlot) := by
  unfold byShard
  induction nodes using List.reverseRecOn with
  | nil => exact .refl _
  | append_singleton nodes node ih =>
    rw [List.foldl_append, List.map_append]
    exact (slots_insertNode _ _ _).trans ((ih.cons _).trans (List.perm_append_singleton _ _).symm)

/-! ### Shards, slot by slot -/

def slotEntries (format : FloatFormat) (binary : Bytes) (index : Nat) : List DictionaryEntry :=
  (parseEntryShard format binary [index]).toOption.getD []

theorem parseEntryShard_eq {format : FloatFormat} {binary : Bytes} {indices : List Nat}
    {entries : List DictionaryEntry} (h : parseEntryShard format binary indices = .ok entries) :
    entries = indices.flatMap (slotEntries format binary) ∧
      ∀ index ∈ indices, parseEntryShard format binary [index] =
        .ok (slotEntries format binary index) := by
  unfold parseEntryShard at h
  cases hcount : readU16 binary 0 "shard slot count" with
  | error error => simp [hcount, bind, Except.bind] at h
  | ok slotCount =>
    cases htable : requireBytes binary (2 + slotCount * 4) "shard offset table" with
    | error error => simp [hcount, htable, bind, Except.bind] at h
    | ok _ =>
      cases hlists : indices.mapM (parseEntrySlot format binary slotCount) with
      | error error => simp [hcount, htable, hlists, bind, Except.bind] at h
      | ok lists =>
        have hentries : lists.flatten = entries := by
          simpa [hcount, htable, hlists, bind, Except.bind, pure, Except.pure] using h
        have hone {index : Nat} {list : List DictionaryEntry}
            (hslot : parseEntrySlot format binary slotCount index = .ok list) :
            parseEntryShard format binary [index] = .ok list := by
          simp [parseEntryShard, hcount, htable, hslot, bind, Except.bind, pure, Except.pure]
        have hpairs := Loop.forall₂_of_mapM_ok hlists
        clear hlists h
        subst hentries
        induction hpairs with
        | nil => simp
        | @cons index list indices lists hslot _ ih =>
          have hhere : slotEntries format binary index = list := by
            rw [slotEntries, hone hslot]
            rfl
          refine ⟨by rw [List.flatten_cons, List.flatMap_cons, hhere, ih.1], ?_⟩
          intro other hother
          rcases List.mem_cons.mp hother with rfl | hin
          · rw [hone hslot, hhere]
          · exact ih.2 other hin

section
variable {format : FloatFormat} {files : Files} {identifier : Text}

def nodeEntries (format : FloatFormat) (files : Files) (identifier : Text) (node : Nat) :
    List DictionaryEntry :=
  (loadEntries format (files.loading format) identifier [node]).toOption.getD []

theorem parseShard_ok {binary : Bytes} {indices : List Nat} {entries : List DictionaryEntry} :
    parseShard format (files.loading format) binary indices = .ok entries ↔
      parseEntryShard format binary indices = .ok entries := by
  unfold parseShard
  cases parseEntryShard format binary indices with
  | ok found => simp [pure, Except.pure]
  | error error => simp [Files.loading]

theorem loadEntries_node {node : Nat} {binary : Bytes} {entries : List DictionaryEntry}
    (hbinary : files.loadShard (shardName identifier (nodeSlot node).1) = .ok binary)
    (hparse : parseEntryShard format binary [(nodeSlot node).2] = .ok entries) :
    loadEntries format (files.loading format) identifier [node] = .ok entries := by
  have hslot : byShard [node] = [((nodeSlot node).1, [(nodeSlot node).2])] := rfl
  have hshard : (files.loading format).loadShard (shardName identifier (nodeSlot node).1) =
      .ok binary := hbinary
  rw [loadEntries, hslot, loadShards, loadShards]
  simp [hshard, parseShard_ok.mpr hparse, bind, Except.bind, pure, Except.pure]

theorem loadShards_eq {shards : List (Nat × List Nat)} {entries : List DictionaryEntry}
    (h : loadShards format (files.loading format) identifier shards = .ok entries) :
    ∃ read : Nat × Nat → List DictionaryEntry, entries = (slots shards).flatMap read ∧
      ∀ node, nodeSlot node ∈ slots shards →
        loadEntries format (files.loading format) identifier [node] =
          .ok (read (nodeSlot node)) := by
  let read (slot : Nat × Nat) : List DictionaryEntry :=
    (files.loadShard (shardName identifier slot.1)).toOption.elim [] fun binary =>
      slotEntries format binary slot.2
  refine ⟨read, ?_⟩
  induction shards generalizing entries with
  | nil =>
    cases h
    exact ⟨rfl, by simp [slots]⟩
  | cons first shards ih =>
    obtain ⟨shard, indices⟩ := first
    rw [loadShards] at h
    cases hbinary : files.loadShard (shardName identifier shard) with
    | error error => simp [Files.loading, hbinary, bind, Except.bind] at h
    | ok binary =>
      have hshard : (files.loading format).loadShard (shardName identifier shard) = .ok binary :=
        hbinary
      cases hparse : parseShard format (files.loading format) binary indices with
      | error error => simp [hshard, hparse, bind, Except.bind] at h
      | ok here =>
        cases houtput : loadShards format (files.loading format) identifier shards with
        | error error => simp [hshard, hparse, houtput, bind, Except.bind] at h
        | ok output =>
          have hentries : here ++ output = entries := by
            simpa [hshard, hparse, houtput, bind, Except.bind, pure, Except.pure] using h
          obtain ⟨hhere, hslots⟩ := parseEntryShard_eq (parseShard_ok.mp hparse)
          obtain ⟨hrest, hlater⟩ := ih houtput
          have hread (index : Nat) : read (shard, index) = slotEntries format binary index := by
            simp [read, hbinary, Except.toOption]
          constructor
          · rw [← hentries, hhere, hrest, slots_cons, List.flatMap_append, List.flatMap_map]
            simp only [hread]
          · intro node hin
            rw [slots_cons, List.mem_append] at hin
            rcases hin with hin | hin
            · obtain ⟨index, hindex, hslot⟩ := List.mem_map.mp hin
              have hnode : nodeSlot node = (shard, index) := hslot.symm
              rw [hnode, hread]
              refine loadEntries_node (by rw [hnode]; exact hbinary) ?_
              rw [hnode]
              exact hslots index hindex
            · exact hlater node hin

/-- However the nodes are spread over the shards, what is loaded is the entries of each node,
once. -/
theorem loadEntries_perm {nodes : List Nat} {entries : List DictionaryEntry}
    (h : loadEntries format (files.loading format) identifier nodes = .ok entries) :
    entries.Perm (nodes.flatMap (nodeEntries format files identifier)) ∧
      ∀ node ∈ nodes, loadEntries format (files.loading format) identifier [node] =
        .ok (nodeEntries format files identifier node) := by
  obtain ⟨read, hentries, hread⟩ := loadShards_eq h
  have hperm := slots_byShard nodes
  have hnode (node : Nat) (hin : node ∈ nodes) :
      loadEntries format (files.loading format) identifier [node] = .ok (read (nodeSlot node)) :=
    hread node (hperm.mem_iff.mpr (List.mem_map_of_mem hin))
  have heach (node : Nat) (hin : node ∈ nodes) :
      nodeEntries format files identifier node = read (nodeSlot node) := by
    rw [nodeEntries, hnode node hin]
    rfl
  constructor
  · calc entries.Perm ((nodes.map nodeSlot).flatMap read) := hentries ▸ hperm.flatMap_right read
      _ |>.Perm (nodes.flatMap (nodeEntries format files identifier)) := by
        rw [List.flatMap_map, List.flatMap_congr heach]
  · intro node hin
    rw [hnode node hin, heach node hin]

end

/-! ### All the nodes of the user's tree -/

section
variable (format : FloatFormat) (files : Files) (identifier : Text)

/-- The entries of a slot of the user's dictionary; without its shard it has none. -/
def userSlotEntries (slot : Nat × Nat) : List DictionaryEntry :=
  match files.userShard identifier slot.1 with
  | .ok (some binary) => slotEntries format binary slot.2
  | _ => []

def userSlots (nodeCount : Nat) (shards : List Nat) : List (Nat × Nat) :=
  shards.flatMap fun shard =>
    (List.range (min (nodeCount - shard * shardSize) shardSize)).map fun index => (shard, index)

variable {format files identifier}

theorem userShards_eq {nodeCount : Nat} {shards : List Nat} {output : List DictionaryEntry}
    (h : files.userShards format identifier nodeCount shards = .ok output) :
    output = (userSlots nodeCount shards).flatMap (userSlotEntries format files identifier) := by
  induction shards generalizing output with
  | nil =>
    cases h
    rfl
  | cons shard shards ih =>
    rw [Files.userShards] at h
    rw [userSlots, List.flatMap_cons, List.flatMap_append, List.flatMap_map]
    -- Without a failure the rest of the loop gives what is behind the entries of this shard.
    have hjoin {here : List DictionaryEntry}
        (h : (do
          let output ← files.userShards format identifier nodeCount shards
          return here ++ output) = .ok output)
        (hhere : here = (List.range (min (nodeCount - shard * shardSize) shardSize)).flatMap
          fun index => userSlotEntries format files identifier (shard, index)) :
        output = (List.range (min (nodeCount - shard * shardSize) shardSize)).flatMap
            (fun index => userSlotEntries format files identifier (shard, index)) ++
          (userSlots nodeCount shards).flatMap (userSlotEntries format files identifier) := by
      cases hrest : files.userShards format identifier nodeCount shards with
      | error error =>
        rw [hrest] at h
        cases h
      | ok rest =>
        rw [hrest] at h
        cases h
        rw [hhere, ih hrest]
    cases hbinary : files.userShard identifier shard with
    | error error =>
      rw [hbinary] at h
      cases h
    | ok binary =>
      rw [hbinary] at h
      cases binary with
      | none => exact hjoin h (by simp [userSlotEntries, hbinary])
      | some binary =>
        cases hparse : parseEntryShard format binary
            (List.range (min (nodeCount - shard * shardSize) shardSize)) with
        | error error =>
          simp only [hparse, bind, Except.bind, Except.mapError] at h
          cases h
        | ok here =>
          simp only [hparse, bind, Except.bind, Except.mapError] at h
          refine hjoin h ?_
          rw [(parseEntryShard_eq hparse).1]
          simp only [userSlotEntries, hbinary]

/-- The shards have a slot for every node, in the order of the nodes. -/
theorem userSlots_range (nodeCount count : Nat) :
    userSlots nodeCount (List.range count) =
      (List.range (min nodeCount (count * shardSize))).map nodeSlot := by
  induction count with
  | zero => simp [userSlots]
  | succ count ih =>
    have hsplit : min nodeCount ((count + 1) * shardSize) =
        min nodeCount (count * shardSize) +
          min (nodeCount - count * shardSize) shardSize := by
      rw [Nat.succ_mul]
      omega
    rw [userSlots, List.range_succ, List.flatMap_append, ← userSlots, ih, hsplit, List.range_add,
      List.map_append, List.flatMap_singleton, List.map_map]
    congr 1
    apply List.map_congr_left
    intro index hindex
    rw [List.mem_range] at hindex
    have hwhole : min nodeCount (count * shardSize) = count * shardSize := by omega
    rw [Function.comp_apply, hwhole, nodeSlot_place (by omega)]

def asUser (entry : DictionaryEntry) : DictionaryEntry :=
  { entry with metadata := { entry.metadata with userDictionary := true } }

/-- The user's dictionary has the entries of all the nodes of its tree, in the order of the nodes,
and they are marked; a shard that is not there counts as empty. -/
theorem user_dictionary_complete {bits chars : Bytes} {louds : Louds}
    {entries : List DictionaryEntry}
    (hbits : files.readOptional (identifier ++ ".louds".toList) = .ok (some bits))
    (hchars : files.readOptional (identifier ++ ".loudschars2".toList) = .ok (some chars))
    (hparse : Louds.parse bits chars = .ok louds)
    (h : files.loadUserEntries format identifier = .ok entries) :
    entries = (List.range louds.nodeCount).flatMap fun node =>
      (userSlotEntries format files identifier (nodeSlot node)).map asUser := by
  rw [Files.loadUserEntries, hbits, hchars] at h
  cases houtput : files.userShards format identifier louds.nodeCount
      (List.range ((louds.nodeCount + shardSize - 1) / shardSize)) with
  | error error =>
    simp only [bind, Except.bind, hparse, Except.mapError, houtput] at h
    cases h
  | ok output =>
    simp only [bind, Except.bind, hparse, Except.mapError, houtput, pure, Except.pure,
      Except.ok.injEq] at h
    have hwhole : min louds.nodeCount
        ((louds.nodeCount + shardSize - 1) / shardSize * shardSize) = louds.nodeCount := by
      have hsize : shardSize = 2048 := rfl
      rw [hsize]
      omega
    rw [← h, userShards_eq houtput, userSlots_range, hwhole, List.flatMap_map, List.map_flatMap]
    rfl

theorem user_dictionary_complete_small :
    smallFiles.loadUserEntries zeroFormat "user".toList = .ok [asUser smallEntry] ∧
      [asUser smallEntry] = (List.range 3).flatMap fun node =>
        (userSlotEntries zeroFormat smallFiles "user".toList (nodeSlot node)).map asUser := by
  have hentries : smallFiles.loadUserEntries zeroFormat "user".toList =
      .ok [asUser smallEntry] := by
    decide +kernel
  have hparse : Louds.parse smallBits [0, 0, 0] = .ok ⟨[0, 0, 0], [(0, 0), (2, 3), (3, 3)]⟩ := by
    decide +kernel
  exact ⟨hentries, user_dictionary_complete (by decide +kernel) (by decide +kernel) hparse hentries⟩

end

end BeanKey.Dictionary
