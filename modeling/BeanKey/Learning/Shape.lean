import BeanKey.Learning.Index
import Mathlib.Data.List.Perm.Basic

/-! Records of the same readings give the same encoded tree, whatever their number and order; only
the blocks differ. -/
namespace BeanKey.Learning
open BeanKey.Dictionary Packing
open BeanKey.LevelOrder (nextLevel levels levels_add forall₂_levels nextLevel_iterate_eq_nil)

variable {unicode : UnicodeTable} {characters : CharacterIdMap}
  {records others : List LearningRecord}

def HasReading (unicode : UnicodeTable) (characters : CharacterIdMap)
    (records : List LearningRecord)
    (ids : List UInt8) : Prop :=
  ∃ record ∈ records, characters.encode unicode record.entry.ruby = some ids

def SamePath (nodes others : List TrieNode) (node other : Nat) : Prop :=
  ∃ path, walk nodes 0 path = some node ∧ walk others 0 path = some other

structure SameShape (trie other : MemoryTrie) : Prop where
  tree : IsTree trie.nodes
  tree' : IsTree other.nodes
  paths : ∀ path, (walk trie.nodes 0 path).isSome ↔ (walk other.nodes 0 path).isSome

theorem sameShape_new (h : ∀ ids, HasReading unicode characters records ids ↔
    HasReading unicode characters others ids) :
    SameShape (.new unicode records characters) (.new unicode others characters) where
  tree := (indexes_new records).tree
  tree' := (indexes_new others).tree
  paths path := by
    have hreading : ∀ records : List LearningRecord, (∃ record ∈ records, ∃ ids,
        characters.encode unicode record.entry.ruby = some ids ∧ path <+: ids) ↔
          ∃ ids, HasReading unicode characters records ids ∧ path <+: ids := by
      intro records
      constructor
      · rintro ⟨record, hin, ids, hids, hleads⟩
        exact ⟨ids, ⟨record, hin, hids⟩, hleads⟩
      · rintro ⟨ids, ⟨record, hin, hids⟩, hleads⟩
        exact ⟨record, hin, ids, hids, hleads⟩
    rw [walk_new_isSome, walk_new_isSome, hreading, hreading]
    simp only [h]

namespace SameShape
variable {trie other : MemoryTrie} (h : SameShape trie other)
include h

theorem mem_children_iff {node node' : Nat} (hnodes : SamePath trie.nodes other.nodes node node')
    (character : UInt8) : character ∈ (trie.children node).map Prod.fst ↔
      character ∈ (other.children node').map Prod.fst := by
  obtain ⟨path, hwalk, hwalk'⟩ := hnodes
  have hmem : ∀ {trie : MemoryTrie} {node : Nat}, IsTree trie.nodes →
      walk trie.nodes 0 path = some node →
      (character ∈ (trie.children node).map Prod.fst ↔
        (walk trie.nodes 0 (path ++ [character])).isSome) := by
    intro trie node htree hnode
    constructor
    · intro hin
      obtain ⟨child, hchild, rfl⟩ := List.mem_map.mp hin
      exact Option.isSome_iff_exists.mpr ⟨child.2,
        htree.walk_concat.mpr ⟨node, hnode, MemoryTrie.edge_of_mem_children hchild⟩⟩
    · intro hsome
      obtain ⟨next, hnext⟩ := Option.isSome_iff_exists.mp hsome
      obtain ⟨parent, hparent, hedge⟩ := htree.walk_concat.mp hnext
      obtain rfl := Option.some.inj (hnode.symm.trans hparent)
      exact List.mem_map.mpr ⟨_, MemoryTrie.mem_children_of_edge hedge, rfl⟩
  rw [hmem h.tree hwalk, hmem h.tree' hwalk', h.paths]

/-- Nodes under the same characters have children under the same characters. -/
theorem children_related {node node' : Nat} (hnodes : SamePath trie.nodes other.nodes node node') :
    List.Forall₂ (fun child child' : UInt8 × Nat =>
      child.1 = child'.1 ∧ SamePath trie.nodes other.nodes child.2 child'.2)
      (trie.children node) (other.children node') := by
  have hkeys : (trie.children node).map Prod.fst = (other.children node').map Prod.fst := by
    refine List.Perm.eq_of_pairwise ?_ (MemoryTrie.children_sorted h.tree node)
      (MemoryTrie.children_sorted h.tree' node') ?_
    · intro first second _ _ hlt hgt
      exact absurd (UInt8.lt_trans hlt hgt) (UInt8.lt_irrefl _)
    · refine (List.perm_ext_iff_of_nodup ?_ ?_).mpr (h.mem_children_iff hnodes)
      · exact (MemoryTrie.children_sorted h.tree node).imp UInt8.ne_of_lt
      · exact (MemoryTrie.children_sorted h.tree' node').imp UInt8.ne_of_lt
  have hequal : List.Forall₂ (· = ·) ((trie.children node).map Prod.fst)
      ((other.children node').map Prod.fst) := by
    rw [List.forall₂_eq_eq_eq]
    exact hkeys
  have hpairs := List.forall₂_map_right_iff.mp (List.forall₂_map_left_iff.mp hequal)
  obtain ⟨path, hwalk, hwalk'⟩ := hnodes
  refine List.forall₂_iff_zip.mpr ⟨hpairs.length_eq, fun {child child'} hin => ?_⟩
  have hsame := (List.forall₂_iff_zip.mp hpairs).2 hin
  obtain ⟨hchild, hchild'⟩ := List.of_mem_zip hin
  refine ⟨hsame, path ++ [child.1], ?_, ?_⟩
  · exact h.tree.walk_concat.mpr ⟨node, hwalk, MemoryTrie.edge_of_mem_children hchild⟩
  · rw [hsame]
    exact h.tree'.walk_concat.mpr ⟨node', hwalk', MemoryTrie.edge_of_mem_children hchild'⟩

theorem ordered_related : List.Forall₂ (fun child child' : UInt8 × Nat =>
    child.1 = child'.1 ∧ SamePath trie.nodes other.nodes child.2 child'.2)
    trie.orderedChildren other.orderedChildren := by
  have hlonger : ∀ (trie : MemoryTrie) (more : Nat),
      trie.orderedChildren = levels trie.children (trie.nodes.length + more) (trie.children 0) :=
    fun trie more => (levels_add trie.children trie.levels_end more).symm
  rw [hlonger trie other.nodes.length, hlonger other trie.nodes.length,
    Nat.add_comm other.nodes.length]
  exact forall₂_levels trie.children h.children_related _ (h.children_related ⟨[], rfl, rfl⟩)

end SameShape

/-! ### The same tree, other blocks -/

theorem SameShape.encode_eq {trie other : MemoryTrie} (h : SameShape trie other) :
    trie.encode.louds = other.encode.louds ∧ trie.encode.characters = other.encode.characters := by
  have hrelated := h.ordered_related
  have hnodes : List.Forall₂ (SamePath trie.nodes other.nodes) trie.orderedNodes
      other.orderedNodes :=
    .cons ⟨[], rfl, rfl⟩ (List.forall₂_map_left_iff.mpr (List.forall₂_map_right_iff.mpr
      (hrelated.imp fun _ _ hpair => hpair.2)))
  have hunary : trie.orderedNodes.flatMap (unary trie.children) =
      other.orderedNodes.flatMap (unary other.children) := by
    rw [← List.forall₂_eq_eq_eq]
    refine List.rel_flatMap hnodes fun _ _ hpair => ?_
    rw [List.forall₂_eq_eq_eq, unary, unary, (h.children_related hpair).length_eq]
  have hkeys : trie.orderedChildren.map Prod.fst = other.orderedChildren.map Prod.fst := by
    rw [← List.forall₂_eq_eq_eq, List.forall₂_map_left_iff, List.forall₂_map_right_iff]
    exact hrelated.imp fun _ _ hpair => hpair.1
  rw [MemoryTrie.encode, MemoryTrie.encode, MemoryTrie.levelOrder_fields,
    MemoryTrie.levelOrder_fields, MemoryTrie.orderedNodes_flatMap, MemoryTrie.orderedNodes_flatMap]
  simp only [hunary, hkeys, and_self]

section
variable (h : ∀ ids, HasReading unicode characters records ids ↔
  HasReading unicode characters others ids)
include h

theorem new_louds_eq : (MemoryLouds.new unicode records characters).louds =
    (MemoryLouds.new unicode others characters).louds := by
  obtain ⟨hlouds, hcharacters⟩ := (sameShape_new h).encode_eq
  have hparse : Louds.parse _ _ = .ok (MemoryLouds.new unicode records characters).louds :=
    MemoryLouds.new_parse
  rw [hlouds, hcharacters, MemoryLouds.new_parse] at hparse
  exact (Except.ok.inj hparse).symm

/-- A node lists the records of one reading in both, or none. -/
theorem new_blocks_related (node : Nat) :
    (MemoryLouds.new unicode records characters).block node = [] ∧
        (MemoryLouds.new unicode others characters).block node = [] ∨
      ∃ ids, (MemoryLouds.new unicode records characters).block node =
          scan (fun record => characters.encode unicode record.entry.ruby = some ids) records ∧
        (MemoryLouds.new unicode others characters).block node =
          scan (fun record => characters.encode unicode record.entry.ruby = some ids) others := by
  have hshape := sameShape_new h
  have hindexes : Indexes unicode characters (.new unicode records characters) records :=
    indexes_new records
  have hindexes' : Indexes unicode characters (.new unicode others characters) others :=
    indexes_new others
  rw [MemoryLouds.block, MemoryLouds.block, MemoryLouds.new_blocks, MemoryLouds.new_blocks,
    MemoryTrie.encode, MemoryTrie.encode, MemoryTrie.levelOrder_fields,
      MemoryTrie.levelOrder_fields]
  cases node with
  | zero => exact .inl ⟨rfl, rfl⟩
  | succ node =>
    cases node with
    | zero => exact .inl ⟨rfl, rfl⟩
    | succ place =>
      have hrelated := hshape.ordered_related
      simp only [List.cons_append, List.nil_append, List.getElem?_cons_succ,
        List.getD_eq_getElem?_getD, List.getElem?_map]
      by_cases hlt : place < (MemoryTrie.new unicode records characters).orderedChildren.length
      · have hlt' := hrelated.length_eq ▸ hlt
        obtain ⟨-, path, hwalk, hwalk'⟩ := hrelated.get hlt hlt'
        refine .inr ⟨path, ?_, ?_⟩
        · rw [← hindexes.recordsAt, recordsAt, hwalk, List.getElem?_eq_getElem hlt]
          rfl
        · rw [← hindexes'.recordsAt, recordsAt, hwalk', List.getElem?_eq_getElem hlt']
          rfl
      · have hge' := hrelated.length_eq ▸ hlt
        rw [List.getElem?_eq_none (Nat.not_lt.mp hlt), List.getElem?_eq_none (Nat.not_lt.mp hge')]
        exact .inl ⟨rfl, rfl⟩

end

/-! ### Lookups by the nodes they visit -/

theorem lookupFrom_flatMap (child : Nat → UInt8 → Option Nat) (records below : Nat → List Nat)
    (kind : MatchKind) (node : Nat) (found ids : _) :
    lookupFrom child records (fun node => (below node).flatMap records) kind node
        (found.flatMap records) ids =
      (lookupFrom child (fun node => [node]) below kind node found ids).flatMap records := by
  induction ids generalizing node found with
  | nil => cases kind <;> simp [lookupFrom]
  | cons id rest ih =>
    rw [lookupFrom, lookupFrom]
    cases child node id with
    | none => rfl
    | some next =>
      have hfound : (if kind = .prefixes then found.flatMap records ++ records next
          else found.flatMap records) =
          (if kind = .prefixes then found ++ [next] else found).flatMap records := by
        split
        · rw [List.flatMap_append, List.flatMap_singleton]
        · rfl
      dsimp only
      rw [hfound, ih]

/-- The nodes of the encoded tree whose blocks a lookup collects. -/
def visited (louds : Louds) (ids : List UInt8) (kind : MatchKind) : List Nat :=
  lookupFrom louds.searchChild (fun node => [node])
    (fun _ => louds.descendants ids 700) kind 1 [] ids

theorem MemoryLouds.lookup_eq (index : MemoryLouds) (ids : List UInt8) (kind : MatchKind) :
    index.lookup ids kind = ((visited index.louds ids kind).flatMap index.block).mergeSort := by
  rw [visited, ← lookupFrom_flatMap]
  rfl

/-- Records that agree under `f`, reading by reading, are found alike by every lookup. -/
theorem lookup_related {α : Type} (f : LearningRecord → α)
    (h : ∀ ids, ((records.filter fun record =>
        characters.encode unicode record.entry.ruby = some ids).map f).Perm
      ((others.filter fun record =>
        characters.encode unicode record.entry.ruby = some ids).map f)) (ids : List UInt8)
    (kind : MatchKind) :
    ((((MemoryLouds.new unicode records characters).lookup ids kind).filterMap
        fun index => records[index]?).map f).Perm
      ((((MemoryLouds.new unicode others characters).lookup ids kind).filterMap
        fun index => others[index]?).map f) := by
  have hreadings : ∀ ids, HasReading unicode characters records ids ↔
      HasReading unicode characters others ids := by
    have hiff : ∀ (records : List LearningRecord) ids, HasReading unicode characters records ids ↔
        (records.filter fun record =>
          characters.encode unicode record.entry.ruby = some ids).map f ≠ [] := by
      intro records ids
      simp [HasReading, List.filter_eq_nil_iff]
    intro ids
    rw [hiff, hiff]
    exact not_congr ⟨fun hnil => (hnil ▸ h ids).nil_eq.symm, fun hnil => (hnil ▸ h ids).eq_nil⟩
  have hsorted : ∀ (records : List LearningRecord) (positions : List Nat),
      ((positions.mergeSort.filterMap fun index => records[index]?).map f).Perm
        ((positions.filterMap fun index => records[index]?).map f) := fun records positions =>
    ((List.mergeSort_perm positions _).filterMap _).map f
  rw [MemoryLouds.lookup_eq, MemoryLouds.lookup_eq]
  refine (hsorted _ _).trans (List.Perm.trans ?_ (hsorted _ _).symm)
  rw [new_louds_eq hreadings, List.filterMap_flatMap, List.filterMap_flatMap, List.map_flatMap,
    List.map_flatMap]
  refine List.Perm.flatMap_left _ fun node _ => ?_
  obtain ⟨hnone, hnone'⟩ | ⟨ids, hblock, hblock'⟩ := new_blocks_related hreadings node
  · rw [hnone, hnone']
    exact List.Perm.refl _
  · rw [hblock, hblock', filterMap_scan, filterMap_scan]
    exact h ids

end BeanKey.Learning
