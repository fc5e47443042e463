import BeanKey.Learning.TrieSearch

/-! The two reading indexes of the store: the trie of the temporary layer and the encoded tree
of the persisted one. An exact lookup in either finds what a scan of the records finds. -/
namespace BeanKey.Learning
open BeanKey.Dictionary Packing

inductive MatchKind where
  | exact
  | prefixes
  | completions
  deriving DecidableEq

/-- The walk of both indexes along the characters, by the step to a child, the positions a
node lists and those a completion adds at the last node. -/
def lookupFrom (child : Nat → UInt8 → Option Nat) (records below : Nat → List Nat)
    (kind : MatchKind) : Nat → List Nat → List UInt8 → List Nat
  | node, found, [] =>
    match kind with
    | .exact => found ++ records node
    | .completions => found ++ below node
    | .prefixes => found
  | node, found, id :: rest =>
    match child node id with
    | none => found
    | some next =>
      lookupFrom child records below kind next
        (if kind = .prefixes then found ++ records next else found) rest

namespace MemoryTrie

def pendingRecords (trie : MemoryTrie) : Nat → List Nat → List Nat
  | 0, _ => []
  | _ + 1, [] => []
  | fuel + 1, node :: pending =>
    (trie.node node).records ++
      pendingRecords trie fuel (((trie.children node).map Prod.snd).reverse ++ pending)

def below (trie : MemoryTrie) (node : Nat) : List Nat :=
  trie.pendingRecords trie.nodes.length [node]

def lookup (trie : MemoryTrie) (ids : List UInt8) (kind : MatchKind) : List Nat :=
  (lookupFrom (fun node id => (trie.node node).child id) (fun node => (trie.node node).records)
    trie.below kind 0 [] ids).mergeSort

end MemoryTrie

structure MemoryLouds where
  louds : Louds
  blocks : List (List Nat)

namespace MemoryLouds

/-- The encoder's tree always parses. -/
def new (unicode : UnicodeTable) (records : List LearningRecord) (characters : CharacterIdMap) :
    MemoryLouds :=
  match h : Louds.parse (MemoryTrie.new unicode records characters).encode.louds
      (MemoryTrie.new unicode records characters).encode.characters with
  | .ok louds => ⟨louds, (MemoryTrie.new unicode records characters).encode.blocks⟩
  | .error _ => absurd (MemoryTrie.new unicode records characters).encode_parses (by simp [h])

def block (index : MemoryLouds) (node : Nat) : List Nat := index.blocks.getD node []

/-- A completion visits 700 nodes of the encoded tree and leaves out the exact one. -/
def lookup (index : MemoryLouds) (ids : List UInt8) (kind : MatchKind) : List Nat :=
  (lookupFrom index.louds.searchChild index.block
    (fun _ => (index.louds.descendants ids 700).flatMap index.block) kind 1 [] ids).mergeSort

end MemoryLouds

/-! ### Positions in bounds -/

theorem lookupFrom_lt {child : Nat → UInt8 → Option Nat} {records below : Nat → List Nat}
    {kind : MatchKind} {bound : Nat}
    (hrecords : ∀ node, ∀ position ∈ records node, position < bound)
    (hbelow : ∀ node, ∀ position ∈ below node, position < bound) {node : Nat} {found : List Nat}
    (hfound : ∀ position ∈ found, position < bound) (ids : List UInt8) :
    ∀ position ∈ lookupFrom child records below kind node found ids, position < bound := by
  have happend : ∀ {others : List Nat}, (∀ position ∈ others, position < bound) →
      ∀ position ∈ found ++ others, position < bound := by
    intro others hothers position hin
    cases List.mem_append.mp hin with
    | inl hold => exact hfound position hold
    | inr hnew => exact hothers position hnew
  induction ids generalizing node found with
  | nil =>
    cases kind with
    | exact => exact happend (hrecords node)
    | prefixes => exact hfound
    | completions => exact happend (hbelow node)
  | cons id rest ih =>
    rw [lookupFrom]
    cases child node id with
    | none => exact hfound
    | some next =>
      have hnext : ∀ position ∈ if kind = .prefixes then found ++ records next else found,
          position < bound := by
        split
        · exact happend (hrecords next)
        · exact hfound
      refine ih hnext ?_
      intro others hothers position hin
      cases List.mem_append.mp hin with
      | inl hold => exact hnext position hold
      | inr hnew => exact hothers position hnew

theorem MemoryTrie.lookup_lt {trie : MemoryTrie} {bound : Nat}
    (h : MemoryTrie.RecordsBelow bound trie.nodes) (ids : List UInt8) (kind : MatchKind) :
    ∀ position ∈ trie.lookup ids kind, position < bound := by
  have hnode := fun node => MemoryTrie.node_recordsBelow h node
  have hpending : ∀ fuel pending, ∀ position ∈ trie.pendingRecords fuel pending,
      position < bound := by
    intro fuel
    induction fuel with
    | zero => exact fun _ _ hin => absurd hin List.not_mem_nil
    | succ fuel ih =>
      intro pending position hin
      cases pending with
      | nil => exact absurd hin List.not_mem_nil
      | cons node pending =>
        cases List.mem_append.mp hin with
        | inl hown => exact hnode node position hown
        | inr hrest => exact ih _ position hrest
  intro position hin
  exact lookupFrom_lt hnode (fun node => hpending _ [node])
    (fun _ hin => absurd hin List.not_mem_nil)
    ids position (List.mem_mergeSort.mp hin)

theorem MemoryLouds.lookup_lt {index : MemoryLouds} {bound : Nat}
    (h : ∀ block ∈ index.blocks, ∀ position ∈ block, position < bound) (ids : List UInt8)
    (kind : MatchKind) : ∀ position ∈ index.lookup ids kind, position < bound := by
  have hblock : ∀ node, ∀ position ∈ index.block node, position < bound := by
    intro node position hin
    rw [MemoryLouds.block, List.getD_eq_getElem?_getD] at hin
    cases hfound : index.blocks[node]? with
    | none =>
      rw [hfound] at hin
      exact absurd hin List.not_mem_nil
    | some block =>
      rw [hfound] at hin
      exact h block (List.mem_of_getElem? hfound) position hin
  intro position hin
  refine lookupFrom_lt hblock ?_ (fun _ hin => absurd hin List.not_mem_nil) ids position
    (List.mem_mergeSort.mp hin)
  intro _ other hother
  obtain ⟨node, -, hnode⟩ := List.mem_flatMap.mp hother
  exact hblock node other hnode

/-! ### Exact lookups -/

theorem lookupFrom_exact (child : Nat → UInt8 → Option Nat) (records below : Nat → List Nat)
    (node : Nat) (ids : List UInt8) :
    lookupFrom child records below .exact node [] ids =
      ((ids.foldlM child node).map records).getD [] := by
  induction ids generalizing node with
  | nil => rfl
  | cons id rest ih =>
    rw [lookupFrom, List.foldlM_cons]
    cases child node id with
    | none => rfl
    | some next => exact ih next

theorem mergeSort_scan (p : LearningRecord → Bool) (records : List LearningRecord) :
    (scan p records).mergeSort = scan p records :=
  List.mergeSort_of_pairwise ((scan_sorted p records).imp fun hlt => by
    simpa using Nat.le_of_lt hlt)

theorem MemoryTrie.node_child (trie : MemoryTrie) (node : Nat) (id : UInt8) :
    (trie.node node).child id = trie.nodes[node]?.bind (·.child id) := by
  rw [MemoryTrie.node, List.getD_eq_getElem?_getD]
  cases trie.nodes[node]? <;> rfl

section
variable {unicode : UnicodeTable} {characters : CharacterIdMap} {records : List LearningRecord}

theorem Indexes.lookup_exact {trie : MemoryTrie} (h : Indexes unicode characters trie records)
    (ids : List UInt8) : trie.lookup ids .exact =
      scan (fun record => characters.encode unicode record.entry.ruby = some ids) records := by
  rw [MemoryTrie.lookup, lookupFrom_exact]
  simp only [MemoryTrie.node_child]
  change (Learning.recordsAt trie.nodes ids).mergeSort = _
  rw [h.recordsAt, mergeSort_scan]

end

/-! ### The encoded tree -/

namespace MemoryTrie
open BeanKey.LevelOrder (nextLevel levels levels_unfold nextLevel_iterate_eq_nil childCount)

def orderedChildren (trie : MemoryTrie) : List (UInt8 × Nat) :=
  levels trie.children trie.nodes.length (trie.children 0)

def orderedNodes (trie : MemoryTrie) : List Nat := 0 :: trie.orderedChildren.map Prod.snd

theorem levels_end (trie : MemoryTrie) :
    (nextLevel trie.children)^[trie.nodes.length] (trie.children 0) = [] := by
  refine nextLevel_iterate_eq_nil trie.children id
    (fun node child hin => trie.children_forward hin) _ ?_ ?_
  · exact fun child _ => Nat.le_add_left _ _
  · exact fun child hin => (trie.children_forward hin).2

theorem orderedNodes_flatMap (trie : MemoryTrie) :
    trie.orderedNodes.flatMap trie.children = trie.orderedChildren := by
  rw [orderedNodes, List.flatMap_cons, List.flatMap_map]
  exact (levels_unfold trie.children trie.levels_end).symm

theorem foldl_encodeNode (trie : MemoryTrie) (current : List (UInt8 × Nat)) (order : LevelOrder) :
    current.foldl trie.encodeNode order =
      { bits := order.bits ++ current.flatMap fun child => unary trie.children child.2
        characters := order.characters ++ current.map Prod.fst
        blocks := order.blocks ++ current.map fun child => (trie.node child.2).records } := by
  induction current generalizing order with
  | nil => simp
  | cons child rest ih => rw [List.foldl_cons, ih, encodeNode]; simp [unary]

theorem encodeLevels_eq (trie : MemoryTrie) (fuel : Nat) (current : List (UInt8 × Nat))
    (order : LevelOrder) : encodeLevels trie fuel current order =
      (levels trie.children fuel current).foldl trie.encodeNode order := by
  induction fuel generalizing current order with
  | zero => rfl
  | succ fuel ih =>
    rw [levels, List.foldl_append, nextLevel, ← ih]
    by_cases hempty : current = []
    · rw [hempty, encodeLevels_nil]
      exact (encodeLevels_nil trie fuel order).symm
    · exact trie.encodeLevels_succ hempty fuel order

theorem levelOrder_fields (trie : MemoryTrie) :
    trie.levelOrder =
      { bits := true :: false :: trie.orderedNodes.flatMap (unary trie.children)
        characters := [0, 0] ++ (trie.orderedNodes.flatMap trie.children).map Prod.fst
        blocks := [[], []] ++ trie.orderedChildren.map fun child =>
          (trie.node child.2).records } := by
  rw [levelOrder, encodeLevels_eq, foldl_encodeNode, orderedNodes_flatMap]
  simp [startOrder, orderedNodes, orderedChildren, List.flatMap_cons, List.flatMap_map, unary]

theorem edge_of_mem_children {trie : MemoryTrie} {node : Nat} {child : UInt8 × Nat}
    (h : child ∈ trie.children node) : Edge trie.nodes node child.1 child.2 := by
  rw [children, MemoryTrie.node, List.getD_eq_getElem?_getD] at h
  cases hnode : trie.nodes[node]? with
  | none =>
    rw [hnode] at h
    exact absurd h List.not_mem_nil
  | some found =>
    rw [hnode] at h
    exact ⟨found, hnode, h⟩

theorem mem_children_of_edge {trie : MemoryTrie} {node next : Nat} {character : UInt8}
    (h : Edge trie.nodes node character next) : (character, next) ∈ trie.children node := by
  obtain ⟨found, hfound, hin⟩ := h
  rw [children, MemoryTrie.node, List.getD_eq_getElem?_getD, hfound]
  exact hin

theorem children_sorted {trie : MemoryTrie} (h : IsTree trie.nodes) (node : Nat) :
    ((trie.children node).map Prod.fst).Pairwise (· < ·) := by
  rw [children, MemoryTrie.node, List.getD_eq_getElem?_getD]
  cases hnode : trie.nodes[node]? with
  | none => exact List.Pairwise.nil
  | some found => exact h.sorted found (List.mem_of_getElem? hnode)

/-- Nodes come in the order of the paths to them. -/
def Before (nodes : List TrieNode) (first second : UInt8 × Nat) : Prop :=
  ∀ path other, walk nodes 0 path = some first.2 → walk nodes 0 other = some second.2 →
    List.Shortlex (· < ·) path other

theorem walk_child {trie : MemoryTrie} (h : IsTree trie.nodes) {parent : Nat} {child : UInt8 × Nat}
    (hchild : child ∈ trie.children parent) {path : List UInt8}
    (hpath : walk trie.nodes 0 path = some child.2) :
    ∃ start, path = start ++ [child.1] ∧ walk trie.nodes 0 start = some parent := by
  induction path using List.reverseRecOn with
  | nil =>
    have hforward := (trie.children_forward hchild).1
    rw [← Option.some.inj hpath] at hforward
    exact absurd hforward (Nat.not_lt_zero _)
  | append_singleton start character =>
    obtain ⟨other, hstart, hedge⟩ := h.walk_concat.mp hpath
    obtain ⟨rfl, rfl⟩ := h.unique hedge (edge_of_mem_children hchild)
    exact ⟨start, rfl, hstart⟩

theorem nextLevel_ordered {trie : MemoryTrie} (h : IsTree trie.nodes) {level : List (UInt8 × Nat)}
    (hlevel : level.Pairwise (Before trie.nodes)) :
    (nextLevel trie.children level).Pairwise (Before trie.nodes) := by
  rw [nextLevel, List.pairwise_flatMap]
  constructor
  · intro parent _
    refine (List.pairwise_map.mp (children_sorted h parent.2)).imp_of_mem ?_
    intro first second hfirst hsecond hlt path other hpath hother
    obtain ⟨start, rfl, hstart⟩ := walk_child h hfirst hpath
    obtain ⟨start', rfl, hstart'⟩ := walk_child h hsecond hother
    obtain rfl := h.walk_injective hstart hstart'
    exact .append_left ((List.shortlex_singleton_iff _ _).mpr hlt) start
  · refine hlevel.imp ?_
    intro parent other hbefore first hfirst second hsecond path path' hpath hpath'
    obtain ⟨start, rfl, hstart⟩ := walk_child h hfirst hpath
    obtain ⟨start', rfl, hstart'⟩ := walk_child h hsecond hpath'
    exact LevelOrder.shortlex_append (hbefore start start' hstart hstart') rfl

/-- From level to level the paths grow. -/
theorem levels_ordered {trie : MemoryTrie} (h : IsTree trie.nodes) (depth length : Nat)
    {level : List (UInt8 × Nat)} (hlevel : level.Pairwise (Before trie.nodes))
    (hpath : ∀ child ∈ level, ∃ path, path.length = length ∧ walk trie.nodes 0 path =
      some child.2) :
    (levels trie.children depth level).Pairwise (Before trie.nodes) ∧
      ∀ child ∈ levels trie.children depth level,
        ∃ path, length ≤ path.length ∧ walk trie.nodes 0 path = some child.2 := by
  induction depth generalizing length level with
  | zero => exact ⟨List.Pairwise.nil, fun _ hin => absurd hin List.not_mem_nil⟩
  | succ depth ih =>
    have hnext : ∀ child ∈ nextLevel trie.children level,
        ∃ path, path.length = length + 1 ∧ walk trie.nodes 0 path = some child.2 := by
      intro child hin
      obtain ⟨parent, hparent, hchild⟩ := List.mem_flatMap.mp hin
      obtain ⟨path, hlength, hwalk⟩ := hpath parent hparent
      exact ⟨path ++ [child.1], by simp [hlength],
        h.walk_concat.mpr ⟨parent.2, hwalk, edge_of_mem_children hchild⟩⟩
    obtain ⟨hordered, hpaths⟩ := ih (length + 1) (nextLevel_ordered h hlevel) hnext
    rw [levels, List.pairwise_append]
    refine ⟨⟨hlevel, hordered, ?_⟩, ?_⟩
    · intro child hchild later hlater path other hwalk hother
      obtain ⟨path', hlength, hwalk'⟩ := hpath child hchild
      obtain ⟨other', hlonger, hother'⟩ := hpaths later hlater
      obtain rfl := h.walk_injective hwalk hwalk'
      obtain rfl := h.walk_injective hother hother'
      exact .of_length_lt (by omega)
    · intro child hin
      cases List.mem_append.mp hin with
      | inl hhere =>
        obtain ⟨path, hlength, hwalk⟩ := hpath child hhere
        exact ⟨path, hlength.ge, hwalk⟩
      | inr hlater =>
        obtain ⟨path, hlength, hwalk⟩ := hpaths child hlater
        exact ⟨path, by omega, hwalk⟩

/-- The paths to the nodes below the root, in level order: the short ones first, none empty. -/
theorem exists_paths {trie : MemoryTrie} (h : IsTree trie.nodes) :
    ∃ pathOf : UInt8 × Nat → List UInt8,
      (trie.orderedChildren.map pathOf).Pairwise (List.Shortlex (· < ·)) ∧
      ∀ child ∈ trie.orderedChildren, pathOf child ≠ [] ∧
        walk trie.nodes 0 (pathOf child) = some child.2 := by
  have hroot : (trie.children 0).Pairwise (Before trie.nodes) := by
    have hsingle :=
      nextLevel_ordered h (List.pairwise_singleton (Before trie.nodes) ((0 : UInt8), 0))
    rwa [nextLevel, List.flatMap_singleton] at hsingle
  obtain ⟨hordered, hpaths⟩ := levels_ordered h trie.nodes.length 1 hroot fun child hin => by
    refine ⟨[] ++ [child.1], rfl, h.walk_concat.mpr ⟨0, rfl, edge_of_mem_children hin⟩⟩
  change trie.orderedChildren.Pairwise (Before trie.nodes) at hordered
  change ∀ child ∈ trie.orderedChildren, _ at hpaths
  choose! pathOf hpathOf using hpaths
  refine ⟨pathOf, List.pairwise_map.mpr ?_, fun child hin =>
    ⟨List.ne_nil_of_length_pos (hpathOf child hin).1, (hpathOf child hin).2⟩⟩
  refine hordered.imp_of_mem ?_
  intro first second hfirst hsecond hbefore
  exact hbefore _ _ (hpathOf first hfirst).2 (hpathOf second hsecond).2

theorem mem_orderedNodes {trie : MemoryTrie} (h : IsTree trie.nodes)
    {path : List UInt8} {node : Nat}
    (hwalk : walk trie.nodes 0 path = some node) : node ∈ trie.orderedNodes := by
  induction path using List.reverseRecOn generalizing node with
  | nil =>
    obtain rfl := Option.some.inj hwalk
    exact List.mem_cons_self
  | append_singleton path character ih =>
    obtain ⟨parent, hparent, hedge⟩ := h.walk_concat.mp hwalk
    have hchild : (character, node) ∈ trie.orderedChildren := by
      rw [← trie.orderedNodes_flatMap]
      exact List.mem_flatMap.mpr ⟨parent, ih hparent, mem_children_of_edge hedge⟩
    exact List.mem_cons_of_mem _ (List.mem_map.mpr ⟨_, hchild, rfl⟩)

/-- One block for every path that is used, none for the empty one. -/
theorem encode_blocks_eq {trie : MemoryTrie} (h : IsTree trie.nodes) :
    ∃ paths : List (List UInt8), paths.Pairwise (List.Shortlex (· < ·)) ∧ [] ∉ paths ∧
      (∀ path ≠ [], (walk trie.nodes 0 path).isSome → path ∈ paths) ∧
        trie.encode.blocks = [] :: [] :: paths.map (Learning.recordsAt trie.nodes) := by
  obtain ⟨pathOf, hordered, hpathOf⟩ := exists_paths h
  refine ⟨trie.orderedChildren.map pathOf, hordered, ?_, ?_, ?_⟩
  · intro hin
    obtain ⟨child, hchild, hempty⟩ := List.mem_map.mp hin
    exact (hpathOf child hchild).1 hempty
  · intro path hpath hsome
    obtain ⟨node, hwalk⟩ := Option.isSome_iff_exists.mp hsome
    cases mem_orderedNodes h hwalk with
    | head => exact absurd rfl (h.walk_ne_zero hpath hwalk)
    | tail _ hin =>
      obtain ⟨child, hchild, rfl⟩ := List.mem_map.mp hin
      exact List.mem_map.mpr ⟨child, hchild, h.walk_injective (hpathOf child hchild).2 hwalk⟩
  · rw [encode, levelOrder_fields, List.map_map]
    refine congrArg (fun blocks => [] :: [] :: blocks) (List.map_congr_left ?_)
    intro child hin
    rw [Function.comp_apply, Learning.recordsAt, (hpathOf child hin).2]
    rfl

end MemoryTrie

/-- A search in the encoded tree follows the walk in the trie. -/
theorem searchFrom_walk {trie : MemoryTrie} {louds : Louds}
    (h : louds.Encodes trie.children trie.orderedNodes) {index node : Nat}
    (hnode : trie.orderedNodes[index]? = some node) (ids : List UInt8) :
    match walk trie.nodes node ids with
    | none => louds.searchFrom (index + 1) ids = none
    | some target => ∃ place, louds.searchFrom (index + 1) ids = some (place + 1) ∧
        trie.orderedNodes[place]? = some target := by
  induction ids generalizing index node with
  | nil => exact ⟨index, rfl, hnode⟩
  | cons id rest ih =>
    have hstep := h.searchChild_step hnode id
    rw [walk_cons, ← trie.node_child, TrieNode.child]
    rw [Louds.searchFrom, List.foldlM_cons]
    cases hchild : (trie.node node).children.find? fun pair => pair.1 = id with
    | none =>
      rw [MemoryTrie.children, hchild] at hstep
      simp only [Option.map_none, Option.bind_none]
      rw [hstep]
      rfl
    | some pair =>
      rw [MemoryTrie.children, hchild] at hstep
      obtain ⟨next, hnext, hplace⟩ := hstep
      simp only [Option.map_some, Option.bind_some]
      rw [hnext]
      exact ih hplace

namespace MemoryLouds
variable {unicode : UnicodeTable} {characters : CharacterIdMap} {records : List LearningRecord}

theorem new_blocks : (new unicode records characters).blocks =
    (MemoryTrie.new unicode records characters).encode.blocks := by
  rw [new]
  split
  · rfl
  · next h => exact absurd (MemoryTrie.new unicode records characters).encode_parses (by simp [h])

theorem new_parse : Louds.parse (MemoryTrie.new unicode records characters).encode.louds
    (MemoryTrie.new unicode records characters).encode.characters =
      .ok (new unicode records characters).louds := by
  rw [new]
  split
  · next h => exact h
  · next h => exact absurd (MemoryTrie.new unicode records characters).encode_parses (by simp [h])

theorem new_encodes : (new unicode records characters).louds.Encodes
    (MemoryTrie.new unicode records characters).children
    (MemoryTrie.new unicode records characters).orderedNodes := by
  have hparse : Louds.parse _ _ = .ok (new unicode records characters).louds := new_parse
  rw [MemoryTrie.encode, MemoryTrie.levelOrder_fields] at hparse
  refine Louds.parse_encodes (List.cons_ne_nil _ _) ?_ hparse
  rw [MemoryTrie.orderedNodes_flatMap]
  rfl

theorem new_block {place node : Nat} (hnode : node ≠ 0)
    (hplace : (MemoryTrie.new unicode records characters).orderedNodes[place]? = some node) :
    (new unicode records characters).block (place + 1) =
      recordsOf (MemoryTrie.new unicode records characters).nodes node := by
  cases place with
  | zero => exact absurd (Option.some.inj hplace).symm hnode
  | succ place =>
    rw [MemoryTrie.orderedNodes, List.getElem?_cons_succ, List.getElem?_map] at hplace
    obtain ⟨child, hchild, rfl⟩ := Option.map_eq_some_iff.mp hplace
    rw [block, new_blocks, MemoryTrie.encode, MemoryTrie.levelOrder_fields,
      List.getD_eq_getElem?_getD]
    change ((([[], []] : List (List Nat)) ++ _)[place + 2]?).getD [] = _
    rw [List.getElem?_append_right (by simp)]
    simp [hchild, recordsOf, MemoryTrie.node]

theorem lookup_exact {ids : List UInt8} (hids : ids ≠ []) :
    (new unicode records characters).lookup ids .exact =
      scan (fun record => characters.encode unicode record.entry.ruby = some ids) records := by
  have hindexes : Indexes unicode characters (.new unicode records characters) records :=
    indexes_new records
  have hencodes : (new unicode records characters).louds.Encodes _ _ := new_encodes
  have hsearch :=
    searchFrom_walk hencodes (show (MemoryTrie.orderedNodes _)[0]? = some 0 from rfl) ids
  have hscan := hindexes.recordsAt ids
  rw [Learning.recordsAt] at hscan
  rw [lookup, lookupFrom_exact]
  change ((((new unicode records characters).louds.searchFrom 1 ids).map
    (new unicode records characters).block).getD []).mergeSort = _
  cases hwalk : walk (MemoryTrie.new unicode records characters).nodes 0 ids with
  | none =>
    rw [hwalk] at hsearch hscan
    rw [hsearch, ← hscan]
    exact List.mergeSort_nil
  | some target =>
    rw [hwalk] at hsearch hscan
    obtain ⟨place, hfound, hplace⟩ := hsearch
    rw [hfound, Option.map_some, Option.getD_some,
      new_block (hindexes.tree.walk_ne_zero hids hwalk) hplace]
    rw [Option.map_some, Option.getD_some] at hscan
    rw [hscan, mergeSort_scan]

end MemoryLouds

end BeanKey.Learning
