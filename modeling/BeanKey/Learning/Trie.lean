import BeanKey.Learning.Record

/-! The reading trie of the learning memory, and its level-order encoding. -/
namespace BeanKey.Learning
open BeanKey.Dictionary Packing

/-- A node with its children by character, in the map's order, and its records. -/
structure TrieNode where
  children : List (UInt8 × Nat) := []
  records : List Nat := []

namespace TrieNode

def empty : TrieNode := {}

def child (node : TrieNode) (character : UInt8) : Option Nat :=
  (node.children.find? fun (other, _) => other = character).map Prod.snd

def insertChild (node : TrieNode) (character : UInt8) (child : Nat) : TrieNode :=
  { node with
    children := node.children.takeWhile (fun (other, _) => other < character) ++
      (character, child) :: node.children.dropWhile fun (other, _) => other < character }

def pushRecord (node : TrieNode) (record : Nat) : TrieNode :=
  { node with records := node.records ++ [record] }

theorem mem_insertChild {node : TrieNode} {character : UInt8} {child : Nat} {pair : UInt8 × Nat}
    (h : pair ∈ (node.insertChild character child).children) :
    pair = (character, child) ∨ pair ∈ node.children := by
  simp only [insertChild, List.mem_append, List.mem_cons] at h
  obtain hbefore | heq | hafter := h
  · exact .inr (List.takeWhile_subset _ hbefore)
  · exact .inl heq
  · exact .inr (List.dropWhile_subset _ hafter)

end TrieNode

/-- Every child comes after its parent in the vector. -/
def Forward (nodes : List TrieNode) : Prop :=
  ∀ (index : Nat) (node : TrieNode), nodes[index]? = some node → ∀ pair ∈ node.children,
    index < pair.2 ∧ pair.2 < nodes.length

structure MemoryTrie where
  nodes : List TrieNode
  nonempty : nodes ≠ []
  forward : Forward nodes

namespace MemoryTrie

/-- The walk of `insert` from a node, which adds the nodes that are missing. -/
def insertFrom (nodes : List TrieNode) (node : Nat) : List UInt8 → Nat → List TrieNode
  | [], record => nodes.modify node (·.pushRecord record)
  | id :: rest, record =>
    match nodes[node]?.bind (·.child id) with
    | some child => insertFrom nodes child rest record
    | none =>
      insertFrom ((nodes ++ [TrieNode.empty]).modify node (·.insertChild id nodes.length))
        nodes.length rest
        record

theorem forward_pushRecord {nodes : List TrieNode} (h : Forward nodes) (node record : Nat) :
    Forward (nodes.modify node (·.pushRecord record)) := by
  intro index other hother pair hpair
  rw [List.getElem?_modify] at hother
  obtain ⟨old, hold, rfl⟩ := Option.map_eq_some_iff.mp hother
  rw [List.length_modify]
  refine h index old hold pair ?_
  by_cases heq : node = index
  · simpa [heq, TrieNode.pushRecord] using hpair
  · simpa [heq] using hpair

theorem forward_insertChild {nodes : List TrieNode} (h : Forward nodes) {node : Nat}
    (hnode : node < nodes.length) (id : UInt8) :
    Forward ((nodes ++ [TrieNode.empty]).modify node (·.insertChild id nodes.length)) := by
  intro index other hother pair hpair
  rw [List.getElem?_modify] at hother
  obtain ⟨old, hold, rfl⟩ := Option.map_eq_some_iff.mp hother
  rw [List.length_modify, List.length_append, List.length_singleton]
  have hchildren : pair ∈ old.children → index < pair.2 ∧ pair.2 < nodes.length + 1 := by
    intro hin
    by_cases hlt : index < nodes.length
    · rw [List.getElem?_append_left hlt] at hold
      have := h index old hold pair hin
      omega
    · rw [List.getElem?_append_right (by omega)] at hold
      obtain rfl := List.mem_singleton.mp (List.mem_of_getElem? hold)
      exact absurd hin List.not_mem_nil
  by_cases heq : node = index
  · subst heq
    rw [if_pos rfl] at hpair
    cases TrieNode.mem_insertChild hpair with
    | inl hnew =>
      subst hnew
      exact ⟨hnode, Nat.lt_succ_self _⟩
    | inr hin => exact hchildren hin
  · rw [if_neg heq] at hpair
    exact hchildren hpair

theorem insertFrom_spec {nodes : List TrieNode} (h : Forward nodes) (ids : List UInt8)
    (record : Nat) {node : Nat} (hnode : node < nodes.length) :
    Forward (insertFrom nodes node ids record) ∧
      nodes.length ≤ (insertFrom nodes node ids record).length := by
  induction ids generalizing nodes node with
  | nil =>
    rw [insertFrom]
    exact ⟨forward_pushRecord h node record, by rw [List.length_modify]⟩
  | cons id rest ih =>
    rw [insertFrom]
    cases hchild : nodes[node]?.bind (·.child id) with
    | some child =>
      obtain ⟨old, hold, hfound⟩ := Option.bind_eq_some_iff.mp hchild
      obtain ⟨pair, hpair, rfl⟩ := Option.map_eq_some_iff.mp hfound
      exact ih h (h node old hold pair (List.mem_of_find?_eq_some hpair)).2
    | none =>
      have hlength :
          ((nodes ++ [TrieNode.empty]).modify node (·.insertChild id nodes.length)).length =
          nodes.length + 1 := by simp
      have hlast : nodes.length < ((nodes ++ [TrieNode.empty]).modify node
          (·.insertChild id nodes.length)).length := by
        rw [hlength]
        exact Nat.lt_succ_self _
      obtain ⟨hforward, hle⟩ := ih (forward_insertChild h hnode id) hlast
      rw [hlength] at hle
      exact ⟨hforward, Nat.le_of_succ_le hle⟩

def empty : MemoryTrie where
  nodes := [TrieNode.empty]
  nonempty := by simp
  forward := by
    intro index node hnode pair hpair
    obtain rfl := List.mem_singleton.mp (List.mem_of_getElem? hnode)
    exact absurd hpair List.not_mem_nil

def insert (trie : MemoryTrie) (ids : List UInt8) (record : Nat) : MemoryTrie where
  nodes := insertFrom trie.nodes 0 ids record
  nonempty := by
    have hpos := List.length_pos_of_ne_nil trie.nonempty
    have := (insertFrom_spec trie.forward ids record hpos).2
    exact List.ne_nil_of_length_pos (by omega)
  forward := (insertFrom_spec trie.forward ids record
    (List.length_pos_of_ne_nil trie.nonempty)).1

/-- Records whose reading has no identifiers are left out. -/
def new (unicode : UnicodeTable) (records : List LearningRecord) (characters : CharacterIdMap) :
    MemoryTrie :=
  records.zipIdx.foldl (fun trie (record, index) =>
    match characters.encode unicode record.entry.ruby with
    | some ids => trie.insert ids index
    | none => trie) empty

def node (trie : MemoryTrie) (index : Nat) : TrieNode := trie.nodes.getD index TrieNode.empty

end MemoryTrie

structure EncodedIndex where
  louds : Bytes
  characters : List UInt8
  blocks : List (List Nat)

structure LevelOrder where
  bits : List Bool
  characters : List UInt8
  blocks : List (List Nat)

namespace MemoryTrie

def children (trie : MemoryTrie) (index : Nat) : List (UInt8 × Nat) := (trie.node index).children

def encodeNode (trie : MemoryTrie) (order : LevelOrder) (child : UInt8 × Nat) : LevelOrder where
  bits := order.bits ++ List.replicate (trie.children child.2).length true ++ [false]
  characters := order.characters ++ [child.1]
  blocks := order.blocks ++ [(trie.node child.2).records]

/-- The loop over the levels; it ends with the first empty one. -/
def encodeLevels (trie : MemoryTrie) : Nat → List (UInt8 × Nat) → LevelOrder → LevelOrder
  | 0, _, order => order
  | fuel + 1, current, order =>
    if current = [] then order
    else encodeLevels trie fuel (current.flatMap fun child => trie.children child.2)
      (current.foldl trie.encodeNode order)

def startOrder (trie : MemoryTrie) : LevelOrder where
  bits := [true, false] ++ List.replicate (trie.children 0).length true ++ [false]
  characters := [0, 0]
  blocks := [[], []]

def levelOrder (trie : MemoryTrie) : LevelOrder :=
  encodeLevels trie trie.nodes.length (trie.children 0) trie.startOrder

def encode (trie : MemoryTrie) : EncodedIndex where
  louds := encodeLouds trie.levelOrder.bits
  characters := trie.levelOrder.characters
  blocks := trie.levelOrder.blocks

/-! ### The level loop ends -/

theorem children_forward (trie : MemoryTrie) {index : Nat} {child : UInt8 × Nat}
    (h : child ∈ trie.children index) : index < child.2 ∧ child.2 < trie.nodes.length := by
  rw [children, node, List.getD_eq_getElem?_getD] at h
  cases hnode : trie.nodes[index]? with
  | none =>
    rw [hnode] at h
    exact absurd h List.not_mem_nil
  | some found =>
    rw [hnode] at h
    exact trie.forward index found hnode child h

theorem encodeLevels_nil (trie : MemoryTrie) (fuel : Nat) (order : LevelOrder) :
    encodeLevels trie fuel [] order = order := by
  cases fuel <;> rfl

theorem encodeLevels_succ (trie : MemoryTrie) {current : List (UInt8 × Nat)} (h : current ≠ [])
    (fuel : Nat) (order : LevelOrder) :
    encodeLevels trie (fuel + 1) current order =
      encodeLevels trie fuel (current.flatMap fun child => trie.children child.2)
        (current.foldl trie.encodeNode order) := by
  rw [encodeLevels, if_neg h]

/-- Nodes of level `depth` come after `depth` others, so no level is left once the vector
is used up. -/
theorem encodeLevels_enough (trie : MemoryTrie) {fuel : Nat} (depth : Nat)
    (current : List (UInt8 × Nat))
    (order : LevelOrder)
    (hcurrent : ∀ child ∈ current, depth < child.2 ∧ child.2 < trie.nodes.length)
    (hfuel : trie.nodes.length ≤ fuel + depth) :
    encodeLevels trie (fuel + 1) current order = encodeLevels trie fuel current order := by
  induction fuel generalizing depth current order with
  | zero =>
    have hempty : current = [] := by
      refine List.eq_nil_iff_forall_not_mem.mpr ?_
      intro child hin
      have := hcurrent child hin
      omega
    rw [hempty, encodeLevels_nil, encodeLevels_nil]
  | succ fuel ih =>
    by_cases hempty : current = []
    · rw [hempty, encodeLevels_nil, encodeLevels_nil]
    · rw [encodeLevels_succ trie hempty, encodeLevels_succ trie hempty]
      refine ih (depth + 1) _ _ ?_ (by omega)
      intro child hin
      obtain ⟨parent, hparent, hchild⟩ := List.mem_flatMap.mp hin
      have := hcurrent parent hparent
      have := trie.children_forward hchild
      omega

/-- The level order does not depend on how long the loop may run. -/
theorem levelOrder_eq (trie : MemoryTrie) {fuel : Nat} (h : trie.nodes.length ≤ fuel) :
    encodeLevels trie fuel (trie.children 0) trie.startOrder = trie.levelOrder := by
  induction fuel, h using Nat.le_induction with
  | base => rfl
  | succ fuel hle ih =>
    rw [trie.encodeLevels_enough 0 _ _ (fun _ hin => trie.children_forward hin) hle, ih]

/-! ### The vectors agree -/

/-- One delimiter and one block for every character, after a leading one. -/
structure LevelOrder.Balanced (order : LevelOrder) : Prop where
  head : ∃ rest, order.bits = true :: rest
  delimiters : order.bits.count false = order.characters.length
  blocks : order.blocks.length = order.characters.length

theorem encodeNode_balanced (trie : MemoryTrie) {order : LevelOrder}
    (h : LevelOrder.Balanced order) (child : UInt8 × Nat) :
    LevelOrder.Balanced (trie.encodeNode order child) where
  head := by
    obtain ⟨rest, hrest⟩ := h.head
    exact ⟨_, by rw [encodeNode, hrest]; rfl⟩
  delimiters := by
    simp [encodeNode, h.delimiters, List.count_replicate]
  blocks := by simp [encodeNode, h.blocks]

theorem encodeLevels_balanced (trie : MemoryTrie) (fuel : Nat) (current : List (UInt8 × Nat))
    {order : LevelOrder} (h : LevelOrder.Balanced order) :
    LevelOrder.Balanced (encodeLevels trie fuel current order) := by
  induction fuel generalizing current order with
  | zero => exact h
  | succ fuel ih =>
    by_cases hempty : current = []
    · rwa [hempty, encodeLevels_nil]
    · rw [encodeLevels_succ trie hempty]
      refine ih _ ?_
      clear hempty
      induction current generalizing order with
      | nil => exact h
      | cons child rest ihRest => exact ihRest (trie.encodeNode_balanced h child)

theorem levelOrder_balanced (trie : MemoryTrie) : LevelOrder.Balanced trie.levelOrder := by
  refine trie.encodeLevels_balanced _ _ ⟨⟨_, rfl⟩, ?_, rfl⟩
  simp [startOrder, List.count_replicate]

/-- The encoded tree parses, with as many nodes as blocks. -/
theorem encode_parses (trie : MemoryTrie) :
    ∃ louds, Louds.parse trie.encode.louds trie.encode.characters = .ok louds ∧
      louds.nodeCount = trie.encode.characters.length ∧
      trie.encode.blocks.length = trie.encode.characters.length := by
  obtain ⟨⟨rest, hrest⟩, hdelimiters, hblocks⟩ := trie.levelOrder_balanced
  have hcount : trie.levelOrder.characters.length ≤ rest.count false := by
    rw [← hdelimiters, hrest, List.count_cons]
    simp
  obtain ⟨louds, hlouds, hnodes⟩ := Louds.parse_encodeLouds hcount
  refine ⟨louds, ?_, hnodes, hblocks⟩
  rw [encode, hrest]
  exact hlouds

/-! ### The records of a trie are positions of the vector -/

def RecordsBelow (bound : Nat) (nodes : List TrieNode) : Prop :=
  ∀ node ∈ nodes, ∀ record ∈ node.records, record < bound

theorem insertFrom_recordsBelow {bound record : Nat} (hrecord : record < bound)
    {nodes : List TrieNode} (h : RecordsBelow bound nodes) (ids : List UInt8) (node : Nat) :
    RecordsBelow bound (insertFrom nodes node ids record) := by
  induction ids generalizing nodes node with
  | nil =>
    intro other hother entry hentry
    obtain ⟨index, hindex⟩ := List.mem_iff_getElem?.mp hother
    rw [insertFrom, List.getElem?_modify] at hindex
    obtain ⟨old, hold, rfl⟩ := Option.map_eq_some_iff.mp hindex
    have hmem := List.mem_of_getElem? hold
    by_cases heq : node = index
    · rw [if_pos heq, TrieNode.pushRecord, List.mem_append, List.mem_singleton] at hentry
      cases hentry with
      | inl hin => exact h old hmem entry hin
      | inr hnew => rwa [hnew]
    · rw [if_neg heq] at hentry
      exact h old hmem entry hentry
  | cons id rest ih =>
    rw [insertFrom]
    cases hchild : nodes[node]?.bind (·.child id) with
    | some child => exact ih h child
    | none =>
      refine ih ?_ nodes.length
      intro other hother entry hentry
      obtain ⟨index, hindex⟩ := List.mem_iff_getElem?.mp hother
      rw [List.getElem?_modify] at hindex
      obtain ⟨old, hold, rfl⟩ := Option.map_eq_some_iff.mp hindex
      have hentry' : entry ∈ old.records := by
        by_cases heq : node = index
        · rwa [if_pos heq] at hentry
        · rwa [if_neg heq] at hentry
      cases List.mem_append.mp (List.mem_of_getElem? hold) with
      | inl hin => exact h old hin entry hentry'
      | inr hnew =>
        obtain rfl := List.mem_singleton.mp hnew
        exact absurd hentry' List.not_mem_nil

theorem new_recordsBelow (unicode : UnicodeTable) (records : List LearningRecord)
    (characters : CharacterIdMap) :
    RecordsBelow records.length (new unicode records characters).nodes := by
  have hfold : ∀ (pairs : List (LearningRecord × Nat)) (trie : MemoryTrie),
      (∀ pair ∈ pairs, pair.2 < records.length) → RecordsBelow records.length trie.nodes →
      RecordsBelow records.length (pairs.foldl (fun trie (record, index) =>
        match characters.encode unicode record.entry.ruby with
        | some ids => trie.insert ids index
        | none => trie) trie).nodes := by
    intro pairs
    induction pairs with
    | nil => exact fun _ _ h => h
    | cons pair rest ih =>
      intro trie hpairs h
      rw [List.foldl_cons]
      refine ih _ (fun other hin => hpairs other (List.mem_cons_of_mem _ hin)) ?_
      cases hids : characters.encode unicode pair.1.entry.ruby with
      | none => simpa only [hids] using h
      | some ids =>
        simp only [hids]
        exact insertFrom_recordsBelow (hpairs pair List.mem_cons_self) h ids 0
  refine hfold _ _ ?_ ?_
  · intro pair hpair
    have := List.snd_lt_of_mem_zipIdx hpair
    omega
  · intro node hnode
    obtain rfl := List.mem_singleton.mp hnode
    exact fun _ hin => absurd hin List.not_mem_nil

theorem node_recordsBelow {trie : MemoryTrie} {bound : Nat} (h : RecordsBelow bound trie.nodes)
    (index : Nat) : ∀ record ∈ (trie.node index).records, record < bound := by
  intro record hrecord
  rw [node, List.getD_eq_getElem?_getD] at hrecord
  cases hnode : trie.nodes[index]? with
  | none =>
    rw [hnode] at hrecord
    exact absurd hrecord List.not_mem_nil
  | some found =>
    rw [hnode] at hrecord
    exact h found (List.mem_of_getElem? hnode) record hrecord

theorem encodeLevels_blocks {trie : MemoryTrie} {bound : Nat}
    (h : RecordsBelow bound trie.nodes) (fuel : Nat) (current : List (UInt8 × Nat))
    {order : LevelOrder} (horder : ∀ block ∈ order.blocks, ∀ record ∈ block, record < bound) :
    ∀ block ∈ (encodeLevels trie fuel current order).blocks, ∀ record ∈ block, record < bound := by
  induction fuel generalizing current order with
  | zero => exact horder
  | succ fuel ih =>
    by_cases hempty : current = []
    · rwa [hempty, encodeLevels_nil]
    · rw [encodeLevels_succ trie hempty]
      refine ih _ ?_
      clear hempty
      induction current generalizing order with
      | nil => exact horder
      | cons child rest ihRest =>
        refine ihRest ?_
        intro block hblock
        cases List.mem_append.mp hblock with
        | inl hin => exact horder block hin
        | inr hnew =>
          obtain rfl := List.mem_singleton.mp hnew
          exact node_recordsBelow h child.2

/-- No block names a record that is not there. -/
theorem encode_blocks (unicode : UnicodeTable) (records : List LearningRecord)
    (characters : CharacterIdMap) :
    ∀ block ∈ (new unicode records characters).encode.blocks, ∀ record ∈ block,
      record < records.length := by
  refine encodeLevels_blocks (new_recordsBelow unicode records characters) _ _ ?_
  intro block hblock
  simp only [startOrder, List.mem_cons, List.not_mem_nil, or_false, or_self] at hblock
  subst hblock
  exact fun _ hin => absurd hin List.not_mem_nil

end MemoryTrie

end BeanKey.Learning
