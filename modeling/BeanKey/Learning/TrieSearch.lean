import BeanKey.Learning.Trie
import BeanKey.Dictionary.LoudsSearch
import Mathlib.Data.List.Nodup
import Mathlib.Data.List.TakeWhile

/-! What a reading trie holds: the records under every sequence of characters. -/
namespace BeanKey.Learning
open BeanKey.Dictionary Packing

def Edge (nodes : List TrieNode) (node : Nat) (character : UInt8) (next : Nat) : Prop :=
  ∃ found, nodes[node]? = some found ∧ (character, next) ∈ found.children

/-- A tree: children come later, each below one node, sorted by their characters. -/
structure IsTree (nodes : List TrieNode) : Prop where
  forward : Forward nodes
  unique : ∀ {node other character character' next}, Edge nodes node character next →
    Edge nodes other character' next → node = other ∧ character = character'
  sorted : ∀ found ∈ nodes, (found.children.map Prod.fst).Pairwise (· < ·)

def walk (nodes : List TrieNode) (node : Nat) (ids : List UInt8) : Option Nat :=
  ids.foldlM (fun node id => nodes[node]?.bind (·.child id)) node

def recordsOf (nodes : List TrieNode) (node : Nat) : List Nat := (nodes.getD node .empty).records

def recordsAt (nodes : List TrieNode) (ids : List UInt8) : List Nat :=
  ((walk nodes 0 ids).map (recordsOf nodes)).getD []

theorem TrieNode.mem_of_child {node : TrieNode} {character : UInt8} {next : Nat}
    (h : node.child character = some next) : (character, next) ∈ node.children := by
  obtain ⟨pair, hfound, rfl⟩ := Option.map_eq_some_iff.mp h
  have hcharacter : pair.1 = character := by simpa using List.find?_some hfound
  rw [← hcharacter]
  exact List.mem_of_find?_eq_some hfound

theorem TrieNode.child_of_mem {node : TrieNode}
    (hsorted : (node.children.map Prod.fst).Pairwise (· < ·))
    {character : UInt8} {next : Nat} (h : (character, next) ∈ node.children) :
    node.child character = some next := by
  have hnodup : (node.children.map Prod.fst).Nodup := hsorted.imp UInt8.ne_of_lt
  cases hchild : node.child character with
  | none => exact absurd (List.find?_eq_none.mp (Option.map_eq_none_iff.mp hchild) _ h) (by simp)
  | some other =>
    have hsame := List.inj_on_of_nodup_map hnodup (mem_of_child hchild) h rfl
    rw [(Prod.mk.inj hsame).2]

namespace IsTree
variable {nodes : List TrieNode} (h : IsTree nodes)
include h

theorem child_iff {node : Nat} {character : UInt8} {next : Nat} :
    nodes[node]?.bind (·.child character) = some next ↔ Edge nodes node character next := by
  constructor
  · intro hchild
    obtain ⟨found, hfound, hnext⟩ := Option.bind_eq_some_iff.mp hchild
    exact ⟨found, hfound, TrieNode.mem_of_child hnext⟩
  · rintro ⟨found, hfound, hin⟩
    rw [hfound, Option.bind_some]
    exact TrieNode.child_of_mem (h.sorted found (List.mem_of_getElem? hfound)) hin

theorem lt {node : Nat} {character : UInt8} {next : Nat} (hedge : Edge nodes node character next) :
    node < next ∧ next < nodes.length := by
  obtain ⟨found, hfound, hin⟩ := hedge
  exact h.forward node found hfound _ hin

theorem walk_concat {start next : Nat} {ids : List UInt8} {id : UInt8} :
    walk nodes start (ids ++ [id]) = some next ↔
      ∃ node, walk nodes start ids = some node ∧ Edge nodes node id next := by
  rw [walk, List.foldlM_append]
  constructor
  · intro hwalk
    obtain ⟨node, hnode, hlast⟩ := Option.bind_eq_some_iff.mp hwalk
    rw [List.foldlM_cons] at hlast
    obtain ⟨last, hchild, hend⟩ := Option.bind_eq_some_iff.mp hlast
    obtain rfl := Option.some.inj hend
    exact ⟨node, hnode, h.child_iff.mp hchild⟩
  · rintro ⟨node, hnode, hedge⟩
    refine Option.bind_eq_some_iff.mpr ⟨node, hnode, ?_⟩
    rw [List.foldlM_cons]
    exact Option.bind_eq_some_iff.mpr ⟨next, h.child_iff.mpr hedge, rfl⟩

theorem walk_ne_zero {ids : List UInt8} (hids : ids ≠ []) {node : Nat}
    (hwalk : walk nodes 0 ids = some node) : node ≠ 0 := by
  cases ids using List.reverseRecOn with
  | nil => exact absurd rfl hids
  | append_singleton ids id =>
    obtain ⟨parent, -, hedge⟩ := h.walk_concat.mp hwalk
    exact Nat.ne_zero_of_lt (h.lt hedge).1

theorem walk_injective {ids ids' : List UInt8} {node : Nat} (hwalk : walk nodes 0 ids = some node)
    (hwalk' : walk nodes 0 ids' = some node) : ids = ids' := by
  induction ids using List.reverseRecOn generalizing ids' node with
  | nil =>
    obtain rfl : 0 = node := Option.some.inj hwalk
    by_contra hne
    exact h.walk_ne_zero (Ne.symm hne) hwalk' rfl
  | append_singleton ids id ih =>
    obtain ⟨last, hlast, hedge⟩ := h.walk_concat.mp hwalk
    induction ids' using List.reverseRecOn with
    | nil =>
      obtain rfl : 0 = node := Option.some.inj hwalk'
      exact absurd rfl (h.walk_ne_zero (by simp) hwalk)
    | append_singleton ids' id' _ =>
      obtain ⟨last', hlast', hedge'⟩ := h.walk_concat.mp hwalk'
      obtain ⟨rfl, rfl⟩ := h.unique hedge hedge'
      rw [ih hlast hlast']

end IsTree

/-! ### Insertion -/

theorem edge_pushRecord {nodes : List TrieNode} {target record node next : Nat}
    {character : UInt8} :
    Edge (nodes.modify target (·.pushRecord record)) node character next ↔
      Edge nodes node character next := by
  simp only [Edge, List.getElem?_modify, Option.map_eq_map, Option.map_eq_some_iff]
  constructor
  · rintro ⟨found, ⟨old, hold, rfl⟩, hin⟩
    refine ⟨old, hold, ?_⟩
    by_cases heq : target = node
    · simpa [heq, TrieNode.pushRecord] using hin
    · simpa [heq] using hin
  · rintro ⟨old, hold, hin⟩
    refine ⟨_, ⟨old, hold, rfl⟩, ?_⟩
    by_cases heq : target = node
    · simpa [heq, TrieNode.pushRecord] using hin
    · simpa [heq] using hin

theorem recordsOf_pushRecord {nodes : List TrieNode} {target : Nat} (h : target < nodes.length)
    (record node : Nat) :
    recordsOf (nodes.modify target (·.pushRecord record)) node =
      recordsOf nodes node ++ if node = target then [record] else [] := by
  rw [recordsOf, recordsOf, List.getD_eq_getElem?_getD, List.getD_eq_getElem?_getD,
    List.getElem?_modify]
  by_cases heq : target = node
  · subst heq
    simp [List.getElem?_eq_getElem h, TrieNode.pushRecord]
  · simp [heq, Ne.symm heq]

theorem IsTree.pushRecord {nodes : List TrieNode} (h : IsTree nodes) (target record : Nat) :
    IsTree (nodes.modify target (·.pushRecord record)) where
  forward := MemoryTrie.forward_pushRecord h.forward target record
  unique hedge hedge' := h.unique (edge_pushRecord.mp hedge) (edge_pushRecord.mp hedge')
  sorted found hfound := by
    obtain ⟨index, hindex⟩ := List.mem_iff_getElem?.mp hfound
    rw [List.getElem?_modify] at hindex
    obtain ⟨old, hold, rfl⟩ := Option.map_eq_some_iff.mp hindex
    have hsorted := h.sorted old (List.mem_of_getElem? hold)
    by_cases heq : target = index
    · simpa [heq, TrieNode.pushRecord] using hsorted
    · simpa [heq] using hsorted

def addChild (nodes : List TrieNode) (node : Nat) (id : UInt8) : List TrieNode :=
  (nodes ++ [TrieNode.empty]).modify node (·.insertChild id nodes.length)

theorem getElem?_addChild {nodes : List TrieNode} {node : Nat} (hnode : node < nodes.length)
    (id : UInt8) (index : Nat) : (addChild nodes node id)[index]? =
      if index = nodes.length then some .empty
      else nodes[index]?.map fun old => if index = node then old.insertChild id nodes.length
        else old := by
  rw [addChild, List.getElem?_modify]
  by_cases hlast : index = nodes.length
  · subst hlast
    have hne : node ≠ nodes.length := Nat.ne_of_lt hnode
    simp [hne]
  · rw [if_neg hlast]
    by_cases hlt : index < nodes.length
    · rw [List.getElem?_append_left hlt]
      by_cases heq : index = node
      · simp [heq]
      · simp [heq, Ne.symm heq]
    · simp [List.getElem?_eq_none (show (nodes ++ [TrieNode.empty]).length ≤ index by simp; omega),
        List.getElem?_eq_none (show nodes.length ≤ index by omega)]

theorem edge_addChild {nodes : List TrieNode} {parent : Nat} (hparent : parent < nodes.length)
    {id : UInt8} {node next : Nat} {character : UInt8} :
    Edge (addChild nodes parent id) node character next ↔
      Edge nodes node character next ∨ node = parent ∧ character = id ∧ next = nodes.length := by
  rw [Edge, getElem?_addChild hparent]
  by_cases hlast : node = nodes.length
  · subst hlast
    have hne : nodes.length ≠ parent := (Nat.ne_of_lt hparent).symm
    simp [Edge, TrieNode.empty, hne]
  · rw [if_neg hlast]
    by_cases heq : node = parent
    · subst heq
      obtain ⟨old, hold⟩ : ∃ old, nodes[node]? = some old := ⟨_, List.getElem?_eq_getElem hparent⟩
      simp only [Edge, hold, if_true, Option.map_some, Option.some.injEq, exists_eq_left', true_and]
      constructor
      · intro hin
        cases TrieNode.mem_insertChild hin with
        | inl hnew => exact .inr (Prod.mk.inj hnew)
        | inr hin => exact .inl hin
      · rintro (hin | ⟨rfl, rfl⟩)
        · rw [TrieNode.insertChild, List.mem_append, List.mem_cons]
          rw [← List.takeWhile_append_dropWhile
            (p := fun pair : UInt8 × Nat => decide (pair.1 < id)) (l := old.children)] at hin
          cases List.mem_append.mp hin with
          | inl hbefore => exact .inl hbefore
          | inr hafter => exact .inr (.inr hafter)
        · exact List.mem_append_right _ List.mem_cons_self
    · simp [Edge, heq]

theorem recordsOf_addChild {nodes : List TrieNode} {parent : Nat} (hparent : parent < nodes.length)
    (id : UInt8) (node : Nat) : recordsOf (addChild nodes parent id) node =
    recordsOf nodes node := by
  rw [recordsOf, recordsOf, List.getD_eq_getElem?_getD, List.getD_eq_getElem?_getD,
    getElem?_addChild hparent]
  by_cases hlast : node = nodes.length
  · simp [hlast]
  · rw [if_neg hlast]
    cases hold : nodes[node]? with
    | none => rfl
    | some old =>
      by_cases heq : node = parent
      · simp [heq, TrieNode.insertChild]
      · simp [heq]

theorem lt_of_mem_dropWhile {id : UInt8} {children : List (UInt8 × Nat)}
    (hsorted : (children.map Prod.fst).Pairwise (· < ·)) (hout : ∀ pair ∈ children, pair.1 ≠ id) :
    ∀ pair ∈ children.dropWhile (fun pair => decide (pair.1 < id)), id < pair.1 := by
  induction children with
  | nil => exact fun _ hin => absurd hin List.not_mem_nil
  | cons head rest ih =>
    rw [List.map_cons, List.pairwise_cons] at hsorted
    rw [List.dropWhile_cons]
    split
    · exact ih hsorted.2 fun pair hin => hout pair (List.mem_cons_of_mem _ hin)
    · next hlt =>
      have hhead : id < head.1 := by
        have hne := hout head List.mem_cons_self
        simp only [decide_eq_true_eq] at hlt
        exact UInt8.lt_of_le_of_ne (UInt8.not_lt.mp hlt) hne.symm
      intro pair hin
      cases List.mem_cons.mp hin with
      | inl heq => rwa [heq]
      | inr hrest =>
        exact UInt8.lt_trans hhead (hsorted.1 pair.1 (List.mem_map.mpr ⟨pair, hrest, rfl⟩))

theorem TrieNode.insertChild_sorted {node : TrieNode} {id : UInt8}
    (hsorted : (node.children.map Prod.fst).Pairwise (· < ·)) (hnone : node.child id = none)
    (child : Nat) : ((node.insertChild id child).children.map Prod.fst).Pairwise (· < ·) := by
  have hout : ∀ pair ∈ node.children, pair.1 ≠ id := by
    intro pair hin heq
    rw [← heq, TrieNode.child_of_mem hsorted (show (pair.1, pair.2) ∈ node.children from hin)]
      at hnone
    exact absurd hnone (by simp)
  have hafter := lt_of_mem_dropWhile hsorted hout
  have hbefore : ∀ pair ∈ node.children.takeWhile (fun pair => decide (pair.1 < id)), pair.1 < id :=
    fun pair hin => by simpa using List.mem_takeWhile_imp hin
  rw [← List.takeWhile_append_dropWhile (p := fun pair : UInt8 × Nat => decide (pair.1 < id))
    (l := node.children), List.map_append, List.pairwise_append] at hsorted
  rw [insertChild, List.map_append, List.map_cons, List.pairwise_append, List.pairwise_cons]
  refine ⟨hsorted.1, ⟨?_, hsorted.2.1⟩, ?_⟩
  · intro other hother
    obtain ⟨pair, hin, rfl⟩ := List.mem_map.mp hother
    exact hafter pair hin
  · intro first hfirst second hsecond
    cases List.mem_cons.mp hsecond with
    | inl heq =>
      obtain ⟨pair, hin, rfl⟩ := List.mem_map.mp hfirst
      rw [heq]
      exact hbefore pair hin
    | inr hin => exact hsorted.2.2 first hfirst second hin

theorem IsTree.addChild {nodes : List TrieNode} (h : IsTree nodes) {node : Nat}
    (hnode : node < nodes.length) {id : UInt8} (hnone : nodes[node]?.bind (·.child id) = none) :
    IsTree (addChild nodes node id) where
  forward := MemoryTrie.forward_insertChild h.forward hnode id
  unique := by
    intro first second character character' next hfirst hsecond
    obtain hold | ⟨rfl, rfl, rfl⟩ := (edge_addChild hnode).mp hfirst
    · obtain hold' | ⟨rfl, rfl, rfl⟩ := (edge_addChild hnode).mp hsecond
      · exact h.unique hold hold'
      · exact absurd (h.lt hold).2 (Nat.lt_irrefl _)
    · obtain hold' | ⟨rfl, rfl, -⟩ := (edge_addChild hnode).mp hsecond
      · exact absurd (h.lt hold').2 (Nat.lt_irrefl _)
      · exact ⟨rfl, rfl⟩
  sorted := by
    intro found hfound
    obtain ⟨index, hindex⟩ := List.mem_iff_getElem?.mp hfound
    rw [getElem?_addChild hnode] at hindex
    split at hindex
    · obtain rfl := Option.some.inj hindex
      exact List.Pairwise.nil
    · obtain ⟨old, hold, rfl⟩ := Option.map_eq_some_iff.mp hindex
      have hsorted := h.sorted old (List.mem_of_getElem? hold)
      by_cases heq : index = node
      · subst heq
        rw [hold, Option.bind_some] at hnone
        simpa using TrieNode.insertChild_sorted hsorted hnone nodes.length
      · simpa [heq] using hsorted

/-- What `insert` leaves: the old edges, new ones along the characters to new nodes only, and one
record more under the characters. -/
structure Inserted (nodes : List TrieNode) (node : Nat) (ids : List UInt8) (record : Nat)
    (after : List TrieNode) : Prop where
  tree : IsTree after
  kept : ∀ {parent character next}, Edge nodes parent character next →
    Edge after parent character next
  fresh : ∀ {parent character next}, Edge after parent character next →
    Edge nodes parent character next ∨ nodes.length ≤ next ∧
      ∃ path, path ++ [character] <+: ids ∧ walk after node path = some parent
  length : nodes.length ≤ after.length
  target : ∃ target, walk after node ids = some target ∧ ∀ other,
    recordsOf after other = recordsOf nodes other ++ if other = target then [record] else []

theorem walk_cons (nodes : List TrieNode) (node : Nat) (id : UInt8) (rest : List UInt8) :
    walk nodes node (id :: rest) =
      (nodes[node]?.bind (·.child id)).bind fun next => walk nodes next rest := by
  rw [walk, List.foldlM_cons]
  rfl

theorem insertFrom_inserted {nodes : List TrieNode} (h : IsTree nodes) {node : Nat}
    (hnode : node < nodes.length) (ids : List UInt8) (record : Nat) :
    Inserted nodes node ids record (MemoryTrie.insertFrom nodes node ids record) := by
  induction ids generalizing nodes node with
  | nil =>
    rw [MemoryTrie.insertFrom]
    exact ⟨h.pushRecord node record, edge_pushRecord.mpr,
      fun hedge => .inl (edge_pushRecord.mp hedge),
      by rw [List.length_modify], node, rfl, recordsOf_pushRecord hnode record⟩
  | cons id rest ih =>
    rw [MemoryTrie.insertFrom]
    cases hchild : nodes[node]?.bind (·.child id) with
    | some child =>
      have hedge := h.child_iff.mp hchild
      have hrest := ih h (h.lt hedge).2
      obtain ⟨target, hwalk, hrecords⟩ := hrest.target
      have hstep : ∀ path, walk (MemoryTrie.insertFrom nodes child rest record) node (id :: path) =
          walk (MemoryTrie.insertFrom nodes child rest record) child path := by
        intro path
        rw [walk_cons, hrest.tree.child_iff.mpr (hrest.kept hedge)]
        rfl
      refine ⟨hrest.tree, hrest.kept, ?_, hrest.length, target, (hstep rest).trans hwalk, hrecords⟩
      intro parent character next hnew
      refine (hrest.fresh hnew).imp_right fun hlater => ⟨hlater.1, ?_⟩
      obtain ⟨path, hleads, hparent⟩ := hlater.2
      exact ⟨id :: path, List.cons_prefix_cons.mpr ⟨rfl, hleads⟩, (hstep path).trans hparent⟩
    | none =>
      change Inserted nodes node (id :: rest) record
        (MemoryTrie.insertFrom (addChild nodes node id) nodes.length rest record)
      have hlength : (addChild nodes node id).length = nodes.length + 1 := by simp [addChild]
      have hrest := ih (h.addChild hnode hchild)
        (show nodes.length <
          (addChild nodes node id).length by rw [hlength]; exact Nat.lt_succ_self _)
      obtain ⟨target, hwalk, hrecords⟩ := hrest.target
      have hkept : ∀ {parent character next}, Edge nodes parent character next →
          Edge (addChild nodes node id) parent character next := fun hedge =>
        (edge_addChild hnode).mpr (.inl hedge)
      have hedge : Edge (addChild nodes node id) node id nodes.length :=
        (edge_addChild hnode).mpr (.inr ⟨rfl, rfl, rfl⟩)
      have hstep : ∀ path,
          walk (MemoryTrie.insertFrom (addChild nodes node id) nodes.length rest record)
          node (id :: path) =
            walk (MemoryTrie.insertFrom (addChild nodes node id) nodes.length rest record)
              nodes.length path := by
        intro path
        rw [walk_cons, hrest.tree.child_iff.mpr (hrest.kept hedge)]
        rfl
      refine ⟨hrest.tree, fun hedge => hrest.kept (hkept hedge), ?_, ?_, target,
        (hstep rest).trans hwalk, ?_⟩
      · intro parent character next hnew
        cases hrest.fresh hnew with
        | inl hadded =>
          obtain hold | ⟨rfl, rfl, rfl⟩ := (edge_addChild hnode).mp hadded
          · exact .inl hold
          · exact .inr ⟨Nat.le_refl _, [], List.cons_prefix_cons.mpr ⟨rfl, List.nil_prefix⟩, rfl⟩
        | inr hlater =>
          obtain ⟨path, hleads, hparent⟩ := hlater.2
          exact .inr ⟨by omega, id :: path, List.cons_prefix_cons.mpr ⟨rfl, hleads⟩,
            (hstep path).trans hparent⟩
      · have hle := hrest.length
        rw [hlength] at hle
        exact Nat.le_of_succ_le hle
      · intro other
        rw [hrecords, recordsOf_addChild hnode]

namespace Inserted
variable {nodes after : List TrieNode} {ids : List UInt8} {record : Nat}

theorem walk_kept (h : IsTree nodes) (hinserted : Inserted nodes 0 ids record after)
    {path : List UInt8} {node : Nat} (hwalk : walk nodes 0 path = some node) :
    walk after 0 path = some node := by
  induction path using List.reverseRecOn generalizing node with
  | nil => exact hwalk
  | append_singleton path id ih =>
    obtain ⟨parent, hparent, hedge⟩ := h.walk_concat.mp hwalk
    exact hinserted.tree.walk_concat.mpr ⟨parent, ih hparent, hinserted.kept hedge⟩

theorem walk_old (h : IsTree nodes) (hinserted : Inserted nodes 0 ids record after)
    {path : List UInt8} {node : Nat} (hwalk : walk after 0 path = some node)
    (hold : node < nodes.length) : walk nodes 0 path = some node := by
  induction path using List.reverseRecOn generalizing node with
  | nil => exact hwalk
  | append_singleton path id ih =>
    obtain ⟨parent, hparent, hedge⟩ := hinserted.tree.walk_concat.mp hwalk
    cases hinserted.fresh hedge with
    | inl hedge =>
      exact h.walk_concat.mpr ⟨parent, ih hparent ((h.lt hedge).1.trans hold), hedge⟩
    | inr hlarge => exact absurd hold (Nat.not_lt.mpr hlarge.1)

/-- The old records under a path, by the node the path leads to now. -/
theorem recordsAt_eq (h : IsTree nodes) (hinserted : Inserted nodes 0 ids record after)
    {path : List UInt8} {node : Nat} (hwalk : walk after 0 path = some node) :
    recordsAt nodes path = recordsOf nodes node := by
  cases hbefore : walk nodes 0 path with
  | some other =>
    obtain rfl := Option.some.inj (hwalk.symm.trans (hinserted.walk_kept h hbefore))
    rw [recordsAt, hbefore]
    rfl
  | none =>
    have hnew : nodes.length ≤ node := by
      refine Nat.not_lt.mp fun hold => ?_
      rw [hinserted.walk_old h hwalk hold] at hbefore
      exact absurd hbefore (by simp)
    rw [recordsAt, hbefore, recordsOf, List.getD_eq_getElem?_getD, List.getElem?_eq_none hnew]
    rfl

/-- Insertion adds the record under its characters and nowhere else. -/
theorem recordsAt (h : IsTree nodes) (hinserted : Inserted nodes 0 ids record after)
    (path : List UInt8) : Learning.recordsAt after path =
      Learning.recordsAt nodes path ++ if path = ids then [record] else [] := by
  obtain ⟨target, htarget, hrecords⟩ := hinserted.target
  cases hwalk : walk after 0 path with
  | none =>
    have hne : path ≠ ids := fun heq => by simp [← heq, hwalk] at htarget
    have hbefore : walk nodes 0 path = none := by
      cases hbefore : walk nodes 0 path with
      | none => rfl
      | some node => simp [hinserted.walk_kept h hbefore] at hwalk
    rw [Learning.recordsAt, Learning.recordsAt, hwalk, hbefore, if_neg hne]
    rfl
  | some node =>
    rw [hinserted.recordsAt_eq h hwalk, Learning.recordsAt, hwalk, Option.map_some,
      Option.getD_some,
      hrecords]
    congr 1
    by_cases heq : path = ids
    · subst heq
      rw [if_pos rfl, if_pos (Option.some.inj (hwalk.symm.trans htarget))]
    · rw [if_neg heq, if_neg]
      rintro rfl
      exact heq (hinserted.tree.walk_injective hwalk htarget)

theorem walk_isSome (h : IsTree nodes) (hinserted : Inserted nodes 0 ids record after)
    (path : List UInt8) :
    (walk after 0 path).isSome ↔ (walk nodes 0 path).isSome ∨ path <+: ids := by
  constructor
  · intro hsome
    obtain ⟨node, hwalk⟩ := Option.isSome_iff_exists.mp hsome
    cases path using List.reverseRecOn with
    | nil => exact .inl rfl
    | append_singleton path id =>
      obtain ⟨parent, hparent, hedge⟩ := hinserted.tree.walk_concat.mp hwalk
      cases hinserted.fresh hedge with
      | inl hold =>
        have hlt := h.lt hold
        have hbefore := hinserted.walk_old h hparent (hlt.1.trans hlt.2)
        exact .inl (Option.isSome_iff_exists.mpr ⟨node, h.walk_concat.mpr ⟨parent, hbefore, hold⟩⟩)
      | inr hnew =>
        obtain ⟨-, other, hleads, hother⟩ := hnew
        rw [hinserted.tree.walk_injective hparent hother]
        exact .inr hleads
  · rintro (hsome | ⟨rest, rfl⟩)
    · obtain ⟨node, hwalk⟩ := Option.isSome_iff_exists.mp hsome
      rw [hinserted.walk_kept h hwalk]
      rfl
    · obtain ⟨target, hwalk, -⟩ := hinserted.target
      rw [walk, List.foldlM_append] at hwalk
      obtain ⟨node, hnode, -⟩ := Option.bind_eq_some_iff.mp hwalk
      exact Option.isSome_iff_exists.mpr ⟨node, hnode⟩

end Inserted

/-! ### The trie of a vector -/

def scan (p : LearningRecord → Bool) (records : List LearningRecord) : List Nat :=
  (records.zipIdx.filter fun (record, _) => p record).map Prod.snd

theorem scan_concat (p : LearningRecord → Bool) (records : List LearningRecord)
    (record : LearningRecord) :
    scan p (records ++ [record]) = scan p records ++ if p record then [records.length] else [] := by
  rw [scan, scan, List.zipIdx_append, List.filter_append, List.map_append]
  cases hp : p record <;> simp [hp]

theorem scan_congr {p q : LearningRecord → Bool} {records : List LearningRecord}
    (h : ∀ record ∈ records, p record = q record) : scan p records = scan q records := by
  refine congrArg (List.map Prod.snd) (List.filter_congr ?_)
  intro pair hpair
  exact h pair.1 (List.fst_mem_of_mem_zipIdx hpair)

theorem mem_scan {p : LearningRecord → Bool} {records : List LearningRecord} {index : Nat} :
    index ∈ scan p records ↔ ∃ record, records[index]? = some record ∧ p record := by
  simp [scan, List.mem_zipIdx_iff_getElem?]

theorem scan_sorted (p : LearningRecord → Bool) (records : List LearningRecord) :
    (scan p records).Pairwise (· < ·) := by
  have hall : (records.zipIdx.map Prod.snd).Pairwise (· < ·) := by
    rw [List.zipIdx_map_snd]
    exact List.pairwise_lt_range'
  exact hall.sublist (List.filter_sublist.map _)

theorem filterMap_zipIdx {records : List LearningRecord} {pairs : List (LearningRecord × Nat)}
    (h : pairs ⊆ records.zipIdx) :
    (pairs.map Prod.snd).filterMap (fun index => records[index]?) = pairs.map Prod.fst := by
  induction pairs with
  | nil => rfl
  | cons pair rest ih =>
    have hfound := List.mem_zipIdx_iff_getElem?.mp (h List.mem_cons_self)
    rw [List.map_cons, List.filterMap_cons, hfound, List.map_cons,
      ih fun other hin => h (List.mem_cons_of_mem _ hin)]

theorem filterMap_take_scan (p : LearningRecord → Bool) (records : List LearningRecord)
    (count : Nat) : ((scan p records).take count).filterMap (fun index => records[index]?) =
      (records.filter p).take count := by
  have hfilter : (records.zipIdx.filter fun (record, _) => p record).map Prod.fst =
      records.filter p := by
    conv_rhs => rw [← List.zipIdx_map_fst 0 records, List.filter_map]
    rfl
  have hsub : (records.zipIdx.filter fun (record, _) => p record).take count ⊆ records.zipIdx :=
    fun pair hin => List.mem_of_mem_filter (List.mem_of_mem_take hin)
  rw [scan, ← List.map_take, filterMap_zipIdx hsub, List.map_take, hfilter]

theorem filterMap_scan (p : LearningRecord → Bool) (records : List LearningRecord) :
    (scan p records).filterMap (fun index => records[index]?) = records.filter p := by
  have hlength : (records.filter p).length ≤ (scan p records).length + records.length :=
    (List.length_filter_le _ _).trans (Nat.le_add_left _ _)
  rw [← List.take_of_length_le hlength, ← filterMap_take_scan,
    List.take_of_length_le (Nat.le_add_right _ _)]

structure Indexes (unicode : UnicodeTable) (characters : CharacterIdMap) (trie : MemoryTrie)
    (records : List LearningRecord) : Prop where
  tree : IsTree trie.nodes
  recordsAt : ∀ ids, recordsAt trie.nodes ids =
    scan (fun record => characters.encode unicode record.entry.ruby = some ids) records

theorem isTree_empty : IsTree MemoryTrie.empty.nodes where
  forward := MemoryTrie.empty.forward
  unique := by
    rintro node other character character' next ⟨found, hfound, hin⟩
    obtain rfl := List.mem_singleton.mp (List.mem_of_getElem? hfound)
    exact absurd hin List.not_mem_nil
  sorted found hfound := by
    obtain rfl := List.mem_singleton.mp hfound
    exact List.Pairwise.nil

theorem recordsOf_empty (node : Nat) : recordsOf MemoryTrie.empty.nodes node = [] := by
  cases node <;> rfl

section
variable {unicode : UnicodeTable} {characters : CharacterIdMap}

theorem indexes_empty : Indexes unicode characters .empty [] where
  tree := isTree_empty
  recordsAt ids := by
    rw [recordsAt]
    cases walk MemoryTrie.empty.nodes 0 ids with
    | none => rfl
    | some node =>
      rw [Option.map_some, Option.getD_some, recordsOf_empty]
      rfl

variable {trie : MemoryTrie} {records : List LearningRecord}

theorem Indexes.insert (h : Indexes unicode characters trie records) {record : LearningRecord}
    {ids : List UInt8} (hids : characters.encode unicode record.entry.ruby = some ids) :
    Indexes unicode characters (trie.insert ids records.length) (records ++ [record]) := by
  have hinserted := insertFrom_inserted h.tree (List.length_pos_of_ne_nil trie.nonempty) ids
    records.length
  refine ⟨hinserted.tree, fun path => ?_⟩
  rw [scan_concat, ← h.recordsAt path]
  refine (hinserted.recordsAt h.tree path).trans ?_
  by_cases heq : path = ids
  · simp [hids, heq]
  · simp [hids, heq, Ne.symm heq]

theorem Indexes.skip (h : Indexes unicode characters trie records) {record : LearningRecord}
    (hids : characters.encode unicode record.entry.ruby = none) :
    Indexes unicode characters trie (records ++ [record]) := by
  refine ⟨h.tree, fun path => ?_⟩
  rw [scan_concat, ← h.recordsAt path, hids]
  simp

theorem indexes_new (records : List LearningRecord) :
    Indexes unicode characters (.new unicode records characters) records := by
  induction records using List.reverseRecOn with
  | nil => exact indexes_empty
  | append_singleton records record ih =>
    rw [MemoryTrie.new, List.zipIdx_append, List.foldl_append, ← MemoryTrie.new]
    simp only [List.zipIdx_singleton, List.foldl_cons, List.foldl_nil, Nat.zero_add]
    cases hids : characters.encode unicode record.entry.ruby with
    | none => exact ih.skip hids
    | some ids => exact ih.insert hids

theorem walk_new_isSome (records : List LearningRecord) (path : List UInt8) :
    (walk (MemoryTrie.new unicode records characters).nodes 0 path).isSome ↔
      path = [] ∨ ∃ record ∈ records, ∃ ids,
        characters.encode unicode record.entry.ruby = some ids ∧ path <+: ids := by
  induction records using List.reverseRecOn with
  | nil =>
    cases path with
    | nil => simp [walk]
    | cons id rest =>
        simp [walk_cons, MemoryTrie.new, MemoryTrie.empty, TrieNode.empty, TrieNode.child]
  | append_singleton records record ih =>
    have htree : IsTree (MemoryTrie.new unicode records characters).nodes :=
      (indexes_new records).tree
    rw [MemoryTrie.new, List.zipIdx_append, List.foldl_append, ← MemoryTrie.new]
    simp only [List.zipIdx_singleton, List.foldl_cons, List.foldl_nil, Nat.zero_add]
    cases hids : characters.encode unicode record.entry.ruby with
    | none =>
      refine ih.trans (or_congr_right ?_)
      simp [or_and_right, exists_or, hids]
    | some ids =>
      have hinserted := insertFrom_inserted htree (List.length_pos_of_ne_nil
        (MemoryTrie.new unicode records characters).nonempty) ids records.length
      refine (hinserted.walk_isSome htree path).trans ?_
      rw [ih, or_assoc]
      refine or_congr_right ?_
      simp [or_and_right, exists_or, hids]

/-- A replaced entry keeps its place as long as it keeps its reading. -/
theorem Indexes.set (h : Indexes unicode characters trie records) {index : Nat}
    {record other : LearningRecord} (hold : records[index]? = some record)
    (hruby : other.entry.ruby = record.entry.ruby) :
    Indexes unicode characters trie (records.set index other) := by
  refine ⟨h.tree, fun path => ?_⟩
  rw [h.recordsAt path]
  refine List.Perm.eq_of_pairwise ?_ (scan_sorted _ _) (scan_sorted _ _) ?_
  · intro first second _ _ hlt hgt
    exact absurd hgt (Nat.not_lt.mpr (Nat.le_of_lt hlt))
  · refine (List.perm_ext_iff_of_nodup ?_ ?_).mpr ?_
    · exact (scan_sorted _ _).imp Nat.ne_of_lt
    · exact (scan_sorted _ _).imp Nat.ne_of_lt
    · intro place
      rw [mem_scan, mem_scan, List.getElem?_set]
      by_cases heq : index = place
      · subst heq
        obtain ⟨hlt, rfl⟩ := List.getElem?_eq_some_iff.mp hold
        simp [hlt, hruby]
      · rw [if_neg heq]

end

end BeanKey.Learning
