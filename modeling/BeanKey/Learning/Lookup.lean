import BeanKey.Learning.Shape
import BeanKey.Learning.Store
import Mathlib.Data.List.Infix

/-! Every lookup in the two reading indexes finds what a scan of the records finds. -/
namespace BeanKey.Learning
open BeanKey.Dictionary
open BeanKey.Descent (Leads offspring preorder visit leads_append mem_offspring offspring_nodup
  preorder_perm visit_eq shallow_of_rank Shallow)

/-- The readings a lookup is to find for a query; the encoded tree leaves out the query itself
among its completions. -/
def MatchKind.finds {α : Type*} [DecidableEq α] (kind : MatchKind) (strict : Bool)
    (query reading : List α) : Bool :=
  match kind with
  | .exact => reading = query
  | .prefixes => reading ≠ [] && reading <+: query
  | .completions => query <+: reading && !(strict && reading = query)

/-- What a completion of the query passes through: the beginnings of readings that go on from it. -/
def continuations {α : Type*} [DecidableEq α] (readings : List (List α)) (query : List α) :
    List (List α) :=
  (readings.flatMap List.inits).dedup.filter fun path => query <+: path && path ≠ query

variable {unicode : UnicodeTable} {characters : CharacterIdMap} {records : List LearningRecord}

/-! ### The nodes a lookup passes -/

def walked (child : Nat → UInt8 → Option Nat) : Nat → List UInt8 → List Nat
  | _, [] => []
  | node, id :: rest =>
    match child node id with
    | none => []
    | some next => next :: walked child next rest

theorem lookupFrom_prefixes (child : Nat → UInt8 → Option Nat) (records below : Nat → List Nat)
    (node : Nat) (found ids : _) : lookupFrom child records below .prefixes node found ids =
      found ++ (walked child node ids).flatMap records := by
  induction ids generalizing node found with
  | nil => simp [lookupFrom, walked]
  | cons id rest ih =>
    rw [lookupFrom, walked]
    cases child node id with
    | none => simp
    | some next =>
      simp only [if_true, ih, List.flatMap_cons, List.append_assoc]

theorem lookupFrom_completions (child : Nat → UInt8 → Option Nat) (records below : Nat → List Nat)
    (node : Nat) (ids : List UInt8) : lookupFrom child records below .completions node [] ids =
      ((ids.foldlM child node).map below).getD [] := by
  induction ids generalizing node with
  | nil => rfl
  | cons id rest ih =>
    rw [lookupFrom, List.foldlM_cons]
    cases child node id with
    | none => rfl
    | some next => exact ih next

theorem leads_iff_walk {trie : MemoryTrie} (h : IsTree trie.nodes) {node other : Nat}
    {path : List UInt8} :
    Leads trie.children node path other ↔ walk trie.nodes node path = some other := by
  induction path generalizing node with
  | nil => simp [Leads, walk]
  | cons id path ih =>
    rw [Leads, walk_cons, Option.bind_eq_some_iff]
    refine exists_congr fun next => and_congr ?_ ih
    rw [h.child_iff]
    exact ⟨MemoryTrie.edge_of_mem_children, MemoryTrie.mem_children_of_edge⟩

abbrev MemoryTrie.step (trie : MemoryTrie) (node : Nat) (id : UInt8) : Option Nat :=
  (trie.node node).child id

theorem MemoryTrie.foldlM_step (trie : MemoryTrie) (node : Nat) (ids : List UInt8) :
    ids.foldlM trie.step node = walk trie.nodes node ids := by
  have hstep : trie.step = fun node id => trie.nodes[node]?.bind (·.child id) :=
    funext₂ trie.node_child
  rw [hstep]
  rfl

namespace MemoryTrie

theorem walked_length {trie : MemoryTrie} {node other : Nat} {path : List UInt8}
    (hwalk : walk trie.nodes node path = some other) :
    (walked trie.step node path).length = path.length := by
  induction path generalizing node with
  | nil => rfl
  | cons id path ih =>
    rw [walk_cons, ← node_child] at hwalk
    obtain ⟨next, hstep, hrest⟩ := Option.bind_eq_some_iff.mp hwalk
    rw [walked, step, hstep, List.length_cons, List.length_cons, ih hrest]

variable {trie : MemoryTrie} (h : IsTree trie.nodes)
include h

theorem step_iff {node next : Nat} {id : UInt8} :
    trie.step node id = some next ↔ (id, next) ∈ trie.children node := by
  rw [step, node_child, h.child_iff]
  exact ⟨mem_children_of_edge, edge_of_mem_children⟩

theorem mem_walked {node other : Nat} {ids : List UInt8} :
    other ∈ walked trie.step node ids ↔
      ∃ path, path ≠ [] ∧ path <+: ids ∧ Leads trie.children node path other := by
  induction ids generalizing node with
  | nil => simp [walked]
  | cons id rest ih =>
    constructor
    · intro hin
      rw [walked] at hin
      cases hstep : trie.step node id with
      | none => simp [hstep] at hin
      | some next =>
        have hchild := (step_iff h).mp hstep
        rw [hstep] at hin
        cases hin with
        | head => exact ⟨[id], by simp, by simp, other, hchild, rfl⟩
        | tail _ hlater =>
          obtain ⟨path, -, hinitial, hleads⟩ := ih.mp hlater
          exact ⟨id :: path, by simp, by simpa using hinitial, next, hchild, hleads⟩
    · rintro ⟨path, hne, hinitial, hleads⟩
      cases path with
      | nil => exact absurd rfl hne
      | cons id' path =>
        obtain ⟨rfl, hshorter⟩ := List.cons_prefix_cons.mp hinitial
        obtain ⟨next, hchild, hrest⟩ := hleads
        rw [walked, (step_iff h).mpr hchild]
        by_cases hend : path = []
        · subst hend
          obtain rfl : next = other := hrest
          exact List.mem_cons_self
        · exact List.mem_cons_of_mem _ (ih.mpr ⟨path, hend, hshorter, hrest⟩)

/-- Each node a lookup comes to is later than those before. -/
theorem walked_sorted (node : Nat) (ids : List UInt8) :
    (node :: walked trie.step node ids).Pairwise (· < ·) := by
  induction ids generalizing node with
  | nil => exact List.pairwise_singleton _ _
  | cons id rest ih =>
    rw [walked]
    cases hstep : trie.step node id with
    | none => exact List.pairwise_singleton _ _
    | some next =>
      have hlt := (trie.children_forward ((step_iff h).mp hstep)).1
      have hrest := ih next
      refine List.pairwise_cons.mpr ⟨fun other hin => ?_, hrest⟩
      cases hin with
      | head => exact hlt
      | tail _ hlater => exact hlt.trans ((List.pairwise_cons.mp hrest).1 other hlater)

theorem leads_unique {path path' : List UInt8} {node : Nat}
    (hleads : Leads trie.children 0 path node) (hleads' : Leads trie.children 0 path' node) :
    path = path' :=
  h.walk_injective ((leads_iff_walk h).mp hleads) ((leads_iff_walk h).mp hleads')

theorem children_keys_nodup (node : Nat) : ((trie.children node).map Prod.fst).Nodup :=
  (children_sorted h node).imp UInt8.ne_of_lt

end MemoryTrie

/-! ### The nodes below a node -/

namespace MemoryTrie

theorem pendingRecords_eq (trie : MemoryTrie) (fuel : Nat) (pending : List Nat) :
    trie.pendingRecords fuel pending =
      (visit trie.children fuel pending).flatMap (recordsOf trie.nodes) := by
  induction fuel generalizing pending with
  | zero => rfl
  | succ fuel ih =>
    cases pending with
    | nil => rfl
    | cons node pending => rw [pendingRecords, visit, ih, List.flatMap_cons]; rfl

theorem shallow (trie : MemoryTrie) (node : Nat) :
    Shallow trie.children trie.nodes.length node := by
  obtain ⟨bound, hbound⟩ := Nat.exists_eq_succ_of_ne_zero
    (Nat.ne_of_gt (List.length_pos_of_ne_nil trie.nonempty))
  rw [hbound]
  refine shallow_of_rank id (fun node child hin => ?_) node
  have hforward := trie.children_forward hin
  simp only [id_eq]
  omega

variable {trie : MemoryTrie} (h : IsTree trie.nodes) {path : List UInt8} {node : Nat}
  (hnode : Leads trie.children 0 path node)
include h hnode

theorem offspring_subset (depth : Nat) :
    (node :: offspring trie.children depth node) ⊆ List.range trie.nodes.length := by
  intro other hin
  rw [List.mem_range]
  have hpath : ∃ path, Leads trie.children 0 path other := by
    cases hin with
    | head => exact ⟨path, hnode⟩
    | tail _ hbelow =>
      obtain ⟨rest, -, -, hrest⟩ := mem_offspring.mp hbelow
      exact ⟨path ++ rest, (leads_append _ _).mpr ⟨node, hnode, hrest⟩⟩
  obtain ⟨path, hleads⟩ := hpath
  have hwalk := (leads_iff_walk h).mp hleads
  cases path using List.reverseRecOn with
  | nil =>
    obtain rfl := Option.some.inj hwalk
    exact List.length_pos_of_ne_nil trie.nonempty
  | append_singleton path id =>
    obtain ⟨parent, -, hedge⟩ := h.walk_concat.mp hwalk
    exact (h.lt hedge).2

theorem offspring_nodup_cons (depth : Nat) :
    (node :: offspring trie.children depth node).Nodup := by
  refine List.nodup_cons.mpr ⟨fun hin => ?_,
    offspring_nodup (children_keys_nodup h) (fun hleads hleads' => leads_unique h hleads hleads')
      depth hnode⟩
  obtain ⟨rest, hne, -, hrest⟩ := mem_offspring.mp hin
  have hpaths := leads_unique h hnode ((leads_append _ _).mpr ⟨node, hnode, hrest⟩)
  exact hne (List.self_eq_append_right.mp hpaths)

/-- The pending loop of a completion lists the node and what is below it, once. -/
theorem visit_perm : ∃ depth, (visit trie.children trie.nodes.length [node]).Perm
    (node :: offspring trie.children depth node) ∧ depth + 1 = trie.nodes.length := by
  obtain ⟨depth, hdepth⟩ := Nat.exists_eq_succ_of_ne_zero
    (Nat.ne_of_gt (List.length_pos_of_ne_nil trie.nonempty))
  have hperm := @preorder_perm _ _ trie.children depth node
  have hfuel : ([node].flatMap (preorder trie.children trie.nodes.length)).length ≤
      trie.nodes.length := by
    rw [List.flatMap_singleton, hdepth, hperm.length_eq, ← hdepth]
    have hsubperm := List.subperm_of_subset (offspring_nodup_cons h hnode depth)
      (offspring_subset h hnode depth)
    simpa using hsubperm.length_le
  refine ⟨depth, ?_, hdepth.symm⟩
  rw [visit_eq _ trie.shallow hfuel, List.flatMap_singleton, hdepth]
  exact hperm

end MemoryTrie

/-! ### Scans by nodes -/

theorem scan_eq_nil {p : LearningRecord → Bool} (h : ∀ record ∈ records, p record = false) :
    scan p records = [] := by
  refine List.map_eq_nil_iff.mpr (List.filter_eq_nil_iff.mpr fun pair hin => ?_)
  rw [Bool.not_eq_true]
  exact h pair.1 (List.fst_mem_of_mem_zipIdx hin)

namespace Indexes
variable {trie : MemoryTrie} (h : Indexes unicode characters trie records)
include h

theorem recordsOf_eq {path : List UInt8} {node : Nat} (hwalk : walk trie.nodes 0 path = some node) :
    recordsOf trie.nodes node =
      scan (fun record => characters.encode unicode record.entry.ruby = some path) records := by
  rw [← h.recordsAt, Learning.recordsAt, hwalk]
  rfl

theorem mem_recordsOf {path : List UInt8} {node index : Nat}
    (hwalk : walk trie.nodes 0 path = some node) :
    index ∈ recordsOf trie.nodes node ↔ ∃ record, records[index]? = some record ∧
      characters.encode unicode record.entry.ruby = some path := by
  rw [h.recordsOf_eq hwalk, mem_scan]
  simp only [decide_eq_true_eq]

theorem exists_walk {record : LearningRecord} {index : Nat}
    (hrecord : records[index]? = some record)
    {path : List UInt8} (hids : characters.encode unicode record.entry.ruby = some path) :
    ∃ node, walk trie.nodes 0 path = some node := by
  have hin : index ∈ Learning.recordsAt trie.nodes path := by
    rw [h.recordsAt, mem_scan]
    exact ⟨record, hrecord, by simpa using hids⟩
  rw [Learning.recordsAt] at hin
  cases hwalk : walk trie.nodes 0 path with
  | none =>
    rw [hwalk] at hin
    exact absurd hin List.not_mem_nil
  | some node => exact ⟨node, rfl⟩

/-- The records of nodes, each listed once, are those a scan finds by the keys of the nodes. -/
theorem flatMap_eq_scan {nodes : List Nat} (hnodup : nodes.Nodup) {p : List UInt8 → Bool}
    (hreached : ∀ node ∈ nodes, ∃ path, walk trie.nodes 0 path = some node)
    (hmem : ∀ path node, walk trie.nodes 0 path = some node → (node ∈ nodes ↔ p path)) :
    (nodes.flatMap (recordsOf trie.nodes)).mergeSort =
      scan (fun record => (characters.encode unicode record.entry.ruby).any p) records := by
  have hdistinct : (nodes.flatMap (recordsOf trie.nodes)).Nodup := by
    refine List.nodup_flatMap.mpr ⟨fun node hin => ?_, hnodup.imp_of_mem ?_⟩
    · obtain ⟨path, hwalk⟩ := hreached node hin
      rw [h.recordsOf_eq hwalk]
      exact (scan_sorted _ _).imp Nat.ne_of_lt
    · intro first second hfirst hsecond hne index hin hin'
      obtain ⟨path, hwalk⟩ := hreached first hfirst
      obtain ⟨path', hwalk'⟩ := hreached second hsecond
      obtain ⟨record, hrecord, hids⟩ := (h.mem_recordsOf hwalk).mp hin
      obtain ⟨other, hother, hids'⟩ := (h.mem_recordsOf hwalk').mp hin'
      obtain rfl := Option.some.inj (hrecord.symm.trans hother)
      obtain rfl := Option.some.inj (hids.symm.trans hids')
      exact hne (Option.some.inj (hwalk.symm.trans hwalk'))
  have hsame : ∀ index, index ∈ nodes.flatMap (recordsOf trie.nodes) ↔
      index ∈ scan (fun record => (characters.encode unicode record.entry.ruby).any p) records := by
    intro index
    rw [List.mem_flatMap, mem_scan]
    constructor
    · rintro ⟨node, hin, hindex⟩
      obtain ⟨path, hwalk⟩ := hreached node hin
      obtain ⟨record, hrecord, hids⟩ := (h.mem_recordsOf hwalk).mp hindex
      exact ⟨record, hrecord, by simpa [hids] using (hmem path node hwalk).mp hin⟩
    · rintro ⟨record, hrecord, hany⟩
      obtain ⟨path, hids, hp⟩ := (Option.any_eq_true _ _).mp hany
      obtain ⟨node, hwalk⟩ := h.exists_walk hrecord hids
      exact ⟨node, (hmem path node hwalk).mpr hp,
        (h.mem_recordsOf hwalk).mpr ⟨record, hrecord, hids⟩⟩
  have hperm := (List.mergeSort_perm (nodes.flatMap (recordsOf trie.nodes))
    fun index other => decide (index ≤ other)).trans
      ((List.perm_ext_iff_of_nodup hdistinct ((scan_sorted _ _).imp Nat.ne_of_lt)).mpr hsame)
  refine hperm.eq_of_pairwise ?_ (List.pairwise_mergeSort' (· ≤ ·) _)
    ((scan_sorted _ _).imp Nat.le_of_lt)
  exact fun _ _ _ _ hle hge => Nat.le_antisymm hle hge

end Indexes

/-! ### The lookups of the trie -/

def scanIds (unicode : UnicodeTable) (characters : CharacterIdMap) (records : List LearningRecord)
    (kind : MatchKind) (strict : Bool) (ids : List UInt8) : List Nat :=
  scan (fun record => (characters.encode unicode record.entry.ruby).any (kind.finds strict ids ·))
    records

theorem scanIds_exact (ids : List UInt8) (strict : Bool) :
    scan (fun record => characters.encode unicode record.entry.ruby = some ids) records =
      scanIds unicode characters records .exact strict ids := by
  refine scan_congr fun record _ => ?_
  cases characters.encode unicode record.entry.ruby <;> simp [MatchKind.finds]

namespace Indexes
variable {trie : MemoryTrie} (h : Indexes unicode characters trie records)
include h

theorem walked_eq_scan (ids : List UInt8) (strict : Bool) :
    ((walked trie.step 0 ids).flatMap (recordsOf trie.nodes)).mergeSort =
      scanIds unicode characters records .prefixes strict ids := by
  refine h.flatMap_eq_scan ?_ ?_ ?_
  · exact (List.pairwise_cons.mp (MemoryTrie.walked_sorted h.tree 0 ids)).2.imp Nat.ne_of_lt
  · intro node hin
    obtain ⟨path, -, -, hleads⟩ := (MemoryTrie.mem_walked h.tree).mp hin
    exact ⟨path, (leads_iff_walk h.tree).mp hleads⟩
  · intro path node hwalk
    have hleads := (leads_iff_walk h.tree).mpr hwalk
    simp only [MemoryTrie.mem_walked h.tree, MatchKind.finds, Bool.and_eq_true, decide_eq_true_eq]
    constructor
    · rintro ⟨path', hne, hinitial, hleads'⟩
      obtain rfl := MemoryTrie.leads_unique h.tree hleads hleads'
      exact ⟨by simpa using hne, hinitial⟩
    · rintro ⟨hne, hinitial⟩
      exact ⟨path, by simpa using hne, hinitial, hleads⟩

/-- The nodes below a node are those of the readings that go on from its own. -/
theorem mem_offspring_iff {ids path : List UInt8} {node other depth : Nat}
    (hwalk : walk trie.nodes 0 ids = some node) (hother : walk trie.nodes 0 path = some other)
    (hdeep : Shallow trie.children (depth + 1) node) :
    other ∈ offspring trie.children depth node ↔ ids <+: path ∧ path ≠ ids := by
  have hnode := (leads_iff_walk h.tree).mpr hwalk
  have hleads := (leads_iff_walk h.tree).mpr hother
  rw [mem_offspring]
  constructor
  · rintro ⟨rest, hne, -, hrest⟩
    obtain rfl := MemoryTrie.leads_unique h.tree hleads
      ((leads_append _ _).mpr ⟨node, hnode, hrest⟩)
    exact ⟨List.prefix_append _ _, by simpa using hne⟩
  · rintro ⟨⟨rest, rfl⟩, hne⟩
    obtain ⟨middle, hmiddle, hrest⟩ := (leads_append _ _).mp hleads
    obtain rfl : middle = node := by
      have hsame := (leads_iff_walk h.tree).mp hmiddle
      exact Option.some.inj (hsame.symm.trans hwalk)
    exact ⟨rest, by simpa using hne, Nat.le_of_lt_succ (hdeep rest other hrest), hrest⟩

theorem exists_walk_of_mem_offspring {ids : List UInt8} {node other depth : Nat}
    (hwalk : walk trie.nodes 0 ids = some node) (hin : other ∈ offspring trie.children depth node) :
    ∃ path, walk trie.nodes 0 path = some other := by
  obtain ⟨rest, -, -, hrest⟩ := mem_offspring.mp hin
  exact ⟨ids ++ rest, (leads_iff_walk h.tree).mp ((leads_append _ _).mpr
    ⟨node, (leads_iff_walk h.tree).mpr hwalk, hrest⟩)⟩

theorem offspring_eq_scan {ids : List UInt8} {node depth : Nat}
    (hwalk : walk trie.nodes 0 ids = some node) (hdeep : Shallow trie.children (depth + 1) node) :
    ((offspring trie.children depth node).flatMap (recordsOf trie.nodes)).mergeSort =
      scanIds unicode characters records .completions true ids := by
  have hnode := (leads_iff_walk h.tree).mpr hwalk
  refine h.flatMap_eq_scan
    (List.nodup_cons.mp (MemoryTrie.offspring_nodup_cons h.tree hnode depth)).2
    (fun other hin => h.exists_walk_of_mem_offspring hwalk hin) ?_
  intro path other hother
  rw [h.mem_offspring_iff hwalk hother hdeep]
  simp [MatchKind.finds]

theorem below_eq_scan {ids : List UInt8} {node : Nat} (hwalk : walk trie.nodes 0 ids = some node) :
    (trie.below node).mergeSort = scanIds unicode characters records .completions false ids := by
  have hnode := (leads_iff_walk h.tree).mpr hwalk
  obtain ⟨depth, hperm, hdepth⟩ := MemoryTrie.visit_perm h.tree hnode
  rw [MemoryTrie.below, MemoryTrie.pendingRecords_eq]
  refine h.flatMap_eq_scan
    (hperm.nodup_iff.mpr (MemoryTrie.offspring_nodup_cons h.tree hnode depth))
    ?_ ?_
  · intro other hin
    cases List.mem_cons.mp (hperm.mem_iff.mp hin) with
    | inl heq => exact ⟨ids, heq ▸ hwalk⟩
    | inr hbelow => exact h.exists_walk_of_mem_offspring hwalk hbelow
  · intro path other hother
    have hown : other = node ↔ path = ids := by
      constructor
      · rintro rfl
        exact h.tree.walk_injective hother hwalk
      · rintro rfl
        exact Option.some.inj (hother.symm.trans hwalk)
    rw [hperm.mem_iff, List.mem_cons, hown,
      h.mem_offspring_iff hwalk hother (hdepth ▸ trie.shallow node)]
    simp only [MatchKind.finds, Bool.false_and, Bool.not_false, Bool.and_true, decide_eq_true_eq]
    constructor
    · rintro (rfl | ⟨hinitial, -⟩)
      · exact List.prefix_rfl
      · exact hinitial
    · intro hinitial
      by_cases heq : path = ids
      · exact .inl heq
      · exact .inr ⟨hinitial, heq⟩

/-- Where the characters lead nowhere, no reading begins with them. -/
theorem scan_of_no_walk {ids : List UInt8} (hwalk : walk trie.nodes 0 ids = none) (strict : Bool) :
    scanIds unicode characters records .completions strict ids = [] := by
  have hnone : ∀ path node, walk trie.nodes 0 path = some node →
      (node ∈ ([] : List Nat) ↔ MatchKind.completions.finds strict ids path) := by
    intro path node hnode
    refine iff_of_false List.not_mem_nil fun hfinds => ?_
    have hinitial : ids <+: path := by
      simp only [MatchKind.finds, Bool.and_eq_true, decide_eq_true_eq] at hfinds
      exact hfinds.1
    obtain ⟨rest, rfl⟩ := hinitial
    obtain ⟨middle, hmiddle, -⟩ := (leads_append _ _).mp ((leads_iff_walk h.tree).mpr hnode)
    rw [(leads_iff_walk h.tree).mp hmiddle] at hwalk
    exact absurd hwalk (by simp)
  have hscan := h.flatMap_eq_scan List.nodup_nil (fun _ hin => absurd hin List.not_mem_nil) hnone
  exact hscan.symm.trans List.mergeSort_nil

/-- Every lookup in the trie finds what a scan of its records finds. -/
theorem lookup_eq_scan (ids : List UInt8) (kind : MatchKind) :
    trie.lookup ids kind = scanIds unicode characters records kind false ids := by
  cases kind with
  | exact => rw [h.lookup_exact, scanIds_exact]
  | prefixes =>
    rw [← h.walked_eq_scan ids false, MemoryTrie.lookup, lookupFrom_prefixes]
    rfl
  | completions =>
    rw [MemoryTrie.lookup, lookupFrom_completions, trie.foldlM_step]
    cases hwalk : walk trie.nodes 0 ids with
    | none => rw [h.scan_of_no_walk hwalk]; exact List.mergeSort_nil
    | some node => exact h.below_eq_scan hwalk

end Indexes

/-! ### The lookups of the encoded tree -/

/-- A lookup in the encoded tree comes to the places of the nodes it would come to in the tree. -/
theorem walked_related {trie : MemoryTrie} {louds : Louds}
    (h : louds.Encodes trie.children trie.orderedNodes) {place node : Nat}
    (hplace : StandsFor trie.orderedNodes place node) (ids : List UInt8) :
    List.Forall₂ (StandsFor trie.orderedNodes) (walked louds.searchChild place ids)
      (walked trie.step node ids) := by
  induction ids generalizing place node with
  | nil => exact .nil
  | cons id rest ih =>
    obtain ⟨index, rfl, hnode⟩ := hplace
    have hsearch := h.searchChild_step hnode id
    rw [walked, walked, MemoryTrie.step, TrieNode.child]
    cases hchild : (trie.node node).children.find? fun pair => pair.1 = id with
    | none =>
      rw [MemoryTrie.children, hchild] at hsearch
      rw [hsearch]
      exact .nil
    | some pair =>
      rw [MemoryTrie.children, hchild] at hsearch
      obtain ⟨next, hnext, hplace⟩ := hsearch
      rw [hnext]
      exact .cons ⟨next, rfl, hplace⟩ (ih ⟨next, rfl, hplace⟩)

theorem path_length_le {trie : MemoryTrie} (h : IsTree trie.nodes) {path : List UInt8} {node : Nat}
    (hwalk : walk trie.nodes 0 path = some node) : path.length < trie.orderedNodes.length := by
  have hsorted := MemoryTrie.walked_sorted h 0 path
  have hsub : 0 :: walked trie.step 0 path ⊆ trie.orderedNodes := by
    intro other hin
    cases hin with
    | head => exact List.mem_cons_self
    | tail _ hlater =>
      obtain ⟨path', -, -, hleads⟩ := (MemoryTrie.mem_walked h).mp hlater
      exact MemoryTrie.mem_orderedNodes h ((leads_iff_walk h).mp hleads)
  have hle := (List.subperm_of_subset (hsorted.imp Nat.ne_of_lt) hsub).length_le
  rw [List.length_cons, MemoryTrie.walked_length hwalk] at hle
  exact hle

/-- A completion passes through no more nodes than there are beginnings of readings. -/
theorem offspring_length_le (records : List LearningRecord) {ids : List UInt8} {node : Nat}
    (hwalk : walk (MemoryTrie.new unicode records characters).nodes 0 ids = some node)
    (depth : Nat) :
    (offspring (MemoryTrie.new unicode records characters).children depth node).length ≤
      (continuations (records.filterMap fun record =>
        characters.encode unicode record.entry.ruby) ids).length := by
  have hindexes : Indexes unicode characters (.new unicode records characters) records :=
    indexes_new records
  have hnodup := (List.nodup_cons.mp (MemoryTrie.offspring_nodup_cons hindexes.tree
    ((leads_iff_walk hindexes.tree).mpr hwalk) depth)).2
  have hpath : ∀ other ∈ offspring (MemoryTrie.new unicode records characters).children depth node,
      ∃ path, walk (MemoryTrie.new unicode records characters).nodes 0 path = some other ∧
        path ∈ continuations (records.filterMap fun record =>
          characters.encode unicode record.entry.ruby) ids := by
    intro other hin
    obtain ⟨rest, hne, -, hrest⟩ := mem_offspring.mp hin
    have hother := (leads_iff_walk hindexes.tree).mp ((leads_append _ _).mpr
      ⟨node, (leads_iff_walk hindexes.tree).mpr hwalk, hrest⟩)
    refine ⟨_, hother, ?_⟩
    obtain hnil | ⟨record, hrecord, reading, hreading, hinitial⟩ :=
      (walk_new_isSome records _).mp (Option.isSome_iff_exists.mpr ⟨other, hother⟩)
    · exact absurd (List.append_eq_nil_iff.mp hnil).2 hne
    · simp only [continuations, List.mem_filter, List.mem_dedup, List.mem_flatMap,
        List.mem_filterMap, List.mem_inits]
      exact ⟨⟨reading, ⟨record, hrecord, hreading⟩, hinitial⟩, by simpa using hne⟩
  choose! pathOf hpathOf using hpath
  have hpaths : ((offspring (MemoryTrie.new unicode records characters).children depth node).map
      pathOf).Nodup := by
    refine hnodup.map_on fun first hfirst second hsecond heq => ?_
    have hwalk' := (hpathOf first hfirst).1
    rw [heq, (hpathOf second hsecond).1] at hwalk'
    exact (Option.some.inj hwalk').symm
  rw [← List.length_map pathOf]
  refine (List.subperm_of_subset hpaths fun path hin => ?_).length_le
  obtain ⟨other, hother, rfl⟩ := List.mem_map.mp hin
  exact (hpathOf other hother).2

namespace MemoryLouds

/-- Places of nodes below the root list the records of these nodes. -/
theorem flatMap_block {places nodes : List Nat} (hne : ∀ node ∈ nodes, node ≠ 0)
    (h : List.Forall₂ (StandsFor (MemoryTrie.new unicode records characters).orderedNodes)
      places nodes) :
    places.flatMap (new unicode records characters).block =
      nodes.flatMap (recordsOf (MemoryTrie.new unicode records characters).nodes) := by
  induction h with
  | nil => rfl
  | @cons place node places nodes hplace _ ih =>
    obtain ⟨index, rfl, hnode⟩ := hplace
    rw [List.flatMap_cons, List.flatMap_cons, new_block (hne node List.mem_cons_self) hnode,
      ih fun other hin => hne other (List.mem_cons_of_mem _ hin)]

theorem lookup_prefixes (ids : List UInt8) :
    (new unicode records characters).lookup ids .prefixes =
      scanIds unicode characters records .prefixes true ids := by
  have hindexes : Indexes unicode characters (.new unicode records characters) records :=
    indexes_new records
  have hencodes : (new unicode records characters).louds.Encodes _ _ := new_encodes
  have hwalked := walked_related hencodes ⟨0, rfl, rfl⟩ ids
  rw [← hindexes.walked_eq_scan ids true, lookup, lookupFrom_prefixes, List.nil_append,
    flatMap_block ?_ hwalked]
  intro node hin
  exact Nat.ne_zero_of_lt
    ((List.pairwise_cons.mp (MemoryTrie.walked_sorted hindexes.tree 0 ids)).1 node hin)

theorem lookup_completions {ids : List UInt8}
    (hfew : (continuations (records.filterMap fun record =>
      characters.encode unicode record.entry.ruby) ids).length ≤ 700) :
    (new unicode records characters).lookup ids .completions =
      scanIds unicode characters records .completions true ids := by
  have hindexes : Indexes unicode characters (.new unicode records characters) records :=
    indexes_new records
  have hencodes : (new unicode records characters).louds.Encodes _ _ := new_encodes
  have hsearch :=
    searchFrom_walk hencodes (show (MemoryTrie.orderedNodes _)[0]? = some 0 from rfl) ids
  rw [lookup, lookupFrom_completions, Louds.descendants, Louds.search, ← Louds.searchFrom]
  cases hwalk : walk (MemoryTrie.new unicode records characters).nodes 0 ids with
  | none =>
    rw [hwalk] at hsearch
    rw [hsearch, hindexes.scan_of_no_walk hwalk]
    exact List.mergeSort_nil
  | some node =>
    rw [hwalk] at hsearch
    obtain ⟨place, hfound, hplace⟩ := hsearch
    have hnode := (leads_iff_walk hindexes.tree).mpr hwalk
    have hdeep : Shallow (MemoryTrie.new unicode records characters).children
        ((new unicode records characters).louds.nodeCount + 1) node := by
      intro path other hleads
      have hlength := path_length_le hindexes.tree
        ((leads_iff_walk hindexes.tree).mp ((leads_append _ _).mpr ⟨node, hnode, hleads⟩))
      rw [List.length_append] at hlength
      rw [hencodes.nodeCount_eq (List.cons_ne_nil _ _)]
      omega
    have hrelated := hencodes.descendantsFrom_related
      (new unicode records characters).louds.nodeCount ⟨place, rfl, hplace⟩
      ((offspring_length_le records hwalk _).trans hfew)
    rw [hfound, Option.map_some, Option.getD_some, flatMap_block ?_ hrelated,
      hindexes.offspring_eq_scan hwalk hdeep]
    intro other hin
    obtain ⟨rest, hne, -, hrest⟩ := mem_offspring.mp hin
    refine hindexes.tree.walk_ne_zero (List.append_ne_nil_of_right_ne_nil ids hne)
      ((leads_iff_walk hindexes.tree).mp ((leads_append _ _).mpr ⟨node, hnode, hrest⟩))

/-- Every lookup in the encoded tree finds what a scan of the records finds, as long as a
completion does not visit more nodes than it may. -/
theorem lookup_eq_scan {ids : List UInt8} {kind : MatchKind}
    (hroot : ∀ record ∈ records, characters.encode unicode record.entry.ruby ≠ some [])
    (hfew : kind = .completions → (continuations (records.filterMap fun record =>
      characters.encode unicode record.entry.ruby) ids).length ≤ 700) :
    (new unicode records characters).lookup ids kind =
      scanIds unicode characters records kind true ids := by
  cases kind with
  | exact =>
    by_cases hids : ids = []
    · subst hids
      have hnone : scan (fun record => characters.encode unicode record.entry.ruby = some [])
          records = [] := scan_eq_nil fun record hin => by simpa using hroot record hin
      have hblock : (new unicode records characters).block 1 = [] := by
        rw [block, new_blocks, MemoryTrie.encode, MemoryTrie.levelOrder_fields]
        rfl
      rw [← scanIds_exact, hnone, lookup, lookupFrom, List.nil_append, hblock]
      exact List.mergeSort_nil
    · rw [lookup_exact hids, scanIds_exact]
  | prefixes => exact lookup_prefixes ids
  | completions => exact lookup_completions (hfew rfl)

end MemoryLouds

/-! ### Lookups by readings -/

def scanReadings (unicode : UnicodeTable) (records : List LearningRecord) (kind : MatchKind)
    (strict : Bool) (query : List Grapheme) : List Nat :=
  scan (fun record => kind.finds strict query (graphemes unicode record.entry.ruby)) records

open LearningStore (lookupIds positions)

theorem prefix_iff_of_mapM {first second : List Grapheme} {ids ids' : List UInt8}
    (hfirst : first.mapM characters.id = some ids)
    (hsecond : second.mapM characters.id = some ids') :
    first <+: second ↔ ids <+: ids' := by
  have hpairs := Loop.mapM_eq_some.mp hfirst
  have hpairs' := Loop.mapM_eq_some.mp hsecond
  clear hfirst hsecond
  induction hpairs generalizing second ids' with
  | nil => simp
  | @cons grapheme id first ids hid _ ih =>
    cases hpairs' with
    | nil => simp
    | @cons other id' second ids' hid' hrest =>
      have hlater : first <+: second ↔ ids <+: ids' := ih hrest
      rw [List.cons_prefix_cons, List.cons_prefix_cons, hlater]
      refine and_congr_left fun _ => ⟨?_, ?_⟩
      · rintro rfl
        exact Option.some.inj (hid.symm.trans hid')
      · rintro rfl
        exact CharacterIdMap.id_injective hid hid'

theorem eq_iff_of_mapM {first second : List Grapheme} {ids ids' : List UInt8}
    (hfirst : first.mapM characters.id = some ids)
    (hsecond : second.mapM characters.id = some ids') :
    first = second ↔ ids = ids' := by
  constructor
  · rintro rfl
    exact Option.some.inj (hfirst.symm.trans hsecond)
  · rintro rfl
    exact Loop.mapM_injective (fun _ _ _ => CharacterIdMap.id_injective) hfirst hsecond

theorem eq_nil_iff_of_mapM {graphemes : List Grapheme} {ids : List UInt8}
    (h : graphemes.mapM characters.id = some ids) : graphemes = [] ↔ ids = [] :=
  eq_iff_of_mapM h rfl

theorem exists_mapM_of_prefix {first second : List Grapheme} {ids : List UInt8}
    (hsecond : second.mapM characters.id = some ids) (hinitial : first <+: second) :
    ∃ ids', first.mapM characters.id = some ids' := by
  obtain ⟨rest, rfl⟩ := hinitial
  rw [List.mapM_append] at hsecond
  obtain ⟨ids', hids', -⟩ := Option.bind_eq_some_iff.mp hsecond
  exact ⟨ids', hids'⟩

theorem lookupIds_eq {kind : MatchKind} (hkind : kind ≠ .prefixes) (query : List Grapheme) :
    lookupIds characters kind query = query.mapM characters.id := by
  induction query with
  | nil => rfl
  | cons grapheme rest ih =>
    rw [lookupIds, List.mapM_cons]
    cases characters.id grapheme with
    | none => simp [hkind]
    | some id =>
      rw [ih]
      cases rest.mapM characters.id <;> rfl

/-- Where a query stops at an unknown grapheme, no reading goes further. -/
theorem lookupIds_prefixes {reading : List Grapheme} {own : List UInt8}
    (hown : reading.mapM characters.id = some own) (query : List Grapheme) :
    ∃ ids, lookupIds characters .prefixes query = some ids ∧ (own <+: ids ↔ reading <+: query) := by
  induction query generalizing reading own with
  | nil =>
    refine ⟨[], rfl, ?_⟩
    rw [List.prefix_nil, List.prefix_nil, eq_nil_iff_of_mapM hown]
  | cons grapheme rest ih =>
    cases hid : characters.id grapheme with
    | none =>
      refine ⟨[], by simp [lookupIds, hid], ?_⟩
      rw [List.prefix_nil, ← eq_nil_iff_of_mapM hown]
      constructor
      · rintro rfl
        exact List.nil_prefix
      · intro hinitial
        cases hpairs : Loop.mapM_eq_some.mp hown with
        | nil => rfl
        | cons hfirst _ =>
          obtain ⟨rfl, -⟩ := List.cons_prefix_cons.mp hinitial
          simp [hid] at hfirst
    | some id =>
      cases hpairs : Loop.mapM_eq_some.mp hown with
      | nil =>
        obtain ⟨ids, hids, -⟩ := ih hown
        exact ⟨id :: ids, by simp [lookupIds, hid, hids], by simp⟩
      | @cons first own' reading own hfirst hrest =>
        obtain ⟨ids, hids, hiff⟩ := ih (Loop.mapM_eq_some.mpr hrest)
        refine ⟨id :: ids, by simp [lookupIds, hid, hids], ?_⟩
        rw [List.cons_prefix_cons, List.cons_prefix_cons, hiff]
        refine and_congr_left fun _ => ⟨?_, ?_⟩
        · rintro rfl
          exact CharacterIdMap.id_injective hfirst hid
        · rintro rfl
          exact Option.some.inj (hfirst.symm.trans hid)

theorem finds_lookupIds {reading : List Grapheme} {own : List UInt8}
    (hown : reading.mapM characters.id = some own) (kind : MatchKind) (strict : Bool)
    (query : List Grapheme) :
    (lookupIds characters kind query).any (kind.finds strict · own) =
      kind.finds strict query reading := by
  by_cases hkind : kind = .prefixes
  · subst hkind
    obtain ⟨ids, hids, hiff⟩ := lookupIds_prefixes hown query
    rw [hids]
    simp [MatchKind.finds, hiff, eq_nil_iff_of_mapM hown]
  · rw [lookupIds_eq hkind]
    cases hquery : query.mapM characters.id with
    | none =>
      have hinitial : ¬query <+: reading := by
        intro hinitial
        obtain ⟨ids, hids⟩ := exists_mapM_of_prefix hown hinitial
        simp [hquery] at hids
      have hne : reading ≠ query := fun heq => hinitial (heq ▸ List.prefix_rfl)
      cases kind <;> simp_all [MatchKind.finds]
    | some ids =>
      cases kind <;> simp_all [MatchKind.finds, prefix_iff_of_mapM hquery hown,
        eq_iff_of_mapM hown hquery]

theorem continuations_ids_le (unicode : UnicodeTable) (records : List LearningRecord)
    {query : List Grapheme} {ids : List UInt8} (hquery : query.mapM characters.id = some ids) :
    (continuations (records.filterMap fun record =>
        characters.encode unicode record.entry.ruby) ids).length ≤
      (continuations (records.map fun record => graphemes unicode record.entry.ruby)
        query).length := by
  have hpath : ∀ path ∈ continuations (records.filterMap fun record =>
      characters.encode unicode record.entry.ruby) ids, ∃ graphemePath,
        graphemePath.mapM characters.id = some path ∧ graphemePath ∈
          continuations (records.map fun record => graphemes unicode record.entry.ruby) query := by
    intro path hin
    simp only [continuations, List.mem_filter, List.mem_dedup, List.mem_flatMap, List.mem_filterMap,
      List.mem_inits, Bool.and_eq_true, decide_eq_true_eq] at hin
    obtain ⟨⟨reading, ⟨record, hrecord, hreading⟩, rest, rfl⟩, hinitial, hne⟩ := hin
    have hpath := Loop.mapM_eq_some.mpr
      (List.forall₂_take_append _ path rest (Loop.mapM_eq_some.mp hreading))
    refine ⟨_, hpath, ?_⟩
    simp only [continuations, List.mem_filter, List.mem_dedup, List.mem_flatMap, List.mem_map,
      List.mem_inits, Bool.and_eq_true, decide_eq_true_eq]
    refine ⟨⟨_, ⟨record, hrecord, rfl⟩, List.take_prefix _ _⟩, ?_, ?_⟩
    · exact (prefix_iff_of_mapM hquery hpath).mpr hinitial
    · exact fun heq => hne ((eq_iff_of_mapM hpath hquery).mp heq)
  choose! pathOf hpathOf using hpath
  rw [← List.length_map pathOf]
  refine (List.subperm_of_subset ?_ fun path hin => ?_).length_le
  · refine (List.Nodup.filter _ (List.nodup_dedup _)).map_on
      fun first hfirst second hsecond heq => ?_
    have hids := (hpathOf first hfirst).1
    rw [heq, (hpathOf second hsecond).1] at hids
    exact (Option.some.inj hids).symm
  · obtain ⟨path, hpath, rfl⟩ := List.mem_map.mp hin
    exact (hpathOf path hpath).2

def ReadingsEncode (unicode : UnicodeTable) (characters : CharacterIdMap)
    (records : List LearningRecord) : Prop :=
  ∀ record ∈ records, record.entry.ruby ≠ [] ∧
    (characters.encode unicode record.entry.ruby).isSome

theorem positions_eq_scan (h : ReadingsEncode unicode characters records)
    {find : List UInt8 → MatchKind → List Nat} {kind : MatchKind} {strict : Bool} {query : Text}
    (hquery : query ≠ []) (maximumLength : Nat)
    (hfind : ∀ ids, lookupIds characters kind ((graphemes unicode query).take maximumLength) =
      some ids →
      find ids kind = scanIds unicode characters records kind strict ids) :
    positions unicode characters find kind query maximumLength =
      scanReadings unicode records kind strict ((graphemes unicode query).take maximumLength) := by
  have hreading : ∀ record ∈ records, ∃ own,
      (graphemes unicode record.entry.ruby).mapM characters.id = some own :=
    fun record hin => Option.isSome_iff_exists.mp (h record hin).2
  rw [positions, if_neg hquery, scanReadings]
  cases hids : lookupIds characters kind ((graphemes unicode query).take maximumLength) with
  | none =>
    refine (scan_eq_nil fun record hin => ?_).symm
    obtain ⟨own, hown⟩ := hreading record hin
    rw [← finds_lookupIds hown, hids]
    rfl
  | some ids =>
    dsimp only
    rw [hfind ids hids, scanIds]
    refine scan_congr fun record hin => ?_
    obtain ⟨own, hown⟩ := hreading record hin
    rw [← finds_lookupIds hown, hids, CharacterIdMap.encode, hown]
    rfl

/-- Lookups by characters and by readings find what a scan of the records finds, in the trie and,
as long as a completion does not have too many nodes to visit, in the encoded tree. -/
theorem lookups_are_scans (h : ReadingsEncode unicode characters records) (kind : MatchKind) :
    (∀ ids, (MemoryTrie.new unicode records characters).lookup ids kind =
        scanIds unicode characters records kind false ids ∧
      ((kind = .completions → (continuations (records.filterMap fun record =>
          characters.encode unicode record.entry.ruby) ids).length ≤ 700) →
        (MemoryLouds.new unicode records characters).lookup ids kind =
          scanIds unicode characters records kind true ids)) ∧
    ∀ query ≠ [], ∀ maximumLength,
      positions unicode characters (MemoryTrie.new unicode records characters).lookup kind query
          maximumLength =
        scanReadings unicode records kind false ((graphemes unicode query).take maximumLength) ∧
      ((kind = .completions → (continuations (records.map fun record =>
          graphemes unicode record.entry.ruby)
            ((graphemes unicode query).take maximumLength)).length ≤ 700) →
        positions unicode characters (MemoryLouds.new unicode records characters).lookup kind query
            maximumLength =
          scanReadings unicode records kind true
            ((graphemes unicode query).take maximumLength)) := by
  have hindexes : Indexes unicode characters (.new unicode records characters) records :=
    indexes_new records
  have hroot : ∀ record ∈ records, characters.encode unicode record.entry.ruby ≠ some [] := by
    intro record hin hempty
    have hnone := (eq_nil_iff_of_mapM hempty).mpr rfl
    exact (h record hin).1 ((graphemes_eq_nil unicode).mp hnone)
  refine ⟨fun ids => ⟨hindexes.lookup_eq_scan ids kind, MemoryLouds.lookup_eq_scan hroot⟩,
    fun query hquery maximumLength => ⟨?_, fun hfew => ?_⟩⟩
  · exact positions_eq_scan h hquery maximumLength fun ids _ => hindexes.lookup_eq_scan ids kind
  · refine positions_eq_scan h hquery maximumLength fun ids hids =>
      MemoryLouds.lookup_eq_scan hroot fun hkind => ?_
    rw [lookupIds_eq (by simp [hkind])] at hids
    exact (continuations_ids_le unicode records hids).trans (hfew hkind)

def aiRecords : List LearningRecord :=
  [['ア'], ['ア', 'イ'], ['ア']].map fun ruby =>
    { entry := { word := ['亜'], ruby, leftId := 1288, rightId := 1288, meaningId := 501
                 baseValue := -10 }
      lastUsedDay := 0, lastUpdatedDay := 0, count := 1 }

def aiCharacters : CharacterIdMap := ⟨[['ア'], ['イ']], by decide⟩

/-- The trie completes the query with itself and the longer reading, the encoded tree only with
the latter. -/
theorem lookups_ai :
    positions .kana aiCharacters (MemoryTrie.new .kana aiRecords aiCharacters).lookup .completions
        ['ア'] 10 = [0, 1, 2] ∧
      positions .kana aiCharacters
        (MemoryLouds.new .kana aiRecords aiCharacters).lookup .completions
        ['ア'] 10 = [1] := by
  have hreadings : ReadingsEncode .kana aiCharacters aiRecords := by
    rw [ReadingsEncode]
    decide +kernel
  have hscans := (lookups_are_scans hreadings .completions).2 ['ア'] (by decide) 10
  refine ⟨hscans.1.trans (by decide +kernel), (hscans.2 fun _ => ?_).trans (by decide +kernel)⟩
  decide +kernel

end BeanKey.Learning
