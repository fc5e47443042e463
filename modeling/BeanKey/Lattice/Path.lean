import BeanKey.Lattice.Mismatch
import Mathlib.Tactic.Linarith

/-! Paths through the lattice without typo correction, and what the search hands from
one node of them to the next. -/
namespace BeanKey.Lattice
open Input TopK Rounding

/-! ### Paths through the lattice -/

def LatticeNodes.Has (lattice : LatticeNodes) (node : LatticeNode) : Prop :=
  (∃ nodes ∈ lattice.surfaceNodes, node ∈ nodes) ∨ ∃ nodes ∈ lattice.inputNodes, node ∈ nodes

/-- A chain of nodes from the beginning of the text whose ranges meet, the last one first. -/
inductive LatticeNodes.IsPath (lattice : LatticeNodes) : List LatticeNode → Prop
  | start {node : LatticeNode} : lattice.Has node → node.range.startsAtZero = true →
      lattice.IsPath [node]
  | step {node last : LatticeNode} {before : List LatticeNode} : lattice.Has node →
      last.range.endIndex = node.slot.1 → lattice.IsPath (last :: before) →
      lattice.IsPath (node :: last :: before)

def LatticeNodes.IsComplete (lattice : LatticeNodes) (composing : ComposingText)
    (nodes : List LatticeNode) : Prop :=
  lattice.IsPath nodes ∧
    ∃ node before, nodes = node :: before ∧
      node.range.endIndex = .surface composing.surface.length

theorem LatticeNodes.IsPath.exists_last {lattice : LatticeNodes} {nodes : List LatticeNode}
    (h : lattice.IsPath nodes) : ∃ node before, nodes = node :: before ∧ lattice.Has node := by
  cases h with
  | start hnode _ => exact ⟨_, _, rfl, hnode⟩
  | step hnode _ _ => exact ⟨_, _, rfl, hnode⟩

theorem LatticeNodes.IsPath.has_all {lattice : LatticeNodes} {nodes : List LatticeNode}
    (h : lattice.IsPath nodes) : ∀ node ∈ nodes, lattice.Has node := by
  induction h with
  | start hnode _ => simpa using hnode
  | step hnode _ _ ih => exact List.forall_mem_cons.mpr ⟨hnode, ih⟩

section totals
variable [Rounding] {unicode : UnicodeTable} (lookups : Lookups unicode)
  (context : ConversionContext)

def headConnection (node : LatticeNode) : ℚ :=
  if node.range.startsAtZero then lookups.connectionCost context.rightId node.entry.leftId else 0

/-- The total of a path: its values and the connections along it, added up as the search does. -/
def pathTotal : List LatticeNode → ℚ
  | [] => 0
  | [node] => rounded (rounded (0 + node.entry.value) + headConnection lookups context node)
  | node :: last :: before =>
    let lead :=
      rounded (pathTotal (last :: before) + lookups.connectionCost last.entry.rightId
        node.entry.leftId)
    rounded (rounded (lead + node.entry.value) + headConnection lookups context node)

/-- The total of a path up to and with the connection to the node after it. -/
def leadTotal (nodes : List LatticeNode) (node : LatticeNode) : ℚ :=
  match nodes with
  | [] => 0
  | last :: _ =>
    rounded (pathTotal lookups context nodes +
      lookups.connectionCost last.entry.rightId node.entry.leftId)

theorem pathTotal_cons (node : LatticeNode) (before : List LatticeNode) :
    pathTotal lookups context (node :: before) =
      rounded (rounded (leadTotal lookups context before node + node.entry.value) +
        headConnection lookups context node) := by
  cases before <;> rfl

def completePaths (lattice : LatticeNodes) (composing : ComposingText) : Set RegisteredPath :=
  { path | lattice.IsComplete composing path.nodes ∧
    path.total = pathTotal lookups context path.nodes }

def pathsTo (lattice : LatticeNodes) (node : LatticeNode) : Set RegisteredPath :=
  { path | lattice.IsPath path.nodes ∧ path.nodes.head? = some node ∧
    path.total = pathTotal lookups context path.nodes }

def leads (lattice : LatticeNodes) (done : Set LatticeNode) (node : LatticeNode) :
    Set Predecessor :=
  { lead | lead.total = leadTotal lookups context lead.nodes node ∧
    (lead.nodes = [] ∧ node.range.startsAtZero = true ∨
      ∃ last before, lead.nodes = last :: before ∧ lattice.IsPath lead.nodes ∧ last ∈ done ∧
        last.range.endIndex = node.slot.1) }

end totals

variable {unicode : UnicodeTable} {tables : InputTableRegistry} {order : HashOrder}
  {composing : ComposingText} {lookups : Lookups unicode} {context : ConversionContext}
  {nBest : Nat} {lattice : LatticeNodes} {done : Set LatticeNode}

/-! ### The lattice without typo correction -/

/-- Columns of surface nodes with a slot of their own each, and no input nodes. -/
structure SurfaceLattice (composing : ComposingText) (lattice : LatticeNodes) : Prop where
  column : ∀ start nodes, lattice.surfaceNodes[start]? = some nodes →
    start < composing.surface.length ∧ (nodes.map LatticeNode.slot).Nodup ∧
      ∀ node ∈ nodes, node.slot.1 = .surface start ∧ ∃ last, node.range = .surface start last ∧
        start < last ∧ last ≤ composing.surface.length
  columns : ∀ start < composing.surface.length, ∃ nodes, lattice.surfaceNodes[start]? = some nodes
  inputs : ∀ start < composing.input.length, lattice.inputNodes[start]? = some []
  noInputs : ∀ nodes ∈ lattice.inputNodes, nodes = []

theorem placeNodes_slots (start : LatticeIndex) (range : Nat → LatticeRange)
    (entries : List (DictionaryEntry × Nat)) :
    ((placeNodes start range entries).map LatticeNode.slot).Nodup := by
  have hslots : (placeNodes start range entries).map LatticeNode.slot =
      (List.range entries.length).map fun position => (start, position) := by
    rw [placeNodes, List.map_map]
    have hsnd : (entries.zipIdx.map Prod.snd) = List.range entries.length := by
      rw [List.zipIdx_map_snd, List.range_eq_range']
    rw [← hsnd, List.map_map]
    rfl
  rw [hslots]
  exact List.nodup_range.map fun _ _ heq => (Prod.mk.inj heq).2

theorem buildLattice_surfaceLattice {additionalEntries : List DictionaryEntry}
    (hcount : (katakanaGraphemes unicode composing).length = composing.surface.length)
    (hbuild : buildLattice lookups order tables { additionalEntries } composing = some lattice) :
    SurfaceLattice composing lattice := by
  refine ⟨?_, ?_, ?_, ?_⟩
  · intro start nodes hnodes
    rw [buildLattice_surface hbuild] at hnodes
    split at hnodes
    · next hlt =>
      obtain ⟨entries, hentries, rfl⟩ := Option.map_eq_some_iff.mp hnodes
      refine ⟨hlt, placeNodes_slots _ _ _, fun node hnode => ?_⟩
      obtain ⟨hslot, last, hrange, hentry⟩ := mem_placeNodes hnode
      exact ⟨hslot, last, hrange, surfaceEntries_end hcount hentries hentry⟩
    · exact absurd hnodes (by simp)
  · intro start hlt
    rw [buildLattice_surface hbuild, if_pos hlt, surfaceEntries,
      List.getElem?_eq_getElem (hcount ▸ hlt)]
    exact ⟨_, rfl⟩
  · intro start hlt
    rw [buildLattice_input hbuild, if_pos hlt]
    rfl
  · intro nodes hnodes
    obtain ⟨start, hstart⟩ := List.mem_iff_getElem?.mp hnodes
    rw [buildLattice_input hbuild] at hstart
    split at hstart
    · exact (Option.some.inj hstart).symm
    · exact absurd hstart (by simp)

namespace SurfaceLattice
variable (h : SurfaceLattice composing lattice)
include h

theorem has_iff {node : LatticeNode} :
    lattice.Has node ↔ ∃ (start : Nat) (nodes : List LatticeNode),
      lattice.surfaceNodes[start]? = some nodes ∧ node ∈ nodes := by
  constructor
  · rintro (⟨nodes, hnodes, hnode⟩ | ⟨nodes, hnodes, hnode⟩)
    · obtain ⟨start, hstart⟩ := List.mem_iff_getElem?.mp hnodes
      exact ⟨start, nodes, hstart, hnode⟩
    · rw [h.noInputs nodes hnodes] at hnode
      exact absurd hnode List.not_mem_nil
  · rintro ⟨start, nodes, hstart, hnode⟩
    exact .inl ⟨nodes, List.mem_iff_getElem?.mpr ⟨start, hstart⟩, hnode⟩

theorem has_spec {node : LatticeNode} (hnode : lattice.Has node) :
    ∃ start last, node.slot.1 = .surface start ∧ node.range = .surface start last ∧
      start < last ∧ last ≤ composing.surface.length ∧ start < composing.surface.length := by
  obtain ⟨start, nodes, hstart, hmem⟩ := h.has_iff.mp hnode
  obtain ⟨hlt, -, hnodes⟩ := h.column start nodes hstart
  obtain ⟨hslot, last, hrange, hfirst, hlast⟩ := hnodes node hmem
  exact ⟨start, last, hslot, hrange, hfirst, hlast, hlt⟩

theorem mem_column {node : LatticeNode} (hnode : lattice.Has node) {start : Nat}
    (hslot : node.slot.1 = .surface start) {nodes : List LatticeNode}
    (hnodes : lattice.surfaceNodes[start]? = some nodes) : node ∈ nodes := by
  obtain ⟨start', nodes', hstart', hmem⟩ := h.has_iff.mp hnode
  obtain ⟨-, -, hcolumn⟩ := h.column start' nodes' hstart'
  have hsame := (hcolumn node hmem).1.symm.trans hslot
  obtain rfl : start' = start := LatticeIndex.surface.inj hsame
  obtain rfl : nodes' = nodes := Option.some.inj (hstart'.symm.trans hnodes)
  exact hmem

theorem eq_of_slot {node node' : LatticeNode} (hnode : lattice.Has node)
    (hnode' : lattice.Has node') (hslot : node.slot = node'.slot) : node = node' := by
  obtain ⟨start, nodes, hstart, hmem⟩ := h.has_iff.mp hnode
  obtain ⟨-, hnodup, hcolumn⟩ := h.column start nodes hstart
  have hmem' := h.mem_column hnode' (hslot ▸ (hcolumn node hmem).1) hstart
  exact List.inj_on_of_nodup_map hnodup hmem hmem' hslot

theorem nodesAt_eq {index : DualIndex}
    (hinput : ∀ start, index.input? = some start → start < composing.input.length) :
    lattice.nodesAt index =
      match index.surface? with
      | some start => lattice.surfaceNodes[start]?
      | none => some [] := by
  cases index with
  | input start =>
    simp [LatticeNodes.nodesAt, DualIndex.surface?, DualIndex.input?,
      h.inputs start (hinput start rfl)]
  | surface start => simp [LatticeNodes.nodesAt, DualIndex.surface?, DualIndex.input?]
  | both input surface =>
    simp [LatticeNodes.nodesAt, DualIndex.surface?, DualIndex.input?,
      h.inputs input (hinput input rfl)]

theorem next_nodes (hc : composing.surface = convertElements tables composing.input)
    {node : LatticeNode} (hnode : lattice.Has node)
    (hnot : ¬(((DualIndexMap.new order composing tables).dual node.range.endIndex).surface? =
        some composing.surface.length ∨
      ((DualIndexMap.new order composing tables).dual node.range.endIndex).input? =
        some composing.input.length)) :
    ∃ nodes, lattice.nodesAt ((DualIndexMap.new order composing tables).dual
        node.range.endIndex) = some nodes ∧ (nodes.map LatticeNode.slot).Nodup ∧
      (∀ next ∈ nodes, lattice.Has next) ∧
      ∀ next, lattice.Has next → (next ∈ nodes ↔ node.range.endIndex = next.slot.1) := by
  obtain ⟨start, last, hslot, hrange, hfirst, hlast, -⟩ := h.has_spec hnode
  have hwithin : NodeWithin composing node := ⟨start, last, hfirst, .inl ⟨hslot, hrange, hlast⟩⟩
  obtain ⟨hsurface, hinput⟩ := dual_end_within hc hwithin hnot
  have hdual : ((DualIndexMap.new order composing tables).dual
      node.range.endIndex).surface? = some last := by
    rw [hrange, LatticeRange.endIndex, DualIndexMap.dual_surface]
  obtain ⟨nodes, hnodes⟩ := h.columns last (hsurface last hdual)
  obtain ⟨-, hnodup, hcolumn⟩ := h.column last nodes hnodes
  refine ⟨nodes, ?_, hnodup, ?_, ?_⟩
  · rw [h.nodesAt_eq hinput, hdual]
    exact hnodes
  · exact fun next hnext => h.has_iff.mpr ⟨last, nodes, hnodes, hnext⟩
  · intro next hnext
    rw [hrange, LatticeRange.endIndex]
    exact ⟨fun hmem => (hcolumn next hmem).1.symm,
      fun hend => h.mem_column hnext hend.symm hnodes⟩

/-- The search takes a node for the last one exactly where the surface ends. -/
theorem ends_iff (hc : composing.surface = convertElements tables composing.input)
    {node : LatticeNode} (hnode : lattice.Has node) :
    (((DualIndexMap.new order composing tables).dual node.range.endIndex).surface? =
        some composing.surface.length ∨
      ((DualIndexMap.new order composing tables).dual node.range.endIndex).input? =
        some composing.input.length) ↔
    node.range.endIndex = .surface composing.surface.length := by
  obtain ⟨start, last, -, hrange, -, hlast, -⟩ := h.has_spec hnode
  rw [hrange, LatticeRange.endIndex, DualIndexMap.dual_surface]
  constructor
  · rintro (hend | hend)
    · rw [Option.some.inj hend]
    · have hmem := DualIndexMap.dual_surface_input hlast hend
      exact congrArg LatticeIndex.surface ((mapWithin hc).last _ hmem rfl)
  · intro hend
    exact .inl (congrArg some (LatticeIndex.surface.inj hend))

end SurfaceLattice

theorem mem_surfaceEntries_of_has {additionalEntries : List DictionaryEntry}
    (hcount : (katakanaGraphemes unicode composing).length = composing.surface.length)
    (hbuild : buildLattice lookups order tables { additionalEntries } composing = some lattice)
    {node : LatticeNode} (hnode : lattice.Has node) :
    ∃ start last entries, surfaceEntries lookups additionalEntries composing.surface.length
        (katakanaGraphemes unicode composing) start = some entries ∧
      (node.entry, last) ∈ entries ∧ node.range = .surface start last ∧
      node.slot.1 = .surface start := by
  obtain ⟨start, nodes, hstart, hmem⟩ :=
    (buildLattice_surfaceLattice hcount hbuild).has_iff.mp hnode
  rw [buildLattice_surface hbuild] at hstart
  split at hstart
  · obtain ⟨entries, hentries, rfl⟩ := Option.map_eq_some_iff.mp hstart
    obtain ⟨hslot, last, hrange, hentry⟩ := mem_placeNodes hmem
    exact ⟨start, last, entries, hentries, hentry, hrange, hslot⟩
  · exact absurd hstart (by simp)

theorem has_of_column {additionalEntries : List DictionaryEntry}
    (hbuild : buildLattice lookups order tables { additionalEntries } composing = some lattice)
    (start : Nat) (hstart : start < composing.surface.length) {node : LatticeNode}
    (hnode : ((surfaceEntries lookups additionalEntries composing.surface.length
      (katakanaGraphemes unicode composing) start).map
        (placeNodes (.surface start) (.surface start))).any (fun nodes => node ∈ nodes) = true) :
    lattice.Has node := by
  have hcolumn := buildLattice_surface hbuild start
  rw [if_pos hstart] at hcolumn
  cases hnodes : lattice.surfaceNodes[start]? with
  | none =>
    rw [← hcolumn, hnodes] at hnode
    cases hnode
  | some nodes =>
    rw [← hcolumn, hnodes, Option.any_some, decide_eq_true_eq] at hnode
    exact .inl ⟨nodes, List.mem_of_getElem? hnodes, hnode⟩

/-! ### What is handed on -/

theorem isTop_map_completePath (lookups : Lookups unicode) (context : ConversionContext)
    (node : LatticeNode) {values : List Predecessor}
    {Leads : Set Predecessor} (h : IsTop Predecessor.total nBest Leads values) :
    IsTop RegisteredPath.total nBest (completePath lookups context node '' Leads)
      (values.map (completePath lookups context node)) := by
  refine h.map ?_ ?_
  · intro lead _ lead' _ heq
    have hnodes := congrArg RegisteredPath.nodes heq
    have htotal := congrArg RegisteredPath.total heq
    simp only [completePath, List.cons.injEq, true_and] at hnodes
    simp only [completePath, rounded_exact] at htotal
    cases lead
    cases lead'
    simp only at hnodes htotal
    rw [hnodes, Predecessor.mk.injEq]
    exact ⟨rfl, by linarith⟩
  · intro lead _ lead' _ hle
    simp only [completePath, rounded_exact]
    linarith

theorem isTop_map_extendTo (lookups : Lookups unicode) (node next : LatticeNode)
    {paths : List RegisteredPath}
    {Paths : Set RegisteredPath} (h : IsTop RegisteredPath.total nBest Paths paths) :
    IsTop Predecessor.total nBest (extendTo lookups node next '' Paths)
      (paths.map (extendTo lookups node next)) := by
  refine h.map ?_ ?_
  · intro path _ path' _ heq
    have hnodes := congrArg Predecessor.nodes heq
    have htotal := congrArg Predecessor.total heq
    simp only [extendTo, rounded_exact] at hnodes htotal
    cases path
    cases path'
    simp only at hnodes htotal
    rw [hnodes, RegisteredPath.mk.injEq]
    exact ⟨rfl, by linarith⟩
  · intro path _ path' _ hle
    simp only [extendTo, rounded_exact]
    linarith

/-- Completing every lead of a node gives every path that ends with it. -/
theorem image_completePath {node : LatticeNode}
    (hnode : lattice.Has node)
    (hbefore : ∀ last, lattice.Has last → last.range.endIndex = node.slot.1 → last ∈ done) :
    completePath lookups context node '' leads lookups context lattice done node =
      pathsTo lookups context lattice node := by
  ext path
  constructor
  · rintro ⟨lead, ⟨htotal, hlead⟩, rfl⟩
    refine ⟨?_, rfl, ?_⟩
    · obtain ⟨hnil, hstart⟩ | ⟨last, before, hnodes, hpath, -, hmeet⟩ := hlead
      · rw [completePath, hnil]
        exact .start hnode hstart
      · rw [completePath, hnodes]
        exact .step hnode hmeet (hnodes ▸ hpath)
    · simp only [completePath]
      rw [pathTotal_cons, htotal]
      rfl
  · rintro ⟨hpath, hhead, htotal⟩
    obtain ⟨nodes, total⟩ := path
    replace htotal : total = pathTotal lookups context nodes := htotal
    cases hpath with
    | @start first hfirst hstart =>
      obtain rfl : first = node := Option.some.inj hhead
      refine ⟨⟨[], 0⟩, ⟨rfl, .inl ⟨rfl, hstart⟩⟩, ?_⟩
      simp only [completePath, RegisteredPath.mk.injEq, true_and]
      rw [htotal, pathTotal_cons]
      rfl
    | @step first last before hfirst hmeet hrest =>
      obtain rfl : first = node := Option.some.inj hhead
      obtain ⟨_, _, heq, hlast⟩ := hrest.exists_last
      obtain ⟨rfl, -⟩ := List.cons.inj heq
      refine ⟨⟨last :: before, leadTotal lookups context (last :: before) first⟩,
        ⟨rfl, .inr ⟨last, before, rfl, hrest, hbefore last hlast hmeet, hmeet⟩⟩, ?_⟩
      simp only [completePath, RegisteredPath.mk.injEq, true_and]
      rw [htotal, pathTotal_cons]
      rfl

theorem leads_insert {node next : LatticeNode} :
    leads lookups context lattice (insert node done) next =
      leads lookups context lattice done next ∪
        { lead | node.range.endIndex = next.slot.1 ∧
          lead ∈ extendTo lookups node next '' pathsTo lookups context lattice node } := by
  ext lead
  constructor
  · rintro ⟨htotal, hstart | ⟨last, before, hnodes, hpath, hlast, hmeet⟩⟩
    · exact .inl ⟨htotal, .inl hstart⟩
    · obtain rfl | hin := Set.mem_insert_iff.mp hlast
      · refine .inr ⟨hmeet, ⟨lead.nodes, pathTotal lookups context lead.nodes⟩,
          ⟨hpath, by rw [hnodes]; rfl, rfl⟩, ?_⟩
        obtain ⟨nodes, total⟩ := lead
        simp only at hnodes htotal ⊢
        rw [extendTo, htotal, hnodes]
        rfl
      · exact .inl ⟨htotal, .inr ⟨last, before, hnodes, hpath, hin, hmeet⟩⟩
  · rintro (⟨htotal, hstart | ⟨last, before, hnodes, hpath, hlast, hmeet⟩⟩ |
      ⟨hmeet, path, ⟨hpath, hhead, htotal⟩, rfl⟩)
    · exact ⟨htotal, .inl hstart⟩
    · exact ⟨htotal, .inr ⟨last, before, hnodes, hpath, Set.mem_insert_of_mem node hlast, hmeet⟩⟩
    · obtain ⟨nodes, total⟩ := path
      cases nodes with
      | nil => exact absurd hhead (by simp)
      | cons last before =>
        obtain rfl : last = node := Option.some.inj hhead
        simp only at htotal
        refine ⟨?_, .inr ⟨last, before, rfl, hpath, Set.mem_insert last done, hmeet⟩⟩
        simp only [extendTo, leadTotal]
        rw [htotal]

theorem foldl_insertCompleted_other [Rounding] {constraint : Option Zenz.PrefixConstraint}
    {node : LatticeNode} {completed : List RegisteredPath} {nextNodes : List LatticeNode}
    {slot : LatticeIndex × Nat} (hslot : slot ∉ nextNodes.map LatticeNode.slot)
    (predecessors : LatticeIndex × Nat → List Predecessor) :
    nextNodes.foldl (insertCompleted lookups nBest constraint node completed) predecessors slot =
      predecessors slot := by
  induction nextNodes generalizing predecessors with
  | nil => rfl
  | cons first nextNodes ih =>
    rw [List.map_cons, List.mem_cons, not_or] at hslot
    rw [List.foldl_cons, ih hslot.2, insertCompleted, Function.update_of_ne hslot.1]

theorem foldl_insertCompleted_apply [Rounding] {constraint : Option Zenz.PrefixConstraint}
    {node : LatticeNode} {completed : List RegisteredPath} {nextNodes : List LatticeNode}
    (hnodup : (nextNodes.map LatticeNode.slot).Nodup)
    (predecessors : LatticeIndex × Nat → List Predecessor) {next : LatticeNode}
    (hnext : next ∈ nextNodes) :
    nextNodes.foldl (insertCompleted lookups nBest constraint node completed) predecessors
        next.slot =
      ((completed.filter (allowsNext constraint next.entry)).map
        (extendTo lookups node next)).foldl (insertPredecessor nBest)
          (predecessors next.slot) := by
  induction nextNodes generalizing predecessors with
  | nil => exact absurd hnext List.not_mem_nil
  | cons first nextNodes ih =>
    obtain ⟨hfirst, hrest⟩ := List.nodup_cons.mp hnodup
    obtain rfl | hin := List.mem_cons.mp hnext
    · rw [List.foldl_cons, foldl_insertCompleted_other hfirst, insertCompleted,
        Function.update_self]
    · have hne : next.slot ≠ first.slot := fun heq =>
        hfirst (heq ▸ List.mem_map.mpr ⟨next, hin, rfl⟩)
      rw [List.foldl_cons, ih hrest _ hin, insertCompleted, Function.update_of_ne hne]

end BeanKey.Lattice
