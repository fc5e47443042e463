import BeanKey.Lattice.Path

/-! The paths a constraint lets through the lattice, and what the search hands on of them. -/
namespace BeanKey.Lattice
open Input TopK Zenz

/-- The constraint lets every part of the path through. -/
def Allowed (constraint : Option PrefixConstraint) : List LatticeNode → Prop
  | [] => True
  | node :: before =>
    Allowed constraint before ∧ allowsPath constraint node.entry ⟨node :: before, 0⟩ = true

section
variable {unicode : UnicodeTable} (lookups : Lookups unicode) (context : ConversionContext)
  (lattice : LatticeNodes) (constraint : Option PrefixConstraint)

def allowedTo (node : LatticeNode) : Set RegisteredPath :=
  { path | path ∈ pathsTo lookups context lattice node ∧ Allowed constraint path.nodes }

def allowedLeads (done : Set LatticeNode) (node : LatticeNode) : Set Predecessor :=
  { lead | lead ∈ leads lookups context lattice done node ∧ Allowed constraint lead.nodes ∧
    (lead.nodes ≠ [] → Allowed constraint (node :: lead.nodes)) }

def acceptedPaths (composing : ComposingText) : Set RegisteredPath :=
  { path | path ∈ completePaths lookups context lattice composing ∧
    Allowed constraint path.nodes ∧
    ∀ node, path.nodes.head? = some node → allowsResult constraint node.entry path = true }

/-- Where more paths end at a node than it keeps, the constraint treats them alike from there
on. -/
def Interchangeable (nBest : Nat) : Prop :=
  ∀ node, lattice.Has node →
    (allowedTo lookups context lattice constraint node).encard ≤ nBest ∨
      ∀ path ∈ allowedTo lookups context lattice constraint node,
        ∀ path' ∈ allowedTo lookups context lattice constraint node,
          (∀ next, lattice.Has next →
            allowsNext constraint next.entry path = allowsNext constraint next.entry path') ∧
            allowsResult constraint node.entry path = allowsResult constraint node.entry path'

end

variable {unicode : UnicodeTable} {lookups : Lookups unicode} {context : ConversionContext}
  {composing : ComposingText} {lattice : LatticeNodes} {done : Set LatticeNode}
  {constraint : Option PrefixConstraint}

theorem pathBytes_cons (node : LatticeNode) (before : List LatticeNode) :
    pathBytes (node :: before) = pathBytes before ++ utf8 node.entry.word := by
  simp [pathBytes]

theorem allowsNext_eq (next : LatticeNode) (path : RegisteredPath) (total : ℚ) :
    allowsNext constraint next.entry path =
      allowsPath constraint next.entry ⟨next :: path.nodes, total⟩ := by
  unfold allowsNext allowsPath
  rw [pathBytes_cons]

theorem allowed_next {next : LatticeNode} {path : RegisteredPath}
    (hpath : Allowed constraint path.nodes) :
    Allowed constraint (next :: path.nodes) ↔ allowsNext constraint next.entry path = true := by
  rw [allowsNext_eq next path 0]
  exact ⟨And.right, fun hnext => ⟨hpath, hnext⟩⟩

theorem allowed_none (nodes : List LatticeNode) : Allowed none nodes := by
  induction nodes with
  | nil => trivial
  | cons node before ih => exact ⟨ih, rfl⟩

theorem acceptedPaths_none (composing : ComposingText) :
    acceptedPaths lookups context lattice none composing =
      completePaths lookups context lattice composing := by
  ext path
  exact ⟨And.left, fun hpath => ⟨hpath, allowed_none _, fun _ _ => rfl⟩⟩

theorem interchangeable_none (nBest : Nat) :
    Interchangeable lookups context lattice none nBest :=
  fun _ _ => .inr fun _ _ _ _ => ⟨fun _ _ => rfl, rfl⟩

/-- Completing the leads that are let through at the node gives the paths let through it. -/
theorem image_allowedLeads {node : LatticeNode} (hnode : lattice.Has node)
    (hbefore : ∀ last, lattice.Has last → last.range.endIndex = node.slot.1 → last ∈ done) :
    { path | path ∈ completePath lookups context node ''
        allowedLeads lookups context lattice constraint done node ∧
          allowsPath constraint node.entry path = true } =
      allowedTo lookups context lattice constraint node := by
  have himage : completePath lookups context node '' leads lookups context lattice done node =
      pathsTo lookups context lattice node := image_completePath hnode hbefore
  ext path
  constructor
  · rintro ⟨⟨lead, ⟨hlead, hallowed, -⟩, rfl⟩, hpath⟩
    exact ⟨himage ▸ ⟨lead, hlead, rfl⟩, hallowed, hpath⟩
  · rintro ⟨hpath, hallowed⟩
    rw [← himage] at hpath
    obtain ⟨lead, hlead, rfl⟩ := hpath
    exact ⟨⟨lead, ⟨hlead, hallowed.1, fun _ => hallowed⟩, rfl⟩, hallowed.2⟩

/-- The leads of a node that are let through, once one more node is processed. -/
theorem allowedLeads_insert {node next : LatticeNode} :
    allowedLeads lookups context lattice constraint (insert node done) next =
      allowedLeads lookups context lattice constraint done next ∪
        { lead | node.range.endIndex = next.slot.1 ∧
          lead ∈ extendTo lookups node next ''
            { path | path ∈ allowedTo lookups context lattice constraint node ∧
              allowsNext constraint next.entry path = true } } := by
  have hinsert : leads lookups context lattice (insert node done) next =
      leads lookups context lattice done next ∪
        { lead | node.range.endIndex = next.slot.1 ∧
          lead ∈ extendTo lookups node next '' pathsTo lookups context lattice node } :=
            leads_insert
  ext lead
  constructor
  · rintro ⟨hlead, hallowed, hnext⟩
    rw [hinsert] at hlead
    cases hlead with
    | inl hlead => exact .inl ⟨hlead, hallowed, hnext⟩
    | inr hlead =>
      obtain ⟨hmeet, path, hpath, rfl⟩ := hlead
      have hne : path.nodes ≠ [] := by
        intro hnil
        have hhead := hpath.2.1
        rw [hnil] at hhead
        cases hhead
      exact .inr ⟨hmeet, path, ⟨⟨hpath, hallowed⟩, (allowed_next hallowed).mp (hnext hne)⟩, rfl⟩
  · rintro (⟨hlead, hallowed, hnext⟩ | ⟨hmeet, path, ⟨⟨hpath, hallowed⟩, hnext⟩, rfl⟩)
    · refine ⟨?_, hallowed, hnext⟩
      rw [hinsert]
      exact .inl hlead
    · refine ⟨?_, hallowed, fun _ => (allowed_next hallowed).mpr hnext⟩
      rw [hinsert]
      exact .inr ⟨hmeet, path, hpath, rfl⟩

theorem SurfaceLattice.lead_of_start (h : SurfaceLattice composing lattice) {node : LatticeNode}
    (hnode : lattice.Has node) (hstart : node.range.startsAtZero = true) {lead : Predecessor}
    (hlead : lead ∈ leads lookups context lattice done node) : lead.nodes = [] := by
  obtain ⟨-, ⟨hnil, -⟩ | ⟨last, before, hnodes, hpath, -, hmeet⟩⟩ := hlead
  · exact hnil
  · rw [hnodes] at hpath
    obtain ⟨_, _, heq, hlast⟩ := hpath.exists_last
    obtain ⟨rfl, -⟩ := List.cons.inj heq
    obtain ⟨first, stop, -, hrange, hlt, -⟩ := h.has_spec hlast
    obtain ⟨start, _, hslot, hnodeRange, -⟩ := h.has_spec hnode
    rw [hnodeRange] at hstart
    obtain rfl : start = 0 := of_decide_eq_true hstart
    rw [hrange, LatticeRange.endIndex, hslot] at hmeet
    obtain rfl := LatticeIndex.surface.inj hmeet
    exact absurd hlt (Nat.not_lt_zero _)

/-- The leads of a node pass the check at it together. -/
theorem allowsPath_alike (h : SurfaceLattice composing lattice) {node : LatticeNode}
    (hnode : lattice.Has node) :
    ∀ path ∈ completePath lookups context node ''
        allowedLeads lookups context lattice constraint done node,
      ∀ path' ∈ completePath lookups context node ''
          allowedLeads lookups context lattice constraint done node,
        allowsPath constraint node.entry path = allowsPath constraint node.entry path' := by
  have hchecked (lead : Predecessor)
      (hlead : lead ∈ allowedLeads lookups context lattice constraint done node)
      (hne : lead.nodes ≠ []) :
      allowsPath constraint node.entry (completePath lookups context node lead) = true :=
    (hlead.2.2 hne).2
  rintro _ ⟨lead, hlead, rfl⟩ _ ⟨lead', hlead', rfl⟩
  by_cases hstart : node.range.startsAtZero = true
  · have hnil := h.lead_of_start hnode hstart hlead.1
    have hnil' := h.lead_of_start hnode hstart hlead'.1
    unfold allowsPath completePath
    rw [hnil, hnil']
  · have hlater (lead : Predecessor)
        (hlead : lead ∈ allowedLeads lookups context lattice constraint done node) :
        lead.nodes ≠ [] := by
      obtain ⟨-, ⟨-, hzero⟩ | ⟨last, before, hnodes, -⟩⟩ := hlead.1
      · exact absurd hzero hstart
      · rw [hnodes]
        exact List.cons_ne_nil _ _
    rw [hchecked lead hlead (hlater lead hlead), hchecked lead' hlead' (hlater lead' hlead')]

end BeanKey.Lattice
