import BeanKey.Dictionary.LoudsSearch

/-! Trees of any bit string that parses: search and enumeration end, stay inside the vectors and
come to no node twice. The bits need not be those of a tree: what is reached from the root still is
one. -/
namespace BeanKey.Dictionary
open Packing
open BeanKey.Descent (offspring Leads)

namespace Louds

/-! ### Enumeration with a bound on the depth -/

/-- What `descendants_from` returns, and the parents it is called with. -/
structure Walk where
  output : List Nat
  visited : List Nat

/-- The loop over the children; `visit` is the call on a child with the count that is left. -/
def extendWalk (visit : Nat → Nat → Option Walk) (maxCount : Nat) : List Nat → Walk → Option Walk
  | [], walk => some walk
  | child :: rest, walk =>
    if maxCount < walk.output.length then some walk
    else (visit child (maxCount - walk.output.length)).bind fun below =>
      extendWalk visit maxCount rest
        ⟨walk.output ++ below.output, walk.visited ++ below.visited⟩

/-- `descendants_from`; the call does not end within `fuel` where it is `none`. -/
def walkFrom (louds : Louds) (maxDepth : Nat) : Nat → Nat → Nat → Nat → Option Walk
  | 0, _, _, _ => none
  | fuel + 1, depth, parent, maxCount =>
    let direct := louds.directChildren parent
    if depth = maxDepth then some ⟨direct, [parent]⟩
    else extendWalk (walkFrom louds maxDepth fuel (depth + 1)) maxCount direct ⟨direct, [parent]⟩

def searchPath (louds : Louds) (node : Nat) : List UInt8 → List Nat
  | [] => [node]
  | characterId :: rest =>
    node :: match louds.searchChild node characterId with
      | none => []
      | some child => searchPath louds child rest

inductive Reachable (louds : Louds) : Nat → Prop
  | root : Reachable louds 1
  | child {parent child : Nat} : Reachable louds parent → child ∈ louds.directChildren parent →
      Reachable louds child

end Louds

/-! ### The ranges -/

theorem zeroPositions_pairwise (position : Nat) (bits : List Bool) :
    (zeroPositions position bits).Pairwise (· < ·) ∧
      ∀ found ∈ zeroPositions position bits, position ≤ found ∧
        bits[found - position]? = some false := by
  induction bits generalizing position with
  | nil => exact ⟨.nil, fun _ hin => absurd hin List.not_mem_nil⟩
  | cons bit rest ih =>
    obtain ⟨hpairs, hrest⟩ := ih (position + 1)
    have hlater : ∀ found ∈ zeroPositions (position + 1) rest, position ≤ found ∧
        (bit :: rest)[found - position]? = some false := by
      intro found hin
      obtain ⟨hle, hbit⟩ := hrest found hin
      refine ⟨by omega, ?_⟩
      rw [show found - position = found - (position + 1) + 1 by omega, List.getElem?_cons_succ]
      exact hbit
    cases bit with
    | true => exact ⟨hpairs, hlater⟩
    | false =>
      refine ⟨List.pairwise_cons.mpr ⟨fun found hin => (hrest found hin).1, hpairs⟩, ?_⟩
      intro found hin
      cases List.mem_cons.mp hin with
      | inl heq => simp [heq]
      | inr hin => exact hlater found hin

namespace Louds

/-- What parsing has checked: a delimiter for each label, in order, and a range for each node. -/
structure ParsedAs (louds : Louds) (nodeIds : List UInt8) (zeros : List Nat) : Prop where
  ids : louds.nodeIds = nodeIds
  length : zeros.length = nodeIds.length
  increasing : zeros.Pairwise (· < ·)
  ranges : ∀ node < nodeIds.length, childRangeOf zeros nodeIds.length node =
    .ok (louds.childRange node)
  outside : ∀ node, nodeIds.length ≤ node → louds.childRange node = (0, 0)

theorem parse_parsedAs {bits : Bytes} {nodeIds : List UInt8} {louds : Louds}
    (h : parse bits nodeIds = .ok louds) :
    louds.ParsedAs nodeIds ((zeroPositions 0 (loudsBits bits)).take nodeIds.length) := by
  rw [parse] at h
  split at h
  · exact absurd h (by simp)
  · dsimp only at h
    split at h
    · exact absurd h (by simp)
    · next henough =>
      cases hranges : (List.range nodeIds.length).mapM (childRangeOf
          ((zeroPositions 0 (loudsBits bits)).take nodeIds.length) nodeIds.length) with
      | error error =>
        rw [hranges] at h
        cases h
      | ok ranges =>
        rw [hranges] at h
        cases h
        have hpairs := Loop.forall₂_of_mapM_ok hranges
        have hlength : ranges.length = nodeIds.length := by
          rw [← hpairs.length_eq, List.length_range]
        refine ⟨rfl, ?_, ?_, ?_, ?_⟩
        · exact Nat.le_antisymm (by simp) (Nat.le_of_not_lt henough)
        · exact (zeroPositions_pairwise 0 _).1.sublist (List.take_sublist _ _)
        · intro node hnode
          have hget := List.forall₂_iff_get.mp hpairs
          have hlt : node < ranges.length := hlength ▸ hnode
          have hrange := hget.2 node (by simpa using hnode) hlt
          simp only [List.get_eq_getElem, List.getElem_range] at hrange
          rw [hrange, childRange, List.getD_eq_getElem?_getD, List.getElem?_eq_getElem hlt]
          rfl
        · intro node hnode
          have hge : ranges.length ≤ node := hlength ▸ hnode
          rw [childRange, List.getD_eq_getElem?_getD, List.getElem?_eq_none hge]
          rfl

namespace ParsedAs
variable {louds : Louds} {nodeIds : List UInt8} {zeros : List Nat}
  (h : louds.ParsedAs nodeIds zeros)
include h

/-- Of two delimiters the later one is as many bits behind as it has nodes more, at least. -/
theorem zeros_apart {first second : Nat} (hle : first ≤ second) (hlt : second < nodeIds.length) :
    zeros.getD first 0 + (second - first) ≤ zeros.getD second 0 := by
  induction second, hle using Nat.le_induction with
  | base => omega
  | succ second hle ih =>
    have hbefore := ih (by omega)
    have hlength := h.length
    have hpair := List.pairwise_iff_getElem.mp h.increasing second (second + 1)
      (by omega) (by omega)
      (Nat.lt_succ_self _)
    have hsecond : second < zeros.length := by omega
    have hnext : second + 1 < zeros.length := by omega
    simp only [List.getD_eq_getElem?_getD, List.getElem?_eq_getElem hsecond,
      List.getElem?_eq_getElem hnext, Option.getD_some] at hbefore ⊢
    omega

theorem childRange_eq {node : Nat} (hpos : 0 < node) (hlt : node < nodeIds.length) :
    node ≤ zeros.getD (node - 1) 0 ∧
      louds.childRange node =
        (min (zeros.getD (node - 1) 0 - node + 2) nodeIds.length,
          min (zeros.getD node 0 - node + 1) nodeIds.length) := by
  have hrange := h.ranges node hlt
  rw [childRangeOf, if_neg (by omega)] at hrange
  dsimp only at hrange
  split at hrange
  · exact absurd hrange (by simp)
  · next hbefore =>
    split at hrange
    · exact absurd hrange (by simp)
    · exact ⟨Nat.le_of_not_lt hbefore, (Except.ok.inj hrange).symm⟩

theorem mem_directChildren {parent child : Nat} (hin : child ∈ louds.directChildren parent) :
    0 < parent ∧ parent < nodeIds.length ∧ child < nodeIds.length ∧
      zeros.getD (parent - 1) 0 - parent + 2 ≤ child ∧
        child ≤ zeros.getD parent 0 - parent := by
  rw [directChildren, List.mem_range'_1] at hin
  by_cases hlt : parent < nodeIds.length
  · by_cases hzero : parent = 0
    · have hrange := h.ranges parent hlt
      rw [childRangeOf, if_pos hzero] at hrange
      rw [← Except.ok.inj hrange] at hin
      omega
    · obtain ⟨-, hrange⟩ := h.childRange_eq (by omega) hlt
      rw [hrange] at hin
      dsimp only at hin
      omega
  · rw [h.outside parent (by omega)] at hin
    omega

theorem parent_unique {parent other child : Nat} (hparent : child ∈ louds.directChildren parent)
    (hother : child ∈ louds.directChildren other) : parent = other := by
  have happart : ∀ {parent other}, child ∈ louds.directChildren parent →
      child ∈ louds.directChildren other → ¬parent < other := by
    intro parent other hparent hother hlt
    obtain ⟨-, -, -, -, hend⟩ := h.mem_directChildren hparent
    obtain ⟨-, hother, -, hstart, -⟩ := h.mem_directChildren hother
    have := h.zeros_apart (show parent ≤ other - 1 by omega) (by omega)
    omega
  exact Nat.le_antisymm (Nat.le_of_not_lt (happart hother hparent))
    (Nat.le_of_not_lt (happart hparent hother))

/-- So many ones stand before a reached node that its children come behind it. -/
theorem ones_before {node : Nat} (hreached : louds.Reachable node) (hlt : node < nodeIds.length) :
    2 * node ≤ zeros.getD (node - 1) 0 + 1 := by
  induction hreached with
  | root =>
    have := (h.childRange_eq Nat.one_pos hlt).1
    omega
  | @child parent child _ hin ih =>
    obtain ⟨hpos, hparent, -, hstart, hend⟩ := h.mem_directChildren hin
    have hones := ih hparent
    have := h.zeros_apart (show parent ≤ child - 1 by omega) (by omega)
    omega

theorem child_later {parent child : Nat} (hreached : louds.Reachable parent)
    (hin : child ∈ louds.directChildren parent) : parent < child ∧ child < louds.nodeCount := by
  obtain ⟨hpos, hparent, hlt, hstart, -⟩ := h.mem_directChildren hin
  have hones := h.ones_before hreached hparent
  rw [nodeCount, h.ids]
  omega

end ParsedAs

/-! ### Searching -/

theorem searchChild_mem {louds : Louds} {parent child : Nat} {characterId : UInt8}
    (h : louds.searchChild parent characterId = some child) : child ∈ louds.directChildren parent :=
  List.mem_of_find?_eq_some h

theorem searchPath_head (louds : Louds) (node : Nat) (key : List UInt8) :
    ∃ rest, louds.searchPath node key = node :: rest := by
  cases key with
  | nil => exact ⟨[], rfl⟩
  | cons characterId key => exact ⟨_, rfl⟩

theorem searchPath_getLast? {louds : Louds} {node found : Nat} {key : List UInt8}
    (h : louds.searchFrom node key = some found) :
    (louds.searchPath node key).getLast? = some found := by
  induction key generalizing node with
  | nil =>
    cases h
    rfl
  | cons characterId key ih =>
    obtain ⟨child, hchild, hrest⟩ := Option.bind_eq_some_iff.mp h
    have hlast := ih hrest
    rw [searchPath, hchild]
    obtain ⟨rest, hpath⟩ := searchPath_head louds child key
    dsimp only
    rw [hpath] at hlast ⊢
    rw [List.getLast?_cons_cons]
    exact hlast

theorem ParsedAs.searchPath_increasing {louds : Louds} {nodeIds : List UInt8} {zeros : List Nat}
    (h : louds.ParsedAs nodeIds zeros) {node : Nat} (hreached : louds.Reachable node)
    (key : List UInt8) :
    (louds.searchPath node key).Pairwise (· < ·) ∧
      ∀ passed ∈ louds.searchPath node key, louds.Reachable passed ∧ node ≤ passed := by
  induction key generalizing node with
  | nil => simp [searchPath, hreached]
  | cons characterId key ih =>
    rw [searchPath]
    cases hfound : louds.searchChild node characterId with
    | none => simp [hreached]
    | some child =>
      have hin := searchChild_mem hfound
      have hlt := (h.child_later hreached hin).1
      obtain ⟨hpairs, hpassed⟩ := ih (.child hreached hin)
      dsimp only
      refine ⟨List.pairwise_cons.mpr ⟨fun passed hpath => ?_, hpairs⟩, fun passed hpath => ?_⟩
      · have := (hpassed passed hpath).2
        omega
      · cases List.mem_cons.mp hpath with
        | inl heq =>
          subst heq
          exact ⟨hreached, Nat.le_refl _⟩
        | inr hrest =>
          have hafter := hpassed passed hrest
          exact ⟨hafter.1, by omega⟩

/-! ### Enumerating -/

/-- The children with the larger numbers: all of them, below a reached node. -/
def laterChildren (louds : Louds) (node : Nat) : List (Nat × Nat) :=
  ((louds.directChildren node).filter (node < ·)).map fun child => (child, child)

theorem mem_laterChildren {louds : Louds} {node : Nat} {child : Nat × Nat} :
    child ∈ louds.laterChildren node ↔
      child.1 = child.2 ∧ child.2 ∈ louds.directChildren node ∧ node < child.2 := by
  rw [laterChildren, List.mem_map]
  constructor
  · rintro ⟨number, hin, rfl⟩
    obtain ⟨hchild, hlt⟩ := List.mem_filter.mp hin
    exact ⟨rfl, hchild, of_decide_eq_true hlt⟩
  · rintro ⟨heq, hchild, hlt⟩
    exact ⟨child.2, List.mem_filter.mpr ⟨hchild, decide_eq_true hlt⟩, Prod.ext heq.symm rfl⟩

theorem leads_le {louds : Louds} {node other : Nat} {path : List Nat}
    (h : Leads louds.laterChildren node path other) : node ≤ other := by
  induction path generalizing node with
  | nil => exact Nat.le_of_eq h
  | cons key path ih =>
    obtain ⟨next, hnext, hrest⟩ := h
    have hlt := (mem_laterChildren.mp hnext).2.2
    exact Nat.le_of_lt (Nat.lt_of_lt_of_le hlt (ih hrest))

theorem leads_concat {louds : Louds} {node other key : Nat} {path : List Nat}
    (h : Leads louds.laterChildren node (path ++ [key]) other) :
    ∃ parent, Leads louds.laterChildren node path parent ∧ key = other ∧
      other ∈ louds.directChildren parent ∧ parent < other := by
  obtain ⟨parent, hpath, next, hnext, rfl⟩ := (Descent.leads_append _ _).mp h
  obtain ⟨hkey, hchild, hlt⟩ := mem_laterChildren.mp hnext
  exact ⟨parent, hpath, hkey, hchild, hlt⟩

namespace ParsedAs
variable {louds : Louds} {nodeIds : List UInt8} {zeros : List Nat}
  (h : louds.ParsedAs nodeIds zeros)
include h

theorem laterChildren_eq {node : Nat} (hreached : louds.Reachable node) :
    (louds.laterChildren node).map Prod.snd = louds.directChildren node := by
  have hall : (louds.directChildren node).filter (node < ·) = louds.directChildren node :=
    List.filter_eq_self.mpr fun child hin => decide_eq_true (h.child_later hreached hin).1
  rw [laterChildren, hall, List.map_map]
  exact List.map_id _

theorem leads_unique {root node : Nat} {path path' : List Nat}
    (hpath : Leads louds.laterChildren root path node)
    (hpath' : Leads louds.laterChildren root path' node) : path = path' := by
  induction path using List.reverseRecOn generalizing path' node with
  | nil =>
    obtain rfl : root = node := hpath
    cases path' using List.reverseRecOn with
    | nil => rfl
    | append_singleton path' key' =>
      obtain ⟨parent, hparent, -, -, hlt⟩ := leads_concat hpath'
      exact absurd (leads_le hparent) (by omega)
  | append_singleton path key ih =>
    obtain ⟨parent, hparent, rfl, hchild, hlt⟩ := leads_concat hpath
    cases path' using List.reverseRecOn with
    | nil =>
      obtain rfl : root = key := hpath'
      exact absurd (leads_le hparent) (by omega)
    | append_singleton path' key' =>
      obtain ⟨parent', hparent', rfl, hchild', -⟩ := leads_concat hpath'
      obtain rfl := h.parent_unique hchild hchild'
      rw [ih hparent hparent']

theorem offspring_nodup (depth root : Nat) : (offspring louds.laterChildren depth root).Nodup := by
  have hroot : Leads louds.laterChildren root [] root := rfl
  refine Descent.offspring_nodup ?_ h.leads_unique depth hroot
  intro node
  rw [laterChildren, List.map_map]
  refine List.Nodup.map (fun _ _ heq => heq) ?_
  exact (List.nodup_range' 1 Nat.one_pos).filter _

theorem offspring_inside {depth root node : Nat}
    (hin : node ∈ offspring louds.laterChildren depth root) :
    root < node ∧ node < louds.nodeCount := by
  obtain ⟨path, hne, -, hleads⟩ := Descent.mem_offspring.mp hin
  cases path using List.reverseRecOn with
  | nil => exact absurd rfl hne
  | append_singleton path key =>
    obtain ⟨parent, hparent, -, hchild, hlt⟩ := leads_concat hleads
    refine ⟨Nat.lt_of_le_of_lt (leads_le hparent) hlt, ?_⟩
    rw [nodeCount, h.ids]
    exact (h.mem_directChildren hchild).2.2.1

end ParsedAs

/-- The loop comes to the children it is given, and below each of them to what `below` bounds. -/
theorem extendWalk_ends {visit : Nat → Nat → Option Walk} {below : Nat → List Nat} {maxCount : Nat}
    {children : List Nat} {walk : Walk}
    (hvisit : ∀ child ∈ children, ∀ count, ∃ found, visit child count = some found ∧
      found.output.Sublist (below child) ∧ found.visited.Subperm (child :: below child)) :
    ∃ ended, extendWalk visit maxCount children walk = some ended ∧
      ended.output.Sublist (walk.output ++ children.flatMap below) ∧
      ended.visited.Subperm
        (walk.visited ++ children.flatMap fun child => child :: below child) := by
  induction children generalizing walk with
  | nil => exact ⟨walk, rfl, by simp, by simpa using List.Subperm.refl _⟩
  | cons child children ih =>
    rw [extendWalk]
    by_cases hstop : maxCount < walk.output.length
    · rw [if_pos hstop]
      exact ⟨walk, rfl, List.sublist_append_left _ _, (List.sublist_append_left _ _).subperm⟩
    · rw [if_neg hstop]
      obtain ⟨found, hfound, houtput, hvisited⟩ := hvisit child List.mem_cons_self _
      obtain ⟨ended, hended, hendOutput, hendVisited⟩ :=
        @ih ⟨walk.output ++ found.output, walk.visited ++ found.visited⟩
          fun other hin => hvisit other (List.mem_cons_of_mem _ hin)
      refine ⟨ended, by rw [hfound]; exact hended, ?_, ?_⟩
      · rw [List.flatMap_cons, ← List.append_assoc]
        exact hendOutput.trans ((houtput.append_left _).append_right _)
      · rw [List.flatMap_cons, ← List.append_assoc]
        exact hendVisited.trans
          (List.subperm_append_right _ |>.mpr ((List.subperm_append_left _).mpr hvisited))

theorem ParsedAs.walkFrom_ends {louds : Louds} {nodeIds : List UInt8} {zeros : List Nat}
    (h : louds.ParsedAs nodeIds zeros) (maxDepth : Nat) {fuel : Nat} (depth maxCount : Nat)
    {parent : Nat} (hreached : louds.Reachable parent) (hpos : 0 < fuel)
    (hfuel : louds.nodeCount < parent + fuel) :
    ∃ walk, louds.walkFrom maxDepth fuel depth parent maxCount = some walk ∧
      walk.output.Sublist (offspring louds.laterChildren fuel parent) ∧
      walk.visited.Subperm (parent :: offspring louds.laterChildren fuel parent) := by
  induction fuel generalizing depth parent maxCount with
  | zero => exact absurd hpos (Nat.lt_irrefl 0)
  | succ fuel ih =>
    rw [walkFrom, offspring, h.laterChildren_eq hreached]
    by_cases hend : depth = maxDepth
    · rw [if_pos hend]
      exact ⟨_, rfl, List.sublist_append_left _ _, (List.singleton_sublist.mpr (by simp)).subperm⟩
    · rw [if_neg hend]
      obtain ⟨walk, hwalk, houtput, hvisited⟩ := @extendWalk_ends _
        (offspring louds.laterChildren fuel) maxCount _ ⟨louds.directChildren parent, [parent]⟩
        fun child hin count => by
          obtain ⟨hlater, hlt⟩ := h.child_later hreached hin
          exact ih (depth + 1) count (.child hreached hin) (by omega) (by omega)
      refine ⟨walk, hwalk, houtput, hvisited.trans ?_⟩
      refine (List.Perm.cons parent ?_).subperm
      have hsplit := List.flatMap_append_perm (louds.directChildren parent) (fun child => [child])
        (offspring louds.laterChildren fuel)
      rw [List.flatMap_singleton'] at hsplit
      exact hsplit.symm

theorem extendWalk_more {visit visit' : Nat → Nat → Option Walk} (hvisit : ∀ child count found,
      visit child count = some found → visit' child count = some found)
    {maxCount : Nat} {children : List Nat} {walk ended : Walk}
    (h : extendWalk visit maxCount children walk = some ended) :
    extendWalk visit' maxCount children walk = some ended := by
  induction children generalizing walk with
  | nil => exact h
  | cons child children ih =>
    rw [extendWalk] at h ⊢
    by_cases hstop : maxCount < walk.output.length
    · rwa [if_pos hstop] at h ⊢
    · rw [if_neg hstop] at h ⊢
      obtain ⟨found, hfound, hrest⟩ := Option.bind_eq_some_iff.mp h
      rw [hvisit _ _ _ hfound]
      exact ih hrest

theorem walkFrom_more {louds : Louds} {maxDepth fuel depth parent maxCount : Nat} {walk : Walk}
    (h : louds.walkFrom maxDepth fuel depth parent maxCount = some walk) :
    louds.walkFrom maxDepth (fuel + 1) depth parent maxCount = some walk := by
  induction fuel generalizing depth parent maxCount walk with
  | zero => cases h
  | succ fuel ih =>
    rw [walkFrom] at h ⊢
    by_cases hend : depth = maxDepth
    · rwa [if_pos hend] at h ⊢
    · rw [if_neg hend] at h ⊢
      exact extendWalk_more (fun _ _ _ hfound => ih hfound) h

/-- Where the depth is no bound, the walk lists what `descendantsFrom` does. -/
theorem walkFrom_output {louds : Louds} {maxDepth fuel depth parent maxCount : Nat} {walk : Walk}
    (hdepth : depth + fuel ≤ maxDepth)
    (h : louds.walkFrom maxDepth fuel depth parent maxCount = some walk) :
    walk.output = louds.descendantsFrom fuel parent maxCount := by
  induction fuel generalizing depth parent maxCount walk with
  | zero => cases h
  | succ fuel ih =>
    have hloop : ∀ (children : List Nat) (start : Walk),
        extendWalk (louds.walkFrom maxDepth fuel (depth + 1)) maxCount children start = some walk →
        walk.output =
          extendDescendants (louds.descendantsFrom fuel) maxCount children start.output := by
      intro children
      induction children with
      | nil =>
        intro start hstart
        obtain rfl := Option.some.inj hstart
        rfl
      | cons child children ihRest =>
        intro start hstart
        rw [extendWalk] at hstart
        rw [extendDescendants]
        by_cases hstop : maxCount < start.output.length
        · rw [if_pos hstop] at hstart ⊢
          exact congrArg Walk.output (Option.some.inj hstart).symm
        · rw [if_neg hstop] at hstart ⊢
          obtain ⟨found, hfound, hrest⟩ := Option.bind_eq_some_iff.mp hstart
          rw [← ih (by omega) hfound]
          exact ihRest _ hrest
    rw [walkFrom, if_neg (by omega)] at h
    exact hloop _ _ h

theorem ParsedAs.walkFrom_descendants {louds : Louds} {nodeIds : List UInt8} {zeros : List Nat}
    (h : louds.ParsedAs nodeIds zeros) {maxDepth root maxCount : Nat} {walk : Walk}
    (hreached : louds.Reachable root) (hdepth : louds.nodeCount ≤ maxDepth)
    (hwalk : louds.walkFrom maxDepth (louds.nodeCount + 1) 0 root maxCount = some walk) :
    walk.output = louds.descendantsFrom louds.nodeCount root maxCount := by
  rcases Nat.eq_zero_or_pos louds.nodeCount with hnone | hsome
  · have hchildless : louds.directChildren root = [] := by
      refine List.eq_nil_iff_forall_not_mem.mpr fun child hin => ?_
      have hlt := (h.child_later hreached hin).2
      exact absurd (hnone ▸ hlt : child < 0) (Nat.not_lt_zero child)
    rw [hnone] at hwalk ⊢
    simp only [walkFrom, hchildless, extendWalk, ite_self] at hwalk
    obtain rfl := Option.some.inj hwalk
    rfl
  · have hpos : 0 < root := by
      cases hreached with
      | root => exact Nat.one_pos
      | child hparent hin => exact Nat.zero_lt_of_lt (h.child_later hparent hin).1
    obtain ⟨ended, hended, -⟩ := h.walkFrom_ends maxDepth 0 maxCount hreached hsome
      (Nat.lt_add_of_pos_left hpos)
    obtain rfl := Option.some.inj ((walkFrom_more hended).symm.trans hwalk)
    exact walkFrom_output (by omega) hended

/-- Every search and every enumeration of a reached node, in the vectors of any bytes that parse,
ends, stays inside the vectors, and comes to no node twice. Where the depth is no bound, the nodes
are those that `descendantsFrom` lists. -/
theorem search_stays_inside {bits : Bytes} {nodeIds : List UInt8} {louds : Louds}
    (hparse : parse bits nodeIds = .ok louds) :
    (let zeros := (zeroPositions 0 (loudsBits bits)).take nodeIds.length
     zeros.length = nodeIds.length ∧ ∀ found ∈ zeros, (loudsBits bits)[found]? = some false) ∧
    (∀ parent child, louds.Reachable parent → child ∈ louds.directChildren parent →
      parent < child ∧ child < louds.nodeIds.length) ∧
    (∀ key, (louds.searchPath 1 key).Pairwise (· < ·) ∧
      (∀ node ∈ louds.searchPath 1 key, louds.Reachable node) ∧
      ∀ found, louds.search key = some found → (louds.searchPath 1 key).getLast? = some found) ∧
    ∀ root maxDepth maxCount, louds.Reachable root →
      ∃ walk, (∀ fuel, louds.nodeCount < fuel →
          louds.walkFrom maxDepth fuel 0 root maxCount = some walk) ∧
        walk.output.Nodup ∧ (∀ node ∈ walk.output, root < node ∧ node < louds.nodeIds.length) ∧
        walk.visited.Nodup ∧
        (∀ node ∈ walk.visited, node = root ∨ root < node ∧ node < louds.nodeIds.length) ∧
        (louds.nodeCount ≤ maxDepth →
          walk.output = louds.descendantsFrom louds.nodeCount root maxCount) := by
  have h := parse_parsedAs hparse
  refine ⟨⟨h.length, fun found hin => ?_⟩, fun parent child => h.child_later, fun key => ?_, ?_⟩
  · exact ((zeroPositions_pairwise 0 _).2 found (List.mem_of_mem_take hin)).2
  · obtain ⟨hpairs, hpassed⟩ := h.searchPath_increasing .root key
    exact ⟨hpairs, fun node hin => (hpassed node hin).1, fun _ => searchPath_getLast?⟩
  · intro root maxDepth maxCount hreached
    obtain ⟨walk, hwalk, houtput, hvisited⟩ := h.walkFrom_ends maxDepth 0 maxCount hreached
      (Nat.succ_pos louds.nodeCount) (by omega)
    have hbelow := h.offspring_nodup (louds.nodeCount + 1) root
    have hinside : ∀ node ∈ offspring louds.laterChildren (louds.nodeCount + 1) root,
        root < node ∧ node < louds.nodeIds.length := fun node => h.offspring_inside
    refine ⟨walk, fun fuel hfuel => ?_, hbelow.sublist houtput, ?_, ?_, ?_, fun hdepth =>
      h.walkFrom_descendants hreached hdepth hwalk⟩
    · induction fuel, hfuel using Nat.le_induction with
      | base => exact hwalk
      | succ fuel _ ih => exact walkFrom_more ih
    · exact fun node hin => hinside node (houtput.subset hin)
    · have hnew : root ∉ offspring louds.laterChildren (louds.nodeCount + 1) root :=
        fun hin => Nat.lt_irrefl _ (hinside root hin).1
      obtain ⟨listed, hperm, hsub⟩ := hvisited
      exact hperm.nodup_iff.mp ((List.nodup_cons.mpr ⟨hnew, hbelow⟩).sublist hsub)
    · intro node hin
      exact (List.mem_cons.mp (hvisited.subset hin)).imp_right (hinside node)

/-- A root with one child that has one child. -/
theorem search_stays_inside_chain : ∃ louds : Louds,
    Louds.parse (encodeLouds [true, false, true, false, true, false, false]) [0, 0, 10, 20] =
      .ok louds ∧
    ∀ parent child, louds.Reachable parent → child ∈ louds.directChildren parent →
      parent < child ∧ child < louds.nodeIds.length := by
  obtain ⟨louds, hparse, -⟩ :=
    @parse_encodeLouds [false, true, false, true, false, false] [0, 0, 10, 20] (by decide)
  exact ⟨louds, hparse, (search_stays_inside hparse).2.1⟩

end Louds

end BeanKey.Dictionary
