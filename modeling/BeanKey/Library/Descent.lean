import Mathlib.Data.List.Nodup
import Mathlib.Data.List.Perm.Basic

/-! Trees walked depth first. The nodes below a node are those some keys lead to, and a walk
that goes deep enough lists each of them once. -/
namespace BeanKey.Descent
variable {κ ν : Type*} (children : ν → List (κ × ν))

def Leads : ν → List κ → ν → Prop
  | node, [], other => node = other
  | node, key :: rest, other => ∃ next, (key, next) ∈ children node ∧ Leads next rest other

def offspring : Nat → ν → List ν
  | 0, _ => []
  | depth + 1, node => (children node).map Prod.snd ++
      ((children node).map Prod.snd).flatMap (offspring depth)

def preorder : Nat → ν → List ν
  | 0, _ => []
  | depth + 1, node => node :: ((children node).map Prod.snd).reverse.flatMap (preorder depth)

/-- A loop over pending nodes, which puts the children of the first one before the others. -/
def visit : Nat → List ν → List ν
  | 0, _ => []
  | _ + 1, [] => []
  | fuel + 1, node :: pending =>
    node :: visit fuel (((children node).map Prod.snd).reverse ++ pending)

/-- The tree below the node ends before the depth. -/
def Shallow (depth : Nat) (node : ν) : Prop :=
  ∀ path other, Leads children node path other → path.length < depth

variable {children}

theorem leads_append {node other : ν} (path rest : List κ) :
    Leads children node (path ++ rest) other ↔
      ∃ middle, Leads children node path middle ∧ Leads children middle rest other := by
  induction path generalizing node with
  | nil => simp [Leads]
  | cons key path ih =>
    simp only [List.cons_append, Leads, ih]
    constructor
    · rintro ⟨next, hnext, middle, hmiddle, hrest⟩
      exact ⟨middle, ⟨next, hnext, hmiddle⟩, hrest⟩
    · rintro ⟨middle, ⟨next, hnext, hmiddle⟩, hrest⟩
      exact ⟨next, hnext, middle, hmiddle, hrest⟩

theorem Shallow.child {depth : Nat} {node : ν} (h : Shallow children (depth + 1) node)
    {child : κ × ν} (hchild : child ∈ children node) : Shallow children depth child.2 := by
  intro path other hleads
  have hlength := h (child.1 :: path) other ⟨child.2, hchild, hleads⟩
  exact Nat.lt_of_succ_lt_succ hlength

/-- A bound that every step exceeds bounds the depth. -/
theorem shallow_of_rank (rank : ν → Nat) {bound : Nat}
    (hchild : ∀ node, ∀ child ∈ children node, rank node < rank child.2 ∧ rank child.2 ≤ bound)
    (node : ν) : Shallow children (bound + 1) node := by
  have hrank : ∀ path node other, path ≠ [] → Leads children node path other →
      rank node + path.length ≤ bound := by
    intro path
    induction path with
    | nil => exact fun _ _ hne _ => absurd rfl hne
    | cons key path ih =>
      rintro node other - ⟨next, hnext, hrest⟩
      obtain ⟨hlt, hle⟩ : rank node < rank next ∧ rank next ≤ bound := hchild node _ hnext
      rw [List.length_cons]
      cases path with
      | nil =>
        rw [List.length_nil]
        omega
      | cons key' path =>
        have hbelow := ih next other (List.cons_ne_nil _ _) hrest
        omega
  intro path other hleads
  cases path with
  | nil => exact Nat.succ_pos _
  | cons key path =>
    have := hrank (key :: path) node other (List.cons_ne_nil _ _) hleads
    omega

/-! ### The nodes below a node -/

theorem mem_offspring {depth : Nat} {node other : ν} :
    other ∈ offspring children depth node ↔
      ∃ path, path ≠ [] ∧ path.length ≤ depth ∧ Leads children node path other := by
  induction depth generalizing node with
  | zero => simp [offspring]
  | succ depth ih =>
    rw [offspring, List.flatMap_map, List.mem_append, List.mem_flatMap]
    constructor
    · rintro (hchild | ⟨child, hchild, hbelow⟩)
      · obtain ⟨child, hin, rfl⟩ := List.mem_map.mp hchild
        exact ⟨[child.1], by simp, by simp, child.2, hin, rfl⟩
      · obtain ⟨path, -, hlength, hleads⟩ := ih.mp hbelow
        exact ⟨child.1 :: path, by simp, by simpa using hlength, child.2, hchild, hleads⟩
    · rintro ⟨path, hne, hlength, hleads⟩
      cases path with
      | nil => exact absurd rfl hne
      | cons key path =>
        obtain ⟨next, hnext, hrest⟩ := hleads
        by_cases hend : path = []
        · subst hend
          obtain rfl : next = other := hrest
          exact .inl (List.mem_map.mpr ⟨_, hnext, rfl⟩)
        · exact .inr ⟨_, hnext, ih.mpr ⟨path, hend, by simpa using hlength, hrest⟩⟩

/-- Where each node has one path from the root, no node is listed twice. -/
theorem offspring_nodup {root : ν} (hkeys : ∀ node, ((children node).map Prod.fst).Nodup)
    (hunique : ∀ {path path' node}, Leads children root path node → Leads children root path' node →
      path = path') (depth : Nat) {path : List κ} {node : ν}
        (hnode : Leads children root path node) :
    (offspring children depth node).Nodup := by
  induction depth generalizing path node with
  | zero => exact List.nodup_nil
  | succ depth ih =>
    have hchild : ∀ {child}, child ∈ children node →
        Leads children root (path ++ [child.1]) child.2 :=
      fun hin => (leads_append _ _).mpr ⟨node, hnode, _, hin, rfl⟩
    have hbelow : ∀ {child rest other}, child ∈ children node → Leads children child.2 rest other →
        Leads children root (path ++ child.1 :: rest) other :=
      fun hin hrest => (leads_append _ _).mpr ⟨node, hnode, _, hin, hrest⟩
    have hpairs : (children node).Pairwise fun first second => first.1 ≠ second.1 :=
      List.pairwise_map.mp (hkeys node)
    rw [offspring, List.flatMap_map]
    refine List.nodup_append.mpr ⟨?_, List.nodup_flatMap.mpr ⟨?_, ?_⟩, ?_⟩
    · refine List.Nodup.map_on ?_ (List.Nodup.of_map _ (hkeys node))
      intro first hfirst second hsecond heq
      have hpaths := hunique (hchild hfirst) (heq ▸ hchild hsecond)
      exact Prod.ext (by simpa using hpaths) heq
    · exact fun child hin => ih (hchild hin)
    · refine hpairs.imp_of_mem ?_
      intro first second hfirst hsecond hne other hother hother'
      obtain ⟨rest, -, -, hleads⟩ := mem_offspring.mp hother
      obtain ⟨rest', -, -, hleads'⟩ := mem_offspring.mp hother'
      have hpaths := List.append_cancel_left
        (hunique (hbelow hfirst hleads) (hbelow hsecond hleads'))
      exact hne (List.cons.inj hpaths).1
    · intro other hother same hsame heq
      subst heq
      obtain ⟨child, hin, rfl⟩ := List.mem_map.mp hother
      obtain ⟨first, hfirst, hlater⟩ := List.mem_flatMap.mp hsame
      obtain ⟨rest, hne, -, hleads⟩ := mem_offspring.mp hlater
      have hpaths := List.append_cancel_left (hunique (hbelow hfirst hleads) (hchild hin))
      exact hne (List.cons.inj hpaths).2

/-! ### The two walks -/

theorem preorder_perm (depth : Nat) (node : ν) :
    (preorder children (depth + 1) node).Perm (node :: offspring children depth node) := by
  induction depth generalizing node with
  | zero => simp [preorder, offspring]
  | succ depth ih =>
    rw [preorder, offspring]
    refine List.Perm.cons node ?_
    have hforward := (List.reverse_perm ((children node).map Prod.snd)).flatMap_right
      (preorder children (depth + 1))
    have hchildren : (((children node).map Prod.snd).flatMap (preorder children (depth + 1))).Perm
        (((children node).map Prod.snd).flatMap fun child => [child] ++
          offspring children depth child) :=
      List.Perm.flatMap_left _ fun child _ => ih child
    have hsplit := (List.flatMap_append_perm ((children node).map Prod.snd) (fun child => [child])
      (offspring children depth)).symm
    rw [List.flatMap_singleton'] at hsplit
    exact (hforward.trans hchildren).trans hsplit

theorem preorder_succ {depth : Nat} {node : ν} (h : Shallow children depth node) :
    preorder children (depth + 1) node = preorder children depth node := by
  induction depth generalizing node with
  | zero => exact absurd (h [] node rfl) (Nat.not_lt_zero _)
  | succ depth ih =>
    rw [preorder, preorder]
    congr 1
    refine List.flatMap_congr fun child hin => ?_
    obtain ⟨pair, hpair, rfl⟩ := List.mem_map.mp (List.mem_reverse.mp hin)
    exact ih (h.child hpair)

theorem preorder_eq {depth : Nat} {node : ν} (h : Shallow children depth node) :
    preorder children depth node =
      node :: ((children node).map Prod.snd).reverse.flatMap (preorder children depth) := by
  rw [← preorder_succ h, preorder]

/-- The loop lists the pending nodes with all nodes below them. -/
theorem visit_eq {depth : Nat} (fuel : Nat) {pending : List ν}
    (h : ∀ node, Shallow children depth node)
    (hfuel : (pending.flatMap (preorder children depth)).length ≤ fuel) :
    visit children fuel pending = pending.flatMap (preorder children depth) := by
  induction fuel generalizing pending with
  | zero => exact (List.length_eq_zero_iff.mp (Nat.le_zero.mp hfuel)).symm
  | succ fuel ih =>
    cases pending with
    | nil => rfl
    | cons node pending =>
      have hsplit : (node :: pending).flatMap (preorder children depth) =
          node :: (((children node).map Prod.snd).reverse ++ pending).flatMap
            (preorder children depth) := by
        rw [List.flatMap_cons, preorder_eq (h node), List.flatMap_append]
        rfl
      rw [hsplit, List.length_cons] at hfuel
      rw [visit, hsplit, ih (Nat.le_of_succ_le_succ hfuel)]

end BeanKey.Descent
