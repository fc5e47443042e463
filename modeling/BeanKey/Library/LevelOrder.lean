import Mathlib.Data.List.Forall2
import Mathlib.Data.List.Shortlex
import Mathlib.Logic.Function.Iterate

/-! Trees walked level by level. A level order lists the children of its nodes in the order of
the nodes, so that the children of a node are one stretch of it. -/
namespace BeanKey.LevelOrder
variable {κ ν : Type*} (children : ν → List (κ × ν))

def nextLevel (level : List (κ × ν)) : List (κ × ν) :=
  level.flatMap fun child => children child.2

def levels : Nat → List (κ × ν) → List (κ × ν)
  | 0, _ => []
  | depth + 1, level => level ++ levels depth (nextLevel children level)

/-- Once no level is left, the list goes on with the children of its own nodes. -/
theorem levels_unfold {depth : Nat} {level : List (κ × ν)}
    (hend : (nextLevel children)^[depth] level = []) :
    levels children depth level =
      level ++ (levels children depth level).flatMap fun child => children child.2 := by
  induction depth generalizing level with
  | zero =>
    obtain rfl : level = [] := hend
    rfl
  | succ depth ih =>
    have hnext := ih hend
    rw [levels, List.flatMap_append, ← nextLevel, ← hnext]

/-- Related trees have related level orders: the same keys, and related nodes. -/
theorem forall₂_levels {μ : Type*} {children' : μ → List (κ × μ)} {R : ν → μ → Prop}
    (hchildren : ∀ {node other}, R node other → List.Forall₂
      (fun child child' => child.1 = child'.1 ∧ R child.2 child'.2) (children node)
      (children' other))
    (depth : Nat) {level : List (κ × ν)} {level' : List (κ × μ)}
    (h : List.Forall₂ (fun child child' => child.1 = child'.1 ∧ R child.2 child'.2) level level') :
    List.Forall₂ (fun child child' => child.1 = child'.1 ∧ R child.2 child'.2)
      (levels children depth level) (levels children' depth level') := by
  induction depth generalizing level level' with
  | zero => exact .nil
  | succ depth ih =>
    exact List.rel_append h (ih (List.rel_flatMap h fun _ _ hrelated => hchildren hrelated.2))

theorem levels_add {depth : Nat} {level : List (κ × ν)}
    (hend : (nextLevel children)^[depth] level = []) (more : Nat) :
    levels children (depth + more) level = levels children depth level := by
  induction depth generalizing level with
  | zero =>
    obtain rfl : level = [] := hend
    rw [Nat.zero_add]
    induction more with
    | zero => rfl
    | succ more ih => exact ih
  | succ depth ih =>
    rw [Nat.succ_add, levels, levels, ih hend]

/-- A bound that every step exceeds ends the levels. -/
theorem nextLevel_iterate_eq_nil (rank : ν → Nat) {bound : Nat}
    (hchild : ∀ node, ∀ child ∈ children node, rank node < rank child.2 ∧ rank child.2 < bound)
    (depth : Nat) {level : List (κ × ν)} (hlevel : ∀ child ∈ level, bound ≤ rank child.2 + depth)
    (hbound : ∀ child ∈ level, rank child.2 < bound) :
    (nextLevel children)^[depth] level = [] := by
  induction depth generalizing level with
  | zero =>
    refine List.eq_nil_iff_forall_not_mem.mpr fun child hin => ?_
    have hlow := hlevel child hin
    have hhigh := hbound child hin
    omega
  | succ depth ih =>
    rw [Function.iterate_succ_apply]
    apply ih
    · intro child hin
      obtain ⟨parent, hparent, hchildren⟩ := List.mem_flatMap.mp hin
      have hrank := hlevel parent hparent
      have hmore := hchild parent.2 child hchildren
      omega
    · intro child hin
      obtain ⟨parent, -, hchildren⟩ := List.mem_flatMap.mp hin
      exact (hchild parent.2 child hchildren).2

variable {children}

def childCount (children : ν → List (κ × ν)) (nodes : List ν) (index : Nat) : Nat :=
  ((nodes.take index).flatMap children).length

theorem childCount_succ {nodes : List ν} {index : Nat} {node : ν} (h : nodes[index]? = some node) :
    childCount children nodes (index + 1) =
      childCount children nodes index + (children node).length := by
  rw [childCount, List.take_add_one, h, List.flatMap_append, List.length_append]
  simp [childCount]

theorem childCount_le (nodes : List ν) (index : Nat) :
    childCount children nodes index ≤ (nodes.flatMap children).length := by
  conv_rhs => rw [← List.take_append_drop index nodes]
  rw [List.flatMap_append, List.length_append]
  exact Nat.le_add_right _ _

/-- The children of a node are the stretch of the list after those of the nodes before it. -/
theorem getElem?_flatMap_children {nodes : List ν} {index : Nat} {node : ν}
    (h : nodes[index]? = some node) {place : Nat} (hplace : place < (children node).length) :
    (nodes.flatMap children)[childCount children nodes index + place]? =
      (children node)[place]? := by
  obtain ⟨hindex, rfl⟩ := List.getElem?_eq_some_iff.mp h
  have hsplit : nodes.flatMap children = (nodes.take index).flatMap children ++
      (children nodes[index] ++ (nodes.drop (index + 1)).flatMap children) := by
    conv_lhs => rw [← List.take_append_drop index nodes, List.drop_eq_getElem_cons hindex]
    rw [List.flatMap_append, List.flatMap_cons]
  rw [hsplit, childCount, List.getElem?_append_right (Nat.le_add_right _ _),
    Nat.add_sub_cancel_left, List.getElem?_append_left hplace]

/-! ### The order of paths -/

variable {r : κ → κ → Prop}

theorem lex_append {first second : List κ} (h : List.Lex r first second)
    (hlength : first.length = second.length) (more others : List κ) :
    List.Lex r (first ++ more) (second ++ others) := by
  induction h with
  | nil => simp at hlength
  | rel hhead => exact .rel hhead
  | cons _ ih => exact .cons (ih (Nat.succ.inj hlength))

/-- Paths that go on equally long stay in order. -/
theorem shortlex_append {first second more others : List κ} (h : List.Shortlex r first second)
    (hmore : more.length = others.length) : List.Shortlex r (first ++ more) (second ++ others) := by
  cases List.shortlex_def.mp h with
  | inl hshorter =>
    refine .of_length_lt ?_
    rw [List.length_append, List.length_append, hmore]
    omega
  | inr hsame =>
    refine .of_lex ?_ (lex_append hsame.2 hsame.1 more others)
    rw [List.length_append, List.length_append, hmore, hsame.1]

theorem not_shortlex_self (hirreflexive : ∀ key, ¬r key key) (path : List κ) :
    ¬List.Shortlex r path path := by
  rw [List.shortlex_iff_lex rfl]
  induction path with
  | nil => exact fun h => nomatch h
  | cons key rest ih =>
    intro h
    cases h with
    | rel hkey => exact hirreflexive key hkey
    | cons hrest => exact ih hrest

theorem nodup_of_shortlex (hirreflexive : ∀ key, ¬r key key) {paths : List (List κ)}
    (h : paths.Pairwise (List.Shortlex r)) : paths.Nodup := by
  refine h.imp ?_
  rintro path _ hordered rfl
  exact not_shortlex_self hirreflexive path hordered

end BeanKey.LevelOrder
