import Mathlib.Data.List.Basic
import Mathlib.Data.List.Nodup
import Mathlib.Order.Bounds.Basic

/-! Lists that keep one element for each key, in the order in which the keys first came. -/
namespace Keyed
variable {α κ : Type*} [DecidableEq κ] (key : α → κ) (better : α → α → Prop) [DecidableRel better]
  {output values : List α}

/-- A value whose key is there takes the place of the old one only when it is better. -/
def insert (output : List α) (value : α) : List α :=
  match output.findIdx? fun existing => key existing = key value with
  | none => output ++ [value]
  | some index =>
    output.modify index fun existing => if better existing value then value else existing

theorem mem_insert {value kept : α} (h : kept ∈ insert key better output value) :
    kept ∈ output ∨ kept = value := by
  unfold insert at h
  split at h
  · simpa using h
  · obtain ⟨place, hplace⟩ := List.mem_iff_getElem?.mp h
    rw [List.getElem?_modify] at hplace
    obtain ⟨existing, hexisting, hkept⟩ := Option.map_eq_some_iff.mp hplace
    have hin := List.mem_of_getElem? hexisting
    split at hkept
    · split at hkept
      · exact .inr hkept.symm
      · exact .inl (hkept ▸ hin)
    · exact .inl (hkept ▸ hin)

theorem keys_insert (value : α) :
    (insert key better output value).map key =
      if key value ∈ output.map key then output.map key else output.map key ++ [key value] := by
  unfold insert
  cases hindex : output.findIdx? fun existing => key existing = key value with
  | none =>
    have hnew : key value ∉ output.map key := by
      intro hin
      obtain ⟨existing, hexisting, hkey⟩ := List.mem_map.mp hin
      exact absurd hkey (by simpa using List.findIdx?_eq_none_iff.mp hindex existing hexisting)
    rw [if_neg hnew]
    simp
  | some index =>
    obtain ⟨hlt, hkey, -⟩ := List.findIdx?_eq_some_iff_getElem.mp hindex
    have hold : key value ∈ output.map key :=
      List.mem_map.mpr ⟨output[index], List.getElem_mem hlt, of_decide_eq_true hkey⟩
    rw [if_pos hold]
    apply List.ext_getElem?
    intro place
    rw [List.getElem?_map, List.getElem?_map, List.getElem?_modify]
    by_cases hplace : index = place
    · subst hplace
      have hsame := of_decide_eq_true hkey
      rw [List.getElem?_eq_getElem hlt]
      simp only [Option.map_eq_map, Option.map_some, if_true]
      split
      · rw [hsame]
      · rfl
    · simp [hplace]

theorem mem_foldl_insert {kept : α} (h : kept ∈ values.foldl (insert key better) output) :
    kept ∈ output ∨ kept ∈ values := by
  induction values generalizing output with
  | nil => exact .inl h
  | cons value values ih =>
    cases ih h with
    | inl hin =>
      cases mem_insert key better hin with
      | inl hold => exact .inl hold
      | inr hnew => exact .inr (hnew ▸ List.mem_cons_self)
    | inr hin => exact .inr (List.mem_cons_of_mem _ hin)

theorem key_mem_foldl_insert {found : κ} (h : found ∈ output.map key ∨ found ∈ values.map key) :
    found ∈ (values.foldl (insert key better) output).map key := by
  induction values generalizing output with
  | nil => exact h.resolve_right List.not_mem_nil
  | cons value values ih =>
    apply ih
    rw [keys_insert]
    rcases h with h | h
    · left
      split
      · exact h
      · exact List.mem_append_left _ h
    · rw [List.map_cons, List.mem_cons] at h
      rcases h with rfl | h
      · left
        split
        · assumption
        · exact List.mem_append_right _ (List.mem_singleton.mpr rfl)
      · exact .inr h

/-- Values with keys of their own are kept as they come. -/
theorem foldl_insert_new (h : ((output ++ values).map key).Nodup) :
    values.foldl (insert key better) output = output ++ values := by
  induction values generalizing output with
  | nil => simp
  | cons value values ih =>
    have hnew : insert key better output value = output ++ [value] := by
      have hfind : output.findIdx? (fun existing => key existing = key value) = none := by
        rw [List.findIdx?_eq_none_iff]
        intro existing hexisting
        rw [List.map_append, List.nodup_append] at h
        exact decide_eq_false (h.2.2 _ (List.mem_map_of_mem hexisting) _ (by simp))
      rw [insert, hfind]
    rw [List.foldl_cons, hnew, ih (by simpa using h), List.append_assoc, List.singleton_append]

theorem foldl_insert_nodup (h : (output.map key).Nodup) :
    ((values.foldl (insert key better) output).map key).Nodup := by
  induction values generalizing output with
  | nil => exact h
  | cons value values ih =>
    apply ih
    rw [keys_insert]
    split
    · exact h
    · next hnew => exact List.nodup_append.mpr ⟨h, List.nodup_singleton _, by
        intro found hin other hother heq
        rw [List.mem_singleton.mp hother] at heq
        exact hnew (heq ▸ hin)⟩

theorem foldl_insert_length (values output : List α) :
    (values.foldl (insert key better) output).length ≤ output.length + values.length := by
  induction values generalizing output with
  | nil => exact Nat.le_refl _
  | cons value values ih =>
    have hone : (insert key better output value).length ≤ output.length + 1 := by
      have hkeys : ((insert key better output value).map key).length = _ :=
        congrArg List.length (keys_insert key better value)
      rw [List.length_map] at hkeys
      rw [hkeys]
      split <;> simp
    have hrest := ih (insert key better output value)
    rw [List.foldl_cons, List.length_cons]
    omega

/-! ### The least value of each key -/

section
variable {κ β : Type*} [DecidableEq κ] [LinearOrder β] {output : List (κ × β)} {S : κ → β → Prop}

def insertLeast (output : List (κ × β)) (key : κ) (value : β) : List (κ × β) :=
  if key ∈ output.map Prod.fst then
    output.map fun entry => if entry.1 = key then (key, min entry.2 value) else entry
  else output ++ [(key, value)]

structure Tracks (S : κ → β → Prop) (output : List (κ × β)) : Prop where
  nodup : (output.map Prod.fst).Nodup
  known : ∀ key value, S key value → key ∈ output.map Prod.fst
  least : ∀ entry ∈ output, IsLeast {value | S entry.1 value} entry.2

omit [DecidableEq κ] in
theorem Tracks.mem_iff (h : Tracks S output) {key : κ} {value : β} :
    (key, value) ∈ output ↔ IsLeast {value | S key value} value := by
  constructor
  · exact h.least (key, value)
  · intro hleast
    obtain ⟨entry, hentry, rfl⟩ := List.mem_map.mp (h.known key value hleast.1)
    rw [hleast.unique (h.least entry hentry)]
    exact hentry

theorem keys_insertLeast (key : κ) (value : β) :
    (insertLeast output key value).map Prod.fst =
      if key ∈ output.map Prod.fst then output.map Prod.fst else output.map Prod.fst ++ [key] := by
  unfold insertLeast
  split
  · rw [List.map_map]
    apply List.map_congr_left
    intro entry _
    dsimp only [Function.comp]
    split
    · next hkey => exact hkey.symm
    · rfl
  · rw [List.map_append]
    rfl

theorem Tracks.insert (h : Tracks S output) (key : κ) (value : β) :
    Tracks (fun other found => S other found ∨ (other = key ∧ found = value))
      (insertLeast output key value) where
  nodup := by
    rw [keys_insertLeast]
    split
    · exact h.nodup
    · next hnew => exact List.nodup_append.mpr ⟨h.nodup, List.nodup_singleton _, by
        intro found hin other hother heq
        rw [List.mem_singleton.mp hother] at heq
        exact hnew (heq ▸ hin)⟩
  known other found hfound := by
    rw [keys_insertLeast]
    obtain hold | ⟨rfl, rfl⟩ := hfound
    · have hin := h.known other found hold
      split
      · exact hin
      · exact List.mem_append_left _ hin
    · split
      · assumption
      · exact List.mem_append_right _ (List.mem_singleton.mpr rfl)
  least entry hentry := by
    unfold insertLeast at hentry
    split at hentry
    · obtain ⟨old, hold, rfl⟩ := List.mem_map.mp hentry
      have hleast := h.least old hold
      by_cases hkey : old.1 = key
      · rw [if_pos hkey]
        rw [hkey] at hleast
        simpa [Set.ofPred_or] using hleast.union (isLeast_singleton (a := value))
      · simpa [if_neg hkey, hkey] using hleast
    · next hnew =>
      obtain hold | hlast := List.mem_append.mp hentry
      · have hne : entry.1 ≠ key := fun heq => hnew (heq ▸ List.mem_map_of_mem hold)
        simpa [hne] using h.least entry hold
      · obtain rfl := List.mem_singleton.mp hlast
        have hnone : ∀ found, ¬ S key found := fun found hfound => hnew (h.known key found hfound)
        simp [hnone]

omit [DecidableEq κ] in
theorem tracks_nil : Tracks (fun (_ : κ) (_ : β) => False) [] where
  nodup := List.nodup_nil
  known _ _ h := h.elim
  least _ hentry := absurd hentry List.not_mem_nil

/-- However the entries come, the least value of each key is left. -/
theorem Tracks.foldl (h : Tracks S output) (entries : List (κ × β)) :
    Tracks (fun key value => S key value ∨ (key, value) ∈ entries)
      (entries.foldl (fun output entry => insertLeast output entry.1 entry.2) output) := by
  induction entries generalizing S output with
  | nil => simpa using h
  | cons entry entries ih =>
    rw [List.foldl_cons]
    convert ih (h.insert entry.1 entry.2) using 3 with key value
    rw [List.mem_cons, or_assoc, Prod.ext_iff]

end

end Keyed
