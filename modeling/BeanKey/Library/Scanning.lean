import Mathlib.Data.List.Basic
import Mathlib.Data.List.Infix

/-! The places of a pattern in a list, and marked items that are replaced. -/
namespace Scanning
variable {α : Type*} [DecidableEq α]

def find (pattern : List α) : List α → Option Nat
  | [] => if pattern = [] then some 0 else none
  | item :: rest =>
    if pattern.isPrefixOf (item :: rest) then some 0 else (find pattern rest).map (· + 1)

variable {pattern list : List α}

theorem find_isSome : (find pattern list).isSome ↔ pattern <:+: list := by
  induction list with
  | nil =>
    rw [find, List.infix_nil]
    split <;> simp_all
  | cons item rest ih =>
    rw [find, List.infix_cons_iff, ← ih, ← List.isPrefixOf_iff_prefix]
    split
    · next hprefix => simp [ hprefix]
    · next hprefix => simp [ hprefix]

theorem find_length {place : Nat} (h : find pattern list = some place) :
    place + pattern.length ≤ list.length := by
  induction list generalizing place with
  | nil =>
    rw [find] at h
    split at h
    · next hnil =>
      obtain rfl := Option.some.inj h
      simp [hnil]
    · cases h
  | cons item rest ih =>
    rw [find] at h
    split at h
    · next hprefix =>
      obtain rfl := Option.some.inj h
      simpa using (List.isPrefixOf_iff_prefix.mp hprefix).length_le
    · obtain ⟨before, hbefore, rfl⟩ := Option.map_eq_some_iff.mp h
      have hlength := ih hbefore
      rw [List.length_cons]
      omega

/-! ### Marked items -/

def replacePair (mark second : α) (value : List α) : List α → List α
  | item :: other :: rest =>
    if item = mark ∧ other = second then value ++ replacePair mark second value rest
    else item :: replacePair mark second value (other :: rest)
  | short => short

end Scanning
