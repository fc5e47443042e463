import Mathlib.Data.List.Basic

/-! The distinct keys of a history, the last one touched first. -/
namespace Recency
variable {κ : Type*} [DecidableEq κ]

/-- Of a history with the last key first. -/
def recent : List κ → List κ
  | [] => []
  | key :: earlier => key :: (recent earlier).filter (· ≠ key)

theorem nodup_recent (touched : List κ) : (recent touched).Nodup := by
  induction touched with
  | nil => exact List.nodup_nil
  | cons key earlier ih =>
    refine List.nodup_cons.mpr ⟨?_, ih.filter _⟩
    simp

/-- Leaving a key out brings at most the next one in. -/
theorem take_filter_ne {key : κ} {keys : List κ} (hnodup : keys.Nodup) (count : Nat) :
    (keys.filter (· ≠ key)).take count = ((keys.take (count + 1)).filter (· ≠ key)).take count := by
  induction keys generalizing count with
  | nil => simp
  | cons first rest ih =>
    obtain ⟨hfirst, hrest⟩ := List.nodup_cons.mp hnodup
    by_cases h : first = key
    · subst h
      have hkept : ∀ kept ∈ rest, decide (kept ≠ first) = true := by
        intro kept hkept
        exact decide_eq_true fun heq : kept = first => hfirst (heq ▸ hkept)
      have htaken : (rest.take count).filter (· ≠ first) = rest.take count :=
        List.filter_eq_self.mpr fun kept hin => hkept kept (List.mem_of_mem_take hin)
      rw [List.take_succ_cons, List.filter_cons_of_neg (by simp), List.filter_cons_of_neg (by simp),
        List.filter_eq_self.mpr hkept, htaken, List.take_take, Nat.min_self]
    · cases count with
      | zero => simp
      | succ count =>
        rw [List.take_succ_cons, List.filter_cons_of_pos (by simp [h]),
          List.filter_cons_of_pos (by simp [h]),
          List.take_succ_cons, List.take_succ_cons, ih hrest]

/-- The keys of a bounded history after one more touch, from those before it. -/
theorem take_recent_cons (key : κ) (touched : List κ) (count : Nat) :
    (recent (key :: touched)).take (count + 1) =
      key :: (((recent touched).take (count + 1)).filter (· ≠ key)).take count := by
  rw [recent, List.take_succ_cons, take_filter_ne (nodup_recent touched)]

end Recency
