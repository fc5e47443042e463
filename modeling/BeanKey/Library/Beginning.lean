import Mathlib.Data.List.Basic

/-! Lists that go on from another one: it is their beginning, and they are longer. -/
namespace Beginning
variable {α β : Type*} {start whole : List α}

/-- `start` is the beginning of `whole`, and not all of it. -/
def Proper (start whole : List α) : Prop := start <+: whole ∧ whole ≠ start

theorem proper_iff : Proper start whole ↔ ∃ rest ≠ [], whole = start ++ rest := by
  constructor
  · rintro ⟨⟨rest, rfl⟩, hne⟩
    exact ⟨rest, fun hnil => hne (by rw [hnil, List.append_nil]), rfl⟩
  · rintro ⟨rest, hne, rfl⟩
    exact ⟨List.prefix_append _ _, by simpa using hne⟩

theorem Proper.append (h : Proper start whole) (before : List α) :
    Proper (before ++ start) (before ++ whole) := by
  obtain ⟨rest, hne, rfl⟩ := proper_iff.mp h
  exact proper_iff.mpr ⟨rest, hne, (List.append_assoc _ _ _).symm⟩

theorem Proper.of_base {base : List α} (hbase : base <+: start) (h : Proper start whole) :
    Proper base whole := by
  obtain ⟨more, rfl⟩ := hbase
  obtain ⟨rest, hne, rfl⟩ := proper_iff.mp h
  exact proper_iff.mpr ⟨more ++ rest, by simp [hne], List.append_assoc _ _ _⟩

theorem Proper.flatten {start whole : List (List α)} (h : Proper start whole)
    (hne : ∀ part ∈ whole, part ≠ []) : Proper start.flatten whole.flatten := by
  obtain ⟨rest, hrest, rfl⟩ := proper_iff.mp h
  refine proper_iff.mpr ⟨rest.flatten, ?_, List.flatten_append⟩
  obtain ⟨part, others, rfl⟩ := List.exists_cons_of_ne_nil hrest
  have hpart := hne part (by simp)
  simp [hpart]

end Beginning
