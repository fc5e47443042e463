import BeanKey.Library.Caching

/-! Computations that may fail over a state they keep what they look up in, also where they fail:
from every good state they give what they would give without a state. -/
namespace Memo
open Caching

variable {S ε α β κ ν : Type}

def Answers (good : S → Prop) (computation : ExceptT ε (StateM S) α) (result : Except ε α) : Prop :=
  ∀ state, good state → (computation state).1 = result ∧ good (computation state).2

def lift (result : Except ε α) : ExceptT ε (StateM S) α := fun state => (result, state)

/-- What the cache holds for a key, or else what is loaded for it, which is kept. -/
def remember (cache : S → Cache κ ν) (keep : κ → ν → S → S) (load : κ → Except ε ν) (key : κ) :
    ExceptT ε (StateM S) ν := fun state =>
  match cache state key with
  | some value => (.ok value, state)
  | none =>
    match load key with
    | .error error => (.error error, state)
    | .ok value => (.ok value, keep key value state)

def runAll : List (ExceptT ε (StateM S) α) → S → List (Except ε α)
  | [], _ => []
  | computation :: rest, state =>
    (computation state).1 :: runAll rest (computation state).2

namespace Answers
variable {good : S → Prop}

theorem pure (value : α) :
    Answers good (Pure.pure value : ExceptT ε (StateM S) α) (Pure.pure value) :=
  fun _ hgood => ⟨rfl, hgood⟩

theorem lift (result : Except ε α) : Answers good (Memo.lift result) result :=
  fun _ hgood => ⟨rfl, hgood⟩

theorem bind {first : ExceptT ε (StateM S) α} {result : Except ε α}
    {next : α → ExceptT ε (StateM S) β} {next' : α → Except ε β}
    (hfirst : Answers good first result)
    (hnext : ∀ value, Answers good (next value) (next' value)) :
    Answers good (first >>= next) (result >>= next') := by
  intro state hgood
  obtain ⟨hresult, hstate⟩ := hfirst state hgood
  have hrun : (first >>= next) state = ExceptT.bindCont next (first state).1 (first state).2 := rfl
  rw [hrun, hresult]
  cases result with
  | error error => exact ⟨rfl, hstate⟩
  | ok value => exact hnext value _ hstate

theorem map {first : ExceptT ε (StateM S) α} {result : Except ε α} (h : Answers good first result)
    (f : α → β) : Answers good (f <$> first) (f <$> result) := by
  rw [← bind_pure_comp, ← bind_pure_comp]
  exact h.bind fun value => pure (f value)

/-- A cache that holds only what would be loaded makes no difference. -/
theorem remember {cache : S → Cache κ ν} {keep : κ → ν → S → S} {load : κ → Except ε ν} {key : κ}
    (hheld : ∀ state value, good state → cache state key = some value → load key = .ok value)
    (hkeep : ∀ state value, good state → load key = .ok value → good (keep key value state)) :
    Answers good (Memo.remember cache keep load key) (load key) := by
  intro state hgood
  unfold Memo.remember
  cases hcached : cache state key with
  | some value => exact ⟨(hheld state value hgood hcached).symm, hgood⟩
  | none =>
    cases hload : load key with
    | error error => exact ⟨rfl, hgood⟩
    | ok value => exact ⟨rfl, hkeep state value hgood hload⟩

/-- The results do not depend on what was computed before. -/
theorem runAll {index : Type} {computation : index → ExceptT ε (StateM S) α}
    {result : index → Except ε α} (h : ∀ i, Answers good (computation i) (result i))
    (indices : List index) {state : S} (hgood : good state) :
    Memo.runAll (indices.map computation) state = indices.map result := by
  induction indices generalizing state with
  | nil => rfl
  | cons i indices ih =>
    obtain ⟨hresult, hstate⟩ := h i state hgood
    rw [List.map_cons, List.map_cons, Memo.runAll, hresult, ih hstate]

end Answers
end Memo
