import Mathlib.Logic.Relation

/-! Computations that may fail and whose state only grows: what a cache holds stays there. -/
namespace Caching

/-! ### Caches -/

abbrev Cache (κ ν : Type*) := κ → Option ν

def Cache.empty {κ ν : Type*} : Cache κ ν := fun _ => none

section
variable {κ ν : Type*}

def Cache.insert [DecidableEq κ] (cache : Cache κ ν) (key : κ) (value : ν) : Cache κ ν :=
  fun asked => if asked = key then some value else cache asked

/-- Nothing that was in the cache changed. -/
def Extends (cache later : Cache κ ν) : Prop :=
  ∀ key value, cache key = some value → later key = some value

theorem Extends.refl (cache : Cache κ ν) : Extends cache cache := fun _ _ h => h

theorem Extends.trans {first second third : Cache κ ν} (h : Extends first second)
    (h' : Extends second third) : Extends first third :=
  fun key value hkey => h' key value (h key value hkey)

variable [DecidableEq κ] {cache : Cache κ ν} {key : κ}

@[simp] theorem insert_self (value : ν) : cache.insert key value key = some value := if_pos rfl

theorem extends_insert (hmissing : cache key = none) (value : ν) :
    Extends cache (cache.insert key value) := by
  intro asked kept hkept
  have hne : asked ≠ key := by
    rintro rfl
    rw [hmissing] at hkept
    cases hkept
  rw [Cache.insert, if_neg hne, hkept]

theorem insert_eq_some {asked : κ} {value found : ν}
    (h : cache.insert key value asked = some found) :
    asked = key ∧ value = found ∨ cache asked = some found := by
  unfold Cache.insert at h
  split at h
  · next heq => exact .inl ⟨heq, Option.some.inj h⟩
  · exact .inr h

end

/-! ### Computations -/

variable {S ε α β γ : Type} (grows : S → S → Prop)

/-- Where the computation succeeds, its state has grown and `post` holds of what it returns. -/
def Yields (computation : StateT S (Except ε) α) (post : α → S → Prop) (state : S) : Prop :=
  ∀ value later, computation state = .ok (value, later) → grows state later ∧ post value later

variable {grows} {state : S} {post : α → S → Prop}

theorem Yields.mono {computation : StateT S (Except ε) α} {post' : α → S → Prop}
    (h : Yields grows computation post state)
    (himp : ∀ value later, grows state later → post value later → post' value later) :
    Yields grows computation post' state := by
  intro value later hrun
  obtain ⟨hgrows, hpost⟩ := h value later hrun
  exact ⟨hgrows, himp value later hgrows hpost⟩

theorem Yields.throw (error : ε) :
    Yields grows (throw error : StateT S (Except ε) α) post state := by
  intro value later hrun
  cases hrun

variable [Std.Refl grows]

theorem Yields.pure {value : α} (h : post value state) :
    Yields grows (pure value : StateT S (Except ε) α) post state := by
  intro value' later hrun
  cases hrun
  exact ⟨Std.Refl.refl state, h⟩

variable [IsTrans S grows]

omit [Std.Refl grows] in
theorem Yields.bind {first : StateT S (Except ε) α} {next : α → StateT S (Except ε) β}
    {post' : β → S → Prop} (hfirst : Yields grows first post state)
    (hnext : ∀ value later, grows state later → post value later →
      Yields grows (next value) post' later) : Yields grows (first >>= next) post' state := by
  intro value last hrun
  have hrun : (first state >>= fun result => next result.1 result.2) = .ok (value, last) := hrun
  cases hresult : first state with
  | error error =>
    rw [hresult] at hrun
    cases hrun
  | ok result =>
    rw [hresult] at hrun
    obtain ⟨hgrows, hpost⟩ := hfirst result.1 result.2 hresult
    obtain ⟨hgrows', hpost'⟩ := hnext result.1 result.2 hgrows hpost value last hrun
    exact ⟨IsTrans.trans _ _ _ hgrows hgrows', hpost'⟩

omit [Std.Refl grows] [IsTrans S grows] in
theorem Yields.get_bind {next : S → StateT S (Except ε) β} {post : β → S → Prop}
    (h : Yields grows (next state) post state) : Yields grows
    (MonadState.get >>= next) post state :=
  h

omit [Std.Refl grows] in
theorem Yields.modify_bind {change : S → S} {next : PUnit → StateT S (Except ε) β}
    {post : β → S → Prop} (hgrows : grows state (change state))
    (h : Yields grows (next ⟨⟩) post (change state)) :
    Yields grows (modify change >>= next) post state := by
  intro value later hrun
  obtain ⟨hgrows', hpost⟩ := h value later hrun
  exact ⟨IsTrans.trans _ _ _ hgrows hgrows', hpost⟩

/-- A loop over `xs` that collects what each call makes: what holds of a call's results, and goes
on to hold when the state grows, holds of all of them at the end. -/
theorem Yields.collect {call : α → StateT S (Except ε) (List β)} {good : β → S → Prop}
    (hgood : ∀ value state later, grows state later → good value state → good value later)
    (xs : List α)
    (hcall : ∀ x ∈ xs, ∀ later, grows state later →
      Yields grows (call x) (fun values last => ∀ value ∈ values, good value last) later) :
    Yields grows (xs.mapM call) (fun lists last => ∀ value ∈ lists.flatten, good value last)
      state := by
  induction xs generalizing state with
  | nil =>
    rw [List.mapM_nil]
    exact Yields.pure (by simp)
  | cons x rest ih =>
    rw [List.mapM_cons]
    apply Yields.bind (hcall x List.mem_cons_self state (Std.Refl.refl state))
    intro values later hlater hvalues
    apply Yields.bind (ih fun y hy last hlast =>
      hcall y (List.mem_cons_of_mem x hy) last (IsTrans.trans _ _ _ hlater hlast))
    intro lists last hlast hlists
    apply Yields.pure
    intro value hvalue
    rw [List.flatten_cons, List.mem_append] at hvalue
    cases hvalue with
    | inl hin => exact hgood value later last hlast (hvalues value hin)
    | inr hin => exact hlists value hin

end Caching
