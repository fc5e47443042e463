import Mathlib.Data.List.Forall2
import Mathlib.Data.List.Induction

/-! Loops that can stop: what holds after `mapM` and `foldlM`. -/
namespace Loop
variable {α β σ : Type*}

/-- The loop runs to its end, and `P`, about the part already done, holds there. -/
theorem foldlM_total (f : σ → α → Option σ) (P : List α → σ → Prop) (xs : List α) (start : σ)
    (hstart : P [] start)
    (hstep : ∀ done x rest state, xs = done ++ x :: rest → P done state →
      ∃ next, f state x = some next ∧ P (done ++ [x]) next) :
    ∃ final, xs.foldlM f start = some final ∧ P xs final := by
  suffices h : ∀ (rest done : List α) (state : σ), xs = done ++ rest → P done state →
      ∃ final, rest.foldlM f state = some final ∧ P xs final from h xs [] start rfl hstart
  intro rest
  induction rest with
  | nil =>
    intro done state hxs hdone
    rw [List.append_nil] at hxs
    exact ⟨state, rfl, hxs ▸ hdone⟩
  | cons x rest ih =>
    intro done state hxs hdone
    obtain ⟨next, hnext, hP⟩ := hstep done x rest state hxs hdone
    obtain ⟨final, hfinal, hend⟩ := ih (done ++ [x]) next (by simp [hxs]) hP
    exact ⟨final, by rw [List.foldlM_cons, hnext]; exact hfinal, hend⟩

/-- Where the loop came to its end, `P` was kept all along. -/
theorem foldlM_keeps {f : σ → α → Option σ} (P : List α → σ → Prop) (xs : List α)
    {start final : σ} (hrun : xs.foldlM f start = some final) (hstart : P [] start)
    (hstep : ∀ done x rest state next, xs = done ++ x :: rest → P done state →
      f state x = some next → P (done ++ [x]) next) : P xs final := by
  suffices h : ∀ (rest done : List α) (state : σ), xs = done ++ rest → P done state →
      rest.foldlM f state = some final → P xs final from h xs [] start rfl hstart hrun
  intro rest
  induction rest with
  | nil =>
    intro done state hxs hdone hrest
    rw [List.append_nil] at hxs
    obtain rfl : state = final := Option.some.inj hrest
    exact hxs ▸ hdone
  | cons x rest ih =>
    intro done state hxs hdone hrest
    rw [List.foldlM_cons] at hrest
    obtain ⟨next, hnext, hrest⟩ := Option.bind_eq_some_iff.mp hrest
    exact ih (done ++ [x]) next (by simp [hxs]) (hstep done x rest state next hxs hdone hnext) hrest

theorem foldlM_rel {τ : Type*} {r : σ → τ → Prop} {f : σ → α → Option σ} {g : τ → α → Option τ}
    (xs : List α) {start : σ} {start' : τ} (hstart : r start start')
    (hstep : ∀ x ∈ xs, ∀ state state', r state state' → Option.Rel r (f state x) (g state' x)) :
    Option.Rel r (xs.foldlM f start) (xs.foldlM g start') := by
  induction xs generalizing start start' with
  | nil => exact .some hstart
  | cons x xs ih =>
    have hfirst := hstep x List.mem_cons_self start start' hstart
    rw [List.foldlM_cons, List.foldlM_cons]
    generalize f start x = next, g start' x = next' at hfirst
    cases hfirst with
    | none => exact .none
    | some hnext => exact ih hnext fun y hy => hstep y (List.mem_cons_of_mem x hy)

theorem rel_join {α' β' : Type*} {r : α → β → Prop} {r' : α' → β' → Prop} {t : β → β' → Prop}
    {x : Option α} {x' : Option α'} {y : Option β} {y' : Option β'} (hr : Option.Rel r x y)
    (hr' : Option.Rel r' x' y') (ht : Option.Rel t y y') :
    Option.Rel (fun x x' => ∃ y y', r x y ∧ r' x' y' ∧ t y y') x x' := by
  cases ht with
  | none =>
    cases hr
    cases hr'
    exact .none
  | some ht =>
    cases hr with
    | some hr =>
      cases hr' with
      | some hr' => exact .some ⟨_, _, hr, hr', ht⟩

theorem mapM_eq_some {f : α → Option β} {xs : List α} {ys : List β} :
    xs.mapM f = some ys ↔ List.Forall₂ (fun x y => f x = some y) xs ys := by
  induction xs generalizing ys with
  | nil =>
    constructor
    · intro h
      obtain rfl : [] = ys := by simpa using h
      exact .nil
    · intro h
      cases h
      rfl
  | cons x xs ih =>
    rw [List.mapM_cons]
    constructor
    · intro h
      obtain ⟨y, hy, hrest⟩ := Option.bind_eq_some_iff.mp h
      obtain ⟨rest, hxs, hys⟩ := Option.bind_eq_some_iff.mp hrest
      obtain rfl : y :: rest = ys := Option.some.inj hys
      exact .cons hy (ih.mp hxs)
    · intro h
      cases h with
      | cons hy hrest =>
        rw [hy, ih.mpr hrest]
        rfl

theorem mapM_injective {f : α → Option β}
    (hf : ∀ first second y, f first = some y → f second = some y → first = second)
    {xs others : List α} {ys : List β} (hxs : xs.mapM f = some ys)
    (hothers : others.mapM f = some ys) : xs = others := by
  have hpairs := mapM_eq_some.mp hxs
  have hpairs' := mapM_eq_some.mp hothers
  clear hxs hothers
  induction hpairs generalizing others with
  | nil =>
    cases hpairs'
    rfl
  | cons hy _ ih =>
    cases hpairs' with
    | cons hy' hrest => rw [hf _ _ _ hy hy', ih hrest]

theorem getElem?_of_mapM {f : α → Option β} {xs : List α} {ys : List β}
    (h : xs.mapM f = some ys) (index : Nat) : ys[index]? = xs[index]?.bind f := by
  have hpairs := mapM_eq_some.mp h
  clear h
  induction hpairs generalizing index with
  | nil => rfl
  | cons hy _ ih =>
    cases index with
    | zero => simp [hy]
    | succ index => simpa using ih index

theorem mem_mapM {f : α → Option β} {xs : List α} {ys : List β} (h : xs.mapM f = some ys) {y : β} :
    y ∈ ys ↔ ∃ x ∈ xs, f x = some y := by
  rw [mapM_eq_some] at h
  induction h with
  | nil => simp
  | cons hy _ ih => simp [hy, eq_comm, ih]

theorem isSome_of_mapM {f : α → Option β} {xs : List α} {ys : List β} (h : xs.mapM f = some ys)
    {x : α} (hx : x ∈ xs) : (f x).isSome := by
  obtain ⟨index, hindex⟩ := List.mem_iff_getElem?.mp hx
  have hlen := (mapM_eq_some.mp h).length_eq
  have hlt := (List.getElem?_eq_some_iff.mp hindex).1
  have hget := getElem?_of_mapM h index
  rw [hindex, Option.bind_some] at hget
  rw [← hget, List.getElem?_eq_getElem (hlen ▸ hlt)]
  rfl

theorem exists_mapM (f : α → Option β) (xs : List α) (h : ∀ x ∈ xs, (f x).isSome) :
    ∃ ys, xs.mapM f = some ys := by
  induction xs with
  | nil => exact ⟨[], rfl⟩
  | cons x xs ih =>
    obtain ⟨hx, hxs⟩ := List.forall_mem_cons.mp h
    obtain ⟨y, hy⟩ := Option.isSome_iff_exists.mp hx
    obtain ⟨ys, hys⟩ := ih hxs
    exact ⟨y :: ys, by rw [List.mapM_cons, hy, hys]; rfl⟩

theorem exists_mapM_ok {ε : Type*} (f : α → Except ε β) (xs : List α)
    (h : ∀ x ∈ xs, ∃ y, f x = .ok y) : ∃ ys, xs.mapM f = .ok ys ∧ ys.length = xs.length := by
  induction xs with
  | nil => exact ⟨[], rfl, rfl⟩
  | cons x rest ih =>
    obtain ⟨y, hy⟩ := h x List.mem_cons_self
    obtain ⟨ys, hys, hlength⟩ := ih fun other hin => h other (List.mem_cons_of_mem _ hin)
    exact ⟨y :: ys, by rw [List.mapM_cons, hy, hys]; rfl, by simp [hlength]⟩

theorem mapM_ok {ε : Type*} {f : α → Except ε β} {g : α → β} {xs : List α}
    (h : ∀ x ∈ xs, f x = .ok (g x)) : xs.mapM f = .ok (xs.map g) := by
  induction xs with
  | nil => rfl
  | cons x rest ih =>
    rw [List.mapM_cons, h x List.mem_cons_self,
      ih fun other hin => h other (List.mem_cons_of_mem _ hin)]
    rfl

theorem forall₂_of_mapM_ok {ε : Type*} {f : α → Except ε β} {xs : List α} {ys : List β}
    (h : xs.mapM f = .ok ys) : List.Forall₂ (fun x y => f x = .ok y) xs ys := by
  induction xs generalizing ys with
  | nil =>
    cases h
    exact .nil
  | cons x rest ih =>
    rw [List.mapM_cons] at h
    cases hx : f x with
    | error error =>
      rw [hx] at h
      cases h
    | ok y =>
      rw [hx] at h
      cases hrest : rest.mapM f with
      | error error =>
        rw [hrest] at h
        cases h
      | ok ys =>
        rw [hrest] at h
        cases h
        exact .cons hx (ih hrest)

theorem mapM_range_ok {ε : Type*} {f : Nat → Except ε β} {ys : List β}
    (h : ∀ place y, ys[place]? = some y → f place = .ok y) :
    (List.range ys.length).mapM f = .ok ys := by
  induction ys using List.reverseRecOn with
  | nil => rfl
  | append_singleton ys y ih =>
    have hinit := ih fun place other hplace => h place other (by
      rw [List.getElem?_append_left (List.getElem?_eq_some_iff.mp hplace).1]
      exact hplace)
    rw [List.length_append, List.length_singleton, List.range_succ, List.mapM_append, hinit,
      List.mapM_cons, h ys.length y (by simp)]
    rfl

/-! ### Computations that may fail -/

universe u

theorem bind_eq_ok {ε : Type*} {α β : Type u} {first : Except ε α}
    {next : α → Except ε β} {value : β} :
    (first >>= next) = .ok value ↔ ∃ middle, first = .ok middle ∧ next middle = .ok value := by
  cases first with
  | error error => simp [bind, Except.bind]
  | ok middle => simp [bind, Except.bind]

theorem mem_of_mapM_ok {ε : Type*} {f : α → Except ε β} {xs : List α} {ys : List β}
    (h : xs.mapM f = .ok ys) {y : β} (hy : y ∈ ys) : ∃ x ∈ xs, f x = .ok y := by
  induction xs generalizing ys with
  | nil =>
    cases h
    cases hy
  | cons x xs ih =>
    rw [List.mapM_cons] at h
    obtain ⟨first, hfirst, h⟩ := bind_eq_ok.mp h
    obtain ⟨rest, hrest, h⟩ := bind_eq_ok.mp h
    obtain rfl : first :: rest = ys := Except.ok.inj h
    cases hy with
    | head => exact ⟨x, List.mem_cons_self, hfirst⟩
    | tail _ hy =>
      obtain ⟨source, hsource, hmade⟩ := ih hrest hy
      exact ⟨source, List.mem_cons_of_mem _ hsource, hmade⟩

end Loop
