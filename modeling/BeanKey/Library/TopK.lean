import Mathlib.Data.List.Perm.Subperm
import Mathlib.Data.List.Sort
import Mathlib.Data.List.TakeWhile
import Mathlib.Data.Set.Card
import Mathlib.Data.Set.Image
import Mathlib.Order.Basic

/-! The `n` best elements of a set, kept as a list that falls in score, and the
insertion that maintains them. -/
namespace TopK
variable {α γ β : Type*} [LinearOrder β]

/-- `xs` holds `n` of the best elements of `S`, or all of them where there are fewer. -/
structure IsTop (score : α → β) (n : Nat) (S : Set α) (xs : List α) : Prop where
  nodup : xs.Nodup
  subset : ∀ x ∈ xs, x ∈ S
  length_le : xs.length ≤ n
  best : ∀ x ∈ S, x ∉ xs → xs.length = n ∧ ∀ y ∈ xs, score x ≤ score y

def Falling (score : α → β) (xs : List α) : Prop :=
  xs.Pairwise fun x y => score y ≤ score x

def countAbove (score : α → β) (bound : β) (xs : List α) : Nat :=
  xs.countP fun y => bound ≤ score y

/-- Where the insertion puts `x`: behind the last element that is at least as good. -/
def insertPosition (score : α → β) (xs : List α) (x : α) : Nat :=
  (xs.reverse.dropWhile fun y => !(score x ≤ score y)).length

def insertBounded (score : α → β) (n : Nat) (xs : List α) (x : α) : List α :=
  let position := insertPosition score xs x
  if position = n then xs
  else (if n ≤ xs.length then xs.dropLast else xs).insertIdx position x

variable {score : α → β} {n : Nat} {S : Set α} {xs : List α}

theorem isTop_self (score : α → β) (hnodup : xs.Nodup) (hlen : xs.length ≤ n) :
    IsTop score n { x | x ∈ xs } xs :=
  ⟨hnodup, fun _ hin => hin, hlen, fun _ hin hnot => absurd hin hnot⟩

/-! ### Counting from above -/

theorem countAbove_eq_length {bound : β} (h : ∀ y ∈ xs, bound ≤ score y) :
    countAbove score bound xs = xs.length := by
  rw [countAbove, List.countP_eq_length]
  simpa using h

theorem IsTop.covered (h : IsTop score n S xs) {x : α} (hx : x ∈ S) :
    x ∈ xs ∨ n ≤ countAbove score (score x) xs := by
  by_cases hmem : x ∈ xs
  · exact .inl hmem
  · obtain ⟨hlen, hbest⟩ := h.best x hx hmem
    exact .inr (by rw [countAbove_eq_length hbest, hlen])

theorem isTop_of_covered (hnodup : xs.Nodup) (hsub : ∀ x ∈ xs, x ∈ S) (hlen : xs.length ≤ n)
    (h : ∀ x ∈ S, x ∈ xs ∨ n ≤ countAbove score (score x) xs) : IsTop score n S xs := by
  refine ⟨hnodup, hsub, hlen, ?_⟩
  intro x hx hmem
  have hcount := (h x hx).resolve_left hmem
  have hle : countAbove score (score x) xs ≤ xs.length := List.countP_le_length
  have hall : countAbove score (score x) xs = xs.length := by omega
  rw [countAbove, List.countP_eq_length] at hall
  exact ⟨by omega, by simpa using hall⟩

/-- In a falling list the good elements come first. -/
theorem countAbove_take (h : Falling score xs) (bound : β) (k : Nat) :
    countAbove score bound (xs.take k) = min k (countAbove score bound xs) := by
  induction xs generalizing k with
  | nil => simp [countAbove]
  | cons x xs ih =>
    obtain ⟨hx, hxs⟩ := List.pairwise_cons.mp h
    cases k with
    | zero => simp [countAbove]
    | succ k =>
      have hrest := ih hxs k
      simp only [countAbove, List.take_succ_cons, List.countP_cons] at hrest ⊢
      by_cases hbound : bound ≤ score x
      · simp only [hbound, decide_true, if_true, hrest]
        omega
      · have hnone : xs.countP (fun y => bound ≤ score y) = 0 := by
          rw [List.countP_eq_zero]
          intro y hy
          simpa using lt_of_le_of_lt (hx y hy) (not_le.mp hbound)
        simp [hbound, hrest, hnone]

/-- Cutting a falling list that covers `S` leaves the best of `S`. -/
theorem isTop_take (hsorted : Falling score xs) (hnodup : xs.Nodup) (hsub : ∀ x ∈ xs, x ∈ S)
    {k : Nat} (h : ∀ x ∈ S, x ∈ xs ∨ k ≤ countAbove score (score x) xs) :
    IsTop score k S (xs.take k) := by
  have htake := List.take_sublist k xs
  refine isTop_of_covered (hnodup.sublist htake) (fun x hx => hsub x (htake.subset hx))
    (by rw [List.length_take]; omega) ?_
  intro x hx
  rw [countAbove_take hsorted]
  by_cases hcount : k ≤ countAbove score (score x) xs
  · exact .inr (by omega)
  · have hmem := (h x hx).resolve_right hcount
    rw [← List.take_append_drop k xs] at hmem
    obtain hin | hin := List.mem_append.mp hmem
    · exact .inl hin
    · rw [Falling, ← List.take_append_drop k xs, List.pairwise_append] at hsorted
      have habove : ∀ y ∈ xs.take k, score x ≤ score y := fun y hy => hsorted.2.2 y hy x hin
      have hdrop := List.length_pos_of_mem hin
      rw [List.length_drop] at hdrop
      have hall := countAbove_eq_length habove
      have hsplit : countAbove score (score x) xs =
          countAbove score (score x) (xs.take k) + countAbove score (score x) (xs.drop k) := by
        rw [countAbove, countAbove, countAbove, ← List.countP_append, List.take_append_drop]
      rw [List.length_take] at hall
      omega

/-- Any list that covers `S` up to `n` holds the `k` best of `S`, for `k` up to `n`. -/
theorem exists_isTop (hnodup : xs.Nodup) (hsub : ∀ x ∈ xs, x ∈ S)
    (h : ∀ x ∈ S, x ∈ xs ∨ n ≤ countAbove score (score x) xs) {k : Nat} (hk : k ≤ n) :
    ∃ kept, List.Subperm kept xs ∧ IsTop score k S kept := by
  have hperm := List.mergeSort_perm xs fun x y => decide (score y ≤ score x)
  have hsorted : Falling score (xs.mergeSort fun x y => decide (score y ≤ score x)) := by
    have htrans : ∀ a b c : α, decide (score b ≤ score a) → decide (score c ≤ score b) →
        decide (score c ≤ score a) := by
      intro a b c hab hbc
      exact decide_eq_true ((of_decide_eq_true hbc).trans (of_decide_eq_true hab))
    have htotal : ∀ a b : α, (decide (score b ≤ score a) || decide (score a ≤ score b)) = true := by
      intro a b
      simpa using le_total (score b) (score a)
    have hpairs := List.pairwise_mergeSort htrans htotal xs
    exact hpairs.imp fun hle => of_decide_eq_true hle
  refine ⟨_, (List.take_sublist k _).subperm.trans hperm.subperm,
    isTop_take hsorted (hperm.nodup_iff.mpr hnodup) (fun x hx => hsub x (hperm.mem_iff.mp hx)) ?_⟩
  intro x hx
  rw [hperm.mem_iff, countAbove, hperm.countP_eq]
  exact (h x hx).imp id hk.trans

/-! ### Operations -/

theorem IsTop.map {score' : γ → β} {f : α → γ} (h : IsTop score n S xs)
    (hinj : ∀ x ∈ S, ∀ y ∈ S, f x = f y → x = y)
    (hmono : ∀ x ∈ S, ∀ y ∈ S, score x ≤ score y → score' (f x) ≤ score' (f y)) :
    IsTop score' n (f '' S) (xs.map f) := by
  refine ⟨?_, ?_, by simpa using h.length_le, ?_⟩
  · exact h.nodup.map_on fun x hx y hy he => hinj x (h.subset x hx) y (h.subset y hy) he
  · intro y hy
    obtain ⟨x, hx, rfl⟩ := List.mem_map.mp hy
    exact ⟨x, h.subset x hx, rfl⟩
  · rintro _ ⟨x, hx, rfl⟩ hnot
    obtain ⟨hlen, hbest⟩ := h.best x hx fun hmem => hnot (List.mem_map.mpr ⟨x, hmem, rfl⟩)
    refine ⟨by simpa using hlen, ?_⟩
    intro y hy
    obtain ⟨x', hx', rfl⟩ := List.mem_map.mp hy
    exact hmono x hx x' (h.subset x' hx') (hbest x' hx')

/-- A filter keeps the best of what passes it, where all of `S` was kept or none of it is told
apart. -/
theorem IsTop.filter (h : IsTop score n S xs) (p : α → Bool)
    (halike : S.encard ≤ n ∨ ∀ x ∈ S, ∀ y ∈ S, p x = p y) :
    IsTop score n { x | x ∈ S ∧ p x = true } (xs.filter p) := by
  refine ⟨h.nodup.filter p, ?_, (List.length_filter_le p xs).trans h.length_le, ?_⟩
  · intro x hx
    obtain ⟨hin, hp⟩ := List.mem_filter.mp hx
    exact ⟨h.subset x hin, hp⟩
  · rintro x ⟨hx, hp⟩ hnot
    have hlost : x ∉ xs := fun hin => hnot (List.mem_filter.mpr ⟨hin, hp⟩)
    obtain ⟨hlen, hbest⟩ := h.best x hx hlost
    cases halike with
    | inl hfew =>
      exfalso
      have hmore : ((x :: xs).length : ℕ∞) ≤ S.encard := by
        classical
        have hsub : ((x :: xs).toFinset : Set α) ⊆ S := by
          intro y hy
          rw [List.coe_toFinset, Set.mem_ofPred_eq, List.mem_cons] at hy
          exact hy.elim (fun heq => heq ▸ hx) (h.subset y)
        have hcard := Set.encard_le_encard hsub
        rwa [Set.encard_coe_eq_coe_finsetCard,
          List.toFinset_card_of_nodup (List.nodup_cons.mpr ⟨hlost, h.nodup⟩)] at hcard
      rw [List.length_cons, hlen] at hmore
      have := hmore.trans hfew
      rw [Nat.cast_le] at this
      omega
    | inr hsame =>
      have hall : xs.filter p = xs := by
        apply List.filter_eq_self.mpr
        exact fun y hy => (hsame y (h.subset y hy) x hx).trans hp
      rw [hall]
      exact ⟨hlen, hbest⟩

theorem IsTop.ne_nil (h : IsTop score n S xs) (hn : 0 < n) {x : α} (hx : x ∈ S) : xs ≠ [] := by
  rintro rfl
  have := (h.best x hx (by simp)).1
  simp only [List.length_nil] at this
  omega

theorem IsTop.exists_best (h : IsTop score 1 S xs) {x : α} (hx : x ∈ S) :
    ∃ best ∈ xs, ∀ y ∈ S, score y ≤ score best := by
  obtain ⟨best, rfl⟩ : ∃ best, xs = [best] := by
    cases xs with
    | nil => exact absurd rfl (h.ne_nil Nat.one_pos hx)
    | cons best rest =>
      have hlen := h.length_le
      rw [List.length_cons] at hlen
      have hrest : rest = [] := List.length_eq_zero_iff.mp (by omega)
      exact ⟨best, by rw [hrest]⟩
  refine ⟨best, List.mem_singleton_self best, ?_⟩
  intro y hy
  by_cases hsame : y = best
  · rw [hsame]
  · exact (h.best y hy (by simpa using hsame)).2 best (List.mem_singleton_self best)

theorem insertPosition_le (score : α → β) (xs : List α) (x : α) :
    insertPosition score xs x ≤ xs.length := by
  have := (List.dropWhile_sublist (l := xs.reverse) fun y => !(score x ≤ score y)).length_le
  rwa [List.length_reverse] at this

theorem insertBounded_ne_nil (score : α → β) (hn : 0 < n) (xs : List α) (x : α) :
    insertBounded score n xs x ≠ [] := by
  have hle := insertPosition_le score xs x
  apply List.ne_nil_of_length_pos
  simp only [insertBounded]
  generalize insertPosition score xs x = position at hle ⊢
  by_cases hfull : position = n
  · rw [if_pos hfull]
    omega
  · rw [if_neg hfull, List.length_insertIdx]
    by_cases hbound : n ≤ xs.length
    · rw [if_pos hbound, List.length_dropLast]
      split <;> omega
    · rw [if_neg hbound]
      split <;> omega

theorem mem_insertBounded {x y : α} (h : y ∈ insertBounded score n xs x) : y = x ∨ y ∈ xs := by
  unfold insertBounded at h
  dsimp only at h
  split at h
  · exact .inr h
  · refine (List.eq_or_mem_of_mem_insertIdx h).imp_right fun hin => ?_
    split at hin
    · exact List.mem_of_mem_dropLast hin
    · exact hin

theorem mem_foldl_insertBounded {ys : List α} {y : α}
    (h : y ∈ ys.foldl (insertBounded score n) xs) : y ∈ xs ∨ y ∈ ys := by
  induction ys generalizing xs with
  | nil => exact .inl h
  | cons first ys ih =>
    cases ih h with
    | inl hin =>
      cases mem_insertBounded hin with
      | inl hnew => exact .inr (hnew ▸ List.mem_cons_self)
      | inr hold => exact .inl hold
    | inr hin => exact .inr (List.mem_cons_of_mem first hin)

theorem insertPosition_split (score : α → β) (xs : List α) (x : α) (h : Falling score xs) :
    ∃ high low, xs = high ++ low ∧ high.length = insertPosition score xs x ∧
      (∀ y ∈ high, score x ≤ score y) ∧ ∀ y ∈ low, score y < score x := by
  refine ⟨(xs.reverse.dropWhile fun y => !(score x ≤ score y)).reverse,
    (xs.reverse.takeWhile fun y => !(score x ≤ score y)).reverse, ?_, ?_, ?_, ?_⟩
  · rw [← List.reverse_append, List.takeWhile_append_dropWhile, List.reverse_reverse]
  · rw [List.length_reverse, insertPosition]
  · intro y hy
    have hrev : xs.reverse.Pairwise fun x y => score x ≤ score y := List.pairwise_reverse.mpr h
    rw [List.mem_reverse] at hy
    have hsub := List.dropWhile_sublist (l := xs.reverse) fun y => !(score x ≤ score y)
    have hpairs := hrev.sublist hsub
    cases hdrop : xs.reverse.dropWhile fun y => !(score x ≤ score y) with
    | nil => rw [hdrop] at hy; simp at hy
    | cons first rest =>
      have hfirst : score x ≤ score first := by
        have hne : (xs.reverse.dropWhile fun y => !(score x ≤ score y)) ≠ [] := by simp [hdrop]
        have hhead := List.head_dropWhile_not (fun y => !(score x ≤ score y)) hne
        simp only [hdrop, List.head_cons] at hhead
        simpa using hhead
      rw [hdrop] at hy hpairs
      obtain rfl | hin := List.mem_cons.mp hy
      · exact hfirst
      · exact hfirst.trans ((List.pairwise_cons.mp hpairs).1 y hin)
  · intro y hy
    rw [List.mem_reverse] at hy
    simpa using List.mem_takeWhile_imp hy

theorem insertIdx_length_append (high low : List α) (x : α) :
    (high ++ low).insertIdx high.length x = high ++ x :: low := by
  induction high with
  | nil => rfl
  | cons y high ih => simpa using ih

/-- On a falling list of at most `n` elements, the insertion sorts `x` in and cuts the
list at `n`. -/
theorem insertBounded_eq_take (h : Falling score xs) (hlen : xs.length ≤ n) (x : α) :
    ∃ high low, xs = high ++ low ∧ (∀ y ∈ high, score x ≤ score y) ∧
      (∀ y ∈ low, score y < score x) ∧
      insertBounded score n xs x = (high ++ x :: low).take n := by
  obtain ⟨high, low, rfl, hposition, hhigh, hlow⟩ := insertPosition_split score xs x h
  refine ⟨high, low, rfl, hhigh, hlow, ?_⟩
  rw [List.length_append] at hlen
  simp only [insertBounded, ← hposition, List.length_append]
  by_cases hfull : high.length = n
  · have hnil : low = [] := List.eq_nil_of_length_eq_zero (by omega)
    rw [if_pos hfull, hnil, List.take_left' hfull, List.append_nil]
  · rw [if_neg hfull]
    by_cases hbound : n ≤ high.length + low.length
    · have hne : low ≠ [] := List.ne_nil_of_length_pos (by omega)
      have hn : n = high.length + (low.length - 1 + 1) := by
        have := List.length_pos_of_ne_nil hne
        omega
      rw [if_pos hbound, List.dropLast_append_of_ne_nil hne, insertIdx_length_append, hn,
        List.take_length_add_append, List.take_succ_cons, List.dropLast_eq_take]
    · rw [if_neg hbound, insertIdx_length_append,
        List.take_of_length_le (by simp only [List.length_append, List.length_cons]; omega)]

theorem falling_insert {high low : List α} {x : α} (h : Falling score (high ++ low))
    (hhigh : ∀ y ∈ high, score x ≤ score y) (hlow : ∀ y ∈ low, score y < score x) :
    Falling score (high ++ x :: low) := by
  obtain ⟨h1, h2, h3⟩ := List.pairwise_append.mp h
  refine List.pairwise_append.mpr ⟨h1, List.pairwise_cons.mpr ⟨fun y hy => (hlow y hy).le, h2⟩, ?_⟩
  intro a ha b hb
  obtain rfl | hin := List.mem_cons.mp hb
  · exact hhigh a ha
  · exact h3 a ha b hin

theorem IsTop.insertBounded (h : IsTop score n S xs) (hsorted : Falling score xs) {x : α}
    (hx : x ∉ S) : IsTop score n (insert x S) (insertBounded score n xs x) ∧
      Falling score (TopK.insertBounded score n xs x) := by
  obtain ⟨high, low, rfl, hhigh, hlow, heq⟩ := insertBounded_eq_take hsorted h.length_le x
  have hfalling := falling_insert hsorted hhigh hlow
  have hperm : (high ++ x :: low).Perm (x :: (high ++ low)) := List.perm_middle
  have hnodup : (high ++ x :: low).Nodup := by
    rw [hperm.nodup_iff, List.nodup_cons]
    exact ⟨fun hmem => hx (h.subset x hmem), h.nodup⟩
  rw [heq]
  refine ⟨isTop_take hfalling hnodup ?_ ?_, hfalling.sublist (List.take_sublist n _)⟩
  · intro y hy
    obtain rfl | hin := List.mem_cons.mp (hperm.mem_iff.mp hy)
    · exact Set.mem_insert y S
    · exact Set.mem_insert_of_mem x (h.subset y hin)
  · intro y hy
    obtain rfl | hin := Set.mem_insert_iff.mp hy
    · exact .inl (by simp)
    · rw [hperm.mem_iff, countAbove, hperm.countP_eq, List.countP_cons]
      refine (h.covered hin).imp (List.mem_cons_of_mem x) fun hcount => ?_
      exact hcount.trans (Nat.le_add_right _ _)

theorem IsTop.foldl_insertBounded (ys : List α) {S : Set α} {xs : List α}
    (h : IsTop score n S xs) (hsorted : Falling score xs) (hnodup : ys.Nodup)
    (hnew : ∀ y ∈ ys, y ∉ S) :
    IsTop score n (S ∪ { y | y ∈ ys }) (ys.foldl (TopK.insertBounded score n) xs) ∧
      Falling score (ys.foldl (TopK.insertBounded score n) xs) := by
  induction ys generalizing S xs with
  | nil =>
    have hunion : S ∪ { y | y ∈ ([] : List α) } = S := by
      ext y
      simp
    rw [hunion]
    exact ⟨h, hsorted⟩
  | cons y ys ih =>
    obtain ⟨hy, hys⟩ := List.nodup_cons.mp hnodup
    obtain ⟨htop, hfall⟩ := h.insertBounded hsorted (hnew y (by simp))
    have hrest := ih htop hfall hys fun z hz => by
      rw [Set.mem_insert_iff]
      rintro (rfl | hin)
      · exact hy hz
      · exact hnew z (List.mem_cons_of_mem y hz) hin
    have hunion : insert y S ∪ { z | z ∈ ys } = S ∪ { z | z ∈ y :: ys } := by
      ext z
      simp only [Set.mem_union, Set.mem_insert_iff, Set.mem_ofPred_eq, List.mem_cons]
      tauto
    rwa [hunion] at hrest

/-- Where a part is known only by its own best elements, nothing better is lost. -/
theorem IsTop.absorb {Y : Set α} {ys zs : List α}
    (h : IsTop score n (S ∪ { y | y ∈ ys }) zs) (hys : IsTop score n Y ys) :
    IsTop score n (S ∪ Y) zs := by
  refine ⟨h.nodup, ?_, h.length_le, ?_⟩
  · intro z hz
    exact (h.subset z hz).imp id (hys.subset z)
  · intro x hx hnot
    obtain hin | hin := hx
    · exact h.best x (.inl hin) hnot
    · by_cases hmem : x ∈ ys
      · exact h.best x (.inr hmem) hnot
      · obtain ⟨hlen, hbest⟩ := hys.best x hin hmem
        by_cases hall : ∀ y ∈ ys, y ∈ zs
        · -- the whole of `ys` was kept, so nothing else was
          have hsubperm : List.Subperm ys zs := hys.nodup.subperm hall
          have hle := hsubperm.length_le
          have hperm := hsubperm.perm_of_length_le (by have := h.length_le; omega)
          refine ⟨by rw [← hperm.length_eq, hlen], fun y hy => hbest y (hperm.mem_iff.mpr hy)⟩
        · push Not at hall
          obtain ⟨y, hy, hlost⟩ := hall
          obtain ⟨hfull, hbetter⟩ := h.best y (.inr hy) hlost
          exact ⟨hfull, fun z hz => (hbest y hy).trans (hbetter z hz)⟩

end TopK
