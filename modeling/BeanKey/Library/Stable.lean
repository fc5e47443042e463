import BeanKey.Library.TopK

/-! Lists that a stable sort by a score cannot tell apart: the elements of each score stand in the
same order in both. -/
namespace Stable
open TopK
variable {α γ ι β : Type*} [LinearOrder β] {score : α → β} {n : Nat} {xs ys zs : List α}

def Alike (score : α → β) (xs ys : List α) : Prop :=
  ∀ value, xs.filter (fun x => score x = value) = ys.filter fun y => score y = value

theorem Alike.refl (xs : List α) : Alike score xs xs := fun _ => rfl

theorem Alike.append {us vs : List α} (h : Alike score xs ys) (h' : Alike score us vs) :
    Alike score (xs ++ us) (ys ++ vs) := by
  intro value
  rw [List.filter_append, List.filter_append, h value, h' value]

theorem Alike.map {score' : γ → β} {f : γ → α} {us vs : List γ}
    (hscore : ∀ u, score (f u) = score' u) (h : Alike score' us vs) :
    Alike score (us.map f) (vs.map f) := by
  intro value
  rw [List.filter_map, List.filter_map]
  simp only [Function.comp_def, hscore]
  rw [h value]

/-- Blocks whose elements never have the same score may stand in any order. -/
theorem alike_flatMap {blocks blocks' : List ι} (h : blocks.Perm blocks') {f : ι → List α}
    (hapart : ∀ i ∈ blocks, ∀ j ∈ blocks, i ≠ j → ∀ x ∈ f i, ∀ y ∈ f j, score x ≠ score y) :
    Alike score (blocks.flatMap f) (blocks'.flatMap f) := by
  intro value
  rw [List.filter_flatMap, List.filter_flatMap]
  have hone : ∀ i ∈ blocks, ∀ j ∈ blocks, i ≠ j →
      (f i).filter (fun x => score x = value) = [] ∨
        (f j).filter (fun x => score x = value) = [] := by
    intro i hi j hj hne
    by_contra hboth
    rw [not_or] at hboth
    obtain ⟨x, hx⟩ := List.exists_mem_of_ne_nil _ hboth.1
    obtain ⟨y, hy⟩ := List.exists_mem_of_ne_nil _ hboth.2
    simp only [List.mem_filter, decide_eq_true_eq] at hx hy
    exact hapart i hi j hj hne x hx.1 y hy.1 (hx.2.trans hy.2.symm)
  obtain ⟨kept, hkept⟩ : ∃ kept : ι → List α,
      ∀ i, (f i).filter (fun x => score x = value) = kept i := ⟨_, fun _ => rfl⟩
  simp only [hkept] at hone ⊢
  clear hapart
  induction h with
  | nil => rfl
  | cons i _ ih =>
    rw [List.flatMap_cons, List.flatMap_cons, ih]
    exact fun j hj k hk => hone j (List.mem_cons_of_mem _ hj) k (List.mem_cons_of_mem _ hk)
  | swap i j blocks =>
    simp only [List.flatMap_cons, ← List.append_assoc]
    by_cases hsame : i = j
    · rw [hsame]
    · cases hone i (by simp) j (by simp) hsame with
      | inl hi => simp [hi]
      | inr hj => simp [hj]
  | trans hfirst _ ih ih' =>
    rw [ih hone]
    exact ih' fun i hi j hj =>
      hone i (hfirst.mem_iff.mpr hi) j (hfirst.mem_iff.mpr hj)

/-! ### Sorting -/

theorem filter_of_falling_cons {x : α} (h : Falling score (x :: xs)) {value : β}
    (hlt : score x < value) : (x :: xs).filter (fun y => score y = value) = [] := by
  rw [List.filter_eq_nil_iff]
  intro y hy
  have hle : score y ≤ score x := by
    cases List.mem_cons.mp hy with
    | inl heq => rw [heq]
    | inr hin => exact (List.pairwise_cons.mp h).1 y hin
  simpa using (hle.trans_lt hlt).ne

/-- A falling list is known by the elements of each score. -/
theorem Alike.eq_of_falling (h : Alike score xs ys) (hxs : Falling score xs)
    (hys : Falling score ys) : xs = ys := by
  induction xs generalizing ys with
  | nil =>
    cases ys with
    | nil => rfl
    | cons y ys => exact absurd (h (score y)) (by simp)
  | cons x xs ih =>
    cases ys with
    | nil => exact absurd (h (score x)) (by simp)
    | cons y ys =>
      have hscore : score x = score y := by
        rcases lt_trichotomy (score x) (score y) with hlt | heq | hgt
        · have hnone := filter_of_falling_cons hxs hlt
          rw [h] at hnone
          exact absurd hnone (by simp)
        · exact heq
        · have hnone := filter_of_falling_cons hys hgt
          rw [← h] at hnone
          exact absurd hnone (by simp)
      have hhead := h (score x)
      rw [List.filter_cons_of_pos (by simp), List.filter_cons_of_pos (by simp [hscore])] at hhead
      obtain ⟨rfl, hrest⟩ := List.cons.inj hhead
      rw [ih ?_ (List.pairwise_cons.mp hxs).2 (List.pairwise_cons.mp hys).2]
      intro value
      by_cases hvalue : score x = value
      · exact hvalue ▸ hrest
      · have hother := h value
        rwa [List.filter_cons_of_neg (by simpa using hvalue),
          List.filter_cons_of_neg (by simpa using hvalue)] at hother

def sortFalling (score : α → β) (xs : List α) : List α :=
  xs.mergeSort fun x y => decide (score y ≤ score x)

theorem falls_trans (x y z : α) (hxy : decide (score y ≤ score x) = true)
    (hyz : decide (score z ≤ score y) = true) : decide (score z ≤ score x) = true :=
  decide_eq_true ((of_decide_eq_true hyz).trans (of_decide_eq_true hxy))

theorem falls_total (x y : α) :
    (decide (score y ≤ score x) || decide (score x ≤ score y)) = true := by
  simpa using le_total (score y) (score x)

theorem sortFalling_falling (xs : List α) : Falling score (sortFalling score xs) :=
  (List.pairwise_mergeSort falls_trans falls_total xs).imp fun hle => of_decide_eq_true hle

theorem sortFalling_alike (xs : List α) : Alike score (sortFalling score xs) xs := by
  intro value
  have hfalling : (xs.filter fun x => score x = value).Pairwise
      fun x y => decide (score y ≤ score x) = true := by
    refine List.pairwise_of_forall_mem_list fun x hx y hy => ?_
    simp only [List.mem_filter, decide_eq_true_eq] at hx hy
    simp [hx.2, hy.2]
  have hsub := (List.sublist_mergeSort falls_trans falls_total hfalling List.filter_sublist).filter
    fun x => decide (score x = value)
  rw [List.filter_filter] at hsub
  simp only [Bool.and_self] at hsub
  refine (hsub.eq_of_length ?_).symm
  exact ((List.mergeSort_perm xs _).filter _).length_eq.symm

theorem Alike.sortFalling_eq (h : Alike score xs ys) :
    sortFalling score xs = sortFalling score ys := by
  refine Alike.eq_of_falling ?_ (sortFalling_falling xs) (sortFalling_falling ys)
  intro value
  rw [sortFalling_alike xs value, h value, sortFalling_alike ys value]

theorem filter_value_and (p : β → Bool) (value : β) (xs : List α) :
    (xs.filter fun y => p (score y)).filter (fun y => score y = value) =
      if p value then xs.filter fun y => score y = value else [] := by
  rw [List.filter_filter]
  split
  · next hp =>
    refine List.filter_congr fun y _ => ?_
    by_cases hy : score y = value
    · simp [hy, hp]
    · simp [hy]
  · next hp =>
    refine List.filter_eq_nil_iff.mpr fun y _ => ?_
    by_cases hy : score y = value
    · simp [hy, hp]
    · simp [hy]

/-- What stands before an element and what behind it: of the same score, what stood there
already. -/
theorem sortFalling_split (before after : List α) (x : α) :
    sortFalling score (before ++ x :: after) =
      sortFalling score ((before.filter fun y => score x ≤ score y) ++
          after.filter fun y => score x < score y) ++
        x :: sortFalling score ((before.filter fun y => score y < score x) ++
          after.filter fun y => score y ≤ score x) := by
  refine Alike.eq_of_falling ?_ (sortFalling_falling _) ?_
  · intro value
    have hhigh := @filter_value_and _ _ _ score (fun bound => score x ≤ bound) value before
    have habove := @filter_value_and _ _ _ score (fun bound => score x < bound) value after
    have hlow := @filter_value_and _ _ _ score (fun bound => bound < score x) value before
    have hbelow := @filter_value_and _ _ _ score (fun bound => bound ≤ score x) value after
    rw [sortFalling_alike _ value, List.filter_append, List.filter_append, List.filter_cons,
      List.filter_cons, sortFalling_alike _ value, sortFalling_alike _ value, List.filter_append,
      List.filter_append, hhigh, habove, hlow, hbelow]
    rcases lt_trichotomy (score x) value with hlt | rfl | hgt
    · simp [hlt.le, hlt.not_ge, hlt.ne, hlt, hlt.not_gt]
    · simp
    · simp [hgt.le, hgt.not_ge, hgt.ne', hgt, hgt.not_gt]
  · have hfirst : ∀ y ∈ sortFalling score ((before.filter fun y => score x ≤ score y) ++
        after.filter fun y => score x < score y), score x ≤ score y := by
      intro y hin
      cases List.mem_append.mp (List.mem_mergeSort.mp hin) with
      | inl hin => exact of_decide_eq_true (List.mem_filter.mp hin).2
      | inr hin => exact (of_decide_eq_true (List.mem_filter.mp hin).2).le
    have hlast : ∀ y ∈ sortFalling score ((before.filter fun y => score y < score x) ++
        after.filter fun y => score y ≤ score x), score y ≤ score x := by
      intro y hin
      cases List.mem_append.mp (List.mem_mergeSort.mp hin) with
      | inl hin => exact (of_decide_eq_true (List.mem_filter.mp hin).2).le
      | inr hin => exact of_decide_eq_true (List.mem_filter.mp hin).2
    refine List.pairwise_append.mpr ⟨sortFalling_falling _,
      List.pairwise_cons.mpr ⟨hlast, sortFalling_falling _⟩, ?_⟩
    intro y hy z hz
    cases List.mem_cons.mp hz with
    | inl heq => exact heq ▸ hfirst y hy
    | inr hz => exact (hlast z hz).trans (hfirst y hy)

/-- The first of a stable sort are those that few elements go before: the higher ones, and the equal
ones that stand earlier. -/
theorem mem_take_sortFalling {x : α} :
    x ∈ (sortFalling score xs).take n ↔ ∃ before after, xs = before ++ x :: after ∧
      (before.countP fun y => score x ≤ score y) +
      (after.countP fun y => score x < score y) < n := by
  have hlength : ∀ before after : List α,
      (sortFalling score ((before.filter fun y => score x ≤ score y) ++
        after.filter fun y => score x < score y)).length =
          (before.countP fun y => score x ≤ score y) + after.countP fun y => score x < score y := by
    intro before after
    rw [sortFalling, List.length_mergeSort, List.length_append, ← List.countP_eq_length_filter,
      ← List.countP_eq_length_filter]
  constructor
  · intro hin
    have hmem : x ∈ xs := List.mem_mergeSort.mp (List.mem_of_mem_take hin)
    obtain ⟨before, after, rfl, hnew⟩ := List.eq_append_cons_of_mem hmem
    refine ⟨before, after, rfl, ?_⟩
    rw [sortFalling_split] at hin
    rw [← hlength]
    by_contra hle
    rw [List.take_append_of_le_length (Nat.not_lt.mp hle)] at hin
    cases List.mem_append.mp (List.mem_mergeSort.mp (List.mem_of_mem_take hin)) with
    | inl hbefore => exact hnew (List.mem_of_mem_filter hbefore)
    | inr hafter => exact lt_irrefl _ (of_decide_eq_true (List.mem_filter.mp hafter).2)
  · rintro ⟨before, after, rfl, hlt⟩
    rw [← hlength] at hlt
    rw [sortFalling_split, List.take_append]
    obtain ⟨count, hcount⟩ := Nat.exists_eq_succ_of_ne_zero (Nat.sub_ne_zero_of_lt hlt)
    rw [hcount, List.take_succ_cons]
    exact List.mem_append_right _ List.mem_cons_self

/-! ### Insertion -/

def insertFalling (score : α → β) (xs : List α) (x : α) : List α :=
  xs.takeWhile (fun y => score x ≤ score y) ++ x :: xs.dropWhile fun y => score x ≤ score y

theorem insertFalling_split {high low : List α} {x : α} (hhigh : ∀ y ∈ high, score x ≤ score y)
    (hlow : ∀ y ∈ low, score y < score x) :
    insertFalling score (high ++ low) x = high ++ x :: low := by
  have hpos : ∀ y ∈ high, decide (score x ≤ score y) = true := by simpa using hhigh
  have hstop : low.takeWhile (fun y => decide (score x ≤ score y)) = [] ∧
      low.dropWhile (fun y => decide (score x ≤ score y)) = low := by
    cases low with
    | nil => exact ⟨rfl, rfl⟩
    | cons y low =>
      have hneg : ¬score x ≤ score y := not_le.mpr (hlow y List.mem_cons_self)
      simp [hneg]
  rw [insertFalling, List.takeWhile_append_of_pos hpos, List.dropWhile_append_of_pos hpos,
    hstop.1, hstop.2, List.append_nil]

theorem exists_split (h : Falling score xs) (x : α) :
    ∃ high low, xs = high ++ low ∧ (∀ y ∈ high, score x ≤ score y) ∧
      ∀ y ∈ low, score y < score x := by
  obtain ⟨high, low, rfl, -, hhigh, hlow⟩ := insertPosition_split score xs x h
  exact ⟨high, low, rfl, hhigh, hlow⟩

theorem insertFalling_falling (h : Falling score xs) (x : α) :
    Falling score (insertFalling score xs x) := by
  obtain ⟨high, low, rfl, hhigh, hlow⟩ := exists_split h x
  rw [insertFalling_split hhigh hlow]
  exact falling_insert h hhigh hlow

theorem insertFalling_alike (h : Falling score xs) (x : α) :
    Alike score (insertFalling score xs x) (xs ++ [x]) := by
  obtain ⟨high, low, rfl, hhigh, hlow⟩ := exists_split h x
  rw [insertFalling_split hhigh hlow]
  intro value
  rw [List.append_assoc, List.filter_append, List.filter_append, List.filter_append]
  congr 1
  by_cases hvalue : score x = value
  · have hnone : low.filter (fun y => score y = value) = [] := by
      rw [List.filter_eq_nil_iff]
      intro y hy
      simpa using ((hlow y hy).trans_eq hvalue).ne
    rw [List.filter_cons, hnone]
    simp [hvalue]
  · simp [hvalue]

theorem foldl_insertFalling (h : Falling score xs) (ys : List α) :
    Falling score (ys.foldl (insertFalling score) xs) ∧
      Alike score (ys.foldl (insertFalling score) xs) (xs ++ ys) := by
  induction ys generalizing xs with
  | nil => exact ⟨h, by simpa using Alike.refl xs⟩
  | cons y ys ih =>
    obtain ⟨hfalling, halike⟩ := ih (insertFalling_falling h y)
    refine ⟨hfalling, fun value => ?_⟩
    have hinsert := (insertFalling_alike h y).append (Alike.refl ys) value
    rw [List.foldl_cons, halike value, hinsert]
    simp

/-- Cutting the list before or after the insertion makes no difference. -/
theorem insertBounded_take (h : Falling score xs) (x : α) :
    insertBounded score n (xs.take n) x = (insertFalling score xs x).take n := by
  have hcut : Falling score (xs.take n) := h.sublist (List.take_sublist n xs)
  obtain ⟨high', low', hsplit', hhigh', hlow', heq⟩ :=
    insertBounded_eq_take hcut (List.length_take_le n xs) x
  obtain ⟨high, low, rfl, hhigh, hlow⟩ := exists_split h x
  have hcopy : insertFalling score ((high ++ low).take n) x = high' ++ x :: low' := by
    rw [hsplit', insertFalling_split hhigh' hlow']
  rw [heq, ← hcopy, insertFalling_split hhigh hlow, List.take_append]
  rw [insertFalling_split (fun y hy => hhigh y (List.mem_of_mem_take hy))
    fun y hy => hlow y (List.mem_of_mem_take hy)]
  rw [List.take_append, List.take_take, Nat.min_self, List.take_append, List.length_take]
  congr 1
  cases hrest : n - high.length with
  | zero =>
    rw [Nat.min_eq_left (by omega), Nat.sub_self]
    rfl
  | succ rest =>
    rw [Nat.min_eq_right (by omega), hrest, List.take_succ_cons, List.take_succ_cons,
      List.take_take, Nat.min_eq_left (Nat.le_succ rest)]

theorem foldl_insertBounded_take (h : Falling score xs) (ys : List α) :
    ys.foldl (insertBounded score n) (xs.take n) = (ys.foldl (insertFalling score) xs).take n := by
  induction ys generalizing xs with
  | nil => rfl
  | cons y ys ih =>
    rw [List.foldl_cons, List.foldl_cons, insertBounded_take h, ih (insertFalling_falling h y)]

/-- Only the order of elements with the same score matters to the insertion. -/
theorem Alike.foldl_insertBounded_eq (h : Alike score ys zs) (hfalling : Falling score xs)
    (hlength : xs.length ≤ n) :
    ys.foldl (insertBounded score n) xs = zs.foldl (insertBounded score n) xs := by
  rw [← List.take_of_length_le hlength, foldl_insertBounded_take hfalling,
    foldl_insertBounded_take hfalling]
  obtain ⟨hys, hysAlike⟩ := foldl_insertFalling hfalling ys
  obtain ⟨hzs, hzsAlike⟩ := foldl_insertFalling hfalling zs
  rw [Alike.eq_of_falling (fun value => ?_) hys hzs]
  rw [hysAlike value, hzsAlike value]
  exact (Alike.refl xs).append h value

theorem foldl_insertBounded_falling (hfalling : Falling score xs) (hlength : xs.length ≤ n)
    (ys : List α) : Falling score (ys.foldl (insertBounded score n) xs) ∧
      (ys.foldl (insertBounded score n) xs).length ≤ n := by
  rw [← List.take_of_length_le hlength, foldl_insertBounded_take hfalling]
  exact ⟨(foldl_insertFalling hfalling ys).1.sublist (List.take_sublist n _),
    List.length_take_le n _⟩

theorem map_foldl_insertBounded {score' : γ → β} {f : α → γ} (hscore : ∀ x, score' (f x) = score x)
    (hfalling : Falling score xs) (hlength : xs.length ≤ n) (ys : List α) :
    (ys.foldl (insertBounded score n) xs).map f =
      (ys.map f).foldl (insertBounded score' n) (xs.map f) := by
  have hpredicate : ∀ x : α, (fun y => decide (score' (f x) ≤ score' y)) ∘ f =
      fun y => decide (score x ≤ score y) := by
    intro x
    funext y
    simp [hscore]
  have hinsert : ∀ (us : List α) (x : α),
      (insertFalling score us x).map f = insertFalling score' (us.map f) (f x) := by
    intro us x
    rw [insertFalling, insertFalling, List.map_append, List.map_cons, List.takeWhile_map,
      List.dropWhile_map, hpredicate]
  have hmapped : Falling score' (xs.map f) :=
    List.pairwise_map.mpr (hfalling.imp fun hle => by simpa [hscore] using hle)
  rw [← List.take_of_length_le hlength, foldl_insertBounded_take hfalling, List.map_take,
    List.map_take, foldl_insertBounded_take hmapped]
  congr 1
  clear hfalling hlength hmapped
  induction ys generalizing xs with
  | nil => rfl
  | cons y ys ih =>
    rw [List.foldl_cons, ih, hinsert]
    rfl

end Stable
