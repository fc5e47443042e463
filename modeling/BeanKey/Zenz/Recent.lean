import BeanKey.Library.Lru
import BeanKey.Library.Recency
import Mathlib.Algebra.Group.Nat.Defs
import Mathlib.Data.List.Perm.Basic

/-! What the caches of the evaluator hold: the keys touched last, with the values put in last,
whatever order the hash map hands its entries out in. -/
namespace BeanKey.LruCache
open Recency
variable {κ ν : Type} [DecidableEq κ]

/-! ### Histories -/

inductive Operation (κ ν : Type) where
  | get (key : κ)
  | insert (key : κ) (value : ν)

inductive Event (κ ν : Type) where
  | inserted (key : κ) (value : ν)
  | hit (key : κ)
  | missed (key : κ)

def Operation.perform (cache : LruCache κ ν) : Operation κ ν → LruCache κ ν × Event κ ν
  | .get key =>
    ((cache.get key).2, if (cache.get key).1.isSome then .hit key else .missed key)
  | .insert key value => (cache.insert key value, .inserted key value)

def Event.touched : Event κ ν → Option κ
  | .inserted key _ | .hit key => some key
  | .missed _ => none

/-- The keys of the touches of a history, which has its last event first. -/
def touched (events : List (Event κ ν)) : List κ := events.filterMap Event.touched

def lastInserted (events : List (Event κ ν)) (key : κ) : Option ν :=
  events.findSome? fun event =>
    match event with
    | .inserted other value => if other = key then some value else none
    | _ => none

/-- The caches that operations lead to, the last one first, with what came of them. Before each
operation the hash map may have put its entries into another order. -/
inductive Reached (capacity : Nat) :
    List (Operation κ ν) → List (Event κ ν) → LruCache κ ν → Prop
  | new : Reached capacity [] [] (LruCache.new capacity)
  | step {operations : List (Operation κ ν)} {events : List (Event κ ν)} {cache : LruCache κ ν}
      (entries : List (LruEntry κ ν)) (operation : Operation κ ν)
      (h : Reached capacity operations events cache) (horder : entries.Perm cache.entries) :
      Reached capacity (operation :: operations)
        ((operation.perform { cache with entries }).2 :: events)
        (operation.perform { cache with entries }).1

/-! ### One operation -/

omit [DecidableEq κ] in
theorem oldest_spec {entries : List (LruEntry κ ν)} (hne : entries ≠ []) :
    ∃ entry ∈ entries, oldest entries = some entry ∧
      ∀ other ∈ entries, entry.accessIndex ≤ other.accessIndex := by
  induction entries with
  | nil => exact absurd rfl hne
  | cons first rest ih =>
    by_cases hrest : rest = []
    · subst hrest
      exact ⟨first, List.mem_singleton_self _, rfl, by simp⟩
    · obtain ⟨least, hin, hleast, hall⟩ := ih hrest
      by_cases h : first.accessIndex ≤ least.accessIndex
      · refine ⟨first, List.mem_cons_self, by rw [oldest, hleast]; exact if_pos h, ?_⟩
        exact List.forall_mem_cons.mpr
          ⟨UInt64.le_refl _, fun other hother => UInt64.le_trans h (hall other hother)⟩
      · refine ⟨least, List.mem_cons_of_mem _ hin, by rw [oldest, hleast]; exact if_neg h, ?_⟩
        exact List.forall_mem_cons.mpr ⟨UInt64.le_of_lt (UInt64.not_le.mp h), hall⟩

/-- The entries, the one used last first. -/
def Latest (entries ordered : List (LruEntry κ ν)) : Prop :=
  ordered.Perm entries ∧ ordered.Pairwise fun later earlier => earlier.accessIndex <
    later.accessIndex

omit [DecidableEq κ] in
/-- What is dropped is the last one of them, in whatever order they come. -/
theorem Latest.oldest {entries before : List (LruEntry κ ν)} {last : LruEntry κ ν}
    (h : Latest entries (before ++ [last])) : oldest entries = some last := by
  have hne : entries ≠ [] := by
    rintro rfl
    simpa using h.1.length_eq
  obtain ⟨least, hin, hleast, hall⟩ := oldest_spec hne
  have hlast := hall last (h.1.mem_iff.mp (by simp))
  cases List.mem_append.mp (h.1.mem_iff.mpr hin) with
  | inl hbefore =>
    have hlt := (List.pairwise_append.mp h.2).2.2 least hbefore last (List.mem_singleton_self _)
    exact absurd hlast (UInt64.not_le.mpr hlt)
  | inr heq =>
    obtain rfl := List.mem_singleton.mp heq
    exact hleast

omit [DecidableEq κ] in
theorem Latest.nodup {entries ordered : List (LruEntry κ ν)} (h : Latest entries ordered)
    (hnodup : (ordered.map LruEntry.key).Nodup) : (entries.map LruEntry.key).Nodup :=
  (h.1.map LruEntry.key).nodup_iff.mp hnodup

theorem Latest.remove {entries ordered : List (LruEntry κ ν)}
    (h : Latest entries ordered) (key : κ) :
    ((ordered.filter fun entry => entry.key ≠ key)).Perm (remove entries key) :=
  h.1.filter _

theorem filter_concat_key {before : List (LruEntry κ ν)} {last : LruEntry κ ν}
    (hnodup : ((before ++ [last]).map LruEntry.key).Nodup) :
    ((before ++ [last]).filter fun entry => entry.key ≠ last.key) = before := by
  rw [List.map_append, List.nodup_append] at hnodup
  have hbefore : ∀ entry ∈ before, decide (entry.key ≠ last.key) = true := by
    intro entry hin
    exact decide_eq_true (hnodup.2.2 entry.key (List.mem_map_of_mem hin) last.key (by simp))
  rw [List.filter_append, List.filter_eq_self.mpr hbefore]
  simp

/-- An insertion keeps the entries used last, but for the one with its key, as far as there is
room. -/
theorem Latest.insert {cache : LruCache κ ν} {ordered : List (LruEntry κ ν)}
    (h : Latest cache.entries ordered) (hnodup : (ordered.map LruEntry.key).Nodup) {count : Nat}
    (hcapacity : cache.capacity = count + 1) (hlength : ordered.length ≤ count + 1)
    (key : κ) (value : ν) :
    (⟨key, value, cache.accessIndex + 1⟩ ::
      (ordered.filter fun entry => entry.key ≠ key).take count).Perm
      (cache.insert key value).entries := by
  refine List.Perm.cons _ ?_
  by_cases hnew : cache.entries.all fun entry => entry.key ≠ key
  · have habsent : ∀ entry ∈ ordered, decide (entry.key ≠ key) = true :=
      fun entry hin => List.all_eq_true.mp hnew entry (h.1.mem_iff.mp hin)
    rw [List.filter_eq_self.mpr habsent]
    by_cases hfull : cache.capacity ≤ cache.entries.length
    · -- the cache is full: what goes is the entry that was used before all others
      have hne : ordered ≠ [] := by
        intro hnil
        rw [← h.1.length_eq, hnil, List.length_nil] at hfull
        omega
      obtain ⟨before, last, rfl⟩ : ∃ before last, ordered = before ++ [last] :=
        ⟨_, _, (List.dropLast_append_getLast hne).symm⟩
      have hbefore : before.length = count := by
        have hsame := h.1.length_eq
        rw [List.length_append, List.length_singleton] at hsame hlength
        omega
      have hremoved : before.Perm (LruCache.remove cache.entries last.key) := by
        have hrest := h.remove last.key
        rwa [filter_concat_key hnodup] at hrest
      have hkept : ∀ entry ∈ before, decide (entry.key ≠ key) = true :=
        fun entry hin => habsent entry (List.mem_append_left _ hin)
      rw [List.take_left' hbefore]
      simp only [hnew, hfull, decide_true, Bool.and_true, if_true, h.oldest]
      have hfinal := hremoved.filter fun entry => decide (entry.key ≠ key)
      rwa [List.filter_eq_self.mpr hkept] at hfinal
    · have hroom : ordered.length ≤ count := by
        have hsame := h.1.length_eq
        omega
      rw [List.take_of_length_le hroom]
      simp only [hfull, decide_false, Bool.and_false, Bool.false_eq_true, if_false]
      have hfinal := h.remove key
      rwa [List.filter_eq_self.mpr habsent] at hfinal
  · have hroom : (ordered.filter fun entry => entry.key ≠ key).length ≤ count := by
      have hsome : ∃ entry ∈ ordered, ¬decide (entry.key ≠ key) = true := by
        obtain ⟨entry, hin, heq⟩ := List.all_eq_false.mp (Bool.eq_false_iff.mpr hnew)
        exact ⟨entry, h.1.mem_iff.mpr hin, heq⟩
      have hless := List.length_filter_lt_length_iff_exists.mpr hsome
      omega
    rw [List.take_of_length_le hroom]
    simp only [hnew, Bool.false_and, Bool.false_eq_true, if_false]
    exact h.remove key

theorem filter_key_eq {entries : List (LruEntry κ ν)} (hnodup : (entries.map LruEntry.key).Nodup)
    {found : LruEntry κ ν} (hin : found ∈ entries) :
    (entries.filter fun entry => entry.key = found.key) = [found] := by
  induction entries with
  | nil => exact absurd hin List.not_mem_nil
  | cons first rest ih =>
    obtain ⟨hfirst, hrest⟩ := List.nodup_cons.mp hnodup
    cases List.mem_cons.mp hin with
    | inl heq =>
      subst heq
      have hnone : (rest.filter fun entry => entry.key = found.key) = [] :=
        List.filter_eq_nil_iff.mpr fun entry hentry heq =>
          hfirst (of_decide_eq_true heq ▸ List.mem_map_of_mem hentry)
      rw [List.filter_cons_of_pos (by simp), hnone]
    | inr htail =>
      have hne : ¬first.key = found.key := fun heq => hfirst (heq ▸ List.mem_map_of_mem htail)
      rw [List.filter_cons_of_neg (by simp [hne]), ih hrest htail]

theorem Latest.hit {cache : LruCache κ ν} {ordered : List (LruEntry κ ν)}
    (h : Latest cache.entries ordered)
    (hnodup : (ordered.map LruEntry.key).Nodup) {found : LruEntry κ ν} (hin : found ∈ ordered) :
    cache.get found.key = (some found.value, { cache with
        accessIndex := cache.accessIndex + 1
        entries := cache.entries.map fun entry =>
          if entry.key = found.key then { entry with accessIndex := cache.accessIndex + 1 }
            else entry }) ∧
      ({ found with accessIndex := cache.accessIndex + 1 } ::
          ordered.filter fun entry => entry.key ≠ found.key).Perm
        (cache.entries.map fun entry =>
          if entry.key = found.key then { entry with accessIndex := cache.accessIndex + 1 }
            else entry) := by
  constructor
  · have hfound : cache.entries.find? (fun entry => entry.key = found.key) = some found := by
      rw [← List.head?_filter, filter_key_eq (h.nodup hnodup) (h.1.mem_iff.mp hin), List.head?_cons]
    rw [get, hfound]
  · have hsplit :=
      List.filter_append_perm (fun entry : LruEntry κ ν => decide (entry.key = found.key)) ordered
    rw [filter_key_eq hnodup hin] at hsplit
    have hmapped := (hsplit.trans h.1).map fun entry =>
      if entry.key = found.key then { entry with accessIndex := cache.accessIndex + 1 } else entry
    have hothers : (ordered.filter fun entry => !decide (entry.key = found.key)).map (fun entry =>
        if entry.key = found.key then { entry with accessIndex := cache.accessIndex + 1 }
          else entry) =
        ordered.filter fun entry => !decide (entry.key = found.key) := by
      refine (List.map_congr_left fun entry hentry => ?_).trans (List.map_id _)
      exact if_neg (by simpa using (List.mem_filter.mp hentry).2)
    rw [List.map_append, List.map_singleton, if_pos rfl, hothers] at hmapped
    simpa using hmapped

/-! ### Runs -/

/-- The entries are those of the keys touched last. -/
structure Tracks (capacity : Nat) (events : List (Event κ ν)) (cache : LruCache κ ν)
    (ordered : List (LruEntry κ ν)) : Prop where
  sized : cache.capacity = max capacity 1
  index : cache.accessIndex.toNat = (touched events).length
  latest : Latest cache.entries ordered
  keys : ordered.map LruEntry.key = (recent (touched events)).take (max capacity 1)
  bounded : ∀ entry ∈ ordered, entry.accessIndex ≤ cache.accessIndex
  values : ∀ entry ∈ ordered, lastInserted events entry.key = some entry.value

variable {capacity : Nat} {events : List (Event κ ν)} {cache : LruCache κ ν}
  {ordered : List (LruEntry κ ν)}

theorem Tracks.new : Tracks capacity ([] : List (Event κ ν)) (LruCache.new capacity) [] where
  sized := rfl
  index := rfl
  latest := ⟨List.Perm.nil, List.Pairwise.nil⟩
  keys := by simp [touched, recent]
  bounded := by simp
  values := by simp

theorem Tracks.reorder (h : Tracks capacity events cache ordered) {entries : List (LruEntry κ ν)}
    (horder : entries.Perm cache.entries) : Tracks capacity events { cache with entries } ordered :=
  { h with latest := ⟨h.latest.1.trans horder.symm, h.latest.2⟩ }

theorem Tracks.nodup (h : Tracks capacity events cache ordered) :
    (ordered.map LruEntry.key).Nodup :=
  h.keys ▸ (nodup_recent _).sublist (List.take_sublist _ _)

theorem Tracks.length_le (h : Tracks capacity events cache ordered) :
    ordered.length ≤ max capacity 1 := by
  have hlength := congrArg List.length h.keys
  rw [List.length_map, List.length_take] at hlength
  omega

omit [DecidableEq κ] in
theorem length_touched_le (events : List (Event κ ν)) : (touched events).length ≤ events.length :=
  List.length_filterMap_le _ _

/-- The clock does not come round. -/
theorem Tracks.next (h : Tracks capacity events cache ordered)
    (hlength : events.length + 1 < 2 ^ 64) :
    (cache.accessIndex + 1).toNat = cache.accessIndex.toNat + 1 := by
  have htouched := length_touched_le events
  have hindex := h.index
  rw [UInt64.toNat_add, Nat.mod_eq_of_lt]
  · rfl
  · change cache.accessIndex.toNat + 1 < 2 ^ 64
    omega

/-- What an operation that touches a key leaves: its entry in front of the others. -/
theorem Tracks.touch (h : Tracks capacity events cache ordered)
    (hlength : events.length + 1 < 2 ^ 64)
    {event : Event κ ν} {key : κ} {value : ν} (htouched : event.touched = some key)
    (hvalue : lastInserted (event :: events) key = some value)
    (hothers : ∀ other ≠ key, lastInserted (event :: events) other = lastInserted events other)
    {entries : List (LruEntry κ ν)}
    (hentries : (⟨key, value, cache.accessIndex + 1⟩ ::
      (ordered.filter fun entry => entry.key ≠ key).take (max capacity 1 - 1)).Perm entries) :
    Tracks capacity (event :: events) ⟨cache.capacity, cache.accessIndex + 1, entries⟩
      (⟨key, value, cache.accessIndex + 1⟩ ::
        (ordered.filter fun entry => entry.key ≠ key).take (max capacity 1 - 1)) := by
  have htouches : touched (event :: events) = key :: touched events :=
    List.filterMap_cons_some htouched
  have hnext := h.next hlength
  have hrest : ∀ entry ∈ (ordered.filter fun entry => entry.key ≠ key).take (max capacity 1 - 1),
      entry ∈ ordered ∧ entry.key ≠ key := by
    intro entry hin
    obtain ⟨hordered, hne⟩ := List.mem_filter.mp (List.mem_of_mem_take hin)
    exact ⟨hordered, of_decide_eq_true hne⟩
  have hlater : cache.accessIndex < cache.accessIndex + 1 := by
    rw [UInt64.lt_iff_toNat_lt]
    omega
  constructor
  case sized => exact h.sized
  case index => rw [htouches, List.length_cons, ← h.index, hnext]
  case latest =>
    refine ⟨hentries, List.pairwise_cons.mpr ⟨fun other hin => ?_, (h.latest.2.filter _).take⟩⟩
    exact UInt64.lt_of_le_of_lt (h.bounded other (hrest other hin).1) hlater
  case keys =>
    have hcount : max capacity 1 = max capacity 1 - 1 + 1 := by omega
    have hkeys := h.keys
    rw [htouches]
    rw [hcount] at hkeys ⊢
    rw [take_recent_cons, ← hkeys, List.filter_map, ← List.map_take, List.map_cons]
    rfl
  case bounded =>
    refine List.forall_mem_cons.mpr ⟨UInt64.le_refl _, fun other hin => ?_⟩
    exact UInt64.le_trans (h.bounded other (hrest other hin).1) (UInt64.le_of_lt hlater)
  case values =>
    refine List.forall_mem_cons.mpr ⟨hvalue, fun other hin => ?_⟩
    rw [hothers other.key (hrest other hin).2, h.values other (hrest other hin).1]

theorem Tracks.insert (h : Tracks capacity events cache ordered)
    (hlength : events.length + 1 < 2 ^ 64)
    (key : κ) (value : ν) :
    ∃ ordered, Tracks capacity (.inserted key value :: events)
      (cache.insert key value) ordered := by
  have hcount : max capacity 1 = max capacity 1 - 1 + 1 := by omega
  have hentries := h.latest.insert h.nodup (h.sized.trans hcount) (hcount ▸ h.length_le) key value
  refine ⟨_, h.touch hlength rfl ?_ (fun other hne => ?_) hentries⟩
  · simp [lastInserted]
  · simp [lastInserted, Ne.symm hne]

theorem Tracks.get_missed (h : Tracks capacity events cache ordered) {key : κ}
    (hkey : key ∉ ordered.map LruEntry.key) : cache.get key = (none, cache) := by
  have hnone : cache.entries.find? (fun entry => entry.key = key) = none := by
    refine List.find?_eq_none.mpr fun entry hentry heq => hkey ?_
    exact of_decide_eq_true heq ▸ List.mem_map_of_mem (h.latest.1.mem_iff.mpr hentry)
  rw [LruCache.get, hnone]

/-- A key with an entry is hit, with the value that was put in last. -/
theorem Tracks.get (h : Tracks capacity events cache ordered) (key : κ) :
    (cache.get key).1 = if key ∈ (recent (touched events)).take (max capacity 1)
      then lastInserted events key else none := by
  rw [← h.keys]
  by_cases hin : key ∈ ordered.map LruEntry.key
  · obtain ⟨found, hfound, rfl⟩ := List.mem_map.mp hin
    rw [if_pos hin, (h.latest.hit h.nodup hfound).1, h.values found hfound]
  · rw [if_neg hin, h.get_missed hin]

theorem Tracks.perform (h : Tracks capacity events cache ordered)
    (hlength : events.length + 1 < 2 ^ 64)
    (operation : Operation κ ν) :
    ∃ ordered, Tracks capacity ((operation.perform cache).2 :: events) (operation.perform cache).1
      ordered := by
  cases operation with
  | insert key value => exact h.insert hlength key value
  | get key =>
    by_cases hin : key ∈ ordered.map LruEntry.key
    · obtain ⟨found, hfound, rfl⟩ := List.mem_map.mp hin
      obtain ⟨hget, hentries⟩ := h.latest.hit h.nodup hfound
      have hroom : (ordered.filter fun entry => entry.key ≠ found.key).length ≤
          max capacity 1 - 1 := by
        have hless := List.length_filter_lt_length_iff_exists.mpr
          (⟨found, hfound, by simp⟩ : ∃ entry ∈ ordered, ¬decide (entry.key ≠ found.key) = true)
        have hall := h.length_le
        omega
      rw [← List.take_of_length_le hroom] at hentries
      have htouch := h.touch hlength (rfl : (Event.hit found.key : Event κ ν).touched = _)
        (h.values found hfound) (fun other _ => rfl) hentries
      exact ⟨_, by rw [Operation.perform, hget]; exact htouch⟩
    · exact ⟨ordered, by rw [Operation.perform, h.get_missed hin]; exact { h with }⟩

variable {operations : List (Operation κ ν)}

theorem Reached.tracks (h : Reached capacity operations events cache)
    (hlength : operations.length < 2 ^ 64) :
    events.length = operations.length ∧ ∃ ordered, Tracks capacity events cache ordered := by
  induction h with
  | new => exact ⟨rfl, [], Tracks.new⟩
  | step entries operation h horder ih =>
    rw [List.length_cons] at hlength
    obtain ⟨hevents, ordered, htracks⟩ := ih (by omega)
    refine ⟨congrArg (· + 1) hevents, (htracks.reorder horder).perform (by omega) operation⟩

/-- What is hit depends on the events before, not on the order of the entries. -/
theorem Reached.events_eq (h : Reached capacity operations events cache)
    (hlength : operations.length < 2 ^ 64) {events' : List (Event κ ν)} {cache' : LruCache κ ν}
    (h' : Reached capacity operations events' cache') : events' = events := by
  induction h generalizing events' cache' with
  | new =>
    cases h'
    rfl
  | step entries operation h horder ih =>
    cases h' with
    | step entries' _ h' horder' =>
      rw [List.length_cons] at hlength
      obtain rfl := ih (by omega) h'
      obtain ⟨-, ordered, htracks⟩ := h.tracks (by omega)
      obtain ⟨-, ordered', htracks'⟩ := h'.tracks (by omega)
      cases operation with
      | insert key value => rfl
      | get key =>
        have hsame := ((htracks'.reorder horder').get key).trans
          ((htracks.reorder horder).get key).symm
        rw [Operation.perform, Operation.perform, hsame]

/-- After fewer than 2^64 operations the keys are the distinct ones touched last, as many as there
is room for, a present key gives the value put in for it last, and another order of the entries
before any operation would have led to the same keys and answers. -/
theorem keys_touched_last (h : Reached capacity operations events cache)
    (hlength : operations.length < 2 ^ 64) :
    (cache.entries.map LruEntry.key).Perm ((recent (touched events)).take (max capacity 1)) ∧
      (∀ key, (cache.get key).1 = if key ∈ (recent (touched events)).take (max capacity 1)
        then lastInserted events key else none) ∧
      ∀ events' cache', Reached capacity operations events' cache' →
        events' = events ∧ (cache'.entries.map LruEntry.key).Perm (cache.entries.map LruEntry.key) ∧
          ∀ key, (cache'.get key).1 = (cache.get key).1 := by
  obtain ⟨-, ordered, htracks⟩ := h.tracks hlength
  refine ⟨htracks.keys ▸ (htracks.latest.1.map _).symm, htracks.get, fun events' cache' h' => ?_⟩
  obtain rfl := h.events_eq hlength h'
  obtain ⟨-, ordered', htracks'⟩ := h'.tracks hlength
  refine ⟨rfl, ?_, fun key => (htracks'.get key).trans (htracks.get key).symm⟩
  have hkeys := htracks'.keys.trans htracks.keys.symm
  exact ((htracks'.latest.1.map _).symm.trans (hkeys ▸ List.Perm.refl _)).trans
    (htracks.latest.1.map _)

/-- With room for two, the key that was looked up stays and the other one goes. -/
theorem keys_touched_last_two : ∃ (events : List (Event Nat Char)) (cache : LruCache Nat Char),
    Reached 2 [.insert 3 'c', .get 1, .insert 2 'b', .insert 1 'a'] events cache ∧
      (cache.entries.map LruEntry.key).Perm [3, 1] ∧ (cache.get 1).1 = some 'a' ∧
      (cache.get 2).1 = none := by
  have hreached : Reached 2 [.insert 3 'c', .get 1, .insert 2 'b', .insert 1 'a'] _ _ :=
    .step [⟨2, 'b', 2⟩, ⟨1, 'a', 3⟩] _
      (.step [⟨1, 'a', 1⟩, ⟨2, 'b', 2⟩] _
        (.step _ _ (.step _ _ .new (List.Perm.refl _)) (List.Perm.refl _))
        (List.Perm.swap _ _ [])) (List.Perm.swap _ _ [])
  obtain ⟨hkeys, hget, -⟩ := keys_touched_last hreached (by decide)
  exact ⟨_, _, hreached, hkeys, hget 1, hget 2⟩

end BeanKey.LruCache
