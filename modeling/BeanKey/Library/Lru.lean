/-! A cache that drops what was not used for the longest time. Whatever holds of all that was put
in holds of all that it gives back. -/
namespace BeanKey

structure LruEntry (κ ν : Type) where
  key : κ
  value : ν
  accessIndex : UInt64

/-- Its entries have different keys; what is dropped is chosen by the access index alone. -/
structure LruCache (κ ν : Type) where
  capacity : Nat
  accessIndex : UInt64
  entries : List (LruEntry κ ν)

namespace LruCache
variable {κ ν : Type}

def new (capacity : Nat) : LruCache κ ν := ⟨max capacity 1, 0, []⟩

def oldest : List (LruEntry κ ν) → Option (LruEntry κ ν)
  | [] => none
  | entry :: rest =>
    match oldest rest with
    | none => some entry
    | some other => if entry.accessIndex ≤ other.accessIndex then some entry else some other

def Holds (cache : LruCache κ ν) (right : κ → ν → Prop) : Prop :=
  ∀ entry ∈ cache.entries, right entry.key entry.value

variable {right : κ → ν → Prop} {cache : LruCache κ ν}

theorem holds_new (capacity : Nat) : (new capacity : LruCache κ ν).Holds right :=
  fun _ hin => absurd hin List.not_mem_nil

variable [DecidableEq κ]

def get (cache : LruCache κ ν) (key : κ) : Option ν × LruCache κ ν :=
  match cache.entries.find? fun entry => entry.key = key with
  | none => (none, cache)
  | some found =>
    (some found.value, { cache with
      accessIndex := cache.accessIndex + 1
      entries := cache.entries.map fun entry =>
        if entry.key = key then { entry with accessIndex := cache.accessIndex + 1 } else entry })

def remove (entries : List (LruEntry κ ν)) (key : κ) : List (LruEntry κ ν) :=
  entries.filter fun entry => entry.key ≠ key

def insert (cache : LruCache κ ν) (key : κ) (value : ν) : LruCache κ ν :=
  let kept :=
    if cache.entries.all (fun entry => entry.key ≠ key) && cache.capacity ≤
      cache.entries.length then
      match oldest cache.entries with
      | some entry => remove cache.entries entry.key
      | none => cache.entries
    else cache.entries
  { cache with
    accessIndex := cache.accessIndex + 1
    entries := ⟨key, value, cache.accessIndex + 1⟩ :: remove kept key }

theorem Holds.of_get (h : cache.Holds right) {key : κ} {value : ν}
    (hget : (cache.get key).1 = some value) : right key value := by
  rw [get] at hget
  cases hfound : cache.entries.find? fun entry => entry.key = key with
  | none =>
    rw [hfound] at hget
    exact absurd hget (by simp)
  | some found =>
    rw [hfound] at hget
    obtain rfl := Option.some.inj hget
    have hkey : found.key = key := by simpa using List.find?_some hfound
    exact hkey ▸ h found (List.mem_of_find?_eq_some hfound)

theorem Holds.get (h : cache.Holds right) (key : κ) : (cache.get key).2.Holds right := by
  rw [LruCache.get]
  split
  · exact h
  · intro entry hin
    obtain ⟨before, hbefore, rfl⟩ := List.mem_map.mp hin
    split
    · exact h before hbefore
    · exact h before hbefore

theorem Holds.insert (h : cache.Holds right) {key : κ} {value : ν} (hright : right key value) :
    (cache.insert key value).Holds right := by
  intro entry hin
  rw [LruCache.insert] at hin
  cases hin with
  | head => exact hright
  | tail _ hrest =>
    have hkept := (List.mem_filter.mp hrest).1
    split at hkept
    · split at hkept
      · exact h entry (List.mem_filter.mp hkept).1
      · exact h entry hkept
    · exact h entry hkept

end LruCache

end BeanKey
