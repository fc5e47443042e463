import Mathlib.Data.List.Basic

/-! A window of fixed size over a list. It slides no further than it takes to show an item. -/
namespace Window

/-- The start of a window of `size` items, moved so that it shows `selected`. -/
def reveal (size start selected : Nat) : Nat :=
  if selected < start then selected
  else if start + size ≤ selected then selected - size + 1
  else start

def rows {α : Type*} (size start : Nat) (items : List α) : List α := (items.drop start).take size

variable {α : Type*} {size start selected : Nat}

theorem reveal_shows (start selected : Nat) (hsize : 0 < size) :
    reveal size start selected ≤ selected ∧ selected < reveal size start selected + size := by
  unfold reveal
  split <;> try split
  all_goals omega

theorem getElem?_rows (items : List α) {row : Nat} (hrow : row < size) :
    (rows size start items)[row]? = items[start + row]? := by
  rw [rows, List.getElem?_take_of_lt hrow, List.getElem?_drop]

theorem mem_of_mem_rows {start : Nat} {items : List α} {item : α}
    (h : item ∈ rows size start items) :
    item ∈ items :=
  List.mem_of_mem_drop (List.mem_of_mem_take h)

theorem rows_length_le (items : List α) : (rows size start items).length ≤ size :=
  List.length_take_le _ _

end Window
