import MetaCG.Foundations.OrderedMap

/-! Linked lists whose iterators stay valid: `std::list`.

A cell keeps the number it was created with, and a number is never given out twice. An iterator is
such a number: it finds its cell until the cell is erased, whatever happens to the other cells. -/
namespace MetaCG.Foundations
set_option autoImplicit false
set_option maxHeartbeats 250000
set_option maxRecDepth 120000

structure StableList (α : Type) where
  cells : List (ℕ × α)
  next : ℕ
  fresh : ∀ c ∈ cells, c.1 < next
  nodup : (cells.map Prod.fst).Nodup

namespace StableList
variable {α : Type}

def empty : StableList α := ⟨[], 0, by simp, List.nodup_nil⟩

def size (l : StableList α) : ℕ := l.cells.length

/-- Dereference an iterator. -/
def get (i : ℕ) (l : StableList α) : Option α := Ordered.find i l.cells

theorem next_not_mem (l : StableList α) : l.next ∉ l.cells.map Prod.fst := by
  intro h
  obtain ⟨c, hc, he⟩ := List.mem_map.mp h
  exact absurd (l.fresh c hc) (by omega)

/-- `emplace_front`; the new cell is `l.next`. -/
def emplace_front (a : α) (l : StableList α) : StableList α where
  cells := (l.next, a) :: l.cells
  next := l.next + 1
  fresh := by
    intro c hc
    rcases List.mem_cons.mp hc with rfl | hc
    · exact Nat.lt_succ_self _
    · exact (l.fresh c hc).trans (Nat.lt_succ_self _)
  nodup := by
    rw [List.map_cons, List.nodup_cons]
    exact ⟨l.next_not_mem, l.nodup⟩

/-- `insert` before `end()`; the new cell is `l.next`. -/
def insert_end (a : α) (l : StableList α) : StableList α where
  cells := l.cells ++ [(l.next, a)]
  next := l.next + 1
  fresh := by
    intro c hc
    rcases List.mem_append.mp hc with hc | hc
    · exact (l.fresh c hc).trans (Nat.lt_succ_self _)
    · rw [List.mem_singleton.mp hc]
      exact Nat.lt_succ_self _
  nodup := by
    rw [List.map_append, List.nodup_append]
    refine ⟨l.nodup, List.nodup_singleton _, ?_⟩
    intro i hi j hj he
    rw [List.map_singleton, List.mem_singleton] at hj
    rw [he, hj] at hi
    exact l.next_not_mem hi

def erase (i : ℕ) (l : StableList α) : StableList α where
  cells := Ordered.erase i l.cells
  next := l.next
  fresh := fun c hc => l.fresh c (List.mem_of_mem_filter hc)
  nodup := l.nodup.sublist (List.filter_sublist.map Prod.fst)

/-- Change the element of one cell in place. -/
def modify (i : ℕ) (f : α → α) (l : StableList α) : StableList α where
  cells := l.cells.map fun c => (c.1, if c.1 = i then f c.2 else c.2)
  next := l.next
  fresh := by
    intro c hc
    obtain ⟨c', hc', rfl⟩ := List.mem_map.mp hc
    exact l.fresh c' hc'
  nodup := by
    rw [List.map_map]
    exact l.nodup

theorem get_lt {l : StableList α} {i : ℕ} {a : α} (h : l.get i = some a) : i < l.next :=
  l.fresh (i, a) (Ordered.mem_of_find h)

theorem mem_cells {l : StableList α} {i : ℕ} {a : α} : (i, a) ∈ l.cells ↔ l.get i = some a :=
  Ordered.mem_iff_find_of_nodup l.nodup

theorem get_next (l : StableList α) : l.get l.next = none := by
  cases h : l.get l.next with
  | none => rfl
  | some a => exact absurd (get_lt h) (lt_irrefl _)

@[simp] theorem get_empty (i : ℕ) : (empty : StableList α).get i = none := rfl

theorem get_emplace_front (l : StableList α) (a : α) (i : ℕ) :
    (l.emplace_front a).get i = if i = l.next then some a else l.get i := rfl

theorem get_insert_end (l : StableList α) (a : α) (i : ℕ) :
    (l.insert_end a).get i = if i = l.next then some a else l.get i := by
  have happend : (l.insert_end a).get i = (l.get i).or (Ordered.find i [(l.next, a)]) := Ordered.find_append _ _ _
  rw [happend]
  split_ifs with h
  · rw [h, get_next, Option.none_or, Ordered.find_same]
  · rw [Ordered.find_other h, Ordered.find, Option.or_none]

theorem get_erase (l : StableList α) (i j : ℕ) : (l.erase j).get i = if i = j then none else l.get i :=
  Ordered.find_erase _ _ _

theorem get_modify (l : StableList α) (f : α → α) (i j : ℕ) :
    (l.modify j f).get i = if i = j then (l.get i).map f else l.get i := by
  have hmap : (l.modify j f).get i = (l.get i).map fun a => if i = j then f a else a :=
    Ordered.find_map_entry (fun k a => if k = j then f a else a) _ _
  rw [hmap]
  split_ifs
  · rfl
  · exact Option.map_id_apply

theorem size_insert_end (l : StableList α) (a : α) : (l.insert_end a).size = l.size + 1 := List.length_append

theorem size_erase {l : StableList α} {i : ℕ} {a : α} (h : l.get i = some a) : (l.erase i).size + 1 = l.size :=
  Ordered.length_erase l.nodup h

theorem size_modify (l : StableList α) (i : ℕ) (f : α → α) : (l.modify i f).size = l.size := List.length_map _

end StableList
end MetaCG.Foundations
