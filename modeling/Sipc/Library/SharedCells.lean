import Mathlib.Data.List.Basic

/-!
# Handles of shared cells

A handle names a cell, and a copy of a handle names the same cell. Where no other handle names the cell
of the handle that is written, the handles behave as if each had a value of its own
(`Represents.update`).
-/

set_option autoImplicit false
set_option relaxedAutoImplicit false

namespace Sipc.Library

/-- Cells and the handles that name them. -/
structure SharedCells (σ : Type) where
  cells : List σ
  handles : List ℕ
  handles_lt : ∀ k ∈ handles, k < cells.length

namespace SharedCells

variable {σ : Type}

def empty : SharedCells σ where
  cells := []
  handles := []
  handles_lt _ h := nomatch h

/-- A new cell, and a handle of it. -/
def make (a : σ) (s : SharedCells σ) : SharedCells σ where
  cells := s.cells ++ [a]
  handles := s.handles ++ [s.cells.length]
  handles_lt k hk := by
    rw [List.length_append]
    rcases List.mem_append.1 hk with hk | hk
    · exact Nat.lt_add_right _ (s.handles_lt k hk)
    · rw [List.mem_singleton.1 hk]
      exact Nat.lt_succ_self _

/-- A new handle of the cell that a handle names. -/
def share (s : SharedCells σ) (k : ℕ) (hk : k ∈ s.handles) : SharedCells σ where
  cells := s.cells
  handles := s.handles ++ [k]
  handles_lt j hj := by
    rcases List.mem_append.1 hj with hj | hj
    · exact s.handles_lt j hj
    · exact List.mem_singleton.1 hj ▸ s.handles_lt k hk

/-- A cell is written. -/
def update (f : σ → σ) (k : ℕ) (s : SharedCells σ) : SharedCells σ where
  cells := s.cells.modify k f
  handles := s.handles
  handles_lt j hj := by
    rw [List.length_modify]
    exact s.handles_lt j hj

/-- What the cell of a handle holds. -/
def value (s : SharedCells σ) (i : ℕ) : Option σ :=
  s.handles[i]?.bind fun k ↦ s.cells[k]?

/-- No other handle names the cell. -/
def Unshared (s : SharedCells σ) (i : ℕ) : Prop :=
  ∀ j, j ≠ i → j < s.handles.length → s.handles[j]? ≠ s.handles[i]?

theorem getElem?_concat (l : List σ) (a : σ) (j : ℕ) :
    (l ++ [a])[j]? = if j = l.length then some a else l[j]? := by
  rcases Nat.lt_trichotomy j l.length with hj | rfl | hj
  · rw [if_neg (Nat.ne_of_lt hj), List.getElem?_append_left hj]
  · rw [if_pos rfl, List.getElem?_concat_length]
  · rw [if_neg (Nat.ne_of_gt hj), List.getElem?_eq_none (Nat.le_of_lt hj)]
    exact List.getElem?_eq_none (by rw [List.length_append]; exact hj)

section Values

variable {s : SharedCells σ} {a : σ} {f : σ → σ} {i j k : ℕ}

theorem value_of_handle (hj : s.handles[j]? = some k) : s.value j = s.cells[k]? := by
  rw [value, hj, Option.bind_some]

theorem value_of_length_le (hj : s.handles.length ≤ j) : s.value j = none := by
  rw [value, List.getElem?_eq_none hj, Option.bind_none]

theorem exists_handle (hj : j < s.handles.length) :
    ∃ k b, s.handles[j]? = some k ∧ s.cells[k]? = some b := by
  have hk := s.handles_lt _ (List.getElem_mem hj)
  exact ⟨_, _, List.getElem?_eq_getElem hj, List.getElem?_eq_getElem hk⟩

theorem value_make : (s.make a).value j = if j = s.handles.length then some a else s.value j := by
  change ((s.handles ++ [s.cells.length])[j]?.bind fun k ↦ (s.cells ++ [a])[k]?) = _
  rw [getElem?_concat]
  split_ifs with hj
  · exact List.getElem?_concat_length
  · refine Option.bind_congr fun k hk ↦ ?_
    exact List.getElem?_append_left (s.handles_lt k (List.mem_of_getElem? hk))

theorem value_share (hi : s.handles[i]? = some k) :
    (s.share k (List.mem_of_getElem? hi)).value j =
      if j = s.handles.length then s.value i else s.value j := by
  change ((s.handles ++ [k])[j]?.bind fun k ↦ s.cells[k]?) = _
  rw [getElem?_concat]
  split_ifs with hj
  · exact (value_of_handle hi).symm
  · rfl

theorem value_update :
    (s.update f k).value j = if s.handles[j]? = some k then (s.value j).map f else s.value j := by
  cases hj : s.handles[j]? with
  | none =>
    have hnone : ∀ t : SharedCells σ, t.handles = s.handles → t.value j = none := fun t ht ↦ by
      rw [value, ht, hj, Option.bind_none]
    rw [hnone _ rfl, hnone (s.update f k) rfl]
    rfl
  | some k' =>
    rw [value_of_handle hj, value_of_handle (s := s.update f k) hj]
    change (s.cells.modify k f)[k']? = _
    by_cases hk : k = k'
    · rw [if_pos (congrArg some hk.symm), hk, List.getElem?_modify_eq]
      rfl
    · rw [if_neg (fun h ↦ hk (Option.some.inj h).symm), List.getElem?_modify_ne _ _ hk]

/-- A handle keeps its value, when the cell of another is written, if it names another cell. -/
theorem value_update_of_ne (h : s.handles[j]? ≠ some k) : (s.update f k).value j = s.value j := by
  rw [value_update, if_neg h]

theorem Unshared.make (h : s.Unshared i) (hi : i < s.handles.length) : (s.make a).Unshared i := by
  intro j hji hj
  change (s.handles ++ [s.cells.length])[j]? ≠ (s.handles ++ [s.cells.length])[i]?
  rw [getElem?_concat s.handles _ i, if_neg (Nat.ne_of_lt hi), getElem?_concat]
  split_ifs with hlast
  · intro heq
    exact Nat.lt_irrefl _ (s.handles_lt _ (List.mem_of_getElem? heq.symm))
  · change j < (s.handles ++ [_]).length at hj
    rw [List.length_append] at hj
    exact h j hji (Nat.lt_of_le_of_ne (Nat.lt_succ_iff.1 hj) hlast)

end Values

/-! ### A value for each handle -/

/-- Each handle has the value at its place. -/
def Represents (s : SharedCells σ) (vs : List σ) : Prop :=
  ∀ i, s.value i = vs[i]?

namespace Represents

variable {s : SharedCells σ} {vs : List σ} {a : σ} {f : σ → σ} {i k : ℕ}

theorem length_eq (h : s.Represents vs) : vs.length = s.handles.length := by
  refine Nat.le_antisymm (Nat.not_lt.1 fun hlt ↦ ?_) (Nat.not_lt.1 fun hlt ↦ ?_)
  · have hnone := value_of_length_le (Nat.le_refl s.handles.length)
    rw [h, List.getElem?_eq_getElem hlt] at hnone
    cases hnone
  · obtain ⟨k, b, hk, hb⟩ := exists_handle hlt
    have hvalue := h vs.length
    rw [value_of_handle hk, hb, List.getElem?_eq_none (Nat.le_refl _)] at hvalue
    cases hvalue

theorem make (h : s.Represents vs) : (s.make a).Represents (vs ++ [a]) := by
  intro i
  rw [value_make, getElem?_concat, h.length_eq, h]

theorem share (h : s.Represents vs) (hi : s.handles[i]? = some k) (ha : vs[i]? = some a) :
    (s.share k (List.mem_of_getElem? hi)).Represents (vs ++ [a]) := by
  intro j
  rw [value_share hi, getElem?_concat, h.length_eq, h, h, ha]

/-- Only the value of the handle whose cell is written changes, if no other handle names the cell. -/
theorem update (h : s.Represents vs) (hi : s.handles[i]? = some k) (hunshared : s.Unshared i) :
    (s.update f k).Represents (vs.modify i f) := by
  intro j
  by_cases hij : i = j
  · rw [← hij, List.getElem?_modify_eq, ← h, value_update, if_pos hi]
    rfl
  · rw [List.getElem?_modify_ne _ _ hij, ← h]
    refine value_update_of_ne fun hj ↦ ?_
    exact hunshared j (Ne.symm hij) (List.getElem?_eq_some_iff.1 hj).1 (hj.trans hi.symm)

end Represents

end SharedCells

end Sipc.Library
