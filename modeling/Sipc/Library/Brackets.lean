import Mathlib.Data.List.Basic

/-!
# Words with matching brackets

A word is balanced when each of its opening brackets has its closing one. Reading a balanced word
changes nothing about which closing bracket is still wanted, so a word that begins with a bracketed part
is split in only one way.
-/

set_option autoImplicit false
set_option relaxedAutoImplicit false

namespace Sipc.Library

variable {α : Type} {opening closing : α}

/-- Words in which the brackets match. -/
inductive Balanced (opening closing : α) : List α → Prop
  | nil : Balanced opening closing []
  | symbol {a : α} (ho : a ≠ opening) (hc : a ≠ closing) : Balanced opening closing [a]
  | append {u v : List α} (hu : Balanced opening closing u) (hv : Balanced opening closing v) :
    Balanced opening closing (u ++ v)
  | bracketed {u : List α} (hu : Balanced opening closing u) :
    Balanced opening closing (opening :: u ++ [closing])

namespace Balanced

theorem cons {a : α} {u : List α} (ho : a ≠ opening) (hc : a ≠ closing)
    (hu : Balanced opening closing u) : Balanced opening closing (a :: u) :=
  (symbol ho hc).append hu

theorem of_forall {u : List α} (h : ∀ a ∈ u, a ≠ opening ∧ a ≠ closing) :
    Balanced opening closing u := by
  induction u with
  | nil => exact .nil
  | cons a u ih =>
    obtain ⟨⟨ho, hc⟩, hu⟩ := List.forall_mem_cons.1 h
    exact cons ho hc (ih hu)

end Balanced

variable [DecidableEq α]

/-- What follows the closing bracket that is wanted when `n` further ones are wanted before it. -/
def afterClosing (opening closing : α) : ℕ → List α → Option (List α)
  | _, [] => none
  | n, a :: u =>
    if a = opening then afterClosing opening closing (n + 1) u
    else if a = closing then if n = 0 then some u else afterClosing opening closing (n - 1) u
    else afterClosing opening closing n u

/-- A balanced word is passed over. -/
theorem Balanced.afterClosing_append (hne : opening ≠ closing) {u : List α}
    (h : Balanced opening closing u) : ∀ (n : ℕ) (v : List α),
      afterClosing opening closing n (u ++ v) = afterClosing opening closing n v := by
  induction h with
  | nil => exact fun _ _ ↦ rfl
  | symbol ho hc =>
    intro n v
    rw [List.singleton_append, afterClosing, if_neg ho, if_neg hc]
  | append hu hv ihu ihv =>
    intro n v
    rw [List.append_assoc, ihu, ihv]
  | @bracketed u hu ih =>
    intro n v
    rw [List.append_assoc, List.cons_append, afterClosing, if_pos rfl, ih, List.singleton_append,
      afterClosing, if_neg hne.symm, if_pos rfl, if_neg (Nat.succ_ne_zero n), Nat.add_sub_cancel]

/-- What follows the first bracketed part of a word. -/
def afterBracketed (opening closing : α) (u : List α) : Option (List α) :=
  afterClosing opening closing 0 ((u.dropWhile fun a ↦ a ≠ opening).drop 1)

theorem afterBracketed_append (hne : opening ≠ closing) {front u : List α}
    (hfront : ∀ a ∈ front, a ≠ opening) (hu : Balanced opening closing u) (rest : List α) :
    afterBracketed opening closing (front ++ opening :: (u ++ closing :: rest)) = some rest := by
  have hdrop : (front ++ opening :: (u ++ closing :: rest)).dropWhile (fun a ↦ a ≠ opening) =
      opening :: (u ++ closing :: rest) := by
    rw [List.dropWhile_append_of_pos (by simpa using hfront), List.dropWhile_cons_of_neg (by simp)]
  rw [afterBracketed, hdrop, List.drop_one, List.tail_cons, hu.afterClosing_append hne, afterClosing,
    if_neg hne.symm, if_pos rfl, if_pos rfl]

end Sipc.Library
