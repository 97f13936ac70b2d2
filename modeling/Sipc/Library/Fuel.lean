import Mathlib.Data.List.Basic
import Mathlib.Data.List.Induction
import Mathlib.Order.Lattice

/-!
# Loops with fuel

A computation whose recursion has no evident bound takes fuel and returns nothing where the fuel runs
out. A loop over such computations returns the same with more fuel (`foldlM_mono`), and it returns for
some fuel if each of its rounds does, from every state that the rounds before it can reach
(`exists_foldlM`). A loop that may also throw keeps what its rounds keep where they return
(`foldlM_rel`).
-/

set_option autoImplicit false
set_option relaxedAutoImplicit false

namespace Sipc.Library

variable {α σ : Type}

/-- What the first computation returns, the second returns as well. -/
def Returns (f g : σ → Option σ) : Prop :=
  ∀ s s', f s = some s' → g s = some s'

theorem foldlM_mono {f g : σ → α → Option σ} (h : ∀ a, Returns (fun s ↦ f s a) fun s ↦ g s a) :
    ∀ l : List α, Returns (fun s ↦ l.foldlM f s) fun s ↦ l.foldlM g s
  | [], _, _, hs => hs
  | a :: l, s, s', hs => by
    simp only [List.foldlM_cons] at hs ⊢
    obtain ⟨s₁, h₁, h₂⟩ := Option.bind_eq_some_iff.mp hs
    exact Option.bind_eq_some_iff.mpr ⟨s₁, h a s s₁ h₁, foldlM_mono h l s₁ s' h₂⟩

/-- A loop returns if its rounds do. -/
theorem exists_foldlM {f : ℕ → σ → α → Option σ}
    (hmono : ∀ k k' a, k ≤ k' → Returns (fun s ↦ f k s a) fun s ↦ f k' s a) (l : List α) (s : σ)
    (hround : ∀ before a after k s₁, l = before ++ a :: after →
      before.foldlM (f k) s = some s₁ → ∃ k' s₂, f k' s₁ a = some s₂) :
    ∃ k s', l.foldlM (f k) s = some s' := by
  suffices hprefix : ∀ done rest, l = done ++ rest → ∃ k s', done.foldlM (f k) s = some s' from
    hprefix l [] (List.append_nil l).symm
  intro done
  induction done using List.reverseRecOn with
  | nil => exact fun _ _ ↦ ⟨0, s, rfl⟩
  | append_singleton done a ih =>
    intro rest hl
    have hl' : l = done ++ a :: rest := by rw [hl, List.append_assoc, List.singleton_append]
    obtain ⟨k, s₁, h₁⟩ := ih (a :: rest) hl'
    obtain ⟨k', s₂, h₂⟩ := hround done a rest k s₁ hl' h₁
    have h₁' := foldlM_mono (fun a ↦ hmono k (max k k') a (le_max_left k k')) done s s₁ h₁
    have h₂' := hmono k' (max k k') a (le_max_right k k') s₁ s₂ h₂
    refine ⟨max k k', s₂, ?_⟩
    rw [List.foldlM_append]
    refine Option.bind_eq_some_iff.mpr ⟨s₁, h₁', ?_⟩
    rw [List.foldlM_cons]
    exact Option.bind_eq_some_iff.mpr ⟨s₂, h₂', rfl⟩

/-! ### Loops that may throw -/

variable {β ε : Type}

theorem bind_eq_ok {x : ExceptT ε Option α} {f : α → ExceptT ε Option β} {b : β} :
    (x >>= f).run = some (.ok b) ↔ ∃ a, x.run = some (.ok a) ∧ (f a).run = some (.ok b) := by
  rw [ExceptT.run_bind]
  constructor
  · intro h
    obtain ⟨r, hx, h⟩ := Option.bind_eq_some_iff.1 h
    cases r with
    | error e => cases h
    | ok a => exact ⟨a, hx, h⟩
  · rintro ⟨a, hx, h⟩
    exact Option.bind_eq_some_iff.2 ⟨.ok a, hx, h⟩

theorem bind_lift_eq_ok {x : Option α} {f : α → ExceptT ε Option β} {b : β} :
    (ExceptT.lift x >>= f).run = some (.ok b) ↔ ∃ a, x = some a ∧ (f a).run = some (.ok b) := by
  rw [bind_eq_ok]
  refine exists_congr fun a ↦ and_congr_left fun _ ↦ ?_
  rw [ExceptT.run_lift]
  cases x <;> simp

theorem foldlM_append_cons {f : σ → α → ExceptT ε Option σ} {before after : List α} {a : α}
    {s t : σ} : ((before ++ a :: after).foldlM f s).run = some (.ok t) ↔
      ∃ s₁ s₂, (before.foldlM f s).run = some (.ok s₁) ∧ (f s₁ a).run = some (.ok s₂) ∧
        (after.foldlM f s₂).run = some (.ok t) := by
  rw [List.foldlM_append, bind_eq_ok]
  refine exists_congr fun s₁ ↦ ?_
  rw [List.foldlM_cons, bind_eq_ok, exists_and_left]

/-- A loop keeps a reflexive and transitive relation that its rounds keep. -/
theorem foldlM_rel {R : σ → σ → Prop} (hrefl : ∀ s, R s s)
    (htrans : ∀ {s t u}, R s t → R t u → R s u) {f : σ → α → ExceptT ε Option σ}
    (hf : ∀ {s a t}, (f s a).run = some (.ok t) → R s t) :
    ∀ {l : List α} {s t : σ}, (l.foldlM f s).run = some (.ok t) → R s t
  | [], s, t, h => by
    obtain rfl : s = t := by simpa using h
    exact hrefl s
  | a :: l, s, t, h => by
    rw [List.foldlM_cons, bind_eq_ok] at h
    obtain ⟨s₁, h₁, h⟩ := h
    exact htrans (hf h₁) (foldlM_rel hrefl htrans hf h)

end Sipc.Library
