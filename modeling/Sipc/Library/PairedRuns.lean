import Sipc.Library.Execution

/-!
# Two executions side by side

`Run.Relates` compares a computation with another one over a memory of its own: where the first ends
with a value, so does the second, and the values and the memories are related. With `total`, the first
does end with a value. The rules follow the monad, and every rule passes on what the first computation
leaves, so that a relation may speak of where it started.
-/

set_option autoImplicit false
set_option relaxedAutoImplicit false

namespace Sipc.Library.Run

variable {S S' E F α α' β β' : Type}

/-- Where `m` ends with a value, `m'` does too, and `Q` relates the values and the memories. If `total`
holds, `m` ends with a value. -/
structure Relates (total : Prop) (m : Run S E F α) (m' : Run S' E F α') (s : S) (s' : S')
    (Q : α → S → α' → S' → Prop) : Prop where
  returns : total → ∃ a t, Returns m s a t
  relates : ∀ {a t}, Returns m s a t → ∃ a' t', Returns m' s' a' t' ∧ Q a t a' t'

section Rules

variable {total : Prop} {s : S} {s' : S'}

theorem Relates.mono {m : Run S E F α} {m' : Run S' E F α'} {Q R : α → S → α' → S' → Prop}
    (h : Relates total m m' s s' Q) (hQ : ∀ a t a' t', Q a t a' t' → R a t a' t') :
    Relates total m m' s s' R where
  returns := h.returns
  relates hm := by
    obtain ⟨a', t', hm', hq⟩ := h.relates hm
    exact ⟨a', t', hm', hQ _ _ _ _ hq⟩

/-- What the first computation leaves is one of its results. -/
theorem Relates.and_returns {m : Run S E F α} {m' : Run S' E F α'} {Q : α → S → α' → S' → Prop}
    (h : Relates total m m' s s' Q) :
    Relates total m m' s s' fun a t a' t' ↦ Returns m s a t ∧ Q a t a' t' where
  returns := h.returns
  relates hm := by
    obtain ⟨a', t', hm', hq⟩ := h.relates hm
    exact ⟨a', t', hm', hm, hq⟩

theorem Relates.of_returns {m : Run S E F α} {m' : Run S' E F α'} {a : α} {t : S} {a' : α'} {t' : S'}
    {Q : α → S → α' → S' → Prop} (hm : Returns m s a t) (hm' : Returns m' s' a' t')
    (hQ : Q a t a' t') : Relates total m m' s s' Q where
  returns _ := ⟨a, t, hm⟩
  relates h := by
    obtain ⟨rfl, rfl⟩ := h.unique hm
    exact ⟨a', t', hm', hQ⟩

/-- Two computations with the same results. -/
theorem Relates.of_iff {m m₁ : Run S E F α} {m' m₁' : Run S' E F α'} {s₁ : S} {s₁' : S'}
    {Q : α → S → α' → S' → Prop} (hm : ∀ a t, Returns m s a t ↔ Returns m₁ s₁ a t)
    (hm' : ∀ a t, Returns m' s' a t ↔ Returns m₁' s₁' a t) (h : Relates total m₁ m₁' s₁ s₁' Q) :
    Relates total m m' s s' Q where
  returns htotal := by
    obtain ⟨a, t, ha⟩ := h.returns htotal
    exact ⟨a, t, (hm a t).2 ha⟩
  relates ha := by
    obtain ⟨a', t', ha', hq⟩ := h.relates ((hm _ _).1 ha)
    exact ⟨a', t', (hm' a' t').2 ha', hq⟩

theorem Relates.bind {m : Run S E F α} {m' : Run S' E F α'} {f : α → Run S E F β}
    {f' : α' → Run S' E F β'} {Q : α → S → α' → S' → Prop} {R : β → S → β' → S' → Prop}
    (hm : Relates total m m' s s' Q)
    (hf : ∀ a t a' t', Q a t a' t' → Relates total (f a) (f' a') t t' R) :
    Relates total (m >>= f) (m' >>= f') s s' R where
  returns htotal := by
    obtain ⟨a, t, ha⟩ := hm.returns htotal
    obtain ⟨a', t', -, hq⟩ := hm.relates ha
    obtain ⟨b, u, hb⟩ := (hf a t a' t' hq).returns htotal
    exact ⟨b, u, returns_bind.2 ⟨a, t, ha, hb⟩⟩
  relates h := by
    obtain ⟨a, t, ha, hb⟩ := returns_bind.1 h
    obtain ⟨a', t', ha', hq⟩ := hm.relates ha
    obtain ⟨b', u', hb', hr⟩ := (hf a t a' t' hq).relates hb
    exact ⟨b', u', returns_bind.2 ⟨a', t', ha', hb'⟩, hr⟩

theorem relates_pure {a : α} {a' : α'} {Q : α → S → α' → S' → Prop} (h : Q a s a' s') :
    Relates total (Pure.pure a : Run S E F α) (Pure.pure a' : Run S' E F α') s s' Q where
  returns _ := ⟨a, s, returns_pure.2 ⟨rfl, rfl⟩⟩
  relates hm := by
    obtain ⟨rfl, rfl⟩ := returns_pure.1 hm
    exact ⟨a', s', returns_pure.2 ⟨rfl, rfl⟩, h⟩

theorem relates_access {f : S → α × S} {f' : S' → α' × S'} {Q : α → S → α' → S' → Prop}
    (h : Q (f s).1 (f s).2 (f' s').1 (f' s').2) :
    Relates total (access f : Run S E F α) (access f' : Run S' E F α') s s' Q where
  returns _ := ⟨_, _, returns_access.2 rfl⟩
  relates hm := by
    have hf := returns_access.1 hm
    rw [hf] at h
    exact ⟨_, _, returns_access.2 rfl, h⟩

theorem relates_emit {e e' : E} {Q : Unit → S → Unit → S' → Prop} (h : Q () s () s') :
    Relates total (emit e : Run S E F Unit) (emit e' : Run S' E F Unit) s s' Q where
  returns _ := ⟨(), s, returns_emit.2 rfl⟩
  relates hm := by
    obtain rfl := returns_emit.1 hm
    exact ⟨(), s', returns_emit.2 rfl, h⟩

/-- The second computation may fail only where the first does. -/
theorem relates_orFail {f f' : F} {o : Option α} {o' : Option α'} {Q : α → S → α' → S' → Prop}
    (htotal : total → o.isSome) (h : ∀ a, o = some a → ∃ a', o' = some a' ∧ Q a s a' s') :
    Relates total (orFail f o : Run S E F α) (orFail f' o' : Run S' E F α') s s' Q where
  returns ht := by
    obtain ⟨a, ha⟩ := Option.isSome_iff_exists.1 (htotal ht)
    exact ⟨a, s, returns_orFail.2 ⟨ha, rfl⟩⟩
  relates hm := by
    obtain ⟨ha, rfl⟩ := returns_orFail.1 hm
    obtain ⟨a', ha', hq⟩ := h _ ha
    exact ⟨a', s', returns_orFail.2 ⟨ha', rfl⟩, hq⟩

theorem relates_fail {f : F} {m' : Run S' E F α'} {Q : α → S → α' → S' → Prop} (h : ¬ total) :
    Relates total (fail f : Run S E F α) m' s s' Q where
  returns ht := absurd ht h
  relates hm := absurd hm not_returns_fail

/-- A loop, where each step keeps a relation with the list of the steps taken. -/
theorem relates_forM {f : α → Run S E F Unit} {f' : α → Run S' E F Unit}
    (R : List α → S → S' → Prop) :
    ∀ {l d : List α} {s : S} {s' : S'}, R d s s' →
      (∀ a ∈ l, ∀ d s s', R d s s' →
        Relates total (f a) (f' a) s s' fun _ t _ t' ↦ R (d ++ [a]) t t') →
      Relates total (l.forM f) (l.forM f') s s' fun _ t _ t' ↦ R (d ++ l) t t'
  | [], d, s, s', hR, _ => by
    refine relates_pure ?_
    rwa [List.append_nil]
  | a :: as, d, s, s', hR, hstep => by
    refine (hstep a List.mem_cons_self d s s' hR).bind fun _ t _ t' hR' ↦ ?_
    refine (relates_forM R hR' fun b hb ↦ hstep b (List.mem_cons_of_mem _ hb)).mono ?_
    intro _ u _ u' h
    rwa [List.append_assoc, List.singleton_append] at h

end Rules

end Sipc.Library.Run
