import Mathlib.Data.List.Basic
import Mathlib.Data.List.Forall2
import Mathlib.Data.List.Infix
import Mathlib.Order.Basic

/-!
# Executions that may fail, and what holds along them

A computation over a memory ends with a value, with a failure, or runs out of time, and leaves the
events that happened on the way (`Run`). A `Guarantee` says what is to be shown of executions: an
invariant of the memory, which depends on what is known about it, the events every step ensures, as
long as the steps make only events that are assumed, and the failures that are permitted.

What is known only grows: `Holds w m Q` is a triple whose precondition is the invariant at `w` and
whose postcondition speaks of a later `w'`. The rules follow the monad (`holds_pure`, `Holds.bind`,
`holds_mapM`, `holds_forM`). `Layout` is the usual knowledge about a memory to which cells are only
added.
-/

set_option autoImplicit false
set_option relaxedAutoImplicit false

namespace Sipc.Library

/-- How a computation ends. -/
inductive Ending (F α : Type)
  | value (a : α)
  | failure (f : F)
  | timeout

/-- The end of a computation, the memory it leaves, and the events on the way. -/
structure Execution (S E F α : Type) where
  ending : Ending F α
  state : S
  events : List E

/-- A computation over a memory. -/
def Run (S E F α : Type) : Type :=
  S → Execution S E F α

namespace Run

variable {S E F α β : Type}

def pure (a : α) : Run S E F α := fun s ↦
  ⟨.value a, s, []⟩

/-- Goes on with `f` where the first computation ends with a value. -/
def bind (m : Run S E F α) (f : α → Run S E F β) : Run S E F β := fun s ↦
  match (m s).ending with
  | .value a =>
    ⟨(f a (m s).state).ending, (f a (m s).state).state, (m s).events ++ (f a (m s).state).events⟩
  | .failure e => ⟨.failure e, (m s).state, (m s).events⟩
  | .timeout => ⟨.timeout, (m s).state, (m s).events⟩

instance : Monad (Run S E F) where
  pure := Run.pure
  bind := Run.bind

theorem bind_pure (m : Run S E F α) : Run.bind m Run.pure = m := by
  funext s
  unfold Run.bind
  cases hm : (m s).ending <;> simp [Run.pure, ← hm]

theorem pure_bind (a : α) (f : α → Run S E F β) : Run.bind (Run.pure a) f = f a := by
  funext s
  simp [Run.bind, Run.pure]

theorem bind_assoc {γ : Type} (m : Run S E F α) (f : α → Run S E F β) (g : β → Run S E F γ) :
    Run.bind (Run.bind m f) g = Run.bind m fun a ↦ Run.bind (f a) g := by
  funext s
  unfold Run.bind
  cases hm : (m s).ending with
  | value a => cases hf : (f a (m s).state).ending <;> simp [hf]
  | failure e => rfl
  | timeout => rfl

instance : LawfulMonad (Run S E F) :=
  LawfulMonad.mk' _ bind_pure pure_bind bind_assoc

/-- Fails. -/
def fail (f : F) : Run S E F α := fun s ↦
  ⟨.failure f, s, []⟩

/-- Runs out of time. -/
def timeout : Run S E F α := fun s ↦
  ⟨.timeout, s, []⟩

/-- An event happens. -/
def emit (e : E) : Run S E F Unit := fun s ↦
  ⟨.value (), s, [e]⟩

/-- Reads or changes the memory. -/
def access (f : S → α × S) : Run S E F α := fun s ↦
  ⟨.value (f s).1, (f s).2, []⟩

/-- The value, or else the failure. -/
def orFail (f : F) : Option α → Run S E F α
  | some a => Run.pure a
  | none => Run.fail f

/-- Started at `s`, the computation ends with the value `a` and leaves the memory `s'`. -/
def Returns (m : Run S E F α) (s : S) (a : α) (s' : S) : Prop :=
  (m s).ending = .value a ∧ (m s).state = s'

variable {a : α} {b : β} {s s' : S}

@[simp] theorem returns_pure {a' : α} :
    Returns (Pure.pure a' : Run S E F α) s a s' ↔ a' = a ∧ s = s' := by
  change Ending.value a' = .value a ∧ s = s' ↔ _
  rw [Ending.value.injEq]

@[simp] theorem returns_access {f : S → α × S} :
    Returns (access f : Run S E F α) s a s' ↔ f s = (a, s') := by
  change Ending.value (f s).1 = .value a ∧ (f s).2 = s' ↔ _
  rw [Ending.value.injEq, Prod.ext_iff]

@[simp] theorem returns_emit {e : E} {u : Unit} :
    Returns (emit e : Run S E F Unit) s u s' ↔ s = s' :=
  and_iff_right rfl

@[simp] theorem not_returns_fail {f : F} : ¬ Returns (fail f : Run S E F α) s a s' :=
  fun h ↦ nomatch h.1

@[simp] theorem returns_orFail {f : F} {o : Option α} :
    Returns (orFail f o : Run S E F α) s a s' ↔ o = some a ∧ s = s' := by
  cases o with
  | some a' =>
    rw [Option.some.injEq]
    exact returns_pure
  | none => simp [orFail]

/-- A sequence returns exactly where both its parts do. -/
theorem returns_bind {m : Run S E F α} {f : α → Run S E F β} :
    Returns (m >>= f) s b s' ↔ ∃ a s₁, Returns m s a s₁ ∧ Returns (f a) s₁ b s' := by
  change (Run.bind m f s).ending = _ ∧ (Run.bind m f s).state = _ ↔ _
  unfold Run.bind Returns
  cases hm : (m s).ending with
  | value a =>
    constructor
    · intro h
      exact ⟨a, _, ⟨rfl, rfl⟩, h⟩
    · rintro ⟨a', s₁, ⟨⟨⟩, rfl⟩, h⟩
      exact h
  | failure e =>
    constructor
    · rintro ⟨⟨⟩, -⟩
    · rintro ⟨a, s₁, ⟨⟨⟩, -⟩, -⟩
  | timeout =>
    constructor
    · rintro ⟨⟨⟩, -⟩
    · rintro ⟨a, s₁, ⟨⟨⟩, -⟩, -⟩

/-- What a computation returns is unique. -/
theorem Returns.unique {m : Run S E F α} {a' : α} {s₁ : S} (h : Returns m s a s')
    (h' : Returns m s a' s₁) : a' = a ∧ s₁ = s' :=
  ⟨Ending.value.inj (h'.1.symm.trans h.1), h'.2.symm.trans h.2⟩

/-- A first step whose result is known. -/
theorem Returns.bind_iff {m : Run S E F α} {f : α → Run S E F β} {a : α} {s₁ : S} {b : β} {s₂ : S}
    (h : Returns m s a s₁) : Returns (m >>= f) s b s₂ ↔ Returns (f a) s₁ b s₂ := by
  refine ⟨fun hbind ↦ ?_, fun hf ↦ returns_bind.2 ⟨a, s₁, h, hf⟩⟩
  obtain ⟨a', s', ha', hf⟩ := returns_bind.1 hbind
  obtain ⟨rfl, rfl⟩ := h.unique ha'
  exact hf

/-- Where every step of a loop returns and keeps a relation with the list of the steps taken, the
loop returns and keeps it too. -/
theorem exists_returns_forM {f : α → Run S E F Unit} (R : List α → S → Prop) :
    ∀ {l d : List α} {s : S}, R d s →
      (∀ a ∈ l, ∀ d s, R d s → ∃ s', Returns (f a) s () s' ∧ R (d ++ [a]) s') →
      ∃ s', Returns (l.forM f) s () s' ∧ R (d ++ l) s'
  | [], done, s, hR, _ => ⟨s, returns_pure.2 ⟨rfl, rfl⟩, by rwa [List.append_nil]⟩
  | a :: as, done, s, hR, hstep => by
    obtain ⟨s₁, h₁, hR₁⟩ := hstep a List.mem_cons_self done s hR
    obtain ⟨s', h, hR'⟩ := exists_returns_forM R hR₁ fun b hb ↦ hstep b (List.mem_cons_of_mem _ hb)
    refine ⟨s', returns_bind.2 ⟨(), s₁, h₁, h⟩, ?_⟩
    rwa [List.append_assoc, List.singleton_append] at hR'

/-- The same for a loop that collects results, which the relation may speak of. -/
theorem exists_returns_mapM {f : α → Run S E F β} (R : List α → List β → S → Prop) :
    ∀ {l d : List α} {r : List β} {s : S}, R d r s →
      (∀ a ∈ l, ∀ d r s, R d r s → ∃ b s', Returns (f a) s b s' ∧ R (d ++ [a]) (r ++ [b]) s') →
      ∃ bs s', Returns (l.mapM f) s bs s' ∧ R (d ++ l) (r ++ bs) s'
  | [], done, results, s, hR, _ => by
    refine ⟨[], s, ?_, by rwa [List.append_nil, List.append_nil]⟩
    rw [List.mapM_nil]
    exact returns_pure.2 ⟨rfl, rfl⟩
  | a :: as, done, results, s, hR, hstep => by
    obtain ⟨b, s₁, h₁, hR₁⟩ := hstep a List.mem_cons_self done results s hR
    obtain ⟨bs, s', h, hR'⟩ :=
      exists_returns_mapM R hR₁ fun b hb ↦ hstep b (List.mem_cons_of_mem _ hb)
    rw [List.append_assoc, List.singleton_append, List.append_assoc, List.singleton_append] at hR'
    refine ⟨b :: bs, s', ?_, hR'⟩
    rw [List.mapM_cons]
    exact returns_bind.2 ⟨b, s₁, h₁, returns_bind.2 ⟨bs, s', h, returns_pure.2 ⟨rfl, rfl⟩⟩⟩

/-- Where a loop returns, each of its steps did. -/
theorem returns_of_forM {f : α → Run S E F Unit} :
    ∀ {as : List α} {s s' : S}, Returns (as.forM f) s () s' →
      ∀ a ∈ as, ∃ s₁ s₂, Returns (f a) s₁ () s₂
  | [], _, _, _, _, ha => nomatch ha
  | b :: bs, s, s', h, a, ha => by
    obtain ⟨⟨⟩, s₁, h₁, h₂⟩ := returns_bind.1 h
    rcases List.mem_cons.1 ha with rfl | ha
    · exact ⟨s, s₁, h₁⟩
    · exact returns_of_forM h₂ a ha

/-- Wherever the computation returns, the memory keeps the property. -/
def Preserves (m : Run S E F α) (P : S → Prop) : Prop :=
  ∀ s a s', P s → Returns m s a s' → P s'

section Preserves

variable {P : S → Prop}

theorem preserves_pure : Preserves (Pure.pure a : Run S E F α) P := by
  intro s a' s' hs h
  obtain ⟨-, rfl⟩ := returns_pure.1 h
  exact hs

theorem preserves_access {g : S → α × S} (h : ∀ s, P s → P (g s).2) :
    Preserves (access g : Run S E F α) P := by
  intro s a' s' hs hreturns
  have hs' := h s hs
  rwa [returns_access.1 hreturns] at hs'

theorem Preserves.bind {m : Run S E F α} {f : α → Run S E F β} (hm : Preserves m P)
    (hf : ∀ a, Preserves (f a) P) : Preserves (m >>= f) P := by
  intro s b s' hs h
  obtain ⟨a, s₁, h₁, h₂⟩ := returns_bind.1 h
  exact hf a s₁ b s' (hm s a s₁ hs h₁) h₂

theorem preserves_forM {f : α → Run S E F Unit} :
    ∀ {as : List α}, (∀ a ∈ as, Preserves (f a) P) → Preserves (as.forM f) P
  | [], _ => preserves_pure
  | a :: _, h => (h a List.mem_cons_self).bind fun _ ↦
    preserves_forM fun b hb ↦ h b (List.mem_cons_of_mem _ hb)

theorem preserves_mapM {f : α → Run S E F β} :
    ∀ {as : List α}, (∀ a ∈ as, Preserves (f a) P) → Preserves (as.mapM f) P
  | [], _ => by
    rw [List.mapM_nil]
    exact preserves_pure
  | a :: _, h => by
    rw [List.mapM_cons]
    refine (h a List.mem_cons_self).bind fun b ↦ ?_
    exact (preserves_mapM fun c hc ↦ h c (List.mem_cons_of_mem _ hc)).bind fun bs ↦ preserves_pure

end Preserves

/-- A loop that collects results has one for each step. -/
theorem length_of_mapM {f : α → Run S E F β} :
    ∀ {as : List α} {bs : List β} {s s' : S}, Returns (as.mapM f) s bs s' → bs.length = as.length := by
  intro as
  induction as with
  | nil =>
    intro bs s s' h
    rw [List.mapM_nil] at h
    rw [← (returns_pure.1 h).1]
    rfl
  | cons a as ih =>
    intro bs s s' h
    rw [List.mapM_cons] at h
    obtain ⟨b, s₁, -, h⟩ := returns_bind.1 h
    obtain ⟨cs, s₂, hcs, h⟩ := returns_bind.1 h
    rw [← (returns_pure.1 h).1, List.length_cons, List.length_cons, ih hcs]

/-! ### Events that must happen -/

/-- Wherever the computation ends with a value, an event of the kind has happened. -/
def Makes (m : Run S E F α) (P : E → Prop) : Prop :=
  ∀ s a, (m s).ending = .value a → ∃ ev ∈ (m s).events, P ev

variable {P : E → Prop}

theorem makes_emit {e : E} (h : P e) : Makes (emit e : Run S E F Unit) P :=
  fun _ _ _ ↦ ⟨e, List.mem_singleton_self e, h⟩

theorem Makes.bind {m : Run S E F α} (h : Makes m P) {f : α → Run S E F β} :
    Makes (m >>= f) P := by
  intro s b hb
  change (Run.bind m f s).ending = _ at hb
  change ∃ ev ∈ (Run.bind m f s).events, P ev
  unfold Run.bind at hb ⊢
  cases hm : (m s).ending with
  | value a =>
    obtain ⟨ev, hev, hP⟩ := h s a hm
    exact ⟨ev, List.mem_append_left _ hev, hP⟩
  | failure e =>
    rw [hm] at hb
    cases hb
  | timeout =>
    rw [hm] at hb
    cases hb

theorem makes_bind {m : Run S E F α} {f : α → Run S E F β} (h : ∀ a, Makes (f a) P) :
    Makes (m >>= f) P := by
  intro s b hb
  change (Run.bind m f s).ending = _ at hb
  change ∃ ev ∈ (Run.bind m f s).events, P ev
  unfold Run.bind at hb ⊢
  cases hm : (m s).ending with
  | value a =>
    rw [hm] at hb
    obtain ⟨ev, hev, hP⟩ := h a _ b hb
    exact ⟨ev, List.mem_append_right _ hev, hP⟩
  | failure e =>
    rw [hm] at hb
    cases hb
  | timeout =>
    rw [hm] at hb
    cases hb

theorem makes_forM {f : α → Run S E F Unit} {a : α} (h : Makes (f a) P) :
    ∀ {as : List α}, a ∈ as → Makes (as.forM f) P
  | b :: bs, ha => by
    rcases List.mem_cons.1 ha with rfl | ha
    · exact h.bind
    · exact makes_bind fun _ ↦ makes_forM h ha

end Run

/-- What is to be shown of executions. -/
structure Guarantee (S E F W : Type) where
  inv : W → S → Prop
  assumed : E → Prop
  ensured : E → Prop
  permitted : F → Prop

namespace Guarantee

variable {S E F W : Type} [Preorder W] (G : Guarantee S E F W) {α β : Type}

/-- Where the invariant holds at the start, and only assumed events happen, the events are ensured, a
failure is permitted, and a value satisfies the postcondition at a later stage of knowledge. -/
def Holds (w : W) (m : Run S E F α) (Q : W → α → Prop) : Prop :=
  ∀ s, G.inv w s → (∀ e ∈ (m s).events, G.assumed e) →
    (∀ e ∈ (m s).events, G.ensured e) ∧
      match (m s).ending with
      | .value a => ∃ w', w ≤ w' ∧ G.inv w' (m s).state ∧ Q w' a
      | .failure f => G.permitted f
      | .timeout => True

variable {G} {w : W}

theorem Holds.mono {m : Run S E F α} {Q R : W → α → Prop} (h : G.Holds w m Q)
    (hQ : ∀ w' a, w ≤ w' → Q w' a → R w' a) : G.Holds w m R := by
  intro s hs hassumed
  obtain ⟨hensured, hend⟩ := h s hs hassumed
  refine ⟨hensured, ?_⟩
  split at hend
  · obtain ⟨w', hle, hinv, hq⟩ := hend
    exact ⟨w', hle, hinv, hQ w' _ hle hq⟩
  · exact hend
  · trivial

theorem holds_pure {a : α} {Q : W → α → Prop} (h : Q w a) :
    G.Holds w (pure a : Run S E F α) Q :=
  fun _ hs _ ↦ ⟨List.forall_mem_nil _, w, le_refl w, hs, h⟩

theorem holds_fail {f : F} {Q : W → α → Prop} (h : G.permitted f) :
    G.Holds w (Run.fail f : Run S E F α) Q :=
  fun _ _ _ ↦ ⟨List.forall_mem_nil _, h⟩

theorem holds_timeout {Q : W → α → Prop} : G.Holds w (Run.timeout : Run S E F α) Q :=
  fun _ _ _ ↦ ⟨List.forall_mem_nil _, trivial⟩

theorem holds_orFail {f : F} {o : Option α} {Q : W → α → Prop} (hsome : ∀ a, o = some a → Q w a)
    (hnone : o = none → G.permitted f) : G.Holds w (Run.orFail f o) Q := by
  cases o with
  | some a => exact holds_pure (hsome a rfl)
  | none => exact holds_fail (hnone rfl)

theorem holds_emit {e : E} {Q : W → Unit → Prop} (h : G.assumed e → G.ensured e ∧ Q w ()) :
    G.Holds w (Run.emit e : Run S E F Unit) Q := by
  intro s hs hassumed
  obtain ⟨hensured, hQ⟩ := h (hassumed e List.mem_cons_self)
  refine ⟨?_, w, le_refl w, hs, hQ⟩
  intro e' he'
  obtain rfl := List.mem_singleton.1 he'
  exact hensured

theorem holds_access {f : S → α × S} {Q : W → α → Prop}
    (h : ∀ s, G.inv w s → ∃ w', w ≤ w' ∧ G.inv w' (f s).2 ∧ Q w' (f s).1) :
    G.Holds w (Run.access f : Run S E F α) Q :=
  fun s hs _ ↦ ⟨List.forall_mem_nil _, h s hs⟩

/-- Computations in sequence. -/
theorem Holds.bind {m : Run S E F α} {f : α → Run S E F β} {Q : W → α → Prop} {R : W → β → Prop}
    (hm : G.Holds w m Q) (hf : ∀ w' a, w ≤ w' → Q w' a → G.Holds w' (f a) R) :
    G.Holds w (m >>= f) R := by
  intro s hs hassumed
  change ∀ e ∈ (Run.bind m f s).events, _ at hassumed
  change (∀ e ∈ (Run.bind m f s).events, _) ∧ _
  obtain ⟨hensured, hend⟩ := hm s hs (by
    intro e he
    refine hassumed e ?_
    unfold Run.bind
    split
    · exact List.mem_append_left _ he
    · exact he
    · exact he)
  change (∀ e ∈ (Run.bind m f s).events, G.ensured e) ∧ match (Run.bind m f s).ending with
    | .value a => ∃ w', w ≤ w' ∧ G.inv w' (Run.bind m f s).state ∧ R w' a
    | .failure f => G.permitted f
    | .timeout => True
  unfold Run.bind at hassumed ⊢
  cases hm : (m s).ending with
  | value a =>
    rw [hm] at hend
    simp only [hm] at hassumed ⊢
    obtain ⟨w', hle, hinv, hq⟩ := hend
    obtain ⟨hensured', hend'⟩ := hf w' a hle hq (m s).state hinv
      fun e he ↦ hassumed e (List.mem_append_right _ he)
    refine ⟨?_, ?_⟩
    · intro e he
      rcases List.mem_append.1 he with he | he
      · exact hensured e he
      · exact hensured' e he
    · split at hend'
      · obtain ⟨w'', hle', hinv', hr⟩ := hend'
        exact ⟨w'', hle.trans hle', hinv', hr⟩
      · exact hend'
      · trivial
  | failure e =>
    rw [hm] at hend
    exact ⟨hensured, hend⟩
  | timeout => exact ⟨hensured, trivial⟩

/-- A computation for each element of a list, where what is known of a result stays known. -/
theorem holds_mapM {f : α → Run S E F β} {Q : W → α → β → Prop}
    (hQ : ∀ w w' a b, w ≤ w' → Q w a b → Q w' a b) :
    ∀ (as : List α) (w : W), (∀ a ∈ as, ∀ w', w ≤ w' → G.Holds w' (f a) fun w b ↦ Q w a b) →
      G.Holds w (as.mapM f) fun w bs ↦ List.Forall₂ (Q w) as bs
  | [], w, _ => by
    rw [List.mapM_nil]
    exact holds_pure List.Forall₂.nil
  | a :: as, w, h => by
    rw [List.mapM_cons]
    refine (h a List.mem_cons_self w (le_refl w)).bind fun w₁ b hle₁ hb ↦ ?_
    refine (holds_mapM hQ as w₁ fun a' ha' w' hle ↦
      h a' (List.mem_cons_of_mem _ ha') w' (hle₁.trans hle)).bind fun w₂ bs hle₂ hbs ↦ ?_
    exact holds_pure (List.Forall₂.cons (hQ w₁ w₂ a b hle₂ hb) hbs)

/-- A computation for each element of a list, for its effect. -/
theorem holds_forM {f : α → Run S E F Unit} :
    ∀ (as : List α) (w : W), (∀ a ∈ as, ∀ w', w ≤ w' → G.Holds w' (f a) fun _ _ ↦ True) →
      G.Holds w (as.forM f) fun _ _ ↦ True
  | [], _, _ => holds_pure trivial
  | a :: as, w, h =>
    (h a List.mem_cons_self w (le_refl w)).bind fun w₁ _ hle _ ↦ holds_forM as w₁
      fun a' ha' w' hle' ↦ h a' (List.mem_cons_of_mem _ ha') w' (hle.trans hle')

end Guarantee

/-- What is known about each cell of a memory to which cells are only added. -/
structure Layout (τ : Type) where
  cells : List τ

namespace Layout

variable {τ : Type}

instance : Preorder (Layout τ) where
  le v w := v.cells <+: w.cells
  le_refl v := List.prefix_refl v.cells
  le_trans _ _ _ h h' := h.trans h'

/-- The entry of a cell never changes. -/
theorem get_mono {v w : Layout τ} (h : v ≤ w) {a : ℕ} {t : τ} (ha : v.cells[a]? = some t) :
    w.cells[a]? = some t := by
  obtain ⟨rest, hrest⟩ := h
  rw [← hrest, List.getElem?_append_left (List.getElem?_eq_some_iff.1 ha).1]
  exact ha

/-- The layout after cells are added. -/
def add (w : Layout τ) (ts : List τ) : Layout τ :=
  ⟨w.cells ++ ts⟩

theorem le_add (w : Layout τ) (ts : List τ) : w ≤ w.add ts :=
  List.prefix_append w.cells ts

theorem get_add (w : Layout τ) (ts : List τ) (i : ℕ) :
    (w.add ts).cells[w.cells.length + i]? = ts[i]? := by
  change (w.cells ++ ts)[w.cells.length + i]? = ts[i]?
  rw [List.getElem?_append_right (Nat.le_add_right _ _), Nat.add_sub_cancel_left]

end Layout

end Sipc.Library
