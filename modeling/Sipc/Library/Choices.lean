import Mathlib.Data.List.Basic

/-!
# Reading with preferences

A reader gives all ways to read a beginning of the input, the preferred one first, each with what is
left (`Choices`). Where two readers are alternatives, the ways of the first come before those of the
second, and a sequence tries the ways of its first part in order. So the first way of the whole is the
one that a parser with unbounded lookahead comes to, if it takes the first alternative that does not
fail later.

`Picks` says that a way is among those of a reader, and that it is the first one where this is asked
for; its rules are the same for both.
-/

set_option autoImplicit false
set_option relaxedAutoImplicit false

namespace Sipc.Library

/-- The ways to read a beginning of the input, each with what is left of it. -/
def Choices (σ α : Type) : Type :=
  List σ → List (α × List σ)

namespace Choices

variable {σ α β : Type}

instance : Monad (Choices σ) where
  pure a ts := [(a, ts)]
  bind p f ts := (p ts).flatMap fun r ↦ f r.1 r.2

instance : Alternative (Choices σ) where
  failure _ := []
  orElse p q ts := p ts ++ q () ts

/-- Reads one symbol that has a value. -/
def next (value : σ → Option α) : Choices σ α
  | [] => []
  | t :: ts => (value t).toList.map fun a ↦ (a, ts)

/-- Reads the given symbol. -/
def token [DecidableEq σ] (t : σ) : Choices σ Unit :=
  next fun t' ↦ if t' = t then some () else none

/-- A reader that has one way at most. -/
def lift (p : List σ → Option (α × List σ)) : Choices σ α :=
  fun ts ↦ (p ts).toList

/-- Reads `t` and goes on with `p` where `t` comes next, and goes on with `q` elsewhere. -/
def ifNext [DecidableEq σ] (t : σ) (p q : Choices σ α) : Choices σ α := fun ts ↦
  match ts with
  | [] => q []
  | t' :: ts => if t' = t then p ts else q (t' :: ts)

/-- Reads as often as possible, `n - 1` times at most. -/
def many (p : Choices σ α) : ℕ → Choices σ (List α)
  | 0 => failure
  | n + 1 => (do
      let a ← p
      let as ← many p n
      return a :: as) <|> pure []

/-! ### The ways of a composed reader -/

section Members

variable {p q : Choices σ α} {f : α → Choices σ β} {ts : List σ}

theorem mem_pure {a : α} {r : α × List σ} : r ∈ (pure a : Choices σ α) ts ↔ r = (a, ts) :=
  List.mem_singleton

theorem mem_bind {r : β × List σ} :
    r ∈ (p >>= f) ts ↔ ∃ a ts', (a, ts') ∈ p ts ∧ r ∈ f a ts' := by
  constructor
  · intro h
    obtain ⟨⟨a, ts'⟩, ha, hr⟩ := List.mem_flatMap.1 h
    exact ⟨a, ts', ha, hr⟩
  · rintro ⟨a, ts', ha, hr⟩
    exact List.mem_flatMap.2 ⟨(a, ts'), ha, hr⟩

theorem mem_orElse {r : α × List σ} : r ∈ (p <|> q) ts ↔ r ∈ p ts ∨ r ∈ q ts :=
  List.mem_append

theorem not_mem_failure {r : α × List σ} : r ∉ (failure : Choices σ α) ts :=
  List.not_mem_nil

theorem mem_next {value : σ → Option α} {a : α} {rest : List σ} :
    (a, rest) ∈ next value ts ↔ ∃ t, ts = t :: rest ∧ value t = some a := by
  cases ts with
  | nil => simp [next]
  | cons t ts =>
    simp only [next, List.mem_map, Option.mem_toList, Prod.mk.injEq,
      List.cons.injEq]
    constructor
    · rintro ⟨b, hb, rfl, rfl⟩
      exact ⟨t, ⟨rfl, rfl⟩, hb⟩
    · rintro ⟨t', ⟨rfl, rfl⟩, ha⟩
      exact ⟨a, ha, rfl, rfl⟩

theorem mem_token [DecidableEq σ] {t : σ} {u : Unit} {rest : List σ} :
    (u, rest) ∈ token t ts ↔ ts = t :: rest := by
  rw [token, mem_next]
  constructor
  · rintro ⟨t', rfl, h⟩
    obtain rfl : t' = t := by
      by_contra hne
      simp [hne] at h
    rfl
  · rintro rfl
    exact ⟨t, rfl, if_pos rfl⟩

theorem mem_lift {p : List σ → Option (α × List σ)} {r : α × List σ} :
    r ∈ lift p ts ↔ p ts = some r :=
  Option.mem_toList

end Members

/-! ### The way that is picked -/

/-- The element is in the list, and where `strict` it is the first one. -/
def Picks {γ : Type} (strict : Prop) (l : List γ) (x : γ) : Prop :=
  ∃ before after, l = before ++ x :: after ∧ (strict → before = [])

section Picks

variable {strict : Prop} {p q : Choices σ α} {f : α → Choices σ β} {ts rest : List σ} {a : α}

theorem Picks.mem {γ : Type} {l : List γ} {x : γ} (h : Picks strict l x) : x ∈ l := by
  obtain ⟨before, after, rfl, -⟩ := h
  exact List.mem_append_right _ List.mem_cons_self

theorem Picks.head? {γ : Type} {l : List γ} {x : γ} (h : Picks True l x) : l.head? = some x := by
  obtain ⟨before, after, rfl, hbefore⟩ := h
  rw [hbefore trivial]
  rfl

theorem picks_head {γ : Type} {l : List γ} {x : γ} : Picks strict (x :: l) x :=
  ⟨[], l, rfl, fun _ ↦ rfl⟩

theorem Picks.append_left {γ : Type} {l : List γ} {x : γ} (h : Picks strict l x) (l' : List γ) :
    Picks strict (l ++ l') x := by
  obtain ⟨before, after, rfl, hbefore⟩ := h
  exact ⟨before, after ++ l', by simp, hbefore⟩

theorem Picks.append_right {γ : Type} {l l' : List γ} {x : γ} (h : Picks strict l' x)
    (hl : strict → l = []) : Picks strict (l ++ l') x := by
  obtain ⟨before, after, rfl, hbefore⟩ := h
  refine ⟨l ++ before, after, by simp, fun hs ↦ ?_⟩
  rw [hl hs, hbefore hs]
  rfl

theorem picks_pure : Picks strict ((pure a : Choices σ α) ts) (a, ts) :=
  picks_head

theorem Picks.bind {r : β × List σ} (h : Picks strict (p ts) (a, rest))
    (h' : Picks strict (f a rest) r) : Picks strict ((p >>= f) ts) r := by
  obtain ⟨before, after, hp, hbefore⟩ := h
  have hbind : (p >>= f) ts =
      (before.flatMap fun r ↦ f r.1 r.2) ++ (f a rest ++ after.flatMap fun r ↦ f r.1 r.2) := by
    change (p ts).flatMap _ = _
    rw [hp, List.flatMap_append, List.flatMap_cons]
  rw [hbind]
  refine (h'.append_left _).append_right fun hs ↦ ?_
  rw [hbefore hs]
  rfl

theorem Picks.orElse {r : α × List σ} (h : Picks strict (p ts) r) : Picks strict ((p <|> q) ts) r :=
  h.append_left _

theorem Picks.orElse' {r : α × List σ} (h : Picks strict (q ts) r) (hp : strict → p ts = []) :
    Picks strict ((p <|> q) ts) r :=
  h.append_right hp

theorem picks_next {value : σ → Option α} {t : σ} (h : value t = some a) :
    Picks strict (next value (t :: ts)) (a, ts) := by
  rw [next, h]
  exact picks_head

theorem picks_token [DecidableEq σ] (t : σ) : Picks strict (token t (t :: ts)) ((), ts) :=
  picks_next (if_pos rfl)

theorem picks_lift {p : List σ → Option (α × List σ)} {r : α × List σ} (h : p ts = some r) :
    Picks strict (lift p ts) r := by
  rw [lift, h]
  exact picks_head

theorem Picks.ifNext [DecidableEq σ] {t : σ} {r : α × List σ} (h : Picks strict (p ts) r) :
    Picks strict (ifNext t p q (t :: ts)) r := by
  simpa [Choices.ifNext] using h

theorem ifNext_of_head? [DecidableEq σ] {t : σ} (h : ts.head? ≠ some t) : ifNext t p q ts = q ts := by
  cases ts with
  | nil => rfl
  | cons t' ts =>
    rw [ifNext]
    exact if_neg fun heq ↦ h (congrArg some heq)

theorem mem_ifNext [DecidableEq σ] {t : σ} {r : α × List σ} (h : r ∈ ifNext t p q ts) :
    (∃ ts', ts = t :: ts' ∧ r ∈ p ts') ∨ (ts.head? ≠ some t ∧ r ∈ q ts) := by
  by_cases hhead : ts.head? = some t
  · obtain ⟨ts', rfl⟩ := List.head?_eq_some_iff.1 hhead
    exact .inl ⟨ts', rfl, by simpa [ifNext] using h⟩
  · rw [ifNext_of_head? hhead] at h
    exact .inr ⟨hhead, h⟩

/-! ### Readers without a way -/

theorem bind_eq_nil (h : ∀ a ts', (a, ts') ∈ p ts → f a ts' = []) : (p >>= f) ts = [] := by
  refine List.flatMap_eq_nil_iff.2 fun r hr ↦ ?_
  exact h r.1 r.2 hr

theorem bind_eq_nil_of_eq_nil (h : p ts = []) : (p >>= f) ts = [] := by
  refine bind_eq_nil fun a ts' ha ↦ ?_
  rw [h] at ha
  cases ha

theorem orElse_eq_nil (hp : p ts = []) (hq : q ts = []) : (p <|> q) ts = [] := by
  change p ts ++ q ts = []
  rw [hp, hq]
  rfl

theorem token_eq_nil [DecidableEq σ] {t : σ} (h : ts.head? ≠ some t) : token t ts = [] := by
  refine List.eq_nil_iff_forall_not_mem.2 fun ⟨u, rest⟩ hr ↦ h ?_
  rw [mem_token.1 hr]
  rfl

end Picks

/-! ### Running a reader -/

section Runs

variable {p : Choices σ α} {f : α → Choices σ β} {ts : List σ}

theorem bind_of_eq {a : α} {rest : List σ} (h : p ts = [(a, rest)]) : (p >>= f) ts = f a rest := by
  change (p ts).flatMap _ = _
  rw [h, List.flatMap_cons, List.flatMap_nil, List.append_nil]

variable [DecidableEq σ] {g : Unit → Choices σ β}

theorem bind_token (t : σ) : (token t >>= g) (t :: ts) = g () ts :=
  bind_of_eq (by simp [token, next])

theorem bind_token_of_ne {t t' : σ} (h : t' ≠ t) : (token t >>= g) (t' :: ts) = [] :=
  bind_eq_nil_of_eq_nil (token_eq_nil fun heq ↦ h (Option.some.inj heq))

end Runs

/-! ### Loops -/

/-- A loop reads one item after the other, where each is picked before the items behind it, and stops
where there is none. -/
theorem picks_many {strict : Prop} {p : Choices σ α} {tokens : α → List σ} {rest : List σ}
    (hstop : p rest = []) : ∀ {as : List α} {n : ℕ}, as.length < n →
      (∀ a ∈ as, ∀ rest', Picks strict (p (tokens a ++ rest')) (a, rest')) →
      Picks strict (many p n (as.flatMap tokens ++ rest)) (as, rest)
  | [], n + 1, _, _ => by
    rw [many]
    exact picks_pure.orElse' fun _ ↦ bind_eq_nil_of_eq_nil hstop
  | a :: as, n + 1, hn, h => by
    have hmore := picks_many (n := n) hstop (Nat.lt_of_succ_lt_succ hn) fun b hb ↦
      h b (List.mem_cons_of_mem _ hb)
    rw [many, List.flatMap_cons, List.append_assoc]
    refine ((h a List.mem_cons_self _).bind ?_).orElse
    exact hmore.bind picks_pure

/-- What a loop has read. -/
theorem mem_many {p : Choices σ α} {tokens : α → List σ}
    (hp : ∀ {ts a rest}, (a, rest) ∈ p ts → ts = tokens a ++ rest) :
    ∀ {n : ℕ} {ts : List σ} {as : List α} {rest : List σ}, (as, rest) ∈ many p n ts →
      ts = as.flatMap tokens ++ rest
  | 0, _, _, _, h => absurd h not_mem_failure
  | n + 1, ts, as, rest, h => by
    rcases mem_orElse.1 h with h | h
    · obtain ⟨a, ts₁, ha, h⟩ := mem_bind.1 h
      obtain ⟨as', ts₂, has, h⟩ := mem_bind.1 h
      obtain ⟨rfl, rfl⟩ := Prod.mk.injEq _ _ _ _ ▸ mem_pure.1 h
      rw [hp ha, mem_many hp has, List.flatMap_cons, List.append_assoc]
    · obtain ⟨rfl, rfl⟩ := Prod.mk.injEq _ _ _ _ ▸ mem_pure.1 h
      rfl

end Choices

end Sipc.Library
