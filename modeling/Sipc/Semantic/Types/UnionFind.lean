import Mathlib.Data.List.Count
import Sipc.Library.UnionForest

/-!
# The union-find structure

`semantic/types/solver/UnionFind`: a map from terms to their parents, looked up by structural
equality. Both kinds of look-up insert a term that is not there yet as its own parent.

The structure carries what `invariant()` asserts, that no two edges leave equal terms, and what the
loop of `find` needs to end: parents are terms of the map, and every upward path ends at a root in no
more steps than there are edges that are not loops. `find` computes the representative of the forest
of parents (`find_fst`), and `quickUnion` links two roots of it (`rep_quickUnion`).
-/

set_option autoImplicit false
set_option relaxedAutoImplicit false

namespace Sipc

open Library

variable {T : Type} [DecidableEq T]

/-! ### Edge lists -/

namespace Edges

/-- `UnionFind::lookup`. -/
def lookup : List (T × T) → T → Option T
  | [], _ => none
  | e :: es, t => if t = e.1 then some e.2 else lookup es t

/-- The parent of a term; a term without an edge counts as its own parent. -/
def parent (es : List (T × T)) (t : T) : T :=
  (lookup es t).getD t

/-- The number of edges that are not loops. -/
def moved (es : List (T × T)) : ℕ :=
  es.countP fun e ↦ e.1 ≠ e.2

/-- The loop of `quick_union`: the first edge leaving `a` becomes an edge to `b`. -/
def redirect (a b : T) : List (T × T) → List (T × T)
  | [] => []
  | e :: es => if a = e.1 then (a, b) :: es else e :: redirect a b es

theorem lookup_isSome_iff (es : List (T × T)) (t : T) :
    (lookup es t).isSome ↔ t ∈ es.map Prod.fst := by
  induction es with
  | nil => simp [lookup]
  | cons e es ih =>
    unfold lookup
    split_ifs with h
    · simp [h]
    · simp [h, ih]

theorem lookup_mem {es : List (T × T)} {t p : T} (h : lookup es t = some p) : (t, p) ∈ es := by
  induction es with
  | nil => cases h
  | cons e es ih =>
    unfold lookup at h
    split_ifs at h with ht
    · obtain rfl := Option.some.inj h
      subst ht
      exact List.mem_cons_self
    · exact List.mem_cons_of_mem _ (ih h)

theorem parent_of_lookup_eq_none {es : List (T × T)} {t : T} (h : lookup es t = none) :
    parent es t = t := by
  unfold parent
  rw [h]
  rfl

theorem parent_of_lookup_eq_some {es : List (T × T)} {t p : T} (h : lookup es t = some p) :
    parent es t = p := by
  unfold parent
  rw [h]
  rfl

/-- Adding a loop at a new term does not change the parent function. -/
theorem parent_loop {es : List (T × T)} {t : T} (h : lookup es t = none) :
    parent ((t, t) :: es) = parent es := by
  funext s
  by_cases hs : s = t
  · subst hs
    rw [parent_of_lookup_eq_none h]
    exact parent_of_lookup_eq_some (by simp [lookup])
  · simp [parent, lookup, hs]

@[simp] theorem moved_loop (es : List (T × T)) (t : T) : moved ((t, t) :: es) = moved es := by
  simp [moved]

theorem moved_le_length (es : List (T × T)) : moved es ≤ es.length :=
  List.countP_le_length

@[simp] theorem map_fst_redirect (a b : T) (es : List (T × T)) :
    (redirect a b es).map Prod.fst = es.map Prod.fst := by
  induction es with
  | nil => rfl
  | cons e es ih =>
    unfold redirect
    split_ifs with h
    · simp [h]
    · simp [ih]

theorem mem_redirect {a b : T} {es : List (T × T)} {e : T × T} (h : e ∈ redirect a b es) :
    e = (a, b) ∨ e ∈ es := by
  induction es with
  | nil => cases h
  | cons d es ih =>
    unfold redirect at h
    split_ifs at h with had
    · rcases List.mem_cons.mp h with rfl | h
      · exact Or.inl rfl
      · exact Or.inr (List.mem_cons_of_mem _ h)
    · rcases List.mem_cons.mp h with rfl | h
      · exact Or.inr List.mem_cons_self
      · exact (ih h).imp_right (List.mem_cons_of_mem _)

/-- Redirecting a loop to its own root changes nothing, and neither does redirecting the edge of a
term that has none. -/
theorem redirect_of_lookup_ne {a b : T} {es : List (T × T)}
    (h : lookup es a = none ∨ (lookup es a = some a ∧ a = b)) : redirect a b es = es := by
  induction es with
  | nil => rfl
  | cons e es ih =>
    unfold lookup at h
    unfold redirect
    split_ifs at h ⊢ with hae
    · rcases h with h | ⟨h, rfl⟩
      · cases h
      · have he : (a, a) = e := Prod.ext hae (Option.some.inj h).symm
        rw [he]
    · rw [ih h]

/-- Redirecting the edge of a term of the map changes the parent of that term only. -/
theorem parent_redirect {a b : T} {es : List (T × T)} (ha : a ∈ es.map Prod.fst) :
    parent (redirect a b es) = Function.update (parent es) a b := by
  have hlookup : ∀ t, lookup (redirect a b es) t = if t = a then some b else lookup es t := by
    intro t
    induction es with
    | nil => cases ha
    | cons e es ih =>
      unfold redirect
      by_cases hae : a = e.1
      · rw [if_pos hae]
        simp only [lookup, ← hae]
        split_ifs <;> rfl
      · rw [if_neg hae]
        rw [List.map_cons, List.mem_cons] at ha
        simp only [lookup, ih (ha.resolve_left hae)]
        by_cases hte : t = e.1
        · rw [if_pos hte, if_neg (fun h ↦ hae (h.symm.trans hte)), if_pos hte]
        · rw [if_neg hte, if_neg hte]
  funext t
  by_cases ht : t = a
  · subst ht
    rw [Function.update_self]
    exact parent_of_lookup_eq_some (by rw [hlookup, if_pos rfl])
  · rw [Function.update_of_ne ht]
    unfold parent
    rw [hlookup, if_neg ht]

/-- Redirecting the loop at a root to another term leaves one loop fewer. -/
theorem moved_redirect {a b : T} {es : List (T × T)} (ha : lookup es a = some a) (hab : a ≠ b) :
    moved (redirect a b es) = moved es + 1 := by
  induction es with
  | nil => cases ha
  | cons e es ih =>
    unfold lookup at ha
    unfold redirect
    split_ifs at ha ⊢ with hae
    · have he : e.1 = e.2 := hae.symm.trans (Option.some.inj ha).symm
      simp [moved, hab, he]
    · have hes := ih ha
      unfold moved at hes ⊢
      rw [List.countP_cons, List.countP_cons, hes]
      omega

end Edges

open Edges

/-- `UnionFind`. -/
structure UnionFind (T : Type) [DecidableEq T] where
  edges : List (T × T)
  keys_nodup : (edges.map Prod.fst).Nodup
  parent_mem : ∀ e ∈ edges, e.2 ∈ edges.map Prod.fst
  rooted : ∀ t, parent edges ((parent edges)^[moved edges] t) = (parent edges)^[moved edges] t

namespace UnionFind

/-- The structure without edges. -/
def empty : UnionFind T where
  edges := []
  keys_nodup := List.nodup_nil
  parent_mem := by simp
  rooted := fun _ ↦ rfl

/-- The terms of the map. -/
def keys (U : UnionFind T) : List T :=
  U.edges.map Prod.fst

/-- The forest of parents. -/
def forest (U : UnionFind T) : UnionForest T where
  parent := parent U.edges
  height := moved U.edges
  rooted := U.rooted

/-- The representative of a term. -/
def rep (U : UnionFind T) (t : T) : T :=
  U.forest.rep t

@[simp] theorem rep_rep (U : UnionFind T) (t : T) : U.rep (U.rep t) = U.rep t :=
  U.forest.rep_rep t

/-- `UnionFind::smart_insert`. -/
def smartInsert (U : UnionFind T) (t : T) : T × UnionFind T :=
  match h : lookup U.edges t with
  | some p => (p, U)
  | none =>
    (t,
      { edges := (t, t) :: U.edges
        keys_nodup := by
          refine List.nodup_cons.mpr ⟨fun hmem ↦ ?_, U.keys_nodup⟩
          rw [← lookup_isSome_iff, h] at hmem
          cases hmem
        parent_mem := by
          intro e he
          rcases List.mem_cons.mp he with rfl | he
          · exact List.mem_cons_self
          · exact List.mem_cons_of_mem _ (U.parent_mem e he)
        rooted := by
          rw [parent_loop h, moved_loop]
          exact U.rooted })

/-- `UnionFind::add`. -/
def add (U : UnionFind T) (seed : List T) : UnionFind T :=
  seed.foldl (fun U term ↦ (U.smartInsert term).2) U

/-- `UnionFind::get_parent`. -/
def getParent (U : UnionFind T) (t : T) : T × UnionFind T :=
  match lookup U.edges t with
  | some p => (p, U)
  | none => U.smartInsert t

/-- The loop of `UnionFind::find`. -/
def findLoop : ℕ → UnionFind T → T → T × UnionFind T
  | 0, U, t => (t, U)
  | fuel + 1, U, t =>
    let (p, U) := U.getParent t
    if p = t then (t, U) else findLoop fuel U p

/-- `UnionFind::find`. No path is longer than the list of edges. -/
def find (U : UnionFind T) (t : T) : T × UnionFind T :=
  let (p, U) := U.smartInsert t
  findLoop U.edges.length U p

theorem smartInsert_fst (U : UnionFind T) (t : T) :
    (U.smartInsert t).1 = parent U.edges t := by
  unfold smartInsert
  split
  · next h => exact (parent_of_lookup_eq_some h).symm
  · next h => exact (parent_of_lookup_eq_none h).symm

@[simp] theorem parent_smartInsert (U : UnionFind T) (t : T) :
    parent (U.smartInsert t).2.edges = parent U.edges := by
  unfold smartInsert
  split
  · rfl
  · next h => exact parent_loop h

theorem mem_keys_smartInsert (U : UnionFind T) (t s : T) :
    s ∈ (U.smartInsert t).2.keys ↔ s = t ∨ s ∈ U.keys := by
  unfold smartInsert
  split
  · next p h =>
    have ht : t ∈ U.keys := (lookup_isSome_iff U.edges t).mp (by rw [h]; rfl)
    constructor
    · exact Or.inr
    · rintro (rfl | hs)
      · exact ht
      · exact hs
  · exact List.mem_cons

theorem rep_congr {U U' : UnionFind T} (h : parent U.edges = parent U'.edges) : U.rep = U'.rep :=
  funext (UnionForest.rep_congr (F := U.forest) (G := U'.forest) h)

@[simp] theorem rep_smartInsert (U : UnionFind T) (t : T) : (U.smartInsert t).2.rep = U.rep :=
  rep_congr (U.parent_smartInsert t)

@[simp] theorem rep_add (U : UnionFind T) (seed : List T) : (U.add seed).rep = U.rep := by
  unfold add
  induction seed generalizing U with
  | nil => rfl
  | cons t seed ih => rw [List.foldl_cons, ih, rep_smartInsert]

theorem getParent_eq_smartInsert (U : UnionFind T) (t : T) : U.getParent t = U.smartInsert t := by
  unfold getParent smartInsert
  split
  · next p h =>
    split
    · next q hq => rw [h] at hq; rw [Option.some.inj hq]
    · next hq => rw [h] at hq; cases hq
  · rfl

theorem findLoop_spec :
    ∀ (fuel : ℕ) (U : UnionFind T) (t : T),
      (findLoop fuel U t).1 = UnionForest.climb (parent U.edges) fuel t ∧
        parent (findLoop fuel U t).2.edges = parent U.edges
  | 0, _, _ => ⟨rfl, rfl⟩
  | fuel + 1, U, t => by
    unfold findLoop UnionForest.climb
    simp only [getParent_eq_smartInsert, smartInsert_fst]
    split_ifs with h
    · exact ⟨rfl, parent_smartInsert U t⟩
    · obtain ⟨h₁, h₂⟩ := findLoop_spec fuel (U.smartInsert t).2 (parent U.edges t)
      rw [parent_smartInsert] at h₁ h₂
      exact ⟨h₁, h₂⟩

/-- `find` returns the representative. -/
@[simp] theorem find_fst (U : UnionFind T) (t : T) : (U.find t).1 = U.rep t := by
  unfold find
  rw [(findLoop_spec _ _ _).1, smartInsert_fst]
  have hclimb := (U.smartInsert t).2.forest.climb_eq_rep
    (moved_le_length (U.smartInsert t).2.edges) (parent U.edges t)
  refine hclimb.trans ?_
  change (U.smartInsert t).2.rep (U.forest.parent t) = U.rep t
  rw [rep_smartInsert]
  exact U.forest.rep_parent t

/-- `find` keeps every representative. -/
@[simp] theorem rep_find (U : UnionFind T) (t : T) : (U.find t).2.rep = U.rep := by
  unfold find
  exact rep_congr ((findLoop_spec _ _ _).2.trans (U.parent_smartInsert t))

/-- `UnionFind::connected`. -/
def connected (U : UnionFind T) (t₁ t₂ : T) : Bool × UnionFind T :=
  let (r₁, U) := U.find t₁
  let (r₂, U) := U.find t₂
  (r₁ = r₂, U)

theorem connected_fst (U : UnionFind T) (t₁ t₂ : T) :
    (U.connected t₁ t₂).1 = true ↔ U.rep t₁ = U.rep t₂ := by
  unfold connected
  simp

/-! ### The terms of the map -/

theorem smartInsert_of_mem {U : UnionFind T} {t : T} (h : t ∈ U.keys) :
    U.smartInsert t = (parent U.edges t, U) := by
  unfold smartInsert
  split
  · next p hp => rw [parent_of_lookup_eq_some hp]
  · next hnone =>
    unfold keys at h
    rw [← lookup_isSome_iff, hnone] at h
    cases h

theorem parent_mem_keys {U : UnionFind T} {t : T} (h : t ∈ U.keys) : parent U.edges t ∈ U.keys := by
  have hsome := (lookup_isSome_iff U.edges t).mpr h
  obtain ⟨p, hp⟩ := Option.isSome_iff_exists.mp hsome
  rw [parent_of_lookup_eq_some hp]
  exact U.parent_mem _ (lookup_mem hp)

/-- From a term of the map the loop of `find` inserts nothing. -/
theorem findLoop_of_mem {U : UnionFind T} :
    ∀ (fuel : ℕ) (t : T), t ∈ U.keys →
      (findLoop fuel U t).2 = U ∧ (findLoop fuel U t).1 ∈ U.keys
  | 0, _, h => ⟨rfl, h⟩
  | fuel + 1, t, h => by
    unfold findLoop
    simp only [getParent_eq_smartInsert, smartInsert_of_mem h]
    split_ifs
    · exact ⟨rfl, h⟩
    · exact findLoop_of_mem fuel _ (parent_mem_keys h)

theorem smartInsert_fst_mem_keys (U : UnionFind T) (t : T) :
    (U.smartInsert t).1 ∈ (U.smartInsert t).2.keys := by
  have hmem : t ∈ (U.smartInsert t).2.keys := (U.mem_keys_smartInsert t t).mpr (Or.inl rfl)
  rw [smartInsert_fst, ← parent_smartInsert U t]
  exact parent_mem_keys hmem

theorem find_snd (U : UnionFind T) (t : T) : (U.find t).2 = (U.smartInsert t).2 :=
  (findLoop_of_mem _ _ (U.smartInsert_fst_mem_keys t)).1

theorem mem_keys_find (U : UnionFind T) (t s : T) :
    s ∈ (U.find t).2.keys ↔ s = t ∨ s ∈ U.keys := by
  rw [find_snd, mem_keys_smartInsert]

/-- The representative of a term of the map is a term of the map. -/
theorem rep_mem_keys {U : UnionFind T} {t : T} (h : t ∈ U.keys) : U.rep t ∈ U.keys := by
  have hloop := (findLoop_of_mem (U := U) U.edges.length t h).2
  rw [(findLoop_spec _ _ _).1] at hloop
  have hclimb := U.forest.climb_eq_rep (moved_le_length U.edges) t
  rw [← show _ = U.rep t from hclimb]
  exact hloop

/-- A term outside the map represents itself. -/
theorem rep_of_not_mem_keys {U : UnionFind T} {t : T} (h : t ∉ U.keys) : U.rep t = t := by
  refine U.forest.rep_of_parent_eq (parent_of_lookup_eq_none ?_)
  rw [← Option.not_isSome_iff_eq_none, lookup_isSome_iff]
  exact h

theorem find_fst_mem_keys (U : UnionFind T) (t : T) : (U.find t).1 ∈ (U.find t).2.keys := by
  rw [find_fst, ← rep_find U t]
  exact rep_mem_keys ((U.mem_keys_find t t).mpr (Or.inl rfl))

/-! ### Joining two classes -/

theorem lookup_root {U : UnionFind T} {a : T} (ha : U.rep a = a) :
    lookup U.edges a = none ∨ lookup U.edges a = some a := by
  cases h : lookup U.edges a with
  | none => exact Or.inl rfl
  | some p =>
    have hparent := (U.forest.parent_eq_iff_rep_eq a).mpr ha
    exact Or.inr (congrArg some ((parent_of_lookup_eq_some h).symm.trans hparent))

/-- The edge of the root `a` is redirected to the root `b`. -/
def redirectRoot (U : UnionFind T) (a b : T) (ha : U.rep a = a) (hb : U.rep b = b)
    (hkeys : b ∈ U.keys) : UnionFind T where
  edges := redirect a b U.edges
  keys_nodup := by
    rw [map_fst_redirect]
    exact U.keys_nodup
  parent_mem := by
    intro e he
    rw [map_fst_redirect]
    rcases mem_redirect he with rfl | he
    · exact hkeys
    · exact U.parent_mem e he
  rooted := by
    by_cases hab : a = b
    · rw [redirect_of_lookup_ne ((lookup_root ha).imp_right fun h ↦ ⟨h, hab⟩)]
      exact U.rooted
    · rcases lookup_root ha with h | h
      · rw [redirect_of_lookup_ne (Or.inl h)]
        exact U.rooted
      · have hmem : a ∈ U.edges.map Prod.fst := (lookup_isSome_iff _ _).mp (by rw [h]; rfl)
        rw [parent_redirect hmem, moved_redirect h hab]
        exact (U.forest.link ha hb hab).rooted

/-- `UnionFind::quick_union`. -/
def quickUnion (U : UnionFind T) (t₁ t₂ : T) : UnionFind T :=
  let i₁ := U.smartInsert t₁
  let i₂ := i₁.2.smartInsert t₂
  let root₁ := i₂.2.find i₁.1
  let root₂ := root₁.2.find i₂.1
  root₂.2.redirectRoot root₁.1 root₂.1 (by simp [root₂, root₁]) (by simp [root₂])
    (find_fst_mem_keys root₁.2 i₂.1)

theorem mem_keys_redirectRoot (U : UnionFind T) {a b : T} (ha : U.rep a = a) (hb : U.rep b = b)
    (hkeys : b ∈ U.keys) (t : T) : t ∈ (U.redirectRoot a b ha hb hkeys).keys ↔ t ∈ U.keys := by
  unfold keys redirectRoot
  rw [map_fst_redirect]

theorem rep_redirectRoot (U : UnionFind T) {a b : T} (ha : U.rep a = a) (hb : U.rep b = b)
    (hkeys : b ∈ U.keys) (hmem : a ∈ U.keys) (t : T) :
    (U.redirectRoot a b ha hb hkeys).rep t = if U.rep t = a then b else U.rep t := by
  by_cases hab : a = b
  · have hedges : (U.redirectRoot a b ha hb hkeys).edges = U.edges :=
      redirect_of_lookup_ne ((lookup_root ha).imp_right fun h ↦ ⟨h, hab⟩)
    rw [rep_congr (congrArg parent hedges)]
    split_ifs with h
    · exact h.trans hab
    · rfl
  · have hlink := UnionForest.rep_congr (F := (U.redirectRoot a b ha hb hkeys).forest)
      (G := U.forest.link ha hb hab) (parent_redirect hmem) t
    exact hlink.trans (UnionForest.rep_link ha hb hab t)

/-- `quickUnion` moves the class of its first argument below the root of the second. -/
theorem rep_quickUnion (U : UnionFind T) (t₁ t₂ t : T) :
    (U.quickUnion t₁ t₂).rep t = if U.rep t = U.rep t₁ then U.rep t₂ else U.rep t := by
  have hrep : ∀ s p : T, p = parent U.edges s → U.rep p = U.rep s := by
    rintro s p rfl
    exact U.forest.rep_parent s
  unfold quickUnion
  rw [rep_redirectRoot]
  · have hfst : ((U.smartInsert t₁).2.smartInsert t₂).1 = parent U.edges t₂ := by
      rw [smartInsert_fst, parent_smartInsert]
    simp only [find_fst, rep_find, rep_smartInsert, hrep t₁ _ (U.smartInsert_fst t₁),
      hrep t₂ _ hfst]
  · exact (mem_keys_find _ _ _).mpr (Or.inr (find_fst_mem_keys _ _))

/-- Joining two roots makes the second the parent of the first. -/
theorem rep_quickUnion_of_roots (U : UnionFind T) {a b : T} (ha : U.rep a = a) (hb : U.rep b = b)
    (hab : a ≠ b) : (U.quickUnion a b).rep = (U.forest.link ha hb hab).rep := by
  funext t
  rw [rep_quickUnion, ha, hb]
  exact (UnionForest.rep_link ha hb hab t).symm

end UnionFind

end Sipc
