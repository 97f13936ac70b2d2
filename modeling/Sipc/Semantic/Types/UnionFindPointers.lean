import Mathlib.Data.List.Perm.Basic
import Mathlib.Logic.Relation
import Mathlib.Order.Filter.AtTopBot.Basic
import Sipc.Semantic.Types.UnionFind

/-!
# The union-find structure over pointers

`UnionFind` keeps a `std::map` from pointers to pointers, ordered by address, and looks a term up by
comparing the terms that the keys point to. Here a pointer is an address and `deref` gives the term
at each address; distinct addresses may hold equal terms. The map is a list in the order of its keys.

`Models m U` says that the map `m` holds, up to its order, the edges of the structure `U` over terms.
Every operation on pointers simulates the operation on terms (`models_find`, `models_quickUnion`), so
the map never has two keys with equal terms, every search ends, and the classes are those of the
equivalence that the unions generate (`unionFind_correct`).
-/

set_option autoImplicit false
set_option relaxedAutoImplicit false

namespace Sipc

open Filter Library Relation

/-- A `shared_ptr` to a term, told apart by its address. -/
abbrev TypePtr := ℕ

/-- `std::map<std::shared_ptr<TipType>, std::shared_ptr<TipType>>`, in the order of the keys. -/
abbrev EdgeMap := List (TypePtr × TypePtr)

namespace EdgeMap

/-- `std::map::insert`: a key that is there keeps its value. -/
def insert (e : TypePtr × TypePtr) : EdgeMap → EdgeMap
  | [] => [e]
  | d :: m => if e.1 < d.1 then e :: d :: m else if e.1 = d.1 then d :: m else d :: insert e m

/-- `std::map::erase`. -/
def erase (k : TypePtr) (m : EdgeMap) : EdgeMap :=
  m.filter fun e ↦ e.1 ≠ k

section Operations

variable {T : Type} [DecidableEq T] (deref : TypePtr → T)

/-- `equalType`. -/
def equalType (t₁ t₂ : TypePtr) : Bool :=
  deref t₁ = deref t₂

/-- `UnionFind::lookup`. -/
def lookup (m : EdgeMap) (t : TypePtr) : Option TypePtr :=
  (m.find? fun e ↦ equalType deref t e.1).map Prod.snd

/-- `UnionFind::smart_insert`: the parent of a term that is there, and else the new key. -/
def smartInsert (m : EdgeMap) (t : TypePtr) : TypePtr × EdgeMap :=
  match lookup deref m t with
  | some p => (p, m)
  | none => (t, insert (t, t) m)

/-- The constructor from a seed, and `UnionFind::add`. -/
def add (m : EdgeMap) (seed : List TypePtr) : EdgeMap :=
  seed.foldl (fun m term ↦ (smartInsert deref m term).2) m

/-- `UnionFind::get_parent`. -/
def getParent (m : EdgeMap) (t : TypePtr) : TypePtr × EdgeMap :=
  match lookup deref m t with
  | some p => (p, m)
  | none => smartInsert deref m t

/-- The loop of `UnionFind::find`; the parent is looked up in the condition and again in the body. -/
def findLoop : ℕ → EdgeMap → TypePtr → Option (TypePtr × EdgeMap)
  | 0, _, _ => none
  | fuel + 1, m, parent =>
    let next := getParent deref m parent
    if equalType deref next.1 parent then some (parent, next.2)
    else
      let next := getParent deref next.2 parent
      findLoop fuel next.2 next.1

/-- `UnionFind::find`; `none` when the loop does not end within `fuel` rounds. -/
def find (fuel : ℕ) (m : EdgeMap) (t : TypePtr) : Option (TypePtr × EdgeMap) :=
  let i := smartInsert deref m t
  findLoop deref fuel i.2 i.1

/-- The loop of `quick_union`: the first edge whose key equals `root₁` is replaced. -/
def replaceEdge (m : EdgeMap) (root₁ root₂ : TypePtr) : EdgeMap :=
  match m.find? fun e ↦ equalType deref root₁ e.1 with
  | some e => insert (root₁, root₂) (erase e.1 m)
  | none => m

/-- `UnionFind::quick_union`. -/
def quickUnion (fuel : ℕ) (m : EdgeMap) (t₁ t₂ : TypePtr) : Option EdgeMap := do
  let i₁ := smartInsert deref m t₁
  let i₂ := smartInsert deref i₁.2 t₂
  let (root₁, m) ← find deref fuel i₂.2 i₁.1
  let (root₂, m) ← find deref fuel m i₂.1
  return replaceEdge deref m root₁ root₂

/-- `UnionFind::connected`. -/
def connected (fuel : ℕ) (m : EdgeMap) (t₁ t₂ : TypePtr) : Option (Bool × EdgeMap) := do
  let (root₁, m) ← find deref fuel m t₁
  let (root₂, m) ← find deref fuel m t₂
  return (equalType deref root₁ root₂, m)

/-- The operations on a union-find structure. -/
inductive Operation
  | add (seed : List TypePtr)
  | find (t : TypePtr)
  | quickUnion (t₁ t₂ : TypePtr)
  | connected (t₁ t₂ : TypePtr)

/-- The effect of one operation. -/
def step (fuel : ℕ) (m : EdgeMap) : Operation → Option EdgeMap
  | .add seed => some (add deref m seed)
  | .find t => (find deref fuel m t).map Prod.snd
  | .quickUnion t₁ t₂ => quickUnion deref fuel m t₁ t₂
  | .connected t₁ t₂ => (connected deref fuel m t₁ t₂).map Prod.snd

/-- A structure constructed from a seed, after a sequence of operations. -/
def run (fuel : ℕ) (seed : List TypePtr) (ops : List Operation) : Option EdgeMap :=
  ops.foldlM (step deref fuel) (add deref [] seed)

/-- The pairs that an operation unites. -/
def Operation.united : Operation → List (TypePtr × TypePtr)
  | .quickUnion t₁ t₂ => [(t₁, t₂)]
  | _ => []

/-- The least equivalence of terms that holds the pairs given to `quick_union`. -/
def SameClass (ops : List Operation) : T → T → Prop :=
  EqvGen fun x y ↦ ∃ e ∈ ops.flatMap Operation.united, deref e.1 = x ∧ deref e.2 = y

/-- A call ends, and returns `a`: it does with every large enough fuel. -/
def Returns {α : Type} (call : ℕ → Option α) (a : α) : Prop :=
  ∀ᶠ fuel in atTop, call fuel = some a

/-- `find` ends on `t`, and returns a pointer to the term `x`. -/
def Represents (m : EdgeMap) (t : TypePtr) (x : T) : Prop :=
  ∃ r m', Returns (fun fuel ↦ find deref fuel m t) (r, m') ∧ deref r = x

/-- What the map promises after a sequence of operations. -/
structure Correct (ops : List Operation) (m : EdgeMap) : Prop where
  keys_nodup : (m.map fun e ↦ deref e.1).Nodup
  parent_mem : ∀ e ∈ m, ∃ d ∈ m, deref d.1 = deref e.2
  acyclic : ∀ x, ¬ TransGen (fun s p ↦ ∃ e ∈ m, deref e.1 = s ∧ deref e.2 = p ∧ s ≠ p) x x
  represents : ∀ t, ∃ x, Represents deref m t x ∧ SameClass deref ops (deref t) x
  represents_eq : ∀ {s t x y}, Represents deref m s x → Represents deref m t y →
    SameClass deref ops (deref s) (deref t) → x = y
  connected : ∀ s t, ∃ b m', Returns (fun fuel ↦ connected deref fuel m s t) (b, m') ∧
    (b = true ↔ SameClass deref ops (deref s) (deref t))

end Operations

/-! ### The map holds the edges of a structure over terms -/

section Models

variable {T : Type} [DecidableEq T] {deref : TypePtr → T}

/-- The edges of the map, as terms. -/
def terms (deref : TypePtr → T) (m : EdgeMap) : List (T × T) :=
  m.map fun e ↦ (deref e.1, deref e.2)

/-- Up to its order, the map holds the edges of `U`. -/
def Models (deref : TypePtr → T) (m : EdgeMap) (U : UnionFind T) : Prop :=
  (terms deref m).Perm U.edges

theorem Edges.lookup_eq_some_iff {es : List (T × T)} (hnodup : (es.map Prod.fst).Nodup) {t p : T} :
    Edges.lookup es t = some p ↔ (t, p) ∈ es := by
  refine ⟨Edges.lookup_mem, fun h ↦ ?_⟩
  induction es with
  | nil => cases h
  | cons e es ih =>
    obtain ⟨he, hes⟩ := List.nodup_cons.mp hnodup
    unfold Edges.lookup
    rcases List.mem_cons.mp h with rfl | h
    · rw [if_pos rfl]
    · rw [if_neg, ih hes h]
      rintro rfl
      exact he (List.mem_map.mpr ⟨_, h, rfl⟩)

variable {m : EdgeMap} {U : UnionFind T}

theorem Models.keys_perm (h : Models deref m U) :
    ((terms deref m).map Prod.fst).Perm U.keys :=
  h.map Prod.fst

omit [DecidableEq T] in
theorem map_fst_terms (m : EdgeMap) :
    (terms deref m).map Prod.fst = m.map fun e ↦ deref e.1 := by
  unfold terms
  rw [List.map_map]
  rfl

/-- No two keys of the map point to equal terms. -/
theorem Models.nodup (h : Models deref m U) : (m.map fun e ↦ deref e.1).Nodup := by
  rw [← map_fst_terms]
  exact h.keys_perm.nodup_iff.mpr U.keys_nodup

theorem map_lookup (m : EdgeMap) (a : TypePtr) :
    (lookup deref m a).map deref = Edges.lookup (terms deref m) (deref a) := by
  induction m with
  | nil => rfl
  | cons e m ih =>
    unfold lookup terms at ih ⊢
    rw [List.map_cons, Edges.lookup, List.find?_cons]
    by_cases h : deref a = deref e.1
    · simp [equalType, h]
    · simp only [equalType, h, decide_false, if_false]
      exact ih

/-- Looking a pointer up gives a pointer to the parent. -/
theorem Models.map_lookup (h : Models deref m U) (a : TypePtr) :
    (lookup deref m a).map deref = Edges.lookup U.edges (deref a) := by
  rw [EdgeMap.map_lookup]
  refine Option.ext fun p ↦ ?_
  rw [Edges.lookup_eq_some_iff, Edges.lookup_eq_some_iff U.keys_nodup, h.mem_iff]
  exact h.keys_perm.nodup_iff.mpr U.keys_nodup

theorem insert_perm {e : TypePtr × TypePtr} :
    ∀ {m : EdgeMap}, e.1 ∉ m.map Prod.fst → (insert e m).Perm (e :: m)
  | [], _ => List.Perm.refl _
  | d :: m, h => by
    rw [List.map_cons, List.mem_cons, not_or] at h
    unfold insert
    split_ifs with hlt heq
    · exact List.Perm.refl _
    · exact absurd heq h.1
    · exact ((insert_perm h.2).cons d).trans (List.Perm.swap e d m)

omit [DecidableEq T] in
/-- Maps that agree up to their order hold the same terms up to their order. -/
theorem terms_perm {m m' : EdgeMap} (h : m.Perm m') : (terms deref m).Perm (terms deref m') :=
  h.map fun e : TypePtr × TypePtr ↦ (deref e.1, deref e.2)

theorem models_smartInsert (h : Models deref m U) (a : TypePtr) :
    deref (smartInsert deref m a).1 = Edges.parent U.edges (deref a) ∧
      Models deref (smartInsert deref m a).2 (U.smartInsert (deref a)).2 := by
  have hlookup := h.map_lookup a
  unfold smartInsert
  cases hp : lookup deref m a with
  | some p =>
    rw [hp, Option.map_some] at hlookup
    have hmem : deref a ∈ U.keys := (Edges.lookup_isSome_iff _ _).mp (by rw [← hlookup]; rfl)
    rw [UnionFind.smartInsert_of_mem hmem]
    exact ⟨(Edges.parent_of_lookup_eq_some hlookup.symm).symm, h⟩
  | none =>
    rw [hp, Option.map_none] at hlookup
    have hnew : a ∉ m.map Prod.fst := by
      intro hmem
      obtain ⟨e, he, rfl⟩ := List.mem_map.mp hmem
      have hkey : deref e.1 ∈ U.keys := h.keys_perm.mem_iff.mp
        (List.mem_map.mpr ⟨(deref e.1, deref e.2), List.mem_map.mpr ⟨e, he, rfl⟩, rfl⟩)
      have hsome := (Edges.lookup_isSome_iff U.edges _).mpr hkey
      rw [← hlookup] at hsome
      cases hsome
    have hU : (U.smartInsert (deref a)).2.edges = (deref a, deref a) :: U.edges := by
      unfold UnionFind.smartInsert
      split
      · next p hp => rw [← hlookup] at hp; cases hp
      · rfl
    refine ⟨(Edges.parent_of_lookup_eq_none hlookup.symm).symm, ?_⟩
    unfold Models
    rw [hU]
    exact (terms_perm (insert_perm hnew)).trans (List.Perm.cons _ h)

theorem models_add (seed : List TypePtr) :
    ∀ {m : EdgeMap} {U : UnionFind T}, Models deref m U →
      Models deref (add deref m seed) (U.add (seed.map deref)) := by
  induction seed with
  | nil => exact id
  | cons a seed ih =>
    intro m U h
    exact ih (models_smartInsert h a).2

theorem getParent_eq_smartInsert (m : EdgeMap) (a : TypePtr) :
    getParent deref m a = smartInsert deref m a := by
  unfold getParent smartInsert
  cases lookup deref m a <;> rfl

/-- From a key of the map the loop of `find` inserts nothing and ends at the representative. -/
theorem models_findLoop (h : Models deref m U) :
    ∀ (n fuel : ℕ) (a : TypePtr), n < fuel → deref a ∈ U.keys →
      Edges.parent U.edges ((Edges.parent U.edges)^[n] (deref a)) =
        (Edges.parent U.edges)^[n] (deref a) →
      ∃ r, findLoop deref fuel m a = some (r, m) ∧ deref r = U.rep (deref a)
  | n, fuel + 1, a, hn, hkey, hroot => by
    have hparent := (models_smartInsert h a).1
    have hsame : (smartInsert deref m a).2 = m := by
      have hsome := (Edges.lookup_isSome_iff U.edges _).mpr hkey
      rw [← h.map_lookup, Option.isSome_map] at hsome
      obtain ⟨p, hp⟩ := Option.isSome_iff_exists.mp hsome
      unfold smartInsert
      rw [hp]
    set p := (smartInsert deref m a).1 with hp
    have hpair : smartInsert deref m a = (p, m) := Prod.ext rfl hsame
    unfold findLoop
    simp only [getParent_eq_smartInsert, hpair, equalType, hparent, decide_eq_true_eq]
    split_ifs with heq
    · exact ⟨a, rfl, (U.forest.rep_of_parent_eq heq).symm⟩
    · cases n with
      | zero => exact absurd hroot heq
      | succ n =>
        rw [Function.iterate_succ_apply, ← hparent] at hroot
        obtain ⟨r, hr, hrep⟩ := models_findLoop h n fuel p (Nat.lt_of_succ_lt_succ hn)
          (hparent ▸ UnionFind.parent_mem_keys hkey) hroot
        refine ⟨r, hr, hrep.trans ?_⟩
        rw [hparent]
        exact U.forest.rep_parent (deref a)

/-- More rounds of the loop do not change its result. -/
theorem findLoop_mono {x : TypePtr × EdgeMap} :
    ∀ {fuel fuel' : ℕ} {m : EdgeMap} {a : TypePtr}, fuel ≤ fuel' →
      findLoop deref fuel m a = some x → findLoop deref fuel' m a = some x
  | fuel + 1, fuel' + 1, m, a, hle, h => by
    unfold findLoop at h ⊢
    dsimp only at h ⊢
    split_ifs at h ⊢
    · exact h
    · exact findLoop_mono (Nat.le_of_succ_le_succ hle) h

/-- With enough fuel, `find` returns a pointer to the representative. -/
theorem models_find (h : Models deref m U) (a : TypePtr) :
    ∃ r m', Returns (fun fuel ↦ find deref fuel m a) (r, m') ∧
      deref r = U.rep (deref a) ∧ Models deref m' (U.find (deref a)).2 := by
  obtain ⟨hfst, hmodels⟩ := models_smartInsert h a
  set i := smartInsert deref m a with hi
  set U₁ := (U.smartInsert (deref a)).2 with hU₁
  have hkey : deref i.1 ∈ U₁.keys := by
    rw [hfst, ← UnionFind.smartInsert_fst]
    exact U.smartInsert_fst_mem_keys (deref a)
  have hloop := fun fuel hfuel ↦ models_findLoop hmodels _ fuel i.1 hfuel hkey (U₁.rooted _)
  obtain ⟨r, hr, hrep⟩ := hloop _ (Nat.lt_succ_self _)
  refine ⟨r, i.2, ?_, ?_, by rw [UnionFind.find_snd]; exact hmodels⟩
  · filter_upwards [eventually_gt_atTop (Edges.moved U₁.edges)] with fuel hfuel
    exact findLoop_mono (Nat.succ_le_of_lt hfuel) hr
  · rw [hrep, UnionFind.rep_smartInsert, hfst]
    exact U.forest.rep_parent (deref a)

theorem Edges.redirect_perm {es : List (T × T)} (hnodup : (es.map Prod.fst).Nodup) {a b : T}
    (ha : a ∈ es.map Prod.fst) :
    (Edges.redirect a b es).Perm ((a, b) :: es.filter fun e ↦ e.1 ≠ a) := by
  induction es with
  | nil => cases ha
  | cons e es ih =>
    obtain ⟨he, hes⟩ := List.nodup_cons.mp hnodup
    unfold Edges.redirect
    by_cases hae : a = e.1
    · subst hae
      have hrest : (es.filter fun d ↦ d.1 ≠ e.1) = es := List.filter_eq_self.mpr fun d hd ↦
        decide_eq_true fun h ↦ he (h ▸ List.mem_map_of_mem hd)
      rw [if_pos rfl, List.filter_cons_of_neg (by simp), hrest]
    · rw [if_neg hae, List.filter_cons_of_pos (by simpa using Ne.symm hae)]
      rw [List.map_cons, List.mem_cons] at ha
      exact ((ih hes (ha.resolve_left hae)).cons e).trans (List.Perm.swap _ _ _)

/-- The edge that leaves `root₁` is replaced, and no other. -/
theorem models_replaceEdge (h : Models deref m U) {root₁ : TypePtr} (root₂ : TypePtr)
    (hkey : deref root₁ ∈ U.keys) :
    (terms deref (replaceEdge deref m root₁ root₂)).Perm
      (Edges.redirect (deref root₁) (deref root₂) U.edges) := by
  have hsome := (Edges.lookup_isSome_iff U.edges _).mpr hkey
  rw [← h.map_lookup, Option.isSome_map] at hsome
  unfold lookup at hsome
  rw [Option.isSome_map] at hsome
  obtain ⟨e, he⟩ := Option.isSome_iff_exists.mp hsome
  have hmem := List.mem_of_find?_eq_some he
  have heq : deref root₁ = deref e.1 := by
    have hfound := List.find?_some he
    exact of_decide_eq_true hfound
  have honly : ∀ d ∈ m, deref d.1 = deref e.1 → d = e := fun d hd hde ↦
    List.inj_on_of_nodup_map h.nodup hd hmem hde
  have hnew : root₁ ∉ (erase e.1 m).map Prod.fst := by
    intro hroot
    obtain ⟨d, hd, hdroot⟩ := List.mem_map.mp hroot
    obtain ⟨hdm, hde⟩ := List.mem_filter.mp hd
    rw [honly d hdm (by rw [hdroot, heq])] at hde
    exact of_decide_eq_true hde rfl
  have herase : terms deref (erase e.1 m) =
      (terms deref m).filter fun d ↦ d.1 ≠ deref root₁ := by
    unfold terms erase
    rw [List.filter_map]
    refine congrArg _ (List.filter_congr fun d hd ↦ decide_eq_decide.mpr (not_congr ?_))
    change d.1 = e.1 ↔ deref d.1 = deref root₁
    rw [heq]
    exact ⟨congrArg deref, fun hde ↦ congrArg Prod.fst (honly d hd hde)⟩
  unfold replaceEdge
  rw [he]
  refine (terms_perm (insert_perm (e := (root₁, root₂)) hnew)).trans ?_
  refine List.Perm.trans ?_ (Edges.redirect_perm U.keys_nodup hkey).symm
  unfold terms at herase ⊢
  rw [List.map_cons, herase]
  exact List.Perm.cons _ (h.filter _)

/-- With enough fuel, `quick_union` returns a map for the joined structure. -/
theorem models_quickUnion (h : Models deref m U) (s t : TypePtr) :
    ∃ m', Returns (fun fuel ↦ quickUnion deref fuel m s t) m' ∧
      Models deref m' (U.quickUnion (deref s) (deref t)) := by
  obtain ⟨hfst₁, h₁⟩ := models_smartInsert h s
  obtain ⟨hfst₂, h₂⟩ := models_smartInsert h₁ t
  obtain ⟨root₁, m₁, hrun₁, hroot₁, h₃⟩ := models_find h₂ (smartInsert deref m s).1
  obtain ⟨root₂, m₂, hrun₂, hroot₂, h₄⟩ :=
    models_find h₃ (smartInsert deref (smartInsert deref m s).2 t).1
  refine ⟨replaceEdge deref m₂ root₁ root₂, ?_, ?_⟩
  · filter_upwards [hrun₁, hrun₂] with fuel hfuel₁ hfuel₂
    simp only [quickUnion, hfuel₁, hfuel₂, Option.bind_eq_bind, Option.bind_some, Option.pure_def]
  · rw [← UnionFind.smartInsert_fst] at hfst₁ hfst₂
    rw [hfst₁] at hroot₁ h₃ hroot₂ h₄
    rw [hfst₂] at hroot₂ h₄
    rw [← UnionFind.find_fst] at hroot₁ hroot₂
    unfold UnionFind.quickUnion Models UnionFind.redirectRoot
    dsimp only
    rw [← hroot₁, ← hroot₂]
    refine models_replaceEdge h₄ root₂ ?_
    rw [hroot₁]
    exact (UnionFind.mem_keys_find _ _ _).mpr (Or.inr (UnionFind.find_fst_mem_keys _ _))

/-- With enough fuel, `connected` compares the representatives. -/
theorem models_connected (h : Models deref m U) (s t : TypePtr) :
    ∃ b m', Returns (fun fuel ↦ connected deref fuel m s t) (b, m') ∧
      (b = true ↔ U.rep (deref s) = U.rep (deref t)) ∧
      Models deref m' (U.connected (deref s) (deref t)).2 := by
  obtain ⟨root₁, m₁, hrun₁, hroot₁, h₁⟩ := models_find h s
  obtain ⟨root₂, m₂, hrun₂, hroot₂, h₂⟩ := models_find h₁ t
  refine ⟨equalType deref root₁ root₂, m₂, ?_, ?_, h₂⟩
  · filter_upwards [hrun₁, hrun₂] with fuel hfuel₁ hfuel₂
    simp only [connected, hfuel₁, hfuel₂, Option.bind_eq_bind, Option.bind_some, Option.pure_def]
  · rw [equalType, decide_eq_true_iff, hroot₁, hroot₂, UnionFind.rep_find]

/-! ### Runs -/

theorem Returns.unique {α : Type} {call : ℕ → Option α} {a b : α} (ha : Returns call a)
    (hb : Returns call b) : a = b := by
  obtain ⟨fuel, hfuel₁, hfuel₂⟩ := (ha.and hb).exists
  exact Option.some.inj (hfuel₁.symm.trans hfuel₂)

theorem Models.represents_iff (h : Models deref m U) (t : TypePtr) (x : T) :
    Represents deref m t x ↔ x = U.rep (deref t) := by
  obtain ⟨r, m', hrun, hrep, -⟩ := models_find h t
  constructor
  · rintro ⟨r', m'', hrun', rfl⟩
    exact (congrArg (fun i ↦ deref i.1) (hrun'.unique hrun)).trans hrep
  · rintro rfl
    exact ⟨r, m', hrun, hrep⟩

/-- The representatives of `U` name the classes of the operations. -/
def Names (deref : TypePtr → T) (ops : List Operation) (U : UnionFind T) : Prop :=
  ∀ x y, U.rep x = U.rep y ↔ SameClass deref ops x y

theorem Models.correct (h : Models deref m U) {ops : List Operation}
    (hnames : Names deref ops U) : Correct deref ops m where
  keys_nodup := h.nodup
  parent_mem := by
    intro e he
    have hedge : (deref e.1, deref e.2) ∈ U.edges := h.mem_iff.mp (List.mem_map.mpr ⟨e, he, rfl⟩)
    have hkey := h.keys_perm.mem_iff.mpr (U.parent_mem _ hedge)
    rw [map_fst_terms] at hkey
    exact List.mem_map.mp hkey
  acyclic := by
    intro x hcycle
    refine U.forest.not_transGen_parent x (TransGen.mono ?_ x x hcycle)
    rintro s p ⟨e, he, rfl, rfl, hne⟩
    have hedge : (deref e.1, deref e.2) ∈ U.edges := h.mem_iff.mp (List.mem_map.mpr ⟨e, he, rfl⟩)
    exact ⟨Edges.parent_of_lookup_eq_some ((Edges.lookup_eq_some_iff U.keys_nodup).mpr hedge), hne⟩
  represents := fun t ↦ ⟨U.rep (deref t), (h.represents_iff t _).mpr rfl,
    (hnames _ _).mp (U.rep_rep (deref t)).symm⟩
  represents_eq := by
    intro s t x y hx hy hst
    rw [(h.represents_iff s x).mp hx, (h.represents_iff t y).mp hy]
    exact (hnames _ _).mpr hst
  connected := by
    intro s t
    obtain ⟨b, m', hrun, hb, -⟩ := models_connected h s t
    exact ⟨b, m', hrun, hb.trans (hnames _ _)⟩

/-- The effect of one operation on the structure over terms. -/
def termStep (deref : TypePtr → T) (U : UnionFind T) : Operation → UnionFind T
  | .add seed => U.add (seed.map deref)
  | .find t => (U.find (deref t)).2
  | .quickUnion t₁ t₂ => U.quickUnion (deref t₁) (deref t₂)
  | .connected t₁ t₂ => (U.connected (deref t₁) (deref t₂)).2

/-- Every operation ends, and simulates the operation on terms. -/
theorem models_step (h : Models deref m U) (op : Operation) :
    ∃ m', Returns (fun fuel ↦ step deref fuel m op) m' ∧ Models deref m' (termStep deref U op) := by
  cases op with
  | add seed => exact ⟨_, Eventually.of_forall fun _ ↦ rfl, models_add seed h⟩
  | find t =>
    obtain ⟨r, m', hrun, -, h'⟩ := models_find h t
    exact ⟨m', hrun.mono fun fuel hfuel ↦ congrArg (Option.map Prod.snd) hfuel, h'⟩
  | quickUnion t₁ t₂ => exact models_quickUnion h t₁ t₂
  | connected t₁ t₂ =>
    obtain ⟨b, m', hrun, -, h'⟩ := models_connected h t₁ t₂
    exact ⟨m', hrun.mono fun fuel hfuel ↦ congrArg (Option.map Prod.snd) hfuel, h'⟩

/-- Only `quick_union` changes a representative. -/
theorem rep_termStep {op : Operation} (hop : op.united = []) : (termStep deref U op).rep = U.rep := by
  cases op with
  | add seed => exact U.rep_add _
  | find t => exact U.rep_find _
  | quickUnion t₁ t₂ => cases hop
  | connected t₁ t₂ =>
    unfold termStep UnionFind.connected
    simp

omit [DecidableEq T] in
theorem sameClass_append_of_united_eq_nil {ops : List Operation} {op : Operation}
    (hop : op.united = []) : SameClass deref (ops ++ [op]) = SameClass deref ops := by
  unfold SameClass
  rw [List.flatMap_append, List.flatMap_singleton, hop, List.append_nil]

theorem names_termStep {ops : List Operation} (hnames : Names deref ops U) (op : Operation) :
    Names deref (ops ++ [op]) (termStep deref U op) := by
  by_cases hop : op.united = []
  · unfold Names
    rw [rep_termStep hop, sameClass_append_of_united_eq_nil hop]
    exact hnames
  · cases op with
    | quickUnion s t =>
      have hmerge := UnionForest.merge_eq_iff_eqvGen hnames
        (U.rep_quickUnion (deref s) (deref t))
      intro x y
      refine (hmerge x y).trans (iff_of_eq (congrFun (congrFun (congrArg EqvGen ?_) x) y))
      funext x y
      refine propext ?_
      simp only [List.flatMap_append, List.flatMap_singleton, Operation.united, List.mem_append,
        List.mem_singleton]
      constructor
      · rintro (⟨e, he, h⟩ | ⟨rfl, rfl⟩)
        · exact ⟨e, Or.inl he, h⟩
        · exact ⟨(s, t), Or.inr rfl, rfl, rfl⟩
      · rintro ⟨e, he | rfl, h⟩
        · exact Or.inl ⟨e, he, h⟩
        · exact Or.inr ⟨h.1.symm, h.2.symm⟩
    | add seed => exact absurd rfl hop
    | find t => exact absurd rfl hop
    | connected t₁ t₂ => exact absurd rfl hop

/-- Every run ends, in a map for a structure whose representatives name the classes. -/
theorem models_run (deref : TypePtr → T) (seed : List TypePtr) (ops : List Operation) :
    ∃ m U, Returns (fun fuel ↦ run deref fuel seed ops) m ∧ Models deref m U ∧
      Names deref ops U := by
  induction ops using List.reverseRecOn with
  | nil =>
    refine ⟨add deref [] seed, UnionFind.empty.add (seed.map deref), Eventually.of_forall fun _ ↦ rfl,
      models_add seed (List.Perm.refl _), fun x y ↦ ?_⟩
    rw [UnionFind.rep_add]
    constructor
    · rintro (rfl : x = y)
      exact EqvGen.refl x
    · intro h
      induction h with
      | rel x y h => obtain ⟨e, he, -⟩ := h; cases he
      | refl x => rfl
      | symm x y _ ih => exact ih.symm
      | trans x y z _ _ ih₁ ih₂ => exact ih₁.trans ih₂
  | append_singleton ops op ih =>
    obtain ⟨m, U, hrun, h, hnames⟩ := ih
    obtain ⟨m', hstep, h'⟩ := models_step h op
    refine ⟨m', termStep deref U op, ?_, h', names_termStep hnames op⟩
    filter_upwards [hrun, hstep] with fuel hfuel₁ hfuel₂
    unfold run at hfuel₁ ⊢
    simp only [List.foldlM_append, hfuel₁, Option.bind_eq_bind, Option.bind_some, List.foldlM_cons,
      List.foldlM_nil, hfuel₂, Option.pure_def]

end Models

variable {T : Type} [DecidableEq T]

/-- Every sequence of operations ends in a correct map. The next operation ends in one too; it keeps
every representative, except that `quick_union` gives the class it makes the representative that its
second argument had. -/
theorem unionFind_correct (deref : TypePtr → T) (seed : List TypePtr) (ops : List Operation) :
    ∃ m, Returns (fun fuel ↦ run deref fuel seed ops) m ∧ Correct deref ops m ∧
      ∀ op, ∃ m', Returns (fun fuel ↦ step deref fuel m op) m' ∧ Correct deref (ops ++ [op]) m' ∧
        (op.united = [] → SameClass deref (ops ++ [op]) = SameClass deref ops ∧
          ∀ t x, Represents deref m' t x ↔ Represents deref m t x) ∧
        (∀ s t, op = .quickUnion s t → ∀ u x, SameClass deref (ops ++ [op]) (deref u) (deref s) →
          Represents deref m t x → Represents deref m' u x) := by
  obtain ⟨m, U, hrun, h, hnames⟩ := models_run deref seed ops
  refine ⟨m, hrun, h.correct hnames, fun op ↦ ?_⟩
  obtain ⟨m', hstep, h'⟩ := models_step h op
  have hnames' := names_termStep hnames op
  refine ⟨m', hstep, h'.correct hnames', fun hop ↦
    ⟨sameClass_append_of_united_eq_nil hop, fun t x ↦ ?_⟩, ?_⟩
  · rw [h.represents_iff, h'.represents_iff, rep_termStep hop]
  · rintro s t rfl u x hu hx
    rw [h.represents_iff] at hx
    rw [h'.represents_iff, (hnames' _ _).mpr hu, hx]
    refine Eq.trans ?_ (U.rep_quickUnion (deref s) (deref t) (deref s)).symm
    rw [if_pos rfl]

end EdgeMap

end Sipc
