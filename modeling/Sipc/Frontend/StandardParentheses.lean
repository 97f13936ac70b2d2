import Mathlib.Algebra.Order.Ring.Int
import Mathlib.Tactic.Linarith
import Mathlib.Tactic.Ring
import Sipc.Frontend.Groups

/-!
# Standard parentheses

A printed expression has parentheses around every binary operation and every `not`, around the operand
of every unary minus, and nowhere else (`ExprContext.Standard`). When operations count their sizes, a
tree counts at most what its parentheses do (`ExprContext.bounded`), and as much only where they are
standard (`ExprContext.tight`). So a tree with the tokens of a standard one, whose operations have the
same sizes, is standard too (`standard_of_tokens_eq`).
-/

set_option autoImplicit false
set_option relaxedAutoImplicit false

namespace Sipc

/-! ### Sizes of operations -/

/-- What a node counts that has `n` nodes below it: a binary operation or a `not` its size, a unary
minus that of its operand. -/
def NodeLabel.weight (n : ℕ) : NodeLabel → ℤ
  | .binary _ | .not => n + 1
  | .neg => -n
  | _ => 0

mutual

/-- What the nodes count together. -/
def Shape.weight : Shape → ℤ
  | .node label children => label.weight (Shape.sizeList children) + Shape.weightList children

def Shape.weightList : List Shape → ℤ
  | [] => 0
  | c :: cs => c.weight + Shape.weightList cs

end

/-- A bound for a part is one for the whole. -/
theorem le_add_mul {w v : ℤ} {k n : ℕ} (m : ℕ) (h : w ≤ v + k * n) (hn : n ≤ m) :
    w ≤ v + k * m := by
  have hmul : k * n ≤ k * m := Nat.mul_le_mul_left k hn
  omega

/-- The operations count at most what the parentheses count, and the whole tree for each operation
that is not in any. -/
abbrev Bounded (e : ExprContext) : Prop :=
  ∀ b, e.grouped b → e.shape.weight ≤ e.value b + (e.ops + b.toNat : ℕ) * (e.shape.size : ℕ)

theorem Bounded.of_ops_eq_zero {e : ExprContext} (h : Bounded e) (hg : e.grouped false)
    (hops : e.ops = 0) : e.shape.weight ≤ e.value false := by
  have hb := h false hg
  rw [hops] at hb
  simpa using hb

theorem size_node (label : NodeLabel) (cs : List Shape) :
    (Shape.node label cs).size = Shape.sizeList cs + 1 := by
  rw [Shape.size]

theorem bounded_binary {e l r : ExprContext} {op : String} (hl : Bounded l) (hr : Bounded r)
    (hgrouped : ∀ b, e.grouped b = (l.grouped b && r.grouped false))
    (hshape : e.shape = .node (.binary op) [l.shape, r.shape]) (hops : e.ops = l.ops + 1 + r.ops)
    (hvalue : ∀ b, e.value b = l.value b + r.value false) : Bounded e := by
  intro b hg
  rw [hgrouped, Bool.and_eq_true] at hg
  have hsize : e.shape.size = l.shape.size + r.shape.size + 1 := by
    rw [hshape]
    rfl
  have hw : e.shape.weight = e.shape.size + l.shape.weight + r.shape.weight := by
    rw [hshape, size_node]
    simp only [Shape.weight, Shape.weightList, NodeLabel.weight]
    push_cast
    ring
  have h₁ := le_add_mul e.shape.size (hl b hg.1) (by omega)
  have h₂ := le_add_mul e.shape.size (hr false hg.2) (by omega)
  rw [hw, hops, hvalue]
  rw [Bool.toNat_false] at h₂
  push_cast at h₁ h₂ ⊢
  linarith

/-- An alternative that begins with an expression, where `w` and `v` are what the rest counts. -/
theorem bounded_left {e l : ExprContext} (w : ℤ) {v : ℤ} (hl : Bounded l)
    (hg : ∀ b, e.grouped b → l.grouped b ∧ w ≤ v) (hsize : l.shape.size ≤ e.shape.size)
    (hw : e.shape.weight = l.shape.weight + w) (hops : e.ops = l.ops)
    (hvalue : ∀ b, e.value b = l.value b + v) : Bounded e := by
  intro b hgb
  obtain ⟨hgl, hwv⟩ := hg b hgb
  have h₁ := le_add_mul e.shape.size (hl b hgl) hsize
  rw [hw, hops, hvalue]
  linarith

theorem bounded_prefix {e a : ExprContext} (ha : Bounded a)
    (hgrouped : ∀ b, e.grouped b = (!b && a.grouped false)) (hsize : e.shape.size = a.shape.size + 1)
    (hw : e.shape.weight = a.shape.weight) (hops : e.ops = a.ops)
    (hvalue : ∀ b, e.value b = a.value false) : Bounded e := by
  intro b hg
  rw [hgrouped, Bool.and_eq_true, Bool.not_eq_true'] at hg
  obtain ⟨rfl, hga⟩ := hg
  have h₁ := le_add_mul e.shape.size (ha false hga) (by omega)
  rwa [hw, hops, hvalue]

/-- An alternative whose operands are all in brackets. -/
theorem bounded_closed {e : ExprContext}
    (h : ∀ b, e.grouped b → e.shape.weight ≤ e.value b) : Bounded e := by
  intro b hg
  have hnonneg : (0 : ℤ) ≤ (e.ops + b.toNat : ℕ) * (e.shape.size : ℕ) := by positivity
  have hle := h b hg
  linarith

mutual

/-- The bound, by induction on the tree. -/
theorem ExprContext.bounded : ∀ e : ExprContext, Bounded e
  | .funAppExpr f es => by
    refine bounded_left (Shape.weightList (ExprContext.shapeList es)) f.bounded (fun b hg ↦ ?_) ?_ ?_ rfl fun _ ↦ rfl
    · simp only [ExprContext.grouped, Bool.and_eq_true, beq_iff_eq] at hg
      exact ⟨hg.1, weightList_le es hg.2.1 hg.2.2⟩
    · simp only [ExprContext.shape, Shape.size, Shape.sizeList]
      omega
    · simp only [ExprContext.shape, Shape.weight, Shape.weightList, NodeLabel.weight, Int.zero_add]
  | .accessExpr e x =>
    bounded_left 0 e.bounded (fun _ hg ↦ ⟨hg, Int.le_refl 0⟩) (Nat.le_succ _)
      (by simp [ExprContext.shape, Shape.weight, Shape.weightList, NodeLabel.weight]) rfl
      fun _ ↦ (Int.add_zero _).symm
  | .arrayIndexingExpr l r => by
    refine bounded_left r.shape.weight l.bounded (fun b hg ↦ ?_) ?_ ?_ rfl fun _ ↦ rfl
    · simp only [ExprContext.grouped, Bool.and_eq_true, beq_iff_eq] at hg
      exact ⟨hg.1, r.bounded.of_ops_eq_zero hg.2.1 hg.2.2⟩
    · simp only [ExprContext.shape, Shape.size, Shape.sizeList]
      omega
    · simp only [ExprContext.shape, Shape.weight, Shape.weightList, NodeLabel.weight, Int.zero_add,
        Int.add_zero]
  | .multiplicativeExpr _ l r =>
    bounded_binary l.bounded r.bounded (fun _ ↦ rfl) rfl rfl fun _ ↦ rfl
  | .additiveExpr _ l r =>
    bounded_binary l.bounded r.bounded (fun _ ↦ rfl) rfl rfl fun _ ↦ rfl
  | .relationalExpr _ l r =>
    bounded_binary l.bounded r.bounded (fun _ ↦ rfl) rfl rfl fun _ ↦ rfl
  | .equalityExpr _ l r =>
    bounded_binary l.bounded r.bounded (fun _ ↦ rfl) rfl rfl fun _ ↦ rfl
  | .nonShortCircuiting _ l r =>
    bounded_binary l.bounded r.bounded (fun _ ↦ rfl) rfl rfl fun _ ↦ rfl
  | .boolOps _ l r =>
    bounded_binary l.bounded r.bounded (fun _ ↦ rfl) rfl rfl fun _ ↦ rfl
  | .ternaryExpr c e f => by
    intro b hg
    simp only [ExprContext.grouped, Bool.and_eq_true] at hg
    have hsize : (ExprContext.ternaryExpr c e f).shape.size =
        c.shape.size + (e.shape.size + f.shape.size) + 1 := rfl
    have h₁ := le_add_mul _ (c.bounded b hg.1) (show _ ≤ (ExprContext.ternaryExpr c e f).shape.size by
      omega)
    have h₂ := le_add_mul _ (e.bounded false hg.2.1)
      (show _ ≤ (ExprContext.ternaryExpr c e f).shape.size by omega)
    have h₃ := le_add_mul _ (f.bounded false hg.2.2)
      (show _ ≤ (ExprContext.ternaryExpr c e f).shape.size by omega)
    have hw : (ExprContext.ternaryExpr c e f).shape.weight =
        c.shape.weight + e.shape.weight + f.shape.weight := by
      simp only [ExprContext.shape, Shape.weight, Shape.weightList, NodeLabel.weight]
      ring
    rw [hw, ExprContext.ops, ExprContext.value]
    rw [Bool.toNat_false] at h₂ h₃
    push_cast at h₁ h₂ h₃ ⊢
    linarith
  | .deRefExpr e =>
    bounded_prefix e.bounded (fun _ ↦ rfl) rfl
      (by simp [ExprContext.shape, Shape.weight, Shape.weightList, NodeLabel.weight]) rfl fun _ ↦ rfl
  | .refExpr e =>
    bounded_prefix e.bounded (fun _ ↦ rfl) rfl
      (by simp [ExprContext.shape, Shape.weight, Shape.weightList, NodeLabel.weight]) rfl fun _ ↦ rfl
  | .arrayLenExpr e =>
    bounded_prefix e.bounded (fun _ ↦ rfl) rfl
      (by simp [ExprContext.shape, Shape.weight, Shape.weightList, NodeLabel.weight]) rfl fun _ ↦ rfl
  | .allocExpr e =>
    bounded_prefix e.bounded (fun _ ↦ rfl) rfl
      (by simp [ExprContext.shape, Shape.weight, Shape.weightList, NodeLabel.weight]) rfl fun _ ↦ rfl
  | .notExpr e => by
    intro b hg
    simp only [ExprContext.grouped, Bool.and_eq_true, Bool.not_eq_true'] at hg
    obtain ⟨rfl, hge⟩ := hg
    have hsize : (ExprContext.notExpr e).shape.size = e.shape.size + 1 := rfl
    have h₁ := le_add_mul _ (e.bounded false hge)
      (show _ ≤ (ExprContext.notExpr e).shape.size by omega)
    have hw : (ExprContext.notExpr e).shape.weight =
        (ExprContext.notExpr e).shape.size + e.shape.weight := by
      rw [ExprContext.shape, size_node]
      simp only [Shape.weight, Shape.weightList, NodeLabel.weight]
      push_cast
      ring
    rw [hw, ExprContext.ops, ExprContext.value]
    rw [Bool.toNat_false] at h₁ ⊢
    push_cast at h₁ ⊢
    linarith
  | .negExpr e => by
    intro b hg
    simp only [ExprContext.grouped, Bool.and_eq_true, Bool.not_eq_true'] at hg
    obtain ⟨rfl, hge⟩ := hg
    have h₁ := e.bounded true hge
    have hw : (ExprContext.negExpr e).shape.weight = - e.shape.size + e.shape.weight := by
      simp only [ExprContext.shape, Shape.weight, Shape.weightList, NodeLabel.weight, Shape.sizeList]
      push_cast
      ring
    have h₂ : e.shape.weight - e.shape.size ≤ e.value true + (e.ops : ℕ) * (e.shape.size : ℕ) := by
      rw [Bool.toNat_true] at h₁
      push_cast at h₁ ⊢
      linarith
    have h₃ := le_add_mul (ExprContext.negExpr e).shape.size h₂ (Nat.le_succ _)
    rw [hw, ExprContext.ops, ExprContext.value, Bool.toNat_false, Nat.add_zero]
    linarith
  | .recordRule fs =>
    bounded_closed fun b hg ↦ by
      simp only [ExprContext.grouped, Bool.and_eq_true, beq_iff_eq] at hg
      simpa [ExprContext.shape, Shape.weight, NodeLabel.weight, ExprContext.value]
        using weightFields_le fs hg.2.1 hg.2.2
  | .arrayLiteral es =>
    bounded_closed fun b hg ↦ by
      simp only [ExprContext.grouped, Bool.and_eq_true, beq_iff_eq] at hg
      simpa [ExprContext.shape, Shape.weight, NodeLabel.weight, ExprContext.value]
        using weightList_le es hg.2.1 hg.2.2
  | .arrayOfExpr l r =>
    bounded_closed fun b hg ↦ by
      simp only [ExprContext.grouped, Bool.and_eq_true, beq_iff_eq] at hg
      have h₁ := l.bounded.of_ops_eq_zero hg.2.1.1 (by omega)
      have h₂ := r.bounded.of_ops_eq_zero hg.2.1.2 (by omega)
      simp only [ExprContext.shape, Shape.weight, Shape.weightList, NodeLabel.weight, ExprContext.value]
      linarith
  | .parenExpr e => by
    intro b hg
    simp only [ExprContext.grouped, Bool.and_eq_true] at hg
    have h₁ := e.bounded false hg.1
    cases b with
    | true =>
      have hops : e.ops = 0 := by simpa [groupFits] using hg.2
      rw [hops] at h₁
      simpa [ExprContext.shape, ExprContext.value, ExprContext.ops, groupValue] using h₁
    | false =>
      have hops : e.ops = 1 := by simpa [groupFits] using hg.2
      rw [hops] at h₁
      simpa [ExprContext.shape, ExprContext.value, ExprContext.ops, groupValue] using h₁
  | .negNumber _ => bounded_closed fun _ _ ↦ Int.le_refl 0
  | .varExpr _ => bounded_closed fun _ _ ↦ Int.le_refl 0
  | .numExpr _ => bounded_closed fun _ _ ↦ Int.le_refl 0
  | .inputExpr => bounded_closed fun _ _ ↦ Int.le_refl 0
  | .nullExpr => bounded_closed fun _ _ ↦ Int.le_refl 0
  | .boolExpr _ => bounded_closed fun _ _ ↦ Int.le_refl 0

theorem weightList_le : ∀ es : List ExprContext, ExprContext.groupedList es →
    ExprContext.opsList es = 0 →
    Shape.weightList (ExprContext.shapeList es) ≤ ExprContext.valueList es
  | [], _, _ => Int.le_refl 0
  | e :: es, hg, hops => by
    simp only [ExprContext.groupedList, Bool.and_eq_true, ExprContext.opsList] at hg hops
    have h₁ := e.bounded.of_ops_eq_zero hg.1 (by omega)
    have h₂ := weightList_le es hg.2 (by omega)
    exact Int.add_le_add h₁ h₂

theorem weightFields_le : ∀ fs : List FieldExprContext, ExprContext.groupedFields fs →
    ExprContext.opsFields fs = 0 →
    Shape.weightList (ExprContext.shapeFields fs) ≤ ExprContext.valueFields fs
  | [], _, _ => Int.le_refl 0
  | .mk _ e :: fs, hg, hops => by
    simp only [ExprContext.groupedFields, Bool.and_eq_true, ExprContext.opsFields] at hg hops
    have h₁ := e.bounded.of_ops_eq_zero hg.1 (by omega)
    have h₂ := weightFields_le fs hg.2 (by omega)
    simp only [ExprContext.shapeFields, Shape.weightList, Shape.weight, NodeLabel.weight,
      ExprContext.valueFields, Int.zero_add, Int.add_zero]
    exact Int.add_le_add h₁ h₂

end

/-! ### Standard parentheses -/

mutual

/-- The parentheses are where the printer writes them. -/
def ExprContext.Standard : ExprContext → Prop
  | .funAppExpr e es => e.Standard ∧ ExprContext.StandardList es
  | .accessExpr e _ | .deRefExpr e | .refExpr e | .arrayLenExpr e | .allocExpr e => e.Standard
  | .arrayIndexingExpr l r | .arrayOfExpr l r => l.Standard ∧ r.Standard
  | .ternaryExpr c e f => c.Standard ∧ e.Standard ∧ f.Standard
  | .recordRule fs => ExprContext.StandardFields fs
  | .arrayLiteral es => ExprContext.StandardList es
  | .negNumber _ | .varExpr _ | .numExpr _ | .inputExpr | .nullExpr | .boolExpr _ => True
  | .negExpr (.parenExpr e) | .parenExpr (.notExpr e) => e.Standard
  | .parenExpr (.multiplicativeExpr _ l r) | .parenExpr (.additiveExpr _ l r)
  | .parenExpr (.relationalExpr _ l r) | .parenExpr (.equalityExpr _ l r)
  | .parenExpr (.nonShortCircuiting _ l r) | .parenExpr (.boolOps _ l r) => l.Standard ∧ r.Standard
  | _ => False

def ExprContext.StandardList : List ExprContext → Prop
  | [] => True
  | e :: es => e.Standard ∧ ExprContext.StandardList es

def ExprContext.StandardFields : List FieldExprContext → Prop
  | [] => True
  | .mk _ e :: fs => e.Standard ∧ ExprContext.StandardFields fs

end

/-- Where the bound is reached, the parentheses are standard: in `e`, around `e` if it has one
operation, and around the operand of a unary minus if `e` comes after it. -/
structure Tight (e : ExprContext) : Prop where
  standard : e.grouped false → e.ops = 0 → e.shape.weight = e.value false → e.Standard
  operation : e.grouped false → e.ops = 1 → e.shape.weight = e.value false + (e.shape.size : ℕ) →
    (ExprContext.parenExpr e).Standard
  afterMinus : e.grouped true → e.ops = 0 → e.shape.weight = e.value true + (e.shape.size : ℕ) →
    (ExprContext.negExpr e).Standard

theorem Bounded.of_ops_eq_one {e : ExprContext} (h : Bounded e) (hg : e.grouped false)
    (hops : e.ops = 1) : e.shape.weight ≤ e.value false + (e.shape.size : ℕ) := by
  have hb := h false hg
  rw [hops] at hb
  simpa using hb

theorem Bounded.of_afterMinus {e : ExprContext} (h : Bounded e) (hg : e.grouped true)
    (hops : e.ops = 0) : e.shape.weight ≤ e.value true + (e.shape.size : ℕ) := by
  have hb := h true hg
  rw [hops] at hb
  simpa using hb

theorem tight_left {e l : ExprContext} (w : ℤ) {v : ℤ} (hl : Tight l)
    (hg : ∀ b, e.grouped b → l.grouped b ∧ w ≤ v) (hsize : l.shape.size < e.shape.size)
    (hw : e.shape.weight = l.shape.weight + w) (hops : e.ops = l.ops)
    (hvalue : ∀ b, e.value b = l.value b + v)
    (hstandard : e.grouped false → l.Standard → w = v → e.Standard) : Tight e where
  standard hge hk heq := by
    obtain ⟨hgl, hwv⟩ := hg false hge
    rw [hw, hvalue] at heq
    have hle := l.bounded.of_ops_eq_zero hgl (hops ▸ hk)
    exact hstandard hge (hl.standard hgl (hops ▸ hk) (by omega)) (by omega)
  operation hge hk heq := by
    obtain ⟨hgl, hwv⟩ := hg false hge
    rw [hw, hvalue] at heq
    have hle := l.bounded.of_ops_eq_one hgl (hops ▸ hk)
    omega
  afterMinus hge hk heq := by
    obtain ⟨hgl, hwv⟩ := hg true hge
    rw [hw, hvalue] at heq
    have hle := l.bounded.of_afterMinus hgl (hops ▸ hk)
    omega

theorem tight_prefix {e a : ExprContext} (ha : Tight a)
    (hgrouped : ∀ b, e.grouped b = (!b && a.grouped false)) (hsize : e.shape.size = a.shape.size + 1)
    (hw : e.shape.weight = a.shape.weight) (hops : e.ops = a.ops)
    (hvalue : ∀ b, e.value b = a.value false) (hstandard : a.Standard → e.Standard) : Tight e where
  standard hge hk heq := by
    rw [hgrouped, Bool.not_false, Bool.true_and] at hge
    rw [hw, hvalue] at heq
    exact hstandard (ha.standard hge (hops ▸ hk) heq)
  operation hge hk heq := by
    rw [hgrouped, Bool.not_false, Bool.true_and] at hge
    rw [hw, hvalue, hsize] at heq
    have hle := a.bounded.of_ops_eq_one hge (hops ▸ hk)
    omega
  afterMinus hge _ _ := by
    rw [hgrouped] at hge
    cases hge

theorem tight_binary {e l r : ExprContext} {op : String} (hl : Tight l) (hr : Tight r)
    (hgrouped : ∀ b, e.grouped b = (l.grouped b && r.grouped false))
    (hshape : e.shape = .node (.binary op) [l.shape, r.shape]) (hops : e.ops = l.ops + 1 + r.ops)
    (hvalue : ∀ b, e.value b = l.value b + r.value false)
    (hstandard : l.Standard → r.Standard → (ExprContext.parenExpr e).Standard) : Tight e where
  standard _ hk _ := by omega
  operation hge hk heq := by
    rw [hgrouped, Bool.and_eq_true] at hge
    have hw : e.shape.weight = (e.shape.size : ℕ) + l.shape.weight + r.shape.weight := by
      rw [hshape, size_node]
      simp only [Shape.weight, Shape.weightList, NodeLabel.weight]
      push_cast
      ring
    rw [hw, hvalue] at heq
    have h₁ := l.bounded.of_ops_eq_zero hge.1 (by omega)
    have h₂ := r.bounded.of_ops_eq_zero hge.2 (by omega)
    exact hstandard (hl.standard hge.1 (by omega) (by omega)) (hr.standard hge.2 (by omega) (by omega))
  afterMinus _ hk _ := by omega

/-- An alternative whose operands are all in brackets. -/
theorem tight_closed {e : ExprContext} (hops : e.ops = 0) (hgrouped : e.grouped true = false)
    (h : e.grouped false → e.shape.weight = e.value false → e.Standard) : Tight e where
  standard hge _ heq := h hge heq
  operation _ hk _ := by omega
  afterMinus hge _ _ := by
    rw [hgrouped] at hge
    cases hge

mutual

/-- Where the bound is reached, by induction on the tree. -/
theorem ExprContext.tight : ∀ e : ExprContext, Tight e
  | .funAppExpr f es => by
    refine tight_left (Shape.weightList (ExprContext.shapeList es)) f.tight (fun b hg ↦ ?_) ?_ ?_ rfl
      (fun _ ↦ rfl) fun hg hf hes ↦ ?_
    · simp only [ExprContext.grouped, Bool.and_eq_true, beq_iff_eq] at hg
      exact ⟨hg.1, weightList_le es hg.2.1 hg.2.2⟩
    · simp only [ExprContext.shape, Shape.size, Shape.sizeList]
      omega
    · simp only [ExprContext.shape, Shape.weight, Shape.weightList, NodeLabel.weight, Int.zero_add]
    · simp only [ExprContext.grouped, Bool.and_eq_true, beq_iff_eq] at hg
      exact ⟨hf, tightList es hg.2.1 hg.2.2 hes⟩
  | .accessExpr e x =>
    tight_left 0 e.tight (fun _ hg ↦ ⟨hg, Int.le_refl 0⟩) (Nat.lt_succ_self _)
      (by simp [ExprContext.shape, Shape.weight, Shape.weightList, NodeLabel.weight]) rfl
      (fun _ ↦ (Int.add_zero _).symm) fun _ he _ ↦ he
  | .arrayIndexingExpr l r => by
    refine tight_left r.shape.weight l.tight (fun b hg ↦ ?_) ?_ ?_ rfl (fun _ ↦ rfl)
      fun hg hl hr ↦ ?_
    · simp only [ExprContext.grouped, Bool.and_eq_true, beq_iff_eq] at hg
      exact ⟨hg.1, r.bounded.of_ops_eq_zero hg.2.1 hg.2.2⟩
    · simp only [ExprContext.shape, Shape.size, Shape.sizeList]
      omega
    · simp only [ExprContext.shape, Shape.weight, Shape.weightList, NodeLabel.weight, Int.zero_add,
        Int.add_zero]
    · simp only [ExprContext.grouped, Bool.and_eq_true, beq_iff_eq] at hg
      exact ⟨hl, r.tight.standard hg.2.1 hg.2.2 hr⟩
  | .multiplicativeExpr _ l r =>
    tight_binary l.tight r.tight (fun _ ↦ rfl) rfl rfl (fun _ ↦ rfl) fun hl hr ↦ ⟨hl, hr⟩
  | .additiveExpr _ l r =>
    tight_binary l.tight r.tight (fun _ ↦ rfl) rfl rfl (fun _ ↦ rfl) fun hl hr ↦ ⟨hl, hr⟩
  | .relationalExpr _ l r =>
    tight_binary l.tight r.tight (fun _ ↦ rfl) rfl rfl (fun _ ↦ rfl) fun hl hr ↦ ⟨hl, hr⟩
  | .equalityExpr _ l r =>
    tight_binary l.tight r.tight (fun _ ↦ rfl) rfl rfl (fun _ ↦ rfl) fun hl hr ↦ ⟨hl, hr⟩
  | .nonShortCircuiting _ l r =>
    tight_binary l.tight r.tight (fun _ ↦ rfl) rfl rfl (fun _ ↦ rfl) fun hl hr ↦ ⟨hl, hr⟩
  | .boolOps _ l r =>
    tight_binary l.tight r.tight (fun _ ↦ rfl) rfl rfl (fun _ ↦ rfl) fun hl hr ↦ ⟨hl, hr⟩
  | .ternaryExpr c e f => by
    -- what the two branches count is at most what their parentheses do
    have hef : e.grouped false → f.grouped false → e.ops = 0 → f.ops = 0 →
        e.shape.weight ≤ e.value false ∧ f.shape.weight ≤ f.value false :=
      fun he hf h₁ h₂ ↦ ⟨e.bounded.of_ops_eq_zero he h₁, f.bounded.of_ops_eq_zero hf h₂⟩
    have hsize : (ExprContext.ternaryExpr c e f).shape.size =
      c.shape.size + (e.shape.size + f.shape.size) + 1 := rfl
    have hw : (ExprContext.ternaryExpr c e f).shape.weight =
        c.shape.weight + e.shape.weight + f.shape.weight := by
      simp only [ExprContext.shape, Shape.weight, Shape.weightList, NodeLabel.weight]
      ring
    have hops : (ExprContext.ternaryExpr c e f).ops = c.ops + e.ops + f.ops := rfl
    refine ⟨fun hg hk heq ↦ ?_, fun hg hk heq ↦ ?_, fun hg hk heq ↦ ?_⟩
    all_goals simp only [ExprContext.grouped, Bool.and_eq_true] at hg
    all_goals rw [hw, ExprContext.value] at heq
    all_goals rw [hops] at hk
    · have h₁ := c.bounded.of_ops_eq_zero hg.1 (by omega)
      obtain ⟨h₂, h₃⟩ := hef hg.2.1 hg.2.2 (by omega) (by omega)
      exact ⟨c.tight.standard hg.1 (by omega) (by omega),
        e.tight.standard hg.2.1 (by omega) (by omega), f.tight.standard hg.2.2 (by omega) (by omega)⟩
    · -- only one of the three has the operation
      have h₁ := c.bounded false hg.1
      have h₂ := e.bounded false hg.2.1
      have h₃ := f.bounded false hg.2.2
      obtain ⟨hc, he, hf⟩ | ⟨hc, he, hf⟩ | ⟨hc, he, hf⟩ :
          (c.ops = 1 ∧ e.ops = 0 ∧ f.ops = 0) ∨ (c.ops = 0 ∧ e.ops = 1 ∧ f.ops = 0) ∨
            (c.ops = 0 ∧ e.ops = 0 ∧ f.ops = 1) := by omega
      all_goals
        rw [hc] at h₁
        rw [he] at h₂
        rw [hf] at h₃
        simp only [Bool.toNat_false] at h₁ h₂ h₃
        omega
    · have h₁ := c.bounded.of_afterMinus hg.1 (by omega)
      obtain ⟨h₂, h₃⟩ := hef hg.2.1 hg.2.2 (by omega) (by omega)
      omega
  | .deRefExpr e =>
    tight_prefix e.tight (fun _ ↦ rfl) rfl
      (by simp [ExprContext.shape, Shape.weight, Shape.weightList, NodeLabel.weight]) rfl (fun _ ↦ rfl) id
  | .refExpr e =>
    tight_prefix e.tight (fun _ ↦ rfl) rfl
      (by simp [ExprContext.shape, Shape.weight, Shape.weightList, NodeLabel.weight]) rfl (fun _ ↦ rfl) id
  | .arrayLenExpr e =>
    tight_prefix e.tight (fun _ ↦ rfl) rfl
      (by simp [ExprContext.shape, Shape.weight, Shape.weightList, NodeLabel.weight]) rfl (fun _ ↦ rfl) id
  | .allocExpr e =>
    tight_prefix e.tight (fun _ ↦ rfl) rfl
      (by simp [ExprContext.shape, Shape.weight, Shape.weightList, NodeLabel.weight]) rfl (fun _ ↦ rfl) id
  | .notExpr e => by
    refine ⟨fun _ hk _ ↦ (nomatch hk), fun hg hk heq ↦ ?_, fun hg _ _ ↦ (nomatch hg)⟩
    have hge : e.grouped false := hg
    have hops : e.ops = 0 := Nat.succ.inj hk
    have hw : (ExprContext.notExpr e).shape.weight =
        ((ExprContext.notExpr e).shape.size : ℕ) + e.shape.weight := by
      rw [ExprContext.shape, size_node]
      simp only [Shape.weight, Shape.weightList, NodeLabel.weight]
      push_cast
      ring
    rw [hw, ExprContext.value] at heq
    exact e.tight.standard hge hops (by omega)
  | .negExpr e => by
    have hw : (ExprContext.negExpr e).shape.weight = - (e.shape.size : ℕ) + e.shape.weight := by
      simp only [ExprContext.shape, Shape.weight, Shape.weightList, NodeLabel.weight, Shape.sizeList]
      push_cast
      ring
    refine ⟨fun hg hk heq ↦ ?_, fun hg hk heq ↦ ?_, fun hg _ _ ↦ (nomatch hg)⟩
    · rw [hw, ExprContext.value] at heq
      exact e.tight.afterMinus hg hk (by omega)
    · have hle := e.bounded true hg
      have hops : e.ops = 1 := hk
      have hsize : (ExprContext.negExpr e).shape.size = e.shape.size + 1 := rfl
      rw [hops] at hle
      rw [hw, ExprContext.value, hsize] at heq
      simp only [Bool.toNat_true] at hle
      omega
  | .recordRule fs =>
    tight_closed rfl rfl fun hg heq ↦ by
      simp only [ExprContext.grouped, Bool.and_eq_true, beq_iff_eq] at hg
      refine tightFields fs hg.2.1 hg.2.2 ?_
      simpa [ExprContext.shape, Shape.weight, NodeLabel.weight, ExprContext.value] using heq
  | .arrayLiteral es =>
    tight_closed rfl rfl fun hg heq ↦ by
      simp only [ExprContext.grouped, Bool.and_eq_true, beq_iff_eq] at hg
      refine tightList es hg.2.1 hg.2.2 ?_
      simpa [ExprContext.shape, Shape.weight, NodeLabel.weight, ExprContext.value] using heq
  | .arrayOfExpr l r =>
    tight_closed rfl rfl fun hg heq ↦ by
      simp only [ExprContext.grouped, Bool.and_eq_true, beq_iff_eq] at hg
      have h₁ := l.bounded.of_ops_eq_zero hg.2.1.1 (by omega)
      have h₂ := r.bounded.of_ops_eq_zero hg.2.1.2 (by omega)
      simp only [ExprContext.shape, Shape.weight, Shape.weightList, NodeLabel.weight,
        ExprContext.value] at heq
      exact ⟨l.tight.standard hg.2.1.1 (by omega) (by omega),
        r.tight.standard hg.2.1.2 (by omega) (by omega)⟩
  | .parenExpr e => by
    refine ⟨fun hg _ heq ↦ ?_, fun _ hk _ ↦ (nomatch hk), fun hg _ heq ↦ ?_⟩
    all_goals simp only [ExprContext.grouped, Bool.and_eq_true] at hg
    · have hops : e.ops = 1 := by simpa [groupFits] using hg.2
      exact e.tight.operation hg.1 hops heq
    · have hops : e.ops = 0 := by simpa [groupFits] using hg.2
      refine e.tight.standard hg.1 hops ?_
      simpa [ExprContext.shape, ExprContext.value, groupValue] using heq
  | .negNumber _ => tight_closed rfl rfl fun _ _ ↦ trivial
  | .varExpr _ => tight_closed rfl rfl fun _ _ ↦ trivial
  | .numExpr _ => tight_closed rfl rfl fun _ _ ↦ trivial
  | .inputExpr => tight_closed rfl rfl fun _ _ ↦ trivial
  | .nullExpr => tight_closed rfl rfl fun _ _ ↦ trivial
  | .boolExpr _ => tight_closed rfl rfl fun _ _ ↦ trivial

theorem tightList : ∀ es : List ExprContext, ExprContext.groupedList es →
    ExprContext.opsList es = 0 →
    Shape.weightList (ExprContext.shapeList es) = ExprContext.valueList es →
    ExprContext.StandardList es
  | [], _, _, _ => trivial
  | e :: es, hg, hops, heq => by
    simp only [ExprContext.groupedList, Bool.and_eq_true, ExprContext.opsList] at hg hops
    simp only [ExprContext.shapeList, Shape.weightList, ExprContext.valueList] at heq
    have h₁ := e.bounded.of_ops_eq_zero hg.1 (by omega)
    have h₂ := weightList_le es hg.2 (by omega)
    exact ⟨e.tight.standard hg.1 (by omega) (by omega), tightList es hg.2 (by omega) (by omega)⟩

theorem tightFields : ∀ fs : List FieldExprContext, ExprContext.groupedFields fs →
    ExprContext.opsFields fs = 0 →
    Shape.weightList (ExprContext.shapeFields fs) = ExprContext.valueFields fs →
    ExprContext.StandardFields fs
  | [], _, _, _ => trivial
  | .mk _ e :: fs, hg, hops, heq => by
    simp only [ExprContext.groupedFields, Bool.and_eq_true, ExprContext.opsFields] at hg hops
    simp only [ExprContext.shapeFields, Shape.weightList, Shape.weight, NodeLabel.weight,
      ExprContext.valueFields, Int.zero_add, Int.add_zero] at heq
    have h₁ := e.bounded.of_ops_eq_zero hg.1 (by omega)
    have h₂ := weightFields_le fs hg.2 (by omega)
    exact ⟨e.tight.standard hg.1 (by omega) (by omega), tightFields fs hg.2 (by omega) (by omega)⟩

end

/-- What standard parentheses say about a tree: the bound is reached. -/
structure Exact (e : ExprContext) : Prop where
  negsOk : e.NegsOk
  grouped : e.grouped false
  ops : e.ops = 0
  weight : e.shape.weight = e.value false

theorem exact_binary {e l r : ExprContext} {op : String} (hl : Exact l) (hr : Exact r)
    (hnegs : e.NegsOk ↔ l.NegsOk ∧ r.NegsOk)
    (hgrouped : ∀ b, e.grouped b = (l.grouped b && r.grouped false))
    (hshape : e.shape = .node (.binary op) [l.shape, r.shape]) (hops : e.ops = l.ops + 1 + r.ops)
    (hvalue : ∀ b, e.value b = l.value b + r.value false) : Exact (.parenExpr e) where
  negsOk := hnegs.2 ⟨hl.negsOk, hr.negsOk⟩
  grouped := by
    rw [ExprContext.grouped, hgrouped, hl.grouped, hr.grouped, hops, hl.ops, hr.ops]
    rfl
  ops := rfl
  weight := by
    rw [ExprContext.value, hvalue, ExprContext.shape, hshape, size_node]
    simp only [Shape.weight, Shape.weightList, NodeLabel.weight, hl.weight, hr.weight, groupValue]
    push_cast
    ring

mutual

theorem ExprContext.Standard.exact : ∀ {e : ExprContext}, e.Standard → Exact e
  | .funAppExpr f es, ⟨hf, hes⟩ => by
    have h := hf.exact
    have hs := standardList_exact hes
    refine ⟨⟨h.negsOk, hs.1⟩, ?_, h.ops, ?_⟩
    · simp [ExprContext.grouped, h.grouped, hs.2.1, hs.2.2.1]
    · simp [ExprContext.shape, Shape.weight, Shape.weightList, NodeLabel.weight, ExprContext.value,
        h.weight, hs.2.2.2]
  | .accessExpr e _, he | .deRefExpr e, he | .refExpr e, he | .arrayLenExpr e, he
  | .allocExpr e, he => by
    have hs : e.Standard := he
    have h := hs.exact
    refine ⟨h.negsOk, by simp [ExprContext.grouped, h.grouped], h.ops, ?_⟩
    simp [ExprContext.shape, Shape.weight, Shape.weightList, NodeLabel.weight, ExprContext.value, h.weight]
  | .arrayIndexingExpr l r, ⟨hl, hr⟩ => by
    have h := hl.exact
    have h' := hr.exact
    refine ⟨⟨h.negsOk, h'.negsOk⟩, ?_, h.ops, ?_⟩
    · simp [ExprContext.grouped, h.grouped, h'.grouped, h'.ops]
    · simp [ExprContext.shape, Shape.weight, Shape.weightList, NodeLabel.weight, ExprContext.value,
        h.weight, h'.weight]
  | .arrayOfExpr l r, ⟨hl, hr⟩ => by
    have h := hl.exact
    have h' := hr.exact
    refine ⟨⟨h.negsOk, h'.negsOk⟩, ?_, rfl, ?_⟩
    · simp [ExprContext.grouped, h.grouped, h'.grouped, h.ops, h'.ops]
    · simp [ExprContext.shape, Shape.weight, Shape.weightList, NodeLabel.weight, ExprContext.value,
        h.weight, h'.weight]
  | .ternaryExpr c e f, ⟨hc, he, hf⟩ => by
    have h := hc.exact
    have h' := he.exact
    have h'' := hf.exact
    refine ⟨⟨h.negsOk, h'.negsOk, h''.negsOk⟩, ?_, ?_, ?_⟩
    · simp [ExprContext.grouped, h.grouped, h'.grouped, h''.grouped]
    · simp [ExprContext.ops, h.ops, h'.ops, h''.ops]
    · simp only [ExprContext.shape, Shape.weight, Shape.weightList, NodeLabel.weight, ExprContext.value,
        h.weight, h'.weight, h''.weight]
      ring
  | .recordRule fs, hfs => by
    have hs := standardFields_exact hfs
    refine ⟨hs.1, by simp [ExprContext.grouped, hs.2.1, hs.2.2.1], rfl, ?_⟩
    simp [ExprContext.shape, Shape.weight, NodeLabel.weight, ExprContext.value, hs.2.2.2]
  | .arrayLiteral es, hes => by
    have hs := standardList_exact hes
    refine ⟨hs.1, by simp [ExprContext.grouped, hs.2.1, hs.2.2.1], rfl, ?_⟩
    simp [ExprContext.shape, Shape.weight, NodeLabel.weight, ExprContext.value, hs.2.2.2]
  | .negNumber _, _ | .varExpr _, _ | .numExpr _, _ | .inputExpr, _ | .nullExpr, _
  | .boolExpr _, _ => ⟨trivial, rfl, rfl, rfl⟩
  | .negExpr (.parenExpr e), he => by
    have hs : e.Standard := he
    have h := hs.exact
    refine ⟨⟨fun hlead ↦ hlead, h.negsOk⟩, ?_, rfl, ?_⟩
    · simp [ExprContext.grouped, h.grouped, h.ops, groupFits]
    · simp only [ExprContext.shape, Shape.weight, Shape.weightList, NodeLabel.weight, Shape.sizeList,
        ExprContext.value, groupValue, h.weight]
      push_cast
      ring
  | .parenExpr (.notExpr e), he => by
    have hs : e.Standard := he
    have h := hs.exact
    refine ⟨h.negsOk, ?_, rfl, ?_⟩
    · simp [ExprContext.grouped, h.grouped, h.ops, ExprContext.ops, groupFits]
    · simp only [ExprContext.shape, Shape.weight, Shape.weightList, NodeLabel.weight, Shape.sizeList,
        ExprContext.value, groupValue, h.weight, Shape.size]
      push_cast
      ring
  | .parenExpr (.multiplicativeExpr _ l r), ⟨hl, hr⟩ | .parenExpr (.additiveExpr _ l r), ⟨hl, hr⟩
  | .parenExpr (.relationalExpr _ l r), ⟨hl, hr⟩ | .parenExpr (.equalityExpr _ l r), ⟨hl, hr⟩
  | .parenExpr (.nonShortCircuiting _ l r), ⟨hl, hr⟩ | .parenExpr (.boolOps _ l r), ⟨hl, hr⟩ =>
    exact_binary hl.exact hr.exact Iff.rfl (fun _ ↦ rfl) rfl rfl fun _ ↦ rfl

theorem standardList_exact : ∀ {es : List ExprContext}, ExprContext.StandardList es →
    ExprContext.NegsOkList es ∧ ExprContext.groupedList es ∧ ExprContext.opsList es = 0 ∧
      Shape.weightList (ExprContext.shapeList es) = ExprContext.valueList es
  | [], _ => ⟨trivial, rfl, rfl, rfl⟩
  | e :: es, ⟨he, hes⟩ => by
    have h := he.exact
    have hs := standardList_exact hes
    refine ⟨⟨h.negsOk, hs.1⟩, ?_, ?_, ?_⟩
    · simp [ExprContext.groupedList, h.grouped, hs.2.1]
    · simp [ExprContext.opsList, h.ops, hs.2.2.1]
    · simp [ExprContext.shapeList, Shape.weightList, ExprContext.valueList, h.weight, hs.2.2.2]

theorem standardFields_exact : ∀ {fs : List FieldExprContext}, ExprContext.StandardFields fs →
    ExprContext.NegsOkFields fs ∧ ExprContext.groupedFields fs ∧ ExprContext.opsFields fs = 0 ∧
      Shape.weightList (ExprContext.shapeFields fs) = ExprContext.valueFields fs
  | [], _ => ⟨trivial, rfl, rfl, rfl⟩
  | .mk _ e :: fs, ⟨he, hfs⟩ => by
    have h := he.exact
    have hs := standardFields_exact hfs
    refine ⟨⟨h.negsOk, hs.1⟩, ?_, ?_, ?_⟩
    · simp [ExprContext.groupedFields, h.grouped, hs.2.1]
    · simp [ExprContext.opsFields, h.ops, hs.2.2.1]
    · simp [ExprContext.shapeFields, Shape.weightList, Shape.weight, NodeLabel.weight,
        ExprContext.valueFields, h.weight, hs.2.2.2]

end

/-- A tree with the tokens of a standard one, in which the operations count the same, is standard. -/
theorem standard_of_tokens_eq {t u : ExprContext} (ht : t.NegsOk) (hu : u.Standard)
    (h : t.tokens = u.tokens) (hw : t.shape.weight = u.shape.weight) : t.Standard := by
  have hexact := hu.exact
  obtain ⟨hg, -, hops, hvalue⟩ := grouped_of_tokens_eq ht hexact.negsOk h hexact.grouped
  exact t.tight.standard hg (hops.trans hexact.ops) (hw.trans (hexact.weight.trans hvalue.symm))

end Sipc
