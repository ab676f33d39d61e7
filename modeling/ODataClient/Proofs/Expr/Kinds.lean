import ODataClient.Proofs.Expr.Meaning

/-! Kinds of formulas. An atom can have either kind, and an operator fixes the kinds of its
operands and of its value. Regrouping keeps the kinds that a formula can have. -/

namespace ODataClient

inductive Kind
  | int
  | bool
  deriving DecidableEq

def Scalar.kind : Scalar → Kind
  | int _ => .int
  | bool _ => .bool

namespace Operator

def takes : Operator → Kind → Kind → Bool
  -- The kind of both operands, then the kind of the value.
  | and, .bool, .bool | or, .bool, .bool => true
  | eq, _, .bool | ne, _, .bool => true
  | gt, .int, .bool | ge, .int, .bool | lt, .int, .bool | le, .int, .bool | has, .int, .bool => true
  | add, .int, .int | sub, .int, .int | mul, .int, .int | div, .int, .int | mod, .int, .int => true
  | _, _, _ => false

def takesSign : Operator → Kind → Bool
  | not, .bool => true
  | negate, .int => true
  | _, _ => false

theorem takes_of_apply {op : Operator} {a b c : Scalar} (h : op.apply a b = some c) :
    op.takes a.kind c.kind = true ∧ b.kind = a.kind := by
  cases op with
  | div | mod =>
    rcases a with a | a <;> rcases b with b | b
    · rw [apply] at h
      split at h
      · exact absurd h (by simp)
      · cases h
        exact ⟨rfl, rfl⟩
    all_goals exact absurd h (by simp [apply])
  | _ => rcases a with a | a <;> rcases b with b | b <;> cases h <;> exact ⟨rfl, rfl⟩

theorem takesSign_of_apply {op : Operator} {a c : Scalar} (h : op.applySign a = some c) :
    op.takesSign c.kind = true ∧ a.kind = c.kind := by
  cases op <;> rcases a with a | a <;> cases h <;> exact ⟨rfl, rfl⟩

theorem takes_level {op op' : Operator} (ha : op.isAssociative = true)
    (hp : op'.precedence = op.precedence) :
    ∃ kind, (∀ k' k, op.takes k' k = true ↔ k' = kind ∧ k = kind) ∧
      ∀ k' k, op'.takes k' k = true ↔ k' = kind ∧ k = kind := by
  have hbool : ∀ {op : Operator}, op.precedence = 1 ∨ op.precedence = 2 →
      ∀ k' k, op.takes k' k = true ↔ k' = .bool ∧ k = .bool := by
    intro op h k' k
    cases op <;> first | exact absurd h (by decide) | (cases k' <;> cases k <;> decide)
  have hint : ∀ {op : Operator}, op.precedence = 4 ∨ op.precedence = 5 →
      ∀ k' k, op.takes k' k = true ↔ k' = .int ∧ k = .int := by
    intro op h k' k
    cases op <;> first | exact absurd h (by decide) | (cases k' <;> cases k <;> decide)
  have hlevel : (op.precedence = 1 ∨ op.precedence = 2) ∨ op.precedence = 4 ∨ op.precedence = 5 := by
    cases op <;> first | exact absurd ha (by decide) | decide
  rcases hlevel with h | h
  · exact ⟨.bool, hbool h, hbool (hp ▸ h)⟩
  · exact ⟨.int, hint h, hint (hp ▸ h)⟩

end Operator

namespace Formula

variable {α β : Type}

def HasKind : Formula α → Kind → Prop
  | atom _, _ => True
  | binary op left right, k => ∃ k', op.takes k' k = true ∧ left.HasKind k' ∧ right.HasKind k'
  | unary op operand, k => op.takesSign k = true ∧ operand.HasKind k

theorem hasKind_of_value {t : Formula Scalar} {v : Scalar} (h : t.value = some v) :
    t.HasKind v.kind := by
  induction t generalizing v with
  | atom a => trivial
  | binary op left right hl hr =>
    obtain ⟨a, ha, h⟩ := Option.bind_eq_some_iff.1 h
    obtain ⟨b, hb, h⟩ := Option.bind_eq_some_iff.1 h
    obtain ⟨ht, hk⟩ := Operator.takes_of_apply h
    exact ⟨a.kind, ht, hl ha, hk ▸ hr hb⟩
  | unary op operand ih =>
    obtain ⟨a, ha, h⟩ := Option.bind_eq_some_iff.1 h
    obtain ⟨ht, hk⟩ := Operator.takesSign_of_apply h
    exact ⟨ht, hk ▸ ih ha⟩

theorem hasKind_map (f : α → β) (t : Formula α) (k : Kind) :
    (t.map f).HasKind k ↔ t.HasKind k := by
  induction t generalizing k with
  | atom a => rfl
  | binary op left right hl hr => simp only [map, HasKind, hl, hr]
  | unary op operand ih => simp only [map, HasKind, ih]

theorem hasKind_graft {op : Operator} (ha : op.isAssociative = true) (left right : Formula α)
    (k : Kind) : (graft op left right).HasKind k ↔ (binary op left right).HasKind k := by
  induction right generalizing k with
  | atom a => rfl
  | unary op' operand ih => rfl
  | binary op' a b iha ihb =>
    by_cases hp : op'.precedence = op.precedence
    · obtain ⟨kind, hop, hop'⟩ := Operator.takes_level ha hp
      rw [graft, if_pos hp]
      simp only [HasKind, iha, hop, hop']
      constructor
      · rintro ⟨_, ⟨rfl, rfl⟩, ⟨_, ⟨rfl, -⟩, hl, hx⟩, hy⟩
        exact ⟨_, ⟨rfl, rfl⟩, hl, _, ⟨rfl, rfl⟩, hx, hy⟩
      · rintro ⟨_, ⟨rfl, rfl⟩, hl, _, ⟨rfl, -⟩, hx, hy⟩
        exact ⟨_, ⟨rfl, rfl⟩, ⟨_, ⟨rfl, rfl⟩, hl, hx⟩, hy⟩
    · rw [graft, if_neg hp]

theorem hasKind_regroup (t : Formula α) (k : Kind) : t.regroup.HasKind k ↔ t.HasKind k := by
  induction t generalizing k with
  | atom a => rfl
  | unary op operand ih => simp only [regroup, HasKind, ih]
  | binary op left right hl hr =>
    have hj : (joined op left.regroup right.regroup).HasKind k ↔
        (binary op left.regroup right.regroup).HasKind k := by
      rw [joined]
      split
      next ha => exact hasKind_graft ha _ _ k
      next => rfl
    rw [regroup, hj]
    simp only [HasKind, hl, hr]

end Formula

end ODataClient
