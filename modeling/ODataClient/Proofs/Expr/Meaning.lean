import Mathlib.Data.Int.Bitwise
import ODataClient.Proofs.Expr.Reading

/-! Values of formulas over integers and truth values, and which groupings keep them. Levels
of one associative operator, and additions with subtractions, can be regrouped. A product
with a quotient or a remainder as its right factor cannot. -/

namespace ODataClient

inductive Scalar
  | int (n : Int)
  | bool (b : Bool)
  deriving DecidableEq

namespace Operator

/-- The value of an operator; `none` for operands of a wrong kind and for divisions by zero.
Division truncates, and `has` asks for all bits of its right operand. -/
def apply : Operator → Scalar → Scalar → Option Scalar
  | and, .bool a, .bool b => some (.bool (a && b))
  | or, .bool a, .bool b => some (.bool (a || b))
  | eq, .bool a, .bool b => some (.bool (a == b))
  | ne, .bool a, .bool b => some (.bool (a != b))
  | eq, .int a, .int b => some (.bool (a == b))
  | ne, .int a, .int b => some (.bool (a != b))
  | gt, .int a, .int b => some (.bool (b < a))
  | ge, .int a, .int b => some (.bool (b ≤ a))
  | lt, .int a, .int b => some (.bool (a < b))
  | le, .int a, .int b => some (.bool (a ≤ b))
  | has, .int a, .int b => some (.bool (a.land b == b))
  | add, .int a, .int b => some (.int (a + b))
  | sub, .int a, .int b => some (.int (a - b))
  | mul, .int a, .int b => some (.int (a * b))
  | div, .int a, .int b => if b = 0 then none else some (.int (a.tdiv b))
  | mod, .int a, .int b => if b = 0 then none else some (.int (a.tmod b))
  | _, _, _ => none

def applySign : Operator → Scalar → Option Scalar
  | not, .bool a => some (.bool !a)
  | negate, .int a => some (.int (-a))
  | _, _ => none

theorem apply_assoc {op op' : Operator} (ha : op.isAssociative = true)
    (hp : op'.precedence = op.precedence) (hm : op = .mul → op' = .mul) (a b c : Scalar) :
    ((op.apply a b).bind fun x => op'.apply x c) = (op'.apply b c).bind fun y => op.apply a y := by
  cases op with
  | and =>
    obtain rfl : op' = .and := by cases op' <;> first | rfl | exact absurd hp (by decide)
    rcases a with a | a <;> rcases b with b | b <;> rcases c with c | c <;> try rfl
    exact congrArg (fun x => some (Scalar.bool x)) (Bool.and_assoc a b c)
  | or =>
    obtain rfl : op' = .or := by cases op' <;> first | rfl | exact absurd hp (by decide)
    rcases a with a | a <;> rcases b with b | b <;> rcases c with c | c <;> try rfl
    exact congrArg (fun x => some (Scalar.bool x)) (Bool.or_assoc a b c)
  | add =>
    cases op' with
    | add =>
      rcases a with a | a <;> rcases b with b | b <;> rcases c with c | c <;> try rfl
      exact congrArg (fun x => some (Scalar.int x)) (Int.add_assoc a b c)
    | sub =>
      rcases a with a | a <;> rcases b with b | b <;> rcases c with c | c <;> try rfl
      exact congrArg (fun x => some (Scalar.int x)) (Int.add_sub_assoc a b c)
    | _ => exact absurd hp (by decide)
  | mul =>
    obtain rfl := hm rfl
    rcases a with a | a <;> rcases b with b | b <;> rcases c with c | c <;> try rfl
    exact congrArg (fun x => some (Scalar.int x)) (Int.mul_assoc a b c)
  | _ => exact absurd ha (by decide)

end Operator

namespace Formula

variable {α β : Type}

def value : Formula Scalar → Option Scalar
  | atom a => some a
  | binary op left right => left.value.bind fun a => right.value.bind fun b => op.apply a b
  | unary op operand => operand.value.bind op.applySign

/-- Whether a division stands in a chain of factors that is written without parentheses. -/
def loose : Formula α → Bool
  | binary .div _ _ => true
  | binary .mod _ _ => true
  | binary .mul left right => left.loose || right.loose
  | _ => false

/-- Whether no product has such a chain as its right factor. -/
def safe : Formula α → Bool
  | atom _ => true
  | binary .mul left right => left.safe && right.safe && !right.loose
  | binary _ left right => left.safe && right.safe
  | unary _ operand => operand.safe

theorem value_graft {op : Operator} (ha : op.isAssociative = true) (left : Formula Scalar)
    {right : Formula Scalar} (hl : op = .mul → right.loose = false) :
    (graft op left right).value = (binary op left right).value := by
  induction right with
  | atom a => rfl
  | unary op' operand ih => rfl
  | binary op' a b iha ihb =>
    by_cases hp : op'.precedence = op.precedence
    · have hm : op = .mul → op' = .mul := by
        intro hm
        have hl := hl hm
        subst hm
        cases op' <;> simp [Operator.precedence, loose] at hp hl ⊢
      have hla : op = .mul → a.loose = false := by
        intro h
        have hl := hl h
        rw [hm h, loose, Bool.or_eq_false_iff] at hl
        exact hl.1
      rw [graft, if_pos hp, value, iha hla]
      simp only [value]
      cases left.value with
      | none => rfl
      | some x =>
        cases a.value with
        | none => rfl
        | some y =>
          cases b.value with
          | none => simp
          | some z => simpa using Operator.apply_assoc ha hp hm x y z
    · rw [graft, if_neg hp]

theorem loose_of_ne {t : Formula α} (h : t.precedence ≠ 5) : t.loose = false := by
  cases t with
  | atom a => rfl
  | unary op operand => rfl
  | binary op left right => cases op <;> first | rfl | exact absurd rfl h

theorem loose_graft_mul (left right : Formula α) :
    (graft .mul left right).loose = (left.loose || right.loose) := by
  induction right with
  | atom a => simp [graft, loose]
  | unary op operand ih => simp [graft, loose]
  | binary op a b iha ihb =>
    rw [graft]
    split
    next hp =>
      cases op with
      | mul => simp only [loose, iha, Bool.or_assoc]
      | div => simp [loose]
      | mod => simp [loose]
      | _ => simp [Operator.precedence] at hp
    next => simp [loose]

theorem loose_regroup (t : Formula α) : t.regroup.loose = t.loose := by
  induction t with
  | atom a => rfl
  | unary op operand ih => rfl
  | binary op left right hl hr =>
    by_cases h5 : op.precedence = 5
    · cases op with
      | mul =>
        have hj : joined .mul left.regroup right.regroup =
            graft .mul left.regroup right.regroup := rfl
        rw [regroup, hj, loose_graft_mul, hl, hr, loose]
      | div => rfl
      | mod => rfl
      | _ => exact absurd h5 (by decide)
    · rw [loose_of_ne (t := binary op left right) h5, regroup]
      exact loose_of_ne (by rwa [precedence_joined])

theorem value_joined {op : Operator} (left : Formula Scalar) {right : Formula Scalar}
    (hl : op = .mul → right.loose = false) :
    (joined op left right).value = (binary op left right).value := by
  rw [joined]
  split
  next ha => exact value_graft ha left hl
  next => rfl

theorem value_regroup_of_safe {t : Formula Scalar} (h : t.safe = true) :
    t.regroup.value = t.value := by
  induction t with
  | atom a => rfl
  | unary op operand ih => rw [regroup, value, value, ih h]
  | binary op left right hl hr =>
    have hs : left.safe = true ∧ right.safe = true ∧ (op = .mul → right.loose = false) := by
      cases op <;> simp_all [safe]
    rw [regroup, value_joined _ fun hm => (loose_regroup right).trans (hs.2.2 hm), value, value,
      hl hs.1, hr hs.2.1]

end Formula

end ODataClient
