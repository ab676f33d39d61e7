import ODataClient.Proofs.Expr.Sequences

/-! Texts of filters as they are written by hand, with their parentheses. Where no operand binds more
loosely than its operator, and none on the right as loosely, the tokens of such a text are read as
its operators group. What stands between its outermost `or`s needs no parentheses beside `and`. -/

namespace ODataClient

theorem Operator.eq_and_of_precedence {op : Operator}
    (h : op.precedence = Operator.and.precedence) : op = .and := by
  cases op <;> first | rfl | exact absurd h (by decide)

theorem Operator.and_le_of_ne {op : Operator} (h : op ≠ .or) :
    Operator.and.precedence ≤ op.precedence := by
  cases op <;> first | exact absurd rfl h | decide

inductive Phrase (α : Type)
  | operand (a : α)
  | group (inner : Phrase α)
  | sign (op : Operator) (operand : Phrase α)
  | joint (op : Operator) (left right : Phrase α)

namespace Phrase

variable {α β : Type}

def tokens : Phrase α → List (Token α)
  | operand a => [.operand a]
  | group p => .opening :: p.tokens ++ [.closing]
  | sign op p => .sign op :: p.tokens
  | joint op left right => left.tokens ++ .joint op :: right.tokens

def formula : Phrase α → Formula α
  | operand a => .atom a
  | group p => p.formula
  | sign op p => .unary op p.formula
  | joint op left right => .binary op left.formula right.formula

def map (f : α → β) : Phrase α → Phrase β
  | operand a => operand (f a)
  | group p => group (p.map f)
  | sign op p => sign op (p.map f)
  | joint op left right => joint op (left.map f) (right.map f)

def precedence : Phrase α → Nat
  | operand _ => Operator.leaf.precedence
  | group _ => Operator.leaf.precedence
  | sign op _ => op.precedence
  | joint op _ _ => op.precedence

def Leveled : Phrase α → Prop
  | operand _ => True
  | group p => p.Leveled
  | sign op p => op.precedence = 6 ∧ op.precedence ≤ p.precedence ∧ p.Leveled
  | joint op left right => op.precedence ≤ 5 ∧ op.precedence ≤ left.precedence ∧
      op.precedence < right.precedence ∧ left.Leveled ∧ right.Leveled

theorem formula_map (f : α → β) (p : Phrase α) : (p.map f).formula = p.formula.map f := by
  induction p with
  | operand a => rfl
  | group p ih => exact ih
  | sign op p ih => exact congrArg (Formula.unary op) ih
  | joint op left right hl hr => exact congrArg₂ (Formula.binary op) hl hr

theorem map_map_unit (f : α → β) (p : Phrase α) :
    (p.map f).map (fun _ => ()) = p.map fun _ => () := by
  induction p with
  | operand a => rfl
  | group p ih => exact congrArg group ih
  | sign op p ih => exact congrArg (sign op) ih
  | joint op left right hl hr => exact congrArg₂ (joint op) hl hr

/-- A phrase has its shape and its formula and nothing else. -/
theorem eq_of_formula {p q : Phrase α} (h : p.map (fun _ => ()) = q.map fun _ => ())
    (hf : p.formula = q.formula) : p = q := by
  induction p generalizing q with
  | operand a =>
    cases q with
    | operand b => exact congrArg operand (Formula.atom.inj hf)
    | _ => exact absurd h (by simp [map])
  | group p ih =>
    cases q with
    | group q => exact congrArg group (ih (group.inj h) hf)
    | _ => exact absurd h (by simp [map])
  | sign op p ih =>
    cases q with
    | sign op' q =>
      obtain ⟨rfl, hshape⟩ := sign.inj h
      exact congrArg (sign op) (ih hshape (Formula.unary.inj hf).2)
    | _ => exact absurd h (by simp [map])
  | joint op left right hl hr =>
    cases q with
    | joint op' left' right' =>
      obtain ⟨rfl, hleft, hright⟩ := joint.inj h
      obtain ⟨-, hf, hf'⟩ := Formula.binary.inj hf
      exact congrArg₂ (joint op) (hl hleft hf) (hr hright hf')
    | _ => exact absurd h (by simp [map])

/-- Parentheses are no part of a formula, so a phrase takes every choice of its atoms. -/
theorem exists_filled {g : Formula Scalar} {p : Phrase α} (h : g.Fills p.formula) :
    ∃ q : Phrase Scalar, q.map (fun _ => ()) = p.map (fun _ => ()) ∧ q.formula = g := by
  induction p generalizing g with
  | operand a =>
    cases g with
    | atom v => exact ⟨operand v, rfl, rfl⟩
    | _ => exact absurd h (by simp [Formula.Fills, formula, Formula.map])
  | group p ih =>
    obtain ⟨q, hq, rfl⟩ := ih h
    exact ⟨group q, congrArg group hq, rfl⟩
  | sign op p ih =>
    cases g with
    | unary op' g =>
      obtain ⟨rfl, hg⟩ := Formula.unary.inj h
      obtain ⟨q, hq, rfl⟩ := ih hg
      exact ⟨sign op' q, congrArg (sign op') hq, rfl⟩
    | _ => exact absurd h (by simp [Formula.Fills, formula, Formula.map])
  | joint op left right hl hr =>
    cases g with
    | binary op' a b =>
      obtain ⟨rfl, ha, hb⟩ := Formula.binary.inj h
      obtain ⟨q, hq, rfl⟩ := hl ha
      obtain ⟨q', hq', rfl⟩ := hr hb
      exact ⟨joint op' q q', congrArg₂ (joint op') hq hq', rfl⟩
    | _ => exact absurd h (by simp [Formula.Fills, formula, Formula.map])

theorem readsAs {p : Phrase α} (hp : p.Leveled) (frames : List (Frame α))
    (hw : p.precedence ≤ 5 → Reader.Waits p.precedence frames) :
    Reader.ReadsAs p.precedence frames p.tokens frames p.formula := by
  induction p generalizing frames with
  | operand a => exact fun rest => ⟨frames, .atom a, rfl, fun _ _ => rfl⟩
  | group p ih => exact Reader.readsAs_parentheses (ih hp _ fun _ => trivial) _
  | sign op p ih =>
    obtain ⟨h6, hle, hp⟩ := hp
    exact Reader.readsAs_sign ((ih hp _ fun h5 => absurd hle (by omega)).mono hle)
  | joint op left right hl hr =>
    obtain ⟨h5, hle, hlt, hleft, hright⟩ := hp
    have hw : Reader.Waits op.precedence frames := hw h5
    have hr := hr hright (.left op left.formula :: frames) fun _ => hlt
    exact Reader.readsAs_joint ((hl hleft _ fun _ => hw.mono hle).mono hle) hw
      (Reader.readsAs_closed (Nat.le_refl _) (hr.mono (Nat.le_of_lt hlt)))

theorem read_tokens {p : Phrase α} (hp : p.Leveled) : Reader.read p.tokens = some p.formula := by
  obtain ⟨frames, t, hrun, hreduce⟩ := readsAs hp [] (fun _ => trivial) []
  rw [List.append_nil] at hrun
  rw [Reader.read, hrun, Reader.run, hreduce 0 (Nat.zero_le _)]
  rfl

/-- The loosest operator outside of all parentheses is `or`. -/
def isDisjunction : Phrase α → Bool
  | joint op _ _ => op == .or
  | _ => false

def whole (p : Phrase α) : Operand α := ⟨p.tokens, p.formula⟩

/-- What stands before the first `or` outside of parentheses. -/
def first : Phrase α → Operand α
  | joint op left right => if op = .or then left.first else (joint op left right).whole
  | p => p.whole

/-- What stands behind each `or` outside of parentheses. -/
def rest : Phrase α → List (Operator × Operand α)
  | joint op left right => if op = .or then left.rest ++ [(.or, right.whole)] else []
  | _ => []

theorem first_of_not {p : Phrase α} (h : p.isDisjunction = false) : p.first = p.whole := by
  cases p with
  | joint op left right => exact if_neg (beq_eq_false_iff_ne.1 h)
  | _ => rfl

theorem rest_of_not {p : Phrase α} (h : p.isDisjunction = false) : p.rest = [] := by
  cases p with
  | joint op left right => exact if_neg (beq_eq_false_iff_ne.1 h)
  | _ => rfl

@[elab_as_elim] theorem disjunction_induction {P : Phrase α → Prop}
    (disjunction : ∀ left right, P left → P (joint .or left right))
    (other : ∀ p : Phrase α, p.isDisjunction = false → P p) (p : Phrase α) : P p := by
  induction p with
  | joint op left right hl hr =>
    by_cases hop : op = .or
    · exact hop ▸ disjunction left right hl
    · exact other _ (beq_eq_false_iff_ne.2 hop)
  | operand a => exact other _ rfl
  | group p ih => exact other _ rfl
  | sign op p ih => exact other _ rfl

theorem exists_rest {p : Phrase α} (h : p.isDisjunction = true) :
    ∃ b row, p.rest = (.or, b) :: row := by
  induction p using disjunction_induction with
  | disjunction left right ih =>
    have hrest : (joint .or left right).rest = left.rest ++ [(.or, right.whole)] := if_pos rfl
    rw [hrest]
    by_cases hl : left.isDisjunction = true
    · obtain ⟨b, row, hrow⟩ := ih hl
      rw [hrow]
      exact ⟨b, _, rfl⟩
    · rw [rest_of_not (Bool.eq_false_iff.2 hl)]
      exact ⟨_, _, rfl⟩
  | other p hp => exact absurd h (Bool.eq_false_iff.1 hp)

theorem first_or (left right : Phrase α) : (joint .or left right).first = left.first := if_pos rfl

theorem rest_or (left right : Phrase α) :
    (joint .or left right).rest = left.rest ++ [(.or, right.whole)] := if_pos rfl

theorem isDisjunction_map (f : α → β) (p : Phrase α) :
    (p.map f).isDisjunction = p.isDisjunction := by
  cases p <;> rfl

theorem tokens_eq (p : Phrase α) : p.tokens = p.first.tokens ++ Operand.rowTokens p.rest := by
  induction p using disjunction_induction with
  | disjunction left right ih =>
    rw [first_or, rest_or, tokens, ih]
    simp [Operand.rowTokens, whole]
  | other p h =>
    rw [first_of_not h, rest_of_not h]
    simp [Operand.rowTokens, whole]

theorem grouped_eq (p : Phrase α) :
    Formula.grouped none p.first.formula (Operand.rowFormulas p.rest) = p.formula := by
  induction p using disjunction_induction with
  | disjunction left right ih =>
    rw [first_or, rest_or, Operand.rowFormulas, List.map_append]
    exact (Formula.grouped_append_or none _ _ _).trans (congrArg (Formula.binary .or · _) ih)
  | other p h =>
    rw [first_of_not h, rest_of_not h]
    rfl

theorem row_map (f : α → β) (p : Phrase α) :
    (p.map f).first.formula = p.first.formula.map f ∧
      Operand.rowFormulas (p.map f).rest =
        (Operand.rowFormulas p.rest).map fun l => (l.1, l.2.map f) := by
  induction p using disjunction_induction with
  | disjunction left right ih =>
    have hmap : (joint .or left right).map f = joint .or (left.map f) (right.map f) := rfl
    rw [hmap, first_or, first_or, rest_or, rest_or]
    refine ⟨ih.1, ?_⟩
    have h := ih.2
    simp only [Operand.rowFormulas] at h
    simp [Operand.rowFormulas, h, whole, formula_map]
  | other p h =>
    have hm : (p.map f).isDisjunction = false := (isDisjunction_map f p).trans h
    rw [first_of_not h, rest_of_not h, first_of_not hm, rest_of_not hm]
    exact ⟨formula_map f p, rfl⟩

theorem exists_joined_of_lt {p : Phrase α} (hp : p.Leveled)
    (hlt : Operator.and.precedence < p.precedence) (t : Formula α) (frames : List (Frame α)) :
    ∃ u, Reader.ReadsAs Operator.and.precedence (.left .and t :: frames) p.tokens frames u ∧
      Formula.Same u (.binary .and t p.formula) := by
  have hread := readsAs hp (.left .and t :: frames) fun _ => hlt
  exact ⟨_, Reader.readsAs_closed (Nat.le_refl _) (hread.mono (Nat.le_of_lt hlt)),
    Formula.Same.refl _⟩

/-- The levels inside a phrase keep it together beside `and`. -/
theorem stands {p : Phrase α} (hp : p.Leveled) (h : Operator.and.precedence ≤ p.precedence) :
    p.whole.Stands := by
  refine ⟨fun hw => (readsAs hp _ fun _ => hw.mono h).mono h, fun t frames hw => ?_⟩
  induction p with
  | operand a => exact exists_joined_of_lt hp (show (2 : Nat) < 7 by decide) t frames
  | group p ih => exact exists_joined_of_lt hp (show (2 : Nat) < 7 by decide) t frames
  | sign op p ih =>
    have h6 : (sign op p).precedence = 6 := hp.1
    exact exists_joined_of_lt hp (h6 ▸ by decide) t frames
  | joint op left right hl hr =>
    -- What stands left of an `and` is joined first.
    rcases Nat.lt_or_eq_of_le h with hlt | heq
    · exact exists_joined_of_lt hp hlt t frames
    · obtain rfl := Operator.eq_and_of_precedence heq.symm
      obtain ⟨-, hle, hlt, hleft, hright⟩ := hp
      obtain ⟨u, hu, hsame⟩ := hl hleft hle
      have hr := readsAs hright (.left .and u :: frames) fun _ => hlt
      refine ⟨.binary .and u right.formula, ?_, ?_⟩
      · exact Reader.readsAs_joint hu hw (Reader.readsAs_closed (Nat.le_refl _)
          (hr.mono (Nat.le_of_lt hlt)))
      · exact (hsame.binary .and (Formula.Same.refl _)).trans (Formula.same_assoc (.inl rfl) _ _ _)

theorem stands_first {p : Phrase α} (hp : p.Leveled) :
    p.first.Stands ∧ ∀ l ∈ p.rest, (l.1 = .and ∨ l.1 = .or) ∧ l.2.Stands := by
  induction p using disjunction_induction with
  | disjunction left right ih =>
    obtain ⟨-, -, hlt, hleft, hright⟩ := hp
    obtain ⟨hfirst, hrest⟩ := ih hleft
    rw [first_or, rest_or]
    refine ⟨hfirst, fun l hl => ?_⟩
    rcases List.mem_append.1 hl with hl | hl
    · exact hrest l hl
    · obtain rfl := List.mem_singleton.1 hl
      exact ⟨.inr rfl, stands hright hlt⟩
  | other p h =>
    have hp2 : Operator.and.precedence ≤ p.precedence := by
      cases p with
      | joint op left right => exact Operator.and_le_of_ne (beq_eq_false_iff_ne.1 h)
      | operand a => exact show (2 : Nat) ≤ 7 by decide
      | group p => exact show (2 : Nat) ≤ 7 by decide
      | sign op p =>
        have h6 : (sign op p).precedence = 6 := hp.1
        exact h6 ▸ by decide
    rw [first_of_not h, rest_of_not h]
    exact ⟨stands hp hp2, fun l hl => absurd hl List.not_mem_nil⟩

/-- Every operand of a phrase that is true or false can be chosen to be true, or to be false. -/
theorem exists_says {p : Phrase α} (hk : p.formula.HasKind .bool) (b : Bool) :
    ∃ q : Phrase Scalar, q.map (fun _ => ()) = p.map (fun _ => ()) ∧
      q.formula.value = some (.bool b) ∧ q.first.formula.value = some (.bool b) ∧
      ∀ l ∈ q.rest, l.2.formula.value = some (.bool b) := by
  induction p using disjunction_induction with
  | disjunction left right ih =>
    obtain ⟨-, hleft, hright⟩ := (Formula.hasKind_junction (.inr rfl)).1 hk
    obtain ⟨q, hq, hv, hfirst, hrest⟩ := ih hleft
    obtain ⟨g, hg, hy⟩ := Formula.exists_yields right.formula (v := .bool b) hright 0
    obtain ⟨q', hq', rfl⟩ := exists_filled hg
    refine ⟨joint .or q q', congrArg₂ (joint .or) hq hq', ?_, ?_, ?_⟩
    · rw [formula, Formula.value_binary hv hy.value, Operator.apply, Bool.or_self]
    · rw [first_or]
      exact hfirst
    · rw [rest_or]
      intro l hl
      rcases List.mem_append.1 hl with hl | hl
      · exact hrest l hl
      · obtain rfl := List.mem_singleton.1 hl
        exact hy.value
  | other p h =>
    obtain ⟨g, hg, hy⟩ := Formula.exists_yields p.formula (v := .bool b) hk 0
    obtain ⟨q, hq, rfl⟩ := exists_filled hg
    have hn : q.isDisjunction = false := by
      rw [← isDisjunction_map fun _ => (), hq, isDisjunction_map, h]
    refine ⟨q, hq, hy.value, ?_, ?_⟩
    · rw [first_of_not hn]
      exact hy.value
    · rw [rest_of_not hn]
      exact fun l hl => absurd hl List.not_mem_nil

end Phrase

end ODataClient
