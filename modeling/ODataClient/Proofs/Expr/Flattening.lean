import ODataClient.Proofs.Expr.Occurrences
import Mathlib.Logic.Function.Iterate

/-! The conjuncts of an expression: what is reached from it through `and` nodes alone and is none
itself, from left to right. They can be found by a loop over pending expressions that puts the
operands of an `and` node back, so that more may be pending after a round than before it. What has
been found and what the pending expressions still hold together never change, and the number of
rounds is known beforehand. How the `and` nodes are nested shows nowhere in the conjuncts, and
nothing else is lost in them. -/

namespace ODataClient

namespace Expr

def isConjunction : Expr → Bool
  | binary .and _ _ => true
  | _ => false

@[elab_as_elim] theorem conjunction_induction {P : Expr → Prop}
    (and : ∀ left right, P left → P right → P (binary .and left right))
    (other : ∀ e, e.isConjunction = false → P e) (e : Expr) : P e := by
  induction e using shape_induction with
  | binary op left right hl hr =>
    by_cases h : op = .and
    · rw [h]
      exact and left right hl hr
    · exact other _ (by simp [isConjunction, h])
  | _ => exact other _ rfl

theorem conjuncts_other {e : Expr} (h : e.isConjunction = false) : e.conjuncts = [e] := by
  cases e with
  | binary op left right => cases op <;> first | rfl | cases h
  | _ => rfl

theorem conjuncts_length_pos (e : Expr) : 0 < e.conjuncts.length := by
  induction e using conjunction_induction with
  | and left right hl hr =>
    rw [conjuncts_and, List.length_append]
    omega
  | other e h => simp [conjuncts_other h]

theorem isConjunction_of_mem_conjuncts {e part : Expr} (h : part ∈ e.conjuncts) :
    part.isConjunction = false := by
  induction e using conjunction_induction with
  | and left right hl hr =>
    rw [conjuncts_and] at h
    exact (List.mem_append.1 h).elim hl hr
  | other e he =>
    rw [conjuncts_other he, List.mem_singleton] at h
    rwa [h]

end Expr

/-! ### The loop -/

/-- Where the loop stands: what it has still to look at, the next one first, and what it has
found. -/
structure Flattening where
  pending : List Expr
  found : List Expr

namespace Flattening

/-- One round. The operands of an `and` node are pending in its place, the left one before the
right one; anything else is found. -/
def next : Flattening → Flattening
  | ⟨[], found⟩ => ⟨[], found⟩
  | ⟨.binary .and left right :: pending, found⟩ => ⟨left :: right :: pending, found⟩
  | ⟨e :: pending, found⟩ => ⟨pending, found ++ [e]⟩

def start (e : Expr) : Flattening := ⟨[e], []⟩

/-- What has been found, and what is still to be found in the pending expressions. -/
def conjuncts (s : Flattening) : List Expr := s.found ++ s.pending.flatMap Expr.conjuncts

/-- One round for each conjunct of the pending expressions and one for each `and` node above. -/
def roundsLeft (s : Flattening) : Nat :=
  s.pending.foldr (fun e rounds => 2 * e.conjuncts.length - 1 + rounds) 0

theorem next_other {e : Expr} (h : e.isConjunction = false) (pending found : List Expr) :
    next ⟨e :: pending, found⟩ = ⟨pending, found ++ [e]⟩ := by
  cases e with
  | binary op left right => cases op <;> first | rfl | cases h
  | _ => rfl

theorem conjuncts_next (s : Flattening) : s.next.conjuncts = s.conjuncts := by
  obtain ⟨_ | ⟨e, pending⟩, found⟩ := s
  · rfl
  · induction e using Expr.conjunction_induction with
    | and left right =>
      simp only [next, conjuncts, List.flatMap_cons, Expr.conjuncts_and, List.append_assoc]
    | other e h =>
      simp only [next_other h, conjuncts, List.flatMap_cons, Expr.conjuncts_other h,
        List.append_assoc]

theorem roundsLeft_next (s : Flattening) : s.next.roundsLeft = s.roundsLeft - 1 := by
  obtain ⟨_ | ⟨e, pending⟩, found⟩ := s
  · rfl
  · induction e using Expr.conjunction_induction with
    | and left right =>
      have hleft := left.conjuncts_length_pos
      have hright := right.conjuncts_length_pos
      simp only [next, roundsLeft, List.foldr_cons, Expr.conjuncts_and, List.length_append]
      omega
    | other e h =>
      simp only [next_other h, roundsLeft, List.foldr_cons, Expr.conjuncts_other h,
        List.length_singleton]
      omega

theorem roundsLeft_eq_zero_iff {s : Flattening} : s.roundsLeft = 0 ↔ s.pending = [] := by
  obtain ⟨_ | ⟨e, pending⟩, found⟩ := s
  · simp [roundsLeft]
  · have hpos := e.conjuncts_length_pos
    simp only [roundsLeft, List.foldr_cons, reduceCtorEq, iff_false]
    omega

theorem conjuncts_iterate (n : Nat) (s : Flattening) : (next^[n] s).conjuncts = s.conjuncts := by
  induction n generalizing s with
  | zero => rfl
  | succ n ih => rw [Function.iterate_succ_apply, ih, conjuncts_next]

theorem roundsLeft_iterate (n : Nat) (s : Flattening) :
    (next^[n] s).roundsLeft = s.roundsLeft - n := by
  induction n generalizing s with
  | zero => rfl
  | succ n ih =>
    rw [Function.iterate_succ_apply, ih, roundsLeft_next]
    omega

/-- The loop ends, after the rounds that were left and not before, with the conjuncts of what was
pending behind those that it had found. -/
theorem iterate_eq_iff {n : Nat} {s : Flattening} :
    next^[n] s = ⟨[], s.conjuncts⟩ ↔ s.roundsLeft ≤ n := by
  have hrounds := roundsLeft_iterate n s
  constructor
  · intro h
    have hzero : (next^[n] s).roundsLeft = 0 := by rw [h]; rfl
    omega
  · intro h
    have hpending : (next^[n] s).pending = [] := roundsLeft_eq_zero_iff.1 (by omega)
    have hconjuncts := conjuncts_iterate n s
    generalize next^[n] s = t at hpending hconjuncts
    obtain ⟨pending, found⟩ := t
    obtain rfl : pending = [] := hpending
    rw [← hconjuncts, conjuncts, List.flatMap_nil, List.append_nil]

theorem iterate_start_iff {n : Nat} {e : Expr} :
    next^[n] (start e) = ⟨[], e.conjuncts⟩ ↔ 2 * e.conjuncts.length - 1 ≤ n := by
  have h := @iterate_eq_iff n (start e)
  simpa [conjuncts, roundsLeft, start] using h

end Flattening

namespace Expr

/-! ### Where the conjuncts stand -/

inductive Side
  | left
  | right
  deriving DecidableEq

/-- What a path through the operands of `and` nodes leads to. -/
def operandAt? : List Side → Expr → Option Expr
  | [], e => some e
  | .left :: path, binary .and left _ => operandAt? path left
  | .right :: path, binary .and _ right => operandAt? path right
  | _ :: _, _ => none

/-- The paths part at some node, where the first one goes to the left. -/
def LeftOf (p q : List Side) : Prop :=
  ∃ common p' q', p = common ++ .left :: p' ∧ q = common ++ .right :: q'

def conjunctPaths : Expr → List (List Side)
  | binary .and left right =>
    (conjunctPaths left).map (.left :: ·) ++ (conjunctPaths right).map (.right :: ·)
  | _ => [[]]

theorem conjunctPaths_other {e : Expr} (h : e.isConjunction = false) : e.conjunctPaths = [[]] := by
  cases e with
  | binary op left right => cases op <;> first | rfl | cases h
  | _ => rfl

theorem operandAt?_cons_other {e : Expr} (h : e.isConjunction = false) (side : Side)
    (path : List Side) : operandAt? (side :: path) e = none := by
  cases e with
  | binary op left right => cases op <;> cases side <;> first | rfl | cases h
  | _ => cases side <;> rfl

theorem LeftOf.cons {p q : List Side} (h : LeftOf p q) (side : Side) :
    LeftOf (side :: p) (side :: q) := by
  obtain ⟨common, p', q', rfl, rfl⟩ := h
  exact ⟨side :: common, p', q', rfl, rfl⟩

theorem conjunctPaths_leftOf (e : Expr) : e.conjunctPaths.Pairwise LeftOf := by
  induction e using conjunction_induction with
  | and left right hl hr =>
    rw [conjunctPaths, List.pairwise_append]
    refine ⟨List.pairwise_map.2 (hl.imp (·.cons .left)),
      List.pairwise_map.2 (hr.imp (·.cons .right)), fun p hp q hq => ?_⟩
    obtain ⟨p', -, rfl⟩ := List.mem_map.1 hp
    obtain ⟨q', -, rfl⟩ := List.mem_map.1 hq
    exact ⟨[], p', q', rfl, rfl⟩
  | other e h => simp [conjunctPaths_other h]

theorem mem_conjunctPaths_iff {e : Expr} {path : List Side} : path ∈ e.conjunctPaths ↔
    ∃ part, operandAt? path e = some part ∧ part.isConjunction = false := by
  induction e using conjunction_induction generalizing path with
  | and left right hl hr =>
    rw [conjunctPaths, List.mem_append, List.mem_map, List.mem_map]
    match path with
    | [] => simp [operandAt?, isConjunction]
    | .left :: path => simp [operandAt?, hl]
    | .right :: path => simp [operandAt?, hr]
  | other e h =>
    rw [conjunctPaths_other h, List.mem_singleton]
    match path with
    | [] => simp [operandAt?, h]
    | side :: path => simp [operandAt?_cons_other h]

theorem map_operandAt?_conjunctPaths (e : Expr) :
    e.conjunctPaths.map (operandAt? · e) = e.conjuncts.map some := by
  induction e using conjunction_induction with
  | and left right hl hr =>
    rw [conjunctPaths, conjuncts_and, List.map_append, List.map_append, List.map_map, List.map_map,
      ← hl, ← hr]
    rfl
  | other e h => simp [conjunctPaths_other h, conjuncts_other h, operandAt?]

/-! ### Nesting -/

/-- The expressions differ in the nesting of their `and` nodes alone. -/
inductive Regrouped : Expr → Expr → Prop
  | rotate (a b c : Expr) :
    Regrouped (binary .and a (binary .and b c)) (binary .and (binary .and a b) c)
  | operands {a a' b b' : Expr} :
    Regrouped a a' → Regrouped b b' → Regrouped (binary .and a b) (binary .and a' b')
  | refl (e : Expr) : Regrouped e e
  | symm {e e' : Expr} : Regrouped e e' → Regrouped e' e
  | trans {e e' e'' : Expr} : Regrouped e e' → Regrouped e' e'' → Regrouped e e''

theorem Regrouped.conjuncts_eq {e e' : Expr} (h : Regrouped e e') :
    e.conjuncts = e'.conjuncts := by
  induction h with
  | rotate a b c => simp only [conjuncts_and, List.append_assoc]
  | operands _ _ ha hb => rw [conjuncts_and, conjuncts_and, ha, hb]
  | refl e => rfl
  | symm _ ih => exact ih.symm
  | trans _ _ ih ih' => exact ih.trans ih'

theorem Regrouped.foldl {e e' : Expr} (h : Regrouped e e') (rest : List Expr) :
    Regrouped (rest.foldl (binary .and) e) (rest.foldl (binary .and) e') := by
  induction rest generalizing e e' with
  | nil => exact h
  | cons x rest ih => exact ih (.operands h (.refl x))

theorem regrouped_and_foldl (a first : Expr) (rest : List Expr) :
    Regrouped (binary .and a (rest.foldl (binary .and) first))
      (rest.foldl (binary .and) (binary .and a first)) := by
  induction rest generalizing first with
  | nil => exact .refl _
  | cons x rest ih =>
    exact (ih (binary .and first x)).trans ((Regrouped.rotate a first x).foldl rest)

/-- Every expression can be regrouped so that its conjuncts are joined one by one. -/
theorem exists_regrouped_foldl (e : Expr) : ∃ first rest,
    e.conjuncts = first :: rest ∧ Regrouped e (rest.foldl (binary .and) first) := by
  induction e using conjunction_induction with
  | and left right hl hr =>
    obtain ⟨a, as, hleft, ha⟩ := hl
    obtain ⟨b, bs, hright, hb⟩ := hr
    refine ⟨a, as ++ b :: bs, by rw [conjuncts_and, hleft, hright, List.cons_append], ?_⟩
    rw [List.foldl_append]
    exact (Regrouped.operands ha hb).trans (regrouped_and_foldl _ b bs)
  | other e h => exact ⟨e, [], conjuncts_other h, .refl e⟩

theorem regrouped_iff {e e' : Expr} : Regrouped e e' ↔ e.conjuncts = e'.conjuncts := by
  refine ⟨Regrouped.conjuncts_eq, fun h => ?_⟩
  obtain ⟨first, rest, he, hgrouped⟩ := exists_regrouped_foldl e
  obtain ⟨first', rest', he', hgrouped'⟩ := exists_regrouped_foldl e'
  obtain ⟨rfl, rfl⟩ := List.cons.inj (he.symm.trans (h.trans he'))
  exact hgrouped.trans hgrouped'.symm

/-- The loop ends with the conjuncts of the expression. They are what stands at the ends of all
paths through `and` nodes, from left to right, and two expressions have the same ones exactly when
they differ in the nesting of these nodes alone. -/
theorem conjuncts_in_order :
    (∀ (e : Expr) n, Flattening.next^[n] (.start e) = ⟨[], e.conjuncts⟩ ↔
      2 * e.conjuncts.length - 1 ≤ n) ∧
    (∀ e : Expr, ∃ paths : List (List Side), paths.Pairwise LeftOf ∧
      (∀ path, path ∈ paths ↔
        ∃ part, operandAt? path e = some part ∧ part.isConjunction = false) ∧
      paths.map (operandAt? · e) = e.conjuncts.map some) ∧
    (∀ a b, (binary .and a b).conjuncts = a.conjuncts ++ b.conjuncts) ∧
    (∀ e : Expr, e.isConjunction = false → e.conjuncts = [e]) ∧
    (∀ e : Expr, ∀ part ∈ e.conjuncts, part.isConjunction = false) ∧
    ∀ e e' : Expr, Regrouped e e' ↔ e.conjuncts = e'.conjuncts :=
  ⟨fun _ _ => Flattening.iterate_start_iff,
    fun e => ⟨e.conjunctPaths, e.conjunctPaths_leftOf, fun _ => mem_conjunctPaths_iff,
      e.map_operandAt?_conjunctPaths⟩,
    conjuncts_and, fun _ => conjuncts_other, fun _ _ => isConjunction_of_mem_conjuncts,
    fun _ _ => regrouped_iff⟩

def heavyFreight : Expr := .binary .gt (.reference "Freight") (.value (.int32 9))

/-- The `and` nodes below the `or` and in the lambda stay where they are. -/
def shippedLate : Expr :=
  .binary .or (.binary .and (.reference "Shipped") (.reference "Late"))
    (.anyOf "OrderDetails" "d" (.binary .and (.reference "d/Late") (.reference "d/Shipped")))

def lateFreights : Expr :=
  .binary .and heavyFreight (.binary .and shippedLate (.reference "Paid"))

theorem conjuncts_in_order_lateFreights :
    (Flattening.next^[5] (.start lateFreights) =
        ⟨[], [heavyFreight, shippedLate, .reference "Paid"]⟩ ∧
      ¬ Flattening.next^[4] (.start lateFreights) =
        ⟨[], [heavyFreight, shippedLate, .reference "Paid"]⟩) ∧
    (shippedLate.isConjunction = false ∧ shippedLate.conjuncts = [shippedLate]) ∧
    Regrouped lateFreights
      (.binary .and (.binary .and heavyFreight shippedLate) (.reference "Paid")) := by
  have hconjuncts : lateFreights.conjuncts = [heavyFreight, shippedLate, .reference "Paid"] := rfl
  have hother : shippedLate.isConjunction = false := rfl
  obtain ⟨hloop, -, -, hsingle, -, hgroup⟩ := conjuncts_in_order
  have hrounds := hloop lateFreights
  rw [hconjuncts] at hrounds
  exact ⟨⟨(hrounds 5).2 (by decide), fun h => absurd ((hrounds 4).1 h) (by decide)⟩,
    ⟨hother, hsingle shippedLate hother⟩, (hgroup _ _).2 rfl⟩

end Expr

end ODataClient
