import ODataClient.Proofs.Expr.Formula

/-! Reading tokens back. The reader keeps the operators that wait for their right operand on
a stack; an operator first closes those before it that bind as tightly or tighter, so that
operators of one level group to the left. A text that the renderer writes is read back as the
same formula, except that a bare right operand of the level of its operator is regrouped. -/

namespace ODataClient

namespace Formula

variable {α : Type}

/-- An operator with its left operand put in front of the operands of its own level. -/
def graft (op : Operator) (left : Formula α) : Formula α → Formula α
  | atom a => binary op left (atom a)
  | unary op' operand => binary op left (unary op' operand)
  | binary op' a b =>
    if op'.precedence = op.precedence then binary op' (graft op left a) b
    else binary op left (binary op' a b)

/-- Two operands joined as they are read without parentheses around the right one, where the
renderer leaves them out. -/
def joined (op : Operator) (left right : Formula α) : Formula α :=
  if op.isAssociative then graft op left right else binary op left right

/-- The formula with the operators of one level grouped to the left. -/
def regroup : Formula α → Formula α
  | atom a => atom a
  | binary op left right => joined op left.regroup right.regroup
  | unary op operand => unary op operand.regroup

theorem graft_of_ne {op : Operator} {left right : Formula α}
    (h : right.precedence ≠ op.precedence) : graft op left right = binary op left right := by
  cases right with
  | binary op' a b => exact if_neg h
  | _ => rfl

theorem precedence_graft (op : Operator) (left right : Formula α) :
    (graft op left right).precedence = op.precedence := by
  cases right with
  | binary op' a b =>
    rw [graft]
    split
    next h => exact h
    next => rfl
  | _ => rfl

theorem precedence_joined (op : Operator) (left right : Formula α) :
    (joined op left right).precedence = op.precedence := by
  rw [joined]
  split
  · exact precedence_graft op left right
  · rfl

theorem precedence_regroup (t : Formula α) : t.regroup.precedence = t.precedence := by
  cases t with
  | binary op left right => exact precedence_joined op _ _
  | _ => rfl

theorem joined_of_ne {op : Operator} {left right : Formula α}
    (h : right.precedence ≠ op.precedence) : joined op left right = binary op left right := by
  rw [joined, graft_of_ne h, ite_self]

theorem graft_graft {op op' : Operator} (h : op'.precedence = op.precedence)
    (left middle right : Formula α) :
    graft op left (graft op' middle right) = graft op' (graft op left middle) right := by
  induction right with
  | atom a => simp only [graft, if_pos h]
  | unary op'' operand ih => simp only [graft, if_pos h]
  | binary op'' a b ha hb =>
    by_cases h' : op''.precedence = op'.precedence
    · simp only [graft, if_pos h', if_pos (h'.trans h), ha]
    · simp only [graft, if_neg h', if_pos h]

theorem graft_joined {op op' : Operator} (h : op'.precedence = op.precedence)
    (left middle right : Formula α) :
    graft op left (joined op' middle right) = joined op' (graft op left middle) right := by
  rw [joined, joined]
  split
  · exact graft_graft h left middle right
  · rw [graft, if_pos h]

end Formula

inductive Frame (α : Type)
  | left (op : Operator) (t : Formula α)
  | sign (op : Operator)
  | opening

namespace Reader

variable {α : Type}

def reduce (p : Nat) : List (Frame α) → Formula α → List (Frame α) × Formula α
  | [], t => ([], t)
  | .opening :: frames, t => (.opening :: frames, t)
  | .left op l :: frames, t =>
    if p ≤ op.precedence then reduce p frames (.binary op l t) else (.left op l :: frames, t)
  | .sign op :: frames, t =>
    if p ≤ op.precedence then reduce p frames (.unary op t) else (.sign op :: frames, t)

def run : List (Frame α) → Option (Formula α) → List (Token α) → Option (Formula α)
  | frames, none, .operand a :: ks => run frames (some (.atom a)) ks
  | frames, none, .sign op :: ks => run (.sign op :: frames) none ks
  | frames, none, .opening :: ks => run (.opening :: frames) none ks
  | frames, some t, .joint op :: ks =>
    let (frames, t) := reduce op.precedence frames t
    run (.left op t :: frames) none ks
  | frames, some t, .closing :: ks =>
    match reduce 0 frames t with
    | (.opening :: outer, inner) => run outer (some inner) ks
    | _ => none
  | frames, some t, [] =>
    match reduce 0 frames t with
    | ([], whole) => some whole
    | _ => none
  | _, _, _ => none

def read (ks : List (Token α)) : Option (Formula α) := run [] none ks

def Waits (p : Nat) : List (Frame α) → Prop
  | .left op _ :: _ => op.precedence < p
  | .sign op :: _ => op.precedence < p
  | _ => True

theorem Waits.mono {p q : Nat} (hpq : p ≤ q) {frames : List (Frame α)} (h : Waits p frames) :
    Waits q frames := by
  match frames with
  | .left op l :: _ => exact Nat.lt_of_lt_of_le h hpq
  | .sign op :: _ => exact Nat.lt_of_lt_of_le h hpq
  | .opening :: _ => trivial
  | [] => trivial

theorem reduce_of_waits {p : Nat} {frames : List (Frame α)} (h : Waits p frames) (t : Formula α) :
    reduce p frames t = (frames, t) := by
  match frames with
  | .left op l :: _ => exact if_neg (Nat.not_le.2 h)
  | .sign op :: _ => exact if_neg (Nat.not_le.2 h)
  | .opening :: _ => rfl
  | [] => rfl

theorem reduce_left {p : Nat} {op : Operator} (h : p ≤ op.precedence) (frames : List (Frame α))
    (l t : Formula α) : reduce p (.left op l :: frames) t = reduce p frames (.binary op l t) :=
  if_pos h

theorem reduce_sign {p : Nat} {op : Operator} (h : p ≤ op.precedence) (frames : List (Frame α))
    (t : Formula α) : reduce p (.sign op :: frames) t = reduce p frames (.unary op t) :=
  if_pos h

/-- The tokens `ks`, read after `frames`, leave the reader where `outer` and the operand `t`
leave it, for every operator that binds at most as tightly as `p`. -/
def ReadsAs (p : Nat) (frames : List (Frame α)) (ks : List (Token α)) (outer : List (Frame α))
    (t : Formula α) : Prop :=
  ∀ rest, ∃ frames' t', run frames none (ks ++ rest) = run frames' (some t') rest ∧
    ∀ q ≤ p, reduce q frames' t' = reduce q outer t

section

variable {p : Nat} {frames outer : List (Frame α)} {ks : List (Token α)} {t : Formula α}

theorem ReadsAs.mono {q : Nat} (h : ReadsAs p frames ks outer t) (hqp : q ≤ p) :
    ReadsAs q frames ks outer t := fun rest =>
  let ⟨frames', t', hrun, hreduce⟩ := h rest
  ⟨frames', t', hrun, fun q' hq' => hreduce q' (Nat.le_trans hq' hqp)⟩

theorem readsAs_parentheses (h : ReadsAs p (.opening :: frames) ks (.opening :: frames) t) (q : Nat) :
    ReadsAs q frames (.opening :: ks ++ [.closing]) frames t := by
  intro rest
  obtain ⟨frames', t', hrun, hreduce⟩ := h (.closing :: rest)
  refine ⟨frames, t, ?_, fun _ _ => rfl⟩
  have hclose : run frames' (some t') (.closing :: rest) = run frames (some t) rest := by
    rw [run, hreduce 0 (Nat.zero_le p)]
    rfl
  rw [← hclose, ← hrun]
  simp [run]

theorem readsAs_sign {op : Operator}
    (h : ReadsAs op.precedence (.sign op :: frames) ks (.sign op :: frames) t) :
    ReadsAs op.precedence frames (.sign op :: ks) frames (.unary op t) := by
  intro rest
  obtain ⟨frames', t', hrun, hreduce⟩ := h rest
  refine ⟨frames', t', ?_, fun q hq => ?_⟩
  · rw [List.cons_append, run, hrun]
  · rw [hreduce q hq, reduce_sign hq]

theorem readsAs_joint {op : Operator} {ls : List (Token α)} {l x : Formula α}
    (hl : ReadsAs op.precedence frames ls outer l) (hw : Waits op.precedence outer)
    (hr : ReadsAs op.precedence (.left op l :: outer) ks outer x) :
    ReadsAs op.precedence frames (ls ++ .joint op :: ks) outer x := by
  intro rest
  obtain ⟨frames', l', hrun, hreduce⟩ := hl (.joint op :: (ks ++ rest))
  obtain ⟨frames'', x', hrun', hreduce'⟩ := hr rest
  refine ⟨frames'', x', ?_, hreduce'⟩
  have hjoint : run frames' (some l') (.joint op :: (ks ++ rest)) =
      run (.left op l :: outer) none (ks ++ rest) := by
    rw [run, hreduce op.precedence (Nat.le_refl _), reduce_of_waits hw]
  rw [List.append_assoc, List.cons_append, hrun, hjoint, hrun']

end

/-- How the tokens of a formula are read: as the regrouped formula where no waiting operator
binds as tightly, and grafted onto an operator of the same level that waits. -/
def ReadsBack (t : Formula α) : Prop :=
  (∀ frames : List (Frame α), (t.precedence ≤ 5 → Waits t.precedence frames) →
    ReadsAs t.precedence frames t.tokens frames t.regroup) ∧
  ∀ (op : Operator) (l : Formula α) (frames : List (Frame α)), op.precedence = t.precedence →
    t.precedence ≤ 5 → Waits t.precedence frames →
    ReadsAs t.precedence (.left op l :: frames) t.tokens frames (.graft op l t.regroup)

section

variable {op : Operator} {frames : List (Frame α)} {t : Formula α}

theorem ReadsBack.bracketed {min p : Nat} (h : ReadsBack t) (hp : p ≤ min)
    (hw : min ≤ t.precedence → t.precedence ≤ 5 → Waits t.precedence frames) :
    ReadsAs p frames (Formula.bracketed min t t.tokens) frames t.regroup := by
  rw [Formula.bracketed]
  by_cases hb : t.precedence < min
  · rw [if_pos hb]
    exact readsAs_parentheses (h.1 (.opening :: frames) fun _ => trivial) p
  · rw [if_neg hb]
    exact (h.1 frames (hw (Nat.not_lt.1 hb))).mono (Nat.le_trans hp (Nat.not_lt.1 hb))

theorem precedence_le_rightMinimum (op : Operator) : op.precedence ≤ op.rightMinimum := by
  rw [Operator.rightMinimum]
  split <;> omega

theorem readsAs_closed {p : Nat} {ks : List (Token α)} {x y : Formula α} (hp : p ≤ op.precedence)
    (h : ReadsAs p (.left op x :: frames) ks (.left op x :: frames) y) :
    ReadsAs p (.left op x :: frames) ks frames (.binary op x y) := by
  intro rest
  obtain ⟨frames', t', hrun, hreduce⟩ := h rest
  refine ⟨frames', t', hrun, fun q hq => ?_⟩
  rw [hreduce q hq, reduce_left (Nat.le_trans hq hp)]

theorem ReadsBack.right (h : ReadsBack t) (hop : op.precedence ≤ 5)
    (hw : Waits op.precedence frames) (x : Formula α) :
    ReadsAs op.precedence (.left op x :: frames)
      (Formula.bracketed op.rightMinimum t t.tokens) frames (.joined op x t.regroup) := by
  have hmin := precedence_le_rightMinimum op
  by_cases hg : op.isAssociative = true ∧ t.precedence = op.precedence
  · obtain ⟨ha, he⟩ := hg
    have hm : op.rightMinimum = op.precedence := by rw [Operator.rightMinimum, if_pos ha]
    have hb : Formula.bracketed op.rightMinimum t t.tokens = t.tokens := by
      rw [Formula.bracketed, if_neg (by omega)]
    rw [hb, Formula.joined, if_pos ha, ← he]
    exact h.2 op x frames he.symm (by omega) (he ▸ hw)
  · have hj : Formula.joined op x t.regroup = .binary op x t.regroup := by
      by_cases ha : op.isAssociative = true
      · exact Formula.joined_of_ne (by simpa [Formula.precedence_regroup, ha] using hg)
      · rw [Formula.joined, if_neg ha]
    rw [hj]
    refine readsAs_closed (Nat.le_refl _) (h.bracketed hmin fun hle _ => ?_)
    have hlt : op.precedence < t.precedence := by
      by_cases ha : op.isAssociative = true
      · have hne : t.precedence ≠ op.precedence := fun he => hg ⟨ha, he⟩
        omega
      · have hm : op.rightMinimum = op.precedence + 1 := by rw [Operator.rightMinimum, if_neg ha]
        omega
    exact hlt

theorem ReadsBack.left {op' : Operator} (h : ReadsBack t) (he : op'.precedence = op.precedence)
    (hop : op.precedence ≤ 5) (hw : Waits op.precedence frames) (x : Formula α) :
    ReadsAs op.precedence (.left op' x :: frames)
      (Formula.bracketed op.precedence t t.tokens) frames (.graft op' x t.regroup) := by
  by_cases ht : t.precedence = op.precedence
  · have hb : Formula.bracketed op.precedence t t.tokens = t.tokens := by
      rw [Formula.bracketed, if_neg (by omega)]
    rw [hb, ← ht]
    exact h.2 op' x frames (he.trans ht.symm) (by omega) (ht ▸ hw)
  · have hg : Formula.graft op' x t.regroup = .binary op' x t.regroup :=
      Formula.graft_of_ne (by rwa [Formula.precedence_regroup, he])
    rw [hg]
    refine readsAs_closed (Nat.le_of_eq he.symm) (h.bracketed (Nat.le_refl _) fun hle _ => ?_)
    have hlt : op'.precedence < t.precedence := by omega
    exact hlt

end

theorem readsBack (t : Formula α) (ht : t.WellFormed) : ReadsBack t := by
  -- An operand of the same level as its operator has no parentheses, and needs the second half.
  induction t with
  | atom a =>
    have h7 : (Formula.atom a).precedence = 7 := rfl
    refine ⟨fun frames _ rest => ⟨frames, .atom a, rfl, fun _ _ => rfl⟩, ?_⟩
    exact fun op l frames _ h5 => absurd h5 (by omega)
  | unary op operand ih =>
    obtain ⟨hop, hoperand⟩ := ht
    have h6 : (Formula.unary op operand).precedence = 6 := hop
    refine ⟨fun frames _ => ?_, fun op' l frames _ h5 => absurd h5 (by omega)⟩
    exact readsAs_sign ((ih hoperand).bracketed (Nat.le_refl _) fun hle h5 => absurd hle (by omega))
  | binary op left right hl hr =>
    obtain ⟨hop, hleft, hright⟩ := ht
    have hl := hl hleft
    have hr := hr hright
    have hp : (Formula.binary op left right).precedence = op.precedence := rfl
    constructor
    · intro frames hw
      have hw : Waits op.precedence frames := hw hop
      exact readsAs_joint
        (hl.bracketed (Nat.le_refl _) fun hle _ => hw.mono hle) hw (hr.right hop hw _)
    · intro op' l frames he h5 hw
      rw [Formula.regroup, Formula.graft_joined he.symm]
      exact readsAs_joint (hl.left he hop hw l) hw (hr.right hop hw _)

theorem read_tokens (t : Formula α) (ht : t.WellFormed) : read t.tokens = some t.regroup := by
  obtain ⟨frames, t', hrun, hreduce⟩ := (readsBack t ht).1 [] (fun _ => trivial) []
  rw [List.append_nil] at hrun
  rw [read, hrun, run, hreduce 0 (Nat.zero_le _)]
  rfl

end Reader

end ODataClient
