import ODataClient.Proofs.Expr.Reading

/-! Parentheses of a text and of the formula that it reads as. A formula needs them around operands
that bind too loosely for their place, and a text that reads as the formula has at least as many.
A text can still be read when two that match are taken out. -/

namespace ODataClient

variable {α β : Type}

namespace Token

/-- The opening parentheses, where an operand counts as many as `w` says. -/
def openings (w : α → Nat) : List (Token α) → Nat
  | [] => 0
  | operand a :: ks => w a + openings w ks
  | opening :: ks => openings w ks + 1
  | joint _ :: ks => openings w ks
  | sign _ :: ks => openings w ks
  | closing :: ks => openings w ks

/-- What is awaited after the tokens, when an operand was awaited before them or not: operands and
operators take turns. -/
def awaits : Bool → List (Token α) → Option Bool
  | awaited, [] => some awaited
  | true, operand _ :: ks => awaits false ks
  | true, sign _ :: ks => awaits true ks
  | true, opening :: ks => awaits true ks
  | false, joint _ :: ks => awaits true ks
  | false, closing :: ks => awaits false ks
  | _, _ :: _ => none

/-- How many parentheses are open after the tokens. -/
def depth : Nat → List (Token α) → Option Nat
  | d, [] => some d
  | d, opening :: ks => depth (d + 1) ks
  | 0, closing :: _ => none
  | d + 1, closing :: ks => depth d ks
  | d, operand _ :: ks => depth d ks
  | d, joint _ :: ks => depth d ks
  | d, sign _ :: ks => depth d ks

def Balanced (ks : List (Token α)) : Prop := depth 0 ks = some 0

def Proper : Token α → Prop
  | joint op => op.precedence ≤ 5
  | sign op => op.precedence = 6
  | _ => True

variable {w : α → Nat} {ks ls : List (Token α)}

theorem openings_append (ks ls : List (Token α)) :
    openings w (ks ++ ls) = openings w ks + openings w ls := by
  induction ks with
  | nil => simp [openings]
  | cons k ks ih => cases k <;> simp only [List.cons_append, openings, ih] <;> omega

theorem openings_parentheses (ks : List (Token α)) :
    openings w (opening :: ks ++ [closing]) = openings w ks + 1 := by
  simp [openings, openings_append]

theorem awaits_append (awaited : Bool) (ks ls : List (Token α)) :
    awaits awaited (ks ++ ls) = (awaits awaited ks).bind (awaits · ls) := by
  induction ks generalizing awaited with
  | nil => rfl
  | cons k ks ih => cases awaited <;> cases k <;> simp only [List.cons_append, awaits, ih] <;> rfl

theorem depth_append (d : Nat) (ks ls : List (Token α)) :
    depth d (ks ++ ls) = (depth d ks).bind (depth · ls) := by
  induction ks generalizing d with
  | nil => simp [depth]
  | cons k ks ih =>
    cases k with
    | closing => cases d <;> simp only [List.cons_append, depth, ih]; rfl
    | _ => simp only [List.cons_append, depth, ih]

theorem depth_add {d e : Nat} (h : depth d ks = some e) (m : Nat) :
    depth (d + m) ks = some (e + m) := by
  induction ks generalizing d with
  | nil => simpa [depth] using h
  | cons k ks ih =>
    cases k with
    | closing =>
      cases d with
      | zero => simp [depth] at h
      | succ d =>
        have hd : d + 1 + m = d + m + 1 := by omega
        rw [hd, depth]
        exact ih h
    | opening =>
      have hd : d + m + 1 = d + 1 + m := by omega
      rw [depth, hd]
      exact ih h
    | _ => simpa only [depth] using ih (by simpa only [depth] using h)

theorem Balanced.depth (h : Balanced ks) (d : Nat) : Token.depth d ks = some d := by
  have hd := depth_add h d
  rwa [Nat.zero_add] at hd

/-- Two parentheses that match change nothing about how deep what stands around them is. -/
theorem depth_unbracketed (h : Balanced ks) (d : Nat) (before after : List (Token α)) :
    depth d (before ++ opening :: ks ++ closing :: after) = depth d (before ++ ks ++ after) := by
  simp only [List.append_assoc, List.cons_append, depth_append]
  refine congrArg _ (funext fun d => ?_)
  rw [Token.depth, depth_append, h.depth, h.depth]
  rfl

theorem awaits_unbracketed {awaited result : Bool} {before after : List (Token α)}
    (h : awaits awaited (before ++ opening :: ks ++ closing :: after) = some result) :
    awaits awaited (before ++ ks ++ after) = some result := by
  simp only [List.append_assoc, List.cons_append, awaits_append, Option.bind_eq_some_iff] at h ⊢
  obtain ⟨b, hbefore, h⟩ := h
  cases b with
  | false => simp [awaits] at h
  | true =>
    rw [awaits, awaits_append, Option.bind_eq_some_iff] at h
    obtain ⟨b, hks, h⟩ := h
    cases b with
    | true => simp [awaits] at h
    | false => exact ⟨true, hbefore, false, hks, h⟩

end Token

namespace Formula

/-- How many operands need parentheses when operators of one level group to the left. An atom
counts as many as `w` says. -/
def needed (w : α → Nat) : Formula α → Nat
  | atom a => w a
  | binary op left right =>
    left.needed w + right.needed w + (if left.precedence < op.precedence then 1 else 0) +
      (if right.precedence ≤ op.precedence then 1 else 0)
  | unary op operand => operand.needed w + (if operand.precedence < op.precedence then 1 else 0)

variable {w : α → Nat}

theorem needed_graft (op : Operator) (left right : Formula α) :
    left.needed w + right.needed w + (if left.precedence < op.precedence then 1 else 0) +
      (if right.precedence < op.precedence then 1 else 0) ≤ (graft op left right).needed w := by
  have hbinary : ∀ right : Formula α, left.needed w + right.needed w +
      (if left.precedence < op.precedence then 1 else 0) +
        (if right.precedence < op.precedence then 1 else 0) ≤ (binary op left right).needed w := by
    intro right
    rw [needed]
    split_ifs <;> omega
  induction right with
  | atom a => exact hbinary _
  | unary op' operand ih => exact hbinary _
  | binary op' a b iha ihb =>
    by_cases h : op'.precedence = op.precedence
    · have hp : (binary op' a b).precedence = op.precedence := h
      rw [graft, if_pos h, needed, needed, precedence_graft, hp, h, if_neg (Nat.lt_irrefl _)]
      omega
    · have hgraft : graft op left (binary op' a b) = binary op left (binary op' a b) :=
        graft_of_ne h
      rw [hgraft]
      exact hbinary _

theorem needed_joined (op : Operator) (left right : Formula α) :
    left.needed w + right.needed w + (if left.precedence < op.precedence then 1 else 0) +
      (if right.precedence < op.rightMinimum then 1 else 0) ≤ (joined op left right).needed w := by
  by_cases ha : op.isAssociative = true
  · rw [joined, Operator.rightMinimum, if_pos ha, if_pos ha]
    exact needed_graft op left right
  · rw [joined, Operator.rightMinimum, if_neg ha, if_neg ha, needed]
    simp only [Nat.lt_succ_iff]
    exact Nat.le_refl _

theorem openings_bracketed (min : Nat) (t : Formula α) (ks : List (Token α)) :
    Token.openings w (bracketed min t ks) =
      Token.openings w ks + if t.precedence < min then 1 else 0 := by
  rw [bracketed]
  split
  · exact Token.openings_parentheses ks
  · rfl

theorem openings_tokens_binary (op : Operator) (left right : Formula α) :
    Token.openings w (binary op left right).tokens =
      Token.openings w left.tokens + Token.openings w right.tokens +
        (if left.precedence < op.precedence then 1 else 0) +
          if right.precedence < op.rightMinimum then 1 else 0 := by
  rw [tokens, Token.openings_append, Token.openings, openings_bracketed, openings_bracketed]
  omega

theorem openings_tokens_unary (op : Operator) (operand : Formula α) :
    Token.openings w (unary op operand).tokens =
      Token.openings w operand.tokens + if operand.precedence < op.precedence then 1 else 0 := by
  rw [tokens, Token.openings, openings_bracketed]

/-- The renderer puts no more parentheses than the formula needs that is read. -/
theorem openings_le_regroup (t : Formula α) : Token.openings w t.tokens ≤ t.regroup.needed w := by
  induction t with
  | atom a => exact Nat.le_refl _
  | unary op operand ih =>
    rw [openings_tokens_unary, regroup, needed, precedence_regroup]
    exact Nat.add_le_add_right ih _
  | binary op left right hl hr =>
    have hj := needed_joined (w := w) op left.regroup right.regroup
    rw [precedence_regroup, precedence_regroup] at hj
    rw [openings_tokens_binary, regroup]
    omega

theorem openings_le_needed (t : Formula α) : Token.openings w t.tokens ≤ t.needed w := by
  induction t with
  | atom a => exact Nat.le_refl _
  | unary op operand ih =>
    rw [openings_tokens_unary, needed]
    exact Nat.add_le_add_right ih _
  | binary op left right hl hr =>
    have hmin : op.rightMinimum ≤ op.precedence + 1 := by
      rw [Operator.rightMinimum]
      split <;> omega
    rw [openings_tokens_binary, needed]
    split_ifs <;> omega

end Formula

namespace Reader

variable {w : α → Nat} {frames outer : List (Frame α)} {t inner : Formula α}

/-- The frames as the reader stacks them: an operator waits on looser ones only. -/
def Ordered : List (Frame α) → Prop
  | [] => True
  | .opening :: frames => Ordered frames
  | .left op _ :: frames => op.precedence ≤ 5 ∧ Waits op.precedence frames ∧ Ordered frames
  | .sign op :: frames => op.precedence = 6 ∧ Ordered frames

/-- The parentheses that the frames account for; one that is open has not served yet. -/
def spent (w : α → Nat) : List (Frame α) → Nat
  | [] => 0
  | .opening :: frames => spent w frames + 1
  | .left op l :: frames =>
    l.needed w + (if l.precedence < op.precedence then 1 else 0) + spent w frames
  | .sign _ :: frames => spent w frames

/-- Whether an operand needs parentheses behind these frames. -/
def demand (t : Formula α) : List (Frame α) → Nat
  | .left op _ :: _ => if t.precedence ≤ op.precedence then 1 else 0
  | .sign op :: _ => if t.precedence < op.precedence then 1 else 0
  | _ => 0

theorem demand_binary {op : Operator} (h : Waits op.precedence frames) (hop : op.precedence ≤ 5)
    (ho : Ordered frames) (l r : Formula α) : demand (.binary op l r) frames = 0 := by
  match frames with
  | [] => rfl
  | .opening :: _ => rfl
  | .left op' _ :: _ => exact if_neg (Nat.not_le.2 h)
  | .sign op' :: _ =>
    have h6 : op'.precedence = 6 := ho.1
    have hlt : op'.precedence < op.precedence := h
    omega

theorem demand_unary {op : Operator} (hop : op.precedence = 6) (ho : Ordered frames)
    (t : Formula α) : demand (.unary op t) frames = 0 := by
  match frames with
  | [] => rfl
  | .opening :: _ => rfl
  | .left op' _ :: _ =>
    have h5 : op'.precedence ≤ 5 := ho.1
    exact if_neg (by rw [Formula.precedence]; omega)
  | .sign op' :: _ =>
    have h6 : op'.precedence = 6 := ho.1
    exact if_neg (by rw [Formula.precedence]; omega)

theorem add_allowance_le {p x : Nat} (hp : t.precedence < p → 1 ≤ x) (n : Nat) :
    n + (if t.precedence < p then 1 else 0) ≤ n + x := by
  split
  next hlt => exact Nat.add_le_add_left (hp hlt) n
  next => exact Nat.le_add_right n x

/-- What the reader puts together needs no more parentheses than it has spent: `x` is there for an
operand that came in parentheses. -/
theorem reduce_spent {p x : Nat} (ho : Ordered frames) (hd : demand t frames ≤ x)
    (hp : t.precedence < p → 1 ≤ x) (h : reduce p frames t = (outer, inner)) :
    Ordered outer ∧ Waits p outer ∧
      spent w outer + inner.needed w + (if inner.precedence < p then 1 else 0) ≤
        spent w frames + t.needed w + x := by
  induction frames generalizing t x with
  | nil =>
    obtain ⟨rfl, rfl⟩ := Prod.mk.inj h
    exact ⟨ho, trivial, add_allowance_le hp _⟩
  | cons f frames ih =>
    cases f with
    | opening =>
      obtain ⟨rfl, rfl⟩ := Prod.mk.inj h
      exact ⟨ho, trivial, add_allowance_le hp _⟩
    | left op l =>
      by_cases hle : p ≤ op.precedence
      · obtain ⟨h5, hw, ho⟩ := ho
        rw [reduce_left hle] at h
        have hrest := ih ho (Nat.le_of_eq (demand_binary hw h5 ho l t))
          (fun hlt => absurd hle (Nat.not_le.2 hlt)) h
        refine ⟨hrest.1, hrest.2.1, Nat.le_trans hrest.2.2 ?_⟩
        rw [demand] at hd
        rw [Formula.needed, spent]
        omega
      · have hw : Waits p (.left op l :: frames) := Nat.not_le.1 hle
        rw [reduce_of_waits hw] at h
        obtain ⟨rfl, rfl⟩ := Prod.mk.inj h
        exact ⟨ho, hw, add_allowance_le hp _⟩
    | sign op =>
      by_cases hle : p ≤ op.precedence
      · obtain ⟨h6, ho⟩ := ho
        rw [reduce_sign hle] at h
        have hrest := ih ho (Nat.le_of_eq (demand_unary h6 ho t))
          (fun hlt => absurd hle (Nat.not_le.2 hlt)) h
        refine ⟨hrest.1, hrest.2.1, Nat.le_trans hrest.2.2 ?_⟩
        rw [demand] at hd
        rw [Formula.needed, spent]
        omega
      · have hw : Waits p (.sign op :: frames) := Nat.not_le.1 hle
        rw [reduce_of_waits hw] at h
        obtain ⟨rfl, rfl⟩ := Prod.mk.inj h
        exact ⟨ho, hw, add_allowance_le hp _⟩

theorem demand_le (ho : Ordered frames) (t : Formula α) :
    demand t frames ≤ if t.precedence < 7 then 1 else 0 := by
  match frames with
  | [] => exact Nat.zero_le _
  | .opening :: _ => exact Nat.zero_le _
  | .left op _ :: _ =>
    have h5 : op.precedence ≤ 5 := ho.1
    rw [demand]
    split_ifs <;> omega
  | .sign op :: _ =>
    have h6 : op.precedence = 6 := ho.1
    rw [demand]
    split_ifs <;> omega

/-- What is accounted for with the operand that was read last. -/
def spentWith (w : α → Nat) (frames : List (Frame α)) : Option (Formula α) → Nat
  | none => spent w frames
  | some t => spent w frames + t.needed w + if t.precedence < 7 then 1 else 0

theorem needed_of_run {cur : Option (Formula α)} {ks : List (Token α)} {u : Formula α}
    (ho : Ordered frames) (hks : ∀ k ∈ ks, k.Proper) (h : run frames cur ks = some u) :
    u.needed w ≤ spentWith w frames cur + Token.openings w ks := by
  induction ks generalizing frames cur with
  | nil =>
    cases cur with
    | none => simp [run] at h
    | some t =>
      rcases hr : reduce 0 frames t with ⟨outer, inner⟩
      obtain ⟨-, -, hspent⟩ := reduce_spent (w := w) ho (demand_le ho t)
        (fun hlt => absurd hlt (Nat.not_lt_zero _)) hr
      rw [run, hr] at h
      cases outer with
      | nil =>
        obtain rfl := Option.some.inj h
        rw [spent] at hspent
        rw [spentWith, Token.openings]
        omega
      | cons f outer => simp at h
  | cons k ks ih =>
    obtain ⟨hk, hrest⟩ := List.forall_mem_cons.1 hks
    cases cur with
    | none =>
      cases k with
      | operand a =>
        have hle : u.needed w ≤ spentWith w frames (some (.atom a)) + Token.openings w ks :=
          ih ho hrest h
        have h7 : (Formula.atom a).precedence = 7 := rfl
        rw [spentWith, Formula.needed, h7, if_neg (Nat.lt_irrefl 7)] at hle
        rw [spentWith, Token.openings]
        omega
      | sign op =>
        have hle : u.needed w ≤ spentWith w (.sign op :: frames) none + Token.openings w ks :=
          ih ⟨hk, ho⟩ hrest h
        exact hle
      | opening =>
        have hle : u.needed w ≤ spentWith w (.opening :: frames) none + Token.openings w ks :=
          ih ho hrest h
        rw [spentWith, spent] at hle
        rw [spentWith, Token.openings]
        omega
      | joint op => simp [run] at h
      | closing => simp [run] at h
    | some t =>
      cases k with
      | joint op =>
        have hop : op.precedence ≤ 5 := hk
        rcases hr : reduce op.precedence frames t with ⟨outer, inner⟩
        obtain ⟨hordered, hw, hspent⟩ := reduce_spent (w := w) ho (demand_le ho t)
          (fun hlt => Nat.le_of_eq (if_pos (by omega)).symm) hr
        rw [run, hr] at h
        have hle : u.needed w ≤
            spentWith w (.left op inner :: outer) none + Token.openings w ks :=
          ih ⟨hop, hw, hordered⟩ hrest h
        rw [spentWith, spent] at hle
        rw [spentWith, Token.openings]
        omega
      | closing =>
        rcases hr : reduce 0 frames t with ⟨outer, inner⟩
        obtain ⟨hordered, -, hspent⟩ := reduce_spent (w := w) ho (demand_le ho t)
          (fun hlt => absurd hlt (Nat.not_lt_zero _)) hr
        rw [run, hr] at h
        cases outer with
        | nil => simp at h
        | cons frame outer =>
          cases frame with
          | opening =>
            have hle : u.needed w ≤ spentWith w outer (some inner) + Token.openings w ks :=
              ih hordered hrest h
            rw [spent] at hspent
            rw [spentWith, Token.openings]
            rw [spentWith] at hle
            split_ifs at hle hspent ⊢ <;> omega
          | left _ _ => simp at h
          | sign _ => simp at h
      | operand a => simp [run] at h
      | sign op => simp [run] at h
      | opening => simp [run] at h

/-- A text has the parentheses that the formula needs that it reads as. -/
theorem needed_le_openings {ks : List (Token α)} {u : Formula α} (hks : ∀ k ∈ ks, k.Proper)
    (h : read ks = some u) : u.needed w ≤ Token.openings w ks := by
  have hle : u.needed w ≤ spentWith w [] none + Token.openings w ks :=
    needed_of_run trivial hks h
  rwa [spentWith, spent, Nat.zero_add] at hle

def opened : List (Frame α) → Nat
  | [] => 0
  | .opening :: frames => opened frames + 1
  | .left _ _ :: frames => opened frames
  | .sign _ :: frames => opened frames

theorem opened_reduce (p : Nat) (frames : List (Frame α)) (t : Formula α) :
    opened (reduce p frames t).1 = opened frames := by
  fun_induction reduce p frames t with
  | case1 | case2 | case4 | case6 => rfl
  | case3 t op l frames h ih => exact ih
  | case5 t op frames h ih => exact ih

theorem reduce_zero (frames : List (Frame α)) (t : Formula α) :
    (reduce 0 frames t).1 = [] ∨ ∃ outer, (reduce 0 frames t).1 = .opening :: outer := by
  fun_induction reduce 0 frames t with
  | case1 => exact .inl rfl
  | case2 frames t => exact .inr ⟨frames, rfl⟩
  | case3 t op l frames h ih => exact ih
  | case5 t op frames h ih => exact ih
  | case4 t op l frames h => exact absurd (Nat.zero_le _) h
  | case6 t op frames h => exact absurd (Nat.zero_le _) h

/-- Which texts can be read hangs on the places of the operands and on the parentheses alone. -/
theorem isSome_run (frames : List (Frame α)) (cur : Option (Formula α)) (ks : List (Token α)) :
    (run frames cur ks).isSome ↔
      Token.awaits cur.isNone ks = some false ∧ Token.depth (opened frames) ks = some 0 := by
  induction ks generalizing frames cur with
  | nil =>
    cases cur with
    | none => simp [run, Token.awaits]
    | some t =>
      have hopened := opened_reduce 0 frames t
      rw [run]
      rcases hr : reduce 0 frames t with ⟨outer, inner⟩
      rw [hr] at hopened
      rcases reduce_zero frames t with hz | ⟨rest, hz⟩
      all_goals
        rw [hr] at hz
        obtain rfl := hz
        simp [Token.awaits, Token.depth, ← hopened, opened]
  | cons k ks ih =>
    cases cur with
    | none =>
      cases k with
      | operand a => exact ih frames (some (.atom a))
      | sign op => exact ih (.sign op :: frames) none
      | opening => exact ih (.opening :: frames) none
      | joint op => simp [run, Token.awaits]
      | closing => simp [run, Token.awaits]
    | some t =>
      cases k with
      | joint op =>
        have hopened := opened_reduce op.precedence frames t
        rw [run]
        rcases hr : reduce op.precedence frames t with ⟨outer, inner⟩
        rw [hr] at hopened
        rw [← hopened]
        exact ih (.left op inner :: outer) none
      | closing =>
        have hopened := opened_reduce 0 frames t
        rw [run, ← hopened]
        rcases hr : reduce 0 frames t with ⟨outer, inner⟩
        rcases reduce_zero frames t with hz | ⟨rest, hz⟩
        · rw [hr] at hz
          obtain rfl := hz
          simp [Token.depth, opened]
        · rw [hr] at hz
          obtain rfl := hz
          exact ih rest (some inner)
      | operand a => simp [run, Token.awaits]
      | sign op => simp [run, Token.awaits]
      | opening => simp [run, Token.awaits]

theorem isSome_read (ks : List (Token α)) :
    (read ks).isSome ↔ Token.awaits true ks = some false ∧ Token.depth 0 ks = some 0 :=
  isSome_run [] none ks

end Reader

end ODataClient
