import ODataClient.Proofs.Expr.ReadBack

/-! Operands in a row with `and` and `or` between them, and no parentheses around the parts. The row
is read as its operands group: what `and` joins stands together, and `or` parts the groups. -/

namespace ODataClient

theorem Scalar.exists_bool {v : Scalar} (h : v.kind = .bool) : ∃ b, v = .bool b := by
  cases v with
  | int n => exact Kind.noConfusion h
  | bool b => exact ⟨b, rfl⟩

namespace Formula

variable {α β : Type}

/-- Formulas of the same kinds, and with the same value for all atoms. -/
structure Same (t u : Formula α) : Prop where
  kinds (k : Kind) : t.HasKind k ↔ u.HasKind k
  values (σ : α → Scalar) : (t.map σ).value = (u.map σ).value

theorem Same.refl (t : Formula α) : Same t t := ⟨fun _ => Iff.rfl, fun _ => rfl⟩

theorem Same.trans {t u v : Formula α} (h : Same t u) (h' : Same u v) : Same t v :=
  ⟨fun k => (h.kinds k).trans (h'.kinds k), fun σ => (h.values σ).trans (h'.values σ)⟩

theorem Same.binary {t t' u u' : Formula α} (op : Operator) (h : Same t t') (h' : Same u u') :
    Same (binary op t u) (binary op t' u') := by
  refine ⟨fun k => ?_, fun σ => ?_⟩
  · simp only [HasKind, h.kinds, h'.kinds]
  · simp only [map, value, h.values, h'.values]

theorem takes_iff_of_junction {op : Operator} (hop : op = .and ∨ op = .or) (k' k : Kind) :
    op.takes k' k = true ↔ k' = .bool ∧ k = .bool := by
  rcases hop with rfl | rfl <;> cases k' <;> cases k <;> decide

theorem hasKind_junction {op : Operator} (hop : op = .and ∨ op = .or) {t u : Formula α} {k : Kind} :
    (binary op t u).HasKind k ↔ k = .bool ∧ t.HasKind .bool ∧ u.HasKind .bool := by
  simp only [HasKind, takes_iff_of_junction hop]
  constructor
  · rintro ⟨_, ⟨rfl, rfl⟩, ht, hu⟩
    exact ⟨rfl, ht, hu⟩
  · rintro ⟨rfl, ht, hu⟩
    exact ⟨.bool, ⟨rfl, rfl⟩, ht, hu⟩

theorem same_assoc {op : Operator} (hop : op = .and ∨ op = .or) (t u v : Formula α) :
    Same (binary op (binary op t u) v) (binary op t (binary op u v)) := by
  have ha : op.isAssociative = true := by rcases hop with rfl | rfl <;> rfl
  have hm : op ≠ .mul := by rcases hop with rfl | rfl <;> decide
  refine ⟨fun k => ?_, fun σ => ?_⟩
  · simp only [hasKind_junction hop, true_and, and_assoc]
  · simp only [map, value]
    cases (t.map σ).value with
    | none => rfl
    | some x =>
      cases (u.map σ).value with
      | none => rfl
      | some y =>
        cases (v.map σ).value with
        | none => simp
        | some z => simpa using Operator.apply_assoc ha rfl (fun h => absurd h hm) x y z

theorem same_graft (left right : Formula α) :
    Same (graft .and left right) (binary .and left right) := by
  refine ⟨hasKind_graft rfl left right, fun σ => ?_⟩
  rw [← graft_map, value_graft rfl _ fun h => absurd h (by decide)]
  rfl

def conjunction (t : Formula α) (ts : List (Formula α)) : Formula α := ts.foldl (binary .and) t

def orAfter : Option (Formula α) → Formula α → Formula α
  | none, t => t
  | some before, t => binary .or before t

/-- How a row of operands groups: `before` has what stands before the last `or`, and `t` what stands
after it. -/
def grouped : Option (Formula α) → Formula α → List (Operator × Formula α) → Formula α
  | before, t, [] => orAfter before t
  | before, t, (op, u) :: row =>
    if op = .and then grouped before (binary .and t u) row
    else grouped (some (orAfter before t)) u row

theorem Same.orAfter {t u : Formula α} (before : Option (Formula α)) (h : Same t u) :
    Same (orAfter before t) (orAfter before u) := by
  cases before with
  | none => exact h
  | some b => exact (Same.refl b).binary .or h

theorem conjunction_map (f : α → β) (t : Formula α) (ts : List (Formula α)) :
    (conjunction t ts).map f = conjunction (t.map f) (ts.map (map f)) := by
  induction ts generalizing t with
  | nil => rfl
  | cons u ts ih => exact ih (binary .and t u)

theorem Same.conjunction {t u : Formula α} {ts us : List (Formula α)} (h : Same t u)
    (hs : List.Forall₂ Same ts us) : Same (conjunction t ts) (conjunction u us) := by
  induction hs generalizing t u with
  | nil => exact h
  | cons hx hrest ih => exact ih (h.binary .and hx)

theorem hasKind_conjunction {t : Formula α} {ts : List (Formula α)} {k : Kind} (h : ts ≠ []) :
    (Formula.conjunction t ts).HasKind k ↔
      k = .bool ∧ t.HasKind .bool ∧ ∀ u ∈ ts, u.HasKind .bool := by
  induction ts generalizing t with
  | nil => exact absurd rfl h
  | cons u ts ih =>
    have hstep : Formula.conjunction t (u :: ts) = Formula.conjunction (binary .and t u) ts := rfl
    rw [hstep]
    by_cases hts : ts = []
    · rw [hts, List.forall_mem_singleton]
      exact hasKind_junction (.inl rfl)
    · rw [ih hts, hasKind_junction (.inl rfl), List.forall_mem_cons]
      simp only [true_and, and_assoc]

theorem conjunction_inj {t u : Formula α} {ts us : List (Formula α)} (hl : ts.length = us.length)
    (h : conjunction t ts = conjunction u us) : t = u ∧ ts = us := by
  induction ts generalizing t u us with
  | nil =>
    obtain rfl := List.length_eq_zero_iff.1 hl.symm
    exact ⟨h, rfl⟩
  | cons x ts ih =>
    cases us with
    | nil => exact absurd hl (by simp)
    | cons y us =>
      obtain ⟨hb, rfl⟩ := ih (Nat.succ.inj hl) h
      obtain ⟨-, rfl, rfl⟩ := Formula.binary.inj hb
      exact ⟨rfl, rfl⟩

theorem grouped_map (f : α → β) (before : Option (Formula α)) (t : Formula α)
    (row : List (Operator × Formula α)) :
    grouped (before.map (map f)) (t.map f) (row.map fun l => (l.1, l.2.map f)) =
      (grouped before t row).map f := by
  have hor : ∀ (before : Option (Formula α)) (t : Formula α),
      Formula.orAfter (before.map (map f)) (t.map f) = (Formula.orAfter before t).map f :=
    fun before _ => by cases before <;> rfl
  induction row generalizing before t with
  | nil => exact hor before t
  | cons l row ih =>
    rw [List.map_cons, grouped, grouped]
    split
    · exact ih before (binary .and t l.2)
    · rw [hor]
      exact ih (some (Formula.orAfter before t)) l.2

theorem grouped_append_or (before : Option (Formula α)) (t u : Formula α)
    (row : List (Operator × Formula α)) :
    grouped before t (row ++ [(.or, u)]) = binary .or (grouped before t row) u := by
  induction row generalizing before t with
  | nil => rfl
  | cons l row ih =>
    rw [List.cons_append, grouped, grouped]
    split
    · exact ih before _
    · exact ih _ l.2

theorem grouped_of_and {row : List (Operator × Formula α)} (h : ∀ l ∈ row, l.1 = .and)
    (t : Formula α) : grouped none t row = conjunction t (row.map (·.2)) := by
  induction row generalizing t with
  | nil => rfl
  | cons l row ih =>
    obtain ⟨hop, h⟩ := List.forall_mem_cons.1 h
    rw [grouped, if_pos hop]
    exact ih h _

theorem hasKind_grouped {before : Option (Formula α)} {t : Formula α}
    {row : List (Operator × Formula α)} {k : Kind} (h : before.isSome = true ∨ row ≠ []) :
    (grouped before t row).HasKind k ↔ k = .bool ∧ (∀ b ∈ before, b.HasKind .bool) ∧
      t.HasKind .bool ∧ ∀ l ∈ row, l.2.HasKind .bool := by
  have hor : ∀ {before : Option (Formula α)} {t : Formula α}, (Formula.orAfter before t).HasKind .bool ↔
      (∀ b ∈ before, b.HasKind .bool) ∧ t.HasKind .bool := by
    intro before t
    cases before with
    | none => simp [Formula.orAfter]
    | some b => simp [Formula.orAfter, hasKind_junction]
  induction row generalizing before t with
  | nil =>
    obtain ⟨b, rfl⟩ := Option.isSome_iff_exists.1 (h.resolve_right fun hne => hne rfl)
    simp [grouped, Formula.orAfter, hasKind_junction]
  | cons l row ih =>
    rw [grouped]
    split
    · by_cases hrow : before.isSome = true ∨ row ≠ []
      · simp only [ih hrow, hasKind_junction, true_or, true_and, List.forall_mem_cons, and_assoc]
      · obtain ⟨hb, rfl⟩ : before = none ∧ row = [] := by simpa using hrow
        simp [hb, grouped, Formula.orAfter, hasKind_junction]
    · have hrow : (some (Formula.orAfter before t)).isSome = true ∨ row ≠ [] := .inl rfl
      refine (ih hrow).trans ?_
      simp only [Option.mem_some_iff, forall_eq', hor, List.forall_mem_cons, and_assoc]

theorem same_grouped {before before' : Option (Formula α)} {t u : Formula α}
    (hb : ∀ {t u : Formula α}, Same t u → Same (orAfter before t) (orAfter before' u)) (h : Same t u)
    (row : List (Operator × Formula α)) : Same (grouped before t row) (grouped before' u row) := by
  induction row generalizing before before' t u with
  | nil => exact hb h
  | cons l row ih =>
    rw [grouped, grouped]
    split
    · exact ih hb (h.binary .and (Same.refl l.2))
    · exact ih (fun h' => (hb h).binary .or h') (Same.refl l.2)

section

variable {t u : Formula Scalar} {row : List (Operator × Formula Scalar)} {a b : Bool}

/-- The formula is true or false. -/
def Decided (t : Formula Scalar) : Prop := ∃ b, t.value = some (.bool b)

theorem value_and (ht : t.value = some (.bool a)) (hu : u.value = some (.bool b)) :
    (binary .and t u).value = some (.bool (a && b)) := value_binary ht hu

theorem value_or (ht : t.value = some (.bool a)) (hu : u.value = some (.bool b)) :
    (binary .or t u).value = some (.bool (a || b)) := value_binary ht hu

theorem Decided.and (ht : Decided t) (hu : Decided u) : Decided (binary .and t u) :=
  let ⟨_, ha⟩ := ht
  let ⟨_, hb⟩ := hu
  ⟨_, value_and ha hb⟩

theorem Decided.orAfter {before : Option (Formula Scalar)} (hb : ∀ x ∈ before, Decided x)
    (ht : Decided t) : Decided (orAfter before t) := by
  cases before with
  | none => exact ht
  | some x =>
    obtain ⟨_, hx⟩ := hb x rfl
    obtain ⟨_, ht⟩ := ht
    exact ⟨_, value_or hx ht⟩

/-- What is true before an `or` makes the whole row true. -/
theorem grouped_of_before {before : Formula Scalar} (hb : before.value = some (.bool true))
    (ht : Decided t) (hrow : ∀ l ∈ row, Decided l.2) :
    (grouped (some before) t row).value = some (.bool true) := by
  induction row generalizing before t with
  | nil =>
    obtain ⟨x, hx⟩ := ht
    exact value_or hb hx
  | cons l row ih =>
    obtain ⟨hl, hrow⟩ := List.forall_mem_cons.1 hrow
    rw [grouped]
    split
    · exact ih hb (ht.and hl) hrow
    · obtain ⟨x, hx⟩ := ht
      exact ih (value_or hb hx) hl hrow

theorem grouped_of_forall {before : Option (Formula Scalar)} (hb : ∀ x ∈ before, Decided x)
    (ht : t.value = some (.bool true)) (hrow : ∀ l ∈ row, l.2.value = some (.bool true)) :
    (grouped before t row).value = some (.bool true) := by
  induction row generalizing before t with
  | nil =>
    cases before with
    | none => exact ht
    | some x =>
      obtain ⟨y, hy⟩ := hb x rfl
      rw [grouped, orAfter, value_or hy ht, Bool.or_true]
  | cons l row ih =>
    obtain ⟨hl, hrow⟩ := List.forall_mem_cons.1 hrow
    rw [grouped]
    split
    · exact ih hb (value_and ht hl) hrow
    · exact ih (fun x hx => Option.some.inj hx ▸ Decided.orAfter hb ⟨_, ht⟩) hl hrow

/-- What is true after an `or` makes the whole row true. -/
theorem grouped_of_or {before : Option (Formula Scalar)} (hb : ∀ x ∈ before, Decided x)
    (ht : Decided t) (hrow : ∀ l ∈ row, l.2.value = some (.bool true))
    (hor : ∃ l ∈ row, l.1 ≠ .and) : (grouped before t row).value = some (.bool true) := by
  induction row generalizing before t with
  | nil => exact absurd hor (by simp)
  | cons l row ih =>
    obtain ⟨hl, hrow⟩ := List.forall_mem_cons.1 hrow
    rw [grouped]
    split
    next hand =>
      have hor : ∃ l ∈ row, l.1 ≠ .and := by simpa [hand] using hor
      exact ih hb (ht.and ⟨_, hl⟩) hrow hor
    next => exact grouped_of_forall (fun x hx => Option.some.inj hx ▸ Decided.orAfter hb ht) hl hrow

theorem conjunction_of_forall {ts : List (Formula Scalar)} (ht : t.value = some (.bool b))
    (hts : ∀ u ∈ ts, u.value = some (.bool true)) :
    (conjunction t ts).value = some (.bool b) := by
  induction ts generalizing t with
  | nil => exact ht
  | cons u ts ih =>
    obtain ⟨hu, hts⟩ := List.forall_mem_cons.1 hts
    have h := value_and ht hu
    rw [Bool.and_true] at h
    exact ih h hts

theorem conjunction_of_middle {ts us : List (Formula Scalar)} (ht : t.value = some (.bool true))
    (hts : ∀ x ∈ ts, x.value = some (.bool true)) (hu : u.value = some (.bool b))
    (hus : ∀ x ∈ us, x.value = some (.bool true)) :
    (conjunction t (ts ++ u :: us)).value = some (.bool b) := by
  have hsplit : conjunction t (ts ++ u :: us) =
      conjunction (binary .and (conjunction t ts) u) us := List.foldl_append
  rw [hsplit]
  exact conjunction_of_forall (value_and (conjunction_of_forall ht hts) hu) hus

theorem conjunction_of_false {ts : List (Formula Scalar)} (ht : t.value = some (.bool false))
    (hts : ∀ u ∈ ts, Decided u) : (conjunction t ts).value = some (.bool false) := by
  induction ts generalizing t with
  | nil => exact ht
  | cons u ts ih =>
    obtain ⟨⟨x, hu⟩, hts⟩ := List.forall_mem_cons.1 hts
    exact ih (value_and ht hu) hts

end

theorem map_congr {f g : α → β} {t : Formula α} (h : ∀ a ∈ t.atoms, f a = g a) :
    t.map f = t.map g := by
  induction t with
  | atom a => exact congrArg atom (h a (List.mem_singleton_self a))
  | binary op left right hl hr =>
    obtain ⟨hleft, hright⟩ := List.forall_mem_append.1 h
    exact congrArg₂ (Formula.binary op) (hl hleft) (hr hright)
  | unary op operand ih => exact congrArg (Formula.unary op) (ih h)

/-- Atoms that are told apart can be given any values. -/
theorem exists_map_eq {t : Formula α} (hn : t.atoms.Nodup) {g : Formula Scalar} (h : Fills g t) :
    ∃ σ : α → Scalar, t.map σ = g := by
  classical
  induction t generalizing g with
  | atom a =>
    cases g with
    | atom v => exact ⟨fun _ => v, rfl⟩
    | _ => exact absurd h (by simp [Fills, map])
  | unary op operand ih =>
    cases g with
    | unary op' g =>
      obtain ⟨rfl, hg⟩ := Formula.unary.inj h
      obtain ⟨σ, rfl⟩ := ih hn hg
      exact ⟨σ, rfl⟩
    | _ => exact absurd h (by simp [Fills, map])
  | binary op left right hl hr =>
    cases g with
    | binary op' a b =>
      obtain ⟨rfl, ha, hb⟩ := Formula.binary.inj h
      obtain ⟨hnl, hnr, hdisjoint⟩ := List.nodup_append.1 hn
      obtain ⟨σ, rfl⟩ := hl hnl ha
      obtain ⟨τ, rfl⟩ := hr hnr hb
      refine ⟨fun a => if a ∈ left.atoms then σ a else τ a, congrArg₂ (Formula.binary op') ?_ ?_⟩
      · exact map_congr fun a ha => if_pos ha
      · exact map_congr fun a ha => if_neg fun hleft => hdisjoint a hleft a ha rfl
    | _ => exact absurd h (by simp [Fills, map])

end Formula

/-- Tokens that are read as one operand of `and` and of `or`. -/
structure Operand (α : Type) where
  tokens : List (Token α)
  formula : Formula α

namespace Operand

variable {α : Type}

/-- The operand needs no parentheses beside `and` and `or`. -/
structure Stands (b : Operand α) : Prop where
  alone {frames : List (Frame α)} : Reader.Waits Operator.and.precedence frames →
    Reader.ReadsAs Operator.and.precedence frames b.tokens frames b.formula
  joined (t : Formula α) {frames : List (Frame α)} : Reader.Waits Operator.and.precedence frames →
    ∃ u, Reader.ReadsAs Operator.and.precedence (.left .and t :: frames) b.tokens frames u ∧
      Formula.Same u (.binary .and t b.formula)

def rowTokens (row : List (Operator × Operand α)) : List (Token α) :=
  row.flatMap fun l => .joint l.1 :: l.2.tokens

def rowFormulas (row : List (Operator × Operand α)) : List (Operator × Formula α) :=
  row.map fun l => (l.1, l.2.formula)

def orFrame (before : Option (Formula α)) : List (Frame α) := (before.map (.left .or)).toList

theorem waits_orFrame (before : Option (Formula α)) :
    Reader.Waits Operator.and.precedence (orFrame before) := by
  cases before with
  | none => trivial
  | some b => exact show (1 : Nat) < 2 by decide

theorem reduce_orFrame {p : Nat} (hp : p ≤ 1) (before : Option (Formula α)) (t : Formula α) :
    Reader.reduce p (orFrame before) t = ([], Formula.orAfter before t) := by
  cases before with
  | none => rfl
  | some b => exact Reader.reduce_left hp [] b t

theorem readsAs_or {before : Option (Formula α)} {t : Formula α} {ks : List (Token α)} {b : Operand α}
    (h : Reader.ReadsAs Operator.and.precedence [] ks (orFrame before) t) (hb : b.Stands) :
    Reader.ReadsAs Operator.and.precedence [] (ks ++ .joint .or :: b.tokens)
      (orFrame (some (Formula.orAfter before t))) b.formula := by
  intro rest
  obtain ⟨frames, t', hrun, hreduce⟩ := h (.joint .or :: (b.tokens ++ rest))
  have hjoint : Reader.run frames (some t') (.joint .or :: (b.tokens ++ rest)) =
      Reader.run (orFrame (some (Formula.orAfter before t))) none (b.tokens ++ rest) := by
    rw [Reader.run, hreduce Operator.or.precedence (by decide),
      reduce_orFrame (show Operator.or.precedence ≤ 1 from Nat.le_refl 1)]
    rfl
  obtain ⟨frames', t'', hrun', hreduce'⟩ := hb.alone (waits_orFrame _) rest
  refine ⟨frames', t'', ?_, hreduce'⟩
  rw [List.append_assoc, List.cons_append, hrun, hjoint, hrun']

/-- A row of operands is read as they group. -/
theorem exists_read_row {row : List (Operator × Operand α)}
    (hrow : ∀ l ∈ row, (l.1 = .and ∨ l.1 = .or) ∧ l.2.Stands) {before : Option (Formula α)}
    {t : Formula α} {ks : List (Token α)}
    (h : Reader.ReadsAs Operator.and.precedence [] ks (orFrame before) t) :
    ∃ back, Reader.read (ks ++ rowTokens row) = some back ∧
      Formula.Same back (Formula.grouped before t (rowFormulas row)) := by
  induction row generalizing before t ks with
  | nil =>
    obtain ⟨frames, t', hrun, hreduce⟩ := h []
    refine ⟨Formula.orAfter before t, ?_, Formula.Same.refl _⟩
    rw [Reader.read, rowTokens, List.flatMap_nil, hrun, Reader.run, hreduce 0 (Nat.zero_le _),
      reduce_orFrame (Nat.zero_le 1)]
  | cons l row ih =>
    obtain ⟨op, b⟩ := l
    obtain ⟨⟨hop, hl⟩, hrest⟩ := List.forall_mem_cons.1 hrow
    have hks : ks ++ rowTokens ((op, b) :: row) = (ks ++ .joint op :: b.tokens) ++ rowTokens row := by
      simp [rowTokens]
    rw [hks]
    rcases hop with rfl | rfl
    · obtain ⟨u, hu, hsame⟩ := hl.joined t (waits_orFrame before)
      obtain ⟨back, hread, hback⟩ := ih hrest (Reader.readsAs_joint h (waits_orFrame before) hu)
      exact ⟨back, hread, hback.trans (Formula.same_grouped (Formula.Same.orAfter before) hsame _)⟩
    · exact ih hrest (readsAs_or h hl)

end Operand

end ODataClient
