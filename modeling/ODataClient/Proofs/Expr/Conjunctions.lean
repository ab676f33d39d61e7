import ODataClient.Proofs.Expr.Phrases

/-! Filters joined by `and`. Expressions are written at the level of `and`, and texts stand as they
are. Together they keep what each of them means exactly when no text beside another filter has an
`or` outside of its parentheses, and every expression keeps its value by itself. -/

namespace ODataClient

/-- A filter among others that `and` joins: an expression, or a text. -/
inductive Conjunct (α : Type)
  | rendered (t : Formula α)
  | written (p : Phrase α)

namespace Conjunct

variable {α β : Type}

def tokens : Conjunct α → List (Token α)
  | rendered t => Formula.bracketed Operator.and.precedence t t.tokens
  | written p => p.tokens

def meaning : Conjunct α → Formula α
  | rendered t => t
  | written p => p.formula

def map (f : α → β) : Conjunct α → Conjunct β
  | rendered t => rendered (t.map f)
  | written p => written (p.map f)

def WellFormed : Conjunct α → Prop
  | rendered t => t.WellFormed
  | written p => p.Leveled

/-- Its own text is read back with its meaning. -/
def isKept : Conjunct α → Bool
  | rendered t => t.safe
  | written _ => true

def isDisjunction : Conjunct α → Bool
  | rendered _ => false
  | written p => p.isDisjunction

def first : Conjunct α → Operand α
  | rendered t => ⟨Formula.bracketed Operator.and.precedence t t.tokens, t.regroup⟩
  | written p => p.first

def rest : Conjunct α → List (Operator × Operand α)
  | rendered _ => []
  | written p => p.rest

def row (cs : List (Conjunct α)) : List (Operator × Operand α) :=
  cs.flatMap fun x => (.and, x.first) :: x.rest

def joined (c : Conjunct α) (cs : List (Conjunct α)) : List (Token α) :=
  c.tokens ++ cs.flatMap fun x => .joint .and :: x.tokens

def meant (c : Conjunct α) (cs : List (Conjunct α)) : Formula α :=
  Formula.conjunction c.meaning (cs.map meaning)

/-- What the joined filters are read as, but for the grouping inside their operands. -/
def understood (c : Conjunct α) (cs : List (Conjunct α)) : Formula α :=
  Formula.grouped none c.first.formula (Operand.rowFormulas (c.rest ++ row cs))

theorem tokens_eq (x : Conjunct α) : x.tokens = x.first.tokens ++ Operand.rowTokens x.rest := by
  cases x with
  | rendered t => exact (List.append_nil _).symm
  | written p => exact p.tokens_eq

theorem joined_eq (c : Conjunct α) (cs : List (Conjunct α)) :
    joined c cs = c.first.tokens ++ Operand.rowTokens (c.rest ++ row cs) := by
  have hrow : (cs.flatMap fun x => .joint .and :: x.tokens) = Operand.rowTokens (row cs) := by
    rw [Operand.rowTokens, row, List.flatMap_assoc]
    congr 1
    funext x
    rw [tokens_eq]
    rfl
  rw [joined, hrow, tokens_eq, Operand.rowTokens, Operand.rowTokens, Operand.rowTokens,
    List.flatMap_append, List.append_assoc]

theorem stands {x : Conjunct α} (hx : x.WellFormed) :
    x.first.Stands ∧ ∀ l ∈ x.rest, (l.1 = .and ∨ l.1 = .or) ∧ l.2.Stands := by
  cases x with
  | written p => exact Phrase.stands_first hx
  | rendered t =>
    have hread := Reader.readsBack t hx
    refine ⟨⟨fun hw => hread.bracketed (Nat.le_refl _) fun hle _ => hw.mono hle, fun u frames hw =>
      ⟨_, hread.right (by decide) hw u, Formula.same_graft u t.regroup⟩⟩, fun l hl => ?_⟩
    exact absurd hl List.not_mem_nil

theorem stands_row {cs : List (Conjunct α)} (h : ∀ x ∈ cs, x.WellFormed) :
    ∀ l ∈ row cs, (l.1 = .and ∨ l.1 = .or) ∧ l.2.Stands := by
  intro l hl
  obtain ⟨x, hx, hl⟩ := List.mem_flatMap.1 hl
  rcases List.mem_cons.1 hl with rfl | hl
  · exact ⟨.inl rfl, (stands (h x hx)).1⟩
  · exact (stands (h x hx)).2 l hl

theorem exists_read_joined {c : Conjunct α} {cs : List (Conjunct α)}
    (h : ∀ x ∈ c :: cs, x.WellFormed) :
    ∃ back, Reader.read (joined c cs) = some back ∧ Formula.Same back (understood c cs) := by
  obtain ⟨hc, hcs⟩ := List.forall_mem_cons.1 h
  obtain ⟨hfirst, hrest⟩ := stands hc
  have hrow : ∀ l ∈ c.rest ++ row cs, (l.1 = .and ∨ l.1 = .or) ∧ l.2.Stands := by
    intro l hl
    rcases List.mem_append.1 hl with hl | hl
    · exact hrest l hl
    · exact stands_row hcs l hl
  have hread : Reader.ReadsAs Operator.and.precedence [] c.first.tokens
      (Operand.orFrame none) c.first.formula := hfirst.alone trivial
  rw [joined_eq]
  exact Operand.exists_read_row hrow hread

theorem meaning_map (f : α → β) (x : Conjunct α) : (x.map f).meaning = x.meaning.map f := by
  cases x with
  | rendered t => rfl
  | written p => exact p.formula_map f

theorem isDisjunction_map (f : α → β) (x : Conjunct α) :
    (x.map f).isDisjunction = x.isDisjunction := by
  cases x with
  | rendered t => rfl
  | written p => exact p.isDisjunction_map f

theorem row_map (f : α → β) (x : Conjunct α) :
    (x.map f).first.formula = x.first.formula.map f ∧
      Operand.rowFormulas (x.map f).rest =
        (Operand.rowFormulas x.rest).map fun l => (l.1, l.2.map f) := by
  cases x with
  | rendered t => exact ⟨Formula.regroup_map f t, rfl⟩
  | written p => exact p.row_map f

theorem rowFormulas_append (c : Conjunct α) (cs : List (Conjunct α)) :
    Operand.rowFormulas (c.rest ++ row cs) = Operand.rowFormulas c.rest ++
      cs.flatMap fun x => (.and, x.first.formula) :: Operand.rowFormulas x.rest := by
  simp only [Operand.rowFormulas, row, List.map_append, List.map_flatMap, List.map_cons]

theorem understood_map (f : α → β) (c : Conjunct α) (cs : List (Conjunct α)) :
    understood (c.map f) (cs.map (map f)) = (understood c cs).map f := by
  have hrow : Operand.rowFormulas ((c.map f).rest ++ row (cs.map (map f))) =
      (Operand.rowFormulas (c.rest ++ row cs)).map fun l => (l.1, l.2.map f) := by
    rw [rowFormulas_append, rowFormulas_append, List.map_append, (row_map f c).2, List.flatMap_map,
      List.map_flatMap]
    simp only [row_map, List.map_cons]
  rw [understood, understood, hrow, (row_map f c).1]
  exact Formula.grouped_map f none _ _

theorem meant_map (f : α → β) (c : Conjunct α) (cs : List (Conjunct α)) :
    meant (c.map f) (cs.map (map f)) = (meant c cs).map f := by
  rw [meant, meant, Formula.conjunction_map, meaning_map, List.map_map, List.map_map]
  congr 2
  funext x
  exact meaning_map f x

/-- An assignment of scalars to the atoms of a conjunct. -/
def Fills (y : Conjunct Scalar) (x : Conjunct α) : Prop := y.map (fun _ => ()) = x.map fun _ => ()

theorem eq_of_meaning {x : Conjunct α} {y : Conjunct Scalar} {σ : α → Scalar} (h : Fills y x)
    (hm : x.meaning.map σ = y.meaning) : x.map σ = y := by
  cases x with
  | rendered t =>
    cases y with
    | rendered g => exact congrArg rendered hm
    | written q => exact absurd h (by simp [Fills, map])
  | written p =>
    cases y with
    | rendered g => exact absurd h (by simp [Fills, map])
    | written q =>
      refine congrArg written (Phrase.eq_of_formula ?_ ((p.formula_map σ).trans hm))
      rw [p.map_map_unit σ]
      exact (written.inj h).symm

theorem eq_of_meanings {cs : List (Conjunct α)} {ds : List (Conjunct Scalar)} {σ : α → Scalar}
    (h : List.Forall₂ Fills ds cs) (hm : (cs.map (map σ)).map meaning = ds.map meaning) :
    cs.map (map σ) = ds := by
  induction h with
  | nil => rfl
  | cons hx hrest ih =>
    obtain ⟨hfirst, hm⟩ := List.cons.inj hm
    exact congrArg₂ List.cons (eq_of_meaning hx ((meaning_map σ _).symm.trans hfirst)) (ih hm)

theorem exists_map_eq {c : Conjunct α} {cs : List (Conjunct α)} (hn : (meant c cs).atoms.Nodup)
    {d : Conjunct Scalar} {ds : List (Conjunct Scalar)} (hd : Fills d c)
    (hds : List.Forall₂ Fills ds cs) :
    ∃ σ : α → Scalar, c.map σ = d ∧ cs.map (map σ) = ds := by
  have hshape : ds.map (map fun _ => ()) = cs.map (map fun _ => ()) := by
    rw [← List.forall₂_eq_eq_eq, List.forall₂_map_left_iff, List.forall₂_map_right_iff]
    exact hds
  have hfills : Formula.Fills (meant d ds) (meant c cs) := by
    rw [Formula.Fills, ← meant_map, ← meant_map, hshape, hd]
  obtain ⟨σ, hσ⟩ := Formula.exists_map_eq hn hfills
  rw [← meant_map] at hσ
  obtain ⟨hc, hcs⟩ := Formula.conjunction_inj (by simp [hds.length_eq]) hσ
  rw [meaning_map] at hc
  exact ⟨σ, eq_of_meaning hd hc, eq_of_meanings hds hcs⟩

/-- The filter is true, or false, and so is each of its operands. -/
structure Says (b : Bool) (x : Conjunct Scalar) : Prop where
  meaning : x.meaning.value = some (.bool b)
  first : x.first.formula.value = some (.bool b)
  rest : ∀ l ∈ x.rest, l.2.formula.value = some (.bool b)

theorem exists_says {x : Conjunct α} (hk : x.meaning.HasKind .bool) (b : Bool) :
    ∃ y, Fills y x ∧ Says b y := by
  cases x with
  | rendered t =>
    obtain ⟨g, hg, hy⟩ := Formula.exists_yields t (v := .bool b) hk 0
    exact ⟨rendered g, congrArg rendered hg, hy.value, hy.regrouped, fun l hl =>
      absurd hl List.not_mem_nil⟩
  | written p =>
    obtain ⟨q, hq, hm, hf, hr⟩ := Phrase.exists_says hk b
    exact ⟨written q, congrArg written hq, hm, hf, hr⟩

theorem exists_forall_says {cs : List (Conjunct α)} (hk : ∀ x ∈ cs, x.meaning.HasKind .bool)
    (b : Bool) : ∃ ds, List.Forall₂ Fills ds cs ∧ ∀ y ∈ ds, Says b y := by
  induction cs with
  | nil => exact ⟨[], .nil, by simp⟩
  | cons x cs ih =>
    obtain ⟨hx, hk⟩ := List.forall_mem_cons.1 hk
    obtain ⟨y, hy, hsaid⟩ := exists_says hx b
    obtain ⟨ds, hds, hall⟩ := ih hk
    exact ⟨y :: ds, .cons hy hds, List.forall_mem_cons.2 ⟨hsaid, hall⟩⟩

theorem rest_of_not {x : Conjunct α} (h : x.isDisjunction = false) : x.rest = [] := by
  cases x with
  | rendered t => rfl
  | written p => exact Phrase.rest_of_not h

theorem exists_rest {x : Conjunct α} (h : x.isDisjunction = true) :
    ∃ b row, x.rest = (.or, b) :: row := by
  cases x with
  | rendered t => exact Bool.noConfusion h
  | written p => exact Phrase.exists_rest h

theorem isDisjunction_of_fills {x : Conjunct α} {y : Conjunct Scalar} (h : Fills y x) :
    y.isDisjunction = x.isDisjunction := by
  rw [← isDisjunction_map fun _ => (), h, isDisjunction_map]

theorem Says.rowFormulas {b : Bool} {x : Conjunct Scalar} (h : Says b x) :
    ∀ l ∈ Operand.rowFormulas x.rest, l.2.value = some (.bool b) := by
  rw [Operand.rowFormulas, List.forall_mem_map]
  exact h.rest

theorem says_row {b : Bool} {ds : List (Conjunct Scalar)} (h : ∀ y ∈ ds, Says b y) :
    ∀ l ∈ Operand.rowFormulas (row ds), l.2.value = some (.bool b) := by
  rw [Operand.rowFormulas, List.forall_mem_map]
  intro l hl
  obtain ⟨y, hy, hl⟩ := List.mem_flatMap.1 hl
  rcases List.mem_cons.1 hl with rfl | hl
  · exact (h y hy).first
  · exact (h y hy).rest l hl

theorem understood_of_first {d : Conjunct Scalar} {ds : List (Conjunct Scalar)}
    (hd : Says true d) (hor : d.isDisjunction = true) (hds : ∀ y ∈ ds, Says false y) :
    (understood d ds).value = some (.bool true) := by
  obtain ⟨b, r, hr⟩ := exists_rest hor
  have hrow : Operand.rowFormulas (d.rest ++ row ds) =
      (.or, b.formula) :: (Operand.rowFormulas r ++ Operand.rowFormulas (row ds)) := by
    rw [hr, List.cons_append, Operand.rowFormulas, List.map_cons, List.map_append]
    rfl
  have hrest : ∀ l ∈ Operand.rowFormulas d.rest, l.2.value = some (.bool true) := hd.rowFormulas
  rw [hr, Operand.rowFormulas, List.map_cons] at hrest
  obtain ⟨hb, hrest⟩ := List.forall_mem_cons.1 hrest
  rw [understood, hrow]
  refine Formula.grouped_of_before hd.first ⟨true, hb⟩ fun l hl => ?_
  rcases List.mem_append.1 hl with hl | hl
  · exact ⟨true, hrest l hl⟩
  · exact ⟨false, says_row hds l hl⟩

theorem understood_of_other {d : Conjunct Scalar} {ds : List (Conjunct Scalar)}
    (hd : Says false d) (hnone : d.isDisjunction = false) (hds : ∀ y ∈ ds, Says true y)
    (hor : ∃ y ∈ ds, y.isDisjunction = true) : (understood d ds).value = some (.bool true) := by
  obtain ⟨y, hy, hdis⟩ := hor
  obtain ⟨b, r, hr⟩ := exists_rest hdis
  have hmem : (Operator.or, b) ∈ row ds :=
    List.mem_flatMap.2 ⟨y, hy, List.mem_cons_of_mem _ (hr ▸ List.mem_cons_self)⟩
  rw [understood, rest_of_not hnone, List.nil_append]
  exact Formula.grouped_of_or (by simp) ⟨false, hd.first⟩ (says_row hds)
    ⟨(.or, b.formula), List.mem_map.2 ⟨_, hmem, rfl⟩, show Operator.or ≠ .and by decide⟩

/-- An `or` outside of parentheses shows beside another filter: it holds although the other does
not. -/
theorem exists_understood_ne {c : Conjunct α} {cs : List (Conjunct α)} (hcs : cs ≠ [])
    (hk : ∀ x ∈ c :: cs, x.meaning.HasKind .bool) (hor : ∃ x ∈ c :: cs, x.isDisjunction = true) :
    ∃ d ds, Fills d c ∧ List.Forall₂ Fills ds cs ∧
      (understood d ds).value = some (.bool true) ∧ (meant d ds).value = some (.bool false) := by
  obtain ⟨hc, hk⟩ := List.forall_mem_cons.1 hk
  by_cases hdis : c.isDisjunction = true
  · obtain ⟨d, hd, hsaid⟩ := exists_says hc true
    obtain ⟨ds, hds, hall⟩ := exists_forall_says hk false
    refine ⟨d, ds, hd, hds,
      understood_of_first hsaid ((isDisjunction_of_fills hd).trans hdis) hall, ?_⟩
    cases hds with
    | nil => exact absurd rfl hcs
    | @cons y x ds cs hy hds =>
      obtain ⟨hfirst, hall⟩ := List.forall_mem_cons.1 hall
      have hmeant : meant d (y :: ds) =
          Formula.conjunction (.binary .and d.meaning y.meaning) (ds.map meaning) := rfl
      rw [hmeant]
      refine Formula.conjunction_of_false (Formula.value_and hsaid.meaning hfirst.meaning) ?_
      exact List.forall_mem_map.2 fun z hz => ⟨false, (hall z hz).meaning⟩
  · obtain ⟨d, hd, hsaid⟩ := exists_says hc false
    obtain ⟨ds, hds, hall⟩ := exists_forall_says hk true
    obtain ⟨x, hx, hdis'⟩ := hor
    have hx : x ∈ cs := (List.mem_cons.1 hx).resolve_left fun he => hdis (he ▸ hdis')
    obtain ⟨y, hy, hfills⟩ := exists_of_mem_forall₂ hds hx
    refine ⟨d, ds, hd, hds, understood_of_other hsaid
      ((isDisjunction_of_fills hd).trans (Bool.eq_false_iff.2 hdis)) hall
      ⟨y, hy, (isDisjunction_of_fills hfills).trans hdis'⟩, ?_⟩
    exact Formula.conjunction_of_forall hsaid.meaning
      (List.forall_mem_map.2 fun z hz => (hall z hz).meaning)

theorem understood_eq_conjunction {c : Conjunct α} {cs : List (Conjunct α)}
    (h : ∀ x ∈ c :: cs, x.isDisjunction = false) :
    understood c cs = Formula.conjunction c.first.formula (cs.map fun x => x.first.formula) := by
  obtain ⟨hc, hcs⟩ := List.forall_mem_cons.1 h
  have hrow : Operand.rowFormulas (c.rest ++ row cs) =
      cs.map fun x => (Operator.and, x.first.formula) := by
    rw [rest_of_not hc, List.nil_append, Operand.rowFormulas, row]
    induction cs with
    | nil => rfl
    | cons x cs ih =>
      obtain ⟨hx, hcs⟩ := List.forall_mem_cons.1 hcs
      rw [List.flatMap_cons, rest_of_not hx, List.map_append, ih
        (List.forall_mem_cons.2 ⟨hc, hcs⟩) hcs]
      rfl
  rw [understood, hrow, Formula.grouped_of_and (by simp), List.map_map]
  rfl

theorem same_first {x : Conjunct α} (hk : x.isKept = true) (hn : x.isDisjunction = false) :
    Formula.Same x.first.formula x.meaning := by
  cases x with
  | rendered t =>
    refine ⟨Formula.hasKind_regroup t, fun σ => ?_⟩
    have hsafe : (t.map σ).safe = true := (Formula.safe_map σ t).trans hk
    rw [first, ← Formula.regroup_map, Formula.value_regroup_of_safe hsafe]
    rfl
  | written p =>
    have hfirst : (written p).first = p.whole := Phrase.first_of_not hn
    rw [hfirst]
    exact Formula.Same.refl _

theorem understood_written (p : Phrase α) : understood (written p) [] = p.formula := by
  rw [understood, row, List.flatMap_nil, List.append_nil]
  exact p.grouped_eq

/-- Without an `or` outside of parentheses, filters stand beside each other as they are meant. -/
theorem same_understood {c : Conjunct α} {cs : List (Conjunct α)}
    (hk : ∀ x ∈ c :: cs, x.isKept = true)
    (hn : cs = [] ∨ ∀ x ∈ c :: cs, x.isDisjunction = false) :
    Formula.Same (understood c cs) (meant c cs) := by
  obtain ⟨hc, hcs⟩ := List.forall_mem_cons.1 hk
  by_cases hdis : ∀ x ∈ c :: cs, x.isDisjunction = false
  · rw [understood_eq_conjunction hdis]
    obtain ⟨hdc, hdcs⟩ := List.forall_mem_cons.1 hdis
    refine (same_first hc hdc).conjunction ?_
    rw [List.forall₂_map_left_iff, List.forall₂_map_right_iff, List.forall₂_same]
    exact fun x hx => same_first (hcs x hx) (hdcs x hx)
  · obtain rfl := hn.resolve_right hdis
    cases c with
    | rendered t => exact absurd (fun x hx => List.mem_singleton.1 hx ▸ rfl) hdis
    | written p =>
      rw [understood_written]
      exact Formula.Same.refl _

theorem hasKind_meaning {x : Conjunct α} (hf : x.first.formula.HasKind .bool)
    (hr : ∀ l ∈ x.rest, l.2.formula.HasKind .bool) : x.meaning.HasKind .bool := by
  cases x with
  | rendered t => exact (Formula.hasKind_regroup t .bool).1 hf
  | written p =>
    rw [meaning, ← p.grouped_eq]
    by_cases hrow : Operand.rowFormulas p.rest = []
    · rw [hrow]
      exact hf
    · refine (Formula.hasKind_grouped (.inr hrow)).2 ⟨rfl, by simp, hf, ?_⟩
      exact List.forall_mem_map.2 hr

theorem hasKind_meant {c : Conjunct α} {cs : List (Conjunct α)} {k : Kind}
    (h : (understood c cs).HasKind k) : (meant c cs).HasKind k := by
  cases cs with
  | nil =>
    cases c with
    | rendered t => exact (Formula.hasKind_regroup t k).1 h
    | written p =>
      rw [understood_written] at h
      exact h
  | cons y cs =>
    have hrow : Operand.rowFormulas (c.rest ++ row (y :: cs)) ≠ [] := by
      simp [Operand.rowFormulas, row]
    obtain ⟨rfl, -, hfirst, hrest⟩ := (Formula.hasKind_grouped (.inr hrow)).1 h
    have hrest := List.forall_mem_append.1 (List.forall_mem_map.1 hrest)
    refine (Formula.hasKind_conjunction (by simp)).2
      ⟨rfl, hasKind_meaning hfirst hrest.1, List.forall_mem_map.2 fun x hx => ?_⟩
    have hx : ∀ l ∈ (Operator.and, x.first) :: x.rest, l.2.formula.HasKind .bool :=
      fun l hl => hrest.2 l (List.mem_flatMap.2 ⟨x, hx, hl⟩)
    obtain ⟨hfirst, hrest⟩ := List.forall_mem_cons.1 hx
    exact hasKind_meaning hfirst hrest

theorem not_disjunction_of_unkept {x : Conjunct α} (h : x.isKept = false) :
    x.isDisjunction = false := by
  cases x with
  | rendered t => rfl
  | written p => exact Bool.noConfusion h

theorem not_disjunction_of_fills {cs : List (Conjunct α)} {ds : List (Conjunct Scalar)}
    (h : List.Forall₂ Fills ds cs) (hn : ∀ x ∈ cs, x.isDisjunction = false) :
    ∀ y ∈ ds, y.isDisjunction = false := by
  intro y hy
  obtain ⟨x, hx, hfills⟩ := exists_of_mem_forall₂ h.flip hy
  exact (isDisjunction_of_fills hfills).trans (hn x hx)

theorem exists_unkept {x : Conjunct α} {k : Kind} (hk : x.meaning.HasKind k)
    (hkept : x.isKept = false) :
    ∃ y v w, Fills y x ∧ y.meaning.value = some v ∧ y.first.formula.value = some w ∧
      v.kind = k ∧ w.kind = k ∧ w ≠ v := by
  cases x with
  | written p => exact Bool.noConfusion hkept
  | rendered t =>
    obtain ⟨g, v, w, hg, hv, hw, hkind, hapart⟩ :=
      Formula.exists_apart t hk hkept (k := 1) (Nat.le_refl 1)
    have hwk : w.kind = k := by
      rw [← hkind]
      match v, w, hapart with
      | .int a, .int b, _ => rfl
      | .bool a, .bool b, _ => rfl
    exact ⟨rendered g, v, w, congrArg rendered hg, hv, hw, hkind, hwk,
      (Scalar.Apart.ne (k := 0) hapart).symm⟩

/-- Beside other filters, an expression that does not keep its value by itself is not read as it is
meant either: the others can be true. -/
theorem exists_conjunction_ne {c : Conjunct α} {cs : List (Conjunct α)} {k : Kind}
    (hk : (meant c cs).HasKind k) (hn : ∀ x ∈ c :: cs, x.isDisjunction = false)
    (hkept : ∃ x ∈ c :: cs, x.isKept = false) :
    ∃ d ds, Fills d c ∧ List.Forall₂ Fills ds cs ∧
      (understood d ds).value ≠ (meant d ds).value := by
  have heq : ∀ {d ds}, Fills d c → List.Forall₂ Fills ds cs →
      understood d ds = Formula.conjunction d.first.formula (ds.map fun y => y.first.formula) :=
    fun hd hds => understood_eq_conjunction (not_disjunction_of_fills (.cons hd hds) hn)
  obtain ⟨x, hx, hkept⟩ := hkept
  by_cases hcs : cs = []
  · subst hcs
    obtain rfl := List.mem_singleton.1 hx
    obtain ⟨y, v, w, hy, hv, hw, -, -, hne⟩ := exists_unkept hk hkept
    refine ⟨y, [], hy, .nil, ?_⟩
    rw [heq hy .nil]
    exact fun he => hne (Option.some.inj (hw.symm.trans (he.trans hv)))
  · obtain ⟨-, hc, hall⟩ := (Formula.hasKind_conjunction (by simpa using hcs)).1 hk
    have hall := List.forall_mem_map.1 hall
    have hkinds : ∀ z ∈ c :: cs, z.meaning.HasKind .bool := List.forall_mem_cons.2 ⟨hc, hall⟩
    obtain ⟨y, v, w, hy, hv, hw, hvk, hwk, hne⟩ := exists_unkept (hkinds x hx) hkept
    obtain ⟨v, rfl⟩ := Scalar.exists_bool hvk
    obtain ⟨w, rfl⟩ := Scalar.exists_bool hwk
    have hne' : some (Scalar.bool w) ≠ some (.bool v) := fun he => hne (Option.some.inj he)
    rcases List.mem_cons.1 hx with rfl | hx
    · obtain ⟨ds, hds, hsaid⟩ := exists_forall_says hall true
      refine ⟨y, ds, hy, hds, ?_⟩
      rw [heq hy hds, Formula.conjunction_of_forall hw
        (List.forall_mem_map.2 fun z hz => (hsaid z hz).first), meant,
        Formula.conjunction_of_forall hv (List.forall_mem_map.2 fun z hz => (hsaid z hz).meaning)]
      exact hne'
    · obtain ⟨before, after, rfl⟩ := List.append_of_mem hx
      obtain ⟨hbefore, hafter⟩ := List.forall_mem_append.1 hall
      obtain ⟨d, hd, hsaid⟩ := exists_says hc true
      obtain ⟨ds, hds, hds'⟩ := exists_forall_says hbefore true
      obtain ⟨es, hes, hes'⟩ := exists_forall_says (List.forall_mem_cons.1 hafter).2 true
      have hfills := List.rel_append hds (List.Forall₂.cons hy hes)
      refine ⟨d, ds ++ y :: es, hd, hfills, ?_⟩
      rw [heq hd hfills, meant, List.map_append, List.map_cons, List.map_append, List.map_cons,
        Formula.conjunction_of_middle hsaid.first
          (List.forall_mem_map.2 fun z hz => (hds' z hz).first) hw
          (List.forall_mem_map.2 fun z hz => (hes' z hz).first),
        Formula.conjunction_of_middle hsaid.meaning
          (List.forall_mem_map.2 fun z hz => (hds' z hz).meaning) hv
          (List.forall_mem_map.2 fun z hz => (hes' z hz).meaning)]
      exact hne'

/-- Filters that `and` joins are read as one filter, and this has the value of their conjunction for
all values of the atoms exactly when each of them keeps its value by itself, and none of several is
a text with an `or` outside of its parentheses. -/
theorem read_joined_iff {c : Conjunct α} {cs : List (Conjunct α)}
    (hw : ∀ x ∈ c :: cs, x.WellFormed) (hatoms : (meant c cs).atoms.Nodup) :
    ∃ back, Reader.read (joined c cs) = some back ∧
      ((∀ σ : α → Scalar, (back.map σ).value = ((meant c cs).map σ).value) ↔
        ((∃ σ : α → Scalar, ((meant c cs).map σ).value ≠ none) →
          (∀ x ∈ c :: cs, x.isKept = true) ∧
            (cs = [] ∨ ∀ x ∈ c :: cs, x.isDisjunction = false))) := by
  obtain ⟨back, hread, hsame⟩ := exists_read_joined hw
  refine ⟨back, hread, ?_⟩
  constructor
  · rintro h ⟨σ, hσ⟩
    obtain ⟨v, hv⟩ := Option.ne_none_iff_exists'.1 hσ
    have hkind : (meant c cs).HasKind v.kind :=
      (Formula.hasKind_map σ _ _).1 (Formula.hasKind_of_value hv)
    -- Values that tell the two apart are values of the atoms.
    have hno : ∀ d ds, Fills d c → List.Forall₂ Fills ds cs →
        (understood d ds).value = (meant d ds).value := by
      intro d ds hd hds
      obtain ⟨τ, rfl, rfl⟩ := exists_map_eq hatoms hd hds
      rw [understood_map, meant_map, ← hsame.values τ]
      exact h τ
    have hdis : cs = [] ∨ ∀ x ∈ c :: cs, x.isDisjunction = false := by
      by_contra hcon
      obtain ⟨hcs, hor⟩ := not_or.1 hcon
      simp only [not_forall, Bool.not_eq_false] at hor
      obtain ⟨x, hx, hor⟩ := hor
      have hne : cs.map meaning ≠ [] := by simpa using hcs
      obtain ⟨-, hc, hall⟩ := (Formula.hasKind_conjunction hne).1 hkind
      obtain ⟨d, ds, hd, hds, hu, hm⟩ := exists_understood_ne hcs
        (List.forall_mem_cons.2 ⟨hc, List.forall_mem_map.1 hall⟩) ⟨x, hx, hor⟩
      have he := hno d ds hd hds
      rw [hu, hm] at he
      exact absurd he (by decide)
    refine ⟨fun x hx => ?_, hdis⟩
    by_contra hkept
    have hkept : x.isKept = false := Bool.eq_false_iff.2 hkept
    have hnone : ∀ x ∈ c :: cs, x.isDisjunction = false := by
      rcases hdis with rfl | hdis
      · obtain rfl := List.mem_singleton.1 hx
        exact fun z hz => List.mem_singleton.1 hz ▸ not_disjunction_of_unkept hkept
      · exact hdis
    obtain ⟨d, ds, hd, hds, hne⟩ := exists_conjunction_ne hkind hnone ⟨x, hx, hkept⟩
    exact hne (hno d ds hd hds)
  · intro h σ
    rw [hsame.values σ]
    by_cases hdefined : ∃ σ : α → Scalar, ((meant c cs).map σ).value ≠ none
    · obtain ⟨hkept, hdis⟩ := h hdefined
      exact (same_understood hkept hdis).values σ
    · have hnone : ∀ σ : α → Scalar, ((meant c cs).map σ).value = none := fun σ => by
        by_contra hne
        exact hdefined ⟨σ, hne⟩
      rw [hnone σ]
      by_contra hne
      obtain ⟨v, hv⟩ := Option.ne_none_iff_exists'.1 hne
      have hkind : (meant c cs).HasKind v.kind :=
        hasKind_meant ((Formula.hasKind_map σ _ _).1 (Formula.hasKind_of_value hv))
      obtain ⟨g, hg, hy⟩ := Formula.exists_yields (meant c cs) hkind 0
      obtain ⟨τ, rfl⟩ := Formula.exists_map_eq hatoms hg
      have he := (hnone τ).symm.trans hy.value
      exact absurd he (by simp)

end Conjunct

end ODataClient
