import ODataClient.Proofs.Expr.Kinds

/-! Values for the atoms of a formula. Every kind that a formula can have is taken with any
value of that kind, before and after regrouping; the atoms can be chosen so that the formula
also behaves as one factor where it is grafted onto a product. -/

namespace ODataClient

namespace Formula

variable {α β : Type}

def atoms : Formula α → List α
  | atom a => [a]
  | binary _ left right => left.atoms ++ right.atoms
  | unary _ operand => operand.atoms

def Fills (g : Formula Scalar) (t : Formula α) : Prop := g.map (fun _ => ()) = t.map (fun _ => ())

theorem Fills.binary {g h : Formula Scalar} {t u : Formula α} (op : Operator) (hg : Fills g t)
    (hh : Fills h u) : Fills (binary op g h) (binary op t u) :=
  congrArg₂ (Formula.binary op) hg hh

theorem Fills.unary {g : Formula Scalar} {t : Formula α} (op : Operator) (hg : Fills g t) :
    Fills (unary op g) (unary op t) := congrArg (Formula.unary op) hg

theorem length_atoms (t : Formula α) : t.atoms.length = t.size := by
  induction t with
  | atom a => rfl
  | binary op left right hl hr => simp only [atoms, List.length_append, hl, hr, size]
  | unary op operand ih => simp only [atoms, ih, size]

theorem size_map (f : α → β) (t : Formula α) : (t.map f).size = t.size := by
  induction t with
  | atom a => rfl
  | binary op left right hl hr => simp only [map, hl, hr, size]
  | unary op operand ih => simp only [map, ih, size]

theorem Fills.size_eq {g : Formula Scalar} {t : Formula α} (h : Fills g t) : g.size = t.size := by
  rw [← size_map (fun _ => ()) g, h, size_map]

theorem loose_map (f : α → β) (t : Formula α) : (t.map f).loose = t.loose := by
  induction t with
  | atom a => rfl
  | binary op left right hl hr => cases op <;> simp [map, loose, hl, hr]
  | unary op operand ih => rfl

theorem Fills.loose_eq {g : Formula Scalar} {t : Formula α} (h : Fills g t) :
    g.loose = t.loose := by rw [← loose_map (fun _ => ()) g, h, loose_map]

theorem map_numberedFrom {g : Formula Scalar} {t : Formula α} (h : Fills g t)
    (before after : List Scalar) (v : Scalar) :
    (t.numberedFrom before.length).map
      (fun a => ((before ++ g.atoms ++ after)[a.1]?).getD v) = g := by
  induction t generalizing g before after with
  | atom a =>
    cases g with
    | atom w => simp [numberedFrom, map, atoms]
    | binary op left right => exact absurd h (by simp [Fills, map])
    | unary op operand => exact absurd h (by simp [Fills, map])
  | binary op left right hl hr =>
    cases g with
    | atom w => exact absurd h (by simp [Fills, map])
    | unary op operand => exact absurd h (by simp [Fills, map])
    | binary op' a b =>
      obtain ⟨rfl, ha, hb⟩ := Formula.binary.inj h
      have hleft := hl ha before (b.atoms ++ after)
      have hright := hr hb (before ++ a.atoms) after
      rw [List.length_append, length_atoms, Fills.size_eq ha] at hright
      simp only [← List.append_assoc] at hleft
      simp only [numberedFrom, map, atoms, ← List.append_assoc, hleft, hright]
  | unary op operand ih =>
    cases g with
    | atom w => exact absurd h (by simp [Fills, map])
    | binary op left right => exact absurd h (by simp [Fills, map])
    | unary op' a =>
      obtain ⟨rfl, ha⟩ := Formula.unary.inj h
      exact congrArg (Formula.unary op') (ih ha before after)

theorem Fills.exists_assignment {g : Formula Scalar} {t : Formula α} (h : Fills g t) :
    ∃ σ : Nat → Scalar, (t.numbered.map fun a => σ a.1) = g := by
  have hg := map_numberedFrom h [] [] (.int 0)
  exact ⟨fun i => (([] ++ g.atoms ++ [])[i]?).getD (.int 0), hg⟩

/-- A formula has the value `v` before and after regrouping. As a right factor it multiplies
what is on its left, where that is at most `bound`, although its divisions come after it. -/
structure Yields (g : Formula Scalar) (v : Scalar) (bound : Nat) : Prop where
  value : g.value = some v
  regrouped : g.regroup.value = some v
  factor : ∀ left x n, v = .int n → x.natAbs ≤ bound → left.value = some (.int x) →
    (graft .mul left g.regroup).value = some (.int (x * n))

theorem Yields.of_ne {g : Formula Scalar} {v : Scalar} (hp : g.precedence ≠ 5)
    (hv : g.value = some v) (hr : g.regroup.value = some v) (bound : Nat) : Yields g v bound := by
  refine ⟨hv, hr, fun left x n hn _ hx => ?_⟩
  rw [graft_of_ne (by rwa [precedence_regroup]), Formula.value, hx, hr, hn]
  rfl

theorem exists_operands {op : Operator} {v : Scalar} {k : Kind} (hp : op.precedence ≤ 4)
    (h : op.takes k v.kind = true) :
    ∃ a b : Scalar, a.kind = k ∧ b.kind = k ∧ op.apply a b = some v := by
  cases v with
  | int n =>
    cases k with
    | bool => cases op <;> exact Bool.noConfusion h
    | int =>
      cases op with
      | add => exact ⟨.int n, .int 0, rfl, rfl, by simp [Operator.apply]⟩
      | sub => exact ⟨.int n, .int 0, rfl, rfl, by simp [Operator.apply]⟩
      | mul | div | mod => exact absurd hp (by decide)
      | _ => exact Bool.noConfusion h
  | bool b =>
    cases k with
    | int =>
      -- Zero and one are enough for every comparison to hold and to fail.
      cases op <;> cases b <;> first
        | exact Bool.noConfusion h
        | exact ⟨.int 0, .int 0, rfl, rfl, rfl⟩
        | exact ⟨.int 0, .int 1, rfl, rfl, rfl⟩
        | exact ⟨.int 1, .int 0, rfl, rfl, rfl⟩
    | bool =>
      cases op <;> cases b <;> first
        | exact Bool.noConfusion h
        | exact ⟨.bool false, .bool false, rfl, rfl, rfl⟩
        | exact ⟨.bool true, .bool true, rfl, rfl, rfl⟩
        | exact ⟨.bool true, .bool false, rfl, rfl, rfl⟩

theorem exists_operand {op : Operator} {v : Scalar} (h : op.takesSign v.kind = true) :
    ∃ a : Scalar, a.kind = v.kind ∧ op.applySign a = some v := by
  cases v with
  | int n =>
    cases op with
    | negate => exact ⟨.int (-n), rfl, by simp [Operator.applySign]⟩
    | _ => exact Bool.noConfusion h
  | bool b =>
    cases op with
    | not => exact ⟨.bool !b, rfl, by simp [Operator.applySign]⟩
    | _ => exact Bool.noConfusion h

theorem value_regroup_binary {op : Operator} (hm : op ≠ .mul) (left right : Formula Scalar) :
    (binary op left right).regroup.value = (binary op left.regroup right.regroup).value := by
  rw [regroup, value_joined _ fun h => absurd h hm]

theorem value_binary {op : Operator} {left right : Formula Scalar} {a b : Scalar}
    (hl : left.value = some a) (hr : right.value = some b) :
    (binary op left right).value = op.apply a b := by
  rw [value, hl, hr]
  rfl

theorem graft_regroup_mul (x left right : Formula α) :
    graft .mul x (binary .mul left right).regroup =
      graft .mul (graft .mul x left.regroup) right.regroup :=
  graft_graft rfl x left.regroup right.regroup

section

variable {l r : Formula Scalar} {n : Int} {bound : Nat}

theorem yields_mul {bound' : Nat} (hl : Yields l (.int n) bound) (hr : Yields r (.int 1) bound')
    (hn : n.natAbs ≤ bound') (hb : bound * n.natAbs ≤ bound') :
    Yields (binary .mul l r) (.int n) bound := by
  refine ⟨?_, ?_, fun left x m hm hx hleft => ?_⟩
  · rw [value_binary hl.value hr.value, Operator.apply, Int.mul_one]
  · have h := hr.factor l.regroup n 1 rfl hn hl.regrouped
    rwa [Int.mul_one] at h
  · have hle : (x * n).natAbs ≤ bound' := by
      rw [Int.natAbs_mul]
      exact Nat.le_trans (Nat.mul_le_mul_right _ hx) hb
    have h := hr.factor (graft .mul left l.regroup) (x * n) 1 rfl hle
      (hl.factor left x n rfl hx hleft)
    rwa [Int.mul_one, ← graft_regroup_mul, Scalar.int.inj hm] at h

theorem yields_div {bound' : Nat} (hl : Yields l (.int n) bound) (hr : Yields r (.int 1) bound') :
    Yields (binary .div l r) (.int n) bound := by
  have h1 : ∀ x : Int, Operator.div.apply (.int x) (.int 1) = some (.int x) := by
    intro x
    simp [Operator.apply]
  refine ⟨?_, ?_, fun left x m hm hx hleft => ?_⟩
  · rw [value_binary hl.value hr.value, h1]
  · rw [value_regroup_binary (by decide), value_binary hl.regrouped hr.regrouped, h1]
  · have hg : graft .mul left (binary .div l r).regroup =
        binary .div (graft .mul left l.regroup) r.regroup := rfl
    rw [hg, value_binary (hl.factor left x n rfl hx hleft) hr.regrouped, h1, Scalar.int.inj hm]

theorem tmod_of_natAbs_lt {x c : Int} (h : x.natAbs < c.natAbs) : x.tmod c = x := by
  have hx : x.tdiv c = 0 := by
    rw [← Int.natAbs_eq_zero, Int.natAbs_tdiv]
    exact Nat.div_eq_of_lt h
  have hd := Int.tmod_add_mul_tdiv x c
  rwa [hx, Int.mul_zero, Int.add_zero] at hd

theorem yields_mod {c : Int} {bound' : Nat} (hl : Yields l (.int n) bound)
    (hr : Yields r (.int c) bound') (hn : n.natAbs < c.natAbs)
    (hb : bound * n.natAbs < c.natAbs) : Yields (binary .mod l r) (.int n) bound := by
  have hc : ∀ x : Int, x.natAbs < c.natAbs →
      Operator.mod.apply (.int x) (.int c) = some (.int x) := by
    intro x hx
    have h0 : c ≠ 0 := by omega
    simp [Operator.apply, h0, tmod_of_natAbs_lt hx]
  refine ⟨?_, ?_, fun left x m hm hx hleft => ?_⟩
  · rw [value_binary hl.value hr.value, hc n hn]
  · rw [value_regroup_binary (by decide), value_binary hl.regrouped hr.regrouped, hc n hn]
  · have hlt : (x * n).natAbs < c.natAbs := by
      rw [Int.natAbs_mul]
      exact Nat.lt_of_le_of_lt (Nat.mul_le_mul_right _ hx) hb
    have hg : graft .mul left (binary .mod l r).regroup =
        binary .mod (graft .mul left l.regroup) r.regroup := rfl
    rw [hg, value_binary (hl.factor left x n rfl hx hleft) hr.regrouped, hc _ hlt,
      Scalar.int.inj hm]

end

theorem exists_yields (t : Formula α) {v : Scalar} (h : t.HasKind v.kind) (bound : Nat) :
    ∃ g, Fills g t ∧ Yields g v bound := by
  induction t generalizing v bound with
  | atom a =>
    have hp : (atom v).precedence ≠ 5 := show (7 : Nat) ≠ 5 by decide
    exact ⟨atom v, rfl, .of_ne hp rfl rfl bound⟩
  | unary op operand ih =>
    obtain ⟨hop, hoperand⟩ := h
    obtain ⟨a, hk, ha⟩ := exists_operand hop
    obtain ⟨g, hg, hv⟩ := ih (v := a) (hk ▸ hoperand) bound
    have hp : (unary op g).precedence ≠ 5 := by
      cases op <;> first | exact Bool.noConfusion hop | (exact show (6 : Nat) ≠ 5 by decide)
    refine ⟨unary op g, hg.unary op, .of_ne hp ?_ ?_ bound⟩
    · rw [value, hv.value, Option.bind_some, ha]
    · rw [regroup, value, hv.regrouped, Option.bind_some, ha]
  | binary op left right hl hr =>
    obtain ⟨k, hop, hleft, hright⟩ := h
    by_cases hp : op.precedence ≤ 4
    · obtain ⟨a, b, ha, hb, hab⟩ := exists_operands hp hop
      obtain ⟨g, hg, hv⟩ := hl (v := a) (ha ▸ hleft) bound
      obtain ⟨g', hg', hv'⟩ := hr (v := b) (hb ▸ hright) bound
      have h5 : (binary op g g').precedence ≠ 5 := by
        rw [precedence]
        omega
      have hm : op ≠ .mul := fun h => by
        rw [h] at hp
        exact absurd hp (by decide)
      refine ⟨binary op g g', hg.binary op hg', .of_ne h5 ?_ ?_ bound⟩
      · rw [value_binary hv.value hv'.value, hab]
      · rw [value_regroup_binary hm, value_binary hv.regrouped hv'.regrouped, hab]
    · obtain ⟨n, rfl, rfl⟩ : ∃ n, v = .int n ∧ k = .int := by
        cases v with
        | int n =>
          refine ⟨n, rfl, ?_⟩
          cases k with
          | int => rfl
          | bool => cases op <;> exact Bool.noConfusion hop
        | bool b =>
          cases k <;> cases op <;> first | exact Bool.noConfusion hop | exact absurd (by decide) hp
      obtain ⟨g, hg, hv⟩ := hl (v := .int n) hleft bound
      cases op with
      | mul =>
        obtain ⟨g', hg', hv'⟩ := hr (v := .int 1) hright (n.natAbs + bound * n.natAbs)
        exact ⟨_, hg.binary _ hg', yields_mul hv hv' (by omega) (by omega)⟩
      | div =>
        obtain ⟨g', hg', hv'⟩ := hr (v := .int 1) hright 0
        exact ⟨_, hg.binary _ hg', yields_div hv hv'⟩
      | mod =>
        obtain ⟨g', hg', hv'⟩ := hr (v := .int (n.natAbs + bound * n.natAbs + 1 : Nat)) hright 0
        have hc : ((n.natAbs + bound * n.natAbs + 1 : Nat) : Int).natAbs =
            n.natAbs + bound * n.natAbs + 1 := Int.natAbs_natCast _
        exact ⟨_, hg.binary _ hg', yields_mod hv hv' (by omega) (by omega)⟩
      | _ => first | exact absurd (by decide) hp | exact Bool.noConfusion hop

end Formula

end ODataClient
