import ODataClient.Proofs.Expr.Assignments

/-! Products with a division in their right factor. Written without parentheses they are
read with another value, and the operators around such a product cannot hide the
difference: for some atoms the two values lie apart, and stay apart up to the root. -/

namespace ODataClient

namespace Scalar

/-- Different truth values, or numbers whose sizes are at least `k` and differ by `k`. -/
def Apart (k : Nat) : Scalar → Scalar → Prop
  | int a, int b =>
    k ≤ a.natAbs ∧ k ≤ b.natAbs ∧ (a.natAbs + k ≤ b.natAbs ∨ b.natAbs + k ≤ a.natAbs)
  | bool a, bool b => a ≠ b
  | _, _ => False

variable {k : Nat} {v w : Scalar}

theorem Apart.mono {k' : Nat} (h : Apart k v w) (hk : k' ≤ k) : Apart k' v w := by
  match v, w, h with
  | int a, int b, ⟨ha, hb, hab⟩ => exact ⟨by omega, by omega, by omega⟩
  | bool a, bool b, h => exact h

theorem Apart.ne (h : Apart (k + 1) v w) : v ≠ w := by
  rintro rfl
  match v, h with
  | int a, ⟨_, _, hab⟩ => omega
  | bool a, h => exact h rfl

theorem Apart.exists_int (h : Apart k v w) (hv : v.kind = .int) :
    ∃ a b, v = int a ∧ w = int b := by
  match v, w, h with
  | int a, int b, _ => exact ⟨a, b, rfl, rfl⟩
  | bool a, bool b, _ => exact Kind.noConfusion hv

end Scalar

namespace Operator

variable {op : Operator}

theorem land_comm (a b : Int) : a.land b = b.land a := by
  match a, b with
  | .ofNat m, .ofNat n => exact congrArg Int.ofNat (Nat.land_comm m n)
  | .ofNat m, .negSucc n => rfl
  | .negSucc m, .ofNat n => rfl
  | .negSucc m, .negSucc n => exact congrArg Int.negSucc (Nat.lor_comm m n)

theorem land_self (a : Int) : a.land a = a := by
  match a with
  | .ofNat m => exact congrArg Int.ofNat (Nat.and_self m)
  | .negSucc m => exact congrArg Int.negSucc (Nat.or_self m)

theorem apply_comparison (h : op.takes .int .bool = true) (a b : Int) :
    ∃ c, op.apply (.int a) (.int b) = some (.bool c) := by
  cases op <;> first | exact Bool.noConfusion h | exact ⟨_, rfl⟩

theorem exists_comparison (h : op.takes .int .bool = true) {v w : Int} (hne : v ≠ w) :
    (∃ s : Int, op.apply (.int v) (.int s) ≠ op.apply (.int w) (.int s)) ∧
      ∃ s : Int, op.apply (.int s) (.int v) ≠ op.apply (.int s) (.int w) := by
  have hne' : w ≠ v := hne.symm
  cases op with
  | eq => exact ⟨⟨v, by simp [apply, hne']⟩, ⟨v, by simp [apply, hne]⟩⟩
  | ne => exact ⟨⟨v, by simp [apply, hne']⟩, ⟨v, by simp [apply, hne]⟩⟩
  | gt | ge | lt | le =>
    rcases Int.lt_or_gt_of_ne hne with hlt | hlt
    · constructor
      · first | exact ⟨v, by simp [apply]; omega⟩ | exact ⟨w, by simp [apply]; omega⟩
      · first | exact ⟨v, by simp [apply]; omega⟩ | exact ⟨w, by simp [apply]; omega⟩
    · constructor
      · first | exact ⟨v, by simp [apply]; omega⟩ | exact ⟨w, by simp [apply]; omega⟩
      · first | exact ⟨v, by simp [apply]; omega⟩ | exact ⟨w, by simp [apply]; omega⟩
  | has =>
    -- Each number has all bits of itself, and two numbers that have all bits of each other
    -- are equal.
    have hcomm := land_comm v w
    constructor
    · by_cases hv : w.land v = v
      · exact ⟨w, by simp [apply, land_self, hcomm, hv, hne]⟩
      · exact ⟨v, by simp [apply, land_self, hv]⟩
    · by_cases hw : v.land w = w
      · exact ⟨w, by simp [apply, land_self, ← hcomm, hw, hne']⟩
      · exact ⟨v, by simp [apply, land_self, hw]⟩
  | _ => exact Bool.noConfusion h

theorem exists_neutral (h : op.takes .bool .bool = true) :
    ∃ s : Bool, ∀ a : Bool, op.apply (.bool a) (.bool s) = some (.bool a) ∧
      op.apply (.bool s) (.bool a) = some (.bool a) := by
  cases op with
  | and => exact ⟨true, by simp [apply]⟩
  | or => exact ⟨false, by simp [apply]⟩
  | eq => exact ⟨true, by simp [apply]⟩
  | ne => exact ⟨false, by simp [apply]⟩
  | _ => exact Bool.noConfusion h

theorem applySign_apart {n : Nat} {v w : Scalar} (ht : op.takesSign v.kind = true)
    (h : v.Apart n w) :
    ∃ c d : Scalar, op.applySign v = some c ∧ op.applySign w = some d ∧ c.kind = v.kind ∧
      c.Apart n d := by
  match v, w, h with
  | .bool a, .bool b, h =>
    cases op with
    | not => exact ⟨.bool !a, .bool !b, rfl, rfl, rfl, fun he => h (Bool.not_inj he)⟩
    | _ => exact Bool.noConfusion ht
  | .int a, .int b, h =>
    cases op with
    | negate => exact ⟨.int (-a), .int (-b), rfl, rfl, rfl, by simpa [Scalar.Apart] using h⟩
    | _ => exact Bool.noConfusion ht

theorem exists_beside {op : Operator} (hm : op ≠ .mul) {n : Nat} {v w : Scalar} {k : Kind}
    (h : v.Apart (n + 1) w) (ht : op.takes v.kind k = true) :
    ∃ s c d : Scalar, s.kind = v.kind ∧ op.apply v s = some c ∧ op.apply w s = some d ∧
      c.kind = k ∧ c.Apart n d := by
  match v, w, h with
  | .bool a, .bool b, h =>
    cases k with
    | int => cases op <;> exact Bool.noConfusion ht
    | bool =>
      obtain ⟨s, hs⟩ := exists_neutral ht
      exact ⟨.bool s, .bool a, .bool b, rfl, (hs a).1, (hs b).1, rfl, h⟩
  | .int a, .int b, h =>
    have hlow := h.mono (Nat.le_succ n)
    cases k with
    | bool =>
      have hne : a ≠ b := fun he => h.ne (congrArg Scalar.int he)
      obtain ⟨⟨s, hs⟩, -⟩ := exists_comparison ht hne
      obtain ⟨c, hc⟩ := apply_comparison ht a s
      obtain ⟨d, hd⟩ := apply_comparison ht b s
      refine ⟨.int s, .bool c, .bool d, rfl, hc, hd, rfl, fun he => hs ?_⟩
      rw [hc, hd, he]
    | int =>
      cases op with
      | add => exact ⟨.int 0, .int a, .int b, rfl, by simp [apply], by simp [apply], rfl, hlow⟩
      | sub => exact ⟨.int 0, .int a, .int b, rfl, by simp [apply], by simp [apply], rfl, hlow⟩
      | mul => exact absurd rfl hm
      | div => exact ⟨.int 1, .int a, .int b, rfl, by simp [apply], by simp [apply], rfl, hlow⟩
      | mod =>
        have hc : ((a.natAbs + b.natAbs + 1 : Nat) : Int).natAbs = a.natAbs + b.natAbs + 1 :=
          Int.natAbs_natCast _
        have h0 : ((a.natAbs + b.natAbs + 1 : Nat) : Int) ≠ 0 := by omega
        refine ⟨.int (a.natAbs + b.natAbs + 1 : Nat), .int a, .int b, rfl, ?_, ?_, rfl, hlow⟩
        · rw [apply, if_neg h0, Formula.tmod_of_natAbs_lt (by omega)]
        · rw [apply, if_neg h0, Formula.tmod_of_natAbs_lt (by omega)]
      | _ => exact Bool.noConfusion ht

theorem exists_dividend {n : Nat} {a b : Int} (h : (Scalar.int a).Apart (n + 1) (.int b)) :
    (Scalar.int ((a * b).tdiv a)).Apart n (.int ((a * b).tdiv b)) ∧
      ∃ s : Int, (Scalar.int (s.tmod a)).Apart n (.int (s.tmod b)) := by
  obtain ⟨ha, hb, hab⟩ := h
  have ha0 : a ≠ 0 := by omega
  have hb0 : b ≠ 0 := by omega
  constructor
  · rw [Int.mul_tdiv_cancel_left b ha0, Int.mul_tdiv_cancel a hb0]
    exact ⟨by omega, by omega, by omega⟩
  · -- A dividend just above the smaller divisor leaves `n` there and all of itself at the other.
    have hmod : ∀ u w : Nat, n < u → u + n < w → (u + n) % u = n ∧ (u + n) % w = u + n := by
      intro u w hu hw
      rw [Nat.add_mod_left, Nat.mod_eq_of_lt hu, Nat.mod_eq_of_lt hw]
      exact ⟨rfl, rfl⟩
    rcases hab with hab | hab
    · refine ⟨(a.natAbs + n : Nat), ?_⟩
      obtain ⟨hu, hw⟩ := hmod a.natAbs b.natAbs (by omega) (by omega)
      simp only [Scalar.Apart, Int.natAbs_tmod, Int.natAbs_natCast, hu, hw]
      omega
    · refine ⟨(b.natAbs + n : Nat), ?_⟩
      obtain ⟨hu, hw⟩ := hmod b.natAbs a.natAbs (by omega) (by omega)
      simp only [Scalar.Apart, Int.natAbs_tmod, Int.natAbs_natCast, hu, hw]
      omega

theorem exists_before {op : Operator} (hm : op ≠ .mul) {n : Nat} {v w : Scalar} {k : Kind}
    (h : v.Apart (n + 1) w) (ht : op.takes v.kind k = true) :
    ∃ s c d : Scalar, s.kind = v.kind ∧ op.apply s v = some c ∧ op.apply s w = some d ∧
      c.kind = k ∧ c.Apart n d := by
  match v, w, h with
  | .bool a, .bool b, h =>
    cases k with
    | int => cases op <;> exact Bool.noConfusion ht
    | bool =>
      obtain ⟨s, hs⟩ := exists_neutral ht
      exact ⟨.bool s, .bool a, .bool b, rfl, (hs a).2, (hs b).2, rfl, h⟩
  | .int a, .int b, h =>
    have hlow := h.mono (Nat.le_succ n)
    cases k with
    | bool =>
      have hne : a ≠ b := fun he => h.ne (congrArg Scalar.int he)
      obtain ⟨-, s, hs⟩ := exists_comparison ht hne
      obtain ⟨c, hc⟩ := apply_comparison ht s a
      obtain ⟨d, hd⟩ := apply_comparison ht s b
      refine ⟨.int s, .bool c, .bool d, rfl, hc, hd, rfl, fun he => hs ?_⟩
      rw [hc, hd, he]
    | int =>
      have ha0 : a ≠ 0 := by have := h.1; omega
      have hb0 : b ≠ 0 := by have := h.2.1; omega
      obtain ⟨hdiv, s, hmod⟩ := exists_dividend h
      cases op with
      | add => exact ⟨.int 0, .int a, .int b, rfl, by simp [apply], by simp [apply], rfl, hlow⟩
      | sub =>
        refine ⟨.int 0, .int (-a), .int (-b), rfl, by simp [apply], by simp [apply], rfl, ?_⟩
        simpa [Scalar.Apart] using hlow
      | mul => exact absurd rfl hm
      | div => exact ⟨.int (a * b), _, _, rfl, if_neg ha0, if_neg hb0, rfl, hdiv⟩
      | mod => exact ⟨.int s, _, _, rfl, if_neg ha0, if_neg hb0, rfl, hmod⟩
      | _ => exact Bool.noConfusion ht

end Operator

namespace Formula

variable {α : Type}

/-- A chain of factors with a division multiplies differently when what is on its left comes
before the division. -/
theorem exists_loose (t : Formula α) (h : t.HasKind .int) (hl : t.loose = true) {k : Nat}
    (hk : 1 ≤ k) :
    ∃ (g : Formula Scalar) (a v w : Int), Fills g t ∧ g.value = some (.int v) ∧
      (∀ left, left.value = some (.int a) →
        (graft .mul left g.regroup).value = some (.int w)) ∧
      (Scalar.int (a * v)).Apart k (.int w) := by
  induction t with
  | atom x => exact Bool.noConfusion hl
  | unary op operand ih => exact Bool.noConfusion hl
  | binary op left right ihl ihr =>
    obtain ⟨kind, hop, hleft, hright⟩ := h
    cases op with
    | div =>
      obtain rfl : kind = .int := by cases kind <;> first | rfl | exact Bool.noConfusion hop
      obtain ⟨g, hg, hv⟩ := exists_yields left (v := .int (2 * k + 1)) hleft (k + 1)
      obtain ⟨g', hg', hv'⟩ := exists_yields right (v := .int (k + 1)) hright 0
      have h0 : (k + 1 : Int) ≠ 0 := by omega
      have hv1 : (2 * k + 1 : Int).tdiv (k + 1) = 1 := by
        rw [Int.tdiv_eq_ediv_of_nonneg (by omega)]
        exact ((Int.ediv_emod_unique (r := k) (q := 1) (by omega)).2
          ⟨by omega, by omega, by omega⟩).1
      refine ⟨binary .div g g', k + 1, 1, 2 * k + 1, hg.binary _ hg', ?_, fun x hx => ?_, ?_⟩
      · rw [value_binary hv.value hv'.value, Operator.apply, if_neg h0, hv1]
      · have hgr : graft .mul x (binary .div g g').regroup =
            binary .div (graft .mul x g.regroup) g'.regroup := rfl
        rw [hgr, value_binary (hv.factor x (k + 1) _ rfl (by omega) hx) hv'.regrouped,
          Operator.apply, if_neg h0, Int.mul_tdiv_cancel_left _ h0]
      · exact ⟨by omega, by omega, by omega⟩
    | mod =>
      obtain rfl : kind = .int := by cases kind <;> first | rfl | exact Bool.noConfusion hop
      obtain ⟨g, hg, hv⟩ := exists_yields left (v := .int (2 * k)) hleft 2
      obtain ⟨g', hg', hv'⟩ := exists_yields right (v := .int (2 * k + 1)) hright 0
      have h0 : (2 * k + 1 : Int) ≠ 0 := by omega
      have hv1 : (2 * (2 * k) : Int).tmod (2 * k + 1) = 2 * k - 1 := by
        rw [Int.tmod_eq_emod_of_nonneg (by omega)]
        exact ((Int.ediv_emod_unique (r := 2 * k - 1) (q := 1) (by omega)).2
          ⟨by omega, by omega, by omega⟩).2
      refine ⟨binary .mod g g', 2, 2 * k, 2 * k - 1, hg.binary _ hg', ?_, fun x hx => ?_, ?_⟩
      · rw [value_binary hv.value hv'.value, Operator.apply, if_neg h0,
          tmod_of_natAbs_lt (by omega)]
      · have hgr : graft .mul x (binary .mod g g').regroup =
            binary .mod (graft .mul x g.regroup) g'.regroup := rfl
        rw [hgr, value_binary (hv.factor x 2 _ rfl (by omega) hx) hv'.regrouped,
          Operator.apply, if_neg h0, hv1]
      · exact ⟨by omega, by omega, by omega⟩
    | mul =>
      obtain rfl : kind = .int := by cases kind <;> first | rfl | exact Bool.noConfusion hop
      by_cases hloose : left.loose = true
      · obtain ⟨g, a, v, w, hg, hv, hw, hapart⟩ := ihl hleft hloose
        obtain ⟨g', hg', hv'⟩ := exists_yields right (v := .int 1) hright w.natAbs
        refine ⟨binary .mul g g', a, v, w, hg.binary _ hg', ?_, fun x hx => ?_, hapart⟩
        · rw [value_binary hv hv'.value, Operator.apply, Int.mul_one]
        · have h := hv'.factor _ w 1 rfl (Nat.le_refl _) (hw x hx)
          rwa [Int.mul_one, ← graft_regroup_mul] at h
      · have hright' : right.loose = true := by
          rw [loose, Bool.or_eq_true] at hl
          exact hl.resolve_left hloose
        obtain ⟨g', a, v, w, hg', hv', hw, hapart⟩ := ihr hright hright'
        obtain ⟨g, hg, hv⟩ := exists_yields left (v := .int 1) hleft a.natAbs
        refine ⟨binary .mul g g', a, v, w, hg.binary _ hg', ?_, fun x hx => ?_, hapart⟩
        · rw [value_binary hv.value hv', Operator.apply, Int.one_mul]
        · have h := hv.factor x a 1 rfl (Nat.le_refl _) hx
          rw [Int.mul_one] at h
          rw [graft_regroup_mul, hw _ h]
    | _ => exact Bool.noConfusion hl

theorem safe_binary {op : Operator} (hm : op ≠ .mul) (left right : Formula α) :
    (binary op left right).safe = (left.safe && right.safe) := by
  cases op <;> first | rfl | exact absurd rfl hm

/-- A formula with an unsafe product has, for some atoms, another value when it is regrouped. -/
theorem exists_apart (t : Formula α) {kind : Kind} (h : t.HasKind kind) (hs : t.safe = false)
    {k : Nat} (hk : 1 ≤ k) :
    ∃ (g : Formula Scalar) (v w : Scalar), Fills g t ∧ g.value = some v ∧
      g.regroup.value = some w ∧ v.kind = kind ∧ v.Apart k w := by
  -- Divisions around the product bring its values closer, so the induction is for all `k`.
  induction t generalizing kind k with
  | atom a => exact Bool.noConfusion hs
  | unary op operand ih =>
    obtain ⟨hop, hoperand⟩ := h
    obtain ⟨g, v, w, hg, hv, hw, hkind, hapart⟩ := ih hoperand hs hk
    obtain ⟨c, d, hc, hd, hck, hcd⟩ := Operator.applySign_apart (hkind ▸ hop) hapart
    refine ⟨unary op g, c, d, hg.unary op, ?_, ?_, hck.trans hkind, hcd⟩
    · rw [value, hv, Option.bind_some, hc]
    · rw [regroup, value, hw, Option.bind_some, hd]
  | binary op left right hl hr =>
    obtain ⟨kind', hop, hleft, hright⟩ := h
    by_cases hm : op = .mul
    · subst hm
      obtain ⟨rfl, rfl⟩ : kind' = .int ∧ kind = .int := by
        cases kind' <;> cases kind <;> first | exact ⟨rfl, rfl⟩ | exact Bool.noConfusion hop
      by_cases hls : left.safe = true
      · by_cases hloose : right.loose = true
        · obtain ⟨g', a, v, w, hg', hv', hw, hapart⟩ := exists_loose right hright hloose hk
          obtain ⟨g, hg, hv⟩ := exists_yields left (v := .int a) hleft 0
          refine ⟨binary .mul g g', _, _, hg.binary _ hg', ?_, hw _ hv.regrouped, rfl, hapart⟩
          rw [value_binary hv.value hv', Operator.apply]
        · have hrs : right.safe = false := by simpa [safe, hls, hloose] using hs
          obtain ⟨g', v, w, hg', hv', hw', hkind, hapart⟩ := hr hright hrs hk
          obtain ⟨g, hg, hv⟩ := exists_yields left (v := .int 1) hleft 0
          have hg'loose : g'.regroup.loose = false := by
            rw [loose_regroup, hg'.loose_eq]
            simpa using hloose
          obtain ⟨a, b, rfl, rfl⟩ := hapart.exists_int hkind
          refine ⟨binary .mul g g', .int a, .int b, hg.binary _ hg', ?_, ?_, rfl, hapart⟩
          · rw [value_binary hv.value hv', Operator.apply, Int.one_mul]
          · rw [regroup, value_joined _ fun _ => hg'loose, value_binary hv.regrouped hw',
              Operator.apply, Int.one_mul]
      · have hls : left.safe = false := by simpa using hls
        obtain ⟨g, v, w, hg, hv, hw, hkind, hapart⟩ := hl hleft hls hk
        obtain ⟨a, b, rfl, rfl⟩ := hapart.exists_int hkind
        obtain ⟨g', hg', hv'⟩ := exists_yields right (v := .int 1) hright b.natAbs
        refine ⟨binary .mul g g', .int a, .int b, hg.binary _ hg', ?_, ?_, rfl, hapart⟩
        · rw [value_binary hv hv'.value, Operator.apply, Int.mul_one]
        · have h := hv'.factor g.regroup b 1 rfl (Nat.le_refl _) hw
          rwa [Int.mul_one] at h
    · by_cases hls : left.safe = true
      · have hrs : right.safe = false := by simpa [safe_binary hm, hls] using hs
        obtain ⟨g', v, w, hg', hv', hw', hkind, hapart⟩ := hr hright hrs (k := k + 1) (by omega)
        obtain ⟨s, c, d, hsk, hc, hd, hck, hcd⟩ :=
          Operator.exists_before hm hapart (hkind ▸ hop)
        obtain ⟨g, hg, hv⟩ := exists_yields left (v := s) (hsk ▸ hkind ▸ hleft) 0
        refine ⟨binary op g g', c, d, hg.binary op hg', ?_, ?_, hck, hcd⟩
        · rw [value_binary hv.value hv', hc]
        · rw [value_regroup_binary hm, value_binary hv.regrouped hw', hd]
      · have hls : left.safe = false := by simpa using hls
        obtain ⟨g, v, w, hg, hv, hw, hkind, hapart⟩ := hl hleft hls (k := k + 1) (by omega)
        obtain ⟨s, c, d, hsk, hc, hd, hck, hcd⟩ :=
          Operator.exists_beside hm hapart (hkind ▸ hop)
        obtain ⟨g', hg', hv'⟩ := exists_yields right (v := s) (hsk ▸ hkind ▸ hright) 0
        refine ⟨binary op g g', c, d, hg.binary op hg', ?_, ?_, hck, hcd⟩
        · rw [value_binary hv hv'.value, hc]
        · rw [value_regroup_binary hm, value_binary hw hv'.regrouped, hd]

end Formula

end ODataClient
