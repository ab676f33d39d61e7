import ODataClient.Proofs.Expr.Products

/-! Texts read back. The reader gives every written expression its value back for all values of
the atoms, unless a product has a division among its right factors. Then the parentheses
around that factor are missing, and some values of the atoms show it. -/

namespace ODataClient

namespace Formula

variable {α β : Type}

theorem graft_map (f : α → β) (op : Operator) (left right : Formula α) :
    graft op (left.map f) (right.map f) = (graft op left right).map f := by
  induction right with
  | atom a => rfl
  | unary op' operand ih => rfl
  | binary op' a b iha ihb =>
    rw [map, graft, graft]
    split
    · rw [map, iha]
    · rfl

theorem regroup_map (f : α → β) (t : Formula α) : (t.map f).regroup = t.regroup.map f := by
  induction t with
  | atom a => rfl
  | unary op operand ih => rw [map, regroup, regroup, map, ih]
  | binary op left right hl hr =>
    rw [map, regroup, regroup, hl, hr, joined, joined]
    split
    · exact graft_map f op _ _
    · rfl

theorem safe_map (f : α → β) (t : Formula α) : (t.map f).safe = t.safe := by
  induction t with
  | atom a => rfl
  | unary op operand ih => exact ih
  | binary op left right hl hr =>
    by_cases hm : op = .mul
    · subst hm
      rw [map, safe, safe, hl, hr, loose_map]
    · rw [map, safe_binary hm, safe_binary hm, hl, hr]

theorem safe_numbered (t : Formula α) : t.numbered.safe = t.safe := by
  rw [← safe_map (·.2), numbered, numberedFrom_map_snd]

theorem hasKind_numbered (t : Formula α) (k : Kind) : t.numbered.HasKind k ↔ t.HasKind k := by
  rw [← hasKind_map (·.2), numbered, numberedFrom_map_snd]

theorem wellFormed_numbered (t : Formula α) : t.numbered.WellFormed ↔ t.WellFormed := by
  rw [← wellFormed_map (·.2), numbered, numberedFrom_map_snd]

def valueIn (σ : Nat → Scalar) (t : Formula (Nat × α)) : Option Scalar :=
  (t.map fun a => σ a.1).value

theorem valueIn_regroup_iff (t : Formula α) :
    (∀ σ, t.numbered.regroup.valueIn σ = t.numbered.valueIn σ) ↔
      ((∃ σ, t.numbered.valueIn σ ≠ none) → t.safe = true) := by
  constructor
  · rintro h ⟨σ, hσ⟩
    obtain ⟨v, hv⟩ := Option.ne_none_iff_exists'.1 hσ
    have hkind : t.HasKind v.kind := by
      rw [← hasKind_numbered, ← hasKind_map fun a => σ a.1]
      exact hasKind_of_value hv
    by_contra hs
    obtain ⟨g, v, w, hg, hv, hw, -, hapart⟩ :=
      exists_apart t hkind (by simpa using hs) (k := 1) (Nat.le_refl 1)
    obtain ⟨σ, rfl⟩ := hg.exists_assignment
    have he := h σ
    rw [valueIn, valueIn, ← regroup_map, hv, hw] at he
    exact Scalar.Apart.ne (k := 0) hapart (Option.some.inj he).symm
  · intro h σ
    rw [valueIn, valueIn, ← regroup_map]
    by_cases hs : t.safe = true
    · exact value_regroup_of_safe (by rw [safe_map, safe_numbered, hs])
    · have hnone : ∀ σ, t.numbered.valueIn σ = none := fun σ => by
        by_contra hσ
        exact hs (h ⟨σ, hσ⟩)
      have hr : (t.numbered.map fun a => σ a.1).regroup.value = none := by
        by_contra hσ
        obtain ⟨v, hv⟩ := Option.ne_none_iff_exists'.1 hσ
        have hkind : t.HasKind v.kind := by
          rw [← hasKind_numbered, ← hasKind_map fun a => σ a.1, ← hasKind_regroup]
          exact hasKind_of_value hv
        obtain ⟨g, hg, hv⟩ := exists_yields t hkind 0
        obtain ⟨σ, rfl⟩ := hg.exists_assignment
        have he := (hnone σ).symm.trans hv.value
        exact absurd he (by simp)
      rw [hr]
      exact (hnone σ).symm

end Formula

namespace Renderer

/-- A written expression reads back as a formula, and this has the value of the expression for
all values of the atoms exactly when no product has a division among its right factors. -/
theorem read_render_value_iff {r : Renderer} {e : Expr} {text : String}
    (hw : e.formula.WellFormed) (h : r.render e = .ok text) :
    Token.spelled (fun a => r.atomText a.2) e.formula.numbered.tokens = text ∧
      ∃ back, Reader.read e.formula.numbered.tokens = some back ∧
        ((∀ σ, back.valueIn σ = e.formula.numbered.valueIn σ) ↔
          ((∃ σ, e.formula.numbered.valueIn σ ≠ none) → e.formula.safe = true)) := by
  refine ⟨?_, e.formula.numbered.regroup, ?_, e.formula.valueIn_regroup_iff⟩
  · have hs := Token.spelled_map Prod.snd r.atomText e.formula.numbered.tokens
    rw [← Formula.tokens_map, Formula.numbered, Formula.numberedFrom_map_snd,
      spelled_of_render h] at hs
    exact hs.symm
  · exact Reader.read_tokens _ ((Formula.wellFormed_numbered _).2 hw)

def plainRenderer : Renderer := ⟨.v4, .modern false, false⟩

def sumOfDifference : Expr :=
  .binary .add (.reference "a") (.binary .sub (.reference "b") (.reference "c"))

theorem read_sumOfDifference :
    plainRenderer.render sumOfDifference = .ok "a add b sub c" ∧
      ∃ back, Reader.read sumOfDifference.formula.numbered.tokens = some back ∧
        ∀ σ, back.valueIn σ = sumOfDifference.formula.numbered.valueIn σ := by
  have hw : sumOfDifference.formula.WellFormed := ⟨by decide, trivial, by decide, trivial, trivial⟩
  have hr : plainRenderer.render sumOfDifference = .ok "a add b sub c" := rfl
  obtain ⟨-, back, hback, hiff⟩ := read_render_value_iff hw hr
  exact ⟨hr, back, hback, hiff.2 fun _ => rfl⟩

def productOfQuotient : Expr :=
  .binary .mul (.reference "a") (.binary .div (.reference "b") (.reference "c"))

theorem read_productOfQuotient :
    plainRenderer.render productOfQuotient = .ok "a mul b div c" ∧
      ∃ back, Reader.read productOfQuotient.formula.numbered.tokens = some back ∧
        productOfQuotient.formula.numbered.valueIn (fun i => .int ([2, 1, 2].getD i 0)) =
          some (.int 0) ∧
        back.valueIn (fun i => .int ([2, 1, 2].getD i 0)) = some (.int 1) :=
  ⟨rfl, _, rfl, rfl, rfl⟩

end Renderer

end ODataClient
