import ODataClient.Proofs.Filter.Checks
import ODataClient.Proofs.Model.Route

/-! The operators of query options, checked on the expression and checked during the walk that
splits it. Where every navigation leads to a declared collection the walk has no other reason to
fail, and both stop at the same operator. -/

namespace ODataClient

section Agreement

variable {nav : Navigator} {options : FilterOptions} {root : String}

theorem outcome_answers_append (cs ds : List Check) :
    outcome (answers nav options root (cs ++ ds)) =
      outcome (answers nav options root cs) >>= fun _ => outcome (answers nav options root ds) := by
  rw [answers_append, ← bind_const]
  cases answers nav options root cs with
  | error error => rfl
  | ok ts => exact outcome_map _ _

/-- The walk checks the operators of query options, and all references lead somewhere. -/
structure OperatorsOnly (nav : Navigator) (options : FilterOptions) (root : String) : Prop where
  restricted : options.queryOption = true
  resolved (path : String) : ∃ t, referenceTarget nav options.dialect root path = .ok t

theorem OperatorsOnly.reference (h : OperatorsOnly nav options root) (o : Occurrence) :
    outcome (answers nav options root [.reference o]) = .ok () := by
  rw [answers_singleton, Check.answer]
  split
  · rfl
  · obtain ⟨t, ht⟩ := h.resolved o.path
    rw [ht]
    rfl

theorem OperatorsOnly.operator (h : OperatorsOnly nav options root) (op : Operator) {e : Expr}
    (he : e.operator = op) (cs : List Check) :
    outcome (answers nav options root (.operator op :: cs)) =
      checkOptionOperator true e >>= fun _ => outcome (answers nav options root cs) := by
  rw [answers_operator op he, outcome_bind, h.restricted]

theorem checkQueryArguments_eq {scopes : List String} {args : List Expr}
    (h : ∀ e ∈ args, checkQueryOption e = outcome (answers nav options root (e.checks scopes))) :
    checkQueryArguments args =
      outcome (answers nav options root (args.flatMap (Expr.checks scopes))) := by
  induction args with
  | nil => rfl
  | cons e r ih =>
    rw [checkQueryArguments, h e (by simp), ih fun x hx => h x (by simp [hx]), List.flatMap_cons,
      outcome_answers_append]

theorem OperatorsOnly.checkQueryOption_eq (h : OperatorsOnly nav options root) (e : Expr)
    (scopes : List String) :
    checkQueryOption e = outcome (answers nav options root (e.checks scopes)) := by
  induction e using Expr.shape_induction generalizing scopes with
  | value v => rfl
  | reference path => exact (h.reference ⟨scopes, path⟩).symm
  | call name args ih =>
    rw [checkQueryOption, Expr.checks_call, checkQueryArguments_eq fun e he => ih e he scopes]
  | lambda collection name var body hname ih =>
    have hbody : checkQueryOption (.method (.reference collection) name [.reference var, body]) =
        checkQueryOption body := by
      simp only [checkQueryOption, checkQueryArguments, ok_bind]
      cases checkQueryOption body <;> rfl
    rw [hbody, Expr.checks_lambda hname, outcome_answers_append, h.reference, ok_bind]
    exact ih (var :: scopes)
  | method caller name args hcall hc ha =>
    rw [checkQueryOption, Expr.checks_method hcall, outcome_answers_append, hc scopes,
      checkQueryArguments_eq fun e he => ha e he scopes]
  | binary op left right hl hr =>
    rw [checkQueryOption, Expr.checks, h.operator op (e := .binary op left right) rfl,
      outcome_answers_append, hl scopes, hr scopes]
  | unary op operand ih =>
    rw [checkQueryOption, Expr.checks, h.operator op (e := .unary op operand) rfl, ih scopes]
  | conversion target inner ih => exact ih scopes

theorem OperatorsOnly.filePart_outcome (h : OperatorsOnly nav options root)
    (hs : options.strict = false) (part : Expr) :
    outcome (filePart nav options root part) = checkQueryOption part := by
  rw [h.checkQueryOption_eq part [], filePart, retarget_eq_answers]
  cases answers nav options root (part.checks []) with
  | error error => rfl
  | ok ts =>
    rw [map_ok, ok_bind, filing, hs]
    split <;> rfl

/-- The parts are checked one after the other, as the whole expression is. -/
theorem outcome_mapM_conjuncts {α : Type} {f : Expr → Except Error α}
    (h : ∀ part, outcome (f part) = checkQueryOption part) (e : Expr) :
    outcome (e.conjuncts.mapM f) = checkQueryOption e := by
  fun_induction Expr.conjuncts e with
  | case1 left right hl hr =>
    have hand : checkOptionOperator true (.binary .and left right) = .ok () := rfl
    rw [mapM_append_except, checkQueryOption, hand, ok_bind, ← hl, ← hr, ← bind_const]
    cases left.conjuncts.mapM f with
    | error error => rfl
    | ok ts => cases right.conjuncts.mapM f <;> rfl
  | case2 e =>
    rw [← h, mapM_cons_except]
    cases f e <;> rfl

theorem OperatorsOnly.error_eq (h : OperatorsOnly nav options root) {e : Expr} {error : Error}
    (herror : checkQueryOption e = .error error) :
    ∃ op, Check.operator op ∈ e.checks [] ∧ op.allowedInOption = false ∧
      error = .queryOptionOperator op.keyword := by
  rw [h.checkQueryOption_eq e [], outcome_eq_error_iff, answers, map_eq_error_iff] at herror
  obtain ⟨c, hc, hfails⟩ := exists_error_of_mapM herror
  cases c with
  | operator op =>
    rw [Check.answer, h.restricted] at hfails
    cases ha : op.allowedInOption with
    | true => simp [ha] at hfails
    | false => exact ⟨op, hc, ha, by simpa [ha, eq_comm] using hfails⟩
  | reference o =>
    have hok := h.reference o
    rw [answers_singleton, hfails] at hok
    exact absurd hok (by simp [outcome])

end Agreement

namespace EntityModel

variable {m : EntityModel} {root : String} {c : EntityCollection}

theorem target_of_mem_hops (hd : m.TargetsDeclared) {current : String} {segs : List String}
    {hop : Hop} (h : hop ∈ m.hops current segs) :
    (m.collection? hop.navigation.target).isSome := by
  induction segs generalizing current with
  | nil => exact absurd h List.not_mem_nil
  | cons segment rest ih =>
    cases hn : m.navigation? current segment with
    | none => exact absurd h (by simp [hops_cons_none hn])
    | some n =>
      obtain ⟨c, hc⟩ := target_of_declared hd hn
      rw [hops_cons hn, hc] at h
      rcases List.mem_cons.1 h with rfl | h
      · exact Option.isSome_of_eq_some hc
      · exact ih h

theorem filterEntity_of_declared (hd : m.TargetsDeclared) (root path : String) :
    ∃ entity, m.filterEntity root path = .ok entity := by
  rw [filterEntity]
  cases crossing? (m.hops root (segments path)) with
  | some i => exact ⟨_, rfl⟩
  | none =>
    have hall : (m.hops root (segments path)).find?
        (fun hop => (m.collection? hop.navigation.target).isNone) = none :=
      List.find?_eq_none.2 fun hop hm => by
        simpa [← Option.isSome_iff_ne_none] using target_of_mem_hops hd hm
    exact ⟨root, by simp only [hall]⟩

theorem operatorsOnly_of_declared (hd : m.TargetsDeclared) (dialect : Dialect) (root : String) :
    OperatorsOnly m.navigator ⟨dialect, true, false⟩ root where
  restricted := rfl
  resolved path := by
    obtain ⟨entity, he⟩ := filterEntity_of_declared hd root path
    exact ⟨_, by rw [referenceTarget_eq, he]; rfl⟩

/-- Where all targets are declared, a query option is accepted by the walk exactly when its
operators are allowed, and otherwise refused for the same operator. -/
theorem partitionFilter_option_iff (hd : m.TargetsDeclared) (hroot : m.collection? root = some c)
    (dialect : Dialect) (e : Expr) :
    ((∃ filters, partitionFilter m.navigator ⟨dialect, true, false⟩ e root = .ok filters) ↔
        checkQueryOption e = .ok ()) ∧
      ∀ error, (partitionFilter m.navigator ⟨dialect, true, false⟩ e root = .error error ↔
          checkQueryOption e = .error error) ∧
        (checkQueryOption e = .error error →
          ∃ op, Check.operator op ∈ e.checks [] ∧ op.allowedInOption = false ∧
            error = .queryOptionOperator op.keyword) := by
  have hwalk := operatorsOnly_of_declared hd dialect c.name
  have houtcome : outcome (partitionFilter m.navigator ⟨dialect, true, false⟩ e root) =
      checkQueryOption e := by
    rw [partitionFilter_eq, requireCollection_name hroot, ok_bind, outcome_map]
    exact outcome_mapM_conjuncts (hwalk.filePart_outcome rfl) e
  rw [← houtcome]
  exact ⟨outcome_eq_ok_iff.symm, fun error => ⟨outcome_eq_error_iff.symm,
    fun h => hwalk.error_eq (houtcome ▸ h)⟩⟩

/-- A lambda, a conversion of a literal and a comparison that query options do not have. -/
def paramFilter : Expr :=
  .binary .and
    (.method (.reference "OrderDetails") "any"
      [.reference "d", .binary .eq (.reference "d/Quantity")
        (.conversion .int32 (.value (.string "5")))])
    (.binary .eq (.reference "Customer/Orders/Freight") (.unary .negate (.binary .gt
      (.reference "Freight") (.value (.int32 1)))))

theorem partitionFilter_paramFilter :
    (northwind "4.0").TargetsDeclared ∧
      (northwind "4.0").collection? "orders" = some northwindOrders ∧
      checkQueryOption paramFilter = .error (.queryOptionOperator "-") ∧
      partitionFilter (northwind "4.0").navigator ⟨.modern, true, false⟩ paramFilter "orders" =
        .error (.queryOptionOperator "-") := by
  have hd : (northwind "4.0").TargetsDeclared := by decide
  have hcheck : checkQueryOption paramFilter = .error (.queryOptionOperator "-") := rfl
  exact ⟨hd, collection?_orders, hcheck,
    ((partitionFilter_option_iff hd collection?_orders .modern paramFilter).2 _).1.2 hcheck⟩

end EntityModel

end ODataClient
