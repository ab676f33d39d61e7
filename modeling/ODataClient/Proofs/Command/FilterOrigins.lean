import ODataClient.Proofs.Command.Effects
import ODataClient.Proofs.Text.Grouping

/-! Where the filters of a command come from. Every filter is put together from what single calls
have added, and no call takes anything away again. A navigation is refused when a filter is kept
under the name of the entity set that it leaves, as that name is written; what has been added under
another path goes along. So the filters of a built command all come from calls after its last
navigation exactly when no filter for a path stands before one. -/

namespace ODataClient

inductive Condition
  | expression (e : Expr)
  | text (text : String)

def Condition.expression? : Condition → Option Expr
  | expression e => some e
  | text _ => none

def Condition.text? : Condition → Option String
  | expression _ => none
  | text t => some t

/-- A condition that a call has added: the number of the call, and the path that it is kept under. -/
structure Contribution where
  call : Nat
  entity : String
  condition : Condition

namespace Contribution

def expressionsFor (entity : String) (l : List Contribution) : List Expr :=
  (l.filter fun p => p.entity = entity).filterMap fun p => p.condition.expression?

def textsFor (entity : String) (l : List Contribution) : List String :=
  (l.filter fun p => p.entity = entity).filterMap fun p => p.condition.text?

end Contribution

namespace Call

def condition? (entity? : Option String) : Call → Option (String × Condition)
  | filter e => entity?.map fun entity => (entity, .expression e)
  | filterOn entity e => some (entity, .expression e)
  | filterText text => entity?.map fun entity => (entity, .text text)
  | _ => none

variable (entity? : Option String) (x : Call) (n : CommandNode)

theorem filters_edit : (x.edit entity? n).filters =
    match x.condition? entity? with
    | some (entity, .expression e) => n.filters.alter entity (conjoined e)
    | _ => n.filters := by
  cases x <;> cases entity? <;> rfl

theorem textFilters_edit : (x.edit entity? n).textFilters =
    match x.condition? entity? with
    | some (entity, .text text) =>
      n.textFilters.set entity (Command.joinTexts (n.textFilters.get? entity) text)
    | _ => n.textFilters := by
  cases x <;> cases entity? <;> rfl

theorem condition?_of_step {x : Call} {segment : Segment} (h : x.step? = some segment) :
    x.condition? entity? = none := by
  cases x <;> first | rfl | exact absurd h (by simp [step?])

end Call

namespace Command

open Contribution

def contribution? (c : Command) (k : Nat) (x : Call) : Option Contribution :=
  (x.condition? c.entityName?).map fun p => ⟨k, p.1, p.2⟩

/-- What the calls add to the filters of a command, when `k` calls came before them. -/
def contributions (c : Command) (k : Nat) : List Call → List Contribution
  | [] => []
  | x :: calls => (c.contribution? k x).toList ++ (c.applied x).contributions (k + 1) calls

/-- The conjunction of what there was and the expressions. -/
def conjunction (old : Option Expr) (es : List Expr) : Option Expr :=
  es.foldl (fun old e => some (Call.conjoined e old)) old

def joinedTexts (old : Option String) (texts : List String) : Option String :=
  texts.foldl (fun old text => some (joinTexts old text)) old

variable {c d : Command} {x : Call} {calls before after : List Call} {k : Nat}

/-- A call adds its condition to the filters and keeps what was there. -/
theorem filters_applied (c : Command) (k : Nat) (x : Call) (entity : String) :
    (c.applied x).node.filters.get? entity =
      conjunction (c.node.filters.get? entity) (expressionsFor entity (c.contribution? k x).toList) := by
  cases hs : x.step? with
  | some segment =>
    rw [applied_of_step hs, contribution?, Call.condition?_of_step _ hs]
    rfl
  | none =>
    have hfilters := congrArg (Table.get? · entity) (Call.filters_edit c.entityName? x c.node)
    rw [applied_of_stay hs, contribution?]
    refine Eq.trans hfilters ?_
    rcases x.condition? c.entityName? with _ | ⟨path, e | text⟩
    · rfl
    · refine (Table.get?_alter _ _ _ _).trans ?_
      by_cases he : path = entity
      · simp [conjunction, expressionsFor, Condition.expression?, he]
      · simp [conjunction, expressionsFor, he, Ne.symm he]
    · by_cases he : path = entity <;>
        simp [conjunction, expressionsFor, Condition.expression?, he]

theorem textFilters_applied (c : Command) (k : Nat) (x : Call) (entity : String) :
    (c.applied x).node.textFilters.get? entity =
      joinedTexts (c.node.textFilters.get? entity) (textsFor entity (c.contribution? k x).toList) := by
  cases hs : x.step? with
  | some segment =>
    rw [applied_of_step hs, contribution?, Call.condition?_of_step _ hs]
    rfl
  | none =>
    have htexts := congrArg (Table.get? · entity) (Call.textFilters_edit c.entityName? x c.node)
    rw [applied_of_stay hs, contribution?]
    refine Eq.trans htexts ?_
    rcases x.condition? c.entityName? with _ | ⟨path, e | text⟩
    · rfl
    · by_cases he : path = entity <;> simp [joinedTexts, textsFor, Condition.text?, he]
    · refine (Table.get?_set _ _ _ _).trans ?_
      by_cases he : path = entity
      · simp [joinedTexts, textsFor, Condition.text?, he]
      · simp [joinedTexts, textsFor, he, Ne.symm he]

/-- What every call changes by its contribution is changed by the contributions of a run. -/
theorem kept_of_run {β : Type} (get : Command → β) (add : β → List Contribution → β)
    (hnil : ∀ b, add b [] = b) (happend : ∀ b l l', add b (l ++ l') = add (add b l) l')
    (hadd : ∀ c k x, get (c.applied x) = add (get c) (c.contribution? k x).toList)
    (h : calls.foldlM apply c = .ok d) (k : Nat) : get d = add (get c) (c.contributions k calls) := by
  induction calls generalizing c k with
  | nil =>
    obtain rfl : c = d := Except.ok.inj h
    exact (hnil _).symm
  | cons x calls ih =>
    obtain ⟨-, h⟩ := foldlM_cons_eq_ok_iff.1 h
    rw [ih h (k + 1), hadd c k, contributions, happend]

theorem filters_of_run (h : calls.foldlM apply c = .ok d) (k : Nat) (entity : String) :
    d.node.filters.get? entity =
      conjunction (c.node.filters.get? entity) (expressionsFor entity (c.contributions k calls)) := by
  refine kept_of_run (fun c => c.node.filters.get? entity)
    (fun old l => conjunction old (expressionsFor entity l)) (fun _ => rfl) ?_
    (fun c k x => filters_applied c k x entity) h k
  intro old l l'
  simp [conjunction, expressionsFor]

theorem textFilters_of_run (h : calls.foldlM apply c = .ok d) (k : Nat) (entity : String) :
    d.node.textFilters.get? entity =
      joinedTexts (c.node.textFilters.get? entity) (textsFor entity (c.contributions k calls)) := by
  refine kept_of_run (fun c => c.node.textFilters.get? entity)
    (fun old l => joinedTexts old (textsFor entity l)) (fun _ => rfl) ?_
    (fun c k x => textFilters_applied c k x entity) h k
  intro old l l'
  simp [joinedTexts, textsFor]

theorem contributions_append (h : before.foldlM apply c = .ok d) (k : Nat) :
    c.contributions k (before ++ after) =
      c.contributions k before ++ d.contributions (k + before.length) after := by
  induction before generalizing c k with
  | nil =>
    obtain rfl : c = d := Except.ok.inj h
    rfl
  | cons x calls ih =>
    obtain ⟨-, h⟩ := foldlM_cons_eq_ok_iff.1 h
    have hk : k + 1 + calls.length = k + (x :: calls).length := by
      rw [List.length_cons]
      omega
    rw [List.cons_append, contributions, contributions, ih h, hk, List.append_assoc]

/-- A contribution comes from a call with its number. -/
theorem call_of_mem_contributions {p : Contribution} (h : p ∈ c.contributions k calls) :
    ∃ (before : List Call) (x : Call) (after : List Call), calls = before ++ x :: after ∧
      p.call = k + before.length ∧ ∃ entity?, x.condition? entity? = some (p.entity, p.condition) := by
  induction calls generalizing c k with
  | nil => exact absurd h List.not_mem_nil
  | cons x calls ih =>
    rcases List.mem_append.1 h with h | h
    · obtain ⟨⟨entity, condition⟩, hx, rfl⟩ := Option.map_eq_some_iff.1 (Option.mem_toList.1 h)
      exact ⟨[], x, calls, rfl, rfl, c.entityName?, hx⟩
    · obtain ⟨before, y, after, rfl, hcall, hy⟩ := ih h
      refine ⟨x :: before, y, after, rfl, ?_, hy⟩
      rw [hcall, List.length_cons]
      omega

/-! ### What stays -/

theorem isSome_conjunction {old : Option Expr} (h : old.isSome = true) (es : List Expr) :
    (conjunction old es).isSome = true := by
  induction es generalizing old with
  | nil => exact h
  | cons e es ih => exact ih rfl

theorem isSome_joinedTexts {old : Option String} (h : old.isSome = true) (texts : List String) :
    (joinedTexts old texts).isSome = true := by
  induction texts generalizing old with
  | nil => exact h
  | cons text texts ih => exact ih rfl

theorem hasRootFilter_iff : c.hasRootFilter = true ↔ ∃ entity, c.entityName? = some entity ∧
    ((c.node.textFilters.get? entity).isSome = true ∨ (c.node.filters.get? entity).isSome = true) := by
  rw [hasRootFilter]
  cases c.entityName? with
  | none => simp
  | some entity => simp [Table.contains]

theorem hasRootFilter_applied (hs : c.node.segment.isSome = true) (hx : c.Accepts x)
    (h : c.hasRootFilter = true) : (c.applied x).hasRootFilter = true := by
  have hn : x.navigation? = none := by
    by_contra hn
    have hno := hx.unfiltered (Option.isSome_iff_ne_none.2 hn)
    simp [h] at hno
  obtain ⟨entity, hentity, hkept⟩ := hasRootFilter_iff.1 h
  refine hasRootFilter_iff.2 ⟨entity, (entityName?_applied hs hx hn).trans hentity, ?_⟩
  rw [textFilters_applied c 0, filters_applied c 0]
  exact hkept.imp (isSome_joinedTexts · _) (isSome_conjunction · _)

/-- Once the addressed entity set has a filter, no navigation is accepted any more. -/
theorem navigation?_eq_none_of_hasRootFilter (h : calls.foldlM apply c = .ok d)
    (hs : c.node.segment.isSome = true) (hf : c.hasRootFilter = true) :
    ∀ x ∈ calls, x.navigation? = none := by
  induction calls generalizing c with
  | nil => exact fun x hx => absurd hx List.not_mem_nil
  | cons x calls ih =>
    obtain ⟨hx, h⟩ := foldlM_cons_eq_ok_iff.1 h
    intro y hy
    rcases List.mem_cons.1 hy with rfl | hy
    · by_contra hn
      have hno := hx.unfiltered (Option.isSome_iff_ne_none.2 hn)
      simp [hf] at hno
    · exact ih h (segment_applied hs x) (hasRootFilter_applied hs hx hf) y hy

/-- What is not added for a given path is added for the entity set that is addressed. -/
theorem hasRootFilter_of_contribution {p : Contribution} (hx : c.Accepts x)
    (hp : c.contribution? k x = some p) (hon : ∀ entity e, x ≠ .filterOn entity e) :
    c.node.segment.isSome = true ∧ (c.applied x).hasRootFilter = true := by
  obtain ⟨⟨path, condition⟩, hcondition, rfl⟩ := Option.map_eq_some_iff.1 hp
  cases x with
  | filterOn entity e => exact absurd rfl (hon entity e)
  | filter e =>
    obtain ⟨entity, hentity, heq⟩ := Option.map_eq_some_iff.1 hcondition
    obtain ⟨rfl, rfl⟩ := Prod.mk.inj heq
    have hs : c.node.segment.isSome = true := hx.entity rfl
    have hkept := filters_applied c k (.filter e) entity
    rw [hp] at hkept
    refine ⟨hs, hasRootFilter_iff.2
      ⟨entity, (entityName?_applied hs hx rfl).trans hentity, .inr ?_⟩⟩
    rw [hkept]
    simp [expressionsFor, Condition.expression?, conjunction]
  | filterText text =>
    obtain ⟨entity, hentity, heq⟩ := Option.map_eq_some_iff.1 hcondition
    obtain ⟨rfl, rfl⟩ := Prod.mk.inj heq
    have hs : c.node.segment.isSome = true := hx.entity rfl
    have hkept := textFilters_applied c k (.filterText text) entity
    rw [hp] at hkept
    refine ⟨hs, hasRootFilter_iff.2
      ⟨entity, (entityName?_applied hs hx rfl).trans hentity, .inl ?_⟩⟩
    rw [hkept]
    simp [textsFor, Condition.text?, joinedTexts]
  | _ => simp [Call.condition?] at hcondition

/-- Before a navigation nothing is added but for given paths. -/
theorem contributions_before_navigation {navigation : String}
    (h : (before ++ .navigate navigation :: after).foldlM apply c = .ok d)
    (hon : ∀ entity e, .filterOn entity e ∉ before) : c.contributions k before = [] := by
  induction before generalizing c k with
  | nil => rfl
  | cons x before ih =>
    obtain ⟨hx, h⟩ := foldlM_cons_eq_ok_iff.1 h
    have hrest := ih (k := k + 1) h fun entity e he => hon entity e (List.mem_cons_of_mem x he)
    rw [contributions, hrest, List.append_nil]
    cases hp : c.contribution? k x with
    | none => rfl
    | some p =>
      obtain ⟨hs, hf⟩ := hasRootFilter_of_contribution hx hp fun entity e he =>
        hon entity e (he ▸ List.mem_cons_self)
      have hnone := navigation?_eq_none_of_hasRootFilter h (segment_applied hs x) hf
        (.navigate navigation) (by simp)
      exact absurd hnone (by simp [Call.navigation?])

theorem contributions_ne_nil {entity : String} {e : Expr} (h : .filterOn entity e ∈ before) :
    c.contributions k before ≠ [] := by
  induction before generalizing c k with
  | nil => exact absurd h List.not_mem_nil
  | cons x before ih =>
    rw [contributions]
    rcases List.mem_cons.1 h with rfl | h
    · exact List.append_ne_nil_of_left_ne_nil (List.cons_ne_nil _ _) _
    · exact List.append_ne_nil_of_right_ne_nil _ (ih h)

/-- What a built command keeps in its filters is what its calls have added, in their order. All of
it was added after the last navigation exactly when no call before a navigation adds a filter for
a given path. -/
theorem filters_since_navigation_iff (h : build calls = .ok c) :
    (∀ entity,
      c.node.filters.get? entity =
        conjunction none (expressionsFor entity (empty.contributions 0 calls)) ∧
      c.node.textFilters.get? entity =
        joinedTexts none (textsFor entity (empty.contributions 0 calls))) ∧
    ((∀ p ∈ empty.contributions 0 calls, ∀ before navigation after,
        calls = before ++ .navigate navigation :: after → before.length < p.call) ↔
      ∀ before navigation after, calls = before ++ .navigate navigation :: after →
        ∀ entity e, .filterOn entity e ∉ before) := by
  obtain ⟨hrun, -⟩ := build_eq_ok_iff.1 h
  refine ⟨fun entity => ⟨filters_of_run hrun 0 entity, textFilters_of_run hrun 0 entity⟩, ?_, ?_⟩
  · intro hlate before navigation after hcalls entity e he
    subst hcalls
    obtain ⟨d, hd, -⟩ := foldlM_append_eq_ok_iff.1 hrun
    obtain ⟨p, hp⟩ := List.exists_mem_of_ne_nil _ (contributions_ne_nil (c := empty) (k := 0) he)
    have hafter : before.length < p.call := by
      refine hlate p ?_ before navigation after rfl
      rw [contributions_append hd]
      exact List.mem_append_left _ hp
    obtain ⟨_, _, _, hsplit, hcall, -⟩ := call_of_mem_contributions hp
    have hlength := congrArg List.length hsplit
    rw [List.length_append, List.length_cons] at hlength
    omega
  · intro hon p hp before navigation after hcalls
    subst hcalls
    obtain ⟨d, hd, -⟩ := foldlM_append_eq_ok_iff.1 hrun
    rw [contributions_append hd,
      contributions_before_navigation hrun (hon before navigation after rfl), List.nil_append,
      contributions] at hp
    obtain ⟨_, _, _, -, hcall, -⟩ := call_of_mem_contributions hp
    omega

def heavyDetails : Expr := .binary .gt (.reference "Quantity") (.value (.int32 5))

/-- The orders of a customer, those with a heavy detail. -/
def heavyCustomerOrders : List Call :=
  [.collection "Customers", .key [.string "ALFKI"], .navigate "Orders",
    .filterOn "OrderDetails" heavyDetails, .filter (.reference "Paid")]

theorem heavyCustomerOrders_filters :
    ∃ c, build heavyCustomerOrders = .ok c ∧ c.entityName? = some "Orders" ∧
      (empty.contributions 0 heavyCustomerOrders).map (·.call) = [3, 4] ∧
      ∀ p ∈ empty.contributions 0 heavyCustomerOrders, ∀ before navigation after,
        heavyCustomerOrders = before ++ .navigate navigation :: after → before.length < p.call := by
  obtain ⟨c, hc, hname⟩ : ∃ c, build heavyCustomerOrders = .ok c ∧ c.entityName? = some "Orders" :=
    ⟨_, rfl, rfl⟩
  refine ⟨c, hc, hname, rfl, (filters_since_navigation_iff hc).2.2 ?_⟩
  intro before navigation after hcalls entity e he
  have hbefore : before = [.collection "Customers", .key [.string "ALFKI"]] := by
    rcases before with _ | ⟨x, _ | ⟨y, _ | ⟨z, _ | ⟨u, _ | ⟨v, before⟩⟩⟩⟩⟩ <;>
      simp_all [heavyCustomerOrders]
  subst hbefore
  simp at he

def germanCustomers : Expr := .binary .eq (.reference "Country") (.value (.string "DE"))

def ordersOfGermans : List Call :=
  [.collection "Customers", .filterOn "customers" germanCustomers, .navigate "Orders"]

def ordersOfGermansRequest : CompiledRequest where
  method := .get
  path := "Customers/Orders"
  clauses := [⟨"$filter", "customers/any(x:x/Country eq 'DE')"⟩]
  entityFilters := Table.empty.append "customers" ["Country eq 'DE'"]
  payload := none

/-- The name of the entity set in another case is taken for the path of a related entity: the
filter on the customers goes along to their orders. -/
theorem ordersOfGermans_filters :
    ∃ c, build ordersOfGermans = .ok c ∧ c.node.filters.get? "customers" = some germanCustomers ∧
      (Adapter.northwindAdapter .v4).compile c = .ok ordersOfGermansRequest ∧
      ¬ ∀ p ∈ empty.contributions 0 ordersOfGermans, ∀ before navigation after,
        ordersOfGermans = before ++ .navigate navigation :: after → before.length < p.call := by
  refine ⟨_, rfl, rfl, rfl, fun h => ?_⟩
  have hmem : ⟨1, "customers", .expression germanCustomers⟩ ∈
      empty.contributions 0 ordersOfGermans := by
    simp [contributions, ordersOfGermans, contribution?, Call.condition?]
  have hlate := h _ hmem
    [.collection "Customers", .filterOn "customers" germanCustomers] "Orders" [] rfl
  simp at hlate

end Command

end ODataClient
