import ODataClient.Proofs.Request.References
import ODataClient.Proofs.Request.PlainFilters

/-! The parts of a filter that are filed under its root. They keep the paths of their
references, but for the modern syntax there is one exception: a bucket has no more than a
name, and where navigations to many entities are spelled like the root collection, a condition
on what they lead to is filed under the root with its paths cut short. -/

namespace ODataClient

/-- The paths of the references from left to right. -/
def Expr.paths (e : Expr) : List String := (e.occurrences []).map (·.path)

section Unrestricted

variable {nav : Navigator} {options : FilterOptions} {root : String} {scopes : List String}

theorem retargetArguments_unrestricted {args : List Expr}
    (h : ∀ e ∈ args, ∀ t, retarget nav options root scopes e = .ok t →
      retarget nav { options with queryOption := false } root scopes e = .ok t) {r}
    (hr : retargetArguments nav options root scopes args = .ok r) :
    retargetArguments nav { options with queryOption := false } root scopes args = .ok r := by
  induction args generalizing r with
  | nil => exact hr
  | cons e args ih =>
    rw [retargetArguments] at hr ⊢
    obtain ⟨t, ht, hr⟩ := bind_eq_ok_iff.1 hr
    obtain ⟨s, hs, hr⟩ := bind_eq_ok_iff.1 hr
    rw [h e (by simp) t ht, ok_bind, ih (fun x hx => h x (by simp [hx])) hs, ok_bind]
    exact hr

/-- The operators that query options allow do not matter for a walk that succeeds. -/
theorem retarget_unrestricted {e : Expr} {t : Targeted}
    (h : retarget nav options root scopes e = .ok t) :
    retarget nav { options with queryOption := false } root scopes e = .ok t := by
  induction e using Expr.shape_induction generalizing scopes t with
  | value v => exact h
  | reference path => exact h
  | call name args ih =>
    rw [retarget] at h ⊢
    obtain ⟨r, hr, h⟩ := bind_eq_ok_iff.1 h
    rw [retargetArguments_unrestricted (fun e he t ht => ih e he ht) hr]
    exact h
  | lambda collection name var body hname ih =>
    rw [retarget_lambda hname] at h ⊢
    obtain ⟨c, hc, h⟩ := bind_eq_ok_iff.1 h
    obtain ⟨b, hb, h⟩ := bind_eq_ok_iff.1 h
    have hc' : retarget nav { options with queryOption := false } root scopes
        (.reference collection) = .ok c := hc
    rw [hc', ok_bind, ih hb]
    exact h
  | method caller name args hcall ihc iha =>
    rw [retarget_method hcall] at h ⊢
    obtain ⟨c, hc, h⟩ := bind_eq_ok_iff.1 h
    obtain ⟨r, hr, h⟩ := bind_eq_ok_iff.1 h
    rw [ihc hc, ok_bind, retargetArguments_unrestricted (fun e he t ht => iha e he ht) hr]
    exact h
  | binary op left right ihl ihr =>
    rw [retarget] at h ⊢
    obtain ⟨_, -, h⟩ := bind_eq_ok_iff.1 h
    obtain ⟨a, ha, h⟩ := bind_eq_ok_iff.1 h
    obtain ⟨b, hb, h⟩ := bind_eq_ok_iff.1 h
    rw [ihl ha, ihr hb]
    exact h
  | unary op operand ih =>
    rw [retarget] at h ⊢
    obtain ⟨_, -, h⟩ := bind_eq_ok_iff.1 h
    obtain ⟨a, ha, h⟩ := bind_eq_ok_iff.1 h
    rw [ih ha]
    exact h
  | conversion target inner ih =>
    cases hv : inner.value? with
    | some v =>
      rw [retarget, hv] at h ⊢
      exact h
    | none =>
      rw [retarget, hv] at h ⊢
      obtain ⟨a, ha, h⟩ := bind_eq_ok_iff.1 h
      dsimp only
      rw [ih ha]
      exact h

theorem filePart_unrestricted {part : Expr} {f : String × Expr}
    (h : filePart nav options root part = .ok f) :
    filePart nav { options with queryOption := false } root part = .ok f := by
  obtain ⟨t, ht, h⟩ := bind_eq_ok_iff.1 h
  rw [filePart, retarget_unrestricted ht, ok_bind]
  exact h

end Unrestricted

/-- The operands of the top `and` nodes that are filed under `b`. -/
def partsUnder (nav : Navigator) (options : FilterOptions) (root : String) (e : Expr)
    (b : String) : List Expr :=
  e.conjuncts.filter fun part =>
    match filePart nav options root part with
    | .ok f => f.1 == b
    | .error _ => false

theorem mem_partsUnder {nav : Navigator} {options : FilterOptions} {root b : String}
    {e part : Expr} :
    part ∈ partsUnder nav options root e b ↔
      part ∈ e.conjuncts ∧ ∃ kept, filePart nav options root part = .ok (b, kept) := by
  rw [partsUnder, List.mem_filter]
  refine and_congr_right fun _ => ?_
  cases filePart nav options root part with
  | error error => simp
  | ok f => simp [Prod.ext_iff]

theorem forall₂_partsUnder {nav : Navigator} {options : FilterOptions} {root b : String}
    {e : Expr} {filed : List (String × Expr)}
    (h : e.conjuncts.mapM (filePart nav options root) = .ok filed) :
    List.Forall₂ (fun part kept => filePart nav options root part = .ok (b, kept))
      (partsUnder nav options root e b) (Table.named b filed) := by
  rw [partsUnder]
  generalize e.conjuncts = parts at h ⊢
  have hparts := mapM_eq_ok_iff.1 h
  clear h
  induction hparts with
  | nil => exact .nil
  | @cons part f parts filed hf _ ih =>
    by_cases hb : f.1 = b
    · have hp : Table.named b (f :: filed) = f.2 :: Table.named b filed := by
        simp [Table.named, hb]
      rw [List.filter_cons_of_pos (by simp [hf, hb]), hp]
      exact .cons (by rw [hf, ← hb]) ih
    · have hp : Table.named b (f :: filed) = Table.named b filed := by simp [Table.named, hb]
      rw [List.filter_cons_of_neg (by simp [hf, hb]), hp]
      exact ih

theorem bucket_grouped (filed : List (String × Expr)) (b : String) :
    ((Table.grouped filed).get? b).getD [] = Table.named b filed := by
  rw [Table.get?_grouped]
  split
  next => rfl
  next h => exact (Table.named_eq_nil.2 h).symm

namespace EntityModel

/-- The path has segments left after its first hop to many entities. -/
def GoesBeyond (m : EntityModel) (root path : String) : Prop :=
  ∃ i ∈ crossing? (m.hops root (segments path)), i + 1 < (segments path).length

instance (m : EntityModel) (root path : String) : Decidable (m.GoesBeyond root path) :=
  inferInstanceAs (Decidable (∃ i ∈ crossing? _, _))

/-- All that the part restricts is spelled like the root, and one of its references goes on
beyond many entities. -/
def Mistaken (m : EntityModel) (dialect : Dialect) (root : String) (part : Expr) : Prop :=
  dialect = .modern ∧ m.partTargets root part = .ok {root} ∧
    ∃ path ∈ freePaths (part.occurrences []), m.GoesBeyond root path

instance (m : EntityModel) (dialect : Dialect) (root : String) (part : Expr) :
    Decidable (m.Mistaken dialect root part) :=
  inferInstanceAs (Decidable (_ ∧ _ ∧ ∃ path ∈ freePaths (part.occurrences []), _))

variable {m : EntityModel} {dialect : Dialect} {strict : Bool} {root path b : String} {part e : Expr}

theorem rewrittenPath_eq_self_iff :
    m.rewrittenPath dialect root path = path ↔ (dialect = .modern → ¬ m.GoesBeyond root path) := by
  rw [rewrittenPath, GoesBeyond]
  cases hc : crossing? (m.hops root (segments path)) with
  | none => simp
  | some i =>
    have hrest : (segments path).drop (i + 1) ≠ [] ↔ i + 1 < (segments path).length := by
      rw [ne_eq, List.drop_eq_nil_iff]
      omega
    by_cases hd : dialect = .modern ∧ (segments path).drop (i + 1) ≠ []
    · have hlt := hrest.1 hd.2
      have hne : joinSegments ((segments path).drop (i + 1)) ≠ path := by
        intro he
        have hs := segments_join_drop hd.2
        rw [he] at hs
        have hl := congrArg List.length hs
        rw [List.length_drop] at hl
        omega
      simp [hd, hne, hlt]
    · have hk : dialect = .modern → ¬ i + 1 < (segments path).length :=
        fun h hlt => hd ⟨h, hrest.2 hlt⟩
      simp only [if_neg hd, Option.mem_def, Option.some.injEq, exists_eq_left', true_iff]
      exact hk

theorem paths_eq_iff (f : String → String) (os : List Occurrence) :
    (os.map (Occurrence.rename f)).map (·.path) = os.map (·.path) ↔
      ∀ path ∈ freePaths os, f path = path := by
  have hid : (∀ path ∈ freePaths os, f path = path) ↔ ∀ o ∈ os, (o.rename f).path = o.path := by
    have h := rename_paths_iff f id os
    simp only [Occurrence.rename_id, id] at h
    exact h.symm
  rw [hid, List.map_map, List.map_inj_left]
  rfl

/-- A part is filed with its paths rewritten when it restricts its bucket only, and as it is
when it restricts several entities. -/
theorem targets_of_filedPart (h : m.filedPart dialect strict root part = .ok (b, e))
    {targets : Finset String} (ht : m.partTargets root part = .ok targets) :
    (targets ⊆ {b} ∧ m.filedPath dialect root part = m.rewrittenPath dialect root) ∨
      (1 < targets.card ∧ m.filedPath dialect root part = id) := by
  obtain ⟨found, hfound, h⟩ := exists_targets_of_filedPart h
  obtain rfl := Except.ok.inj (ht.symm.trans hfound)
  rw [filedPath, ht]
  rcases h with ⟨rfl, -, -⟩ | ⟨rfl, -⟩ | ⟨hcard, -, -⟩
  · exact Or.inl ⟨by simp, if_pos (by simp)⟩
  · exact Or.inl ⟨subset_rfl, if_pos (by simp)⟩
  · exact Or.inr ⟨hcard, if_neg (by omega)⟩

theorem freePaths_of_no_targets (h : m.partTargets root part = .ok ∅) :
    freePaths (part.occurrences []) = [] := by
  obtain ⟨entities, hentities, hempty⟩ := map_eq_ok_iff.1 h
  rw [List.toFinset_eq_empty_iff] at hempty
  have hlength := (mapM_eq_ok_iff.1 hentities).length_eq
  rw [hempty] at hlength
  exact List.length_eq_zero_iff.1 hlength

theorem filedPart_keeps_iff (h : m.filedPart dialect strict root part = .ok (root, e)) :
    e.paths = part.paths ↔ ¬ m.Mistaken dialect root part := by
  obtain ⟨targets, htargets, -⟩ := bind_eq_ok_iff.1 h
  have hkeeps : e.paths = part.paths ↔
      ∀ path ∈ freePaths (part.occurrences []), m.filedPath dialect root part path = path := by
    rw [Expr.paths, Expr.paths, (filedPart_eq_ok h).1, paths_eq_iff]
  rw [hkeeps, Mistaken, htargets]
  rcases targets_of_filedPart h htargets with ⟨hsub, hpath⟩ | ⟨hcard, hpath⟩
  · simp only [hpath, rewrittenPath_eq_self_iff]
    rcases Finset.subset_singleton_iff.1 hsub with rfl | rfl
    · simp [freePaths_of_no_targets htargets]
    · constructor
      · rintro hk ⟨hd, -, path, hp, hbeyond⟩
        exact hk path hp hd hbeyond
      · exact fun hn path hp hd hbeyond => hn ⟨hd, rfl, path, hp, hbeyond⟩
  · have hne : targets ≠ {root} := by
      rintro rfl
      simp at hcard
    simp [hpath, hne]

theorem filePart_eq_ok {options : FilterOptions} {f : String × Expr}
    (h : filePart m.navigator options root part = .ok f) :
    m.filedPart options.dialect options.strict root part = .ok f := by
  rw [← filePart_eq]
  exact filePart_unrestricted h

theorem Mistaken.bucket_eq (hm : m.Mistaken dialect root part)
    (h : m.filedPart dialect strict root part = .ok (b, e)) : b = root := by
  obtain ⟨-, htargets, -⟩ := hm
  rcases targets_of_filedPart h htargets with ⟨hsub, -⟩ | ⟨hcard, -⟩
  · exact (Finset.mem_singleton.1 (hsub (Finset.mem_singleton_self root))).symm
  · simp at hcard

/-- The fragments in the bucket of the root come from the parts that are filed there, one from
each. They all keep the paths of their references exactly when no part is mistaken for one that
restricts the root. -/
theorem rootBucket_paths_iff {options : FilterOptions} {c : EntityCollection}
    {filters : EntityFilters} {e : Expr} (hroot : m.collection? root = some c)
    (h : partitionFilter m.navigator options e root = .ok filters) :
    List.Forall₂ (fun part kept => filePart m.navigator options c.name part = .ok (c.name, kept))
        (partsUnder m.navigator options c.name e c.name) ((filters.get? c.name).getD []) ∧
      (List.Forall₂ (fun part kept => kept.paths = part.paths)
          (partsUnder m.navigator options c.name e c.name) ((filters.get? c.name).getD []) ↔
        ∀ part ∈ e.conjuncts, ¬ m.Mistaken options.dialect c.name part) := by
  obtain ⟨filed, hfiled, rfl⟩ := exists_filed_of_partitionFilter hroot h
  rw [bucket_grouped]
  have hfrom := forall₂_partsUnder (b := c.name) hfiled
  have hmistaken : (∀ part ∈ e.conjuncts, ¬ m.Mistaken options.dialect c.name part) ↔
      ∀ part ∈ partsUnder m.navigator options c.name e c.name,
        ¬ m.Mistaken options.dialect c.name part := by
    refine ⟨fun hn part hp => hn part (mem_partsUnder.1 hp).1, fun hn part hp hm => ?_⟩
    obtain ⟨⟨b, kept⟩, hk⟩ := exists_ok_of_mapM hfiled hp
    obtain rfl := hm.bucket_eq (filePart_eq_ok hk)
    exact hn part (mem_partsUnder.2 ⟨hp, kept, hk⟩) hm
  rw [hmistaken]
  refine ⟨hfrom, ?_⟩
  generalize partsUnder m.navigator options c.name e c.name = parts at hfrom ⊢
  generalize Table.named c.name filed = kept at hfrom ⊢
  induction hfrom with
  | nil => simp
  | @cons part kept parts others hk _ ih =>
    rw [List.forall₂_cons, ih, filedPart_keeps_iff (filePart_eq_ok hk), List.forall_mem_cons]

def cheapFilter : Expr :=
  .binary .and
    (.binary .and (.binary .lt (.reference "Customer/Rank") (.value (.int32 5)))
      (.binary .gt (.reference "OrderDetails/Quantity") (.value (.int32 2))))
    (.binary .lt (.reference "Freight") (.reference "OrderDetails/Discount"))

def cheapParts : List Expr :=
  [.binary .lt (.reference "Customer/Rank") (.value (.int32 5)),
    .binary .lt (.reference "Freight") (.reference "OrderDetails/Discount")]

def cheapBuckets : EntityFilters :=
  (Table.empty.append "Orders" cheapParts).append "OrderDetails"
    [.binary .gt (.reference "Quantity") (.value (.int32 2))]

theorem cheapFilter_paths :
    (northwind "4.0").collection? "orders" = some ⟨"Orders", "NorthwindModel.Order", ["OrderID"],
        [⟨"OrderDetails", true, "OrderDetails"⟩, ⟨"Customer", false, "Customers"⟩]⟩ ∧
      partitionFilter (northwind "4.0").navigator ⟨.modern, false, false⟩ cheapFilter "orders" =
        .ok cheapBuckets ∧
      (∀ part ∈ cheapFilter.conjuncts, ¬ (northwind "4.0").Mistaken .modern "Orders" part) ∧
      List.Forall₂ (fun part kept => kept.paths = part.paths) cheapParts
        ((cheapBuckets.get? "Orders").getD []) := by
  have hroot : (northwind "4.0").collection? "orders" = some ⟨"Orders", "NorthwindModel.Order",
      ["OrderID"], [⟨"OrderDetails", true, "OrderDetails"⟩, ⟨"Customer", false, "Customers"⟩]⟩ := rfl
  have h : partitionFilter (northwind "4.0").navigator ⟨.modern, false, false⟩ cheapFilter
      "orders" = .ok cheapBuckets := rfl
  have hn : ∀ part ∈ cheapFilter.conjuncts, ¬ (northwind "4.0").Mistaken .modern "Orders" part := by
    decide
  exact ⟨hroot, h, hn, (rootBucket_paths_iff hroot h).2.2 hn⟩

def employees : EntityModel where
  version := none
  collections := [⟨"Employees", "Staff.Employee", ["ID"], [⟨"Employees", true, "Employees"⟩]⟩]

def wellPaid : Expr := .binary .gt (.reference "Employees/Salary") (.value (.int32 5))

/-- The pay of the people below an employee becomes the pay of the employee. -/
theorem wellPaid_mistaken :
    partitionFilter employees.navigator ⟨.modern, false, false⟩ wellPaid "Employees" =
        .ok (Table.empty.append "Employees"
          [.binary .gt (.reference "Salary") (.value (.int32 5))]) ∧
      wellPaid.conjuncts = [wellPaid] ∧ wellPaid.paths = ["Employees/Salary"] ∧
      (Expr.binary .gt (.reference "Salary") (.value (.int32 5))).paths = ["Salary"] :=
  ⟨rfl, rfl, rfl, rfl⟩

end EntityModel

end ODataClient
