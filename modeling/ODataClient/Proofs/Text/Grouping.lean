import Mathlib.Data.Finset.Sort
import Mathlib.Data.String.Basic
import ODataClient.Text.Table

/-! Tables as groupings. A table is known by its answers, and appending named values one
by one gathers, under each name, the values of that name in their order. -/

namespace ODataClient.Table

variable {β : Type}

theorem lookup_eq_none_of_lt {l : List (String × β)} {name : String}
    (h : ∀ p ∈ l, name < p.1) : l.lookup name = none := by
  induction l with
  | nil => rfl
  | cons p r ih =>
    have hp : name ≠ p.1 := fun he => String.lt_irrefl name (he ▸ h p (by simp))
    rw [List.lookup_cons, beq_false_of_ne hp]
    exact ih fun q hq => h q (List.mem_cons_of_mem _ hq)

theorem lookup_alterEntries {l : List (String × β)} (ho : InNameOrder l)
    (f : Option β → β) (name n : String) :
    (alterEntries name f l).lookup n =
      if n = name then some (f (l.lookup name)) else l.lookup n := by
  induction l with
  | nil =>
    by_cases h : n = name
    · simp [alterEntries, h]
    · simp [alterEntries, List.lookup_cons, beq_false_of_ne h, h]
  | cons p r ih =>
    obtain ⟨k, v⟩ := p
    obtain ⟨hk, hr⟩ := List.pairwise_cons.1 ho
    rw [alterEntries]
    split
    next hlt =>
      have hnone : ((k, v) :: r).lookup name = none := by
        apply lookup_eq_none_of_lt
        intro q hq
        rcases List.mem_cons.1 hq with rfl | hq
        · exact hlt
        · exact String.lt_trans hlt (hk q hq)
      by_cases h : n = name
      · rw [h, List.lookup_cons_self, if_pos rfl, hnone]
      · rw [List.lookup_cons, beq_false_of_ne h, if_neg h]
    next hlt =>
      split
      next he =>
        subst he
        by_cases h : n = name
        · rw [h, List.lookup_cons_self, if_pos rfl, List.lookup_cons_self]
        · rw [if_neg h, List.lookup_cons, List.lookup_cons, beq_false_of_ne h]
      next he =>
        by_cases h : n = k
        · have hne : n ≠ name := fun hh => he (hh ▸ h)
          rw [h, List.lookup_cons_self, List.lookup_cons_self, if_neg (h ▸ hne)]
        · rw [List.lookup_cons, beq_false_of_ne h, ih hr]
          simp only [List.lookup_cons, beq_false_of_ne he, beq_false_of_ne h]

theorem get?_alter (t : Table β) (name n : String) (f : Option β → β) :
    (t.alter name f).get? n = if n = name then some (f (t.get? name)) else t.get? n :=
  lookup_alterEntries t.ordered f name n

theorem get?_empty (n : String) : (empty : Table β).get? n = none := rfl

theorem get?_append (t : Table (List β)) (name n : String) (l : List β) :
    (t.append name l).get? n =
      if n = name then some ((t.get? name).getD [] ++ l) else t.get? n :=
  get?_alter t name n _

theorem mem_of_lookup {l : List (String × β)} {n : String} {v : β}
    (h : l.lookup n = some v) : (n, v) ∈ l := by
  induction l with
  | nil => simp at h
  | cons p r ih =>
    by_cases hp : n = p.1
    · rw [List.lookup_cons, hp, beq_self_eq_true] at h
      simp only [Option.some.injEq] at h
      simp [hp, ← h]
    · rw [List.lookup_cons, beq_false_of_ne hp] at h
      exact List.mem_cons_of_mem _ (ih h)

theorem lookup_of_mem {l : List (String × β)} (ho : InNameOrder l) {n : String} {v : β}
    (h : (n, v) ∈ l) : l.lookup n = some v := by
  induction l with
  | nil => simp at h
  | cons p r ih =>
    obtain ⟨hp, hr⟩ := List.pairwise_cons.1 ho
    rcases List.mem_cons.1 h with rfl | h
    · exact List.lookup_cons_self
    · have hne : n ≠ p.1 := fun he => String.lt_irrefl n (by simpa [← he] using hp _ h)
      rw [List.lookup_cons, beq_false_of_ne hne]
      exact ih hr h

theorem get?_eq_some_iff {t : Table β} {n : String} {v : β} :
    t.get? n = some v ↔ (n, v) ∈ t.entries :=
  ⟨mem_of_lookup, lookup_of_mem t.ordered⟩

theorem get?_set (t : Table β) (name n : String) (v : β) :
    (t.set name v).get? n = if n = name then some v else t.get? n :=
  get?_alter t name n fun _ => v

theorem get?_erase (t : Table β) (name n : String) :
    (t.erase name).get? n = if n = name then none else t.get? n := by
  ext v
  have h : (t.erase name).get? n = some v ↔ (n, v) ∈ t.entries ∧ n ≠ name := by
    rw [get?_eq_some_iff, erase, List.mem_filter, bne_iff_ne]
  rw [h]
  split
  next he => simp [he]
  next hne => simp [hne, get?_eq_some_iff]

theorem entries_nodup (t : Table β) : t.entries.Nodup := by
  have h : t.entries.Pairwise fun a b => a.1 < b.1 := t.ordered
  refine h.imp fun {a b} hlt he => ?_
  rw [he] at hlt
  exact String.lt_irrefl _ hlt

theorem ext_get? {t u : Table β} (h : ∀ n, t.get? n = u.get? n) : t = u := by
  have ht : t.entries.Pairwise fun a b => a.1 < b.1 := t.ordered
  have hu : u.entries.Pairwise fun a b => a.1 < b.1 := u.ordered
  have hp : t.entries.Perm u.entries := by
    refine (List.perm_ext_iff_of_nodup t.entries_nodup u.entries_nodup).2 fun p => ?_
    rw [← get?_eq_some_iff, ← get?_eq_some_iff, h]
  apply ext
  refine hp.eq_of_pairwise (fun a b _ _ hab hba => ?_) ht hu
  exact absurd (String.lt_trans hab hba) (String.lt_irrefl _)

def grouped (l : List (String × β)) : Table (List β) :=
  l.foldl (fun t p => t.append p.1 [p.2]) empty

def named (n : String) (l : List (String × β)) : List β :=
  (l.filter fun p => p.1 = n).map (·.2)

theorem named_eq_nil {n : String} {l : List (String × β)} :
    named n l = [] ↔ n ∉ l.map (·.1) := by
  simp only [named, List.map_eq_nil_iff, List.filter_eq_nil_iff, decide_eq_true_eq, List.mem_map,
    not_exists, not_and]

theorem get?_foldl_append (l : List (String × β)) (t : Table (List β)) (n : String) :
    (l.foldl (fun t p => t.append p.1 [p.2]) t).get? n =
      if n ∈ l.map (·.1) then some ((t.get? n).getD [] ++ named n l) else t.get? n := by
  induction l generalizing t with
  | nil => simp
  | cons p r ih =>
    rw [List.foldl_cons, ih, get?_append]
    by_cases h : n = p.1
    · subst h
      by_cases hr : p.1 ∈ r.map (·.1)
      · simp [named, hr]
      · have hn := named_eq_nil.2 hr
        simp only [named, List.map_eq_nil_iff] at hn
        simp [hr, named, hn]
    · have h' : p.1 ≠ n := fun he => h he.symm
      simp only [h, if_false, List.map_cons, List.mem_cons, false_or, named,
        List.filter_cons_of_neg (p := fun q : String × β => decide (q.1 = n)) (by simpa using h')]

theorem get?_grouped (l : List (String × β)) (n : String) :
    (grouped l).get? n = if n ∈ l.map (·.1) then some (named n l) else none := by
  simpa [grouped, get?_empty] using get?_foldl_append l empty n

theorem entries_append_perm {l : List (String × List β)} (name : String) (values : List β) :
    ((alterEntries name (fun old => old.getD [] ++ values) l).flatMap fun p =>
      p.2.map (p.1, ·)).Perm ((l.flatMap fun p => p.2.map (p.1, ·)) ++ values.map (name, ·)) := by
  induction l with
  | nil => simp [alterEntries]
  | cons p r ih =>
    obtain ⟨k, v⟩ := p
    rw [alterEntries]
    split
    · have hp : ∀ a b : List (String × β), (a ++ b).Perm (b ++ a) := fun a b =>
        List.perm_append_comm
      simpa using hp (values.map (name, ·)) (((k, v) :: r).flatMap fun p => p.2.map (p.1, ·))
    · split
      next h =>
        subst h
        simpa [List.append_assoc] using List.perm_append_comm.append_left (v.map (name, ·))
      next => simpa [List.append_assoc] using ih.append_left (v.map (k, ·))

/-- The groups hold the values that were gathered, each as often as it came. -/
theorem entries_grouped_perm (l : List (String × β)) :
    ((grouped l).entries.flatMap fun p => p.2.map (p.1, ·)).Perm l := by
  have hf : ∀ t : Table (List β),
      ((l.foldl (fun t p => t.append p.1 [p.2]) t).entries.flatMap fun p => p.2.map (p.1, ·)).Perm
        ((t.entries.flatMap fun p => p.2.map (p.1, ·)) ++ l) := by
    induction l with
    | nil => simp
    | cons p r ih =>
      intro t
      refine (ih (t.append p.1 [p.2])).trans ?_
      have hp := (entries_append_perm (l := t.entries) p.1 [p.2]).append_right r
      rw [List.append_assoc] at hp
      exact hp
  simpa [grouped, empty] using hf empty

theorem mem_grouped_iff {l : List (String × β)} {p : String × β} :
    p ∈ l ↔ ∃ g ∈ (grouped l).entries, ∃ v ∈ g.2, (g.1, v) = p := by
  rw [← (entries_grouped_perm l).mem_iff]
  simp only [List.mem_flatMap, List.mem_map]

theorem filter_name_eq (t : Table β) (n : String) :
    t.entries.filter (fun p => p.1 == n) = (t.get? n).toList.map (n, ·) := by
  have hf : ∀ l : List (String × β), InNameOrder l →
      l.filter (fun p => p.1 == n) = (l.lookup n).toList.map (n, ·) := by
    intro l ho
    induction l with
    | nil => rfl
    | cons p r ih =>
      obtain ⟨hp, hr⟩ := List.pairwise_cons.1 ho
      by_cases h : p.1 = n
      · subst h
        rw [List.filter_cons_of_pos (by simp), ih hr, lookup_eq_none_of_lt hp,
          List.lookup_cons_self]
        rfl
      · rw [List.filter_cons_of_neg (by simpa using h), ih hr, List.lookup_cons,
          beq_false_of_ne (Ne.symm h)]
  exact hf t.entries t.ordered

/-- One group and the groups after it hold what was gathered. -/
theorem group_append_others_perm (l : List (String × β)) (n : String) :
    ((((grouped l).get? n).getD []).map (n, ·) ++
      ((grouped l).entries.filter fun p => p.1 != n).flatMap fun p => p.2.map (p.1, ·)).Perm l := by
  have hgroup : (((grouped l).get? n).getD []).map (n, ·) =
      ((grouped l).entries.filter fun p => p.1 == n).flatMap fun p => p.2.map (p.1, ·) := by
    rw [filter_name_eq]
    cases (grouped l).get? n <;> simp
  rw [hgroup, ← List.flatMap_append]
  exact ((List.filter_append_perm (fun p => p.1 == n) _).flatMap_right _).trans
    (entries_grouped_perm l)

/-- A group is what was gathered under its name, and it is never empty. -/
theorem mem_entries_grouped {l : List (String × β)} {g : String × List β}
    (h : g ∈ (grouped l).entries) : g.2 ≠ [] ∧ g.2 = named g.1 l := by
  have hg := get?_eq_some_iff.2 h
  rw [get?_grouped] at hg
  split at hg
  next hm =>
    have he : named g.1 l = g.2 := Option.some.inj hg
    exact ⟨fun hn => named_eq_nil.1 (he.trans hn) hm, he.symm⟩
  next => exact absurd hg (by simp)

theorem get?_foldl_append_lists {l : List (String × List β)} (ho : InNameOrder l)
    (t : Table (List β)) (n : String) :
    (l.foldl (fun t p => t.append p.1 p.2) t).get? n =
      match l.lookup n with
      | some values => some ((t.get? n).getD [] ++ values)
      | none => t.get? n := by
  induction l generalizing t with
  | nil => rfl
  | cons p r ih =>
    obtain ⟨hp, hr⟩ := List.pairwise_cons.1 ho
    rw [List.foldl_cons, ih hr, get?_append]
    by_cases h : n = p.1
    · have hnone : r.lookup n = none := lookup_eq_none_of_lt fun q hq => h ▸ hp q hq
      rw [hnone, List.lookup_cons, h, beq_self_eq_true]
      simp
    · rw [List.lookup_cons, beq_false_of_ne h]
      simp only [h, if_false]

theorem foldl_append_grouped (l : List (String × β)) (t : Table (List β)) :
    (grouped l).entries.foldl (fun t p => t.append p.1 p.2) t =
      l.foldl (fun t p => t.append p.1 [p.2]) t := by
  apply ext_get?
  intro n
  rw [get?_foldl_append_lists (grouped l).ordered, get?_foldl_append]
  have hg : (grouped l).entries.lookup n = _ := get?_grouped l n
  rw [hg]
  split <;> simp_all

theorem append_eq_foldl (t : Table (List β)) (name : String) {l : List β} (hl : l ≠ []) :
    t.append name l = (l.map (name, ·)).foldl (fun t p => t.append p.1 [p.2]) t := by
  apply ext_get?
  intro n
  rw [get?_append, get?_foldl_append]
  by_cases h : n = name
  · subst h
    have hm : n ∈ (l.map (n, ·)).map (·.1) := by simp [hl]
    have hn : named n (l.map (n, ·)) = l := by simp [named, List.filter_map, Function.comp_def]
    simp only [if_true, hm, hn]
  · have hm : n ∉ (l.map (name, ·)).map (·.1) := by
      simp only [List.map_map, List.mem_map, Function.comp_apply, not_exists, not_and]
      exact fun _ _ he => h he.symm
    simp only [h, hm, if_false]

theorem get?_ofList_eq_none {l : List (String × β)} {n : String} :
    (ofList l).get? n = none ↔ n ∉ l.map (·.1) := by
  have hf : ∀ t : Table β, (l.foldl (fun t p => t.set p.1 p.2) t).get? n = none ↔
      n ∉ l.map (·.1) ∧ t.get? n = none := by
    induction l with
    | nil => simp
    | cons p r ih =>
      intro t
      rw [List.foldl_cons, ih, set, get?_alter]
      by_cases h : n = p.1 <;> simp [h]
  simpa [ofList, get?_empty] using hf empty

theorem mem_names {t : Table β} {n : String} : n ∈ t.names ↔ t.get? n ≠ none := by
  simp only [names, List.mem_map, ne_eq, Option.ne_none_iff_exists', get?_eq_some_iff,
    Prod.exists, exists_and_right, exists_eq_right]

theorem mem_names_ofList {l : List (String × β)} {n : String} :
    n ∈ (ofList l).names ↔ n ∈ l.map (·.1) := by
  rw [mem_names, ne_eq, get?_ofList_eq_none, not_not]

theorem pairwise_names (t : Table β) : t.names.Pairwise (· < ·) := List.pairwise_map.2 t.ordered

theorem nodup_names (t : Table β) : t.names.Nodup := t.pairwise_names.imp ne_of_lt

/-- The names of a table are its set of names in order. -/
theorem names_eq_sort (t : Table β) : t.names = t.names.toFinset.sort :=
  ((List.toFinset_sort (· ≤ ·) t.nodup_names).2 (t.pairwise_names.imp le_of_lt)).symm

section Correspondence

variable {γ : Type} {R : String → β → γ → Prop}

/-- The groups of both have the same names, and their values correspond one to one. -/
def SameGroups (R : String → β → γ → Prop) (l : List (String × List β))
    (k : List (String × List γ)) : Prop :=
  List.Forall₂ (fun p q => p.1 = q.1 ∧ List.Forall₂ (R p.1) p.2 q.2) l k

theorem SameGroups.append {l : List (String × List β)} {k : List (String × List γ)}
    (h : SameGroups R l k) {name : String} {values : List β} {others : List γ}
    (hv : List.Forall₂ (R name) values others) :
    SameGroups R (alterEntries name (fun old => old.getD [] ++ values) l)
      (alterEntries name (fun old => old.getD [] ++ others) k) := by
  induction h with
  | nil => exact .cons ⟨rfl, hv⟩ .nil
  | @cons p q l k hpq hl ih =>
    obtain ⟨n, u⟩ := p
    obtain ⟨n', w⟩ := q
    obtain ⟨rfl, huw⟩ : n = n' ∧ List.Forall₂ (R n) u w := hpq
    rw [alterEntries, alterEntries]
    split
    · exact .cons ⟨rfl, hv⟩ (.cons ⟨rfl, huw⟩ hl)
    · split
      next he =>
        subst he
        exact .cons ⟨rfl, List.rel_append huw hv⟩ hl
      next => exact .cons ⟨rfl, huw⟩ ih

theorem sameGroups_grouped {l : List (String × β)} {k : List (String × γ)}
    (h : List.Forall₂ (fun p q => p.1 = q.1 ∧ R p.1 p.2 q.2) l k) :
    SameGroups R (grouped l).entries (grouped k).entries := by
  have hf : ∀ (t : Table (List β)) (u : Table (List γ)), SameGroups R t.entries u.entries →
      SameGroups R (l.foldl (fun t p => t.append p.1 [p.2]) t).entries
        (k.foldl (fun t p => t.append p.1 [p.2]) u).entries := by
    induction h with
    | nil => exact fun _ _ htu => htu
    | @cons p q l k hpq _ ih =>
      obtain ⟨n, v⟩ := p
      obtain ⟨n', w⟩ := q
      obtain ⟨rfl, hvw⟩ : n = n' ∧ R n v w := hpq
      exact fun t u htu => ih _ _ (htu.append (.cons hvw .nil))
  exact hf empty empty .nil

theorem SameGroups.lookup {l : List (String × List β)} {k : List (String × List γ)}
    (h : SameGroups R l k) (n : String) :
    List.Forall₂ (R n) ((l.lookup n).getD []) ((k.lookup n).getD []) := by
  induction h with
  | nil => exact .nil
  | @cons p q l k hpq _ ih =>
    by_cases hn : n = p.1
    · have hq : n = q.1 := hn.trans hpq.1
      rw [List.lookup_cons, List.lookup_cons, beq_iff_eq.2 hn, beq_iff_eq.2 hq]
      exact hn ▸ hpq.2
    · have hq : n ≠ q.1 := fun hq => hn (hq.trans hpq.1.symm)
      rw [List.lookup_cons, List.lookup_cons, beq_false_of_ne hn, beq_false_of_ne hq]
      exact ih

theorem SameGroups.flatMap {l : List (String × List β)} {k : List (String × List γ)}
    (h : SameGroups R l k) :
    List.Forall₂ (fun p q => p.1 = q.1 ∧ R p.1 p.2 q.2) (l.flatMap fun p => p.2.map (p.1, ·))
      (k.flatMap fun q => q.2.map (q.1, ·)) := by
  refine List.rel_flatMap h fun p q hpq => ?_
  rw [List.forall₂_map_left_iff, List.forall₂_map_right_iff]
  exact hpq.2.imp fun _ _ hr => ⟨hpq.1, hr⟩

theorem SameGroups.filter {l : List (String × List β)} {k : List (String × List γ)}
    (h : SameGroups R l k) (p : String → Bool) :
    SameGroups R (l.filter fun g => p g.1) (k.filter fun g => p g.1) := by
  induction h with
  | nil => exact .nil
  | @cons g g' l k hg _ ih =>
    rw [List.filter_cons, List.filter_cons, hg.1]
    split
    · exact .cons hg ih
    · exact ih

/-- The values by their names, those of `n` before the others. -/
def headed (n : String) (t : Table (List β)) : List (String × β) :=
  ((t.get? n).getD []).map (n, ·) ++
    (t.entries.filter fun g => g.1 != n).flatMap fun g => g.2.map (g.1, ·)

theorem mem_headed {n : String} {t : Table (List β)} {p : String × β} :
    p ∈ t.headed n ↔ p.2 ∈ (t.get? p.1).getD [] := by
  constructor
  · intro h
    rcases List.mem_append.1 h with h | h
    · obtain ⟨v, hv, rfl⟩ := List.mem_map.1 h
      exact hv
    · obtain ⟨group, hg, h⟩ := List.mem_flatMap.1 h
      obtain ⟨v, hv, rfl⟩ := List.mem_map.1 h
      rw [get?_eq_some_iff.2 (List.mem_filter.1 hg).1]
      exact hv
  · intro h
    rcases eq_or_ne p.1 n with rfl | hne
    · exact List.mem_append_left _ (List.mem_map.2 ⟨p.2, h, rfl⟩)
    · refine List.mem_append_right _ (List.mem_flatMap.2 ?_)
      cases hg : t.get? p.1 with
      | none => exact absurd h (by simp [hg])
      | some l =>
        rw [hg] at h
        exact ⟨(p.1, l), List.mem_filter.2 ⟨get?_eq_some_iff.1 hg, by simpa using hne⟩,
          List.mem_map.2 ⟨p.2, h, rfl⟩⟩

theorem SameGroups.headed {t : Table (List β)} {u : Table (List γ)}
    (h : SameGroups R t.entries u.entries) (n : String) :
    List.Forall₂ (fun p q => p.1 = q.1 ∧ R p.1 p.2 q.2) (t.headed n) (u.headed n) := by
  refine List.rel_append ?_ (h.filter (· != n)).flatMap
  rw [List.forall₂_map_left_iff, List.forall₂_map_right_iff]
  exact (h.lookup n).imp fun _ _ hr => ⟨rfl, hr⟩

end Correspondence

end ODataClient.Table
