import Mathlib.Data.List.Forall2

/-! Computations that may fail. A sequence of steps succeeds when every step does, and
the first step that fails decides the error. -/

namespace ODataClient

variable {ε α β γ : Type}

@[simp] theorem ok_bind (a : α) (f : α → Except ε β) : (Except.ok a >>= f) = f a := rfl

@[simp] theorem error_bind (e : ε) (f : α → Except ε β) : (Except.error e >>= f) = .error e := rfl

@[simp] theorem pure_eq_ok (a : α) : (pure a : Except ε α) = .ok a := rfl

@[simp] theorem throw_eq_error (e : ε) : (throw e : Except ε α) = .error e := rfl

@[simp] theorem map_ok (f : α → β) (a : α) : (Except.ok a : Except ε α).map f = .ok (f a) := rfl

@[simp] theorem map_error (f : α → β) (e : ε) : (Except.error e : Except ε α).map f = .error e := rfl

theorem bind_eq_ok_iff {x : Except ε α} {f : α → Except ε β} {b : β} :
    (x >>= f) = .ok b ↔ ∃ a, x = .ok a ∧ f a = .ok b := by
  cases x with
  | error e => simp
  | ok a => simp

theorem map_eq_ok_iff {x : Except ε α} {f : α → β} {b : β} :
    x.map f = .ok b ↔ ∃ a, x = .ok a ∧ f a = b := by
  cases x with
  | error e => simp
  | ok a => simp

theorem mapError_eq_ok_iff {δ : Type} {x : Except ε α} {f : ε → δ} {a : α} :
    x.mapError f = .ok a ↔ x = .ok a := by
  cases x <;> simp [Except.mapError]

theorem bind_eq_error_iff {x : Except ε α} {f : α → Except ε β} {e : ε} :
    (x >>= f) = .error e ↔ x = .error e ∨ ∃ a, x = .ok a ∧ f a = .error e := by
  cases x with
  | error e' => simp
  | ok a => simp

theorem map_eq_error_iff {x : Except ε α} {f : α → β} {e : ε} :
    x.map f = .error e ↔ x = .error e := by
  cases x with
  | error e' => simp
  | ok a => simp

/-- Whether a computation succeeds, and its error when it fails. -/
def outcome (x : Except ε α) : Except ε Unit := x.map fun _ => ()

theorem outcome_map (f : α → β) (x : Except ε α) : outcome (x.map f) = outcome x := by
  cases x <;> rfl

theorem outcome_bind (x : Except ε α) (f : α → Except ε β) :
    outcome (x >>= f) = x >>= fun a => outcome (f a) := by cases x <;> rfl

theorem bind_const (x : Except ε α) (y : Except ε β) :
    (x >>= fun _ => y) = outcome x >>= fun _ => y := by cases x <;> rfl

theorem outcome_eq_ok_iff {x : Except ε α} : outcome x = .ok () ↔ ∃ a, x = .ok a := by
  cases x <;> simp [outcome]

theorem outcome_eq_error_iff {x : Except ε α} {e : ε} : outcome x = .error e ↔ x = .error e :=
  map_eq_error_iff

theorem mapM_cons_except (f : α → Except ε β) (a : α) (l : List α) :
    (a :: l).mapM f = f a >>= fun b => l.mapM f >>= fun bs => .ok (b :: bs) := by
  rw [List.mapM_cons]
  rfl

theorem mapM_append_except (f : α → Except ε β) (l r : List α) :
    (l ++ r).mapM f = l.mapM f >>= fun bs => r.mapM f >>= fun cs => .ok (bs ++ cs) := by
  rw [List.mapM_append]
  rfl

theorem mapM_flatMap_except (f : β → Except ε γ) (g : α → List β) (l : List α) :
    (l.flatMap g).mapM f = (l.mapM fun a => (g a).mapM f).map List.flatten := by
  induction l with
  | nil => rfl
  | cons a l ih =>
    rw [List.flatMap_cons, mapM_append_except, ih, mapM_cons_except]
    cases (g a).mapM f with
    | error e => rfl
    | ok bs => cases l.mapM fun a => (g a).mapM f <;> simp

theorem map_mapM (f : α → Except ε β) (g : β → γ) (l : List α) :
    (l.mapM f).map (List.map g) = l.mapM fun a => (f a).map g := by
  induction l with
  | nil => rfl
  | cons a l ih =>
    rw [mapM_cons_except, mapM_cons_except, ← ih]
    cases f a with
    | error e => rfl
    | ok b => cases l.mapM f <;> rfl

theorem mapM_eq_ok_iff {f : α → Except ε β} {l : List α} {bs : List β} :
    l.mapM f = .ok bs ↔ List.Forall₂ (fun a b => f a = .ok b) l bs := by
  induction l generalizing bs with
  | nil => simp [eq_comm]
  | cons a l ih =>
    rw [mapM_cons_except, bind_eq_ok_iff]
    constructor
    · rintro ⟨b, hb, h⟩
      obtain ⟨cs, hcs, he⟩ := bind_eq_ok_iff.1 h
      obtain rfl := Except.ok.inj he
      exact .cons hb (ih.1 hcs)
    · rintro (_ | ⟨hb, hbs⟩)
      exact ⟨_, hb, bind_eq_ok_iff.2 ⟨_, ih.2 hbs, rfl⟩⟩

theorem mem_mapM_ok {f : α → Except ε β} {l : List α} {bs : List β} (h : l.mapM f = .ok bs) {b : β} :
    b ∈ bs ↔ ∃ a ∈ l, f a = .ok b := by
  induction mapM_eq_ok_iff.1 h with
  | nil => simp
  | cons hb hbs ih =>
    have hr := ih (mapM_eq_ok_iff.2 hbs)
    simp only [List.mem_cons, hr, exists_eq_or_imp, hb, Except.ok.injEq]
    exact or_congr eq_comm Iff.rfl

theorem exists_ok_of_mapM {f : α → Except ε β} {l : List α} {bs : List β} (h : l.mapM f = .ok bs)
    {a : α} (ha : a ∈ l) : ∃ b, f a = .ok b := by
  induction mapM_eq_ok_iff.1 h with
  | nil => simp at ha
  | cons hb hbs ih =>
    rcases List.mem_cons.1 ha with rfl | ha
    · exact ⟨_, hb⟩
    · exact ih (mapM_eq_ok_iff.2 hbs) ha

theorem exists_error_of_mapM {f : α → Except ε β} {l : List α} {e : ε} (h : l.mapM f = .error e) :
    ∃ a ∈ l, f a = .error e := by
  induction l with
  | nil => exact absurd h (by simp)
  | cons a l ih =>
    rw [mapM_cons_except, bind_eq_error_iff] at h
    rcases h with h | ⟨b, -, h⟩
    · exact ⟨a, List.mem_cons_self, h⟩
    rcases bind_eq_error_iff.1 h with h | ⟨bs, -, h⟩
    · obtain ⟨x, hx, he⟩ := ih h
      exact ⟨x, List.mem_cons_of_mem a hx, he⟩
    · exact absurd h (by simp)

theorem eq_map_of_mapM {f : α → Except ε β} {g : α → β} {l : List α} {bs : List β}
    (h : l.mapM f = .ok bs) (hg : ∀ a ∈ l, ∀ b, f a = .ok b → b = g a) : bs = l.map g := by
  induction mapM_eq_ok_iff.1 h with
  | nil => rfl
  | cons hb hbs ih =>
    rw [List.map_cons, hg _ List.mem_cons_self _ hb,
      ih (mapM_eq_ok_iff.2 hbs) fun a ha => hg a (List.mem_cons_of_mem _ ha)]

theorem forall₂_comp {R : α → β → Prop} {S : β → γ → Prop} {T : α → γ → Prop}
    {l : List α} {bs : List β} {cs : List γ} (hl : List.Forall₂ R l bs) (hr : List.Forall₂ S bs cs)
    (h : ∀ a b c, R a b → S b c → T a c) : List.Forall₂ T l cs := by
  induction hl generalizing cs with
  | nil =>
    obtain rfl := List.forall₂_nil_left_iff.1 hr
    exact .nil
  | cons hab _ ih =>
    obtain _ | ⟨hbc, hr⟩ := hr
    exact .cons (h _ _ _ hab hbc) (ih hr)

theorem exists_of_mem_forall₂ {R : α → β → Prop} {l : List α} {bs : List β}
    (h : List.Forall₂ R l bs) {b : β} (hb : b ∈ bs) : ∃ a ∈ l, R a b := by
  induction h with
  | nil => exact absurd hb List.not_mem_nil
  | cons hab _ ih =>
    rcases List.mem_cons.1 hb with rfl | hb
    · exact ⟨_, List.mem_cons_self, hab⟩
    · obtain ⟨a, ha, hab⟩ := ih hb
      exact ⟨a, List.mem_cons_of_mem _ ha, hab⟩

theorem exists_map_of_forall₂ {R : α → β → Prop} {S : α → γ → Prop} {g : γ → β} {l : List α}
    {bs : List β} (h : List.Forall₂ R l bs) (hg : ∀ a ∈ l, ∀ b, R a b → ∃ c, S a c ∧ b = g c) :
    ∃ cs, List.Forall₂ S l cs ∧ bs = cs.map g := by
  induction h with
  | nil => exact ⟨[], .nil, rfl⟩
  | cons hab _ ih =>
    obtain ⟨c, hc, rfl⟩ := hg _ List.mem_cons_self _ hab
    obtain ⟨cs, hcs, rfl⟩ := ih fun a ha => hg a (List.mem_cons_of_mem _ ha)
    exact ⟨c :: cs, .cons hc hcs, rfl⟩

theorem forall₂_append_split {R : α → β → Prop} {l r : List α} {bs : List β}
    (h : List.Forall₂ R (l ++ r) bs) :
    ∃ ls rs, bs = ls ++ rs ∧ List.Forall₂ R l ls ∧ List.Forall₂ R r rs := by
  have hflip : List.Forall₂ (flip R) bs (l ++ r) := h.flip
  exact ⟨_, _, (List.take_append_drop l.length bs).symm,
    (List.forall₂_take_append bs l r hflip).flip, (List.forall₂_drop_append bs l r hflip).flip⟩

theorem foldlM_append_ok {f : α → β → Except ε α} (g : β → Except ε γ) (step : α → γ → α)
    (hf : ∀ a b, f a b = (g b).map (step a)) (l : List β) (a : α) :
    l.foldlM f a = (l.mapM g).map (List.foldl step a) := by
  induction l generalizing a with
  | nil => rfl
  | cons b l ih =>
    rw [List.foldlM_cons, mapM_cons_except, hf]
    cases g b with
    | error e => rfl
    | ok c =>
      simp only [map_ok, ok_bind, ih]
      cases l.mapM g <;> rfl

/-- Whenever the computation fails, its error has the property. -/
def FailsAs (P : ε → Prop) (x : Except ε α) : Prop := ∀ e, x = .error e → P e

section FailsAs

variable {P Q : ε → Prop} {x : Except ε α}

theorem failsAs_ok (P : ε → Prop) (a : α) : FailsAs P (.ok a : Except ε α) := fun _ h => by cases h

theorem failsAs_error {e : ε} (h : P e) : FailsAs P (.error e : Except ε α) := fun _ he => by
  obtain rfl := Except.error.inj he
  exact h

theorem FailsAs.mono (h : FailsAs P x) (hPQ : ∀ e, P e → Q e) : FailsAs Q x :=
  fun e he => hPQ e (h e he)

theorem FailsAs.bind {f : α → Except ε β} (hx : FailsAs P x)
    (hf : ∀ a, x = .ok a → FailsAs P (f a)) : FailsAs P (x >>= f) := fun e he => by
  rcases bind_eq_error_iff.1 he with he | ⟨a, ha, he⟩
  · exact hx e he
  · exact hf a ha e he

theorem FailsAs.map {f : α → β} (hx : FailsAs P x) : FailsAs P (x.map f) :=
  fun e he => hx e (map_eq_error_iff.1 he)

theorem FailsAs.mapM {f : α → Except ε β} {l : List α} (h : ∀ a ∈ l, FailsAs P (f a)) :
    FailsAs P (l.mapM f) := fun e he => by
  obtain ⟨a, ha, he⟩ := exists_error_of_mapM he
  exact h a ha e he

theorem FailsAs.foldlM {f : β → α → Except ε β} {l : List α} {b : β}
    (h : ∀ b, ∀ a ∈ l, FailsAs P (f b a)) : FailsAs P (l.foldlM f b) := by
  induction l generalizing b with
  | nil => exact failsAs_ok P b
  | cons a l ih =>
    rw [List.foldlM_cons]
    exact (h b a List.mem_cons_self).bind fun b' _ =>
      ih fun b a ha => h b a (List.mem_cons_of_mem _ ha)

end FailsAs

end ODataClient
