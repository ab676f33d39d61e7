import ODataClient.Expr.Rendering
import ODataClient.Proofs.Expr.Renaming
import ODataClient.Proofs.Outcome

/-! Expressions whose texts are alike in both syntaxes but for their references. When the
references of one are nowhere longer than those of the other, neither is its text, and the texts
are the same just when all references are. -/

namespace ODataClient

/-- The second text is not longer, and it is the same just when `P` holds. -/
structure Narrower (P : Prop) (s t : String) : Prop where
  le : t.length ≤ s.length
  same : t = s ↔ P

namespace Narrower

variable {P Q : Prop} {s t u v : String}

theorem refl (s : String) : Narrower True s s := ⟨Nat.le_refl _, by simp⟩

theorem of_iff (h : Narrower P s t) (hpq : P ↔ Q) : Narrower Q s t := ⟨h.le, h.same.trans hpq⟩

theorem append (h : Narrower P s t) (h' : Narrower Q u v) : Narrower (P ∧ Q) (s ++ u) (t ++ v) where
  le := by
    have hs := h.le
    have hu := h'.le
    simp only [String.length_append]
    omega
  same := by
    rw [← h.same, ← h'.same]
    constructor
    · intro he
      have hlength := congrArg String.length he
      have hs := h.le
      have hu := h'.le
      simp only [String.length_append] at hlength
      have hts : t.toList.length = s.toList.length := by
        simp only [String.length_toList]
        omega
      have hlists : t.toList ++ v.toList = s.toList ++ u.toList := by
        simpa using congrArg String.toList he
      obtain ⟨ht, hv⟩ := List.append_inj hlists hts
      exact ⟨String.toList_inj.1 ht, String.toList_inj.1 hv⟩
    · rintro ⟨rfl, rfl⟩
      rfl

/-- Text that stands around both. -/
theorem between (h : Narrower P s t) (before after : String) :
    Narrower P (before ++ s ++ after) (before ++ t ++ after) :=
  (((refl before).append h).append (refl after)).of_iff (by simp)

end Narrower

/-- The same for lists of texts, with whatever stands between them. -/
structure NarrowerAll (P : Prop) (ss ts : List String) : Prop where
  length : ts.length = ss.length
  joined (sep : String) : Narrower P (String.intercalate sep ss) (String.intercalate sep ts)

namespace NarrowerAll

variable {P Q : Prop} {s t : String} {ss ts : List String}

theorem of_iff (h : NarrowerAll P ss ts) (hpq : P ↔ Q) : NarrowerAll Q ss ts :=
  ⟨h.length, fun sep => (h.joined sep).of_iff hpq⟩

theorem nil : NarrowerAll True [] [] := ⟨rfl, fun _ => .refl _⟩

theorem cons (h : Narrower P s t) (h' : NarrowerAll Q ss ts) :
    NarrowerAll (P ∧ Q) (s :: ss) (t :: ts) where
  length := by simp [h'.length]
  joined sep := by
    by_cases hs : ss = []
    · subst hs
      obtain rfl : ts = [] := List.length_eq_zero_iff.1 h'.length
      have hq : Q := (h'.joined sep).same.1 rfl
      rw [String.intercalate_singleton, String.intercalate_singleton]
      exact h.of_iff (by simp [hq])
    · have ht : ts ≠ [] := fun ht => hs (List.length_eq_zero_iff.1 (by rw [← h'.length, ht]; rfl))
      rw [String.intercalate_cons_of_ne_nil hs, String.intercalate_cons_of_ne_nil ht]
      exact ((h.append (.refl sep)).append (h'.joined sep)).of_iff (by simp)

theorem of_forall₂ {α : Type} {R R' : α → String → Prop} {p : α → Prop} {l : List α}
    (h : List.Forall₂ R l ss) (h' : List.Forall₂ R' l ts)
    (hn : ∀ a ∈ l, ∀ s t, R a s → R' a t → Narrower (p a) s t) :
    NarrowerAll (∀ a ∈ l, p a) ss ts := by
  induction h generalizing ts with
  | nil =>
    obtain rfl := List.forall₂_nil_left_iff.1 h'
    exact nil.of_iff (by simp)
  | @cons a s l ss ha _ ih =>
    obtain _ | ⟨ha', hrest⟩ := h'
    have hhead := hn a List.mem_cons_self _ _ ha ha'
    have htail := ih hrest fun b hb => hn b (List.mem_cons_of_mem a hb)
    exact (cons hhead htail).of_iff (by simp)

end NarrowerAll

/-- Both texts can be written, and the second is the narrower. -/
def RendersNarrower (r r' : Renderer) (P : Prop) (e e' : Expr) : Prop :=
  ∃ s t, r.render e = .ok s ∧ r'.render e' = .ok t ∧ Narrower P s t

def Value.IsPlain : Value → Prop
  | .null | .bool _ | .int32 _ | .string _ => True
  | _ => False

/-- Literals that both syntaxes write alike, references, calls other than `contains`, lambdas, and
operators other than `has`. -/
inductive Expr.Plain : Expr → Prop
  | value {v : Value} (hv : v.IsPlain) : Plain (.value v)
  | reference (path : String) : Plain (.reference path)
  | call {name : String} {args : List Expr} (hn : name ≠ "contains")
      (ha : ∀ e ∈ args, Plain e) : Plain (.call name args)
  | lambda {collection name var : String} {body : Expr} (hn : name = "any" ∨ name = "all")
      (hb : Plain body) : Plain (.method (.reference collection) name [.reference var, body])
  | method {caller : Expr} {name : String} {args : List Expr}
      (hl : Expr.isLambdaCall caller name args = false) (hn : name ≠ "contains")
      (hc : Plain caller) (ha : ∀ e ∈ args, Plain e) : Plain (.method caller name args)
  | binary {op : Operator} {left right : Expr} (ho : op ≠ .has) (hl : Plain left)
      (hr : Plain right) : Plain (.binary op left right)
  | unary {op : Operator} {operand : Expr} (he : Plain operand) : Plain (.unary op operand)

namespace Renderer

variable {r r' : Renderer} {P Q : Prop} {e e' : Expr}

/-- Two renderers of versions that know lambdas, which escape literals alike. -/
structure Alike (r r' : Renderer) : Prop where
  left : r.version.hasLambdas = true
  right : r'.version.hasLambdas = true
  escaped : r'.escaped = r.escaped

theorem literal_plain (style : LiteralStyle) {v : Value} (h : v.IsPlain) :
    style.literal v = commonLiteral v := by
  cases v with
  | null | bool b | int32 n | string s => cases style <;> rfl
  | _ => exact h.elim

theorem callText_plain (dialect : Dialect) {name : String} (h : name ≠ "contains")
    (args : List String) :
    callText dialect name args = name ++ "(" ++ String.intercalate "," args ++ ")" := by
  unfold callText
  split
  next a b =>
    have hjoin : String.intercalate "," [a, b] = a ++ "," ++ b := by simp
    rw [if_neg h, hjoin]
    simp only [String.append_assoc]
  next => rfl

theorem narrower_bracketed {s t : String} (min : Nat) (h : Narrower P s t)
    (ho : e'.operator = e.operator) : Narrower P (bracketed min e s) (bracketed min e' t) := by
  rw [bracketed, bracketed, ho]
  split
  · exact h.between "(" ")"
  · exact h

theorem narrower_unaryText (op : Operator) {s t : String} (h : Narrower P s t) :
    Narrower P (unaryText op s) (unaryText op t) := by
  have hbefore : ∀ before : String, Narrower P (before ++ s) (before ++ t) := fun before =>
    ((Narrower.refl before).append h).of_iff (by simp)
  cases op with
  | negate => exact hbefore "-"
  | _ => exact hbefore _

theorem renderArguments_narrower {args : List Expr} {f g : Expr → Expr} {p : Expr → Prop}
    (h : ∀ e ∈ args, RendersNarrower r r' (p e) (f e) (g e)) :
    ∃ ss ts, r.renderArguments (args.map f) = .ok ss ∧ r'.renderArguments (args.map g) = .ok ts ∧
      NarrowerAll (∀ e ∈ args, p e) ss ts := by
  induction args with
  | nil =>
    exact ⟨[], [], rfl, rfl, NarrowerAll.nil.of_iff (by simp)⟩
  | cons e args ih =>
    obtain ⟨s, t, hs, ht, hst⟩ := h e (by simp)
    obtain ⟨ss, ts, hss, hts, hall⟩ := ih fun e he => h e (by simp [he])
    refine ⟨s :: ss, t :: ts, ?_, ?_, (NarrowerAll.cons hst hall).of_iff (by simp)⟩
    · rw [List.map_cons, renderArguments, hs, ok_bind, hss]
      rfl
    · rw [List.map_cons, renderArguments, ht, ok_bind, hts]
      rfl

theorem render_call {name : String} {args : List Expr} {parts : List String}
    (hn : name ≠ "contains") (h : r.renderArguments args = .ok parts) :
    r.render (.call name args) = .ok (name ++ "(" ++ String.intercalate "," parts ++ ")") := by
  rw [render, h, ok_bind, callText_plain _ hn]
  rfl

theorem render_lambda (hr : r.version.hasLambdas = true) {collection name var s : String}
    {body : Expr} (hn : name = "any" ∨ name = "all") (hs : r.render body = .ok s) :
    r.render (.method (.reference collection) name [.reference var, body]) =
      .ok (collection ++ ("/" ++ name ++ "(" ++ var ++ ":") ++ (s ++ ")")) := by
  have hjoin : String.intercalate ":" [var, s] = var ++ ":" ++ s := by simp
  simp only [render, Expr.isLambdaCall_of_name hn, hr, renderArguments, hs, ok_bind, if_true,
    Bool.not_true, Bool.false_eq_true, if_false, pure_eq_ok, hjoin, String.append_assoc]

theorem render_method {caller : Expr} {name s : String} {args : List Expr} {parts : List String}
    (hl : Expr.isLambdaCall caller name args = false) (hn : name ≠ "contains")
    (hs : r.render caller = .ok s) (h : r.renderArguments args = .ok parts) :
    r.render (.method caller name args) =
      .ok (name ++ "(" ++ String.intercalate "," (s :: parts) ++ ")") := by
  simp only [render, hl, hs, h, ok_bind, Bool.false_eq_true, if_false, pure_eq_ok,
    callText_plain _ hn]

theorem render_binary {op : Operator} {left right : Expr} {s u : String} (ho : op ≠ .has)
    (hs : r.render left = .ok s) (hu : r.render right = .ok u) :
    r.render (.binary op left right) =
      .ok (bracketed op.precedence left s ++ (" " ++ op.keyword ++ " ") ++
        bracketed op.rightMinimum right u) := by
  have hn : ¬ (op = .has ∧ r.dialect = .legacy) := fun h => ho h.1
  simp only [render, if_neg hn, hs, hu, ok_bind, pure_eq_ok, String.append_assoc]

/-- Replacements that make no reference longer make no text longer. -/
theorem render_narrower (ha : Alike r r') (hp : e.Plain) (fs gs : List (String → String))
    (scopes : List String)
    (hle : ∀ o ∈ e.occurrences scopes,
      (o.renameAll gs).path.length ≤ (o.renameAll fs).path.length) :
    RendersNarrower r r'
      (∀ o ∈ e.occurrences scopes, (o.renameAll gs).path = (o.renameAll fs).path)
      (e.mapAll fs scopes) (e.mapAll gs scopes) := by
  induction hp generalizing scopes with
  | @value v hv =>
    have hs : r'.style.written r'.escaped v = r.style.written r.escaped v := by
      rw [LiteralStyle.written, LiteralStyle.written, ha.escaped, literal_plain _ hv,
        literal_plain _ hv]
    refine ⟨_, _, ?_, ?_, (Narrower.refl (r.style.written r.escaped v)).of_iff ?_⟩
    · rw [Expr.mapAll_value, render]
    · rw [Expr.mapAll_value, render, hs]
    · simp [Expr.occurrences]
  | reference path =>
    have hone : (Expr.reference path).occurrences scopes = [⟨scopes, path⟩] := by
      simp [Expr.occurrences]
    rw [hone] at hle ⊢
    refine ⟨_, _, ?_, ?_, hle _ (List.mem_singleton_self _), ?_⟩
    · rw [Expr.mapAll_reference, render]
    · rw [Expr.mapAll_reference, render]
    · simp
  | @call name args hn _ ih =>
    have hocc : (Expr.call name args).occurrences scopes =
        args.flatMap (Expr.occurrences scopes) := by
      rw [Expr.occurrences, Expr.occurrencesOfAll_eq]
    rw [hocc] at hle ⊢
    obtain ⟨ss, ts, hss, hts, hall⟩ := renderArguments_narrower fun e he =>
      ih e he scopes fun o ho => hle o (List.mem_flatMap.2 ⟨e, he, ho⟩)
    refine ⟨_, _, ?_, ?_, ((hall.joined ",").between (name ++ "(") ")").of_iff ?_⟩
    · rw [Expr.mapAll_call, render_call hn hss]
    · rw [Expr.mapAll_call, render_call hn hts]
    · simp only [List.mem_flatMap]
      constructor
      · rintro h o ⟨e, he, ho⟩
        exact h e he o ho
      · exact fun h e he o ho => h o ⟨e, he, ho⟩
  | @lambda collection name var body hn _ ih =>
    rw [Expr.occurrences_lambda hn] at hle ⊢
    obtain ⟨s, t, hs, ht, hst⟩ := ih (var :: scopes) fun o ho => hle o (by simp [ho])
    have hbefore : Narrower _ ((Occurrence.mk scopes collection).renameAll fs).path
        ((Occurrence.mk scopes collection).renameAll gs).path := ⟨hle _ (by simp), Iff.rfl⟩
    refine ⟨_, _, ?_, ?_,
      ((hbefore.append (.refl ("/" ++ name ++ "(" ++ var ++ ":"))).append
        (hst.append (.refl ")"))).of_iff (by simp)⟩
    · rw [Expr.mapAll_lambda fs hn, Expr.mapAll_reference, render_lambda ha.left hn hs]
    · rw [Expr.mapAll_lambda gs hn, Expr.mapAll_reference, render_lambda ha.right hn ht]
  | @method caller name args hl hn _ _ ihc iha =>
    rw [Expr.occurrences_method hl] at hle ⊢
    obtain ⟨s, t, hs, ht, hst⟩ := ihc scopes fun o ho => hle o (by simp [ho])
    obtain ⟨ss, ts, hss, hts, hall⟩ := renderArguments_narrower fun e he =>
      iha e he scopes fun o ho => hle o
        (List.mem_append_right _ (List.mem_flatMap.2 ⟨e, he, ho⟩))
    have hparts := (NarrowerAll.cons hst hall).joined ","
    refine ⟨_, _, ?_, ?_, (hparts.between (name ++ "(") ")").of_iff ?_⟩
    · rw [Expr.mapAll_method fs hl, render_method ((Expr.isLambdaCall_mapAll _ _ _ _ _).trans hl)
        hn hs hss]
    · rw [Expr.mapAll_method gs hl, render_method ((Expr.isLambdaCall_mapAll _ _ _ _ _).trans hl)
        hn ht hts]
    · simp only [List.mem_append, List.mem_flatMap]
      constructor
      · rintro ⟨h, h'⟩ o (ho | ⟨e, he, ho⟩)
        · exact h o ho
        · exact h' e he o ho
      · exact fun h => ⟨fun o ho => h o (Or.inl ho), fun e he o ho => h o (Or.inr ⟨e, he, ho⟩)⟩
  | @binary op left right ho _ _ ihl ihr =>
    rw [Expr.occurrences] at hle ⊢
    obtain ⟨s, t, hs, ht, hst⟩ := ihl scopes fun o ho => hle o (by simp [ho])
    obtain ⟨u, v, hu, hv, huv⟩ := ihr scopes fun o ho => hle o (by simp [ho])
    have hoperator : ∀ e : Expr, (e.mapAll gs scopes).operator = (e.mapAll fs scopes).operator :=
      fun e => by rw [Expr.operator_mapAll, Expr.operator_mapAll]
    have hl := narrower_bracketed op.precedence hst (hoperator left)
    have hr := narrower_bracketed op.rightMinimum huv (hoperator right)
    refine ⟨_, _, ?_, ?_, ((hl.append (.refl (" " ++ op.keyword ++ " "))).append hr).of_iff ?_⟩
    · rw [Expr.mapAll_binary, render_binary ho hs hu]
    · rw [Expr.mapAll_binary, render_binary ho ht hv]
    · simp only [List.mem_append, and_true]
      exact ⟨fun h o => Or.rec (h.1 o) (h.2 o),
        fun h => ⟨fun o ho => h o (Or.inl ho), fun o ho => h o (Or.inr ho)⟩⟩
  | @unary op operand _ ih =>
    rw [Expr.occurrences] at hle ⊢
    obtain ⟨s, t, hs, ht, hst⟩ := ih scopes hle
    have hoperator : (operand.mapAll gs scopes).operator = (operand.mapAll fs scopes).operator := by
      rw [Expr.operator_mapAll, Expr.operator_mapAll]
    refine ⟨_, _, ?_, ?_, narrower_unaryText op (narrower_bracketed op.precedence hst hoperator)⟩
    · rw [Expr.mapAll_unary, render, hs]
      rfl
    · rw [Expr.mapAll_unary, render, ht]
      rfl

end Renderer

end ODataClient
