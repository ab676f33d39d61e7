import ODataClient.Proofs.Expr.Assignments
import ODataClient.Proofs.Expr.Parentheses

/-! Trees of operators with the arguments of their calls, and the texts that they are written as.
Each argument of a call is a text of its own and is read by itself. Two parentheses that match can
be taken out at any depth, and then the text is read as another tree if it had no more parentheses
than its tree needs. -/

namespace ODataClient

section

variable {α β γ : Type}

theorem mapM_eq_some_iff {f : α → Option β} {l : List α} {bs : List β} :
    l.mapM f = some bs ↔ List.Forall₂ (fun a b => f a = some b) l bs := by
  induction l generalizing bs with
  | nil => simp [eq_comm]
  | cons a l ih =>
    rw [List.mapM_cons, Option.bind_eq_bind, Option.bind_eq_some_iff]
    constructor
    · rintro ⟨b, hb, h⟩
      obtain ⟨cs, hcs, he⟩ := Option.bind_eq_some_iff.1 h
      obtain rfl := Option.some.inj he
      exact .cons hb (ih.1 hcs)
    · rintro (_ | ⟨hb, hbs⟩)
      exact ⟨_, hb, Option.bind_eq_some_iff.2 ⟨_, ih.2 hbs, rfl⟩⟩

theorem isSome_mapM {f : α → Option β} {l : List α} :
    (l.mapM f).isSome ↔ ∀ a ∈ l, (f a).isSome := by
  induction l with
  | nil => simp
  | cons a l ih =>
    rw [List.forall_mem_cons, ← ih, List.mapM_cons]
    cases f a with
    | none => simp
    | some b => cases l.mapM f <;> simp

theorem foldr_add_le {f : α → Nat} {g : β → Nat} {l : List α} {r : List β}
    (h : List.Forall₂ (fun a b => f a ≤ g b) l r) :
    l.foldr (fun a n => f a + n) 0 ≤ r.foldr (fun b n => g b + n) 0 := by
  induction h with
  | nil => exact Nat.le_refl _
  | cons hab h ih => exact Nat.add_le_add hab ih

namespace Formula

theorem atoms_map (f : α → β) (t : Formula α) : (t.map f).atoms = t.atoms.map f := by
  induction t with
  | atom a => rfl
  | binary op left right hl hr => simp only [map, atoms, hl, hr, List.map_append]
  | unary op operand ih => simp only [map, atoms, ih]

theorem operand_mem_bracketed {min : Nat} {t : Formula α} {ks : List (Token α)} {a : α} :
    .operand a ∈ bracketed min t ks ↔ .operand a ∈ ks := by
  rw [bracketed]
  split <;> simp

theorem operand_mem_tokens {t : Formula α} {a : α} : .operand a ∈ t.tokens ↔ a ∈ t.atoms := by
  induction t with
  | atom b => simp [tokens, atoms]
  | binary op left right hl hr => simp [tokens, atoms, operand_mem_bracketed, hl, hr]
  | unary op operand ih => simp [tokens, atoms, operand_mem_bracketed, ih]

theorem proper_of_mem_bracketed {min : Nat} {t : Formula α} {ks : List (Token α)}
    (h : ∀ k ∈ ks, k.Proper) : ∀ k ∈ bracketed min t ks, k.Proper := by
  intro k hk
  rw [bracketed] at hk
  split at hk
  · simp only [List.cons_append, List.mem_cons, List.mem_append, List.not_mem_nil, or_false] at hk
    rcases hk with rfl | hk | rfl
    · trivial
    · exact h k hk
    · trivial
  · exact h k hk

theorem proper_of_mem_tokens {t : Formula α} (ht : t.WellFormed) : ∀ k ∈ t.tokens, k.Proper := by
  induction t with
  | atom a => exact List.forall_mem_singleton.2 trivial
  | binary op left right hl hr =>
    obtain ⟨hop, hleft, hright⟩ := ht
    exact List.forall_mem_append.2 ⟨proper_of_mem_bracketed (hl hleft),
      List.forall_mem_cons.2 ⟨hop, proper_of_mem_bracketed (hr hright)⟩⟩
  | unary op operand ih =>
    exact List.forall_mem_cons.2 ⟨ht.1, proper_of_mem_bracketed (ih ht.2)⟩

theorem needed_map (w : β → Nat) (f : α → β) (t : Formula α) :
    (t.map f).needed w = t.needed (w ∘ f) := by
  induction t with
  | atom a => rfl
  | binary op left right hl hr => simp only [map, needed, hl, hr, precedence_map]
  | unary op operand ih => simp only [map, needed, ih, precedence_map]

theorem needed_mono {w v : α → Nat} {t : Formula α} (h : ∀ a ∈ t.atoms, w a ≤ v a) :
    t.needed w ≤ t.needed v := by
  induction t with
  | atom a => exact h a List.mem_cons_self
  | binary op left right hl hr =>
    obtain ⟨hleft, hright⟩ := List.forall_mem_append.1 h
    exact Nat.add_le_add_right (Nat.add_le_add_right (Nat.add_le_add (hl hleft) (hr hright)) _) _
  | unary op operand ih => exact Nat.add_le_add_right (ih h) _

end Formula

namespace Token

theorem openings_map (w : β → Nat) (f : α → β) (ks : List (Token α)) :
    openings w (ks.map (map f)) = openings (w ∘ f) ks := by
  induction ks with
  | nil => rfl
  | cons k ks ih => cases k <;> simp only [List.map_cons, map, openings, ih, Function.comp]

theorem openings_mono {w v : α → Nat} {ks : List (Token α)}
    (h : ∀ a, operand a ∈ ks → w a ≤ v a) : openings w ks ≤ openings v ks := by
  induction ks with
  | nil => exact Nat.le_refl _
  | cons k ks ih =>
    have ih := ih fun a ha => h a (List.mem_cons_of_mem _ ha)
    cases k with
    | operand a => exact Nat.add_le_add (h a List.mem_cons_self) ih
    | opening => exact Nat.succ_le_succ ih
    | _ => exact ih

theorem awaits_map (f : α → β) (awaited : Bool) (ks : List (Token α)) :
    awaits awaited (ks.map (map f)) = awaits awaited ks := by
  induction ks generalizing awaited with
  | nil => rfl
  | cons k ks ih => cases awaited <;> cases k <;> simp only [List.map_cons, map, awaits, ih]

theorem depth_map (f : α → β) (d : Nat) (ks : List (Token α)) :
    depth d (ks.map (map f)) = depth d ks := by
  induction ks generalizing d with
  | nil => cases d <;> rfl
  | cons k ks ih =>
    cases k with
    | closing => cases d <;> simp only [List.map_cons, map, depth, ih]
    | _ => simp only [List.map_cons, map, depth, ih]

theorem map_congr {f g : α → β} {ks : List (Token α)} (h : ∀ a, operand a ∈ ks → f a = g a) :
    ks.map (map f) = ks.map (map g) := by
  refine List.map_congr_left fun k hk => ?_
  cases k with
  | operand a => exact congrArg operand (h a hk)
  | _ => rfl

theorem proper_map (f : α → β) (k : Token α) : (k.map f).Proper ↔ k.Proper := by
  cases k <;> exact Iff.rfl

/-- The tokens, when all of their operands are there. -/
def all? : List (Token (Option α)) → Option (List (Token α))
  | [] => some []
  | operand a :: ks => a.bind fun a => (all? ks).map (operand a :: ·)
  | joint op :: ks => (all? ks).map (joint op :: ·)
  | sign op :: ks => (all? ks).map (sign op :: ·)
  | opening :: ks => (all? ks).map (opening :: ·)
  | closing :: ks => (all? ks).map (closing :: ·)

theorem all?_map {f : α → Option β} {g : α → β} {ks : List (Token α)}
    (h : ∀ a, operand a ∈ ks → f a = some (g a)) :
    all? (ks.map (map f)) = some (ks.map (map g)) := by
  induction ks with
  | nil => rfl
  | cons k ks ih =>
    have ih := ih fun a ha => h a (List.mem_cons_of_mem _ ha)
    cases k with
    | operand a => simp [map, all?, ih, h a List.mem_cons_self]
    | _ => simp [map, all?, ih]

theorem notMem_of_all? {ks : List (Token (Option α))} (h : (all? ks).isSome) :
    operand none ∉ ks := by
  induction ks with
  | nil => exact List.not_mem_nil
  | cons k ks ih =>
    rw [List.mem_cons, not_or]
    cases k with
    | operand a =>
      cases a with
      | none => simp [all?] at h
      | some a => exact ⟨by simp, ih (by simpa [all?] using h)⟩
    | _ => exact ⟨by simp, ih (by simpa [all?] using h)⟩

end Token

end

/-- What stands between the operators of a tree: a leaf, or a call between its head and tail. -/
inductive Term
  | leaf (text : String)
  | call (head : String) (arguments : List (Formula Term)) (tail : String)

/-- A term as it is written. -/
inductive Script
  | leaf (text : String)
  | call (head : String) (arguments : List (List (Token Script))) (tail : String)

namespace Term

variable {β : Type}

mutual

def fold (leaf : String → β) (call : String → List (Formula β) → String → β) : Term → β
  | .leaf text => leaf text
  | .call head arguments tail => call head (foldAll leaf call arguments) tail

def foldAll (leaf : String → β) (call : String → List (Formula β) → String → β) :
    List (Formula Term) → List (Formula β)
  | [] => []
  | t :: r => foldFormula leaf call t :: foldAll leaf call r

def foldFormula (leaf : String → β) (call : String → List (Formula β) → String → β) :
    Formula Term → Formula β
  | .atom a => .atom (fold leaf call a)
  | .binary op left right => .binary op (foldFormula leaf call left) (foldFormula leaf call right)
  | .unary op operand => .unary op (foldFormula leaf call operand)

end

theorem foldFormula_eq (leaf : String → β) (call : String → List (Formula β) → String → β)
    (t : Formula Term) : foldFormula leaf call t = t.map (fold leaf call) := by
  induction t with
  | atom a => rw [foldFormula, Formula.map]
  | binary op left right hl hr => rw [foldFormula, Formula.map, hl, hr]
  | unary op operand ih => rw [foldFormula, Formula.map, ih]

theorem fold_call (leaf : String → β) (call : String → List (Formula β) → String → β)
    (head : String) (args : List (Formula Term)) (tail : String) :
    fold leaf call (.call head args tail) =
      call head (args.map fun t => t.map (fold leaf call)) tail := by
  have hall : foldAll leaf call args = args.map fun t => t.map (fold leaf call) := by
    induction args with
    | nil => rw [foldAll, List.map_nil]
    | cons t r ih => rw [foldAll, ih, List.map_cons, foldFormula_eq]
  rw [fold, hall]

/-- How many operands need parentheses in the arguments of a term. -/
def needed : Term → Nat :=
  fold (fun _ => 0) fun _ args _ => args.foldr (fun t n => t.needed id + n) 0

def script : Term → Script := fold .leaf fun head args tail => .call head (args.map (·.tokens)) tail

/-- The operators in the arguments of a term stand where they can. -/
inductive Proper : Term → Prop
  | leaf (text : String) : Proper (.leaf text)
  | call (head : String) (args : List (Formula Term)) (tail : String)
      (shape : ∀ t ∈ args, t.WellFormed) (atoms : ∀ t ∈ args, ∀ a ∈ t.atoms, Proper a) :
      Proper (.call head args tail)

end Term

namespace Script

variable {β : Type}

mutual

def fold (leaf : String → β) (call : String → List (List (Token β)) → String → β) : Script → β
  | .leaf text => leaf text
  | .call head arguments tail => call head (foldAll leaf call arguments) tail

def foldAll (leaf : String → β) (call : String → List (List (Token β)) → String → β) :
    List (List (Token Script)) → List (List (Token β))
  | [] => []
  | ks :: r => foldTokens leaf call ks :: foldAll leaf call r

def foldTokens (leaf : String → β) (call : String → List (List (Token β)) → String → β) :
    List (Token Script) → List (Token β)
  | [] => []
  | k :: ks => foldToken leaf call k :: foldTokens leaf call ks

def foldToken (leaf : String → β) (call : String → List (List (Token β)) → String → β) :
    Token Script → Token β
  | .operand s => .operand (fold leaf call s)
  | .joint op => .joint op
  | .sign op => .sign op
  | .opening => .opening
  | .closing => .closing

end

theorem foldTokens_eq (leaf : String → β) (call : String → List (List (Token β)) → String → β)
    (ks : List (Token Script)) : foldTokens leaf call ks = ks.map (Token.map (fold leaf call)) := by
  induction ks with
  | nil => rw [foldTokens, List.map_nil]
  | cons k ks ih => cases k <;> rw [foldTokens, foldToken, ih, List.map_cons, Token.map]

theorem fold_call (leaf : String → β) (call : String → List (List (Token β)) → String → β)
    (head : String) (args : List (List (Token Script))) (tail : String) :
    fold leaf call (.call head args tail) =
      call head (args.map fun ks => ks.map (Token.map (fold leaf call))) tail := by
  have hall : foldAll leaf call args = args.map fun ks => ks.map (Token.map (fold leaf call)) := by
    induction args with
    | nil => rw [foldAll, List.map_nil]
    | cons ks r ih => rw [foldAll, ih, List.map_cons, foldTokens_eq]
  rw [fold, hall]

def text : Script → String :=
  fold id fun head args tail => head ++ String.intercalate "," (args.map (Token.spelled id)) ++ tail

/-- The opening parentheses of the arguments, at any depth; those of the calls do not count. -/
def openings : Script → Nat :=
  fold (fun _ => 0) fun _ args _ => args.foldr (fun ks n => Token.openings id ks + n) 0

/-- The term that a script is read as: each argument is read by itself. -/
def read : Script → Option Term :=
  fold (fun text => some (.leaf text)) fun head args tail =>
    (args.mapM fun ks => (Token.all? ks).bind Reader.read).map (.call head · tail)

/-- The operators in the arguments of a script have the levels of their places. -/
inductive Proper : Script → Prop
  | leaf (text : String) : Proper (.leaf text)
  | call (head : String) (args : List (List (Token Script))) (tail : String)
      (tokens : ∀ ks ∈ args, ∀ k ∈ ks, k.Proper)
      (operands : ∀ ks ∈ args, ∀ s, .operand s ∈ ks → Proper s) : Proper (.call head args tail)

end Script

/-- A text in tokens whose operands may have arguments of their own. -/
abbrev Wording : Type := List (Token Script)

namespace Wording

def text (ks : Wording) : String := Token.spelled Script.text ks

def openings (ks : Wording) : Nat := Token.openings Script.openings ks

def read (ks : Wording) : Option (Formula Term) :=
  (Token.all? (ks.map (Token.map Script.read))).bind Reader.read

def Proper (ks : Wording) : Prop := ∀ k ∈ ks, k.Proper ∧ ∀ s, k = .operand s → s.Proper

end Wording

def Term.written (t : Formula Term) : Wording := (t.map Term.script).tokens

namespace Term

variable {head tail : String} {args : List (Formula Term)}

theorem needed_call :
    (call head args tail).needed = args.foldr (fun t n => t.needed needed + n) 0 := by
  rw [needed, fold_call, List.foldr_map]
  simp only [Formula.needed_map]
  rfl

theorem script_call : (call head args tail).script = .call head (args.map written) tail := by
  rw [script, fold_call, List.map_map]
  rfl

end Term

namespace Script

variable {head tail : String} {args : List Wording}

theorem text_call : (call head args tail).text =
    head ++ String.intercalate "," (args.map Wording.text) ++ tail := by
  have hspelled : ∀ ks : Wording,
      Token.spelled id (ks.map (Token.map text)) = Wording.text ks := fun ks => by
    rw [Token.spelled_map]
    rfl
  rw [text, fold_call, List.map_map]
  exact congrArg (fun l => head ++ String.intercalate "," l ++ tail)
    (List.map_congr_left fun ks _ => hspelled ks)

theorem openings_call :
    (call head args tail).openings = args.foldr (fun ks n => Wording.openings ks + n) 0 := by
  rw [openings, fold_call, List.foldr_map]
  simp only [Token.openings_map]
  rfl

theorem read_call :
    (call head args tail).read = (args.mapM Wording.read).map (.call head · tail) := by
  rw [read, fold_call, List.mapM_map]
  rfl

theorem proper_call_iff : (call head args tail).Proper ↔ ∀ ks ∈ args, Wording.Proper ks := by
  constructor
  · rintro (_ | ⟨_, _, _, tokens, operands⟩) ks hks k hk
    exact ⟨tokens ks hks k hk, fun s hs => operands ks hks s (hs ▸ hk)⟩
  · exact fun h => .call head args tail (fun ks hks k hk => (h ks hks k hk).1)
      fun ks hks s hs => (h ks hks _ hs).2 s rfl

theorem isSome_read_call :
    (call head args tail).read.isSome ↔ ∀ ks ∈ args, (Wording.read ks).isSome := by
  rw [read_call, Option.isSome_map, isSome_mapM]

end Script

namespace Wording

variable {ks : Wording} {t : Formula Term}

theorem read_of_terms {f : Script → Term} (h : ∀ s, .operand s ∈ ks → s.read = some (f s)) :
    read ks = Reader.read (ks.map (Token.map f)) := by
  rw [read, Token.all?_map h]
  rfl

theorem exists_terms (h : ∀ s, Token.operand s ∈ ks → s.read.isSome) :
    ∃ f : Script → Term, ∀ s, .operand s ∈ ks → s.read = some (f s) := by
  refine ⟨fun s => s.read.getD (.leaf ""), fun s hs => ?_⟩
  obtain ⟨a, ha⟩ := Option.isSome_iff_exists.1 (h s hs)
  have hget : s.read.getD (.leaf "") = a := by rw [ha, Option.getD_some]
  exact ha.trans (congrArg some hget.symm)

theorem isSome_of_read (h : (read ks).isSome) {s : Script} (hs : .operand s ∈ ks) :
    s.read.isSome := by
  by_contra hn
  refine Token.notMem_of_all? (Option.isSome_of_isSome_bind h) (List.mem_map.2 ⟨_, hs, ?_⟩)
  rw [Token.map, Option.not_isSome_iff_eq_none.1 hn]

/-- A text can be read when each of its operands can, and when operands, operators and parentheses
stand where they can. -/
theorem isSome_read : (read ks).isSome ↔ (∀ s, .operand s ∈ ks → s.read.isSome) ∧
    Token.awaits true ks = some false ∧ Token.depth 0 ks = some 0 := by
  have hread : ∀ h : ∀ s, Token.operand s ∈ ks → s.read.isSome, (read ks).isSome ↔
      Token.awaits true ks = some false ∧ Token.depth 0 ks = some 0 := by
    intro h
    obtain ⟨f, hf⟩ := exists_terms h
    rw [read_of_terms hf, Reader.isSome_read, Token.awaits_map, Token.depth_map]
  constructor
  · intro h
    have hoperands : ∀ s, Token.operand s ∈ ks → s.read.isSome := fun s => isSome_of_read h
    exact ⟨hoperands, (hread hoperands).1 h⟩
  · exact fun ⟨hoperands, h⟩ => (hread hoperands).2 h

theorem needed_of_read (hp : ∀ k ∈ ks, k.Proper)
    (ho : ∀ s, .operand s ∈ ks → ∀ a, s.read = some a → a.needed ≤ s.openings)
    (h : read ks = some t) : t.needed Term.needed ≤ openings ks := by
  have hsome : (read ks).isSome := Option.isSome_iff_exists.2 ⟨t, h⟩
  obtain ⟨f, hf⟩ := exists_terms fun s => isSome_of_read hsome
  rw [read_of_terms hf] at h
  have hproper : ∀ k ∈ ks.map (Token.map f), k.Proper :=
    List.forall_mem_map.2 fun k hk => (Token.proper_map f k).2 (hp k hk)
  have hle := Reader.needed_le_openings (w := Term.needed) hproper h
  rw [Token.openings_map] at hle
  exact Nat.le_trans hle (Token.openings_mono fun s hs => ho s hs _ (hf s hs))

end Wording

theorem Script.needed_of_read {s : Script} (hs : s.Proper) {a : Term} (h : s.read = some a) :
    a.needed ≤ s.openings := by
  induction hs generalizing a with
  | leaf text =>
    obtain rfl := Option.some.inj h
    exact Nat.le_refl _
  | call head args tail tokens operands ih =>
    rw [read_call] at h
    obtain ⟨ts, hts, rfl⟩ := Option.map_eq_some_iff.1 h
    have hbound : ∀ ks ∈ args, ∀ t, Wording.read ks = some t →
        t.needed Term.needed ≤ Wording.openings ks := fun ks hks t =>
      Wording.needed_of_read (tokens ks hks) fun s hs a => ih ks hks s hs
    have hle := ((List.forall₂_and_left args ts).2 ⟨hbound, mapM_eq_some_iff.1 hts⟩).imp
      fun ks t h => h.1 t h.2
    rw [Term.needed_call, openings_call]
    exact foldr_add_le (List.Forall₂.flip hle)

namespace Wording

variable {ks ls : Wording} {t : Formula Term}

/-- A text has the parentheses that the tree needs that it is read as. -/
theorem needed_le_openings (hp : Proper ks) (h : read ks = some t) :
    t.needed Term.needed ≤ openings ks :=
  needed_of_read (fun k hk => (hp k hk).1)
    (fun s hs _ => Script.needed_of_read ((hp _ hs).2 s rfl)) h

/-- `Unbracketed ks ls`: the text `ls` is `ks` without one opening parenthesis and the closing one
that matches it, between the operators or in an argument. -/
inductive Unbracketed : Wording → Wording → Prop
  | here (before ks after : Wording) (balanced : Token.Balanced ks) :
      Unbracketed (before ++ .opening :: ks ++ .closing :: after) (before ++ ks ++ after)
  | inside (before after : Wording) (head tail : String) (first rest : List Wording)
      {ks ls : Wording} (argument : Unbracketed ks ls) :
      Unbracketed (before ++ .operand (.call head (first ++ ks :: rest) tail) :: after)
        (before ++ .operand (.call head (first ++ ls :: rest) tail) :: after)

theorem Unbracketed.openings_eq (h : Unbracketed ks ls) : openings ks = openings ls + 1 := by
  induction h with
  | here before ks after balanced =>
    simp only [openings, List.append_assoc, List.cons_append, Token.openings_append, Token.openings]
    omega
  | @inside before after head tail first rest ks ls argument ih =>
    have hfold : ∀ n, first.foldr (fun ks n => openings ks + n) (n + 1) =
        first.foldr (fun ks n => openings ks + n) n + 1 := by
      intro n
      induction first with
      | nil => rfl
      | cons k first ih => rw [List.foldr_cons, List.foldr_cons, ih, Nat.add_assoc]
    have hcall : (Script.call head (first ++ ks :: rest) tail).openings =
        (Script.call head (first ++ ls :: rest) tail).openings + 1 := by
      rw [Script.openings_call, Script.openings_call, List.foldr_append, List.foldr_append,
        List.foldr_cons, List.foldr_cons, ih, Nat.add_right_comm, hfold]
    simp only [openings, Token.openings_append, Token.openings, hcall]
    omega

theorem Unbracketed.proper (h : Unbracketed ks ls) (hp : Proper ks) : Proper ls := by
  induction h with
  | here before ks after balanced =>
    intro k hk
    refine hp k ?_
    simp only [List.mem_append, List.mem_cons] at hk ⊢
    tauto
  | @inside before after head tail first rest ks ls argument ih =>
    obtain ⟨hbefore, hcall⟩ := List.forall_mem_append.1 hp
    obtain ⟨hcall, hafter⟩ := List.forall_mem_cons.1 hcall
    obtain ⟨hfirst, hrest⟩ := List.forall_mem_append.1 (Script.proper_call_iff.1 (hcall.2 _ rfl))
    obtain ⟨hks, hrest⟩ := List.forall_mem_cons.1 hrest
    have hargs : ∀ ms ∈ first ++ ls :: rest, Proper ms :=
      List.forall_mem_append.2 ⟨hfirst, List.forall_mem_cons.2 ⟨ih hks, hrest⟩⟩
    refine List.forall_mem_append.2 ⟨hbefore, List.forall_mem_cons.2 ⟨⟨trivial, ?_⟩, hafter⟩⟩
    rintro _ ⟨⟩
    exact Script.proper_call_iff.2 hargs

/-- A text can still be read without the two parentheses. -/
theorem Unbracketed.isSome_read (h : Unbracketed ks ls) (hr : (read ks).isSome) :
    (read ls).isSome := by
  induction h with
  | here before ks after balanced =>
    obtain ⟨hoperands, hawaits, hdepth⟩ := Wording.isSome_read.1 hr
    rw [Token.depth_unbracketed balanced] at hdepth
    refine Wording.isSome_read.2 ⟨fun s hs => hoperands s ?_, Token.awaits_unbracketed hawaits, hdepth⟩
    simp only [List.mem_append, List.mem_cons] at hs ⊢
    tauto
  | @inside before after head tail first rest ks ls argument ih =>
    obtain ⟨hoperands, hawaits, hdepth⟩ := Wording.isSome_read.1 hr
    have hcall : ∀ ms ∈ first ++ ks :: rest, (read ms).isSome :=
      Script.isSome_read_call.1 (hoperands (.call head _ tail) (by simp))
    obtain ⟨hfirst, hrest⟩ := List.forall_mem_append.1 hcall
    obtain ⟨hks, hrest⟩ := List.forall_mem_cons.1 hrest
    have hargs : ∀ ms ∈ first ++ ls :: rest, (read ms).isSome :=
      List.forall_mem_append.2 ⟨hfirst, List.forall_mem_cons.2 ⟨ih hks, hrest⟩⟩
    have hshape : (before ++ .operand (.call head (first ++ ls :: rest) tail) :: after).map
          (Token.map fun _ => ()) =
        (before ++ .operand (.call head (first ++ ks :: rest) tail) :: after).map
          (Token.map fun _ => ()) := by simp [Token.map]
    refine Wording.isSome_read.2 ⟨fun s hs => ?_, ?_, ?_⟩
    · rcases List.mem_append.1 hs with hs | hs
      · exact hoperands s (List.mem_append_left _ hs)
      · rcases List.mem_cons.1 hs with hs | hs
        · obtain rfl := Token.operand.inj hs
          exact Script.isSome_read_call.2 hargs
        · exact hoperands s (List.mem_append_right _ (List.mem_cons_of_mem _ hs))
    · rwa [← Token.awaits_map fun _ => (), hshape, Token.awaits_map]
    · rwa [← Token.depth_map fun _ => (), hshape, Token.depth_map]

theorem exists_intercalate (sep : String) (first rest : List String) :
    ∃ before after : String, ∀ s : String,
      String.intercalate sep (first ++ s :: rest) = before ++ s ++ after := by
  induction first with
  | nil =>
    by_cases hr : rest = []
    · exact ⟨"", "", fun s => by simp [hr]⟩
    · refine ⟨"", sep ++ String.intercalate sep rest, fun s => ?_⟩
      rw [List.nil_append, String.intercalate_cons_of_ne_nil hr, String.empty_append,
        String.append_assoc]
  | cons t first ih =>
    obtain ⟨before, after, h⟩ := ih
    refine ⟨t ++ sep ++ before, after, fun s => ?_⟩
    rw [List.cons_append, String.intercalate_cons_of_ne_nil (by simp), h]
    simp only [String.append_assoc]

/-- Of the characters of the text only the two parentheses are gone. -/
theorem Unbracketed.text_eq (h : Unbracketed ks ls) : ∃ before inner after : String,
    text ks = before ++ "(" ++ inner ++ ")" ++ after ∧ text ls = before ++ inner ++ after := by
  induction h with
  | here before ks after balanced =>
    refine ⟨text before, text ks, text after, ?_, ?_⟩
    · simp [text, Token.spelled_append, Token.spelled, Token.text, String.append_assoc]
    · simp [text, Token.spelled_append, String.append_assoc]
  | @inside before after head tail first rest ks ls argument ih =>
    obtain ⟨a, b, c, hks, hls⟩ := ih
    obtain ⟨p, q, hpq⟩ := exists_intercalate "," (first.map text) (rest.map text)
    refine ⟨text before ++ head ++ p ++ a, b, c ++ q ++ tail ++ text after, ?_, ?_⟩
    all_goals
      simp only [text, Token.spelled_append, Token.spelled, Token.text, Script.text_call,
        List.map_append, List.map_cons] at hks hls hpq ⊢
      simp only [hpq, hks, hls, String.append_assoc]

/-- Without the two parentheses a text reads as none of the trees that need as many as it had. -/
theorem Unbracketed.read_ne (h : Unbracketed ks ls) (hp : Proper ks)
    (ht : openings ks ≤ t.needed Term.needed) : read ls ≠ some t := by
  intro hread
  have hle := needed_le_openings (h.proper hp) hread
  have heq := h.openings_eq
  omega

end Wording

namespace Term

variable {t : Formula Term}

theorem exists_of_operand_written {s : Script} (hs : .operand s ∈ written t) :
    ∃ a ∈ t.atoms, a.script = s := by
  rw [written, Formula.operand_mem_tokens, Formula.atoms_map] at hs
  exact List.mem_map.1 hs

/-- A term whose text is read as a term that needs all its parentheses, as it does itself. -/
structure Sparing (a : Term) : Prop where
  proper : a.script.Proper
  reads : a.script.read.isSome
  needed : a.script.openings ≤ a.needed
  needed_read (b : Term) : a.script.read = some b → a.script.openings ≤ b.needed

theorem proper_written (ht : t.WellFormed) (ha : ∀ a ∈ t.atoms, Sparing a) :
    Wording.Proper (written t) := by
  intro k hk
  refine ⟨Formula.proper_of_mem_tokens ((Formula.wellFormed_map _ t).2 ht) k hk, ?_⟩
  rintro s rfl
  obtain ⟨a, hmem, rfl⟩ := exists_of_operand_written hk
  exact (ha a hmem).proper

theorem openings_written_le (ha : ∀ a ∈ t.atoms, Sparing a) :
    Wording.openings (written t) ≤ t.needed Term.needed := by
  refine Nat.le_trans (Formula.openings_le_needed _) ?_
  rw [Formula.needed_map]
  exact Formula.needed_mono fun a hmem => (ha a hmem).needed

theorem read_written (ht : t.WellFormed) (ha : ∀ a ∈ t.atoms, Sparing a) :
    ∃ u, Wording.read (written t) = some u ∧ Wording.openings (written t) ≤ u.needed Term.needed := by
  have hreads : ∀ s, .operand s ∈ written t → s.read.isSome := by
    intro s hs
    obtain ⟨a, hmem, rfl⟩ := exists_of_operand_written hs
    exact (ha a hmem).reads
  obtain ⟨f, hf⟩ := Wording.exists_terms hreads
  have htokens : (written t).map (Token.map f) = ((t.map script).map f).tokens :=
    (Formula.tokens_map f _).symm
  have hwell : ((t.map script).map f).WellFormed :=
    (Formula.wellFormed_map _ _).2 ((Formula.wellFormed_map _ t).2 ht)
  refine ⟨((t.map script).map f).regroup, ?_, ?_⟩
  · rw [Wording.read_of_terms hf, htokens, Reader.read_tokens _ hwell]
  · refine Nat.le_trans ?_ (Formula.openings_le_regroup _)
    rw [← htokens, Token.openings_map]
    refine Token.openings_mono fun s hs => ?_
    obtain ⟨a, hmem, rfl⟩ := exists_of_operand_written hs
    exact (ha a hmem).needed_read _ (hf _ hs)

theorem Proper.sparing {a : Term} (ha : a.Proper) : Sparing a := by
  induction ha with
  | leaf text =>
    exact ⟨.leaf text, rfl, Nat.le_refl _, fun b _ => Nat.zero_le _⟩
  | call head args tail shape atoms ih =>
    have hread : ∀ t ∈ args, ∃ u, Wording.read (written t) = some u ∧
        Wording.openings (written t) ≤ u.needed Term.needed :=
      fun t ht => read_written (shape t ht) (ih t ht)
    constructor
    case proper =>
      rw [script_call]
      exact Script.proper_call_iff.2
        (List.forall_mem_map.2 fun t ht => proper_written (shape t ht) (ih t ht))
    case reads =>
      rw [script_call]
      refine Script.isSome_read_call.2 (List.forall_mem_map.2 fun t ht => ?_)
      obtain ⟨u, hu, -⟩ := hread t ht
      exact Option.isSome_iff_exists.2 ⟨u, hu⟩
    case needed =>
      rw [script_call, Script.openings_call, needed_call, List.foldr_map]
      exact foldr_add_le (List.forall₂_same.2 fun t ht => openings_written_le (ih t ht))
    case needed_read =>
      intro b hb
      rw [script_call, Script.read_call] at hb
      obtain ⟨us, hus, rfl⟩ := Option.map_eq_some_iff.1 hb
      have hbound : ∀ ks ∈ args.map written, ∀ u, Wording.read ks = some u →
          Wording.openings ks ≤ u.needed Term.needed := by
        refine List.forall_mem_map.2 fun t ht u hu => ?_
        obtain ⟨v, hv, hle⟩ := hread t ht
        obtain rfl := Option.some.inj (hu.symm.trans hv)
        exact hle
      have hle := ((List.forall₂_and_left _ us).2 ⟨hbound, mapM_eq_some_iff.1 hus⟩).imp
        fun ks u h => h.1 u h.2
      rw [script_call, Script.openings_call, needed_call]
      exact foldr_add_le hle

/-- Without one of its parentheses and the one that matches it, the text of a tree is read as
another tree than before, and not as the tree that it was written for either. -/
theorem read_unbracketed (ht : t.WellFormed) (ha : ∀ a ∈ t.atoms, a.Proper) :
    ∃ back, Wording.read (written t) = some back ∧
      ∀ ls, Wording.Unbracketed (written t) ls →
        ∃ back', Wording.read ls = some back' ∧ back' ≠ back ∧ back' ≠ t := by
  have hs : ∀ a ∈ t.atoms, Sparing a := fun a hmem => (ha a hmem).sparing
  have hp := proper_written ht hs
  obtain ⟨back, hback, hle⟩ := read_written ht hs
  refine ⟨back, hback, fun ls hls => ?_⟩
  obtain ⟨back', hback'⟩ := Option.isSome_iff_exists.1
    (hls.isSome_read (Option.isSome_iff_exists.2 ⟨back, hback⟩))
  refine ⟨back', hback', ?_, ?_⟩
  · rintro rfl
    exact hls.read_ne hp hle hback'
  · rintro rfl
    exact hls.read_ne hp (openings_written_le hs) hback'

end Term

end ODataClient
