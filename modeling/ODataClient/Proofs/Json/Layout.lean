import ODataClient.Json.Printer
import ODataClient.Json.Reader
import ODataClient.Proofs.Json.Numerals

/-! JSON texts with white space between their parts. The text in one line and the text on indented
lines are two layouts of the same parts. -/

namespace ODataClient.Json

theorem induction {P : Json → Prop} (null : P null) (bool : ∀ b, P (bool b))
    (integer : ∀ v, P (integer v)) (double : ∀ d, P (double d)) (string : ∀ s, P (string s))
    (array : ∀ items, (∀ x ∈ items, P x) → P (array items))
    (object : ∀ members, (∀ m ∈ members, P m.2) → P (object members)) (illFormed : P illFormed)
    (j : Json) : P j :=
  Json.rec null bool integer double string array object illFormed
    (fun _ hx => absurd hx List.not_mem_nil)
    (fun _ _ hx hr _ hm => (List.mem_cons.1 hm).elim (fun h => h ▸ hx) (hr _))
    (fun _ hm => absurd hm List.not_mem_nil)
    (fun _ _ hx hr _ hm => (List.mem_cons.1 hm).elim (fun h => h ▸ hx) (hr _))
    (fun _ _ hx => hx) j

/-- The white space before an item or a closing bracket at each level, and after a colon. -/
structure Layout where
  line : Nat → List Char
  gap : List Char
  line_blank (level : Nat) : ∀ c ∈ line level, isSpace c = true
  gap_blank : ∀ c ∈ gap, isSpace c = true

namespace Layout

def oneLine : Layout := ⟨fun _ => [], [], by simp, by simp⟩

def indented : Layout where
  line := newLine
  gap := [' ']
  line_blank level c hc := by
    rcases List.mem_cons.1 hc with rfl | hc
    · rfl
    · rw [List.eq_of_mem_replicate hc]
      rfl
  gap_blank c hc := by
    rw [List.mem_singleton.1 hc]
    rfl

mutual

def chars (L : Layout) (level : Nat) : Json → List Char
  | array [] => ['[', ']']
  | array (x :: r) =>
    '[' :: (L.line (level + 1) ++ (L.chars (level + 1) x ++ L.moreItems level r))
  | object [] => ['\x7b', '\x7d']
  | object ((k, x) :: r) =>
    '\x7b' :: (L.line (level + 1) ++ (stringChars k ++ ':' ::
      (L.gap ++ (L.chars (level + 1) x ++ L.moreMembers level r))))
  | j => scalarChars j

def moreItems (L : Layout) (level : Nat) : List Json → List Char
  | [] => L.line level ++ [']']
  | x :: r => ',' :: (L.line (level + 1) ++ (L.chars (level + 1) x ++ L.moreItems level r))

def moreMembers (L : Layout) (level : Nat) : List (String × Json) → List Char
  | [] => L.line level ++ ['\x7d']
  | (k, x) :: r =>
    ',' :: (L.line (level + 1) ++ (stringChars k ++ ':' ::
      (L.gap ++ (L.chars (level + 1) x ++ L.moreMembers level r))))

end

theorem compactMoreItems_eq {items : List Json} (level : Nat)
    (h : ∀ x ∈ items, ∀ level, compactChars x = oneLine.chars level x) :
    compactMoreItems items = oneLine.moreItems level items := by
  induction items with
  | nil => rfl
  | cons x r ih =>
    rw [compactMoreItems, moreItems, h x (by simp) (level + 1),
      ih fun y hy => h y (List.mem_cons_of_mem x hy)]
    rfl

theorem compactMoreMembers_eq {members : List (String × Json)} (level : Nat)
    (h : ∀ m ∈ members, ∀ level, compactChars m.2 = oneLine.chars level m.2) :
    compactMoreMembers members = oneLine.moreMembers level members := by
  induction members with
  | nil => rfl
  | cons m r ih =>
    rw [compactMoreMembers, moreMembers, h m (by simp) (level + 1),
      ih fun y hy => h y (List.mem_cons_of_mem m hy)]
    rfl

theorem compactChars_eq (j : Json) (level : Nat) : compactChars j = oneLine.chars level j := by
  induction j using Json.induction generalizing level with
  | array items ih =>
    cases items with
    | nil => rfl
    | cons x r =>
      rw [compactChars, compactItems, chars, ih x (by simp) (level + 1),
        compactMoreItems_eq level fun y hy => ih y (List.mem_cons_of_mem x hy)]
      rfl
  | object members ih =>
    cases members with
    | nil => rfl
    | cons m r =>
      rw [compactChars, compactMembers, chars, ih m (by simp) (level + 1),
        compactMoreMembers_eq level fun y hy => ih y (List.mem_cons_of_mem m hy)]
      rfl
  | _ => rfl

theorem prettyMoreItems_eq {items : List Json} (level : Nat)
    (h : ∀ x ∈ items, ∀ level, prettyChars level x = indented.chars level x) :
    prettyMoreItems level items = indented.moreItems level items := by
  induction items with
  | nil => rfl
  | cons x r ih =>
    rw [prettyMoreItems, moreItems, h x (by simp) (level + 1),
      ih fun y hy => h y (List.mem_cons_of_mem x hy)]
    rfl

theorem prettyMoreMembers_eq {members : List (String × Json)} (level : Nat)
    (h : ∀ m ∈ members, ∀ level, prettyChars level m.2 = indented.chars level m.2) :
    prettyMoreMembers level members = indented.moreMembers level members := by
  induction members with
  | nil => rfl
  | cons m r ih =>
    rw [prettyMoreMembers, moreMembers, h m (by simp) (level + 1),
      ih fun y hy => h y (List.mem_cons_of_mem m hy)]
    rfl

theorem prettyChars_eq (j : Json) (level : Nat) : prettyChars level j = indented.chars level j := by
  induction j using Json.induction generalizing level with
  | array items ih =>
    cases items with
    | nil => rfl
    | cons x r =>
      rw [prettyChars, chars, ih x (by simp) (level + 1),
        prettyMoreItems_eq level fun y hy => ih y (List.mem_cons_of_mem x hy)]
      rfl
  | object members ih =>
    cases members with
    | nil => rfl
    | cons m r =>
      rw [prettyChars, chars, ih m (by simp) (level + 1),
        prettyMoreMembers_eq level fun y hy => ih y (List.mem_cons_of_mem m hy)]
      rfl
  | _ => rfl

end Layout

end ODataClient.Json
