import ODataClient.Json.Record
import ODataClient.Proofs.Json.Layout
import ODataClient.Proofs.Json.Strings

/-! JSON texts read back. A tree without doubles whose integers fit into 64 bits is what its text
is read as, whatever white space stands between the parts, when its objects and arrays are nested
no deeper than the reader allows. -/

namespace ODataClient.Json

mutual

/-- There is no double in the tree and nothing ill-formed, and its integers fit into 64 bits. -/
def isExact : Json → Bool
  | integer v => fits64 v
  | double _ => false
  | illFormed => false
  | array items => isExactItems items
  | object members => isExactMembers members
  | _ => true

def isExactItems : List Json → Bool
  | [] => true
  | x :: r => x.isExact && isExactItems r

def isExactMembers : List (String × Json) → Bool
  | [] => true
  | (_, x) :: r => x.isExact && isExactMembers r

end

mutual

/-- How many objects and arrays stand around each other. -/
def nesting : Json → Nat
  | array items => nestingOfItems items + 1
  | object members => nestingOfMembers members + 1
  | _ => 0

def nestingOfItems : List Json → Nat
  | [] => 0
  | x :: r => max x.nesting (nestingOfItems r)

def nestingOfMembers : List (String × Json) → Nat
  | [] => 0
  | (_, x) :: r => max x.nesting (nestingOfMembers r)

end

@[simp] theorem isExact_string (s : String) : (string s).isExact = true := rfl

theorem isExact_array {items : List Json} :
    (array items).isExact = true ↔ ∀ x ∈ items, x.isExact = true := by
  rw [isExact]
  induction items with
  | nil => simp [isExactItems]
  | cons x r ih => simp [isExactItems, ih]

theorem isExact_object {members : List (String × Json)} :
    (object members).isExact = true ↔ ∀ m ∈ members, m.2.isExact = true := by
  rw [isExact]
  induction members with
  | nil => simp [isExactMembers]
  | cons m r ih =>
    rw [isExactMembers, Bool.and_eq_true, ih]
    simp

theorem nesting_array_le {items : List Json} {depth : Nat} :
    (array items).nesting ≤ depth ↔ 0 < depth ∧ ∀ x ∈ items, x.nesting ≤ depth - 1 := by
  have hi : ∀ {d}, nestingOfItems items ≤ d ↔ ∀ x ∈ items, x.nesting ≤ d := by
    intro d
    induction items with
    | nil => simp [nestingOfItems]
    | cons x r ih =>
      rw [nestingOfItems, Nat.max_le, ih]
      simp
  rw [nesting, ← hi]
  omega

theorem nesting_object_le {members : List (String × Json)} {depth : Nat} :
    (object members).nesting ≤ depth ↔ 0 < depth ∧ ∀ m ∈ members, m.2.nesting ≤ depth - 1 := by
  have hi : ∀ {d}, nestingOfMembers members ≤ d ↔ ∀ m ∈ members, m.2.nesting ≤ d := by
    intro d
    induction members with
    | nil => simp [nestingOfMembers]
    | cons m r ih =>
      rw [nestingOfMembers, Nat.max_le, ih]
      simp
  rw [nesting, ← hi]
  omega

theorem wellFormed_array {items : List Json} :
    (array items).wellFormed = true ↔ ∀ x ∈ items, x.wellFormed = true := by
  rw [wellFormed]
  induction items with
  | nil => simp [wellFormedItems]
  | cons x r ih => simp [wellFormedItems, ih]

theorem wellFormed_object {members : List (String × Json)} :
    (object members).wellFormed = true ↔ ∀ m ∈ members, m.2.wellFormed = true := by
  rw [wellFormed]
  induction members with
  | nil => simp [wellFormedMembers]
  | cons m r ih =>
    rw [wellFormedMembers, Bool.and_eq_true, ih]
    simp

theorem wellFormed_of_isExact {j : Json} (h : j.isExact = true) : j.wellFormed = true := by
  induction j using Json.induction with
  | array items ih => exact wellFormed_array.2 fun x hx => ih x hx (isExact_array.1 h x hx)
  | object members ih => exact wellFormed_object.2 fun m hm => ih m hm (isExact_object.1 h m hm)
  | double d => exact Bool.noConfusion h
  | illFormed => exact Bool.noConfusion h
  | _ => rfl

theorem skipSpace_append {w : List Char} (hw : ∀ c ∈ w, isSpace c = true) {c : Char}
    (hc : isSpace c = false) (s : List Char) : skipSpace (w ++ c :: s) = c :: s := by
  rw [skipSpace, List.dropWhile_append_of_pos hw, List.dropWhile_cons, hc]
  rfl

theorem skipSpace_cons {c : Char} (hc : isSpace c = false) (s : List Char) :
    skipSpace (c :: s) = c :: s := skipSpace_append (w := []) (by simp) hc s

theorem ends_of_isSpace {c : Char} (hc : isSpace c = true) (s : List Char) : Ends (c :: s) := by
  intro d h
  obtain rfl := Option.some.inj h
  simp only [isSpace, Bool.or_eq_true, beq_iff_eq] at hc
  rcases hc with ((rfl | rfl) | rfl) | rfl <;> decide

theorem ends_append {w s : List Char} (hw : ∀ c ∈ w, isSpace c = true) (hs : Ends s) :
    Ends (w ++ s) := by
  cases w with
  | nil => exact hs
  | cons c w => exact ends_of_isSpace (hw c List.mem_cons_self) (w ++ s)

/-- The tree is read from its text up to the end of the text, at every level and with white space
in front. -/
def Reads (L : Layout) (j : Json) : Prop :=
  ∀ ⦃level depth fuel : Nat⦄ ⦃w rest : List Char⦄, (∀ c ∈ w, isSpace c = true) → Ends rest →
    j.nesting ≤ depth → 3 * (L.chars level j).length ≤ fuel →
    readValue depth fuel (w ++ (L.chars level j ++ rest)) = some (j, rest)

variable {L : Layout}

/-- White space before a value is skipped. -/
theorem readValue_blank (depth fuel : Nat) {w : List Char} (hw : ∀ c ∈ w, isSpace c = true)
    (s : List Char) : readValue depth fuel (w ++ s) = readValue depth fuel s := by
  cases fuel with
  | zero => rw [readValue, readValue]
  | succ fuel =>
    have hs : skipSpace (w ++ s) = skipSpace s := by
      rw [skipSpace, List.dropWhile_append_of_pos hw, skipSpace]
    rw [readValue, readValue, hs]

theorem readWord_append (word : String) (j : Json) (rest : List Char) :
    readWord word j (word.toList ++ rest) = some (j, rest) := by
  have hp : word.toList.isPrefixOf (word.toList ++ rest) = true := by simp
  rw [readWord, if_pos hp, ← String.length_toList, List.drop_left]

theorem readValue_scalar {j : Json} (he : j.isExact = true) (hn : j.nesting = 0) (depth fuel : Nat)
    {rest : List Char} (hr : Ends rest) :
    readValue depth (fuel + 1) (scalarChars j ++ rest) = some (j, rest) := by
  cases j with
  | null =>
    have h := readWord_append "null" null rest
    simpa [scalarChars, readValue, skipSpace_cons, isSpace] using h
  | bool b =>
    cases b with
    | true =>
      have h := readWord_append "true" (bool true) rest
      simpa [scalarChars, readValue, skipSpace_cons, isSpace] using h
    | false =>
      have h := readWord_append "false" (bool false) rest
      simpa [scalarChars, readValue, skipSpace_cons, isSpace] using h
  | integer v =>
    have h := readNumeral_intText v hr
    obtain ⟨c, ds, hc, hne⟩ := exists_cons_intText v
    have hs : isSpace c = false := by
      simp [isSpace, hne ' ' (by decide) rfl, hne '\n' (by decide) rfl, hne '\t' (by decide) rfl,
        hne '\r' (by decide) rfl]
    rw [hc, List.cons_append] at h
    rw [scalarChars, hc, List.cons_append, readValue, skipSpace_cons hs]
    simp [hne '"' (by decide) rfl, hne '[' (by decide) rfl, hne '\x7b' (by decide) rfl,
      hne 'n' (by decide) rfl, hne 't' (by decide) rfl, hne 'f' (by decide) rfl, h,
      value_numeral he]
  | string text =>
    have h := readString_stringChars text rest
    simp [scalarChars, stringChars, readValue, skipSpace_cons, isSpace, h, ofString?]
  | double d => exact Bool.noConfusion he
  | illFormed => exact Bool.noConfusion he
  | array items => exact absurd hn (Nat.succ_ne_zero _)
  | object members => exact absurd hn (Nat.succ_ne_zero _)

theorem ends_moreItems (L : Layout) (level : Nat) (items : List Json) (rest : List Char) :
    Ends (L.moreItems level items ++ rest) := by
  cases items with
  | nil =>
    rw [Layout.moreItems, List.append_assoc]
    exact ends_append (L.line_blank level) fun c h => Option.some.inj h ▸ by decide
  | cons x r => exact fun c h => Option.some.inj h ▸ by decide

theorem ends_moreMembers (L : Layout) (level : Nat) (members : List (String × Json))
    (rest : List Char) : Ends (L.moreMembers level members ++ rest) := by
  cases members with
  | nil =>
    rw [Layout.moreMembers, List.append_assoc]
    exact ends_append (L.line_blank level) fun c h => Option.some.inj h ▸ by decide
  | cons m r => exact fun c h => Option.some.inj h ▸ by decide

section

variable {level depth fuel : Nat} {w rest : List Char}

theorem readRestItems_chars {x : Json} {r : List Json} (h : ∀ y ∈ x :: r, Reads L y)
    (hn : ∀ y ∈ x :: r, y.nesting ≤ depth) (hw : ∀ c ∈ w, isSpace c = true)
    (hf : 3 * ((L.chars (level + 1) x).length + (L.moreItems level r).length) ≤ fuel) :
    readRestItems depth fuel (w ++ (L.chars (level + 1) x ++ (L.moreItems level r ++ rest))) =
      some (x :: r, rest) := by
  induction r generalizing x fuel w with
  | nil =>
    have hl : (L.moreItems level []).length = (L.line level).length + 1 := by simp [Layout.moreItems]
    obtain ⟨fuel, rfl⟩ : ∃ k, fuel = k + 1 := ⟨fuel - 1, by omega⟩
    have hx : readValue depth fuel (w ++ (L.chars (level + 1) x ++ (L.moreItems level [] ++ rest))) =
        some (x, L.moreItems level [] ++ rest) :=
      h x (by simp) hw (ends_moreItems L level [] rest) (hn x (by simp)) (by omega)
    have hs : skipSpace (L.moreItems level [] ++ rest) = ']' :: rest := by
      rw [Layout.moreItems, List.append_assoc]
      exact skipSpace_append (L.line_blank level) rfl rest
    simp [readRestItems, hx, hs]
  | cons y r ih =>
    have hl : (L.moreItems level (y :: r)).length = (L.line (level + 1)).length +
        (L.chars (level + 1) y).length + (L.moreItems level r).length + 1 := by
      simp [Layout.moreItems]
      omega
    obtain ⟨fuel, rfl⟩ : ∃ k, fuel = k + 1 := ⟨fuel - 1, by omega⟩
    have hx : readValue depth fuel
        (w ++ (L.chars (level + 1) x ++ (L.moreItems level (y :: r) ++ rest))) =
          some (x, L.moreItems level (y :: r) ++ rest) :=
      h x (by simp) hw (ends_moreItems L level _ rest) (hn x (by simp)) (by omega)
    have hs : skipSpace (L.moreItems level (y :: r) ++ rest) = ',' :: (L.line (level + 1) ++
        (L.chars (level + 1) y ++ (L.moreItems level r ++ rest))) := by
      rw [Layout.moreItems]
      simp [skipSpace_cons, isSpace]
    have hrest : readRestItems depth fuel (L.line (level + 1) ++
        (L.chars (level + 1) y ++ (L.moreItems level r ++ rest))) = some (y :: r, rest) :=
      ih (fun z hz => h z (List.mem_cons_of_mem x hz)) (fun z hz => hn z (List.mem_cons_of_mem x hz))
        (L.line_blank (level + 1)) (by omega)
    simp [readRestItems, hx, hs, hrest]

theorem stringChars_append (name : String) (s : List Char) :
    stringChars name ++ s = '"' :: (name.toList.flatMap escapedChar ++ '"' :: s) := by
  simp [stringChars]

theorem skipSpace_stringChars (hw : ∀ c ∈ w, isSpace c = true) (name : String) (s : List Char) :
    skipSpace (w ++ (stringChars name ++ s)) = '"' :: (name.toList.flatMap escapedChar ++ '"' :: s) := by
  rw [stringChars_append]
  exact skipSpace_append hw rfl _

theorem readRestMembers_last {name : String} {v : Json} {s t : List Char}
    (hw : ∀ c ∈ w, isSpace c = true) (hv : readValue depth fuel s = some (v, t))
    (ht : skipSpace t = '\x7d' :: rest) :
    readRestMembers depth (fuel + 1) (w ++ (stringChars name ++ ':' :: s)) =
      some ([(some name, v)], rest) := by
  have hc : takeColon (skipSpace (':' :: s)) = some s := by rw [skipSpace_cons rfl, takeColon]
  simp [readRestMembers, skipSpace_stringChars hw, readString_stringChars, hc, hv, ht]

theorem readRestMembers_more {name : String} {v : Json} {s t u : List Char}
    {members : List (Option String × Json)} (hw : ∀ c ∈ w, isSpace c = true)
    (hv : readValue depth fuel s = some (v, t)) (ht : skipSpace t = ',' :: u)
    (hu : readRestMembers depth fuel u = some (members, rest)) :
    readRestMembers depth (fuel + 1) (w ++ (stringChars name ++ ':' :: s)) =
      some ((some name, v) :: members, rest) := by
  have hc : takeColon (skipSpace (':' :: s)) = some s := by rw [skipSpace_cons rfl, takeColon]
  simp [readRestMembers, skipSpace_stringChars hw, readString_stringChars, hc, hv, ht, hu]

theorem readRestMembers_chars {m : String × Json} {r : List (String × Json)}
    (h : ∀ y ∈ m :: r, Reads L y.2) (hn : ∀ y ∈ m :: r, y.2.nesting ≤ depth)
    (hw : ∀ c ∈ w, isSpace c = true)
    (hf : 3 * ((L.chars (level + 1) m.2).length + (L.moreMembers level r).length) ≤ fuel) :
    readRestMembers depth fuel (w ++ (stringChars m.1 ++ ':' :: (L.gap ++
        (L.chars (level + 1) m.2 ++ (L.moreMembers level r ++ rest))))) =
      some ((m :: r).map fun y => (some y.1, y.2), rest) := by
  induction r generalizing m fuel w with
  | nil =>
    have hl : (L.moreMembers level []).length = (L.line level).length + 1 := by
      simp [Layout.moreMembers]
    obtain ⟨fuel, rfl⟩ : ∃ k, fuel = k + 1 := ⟨fuel - 1, by omega⟩
    refine readRestMembers_last hw (h m (by simp) L.gap_blank (ends_moreMembers L level [] rest)
      (hn m (by simp)) (by omega)) ?_
    rw [Layout.moreMembers, List.append_assoc]
    exact skipSpace_append (L.line_blank level) rfl rest
  | cons y r ih =>
    have hl : (L.moreMembers level (y :: r)).length = (L.line (level + 1)).length +
        (stringChars y.1).length + L.gap.length + (L.chars (level + 1) y.2).length +
        (L.moreMembers level r).length + 2 := by
      simp [Layout.moreMembers]
      omega
    obtain ⟨fuel, rfl⟩ : ∃ k, fuel = k + 1 := ⟨fuel - 1, by omega⟩
    refine readRestMembers_more hw (h m (by simp) L.gap_blank (ends_moreMembers L level (y :: r) rest)
      (hn m (by simp)) (by omega)) ?_ (ih (fun z hz => h z (List.mem_cons_of_mem m hz))
        (fun z hz => hn z (List.mem_cons_of_mem m hz)) (L.line_blank (level + 1)) (by omega))
    rw [Layout.moreMembers]
    simp [skipSpace_cons, isSpace]

end

theorem ofMembers_some (members : List (String × Json)) :
    ofMembers (members.map fun m => (some m.1, m.2)) = object members := by
  have hm : (members.map fun m => ((some m.1 : Option String), m.2)).mapM
      (fun m : Option String × Json => m.1.map (·, m.2)) = some members := by
    induction members with
    | nil => rfl
    | cons m r ih => simp [ih]
  rw [ofMembers, hm]

theorem exists_cons_scalarChars {j : Json} (he : j.isExact = true) :
    ∃ c s, scalarChars j = c :: s ∧ isSpace c = false ∧ c ≠ ']' := by
  cases j with
  | bool b => cases b <;> exact ⟨_, _, rfl, rfl, by decide⟩
  | integer v =>
    obtain ⟨c, s, hc, hne⟩ := exists_cons_intText v
    refine ⟨c, s, hc, ?_, hne ']' (by decide) rfl⟩
    simp [isSpace, hne ' ' (by decide) rfl, hne '\n' (by decide) rfl, hne '\t' (by decide) rfl,
      hne '\r' (by decide) rfl]
  | double d => exact Bool.noConfusion he
  | _ => exact ⟨_, _, rfl, rfl, by decide⟩

theorem exists_cons_chars (L : Layout) (level : Nat) {j : Json} (he : j.isExact = true) :
    ∃ c s, L.chars level j = c :: s ∧ isSpace c = false ∧ c ≠ ']' := by
  cases j with
  | array items => cases items <;> exact ⟨_, _, rfl, rfl, by decide⟩
  | object members => cases members <;> exact ⟨_, _, rfl, rfl, by decide⟩
  | _ => exact exists_cons_scalarChars he

theorem reads_array {items : List Json} (he : ∀ x ∈ items, x.isExact = true)
    (ih : ∀ x ∈ items, Reads L x) : Reads L (array items) := by
  intro level depth fuel w rest hw hr hn hf
  obtain ⟨hd, hn⟩ := nesting_array_le.1 hn
  rw [readValue_blank depth fuel hw]
  cases items with
  | nil =>
    obtain ⟨fuel, rfl⟩ : ∃ k, fuel = k + 2 := ⟨fuel - 2, by simp [Layout.chars] at hf; omega⟩
    simp [Layout.chars, readValue, readItems, skipSpace_cons, isSpace, Nat.ne_of_gt hd]
  | cons x r =>
    have hl : (L.chars level (array (x :: r))).length = (L.line (level + 1)).length +
        (L.chars (level + 1) x).length + (L.moreItems level r).length + 1 := by
      simp [Layout.chars]
      omega
    obtain ⟨fuel, rfl⟩ : ∃ k, fuel = k + 2 := ⟨fuel - 2, by omega⟩
    have hrest : readRestItems (depth - 1) fuel
        ([] ++ (L.chars (level + 1) x ++ (L.moreItems level r ++ rest))) = some (x :: r, rest) :=
      readRestItems_chars ih hn (by simp) (by omega)
    obtain ⟨c, s, hc, hspace, hclose⟩ := exists_cons_chars L (level + 1) (he x (by simp))
    rw [hc, List.nil_append, List.cons_append] at hrest
    simp only [Layout.chars, hc, List.cons_append, List.append_assoc, readValue]
    simp [skipSpace_cons, isSpace, readItems, skipSpace_append (L.line_blank (level + 1)) hspace,
      hclose, hrest, Nat.ne_of_gt hd]

theorem reads_object {members : List (String × Json)} (ih : ∀ m ∈ members, Reads L m.2) :
    Reads L (object members) := by
  intro level depth fuel w rest hw hr hn hf
  obtain ⟨hd, hn⟩ := nesting_object_le.1 hn
  rw [readValue_blank depth fuel hw]
  cases members with
  | nil =>
    obtain ⟨fuel, rfl⟩ : ∃ k, fuel = k + 2 := ⟨fuel - 2, by simp [Layout.chars] at hf; omega⟩
    simp [Layout.chars, readValue, readMembers, skipSpace_cons, isSpace, ofMembers, Nat.ne_of_gt hd]
  | cons m r =>
    have hl : (L.chars level (object (m :: r))).length = (L.line (level + 1)).length +
        (stringChars m.1).length + L.gap.length + (L.chars (level + 1) m.2).length +
        (L.moreMembers level r).length + 2 := by
      simp [Layout.chars]
      omega
    obtain ⟨fuel, rfl⟩ : ∃ k, fuel = k + 2 := ⟨fuel - 2, by omega⟩
    have hrest : readRestMembers (depth - 1) fuel ([] ++ (stringChars m.1 ++ ':' :: (L.gap ++
        (L.chars (level + 1) m.2 ++ (L.moreMembers level r ++ rest))))) =
          some ((m :: r).map fun y => (some y.1, y.2), rest) :=
      readRestMembers_chars ih hn (by simp) (by omega)
    rw [List.nil_append, stringChars_append] at hrest
    simp only [Layout.chars, List.cons_append, List.append_assoc, readValue]
    simp [skipSpace_cons, isSpace, readMembers, skipSpace_stringChars (L.line_blank (level + 1)),
      hrest, Nat.ne_of_gt hd]
    exact ofMembers_some (m :: r)

theorem reads_scalar {j : Json} (he : j.isExact = true) (hn : j.nesting = 0)
    (hc : ∀ level, L.chars level j = scalarChars j) : Reads L j := by
  intro level depth fuel w rest hw hr _ hf
  obtain ⟨c, s, hs, -⟩ := exists_cons_scalarChars he
  rw [hc] at hf ⊢
  obtain ⟨fuel, rfl⟩ : ∃ k, fuel = k + 1 := ⟨fuel - 1, by simp [hs] at hf; omega⟩
  rw [readValue_blank depth _ hw]
  exact readValue_scalar he hn depth fuel hr

theorem reads_of_isExact (L : Layout) {j : Json} (he : j.isExact = true) : Reads L j := by
  induction j using Json.induction with
  | array items ih =>
    have h := isExact_array.1 he
    exact reads_array h fun x hx => ih x hx (h x hx)
  | object members ih => exact reads_object fun m hm => ih m hm (isExact_object.1 he m hm)
  | _ => exact reads_scalar he rfl fun _ => rfl

/-- A tree is read from its text in every layout. -/
theorem read?_chars (L : Layout) (level : Nat) {j : Json} (he : j.isExact = true)
    (hn : j.nesting ≤ depthLimit) : read? (String.ofList (L.chars level j)) = some j := by
  have hr : readValue depthLimit (3 * (L.chars level j).length + 3) (L.chars level j) =
      some (j, []) := by
    have h : readValue depthLimit (3 * (L.chars level j).length + 3) ([] ++ (L.chars level j ++ [])) =
        some (j, []) := reads_of_isExact L he (by simp) (by simp [Ends]) hn (Nat.le_add_right _ 3)
    rwa [List.nil_append, List.append_nil] at h
  rw [read?, String.toList_ofList]
  dsimp only
  rw [hr]
  rfl

theorem read?_compact {j : Json} (he : j.isExact = true) (hn : j.nesting ≤ depthLimit) :
    read? j.compact = some j := by
  rw [compact, Layout.compactChars_eq j 0]
  exact read?_chars _ 0 he hn

theorem read?_pretty {j : Json} (he : j.isExact = true) (hn : j.nesting ≤ depthLimit) :
    read? j.pretty = some j := by
  rw [pretty, Layout.prettyChars_eq]
  exact read?_chars _ 0 he hn

theorem list?_map {α : Type} {item : Json → Option α} {toJson : α → Json}
    (h : ∀ x, item (toJson x) = some x) (l : List α) : list? item (array (l.map toJson)) = some l := by
  have hm : (l.map toJson).mapM item = some l := by
    induction l with
    | nil => rfl
    | cons x r ih => simp [h, ih]
  rw [list?]
  exact hm

theorem isExact_map {α : Type} {toJson : α → Json} {l : List α}
    (h : ∀ x ∈ l, (toJson x).isExact = true) : (array (l.map toJson)).isExact = true :=
  isExact_array.2 fun _ hx =>
    let ⟨x, hx, he⟩ := List.mem_map.1 hx
    he ▸ h x hx

theorem nesting_map {α : Type} {toJson : α → Json} {l : List α} {depth : Nat}
    (h : ∀ x ∈ l, (toJson x).nesting ≤ depth) : (array (l.map toJson)).nesting ≤ depth + 1 :=
  nesting_array_le.2 ⟨Nat.succ_pos depth, fun _ hx =>
    let ⟨x, hx, he⟩ := List.mem_map.1 hx
    he ▸ h x hx⟩

end ODataClient.Json
