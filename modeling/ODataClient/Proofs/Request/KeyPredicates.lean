import ODataClient.Proofs.Outcome
import ODataClient.Proofs.Text.Percent
import ODataClient.Proofs.Text.Separators
import ODataClient.Request.Address

/-! Key predicates read back. Between the parentheses is one escaped literal, or a list of names
with escaped literals; what separates the parts of a list, or of the path and the query around it,
is in no escaped literal. -/

namespace ODataClient

def Keys.values : Keys → List Value
  | .none => []
  | .positional values => values
  | .named pairs => pairs.map (·.2)

/-- A key that is one value without a name. -/
def Keys.isSingle : Keys → Bool
  | .positional [_] => true
  | _ => false

def namedPair? (s : String) : Option (String × String) :=
  (cutFirst '=' s.toList).map fun p => (String.ofList p.1, String.ofList p.2)

/-- The names and the texts of a list; nothing is the empty list. -/
def readPairs (s : String) : Option (List (String × String)) :=
  if s = "" then some [] else (splitText ',' s).mapM namedPair?

theorem namedPair?_append {name : String} (h : Avoids '=' name) (text : String) :
    namedPair? (name ++ "=" ++ text) = some (name, text) := by
  have hlist : (name ++ "=" ++ text).toList = name.toList ++ '=' :: text.toList := by simp
  rw [namedPair?, hlist, cutFirst_append h, Option.map_some, String.ofList_toList,
    String.ofList_toList]

theorem mapM_namedPair? {pairs : List (String × String)} (h : ∀ p ∈ pairs, Avoids '=' p.1) :
    (pairs.map fun p => p.1 ++ "=" ++ p.2).mapM namedPair? = some pairs := by
  induction pairs with
  | nil => rfl
  | cons p pairs ih =>
    obtain ⟨hp, hpairs⟩ := List.forall_mem_cons.1 h
    rw [List.map_cons, List.mapM_cons, namedPair?_append hp, ih hpairs]
    rfl

/-- A list is read as what was written, if no name has a comma or an equals sign in it and no
text has a comma. -/
theorem readPairs_intercalate {pairs : List (String × String)}
    (hn : ∀ p ∈ pairs, Avoids ',' p.1 ∧ Avoids '=' p.1) (ht : ∀ p ∈ pairs, Avoids ',' p.2) :
    readPairs (String.intercalate "," (pairs.map fun p => p.1 ++ "=" ++ p.2)) = some pairs := by
  by_cases hnil : pairs = []
  · subst hnil
    rfl
  · have hcomma : ∀ s ∈ pairs.map fun p => p.1 ++ "=" ++ p.2, ',' ∉ s.toList := by
      have hequals : Avoids ',' "=" := by decide
      refine List.forall_mem_map.2 fun p hp => ?_
      exact avoids_append.2 ⟨avoids_append.2 ⟨(hn p hp).1, hequals⟩, ht p hp⟩
    have hsplit : splitText ',' (String.intercalate "," (pairs.map fun p => p.1 ++ "=" ++ p.2)) =
        pairs.map fun p => p.1 ++ "=" ++ p.2 :=
      splitText_intercalate rfl (by simpa using hnil) hcomma
    have hne : String.intercalate "," (pairs.map fun p => p.1 ++ "=" ++ p.2) ≠ "" := by
      intro he
      have hempty : splitText ',' "" = [""] := rfl
      rw [he, hempty] at hsplit
      obtain ⟨p, -, hp⟩ := List.mem_map.1 (hsplit ▸ List.mem_singleton_self "")
      simp at hp
    rw [readPairs, if_neg hne, hsplit, mapM_namedPair? fun p hp => (hn p hp).2]

namespace Adapter

/-- The values of a key with the names of their properties, unless it is one value. -/
def keyPairs (a : Adapter) (collection : Option String) : Keys → List (String × Value)
  | .none => []
  | .positional [_] => []
  | .positional values =>
    match collection.map a.navigator.keyProperties with
    | some (.ok names) => names.zip values
    | _ => []
  | .named pairs => pairs

variable {a : Adapter} {collection : Option String} {keys : Keys} {text : String}

theorem percentDecode_keyLiteral (a : Adapter) (v : Value) :
    percentDecode (a.keyLiteral v) = some (a.style.literal v) := percentDecode_escape _

/-- The characters that have a meaning in a path, a query or a list. -/
def delimiters : List Char := ['/', '?', '#', '&', ',', '=']

theorem avoids_delimiter {c : Char} (hc : c ∈ delimiters) (a : Adapter) (v : Value) :
    Avoids c (a.keyLiteral v) := avoids_escape_of_all (by decide) hc _

theorem keyPairs_positional {name : String} {names : List String} {values : List Value}
    (hone : ∀ v, values ≠ [v]) (hnames : a.navigator.keyProperties name = .ok names) :
    a.keyPairs (some name) (.positional values) = names.zip values := by
  rw [keyPairs.eq_def]
  split
  next he => cases he
  next v he => exact absurd (Keys.positional.inj he) (hone v)
  next he =>
    obtain rfl := Keys.positional.inj he
    rw [Option.map_some, hnames]
  next he => cases he

theorem isSingle_positional {values : List Value} (hone : ∀ v, values ≠ [v]) :
    (Keys.positional values).isSingle = false := by
  rw [Keys.isSingle.eq_def]
  split
  next v he => exact absurd (Keys.positional.inj he) (hone v)
  next => rfl

/-- A key is written as one value, or as a list that has all of its values in their order. -/
theorem eq_of_keyPredicate (h : a.keyPredicate collection keys = .ok text) (hk : keys ≠ .none) :
    (∃ v, keys = .positional [v] ∧ text = parenthesized [a.keyLiteral v]) ∨
      keys.isSingle = false ∧ (a.keyPairs collection keys).map (·.2) = keys.values ∧
        text = parenthesized ((a.keyPairs collection keys).map a.namedLiteral) := by
  rw [keyPredicate.eq_def] at h
  split at h
  next => exact absurd rfl hk
  next v => exact .inl ⟨v, rfl, (Except.ok.inj h).symm⟩
  next values hone =>
    split at h
    next => cases h
    next name =>
      obtain ⟨names, hnames, h⟩ := bind_eq_ok_iff.1 h
      split at h
      next => cases h
      next hlength =>
        have hlength : names.length = values.length := Decidable.not_not.1 hlength
        rw [keyPairs_positional hone hnames]
        exact .inr ⟨isSingle_positional hone, List.map_snd_zip (Nat.le_of_eq hlength.symm),
          (Except.ok.inj h).symm⟩
  next pairs => exact .inr ⟨rfl, rfl, (Except.ok.inj h).symm⟩

theorem readPairs_keyPairs {pairs : List (String × Value)}
    (hn : ∀ p ∈ pairs, Avoids ',' p.1 ∧ Avoids '=' p.1) :
    readPairs (String.intercalate "," (pairs.map a.namedLiteral)) =
      some (pairs.map fun p => (p.1, a.keyLiteral p.2)) := by
  have hcomma : ',' ∈ delimiters := by decide
  let written : List (String × String) := pairs.map fun p => (p.1, a.keyLiteral p.2)
  have hnames : ∀ p ∈ written, Avoids ',' p.1 ∧ Avoids '=' p.1 := List.forall_mem_map.2 hn
  have htexts : ∀ p ∈ written, Avoids ',' p.2 :=
    List.forall_mem_map.2 fun p _ => avoids_delimiter hcomma a p.2
  have hlist : pairs.map a.namedLiteral = written.map fun p => p.1 ++ "=" ++ p.2 := by
    rw [List.map_map]
    rfl
  rw [hlist, readPairs_intercalate hnames htexts]

theorem literals_eq_of_keyLiterals_eq {l r : List Value}
    (h : l.map a.keyLiteral = r.map a.keyLiteral) :
    l.map a.style.literal = r.map a.style.literal := by
  have hdecode : ∀ l : List Value, (l.map a.keyLiteral).map percentDecode =
      l.map fun v => some (a.style.literal v) := by
    intro l
    simp only [List.map_map, Function.comp_def, percentDecode_keyLiteral]
  have hsome := congrArg (List.map percentDecode) h
  rw [hdecode, hdecode] at hsome
  have hget := congrArg (List.filterMap id) hsome
  simpa only [List.filterMap_map, Function.comp_def, id_eq, List.filterMap_eq_map'] using hget

theorem intercalate_eq_of_parenthesized_eq {l r : List String}
    (h : parenthesized l = parenthesized r) :
    String.intercalate "," l = String.intercalate "," r := by
  rw [← String.toList_inj] at h ⊢
  simpa [parenthesized] using h

/-- Keys of one shape with the same names are written alike only if their literals are alike. -/
theorem literals_eq_of_keyPredicate_eq {collection' : Option String} {keys' : Keys}
    (h : a.keyPredicate collection keys = .ok text)
    (h' : a.keyPredicate collection' keys' = .ok text) (hk : keys ≠ .none) (hk' : keys' ≠ .none)
    (hn : ∀ p ∈ a.keyPairs collection keys, Avoids ',' p.1 ∧ Avoids '=' p.1)
    (hshape : keys'.isSingle = keys.isSingle)
    (hnames : (a.keyPairs collection' keys').map (·.1) = (a.keyPairs collection keys).map (·.1)) :
    keys'.values.map a.style.literal = keys.values.map a.style.literal := by
  apply literals_eq_of_keyLiterals_eq
  rcases eq_of_keyPredicate h hk with ⟨v, rfl, rfl⟩ | ⟨hlist, hvalues, rfl⟩ <;>
    rcases eq_of_keyPredicate h' hk' with ⟨w, rfl, htext⟩ | ⟨hlist', hvalues', htext⟩
  · simpa [Keys.values] using (intercalate_eq_of_parenthesized_eq htext).symm
  · exact Bool.noConfusion (hlist'.symm.trans hshape)
  · exact Bool.noConfusion (hlist.symm.trans hshape.symm)
  · have hn' : ∀ p ∈ a.keyPairs collection' keys', Avoids ',' p.1 ∧ Avoids '=' p.1 := by
      intro p hp
      have hmem := List.mem_map_of_mem (f := (·.1)) hp
      rw [hnames] at hmem
      obtain ⟨q, hq, hqp⟩ := List.mem_map.1 hmem
      rw [← hqp]
      exact hn q hq
    have hread := readPairs_keyPairs (a := a) hn'
    rw [← intercalate_eq_of_parenthesized_eq htext, readPairs_keyPairs hn] at hread
    have htexts := congrArg (List.map (·.2)) (Option.some.inj hread)
    simp only [List.map_map, Function.comp_def] at htexts
    rw [← hvalues, ← hvalues', List.map_map, List.map_map]
    exact htexts.symm

/-- What is between the parentheses of a key is its value, escaped, or a list that is read as its
names with its values, escaped, in their order. Decoding gives the literals of the values back, so
keys with the same names have different predicates if their literals are different, and no value
has a delimiter in it. -/
theorem keyPredicate_read (h : a.keyPredicate collection keys = .ok text) (hk : keys ≠ .none)
    (hn : ∀ p ∈ a.keyPairs collection keys, Avoids ',' p.1 ∧ Avoids '=' p.1) :
    ∃ inner, text = "(" ++ inner ++ ")" ∧
      ((∃ v, keys = .positional [v] ∧ inner = a.keyLiteral v) ∨
        keys.isSingle = false ∧ (a.keyPairs collection keys).map (·.2) = keys.values ∧
          readPairs inner =
            some ((a.keyPairs collection keys).map fun p => (p.1, a.keyLiteral p.2))) ∧
      (∀ v ∈ keys.values, percentDecode (a.keyLiteral v) = some (a.style.literal v) ∧
        ∀ c ∈ delimiters, Avoids c (a.keyLiteral v)) ∧
      ∀ collection' keys' text', a.keyPredicate collection' keys' = .ok text' → keys' ≠ .none →
        keys'.isSingle = keys.isSingle →
        (a.keyPairs collection' keys').map (·.1) = (a.keyPairs collection keys).map (·.1) →
        keys'.values.map a.style.literal ≠ keys.values.map a.style.literal → text' ≠ text := by
  have hinner : ∃ inner, text = "(" ++ inner ++ ")" ∧
      ((∃ v, keys = .positional [v] ∧ inner = a.keyLiteral v) ∨
        keys.isSingle = false ∧ (a.keyPairs collection keys).map (·.2) = keys.values ∧
          readPairs inner =
            some ((a.keyPairs collection keys).map fun p => (p.1, a.keyLiteral p.2))) := by
    rcases eq_of_keyPredicate h hk with ⟨v, hv, rfl⟩ | ⟨hlist, hvalues, rfl⟩
    · exact ⟨a.keyLiteral v, by rw [parenthesized, String.intercalate_singleton],
        .inl ⟨v, hv, rfl⟩⟩
    · exact ⟨_, rfl, .inr ⟨hlist, hvalues, readPairs_keyPairs hn⟩⟩
  obtain ⟨inner, htext, hread⟩ := hinner
  refine ⟨inner, htext, hread, fun v _ => ⟨percentDecode_keyLiteral a v,
    fun c hc => avoids_delimiter hc a v⟩, fun collection' keys' text' h' hk' hshape hnames hne he => ?_⟩
  exact hne (literals_eq_of_keyPredicate_eq h (he ▸ h') hk hk' hn hshape hnames)

/-- A named key whose text value has all delimiters, a quote and a letter beyond ASCII in it. -/
theorem keyPredicate_read_note :
    let a : Adapter := ⟨.v4, (northwind Version.v4.text).navigator, .plain⟩
    let keys : Keys := .named [("OrderID", .int32 7), ("Note", .string "it's 5%, ü=a/b?c#d&e")]
    let text := "(OrderID=7,Note='it''s%205%25%2C%20%C3%BC%3Da%2Fb%3Fc%23d%26e')"
    a.keyPredicate none keys = .ok text ∧ keys ≠ .none ∧
      (∀ p ∈ a.keyPairs none keys, Avoids ',' p.1 ∧ Avoids '=' p.1) ∧
      ∀ v ∈ keys.values, percentDecode (a.keyLiteral v) = some (a.style.literal v) ∧
        ∀ c ∈ delimiters, Avoids c (a.keyLiteral v) := by
  intro a keys text
  have h : a.keyPredicate none keys = .ok text := by decide +kernel
  have hk : keys ≠ .none := by decide
  have hn : ∀ p ∈ a.keyPairs none keys, Avoids ',' p.1 ∧ Avoids '=' p.1 := by decide
  obtain ⟨-, -, -, hvalues, -⟩ := keyPredicate_read h hk hn
  exact ⟨h, hk, hn, hvalues⟩

end Adapter

end ODataClient
