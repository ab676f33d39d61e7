import ODataClient.Document.Basic
import ODataClient.Proofs.Text.Separators
import ODataClient.Proofs.Text.Trimming

/-! Versions that services declare. What the headers say comes before what the document says, and
the first token that stands for a version decides. The tokens of a header are the texts between
its semicolons, without the blanks around them. -/

namespace ODataClient

variable {name value document : String} {headers : List (String × String)}
  {tokens own given : List String}

/-! ### The tokens of headers -/

/-- The name of a header for versions, in any case and with any blanks around it. -/
def NamesVersion (name : String) : Prop :=
  ∃ core, IsPadded core name ∧
    (sameName core "OData-Version" ∨ sameName core "DataServiceVersion")

theorem isVersionHeader_iff : isVersionHeader name = true ↔ NamesVersion name := by
  rw [isVersionHeader, Bool.or_eq_true]
  constructor
  · exact fun h => ⟨trim name, isPadded_trim name, h⟩
  · rintro ⟨core, hcore, h⟩
    rwa [hcore.trim_eq]

/-- The value has pieces between semicolons, and the tokens are what they are without blanks, as
far as something is left. -/
def ListsTokens (value : String) (tokens : List String) : Prop :=
  ∃ pieces cores, pieces ≠ [] ∧ (∀ p ∈ pieces, Avoids ';' p) ∧
    value = String.intercalate ";" pieces ∧ List.Forall₂ IsPadded cores pieces ∧
    tokens = cores.filter fun t => !t.isEmpty

theorem valueTokens_eq (pieces : List String) (hne : pieces ≠ []) (h : ∀ p ∈ pieces, Avoids ';' p) :
    valueTokens (String.intercalate ";" pieces) =
      (pieces.map trim).filter fun t => !t.isEmpty := by
  rw [valueTokens, splitText_intercalate rfl hne h]

theorem valueTokens_eq_iff : valueTokens value = tokens ↔ ListsTokens value tokens := by
  constructor
  · rintro rfl
    refine ⟨splitText ';' value, (splitText ';' value).map trim, by simp [splitText, parts],
      fun p hp => notMem_of_mem_splitText hp, (intercalate_splitText rfl value).symm, ?_, rfl⟩
    rw [List.forall₂_map_left_iff]
    exact List.forall₂_same.2 fun p _ => isPadded_trim p
  · rintro ⟨pieces, cores, hne, havoids, rfl, hcores, rfl⟩
    have htrim : pieces.map trim = cores := by
      rw [← List.forall₂_eq_eq_eq, List.forall₂_map_left_iff]
      exact hcores.flip.imp fun _ _ h => IsPadded.trim_eq h
    rw [valueTokens_eq pieces hne havoids, htrim]

/-- Tokens that are joined by semicolons are read back. -/
theorem valueTokens_intercalate (h : ∀ t ∈ given, Trimmed t ∧ t ≠ "" ∧ Avoids ';' t) :
    valueTokens (String.intercalate ";" given) = given := by
  by_cases hne : given = []
  · subst hne
    rfl
  · have htrim : given.map trim = given :=
      (List.map_congr_left fun t ht => (h t ht).1.trim_eq).trans (List.map_id given)
    rw [valueTokens_eq given hne fun t ht => (h t ht).2.2, htrim, List.filter_eq_self]
    exact fun t ht => by simpa using (h t ht).2.1

/-- The tokens of the version headers, header by header. -/
inductive DeclareTokens : List (String × String) → List String → Prop
  | nil : DeclareTokens [] []
  | version {name value : String} {own : List String} {headers : List (String × String)}
      {tokens : List String} (hname : NamesVersion name) (hvalue : ListsTokens value own)
      (hrest : DeclareTokens headers tokens) : DeclareTokens ((name, value) :: headers) (own ++ tokens)
  | other {name value : String} {headers : List (String × String)} {tokens : List String}
      (hname : ¬ NamesVersion name) (hrest : DeclareTokens headers tokens) :
      DeclareTokens ((name, value) :: headers) tokens

theorem headerTokens_cons (name value : String) (headers : List (String × String)) :
    headerTokens ((name, value) :: headers) =
      (if isVersionHeader name then valueTokens value else []) ++ headerTokens headers := by
  rw [headerTokens, List.filter_cons]
  cases isVersionHeader name <;> rfl

theorem declareTokens_headerTokens (headers : List (String × String)) :
    DeclareTokens headers (headerTokens headers) := by
  induction headers with
  | nil => exact .nil
  | cons header headers ih =>
    obtain ⟨name, value⟩ := header
    rw [headerTokens_cons]
    split
    next h => exact .version (isVersionHeader_iff.1 h) (valueTokens_eq_iff.1 rfl) ih
    next h => exact .other (isVersionHeader_iff.not.1 h) ih

theorem headerTokens_eq_iff : headerTokens headers = tokens ↔ DeclareTokens headers tokens := by
  constructor
  · rintro rfl
    exact declareTokens_headerTokens headers
  · intro h
    induction h with
    | nil => rfl
    | version hname hvalue _ ih =>
      rw [headerTokens_cons, if_pos (isVersionHeader_iff.2 hname), valueTokens_eq_iff.2 hvalue, ih]
    | other hname _ ih =>
      rw [headerTokens_cons, if_neg (isVersionHeader_iff.not.2 hname), ih, List.nil_append]

/-! ### The version that tokens stand for -/

theorem firstVersion?_eq_none_iff :
    firstVersion? tokens = none ↔ ∀ t ∈ tokens, Version.ofToken? t = none :=
  List.findSome?_eq_none_iff

theorem firstVersion?_eq_some_iff {version : Version} : firstVersion? tokens = some version ↔
    ∃ before token after, tokens = before ++ token :: after ∧
      Version.ofToken? token = some version ∧ ∀ t ∈ before, Version.ofToken? t = none :=
  List.findSome?_eq_some_iff

/-- The version of the first token that stands for one. -/
def versionOf (tokens : List String) : Except Error Version :=
  match firstVersion? tokens with
  | some version => .ok version
  | none => if tokens = [] then .error .undetectableVersion else .error (.unsupportedVersion tokens)

theorem versionOf_of_some {version : Version} (h : firstVersion? tokens = some version) :
    versionOf tokens = .ok version := by
  rw [versionOf, h]

theorem versionOf_of_none (h : firstVersion? tokens = none) (hne : tokens ≠ []) :
    versionOf tokens = .error (.unsupportedVersion tokens) := by
  rw [versionOf, h]
  exact if_neg hne

theorem versionOf_eq_ok_iff {version : Version} :
    versionOf tokens = .ok version ↔ firstVersion? tokens = some version := by
  refine ⟨fun h => ?_, versionOf_of_some⟩
  cases hfirst : firstVersion? tokens with
  | some found => rw [versionOf_of_some hfirst, Except.ok.injEq] at h; rw [h]
  | none =>
    by_cases hnil : tokens = []
    · subst hnil
      exact absurd h nofun
    · rw [versionOf_of_none hfirst hnil] at h
      exact absurd h nofun

theorem versionOf_eq_undetectable_iff :
    versionOf tokens = .error .undetectableVersion ↔ tokens = [] := by
  refine ⟨fun h => ?_, fun h => h ▸ rfl⟩
  by_contra hne
  cases hfirst : firstVersion? tokens with
  | some found => rw [versionOf_of_some hfirst] at h; exact absurd h nofun
  | none => rw [versionOf_of_none hfirst hne] at h; exact absurd h nofun

theorem versionOf_eq_unsupported_iff {seen : List String} :
    versionOf tokens = .error (.unsupportedVersion seen) ↔
      tokens ≠ [] ∧ (∀ t ∈ tokens, Version.ofToken? t = none) ∧ seen = tokens := by
  rw [← firstVersion?_eq_none_iff]
  constructor
  · intro h
    have hne : tokens ≠ [] := by
      rintro rfl
      exact absurd h nofun
    cases hfirst : firstVersion? tokens with
    | some found => rw [versionOf_of_some hfirst] at h; exact absurd h nofun
    | none =>
      rw [versionOf_of_none hfirst hne, Except.error.injEq, Error.unsupportedVersion.injEq] at h
      exact ⟨hne, rfl, h.symm⟩
  · rintro ⟨hne, hfirst, rfl⟩
    exact versionOf_of_none hfirst hne

/-- Looking at the document only when the headers stand for no version is looking at all tokens
in their order. -/
theorem resolveVersion_eq (tokens : List String) (document : Option String) :
    resolveVersion tokens document =
      versionOf (tokens ++ (document.map documentTokens).getD []) := by
  rw [resolveVersion, versionOf]
  simp only [firstVersion?, List.findSome?_append]
  cases tokens.findSome? Version.ofToken? with
  | some version => rfl
  | none => cases ((document.map documentTokens).getD []).findSome? Version.ofToken? <;> simp

/-- The first token of a version decides, those of the headers before those of the document, and
when there is none the error names them all; headers declare what is joined in their values. -/
theorem detectVersion_first (headers : List (String × String)) (document : Option String) :
    let tokens := headerTokens headers ++ (document.map documentTokens).getD []
    (∀ version, detectVersion headers document = .ok version ↔
        ∃ before token after, tokens = before ++ token :: after ∧
          Version.ofToken? token = some version ∧ ∀ t ∈ before, Version.ofToken? t = none) ∧
      (detectVersion headers document = .error .undetectableVersion ↔ tokens = []) ∧
      (∀ seen, detectVersion headers document = .error (.unsupportedVersion seen) ↔
        tokens ≠ [] ∧ (∀ t ∈ tokens, Version.ofToken? t = none) ∧ seen = tokens) ∧
      (∀ own, headerTokens headers = own ↔ DeclareTokens headers own) ∧
      ∀ name given, NamesVersion name → (∀ t ∈ given, Trimmed t ∧ t ≠ "" ∧ Avoids ';' t) →
        headerTokens ((name, String.intercalate ";" given) :: headers) =
          given ++ headerTokens headers := by
  intro tokens
  have hdetect : detectVersion headers document = versionOf tokens := resolveVersion_eq _ _
  rw [hdetect]
  refine ⟨fun version => versionOf_eq_ok_iff.trans firstVersion?_eq_some_iff,
    versionOf_eq_undetectable_iff, fun seen => versionOf_eq_unsupported_iff,
    fun own => headerTokens_eq_iff, fun name given hname hgiven => ?_⟩
  rw [headerTokens_cons, if_pos (isVersionHeader_iff.2 hname), valueTokens_intercalate hgiven]

theorem detectVersion_later_token :
    detectVersion [("Content-Type", "6.0"), (" odata-version", "5.0; 4.0 ;")] none = .ok .v4 ∧
      headerTokens [("DATASERVICEVERSION", "2.0;NetFx")] = ["2.0", "NetFx"] := by
  obtain ⟨hfound, -⟩ := detectVersion_first
    [("Content-Type", "6.0"), (" odata-version", "5.0; 4.0 ;")] none
  obtain ⟨-, -, -, -, hjoined⟩ := detectVersion_first [] none
  have hname : NamesVersion "DATASERVICEVERSION" := isVersionHeader_iff.1 (by decide)
  have hgiven : ∀ t ∈ ["2.0", "NetFx"], Trimmed t ∧ t ≠ "" ∧ Avoids ';' t := by decide
  exact ⟨(hfound .v4).2 ⟨["5.0"], "4.0", [], by decide, by decide, by decide⟩,
    hjoined "DATASERVICEVERSION" ["2.0", "NetFx"] hname hgiven⟩

end ODataClient
