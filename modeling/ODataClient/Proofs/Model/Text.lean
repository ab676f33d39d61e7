import ODataClient.Document.Basic
import ODataClient.Proofs.Json.ReadBack
import ODataClient.Proofs.Outcome

/-! Models as metadata documents. The text of a model is a JSON object, gives the model back, and
declares the version of the model and nothing else. -/

namespace ODataClient

theorem NavigationProperty.ofJson?_toJson (n : NavigationProperty) : ofJson? n.toJson = some n := rfl

theorem NavigationProperty.nesting_toJson (n : NavigationProperty) : n.toJson.nesting = 1 := rfl

namespace EntityCollection

theorem ofJson?_toJson (c : EntityCollection) : ofJson? c.toJson = some c := by
  have hs : ∀ s, Json.string? (.string s) = some s := fun _ => rfl
  have hk : Json.list? Json.string? (.array (c.key.map .string)) = some c.key :=
    Json.list?_map hs c.key
  have hn : Json.list? NavigationProperty.ofJson?
      (.array (c.navigations.map NavigationProperty.toJson)) = some c.navigations :=
    Json.list?_map NavigationProperty.ofJson?_toJson c.navigations
  have hf : c.toJson.fields? ["name", "entity_type", "key", "navigations"] =
      some [some (.string c.name), some (.string c.entityType), some (.array (c.key.map .string)),
        some (.array (c.navigations.map NavigationProperty.toJson))] := rfl
  simp [ofJson?, hf, Json.string?, Json.orDefault, hk, hn]

theorem isExact_toJson (c : EntityCollection) : c.toJson.isExact = true := by
  refine Json.isExact_object.2 fun m hm => ?_
  simp only [List.mem_cons, List.not_mem_nil, or_false] at hm
  rcases hm with rfl | rfl | rfl | rfl
  · rfl
  · rfl
  · exact Json.isExact_map fun _ _ => rfl
  · exact Json.isExact_map fun _ _ => rfl

theorem nesting_toJson (c : EntityCollection) : c.toJson.nesting ≤ 3 := by
  refine Json.nesting_object_le.2 ⟨by decide, fun m hm => ?_⟩
  simp only [List.mem_cons, List.not_mem_nil, or_false] at hm
  rcases hm with rfl | rfl | rfl | rfl
  · exact Nat.zero_le 2
  · exact Nat.zero_le 2
  · exact Json.nesting_map fun _ _ => Nat.zero_le 1
  · exact Json.nesting_map fun n _ => Nat.le_of_eq n.nesting_toJson

end EntityCollection

/-- The version that a declaration stands for. -/
def Version.ofDeclaration : Option String → Except Error Version
  | none => .error .undetectableVersion
  | some token =>
    match ofToken? token with
    | some v => .ok v
    | none => .error (.unsupportedVersion [token])

namespace EntityModel

theorem ofJson?_toJson (m : EntityModel) : ofJson? m.toJson = some m := by
  have hc : Json.list? EntityCollection.ofJson?
      (.array (m.collections.map EntityCollection.toJson)) = some m.collections :=
    Json.list?_map EntityCollection.ofJson?_toJson m.collections
  have hf : m.toJson.fields? ["version", "collections"] =
      some [m.version.map .string, some (.array (m.collections.map EntityCollection.toJson))] := by
    rw [toJson]
    cases m.version <;> rfl
  have hv : Json.orDefault (Json.optional? Json.string?) none (m.version.map .string) =
      some m.version := by cases m.version <;> rfl
  have hl : Json.orDefault (Json.list? EntityCollection.ofJson?) []
      (some (.array (m.collections.map EntityCollection.toJson))) = some m.collections := hc
  simp only [ofJson?, hf, Option.bind_eq_bind, Option.bind_some, hv, hl]
  rfl

theorem isExact_toJson (m : EntityModel) : m.toJson.isExact = true := by
  have hc : (Json.array (m.collections.map EntityCollection.toJson)).isExact = true :=
    Json.isExact_map fun c _ => c.isExact_toJson
  refine Json.isExact_object.2 fun x hx => ?_
  rcases List.mem_append.1 hx with hx | hx
  · obtain ⟨v, -, rfl⟩ := Option.map_eq_some_iff.1 (Option.mem_toList.1 hx)
    rfl
  · rw [List.mem_singleton.1 hx]
    exact hc

theorem nesting_toJson (m : EntityModel) : m.toJson.nesting ≤ 5 := by
  have hc : (Json.array (m.collections.map EntityCollection.toJson)).nesting ≤ 4 :=
    Json.nesting_map fun c _ => c.nesting_toJson
  refine Json.nesting_object_le.2 ⟨by decide, fun x hx => ?_⟩
  rcases List.mem_append.1 hx with hx | hx
  · obtain ⟨v, -, rfl⟩ := Option.map_eq_some_iff.1 (Option.mem_toList.1 hx)
    exact Nat.zero_le 4
  · rw [List.mem_singleton.1 hx]
    exact hc

theorem read?_text (m : EntityModel) : Json.read? m.text = some m.toJson :=
  Json.read?_pretty m.isExact_toJson (Nat.le_trans m.nesting_toJson (by decide))

theorem ofText_text (m : EntityModel) : ofText m.text = .ok m := by
  rw [ofText, read?_text, Option.bind_some, ofJson?_toJson]

theorem exists_text (m : EntityModel) : ∃ s, m.text.toList = '\x7b' :: s := by
  rw [text, Json.pretty, String.toList_ofList, toJson]
  cases m.version <;> exact ⟨_, rfl⟩

theorem documentTokens_text (m : EntityModel) : documentTokens m.text = m.version.toList := by
  obtain ⟨s, hs⟩ := m.exists_text
  have hblank : dropBlanks m.text.toList = m.text.toList := by rw [hs]; rfl
  have hlooks : looksLikeJson m.text = true := by rw [looksLikeJson, hblank, hs]; rfl
  have hchecked : m.toJson.checked? = some m.toJson :=
    if_pos (Json.wellFormed_of_isExact m.isExact_toJson)
  rw [documentTokens, if_pos hlooks, hblank, String.ofList_toList, jsonTokens, read?_text,
    Option.bind_some, hchecked]
  rw [toJson]
  cases m.version <;> rfl

/-- A model is read from its text again, by the loader of metadata documents as well, and as a
document the text declares the version of the model and no other. -/
theorem document_text (m : EntityModel) :
    ofText m.text = .ok m ∧ (MetadataDocument.ofText m.text).isJson = true ∧
      (ModelLoader.json.load (.ofText m.text)).map navigator = .ok m.navigator ∧
      documentTokens m.text = m.version.toList ∧
      (MetadataDocument.ofText m.text).version = Version.ofDeclaration m.version := by
  obtain ⟨s, hs⟩ := m.exists_text
  have hjson : (MetadataDocument.ofText m.text).isJson = true := by
    rw [MetadataDocument.isJson, MetadataDocument.ofText, looksLikeJson, hs]
    rfl
  have hload : ModelLoader.json.load (.ofText m.text) = .ok m := by
    rw [ModelLoader.load, if_pos hjson]
    exact m.ofText_text
  refine ⟨m.ofText_text, hjson, by rw [hload, map_ok], m.documentTokens_text, ?_⟩
  rw [MetadataDocument.version, MetadataDocument.ofText, resolveVersion, Option.map_some,
    Option.getD_some, m.documentTokens_text]
  cases m.version with
  | none => rfl
  | some token =>
    rw [Version.ofDeclaration]
    cases h : Version.ofToken? token <;> simp [firstVersion?, h]

end EntityModel

end ODataClient
