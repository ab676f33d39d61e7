import ODataClient.Proofs.Calendar.ReadBack
import ODataClient.Proofs.Json.ReadBack
import ODataClient.Proofs.Value.Guid
import ODataClient.Value.Codec

/-! Values read back. A value is what its JSON form is read as, unless it is a double or a timestamp
beyond RFC 3339; all eleven other forms are told apart by their tags. -/

namespace ODataClient

theorem int32?_toInt (v : Int32) : int32? v.toInt = some v := by
  have hlow := v.le_toInt
  have hhigh := v.toInt_lt
  rw [int32?, if_pos ⟨hlow, hhigh⟩, Int32.ofInt_toInt]

theorem int64?_toInt (v : Int64) : int64? v.toInt = some v := by
  have hlow := v.le_toInt
  have hhigh := v.toInt_lt
  rw [int64?, if_pos ⟨hlow, hhigh⟩, Int64.ofInt_toInt]

theorem fits64_toInt (v : Int64) : Json.fits64 v.toInt = true := by
  have hlow := v.le_toInt
  have hhigh := v.toInt_lt
  simp only [Json.fits64, Bool.and_eq_true, decide_eq_true_eq]
  omega

def EnumMember.toJson (m : EnumMember) : Json :=
  .object [("type_name", .string m.typeName), ("member", .string m.member),
    ("value", .integer m.value.toInt)]

theorem EnumMember.ofJson?_toJson (m : EnumMember) : ofJson? m.toJson = some m := by
  have hf : m.toJson.fields? ["type_name", "member", "value"] =
      some [some (.string m.typeName), some (.string m.member), some (.integer m.value.toInt)] := rfl
  simp [ofJson?, hf, Json.string?, readInt64Json?, Json.integer?, int64?_toInt]

theorem readBytesJson?_integers (bytes : List UInt8) :
    readBytesJson? (.array (bytes.map fun b => .integer b.toNat)) = some bytes := by
  refine Json.list?_map (fun b => ?_) bytes
  have hb : 0 ≤ (b.toNat : Int) ∧ (b.toNat : Int) < UInt8.size := by
    have := b.toNat_lt
    rw [UInt8.size]
    omega
  rw [Json.natBelow?, if_pos hb, Option.map_some, Int.toNat_natCast, UInt8.ofNat_toNat]

namespace Value

/-- Nothing in the JSON form of the value is rounded or refused. -/
def isExact : Value → Bool
  | double _ => false
  | timestamp t => t.rfc3339?.isSome
  | _ => true

section

variable {tag : String} {i : Nat} {content : Json} {v : Value}

theorem ofJson?_tagged (form : Json.TagForm) (ht : valueTags.findIdx? (· == tag) = some i)
    (hc : content.wellFormed = true) :
    ofJson? form (tagged tag content) = ofContent? i (some content) := by
  have hb : bufferedContent? form [("t", .string tag), ("v", content)] content = some content := by
    cases form with
    | named => rfl
    | namedOrNumbered => exact if_pos hc
  have ht' : Json.single? "t" [("t", .string tag), ("v", content)] = some (some (.string tag)) := rfl
  have hv' : Json.single? "v" [("t", .string tag), ("v", content)] = some (some content) := rfl
  have hu : Json.unit? form valueTags (.string tag) = some i := ht
  simp [ofJson?, tagged, ht', hv', hu, hb]

theorem tagged_reads (ht : valueTags.findIdx? (· == tag) = some i) (hc : content.isExact = true)
    (hv : ofContent? i (some content) = some v) :
    (tagged tag content).isExact = true ∧ ∀ form, ofJson? form (tagged tag content) = some v := by
  refine ⟨Json.isExact_object.2 ?_, fun form => ?_⟩
  · simp [hc, Json.isExact]
  · rw [ofJson?_tagged form ht (Json.wellFormed_of_isExact hc), hv]

end

theorem exists_toJson? {v : Value} (h : v.isExact = true) :
    ∃ j, v.toJson? = .ok j ∧ j.isExact = true ∧ ∀ form, ofJson? form j = some v := by
  cases v with
  | null => exact ⟨_, rfl, rfl, fun form => rfl⟩
  | bool b => exact ⟨_, rfl, tagged_reads rfl rfl rfl⟩
  | int32 n =>
    have hfits : Json.fits64 n.toInt = true := by
      rw [← Int32.toInt_toInt64]
      exact fits64_toInt n.toInt64
    exact ⟨_, rfl, tagged_reads rfl hfits (congrArg (Option.map int32) (int32?_toInt n))⟩
  | int64 n =>
    exact ⟨_, rfl, tagged_reads rfl (fits64_toInt n) (congrArg (Option.map int64) (int64?_toInt n))⟩
  | double d => exact Bool.noConfusion h
  | decimal s => exact ⟨_, rfl, tagged_reads rfl rfl rfl⟩
  | string s => exact ⟨_, rfl, tagged_reads rfl rfl rfl⟩
  | guid g =>
    refine ⟨_, rfl, tagged_reads (i := 7) rfl rfl ?_⟩
    simp [ofContent?, Json.string?, Guid.text, g.read?_chars]
  | date d =>
    refine ⟨_, rfl, tagged_reads (i := 8) rfl rfl ?_⟩
    simp [ofContent?, Json.string?, Date.text, d.readDate?_chars]
  | timestamp t =>
    obtain ⟨s, hs⟩ := Option.isSome_iff_exists.1 h
    refine ⟨tagged "DateTimeOffset" (.string s), by rw [toJson?, hs], tagged_reads (i := 9) rfl rfl ?_⟩
    simp [ofContent?, Json.string?, Timestamp.readTimestamp?_rfc3339 hs]
  | binary b =>
    refine ⟨_, rfl, tagged_reads (i := 10) rfl (Json.isExact_map fun x _ => ?_) ?_⟩
    · have hx := x.toNat_lt
      simp only [Json.isExact, Json.fits64, Bool.and_eq_true, decide_eq_true_eq]
      omega
    · exact congrArg (Option.map binary) (readBytesJson?_integers b)
  | enum m =>
    refine ⟨_, rfl, tagged_reads (i := 11) rfl (Json.isExact_object.2 ?_)
      (congrArg (Option.map enum) m.ofJson?_toJson)⟩
    simp [Json.isExact, fits64_toInt]

end Value

end ODataClient
