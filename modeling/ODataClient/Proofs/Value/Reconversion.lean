import ODataClient.Proofs.Value.Texts

/-! Values converted to another type and back. Integers, truth values, identifiers, dates and
accepted decimals are the same again wherever there is a way back; a timestamp that was cut to
its date is the same only if it was the midnight of that date. -/

namespace ODataClient

namespace Value

/-- Neither a text, a double, an enumeration member, nor a decimal that no check accepts. -/
def isSettled : Value → Bool
  | string _ | double _ | enum _ => false
  | decimal s => isDecimalText s
  | _ => true

variable {v w v' : Value} {target own : ValueType}

theorem convert?_own (hv : v.isSettled = true) (ho : v = null ∨ v.type? = some own) :
    v.convert? own = some v := by
  rcases ho with rfl | ho
  · rfl
  · cases v with
    | string s | double d | enum m => cases hv
    | null => cases ho
    | _ =>
      cases ho
      rfl

/-- A text that was written for a value is read back as the value. -/
theorem convert?_back_of_text (hv : v.isReadable = true) (ho : v.type? = some own)
    (hb : (string (modernLiteral false v)).convert? own = some v') : v' = v := by
  have hread : (string (modernLiteral false v)).convert? own = some v :=
    ofText?_modernLiteral hv ho false
  rw [hread] at hb
  exact (Option.some.inj hb).symm

theorem fitsInt32_iff {n : Int64} :
    fitsInt32 n = true ↔ -2147483648 ≤ n.toInt ∧ n.toInt < 2147483648 := by
  rw [fitsInt32, int32?]
  split <;> simp_all

theorem toInt64_toInt32 {n : Int64} (h : fitsInt32 n = true) : n.toInt32.toInt64 = n := by
  obtain ⟨hlow, hhigh⟩ := fitsInt32_iff.1 h
  rw [← Int64.toInt_inj, Int32.toInt_toInt64, Int64.toInt_toInt32]
  exact Int.bmod_eq_of_le (by omega) (by omega)

theorem toInt32_toInt64 (n : Int32) : n.toInt64.toInt32 = n := by
  have hlow := n.le_toInt
  have hhigh := n.toInt_lt
  rw [← Int32.toInt_inj, Int64.toInt_toInt32, Int32.toInt_toInt64]
  exact Int.bmod_eq_of_le (by omega) (by omega)

theorem convert?_int32_of_int64 (n : Int64) :
    (int64 n).convert? .int32 = if fitsInt32 n then some (int32 n.toInt32) else none := rfl

theorem convert?_double_of_decimal (s : String) :
    (decimal s).convert? .double = (readDouble? (trim s)).map double := rfl

theorem convert?_double_of_int64 (n : Int64) :
    (int64 n).convert? .double = (exactDouble? n).map double := rfl

/-- What a conversion can make of a settled value. -/
inductive Reshaped : Value → Value → Prop
  | same (v : Value) : Reshaped v v
  | written {v : Value} (hv : v.isReadable = true) : Reshaped v (string (modernLiteral false v))
  | widened (n : Int32) : Reshaped (int32 n) (int64 n.toInt64)
  | narrowed {n : Int64} (hn : fitsInt32 n = true) : Reshaped (int64 n) (int32 n.toInt32)
  | oneWay {v w : Value} {own : ValueType} (ho : v.type? = some own)
      (hback : w.convert? own = none) : Reshaped v w
  | midnight (d : Date) : Reshaped (date d) (timestamp (.ofDate d))
  | cut (t : Timestamp) : Reshaped (timestamp t) (date t.date)

theorem reshaped_of_convert? (hv : v.isSettled = true) (h : v.convert? target = some w) :
    Reshaped v w := by
  have hsame : some v = some w → Reshaped v w := by
    rintro ⟨⟩
    exact .same v
  cases v with
  | string s | double d | enum m => cases hv
  | null => exact hsame h
  | bool b =>
    cases target with
    | bool => exact hsame h
    | string =>
      obtain rfl := Option.some.inj h
      exact .written (v := bool b) rfl
    | _ => cases h
  | int32 n =>
    cases target with
    | int32 => exact hsame h
    | int64 =>
      obtain rfl := Option.some.inj h
      exact .widened n
    | double =>
      obtain rfl := Option.some.inj h
      exact .oneWay rfl rfl
    | decimal =>
      obtain rfl := Option.some.inj h
      exact .oneWay rfl rfl
    | string =>
      obtain rfl := Option.some.inj h
      exact .written (v := int32 n) rfl
    | _ => cases h
  | int64 n =>
    cases target with
    | int32 =>
      rw [convert?_int32_of_int64] at h
      split at h
      next hfits =>
        obtain rfl := Option.some.inj h
        exact .narrowed hfits
      next => cases h
    | int64 => exact hsame h
    | double =>
      rw [convert?_double_of_int64] at h
      obtain ⟨d, -, rfl⟩ := Option.map_eq_some_iff.1 h
      exact .oneWay rfl rfl
    | decimal =>
      obtain rfl := Option.some.inj h
      exact .oneWay rfl rfl
    | string =>
      obtain rfl := Option.some.inj h
      exact .written (v := int64 n) rfl
    | _ => cases h
  | decimal s =>
    cases target with
    | double =>
      rw [convert?_double_of_decimal] at h
      obtain ⟨d, -, rfl⟩ := Option.map_eq_some_iff.1 h
      exact .oneWay rfl rfl
    | decimal => exact hsame h
    | string =>
      obtain rfl := Option.some.inj h
      exact .written (v := .decimal s) hv
    | _ => cases h
  | guid g =>
    cases target with
    | guid => exact hsame h
    | string =>
      obtain rfl := Option.some.inj h
      exact .written (v := guid g) rfl
    | _ => cases h
  | date d =>
    cases target with
    | date => exact hsame h
    | timestamp =>
      obtain rfl := Option.some.inj h
      exact .midnight d
    | _ => cases h
  | timestamp t =>
    cases target with
    | timestamp => exact hsame h
    | date =>
      obtain rfl := Option.some.inj h
      exact .cut t
    | _ => cases h
  | binary b =>
    cases target with
    | binary => exact hsame h
    | _ => cases h

/-- Cutting a timestamp to its date is the only conversion that may not be taken back. -/
theorem Reshaped.back (h : Reshaped v w) (hv : v.isSettled = true)
    (ho : v = null ∨ v.type? = some own) (hb : w.convert? own = some v') :
    v' = v ∨ ∃ t, v = timestamp t ∧ w = .date t.date ∧ v' = timestamp (.ofDate t.date) := by
  have htype : v ≠ null → v.type? = some own := ho.resolve_left
  cases h with
  | same =>
    rw [convert?_own hv ho] at hb
    exact .inl (Option.some.inj hb).symm
  | written hr =>
    have hne : v ≠ null := by
      rintro rfl
      cases hr
    exact .inl (convert?_back_of_text hr (htype hne) hb)
  | widened n =>
    cases htype (by simp)
    rw [convert?_int32_of_int64, toInt32_toInt64] at hb
    split at hb
    · exact .inl (Option.some.inj hb).symm
    · cases hb
  | narrowed hn =>
    cases htype (by simp)
    exact .inl (by rw [← Option.some.inj hb, toInt64_toInt32 hn])
  | oneWay hown hback =>
    have hne : v ≠ null := by
      rintro rfl
      cases hown
    obtain rfl := Option.some.inj (hown.symm.trans (htype hne))
    rw [hback] at hb
    cases hb
  | midnight d =>
    cases htype (by simp)
    exact .inl (Option.some.inj hb).symm
  | cut t =>
    cases htype (by simp)
    exact .inr ⟨t, rfl, rfl, (Option.some.inj hb).symm⟩

theorem equal_self (hv : v.isSettled = true) : v.equal v = true := by
  cases v with
  | string s | double d | enum m => cases hv
  | timestamp t => simp [equal, Timestamp.equal]
  | _ => simp [equal]

/-- A value that is converted to another type and back is the same value again, and so is a
timestamp that was cut to its date exactly if it was the midnight of that date in UTC; it is the
same instant exactly if the midnight of that date in UTC is. -/
theorem convert?_back_iff (hv : v.isSettled = true) (ho : v = null ∨ v.type? = some own)
    (h : v.convert? target = some w) (hb : w.convert? own = some v') :
    (v' = v ↔ ∀ t, v = timestamp t → target = .date → t = .ofDate t.date) ∧
      (v'.equal v = true ↔ ∀ t, v = timestamp t → target = .date →
        t.instant = (Timestamp.ofDate t.date).instant) := by
  by_cases hcut : ∃ t, v = timestamp t ∧ target = .date
  · obtain ⟨t, rfl, rfl⟩ := hcut
    obtain rfl := Option.some.inj h
    cases ho.resolve_left (by simp)
    obtain rfl := Option.some.inj hb
    have hequal : (timestamp (.ofDate t.date)).equal (timestamp t) =
        ((Timestamp.ofDate t.date).instant == t.instant) := rfl
    rw [hequal, beq_iff_eq, timestamp.injEq]
    constructor
    · exact ⟨fun he t' ht _ => by rw [← timestamp.inj ht, he], fun he => (he t rfl rfl).symm⟩
    · exact ⟨fun he t' ht _ => by rw [← timestamp.inj ht, he], fun he => (he t rfl rfl).symm⟩
  · have hne : ∀ t, v = timestamp t → target ≠ .date := fun t ht hd => hcut ⟨t, ht, hd⟩
    have hback : v' = v := by
      refine ((reshaped_of_convert? hv h).back hv ho hb).resolve_right ?_
      rintro ⟨t, rfl, rfl, -⟩
      have hdate : target = .date := by
        cases target with
        | date => rfl
        | _ => cases h
      exact hne t rfl hdate
    refine ⟨iff_of_true hback fun t ht hd => absurd hd (hne t ht), ?_⟩
    rw [hback]
    exact iff_of_true (equal_self hv) fun t ht hd => absurd hd (hne t ht)

/-- Two in the morning at an offset of two hours: midnight in UTC. -/
def summerNight : Timestamp :=
  ⟨⟨2024, 7, 1, by decide⟩, ⟨2, 0, 0, 0, by decide⟩, ⟨7200, by decide⟩⟩

/-- Its date is given back as the same instant, at another offset. -/
theorem convert?_back_summerNight :
    (timestamp summerNight).convert? .date = some (date summerNight.date) ∧
      (date summerNight.date).convert? .timestamp = some (timestamp (.ofDate summerNight.date)) ∧
      (timestamp (.ofDate summerNight.date)).equal (timestamp summerNight) = true ∧
      timestamp (.ofDate summerNight.date) ≠ timestamp summerNight := by
  have hcut : (timestamp summerNight).convert? .date = some (date summerNight.date) := rfl
  have hback : (date summerNight.date).convert? .timestamp =
      some (timestamp (.ofDate summerNight.date)) := rfl
  obtain ⟨hsame, hequal⟩ := convert?_back_iff rfl (.inr rfl) hcut hback
  refine ⟨hcut, hback, hequal.2 ?_, fun he => ?_⟩
  · rintro t ⟨⟩ -
    decide
  · exact absurd (hsame.1 he summerNight rfl rfl) (by decide)

/-- Half past ten in UTC. -/
def morning : Timestamp :=
  ⟨⟨2024, 3, 1, by decide⟩, ⟨10, 30, 0, 0, by decide⟩, .utc⟩

/-- Its date is given back as the midnight before it. -/
theorem convert?_back_morning :
    (timestamp morning).convert? .date = some (date morning.date) ∧
      (date morning.date).convert? .timestamp = some (timestamp (.ofDate morning.date)) ∧
      (timestamp (.ofDate morning.date)).equal (timestamp morning) = false := by
  decide

end Value

end ODataClient
