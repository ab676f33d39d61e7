import ODataClient.Text.Case
import ODataClient.Text.Parts
import Mathlib.Data.List.Forall2

/-! Texts joined from parts, and paths from segments. Cutting gives the parts back as long as
none of them holds the separator, and a path put in front of another one leads to their
segments one after the other. Paths of the same names in any case have segments of the same
names. -/

namespace ODataClient

theorem parts_append_cons (sep : Char) (s r : List Char) :
    parts sep (s ++ sep :: r) = parts sep s ++ parts sep r := by
  induction s with
  | nil => simp [parts, cut]
  | cons c s ih =>
    rw [parts, parts] at ih
    obtain ⟨h₁, h₂⟩ := List.cons.inj ih
    by_cases h : c = sep
    · simp [parts, cut, h, h₁, h₂]
    · simp [parts, cut, h, h₁, h₂]

theorem parts_intercalate {sep : Char} {l : List (List Char)} (hne : l ≠ [])
    (h : ∀ p ∈ l, sep ∉ p) : parts sep ([sep].intercalate l) = l := by
  induction l with
  | nil => exact absurd rfl hne
  | cons p r ih =>
    have hp : parts sep p = [p] := parts_eq_singleton (h p (by simp))
    cases r with
    | nil =>
      rw [List.intercalate_singleton]
      exact hp
    | cons q r =>
      have hr := ih (by simp) fun x hx => h x (List.mem_cons_of_mem _ hx)
      have hcut : p ++ [sep] ++ [sep].intercalate (q :: r) =
          p ++ sep :: [sep].intercalate (q :: r) := by simp
      rw [List.intercalate_cons_cons, hcut, parts_append_cons, hp, hr, List.singleton_append]

theorem segments_append (a b : String) : segments (a ++ "/" ++ b) = segments a ++ segments b := by
  have h : (a ++ "/" ++ b).toList = a.toList ++ '/' :: b.toList := by simp
  rw [segments, splitText, h, parts_append_cons, List.map_append]
  rfl

theorem headSegment_append (a b : String) : headSegment (a ++ "/" ++ b) = headSegment a := by
  obtain ⟨l, hl⟩ := segments_eq_cons a
  obtain ⟨r, hr⟩ := segments_eq_cons (a ++ "/" ++ b)
  rw [segments_append, hl, List.cons_append] at hr
  exact (List.cons.inj hr).1.symm

theorem segments_of_noSlash {s : String} (h : '/' ∉ s.toList) : segments s = [s] := by
  rw [segments, splitText, parts_eq_singleton h, List.map_singleton, String.ofList_toList]

theorem joinSegments_cons (s : String) {l : List String} (h : l ≠ []) :
    joinSegments (s :: l) = s ++ "/" ++ joinSegments l := by
  obtain ⟨r, l, rfl⟩ := List.exists_cons_of_ne_nil h
  rw [← String.toList_inj, joinSegments, joinSegments]
  simp [String.toList_intercalate, List.intercalate]

theorem joinSegments_append {l r : List String} (hl : l ≠ []) (hr : r ≠ []) :
    joinSegments (l ++ r) = joinSegments l ++ "/" ++ joinSegments r := by
  induction l with
  | nil => exact absurd rfl hl
  | cons s l ih =>
    by_cases hnil : l = []
    · subst hnil
      exact joinSegments_cons s hr
    · rw [List.cons_append, joinSegments_cons s (by simp [hnil]), ih hnil, joinSegments_cons s hnil]
      simp only [String.append_assoc]

theorem splitText_intercalate {sep : Char} {separator : String} (hsep : separator.toList = [sep])
    {l : List String} (hne : l ≠ []) (h : ∀ s ∈ l, sep ∉ s.toList) :
    splitText sep (String.intercalate separator l) = l := by
  have hjoin : (String.intercalate separator l).toList = [sep].intercalate (l.map String.toList) := by
    rw [String.toList_intercalate, hsep]
  have hparts : ∀ p ∈ l.map String.toList, sep ∉ p := List.forall_mem_map.2 h
  rw [splitText, hjoin, parts_intercalate (by simpa using hne) hparts, List.map_map]
  exact (List.map_congr_left fun s _ => String.ofList_toList).trans (List.map_id l)

theorem segments_joinSegments {l : List String} (hne : l ≠ []) (h : ∀ s ∈ l, '/' ∉ s.toList) :
    segments (joinSegments l) = l :=
  splitText_intercalate rfl hne h

theorem notMem_of_mem_splitText {sep : Char} {s t : String} (h : t ∈ splitText sep s) :
    sep ∉ t.toList := by
  obtain ⟨p, hp, rfl⟩ := List.mem_map.1 h
  rw [String.toList_ofList]
  exact notMem_of_mem_parts hp

theorem noSlash_of_mem_segments {path s : String} (h : s ∈ segments path) : '/' ∉ s.toList :=
  notMem_of_mem_splitText h

theorem segments_join_drop {path : String} {k : Nat} (h : (segments path).drop k ≠ []) :
    segments (joinSegments ((segments path).drop k)) = (segments path).drop k :=
  segments_joinSegments h fun _ hs => noSlash_of_mem_segments (List.mem_of_mem_drop hs)

theorem join_take_drop {path : String} {k : Nat} (ht : (segments path).take k ≠ [])
    (hd : (segments path).drop k ≠ []) : joinSegments ((segments path).take k) ++ "/" ++
      joinSegments ((segments path).drop k) = path := by
  rw [← joinSegments_append ht hd, List.take_append_drop, joinSegments_segments]

theorem length_joinSegments_drop_le (l : List String) (k : Nat) :
    (joinSegments (l.drop k)).length ≤ (joinSegments l).length := by
  induction l generalizing k with
  | nil => simp
  | cons s r ih =>
    cases k with
    | zero => simp
    | succ k =>
      rw [List.drop_succ_cons]
      by_cases hr : r = []
      · simp [hr, joinSegments]
      · have hk := ih k
        simp only [joinSegments_cons s hr, String.length_append]
        omega

theorem length_join_drop_le (path : String) (k : Nat) :
    (joinSegments ((segments path).drop k)).length ≤ path.length := by
  have h := length_joinSegments_drop_le (segments path) k
  rwa [joinSegments_segments] at h

theorem toLower_eq_slash {c : Char} (h : c.toLower = '/') : c = '/' := by
  delta Char.toLower at h
  split at h
  next hu =>
    have hv : (c.val + 32).toNat = 47 := congrArg (fun c : Char => c.val.toNat) h
    have h₁ : 65 ≤ c.val.toNat := UInt32.le_iff_toNat_le.1 hu.1
    have h₂ : c.val.toNat ≤ 90 := UInt32.le_iff_toNat_le.1 hu.2
    rw [UInt32.toNat_add] at hv
    have h32 : (32 : UInt32).toNat = 32 := rfl
    omega
  next => exact h

theorem noSlash_of_sameName {a b : String} (h : sameName a b) (hb : '/' ∉ b.toList) :
    '/' ∉ a.toList := by
  intro ha
  have hm : '/' ∈ a.toList.map Char.toLower := List.mem_map.2 ⟨'/', ha, rfl⟩
  have he : a.toList.map Char.toLower = b.toList.map Char.toLower := by simpa [sameName] using h
  rw [he, List.mem_map] at hm
  obtain ⟨c, hc, hl⟩ := hm
  exact hb (toLower_eq_slash hl ▸ hc)

theorem parts_map_toLower (s : List Char) :
    parts '/' (s.map Char.toLower) = (parts '/' s).map (·.map Char.toLower) := by
  induction s with
  | nil => rfl
  | cons c s ih =>
    have hslash : c.toLower = '/' ↔ c = '/' := ⟨toLower_eq_slash, fun hc => by rw [hc]; rfl⟩
    simp only [parts, List.map_cons, List.cons.injEq] at ih
    by_cases hc : c = '/'
    · simp [parts, cut, hc, ih.1, ih.2]
    · simp [parts, cut, hslash, hc, ih.1, ih.2]

theorem length_segments_of_sameName {a b : String} (h : sameName a b) :
    (segments a).length = (segments b).length := by
  have hlength : ∀ s : String,
      (segments s).length = (parts '/' (s.toList.map Char.toLower)).length := by
    intro s
    rw [parts_map_toLower, segments, splitText, List.length_map, List.length_map]
  rw [hlength, hlength, eq_of_beq h]

theorem sameName_append {a b c d : String} (h : sameName a b) (h' : sameName c d) :
    sameName (a ++ c) (b ++ d) := by
  simp only [sameName, beq_iff_eq, String.toList_append, List.map_append] at *
  rw [h, h']

theorem sameName_joinSegments {names segs : List String}
    (h : List.Forall₂ (fun name segment => sameName name segment) names segs) :
    sameName (joinSegments names) (joinSegments segs) := by
  induction h with
  | nil => exact sameName_refl _
  | @cons name segment names segs hname hnames ih =>
    by_cases hs : segs = []
    · subst hs
      obtain rfl := List.forall₂_nil_right_iff.1 hnames
      simpa [joinSegments] using hname
    · have hn : names ≠ [] := fun hn => hs (List.forall₂_nil_left_iff.1 (hn ▸ hnames))
      rw [joinSegments_cons name hn, joinSegments_cons segment hs]
      exact sameName_append (sameName_append hname (sameName_refl _)) ih

end ODataClient
