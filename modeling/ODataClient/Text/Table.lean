/-! Tables from names to values, in the order of the names. -/

namespace ODataClient

/-- Each name is below those after it. -/
def InNameOrder {β : Type} (entries : List (String × β)) : Prop :=
  entries.Pairwise fun a b => a.1 < b.1

structure Table (β : Type) where
  entries : List (String × β)
  ordered : InNameOrder entries

namespace Table

variable {β γ : Type}

theorem ext {t u : Table β} (h : t.entries = u.entries) : t = u := by
  cases t; cases u; simp_all

instance [DecidableEq β] : DecidableEq (Table β) := fun t u =>
  if h : t.entries = u.entries then isTrue (ext h) else isFalse fun hh => h (by rw [hh])

def empty : Table β := ⟨[], List.Pairwise.nil⟩

instance : Inhabited (Table β) := ⟨empty⟩

def isEmpty (t : Table β) : Bool := t.entries.isEmpty

def get? (t : Table β) (name : String) : Option β := t.entries.lookup name

def contains (t : Table β) (name : String) : Bool := (t.get? name).isSome

def alterEntries (name : String) (f : Option β → β) : List (String × β) → List (String × β)
  | [] => [(name, f none)]
  | (k, v) :: r =>
    if name < k then (name, f none) :: (k, v) :: r
    else if name = k then (k, f (some v)) :: r
    else (k, v) :: alterEntries name f r

theorem mem_alterEntries {name : String} {f : Option β → β} {l : List (String × β)}
    {p : String × β} (h : p ∈ alterEntries name f l) : p.1 = name ∨ p ∈ l := by
  induction l with
  | nil => simp [alterEntries] at h; simp [h]
  | cons q r ih =>
    obtain ⟨k, v⟩ := q
    rw [alterEntries] at h
    split at h
    · simp at h ⊢; rcases h with rfl | h | h <;> simp_all
    · split at h
      · simp at h ⊢; rcases h with rfl | h <;> simp_all
      · rw [List.mem_cons] at h
        rcases h with rfl | h
        · simp
        · rcases ih h with h | h <;> simp [h]

theorem alterEntries_ordered (name : String) (f : Option β → β) {l : List (String × β)}
    (h : InNameOrder l) : InNameOrder (alterEntries name f l) := by
  induction l with
  | nil => simp [alterEntries, InNameOrder]
  | cons q r ih =>
    obtain ⟨k, v⟩ := q
    obtain ⟨hk, hr⟩ := List.pairwise_cons.1 h
    rw [alterEntries]
    split
    · rename_i hlt
      refine List.pairwise_cons.2 ⟨fun p hp => ?_, h⟩
      rcases List.mem_cons.1 hp with rfl | hp
      · exact hlt
      · exact String.lt_trans hlt (hk p hp)
    · rename_i hlt
      split
      · exact List.pairwise_cons.2 ⟨hk, hr⟩
      · rename_i hne
        refine List.pairwise_cons.2 ⟨fun p hp => ?_, ih hr⟩
        rcases mem_alterEntries hp with hp | hp
        · have hle : k ≤ name := String.not_lt.1 hlt
          rcases Classical.em (k < name) with hh | hh
          · rw [hp]; exact hh
          · exact absurd (String.le_antisymm (String.not_lt.1 hh) hle) hne
        · exact hk p hp

def alter (t : Table β) (name : String) (f : Option β → β) : Table β :=
  ⟨alterEntries name f t.entries, alterEntries_ordered name f t.ordered⟩

def set (t : Table β) (name : String) (v : β) : Table β := t.alter name fun _ => v

def ofList (l : List (String × β)) : Table β := l.foldl (fun t p => t.set p.1 p.2) empty

def erase (t : Table β) (name : String) : Table β :=
  ⟨t.entries.filter fun p => p.1 != name, t.ordered.filter _⟩

def size (t : Table β) : Nat := t.entries.length

def names (t : Table β) : List String := t.entries.map (·.1)

def append (t : Table (List β)) (name : String) (l : List β) : Table (List β) :=
  t.alter name fun old => old.getD [] ++ l

theorem map_ordered (f : String → β → γ) {l : List (String × β)} (h : InNameOrder l) :
    InNameOrder (l.map fun p => (p.1, f p.1 p.2)) :=
  List.pairwise_map.2 (h.imp fun hh => hh)

def map (t : Table β) (f : String → β → γ) : Table γ :=
  ⟨t.entries.map fun p => (p.1, f p.1 p.2), map_ordered f t.ordered⟩

end Table

end ODataClient
