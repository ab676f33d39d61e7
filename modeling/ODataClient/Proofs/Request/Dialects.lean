import ODataClient.Proofs.Filter.Syntaxes
import ODataClient.Proofs.Request.PlainFilters
import ODataClient.Proofs.Request.Routing

/-! One command in both syntaxes. The legacy syntax keeps the full paths of references and cuts
them where a fragment is read from its collection; the modern syntax cuts them when the fragment
is filed, wherever it is read from then. The legacy text of a part is never the shorter one, so
the filters of both are the same just when those of every part are. -/

namespace ODataClient

namespace Adapter

/-- A fragment as a conjunct of the filter, when no expand item takes it. -/
def filterPiece (a : Adapter) (t : CommandTarget) (b : String) (e : Expr) : Except Error String :=
  if b = CommandTarget.rootBucket t ∨ e.isLambdaOver b then a.conjunct e
  else (a.renderer.render (a.emitted b e .wrapped)).map (anyLambda b wrapperVariable)

end Adapter

namespace EntityModel

def legacyAdapter (m : EntityModel) (o : AdapterOptions) : Adapter := ⟨.v3, m.navigator, o⟩

def modernAdapter (m : EntityModel) (o : AdapterOptions) : Adapter := ⟨.v4, m.navigator, o⟩

/-- When a part that is filed under `b` has the same text in both syntaxes. A part that stands in
the filter as it is must not have been cut; any other one must be read from its collection by
both, and no full path may be captured by a lambda of the part. -/
def SaidAlike (m : EntityModel) (t : CommandTarget) (entity : String) (part : Expr) (b : String) :
    Prop :=
  if sameName entity t.entityKey then
    if b = Adapter.CommandTarget.rootBucket t ∨ part.isLambdaOver b then
      ∀ path ∈ freePaths (part.occurrences []),
        m.filedPath .modern (Adapter.CommandTarget.rootBucket t) part path = path
    else ¬ (part.mapReferences
      (m.filedPath .modern (Adapter.CommandTarget.rootBucket t) part)).isLambdaOver b
  else if b = Adapter.CommandTarget.rootBucket t then freePaths (part.occurrences []) = []
  else ¬ part.isLambdaOver b ∧
    ∀ r ∈ part.occurrences [], ¬ r.Bound → headSegment b ∈ r.scopes → b = wrapperVariable

instance (m : EntityModel) (t : CommandTarget) (entity : String) (part : Expr) (b : String) :
    Decidable (m.SaidAlike t entity part b) :=
  inferInstanceAs (Decidable (ite _ _ _))

/-- A part of a stored filter, and how it is kept for each syntax. -/
structure InBoth (m : EntityModel) (o : AdapterOptions) (c : Command) (t : CommandTarget)
    (entity : String) (part : Expr) (b : String) (e e' : Expr) : Prop where
  target : (m.legacyAdapter o).target c = .ok t
  plain : part.Plain
  named : entity ≠ ""
  legacy : (m.legacyAdapter o).fragment t entity part = .ok (b, e)
  modern : (m.modernAdapter o).fragment t entity part = .ok (b, e')

variable {m : EntityModel} {o : AdapterOptions} {c : Command} {t : CommandTarget}
  {entity root b : String} {part e e' : Expr}

theorem storedPath_legacy_own (hown : sameName entity t.entityKey)
    (hroot : t.collection = some root) :
    (m.legacyAdapter o).storedPath m t entity part = id := by
  rw [Adapter.storedPath, if_pos hown, hroot]
  exact filedPath_legacy m root part

theorem storedPath_modern_own (hown : sameName entity t.entityKey)
    (hroot : t.collection = some root) :
    (m.modernAdapter o).storedPath m t entity part = m.filedPath .modern root part := by
  rw [Adapter.storedPath, if_pos hown, hroot]
  rfl

theorem storedPath_legacy_related (hrel : ¬ sameName entity t.entityKey)
    (hb : b = Adapter.canonicalPath m.navigator t.collection entity) :
    (m.legacyAdapter o).storedPath m t entity part = (b ++ "/" ++ ·) := by
  rw [Adapter.storedPath, if_neg hrel, hb]
  rfl

theorem storedPath_modern_related (hrel : ¬ sameName entity t.entityKey) :
    (m.modernAdapter o).storedPath m t entity part = id := by
  rw [Adapter.storedPath, if_neg hrel]
  rfl

namespace InBoth

theorem exists_root (h : m.InBoth o c t entity part b e e') (hown : sameName entity t.entityKey) :
    ∃ root, t.collection = some root ∧ Adapter.CommandTarget.rootBucket t = root := by
  cases hroot : t.collection with
  | none =>
    have hfragment := h.legacy
    rw [Adapter.fragment, if_pos hown, hroot] at hfragment
    simp at hfragment
  | some root =>
    exact ⟨root, rfl, by rw [Adapter.CommandTarget.rootBucket, hroot]; rfl⟩

theorem bucket_related (h : m.InBoth o c t entity part b e e')
    (hrel : ¬ sameName entity t.entityKey) :
    b = Adapter.canonicalPath m.navigator t.collection entity := by
  have hfragment := h.legacy
  rw [Adapter.fragment_related hrel] at hfragment
  exact (congrArg Prod.fst (Except.ok.inj hfragment)).symm

theorem bucket_ne_empty (h : m.InBoth o c t entity part b e e')
    (hrel : ¬ sameName entity t.entityKey) : b ≠ "" := by
  intro hb
  have hlength := length_canonicalPath m t.collection entity
  rw [← h.bucket_related hrel, hb] at hlength
  exact h.named (String.length_eq_zero_iff.1 hlength.symm)

theorem modern_target (h : m.InBoth o c t entity part b e e') :
    (m.modernAdapter o).target c = .ok t := h.target

theorem filterEntity_eq (h : m.InBoth o c t entity part b e e')
    (hown : sameName entity t.entityKey) (hroot : t.collection = some root) (hb : b ≠ root)
    {r : Occurrence} (hr : r ∈ part.occurrences []) (hfree : ¬ r.Bound) :
    m.filterEntity root r.path = .ok b := by
  have hfiled := h.legacy
  rw [Adapter.fragment_own rfl h.target hown hroot] at hfiled
  exact Adapter.filterEntity_of_partTargets ((filedPart_eq_ok hfiled).2 hb).1 hr hfree

/-- The path that the modern syntax keeps of a reference that is read from another collection. -/
theorem keptPath_own (h : m.InBoth o c t entity part b e e')
    (hown : sameName entity t.entityKey) (hroot : t.collection = some root) (hb : b ≠ root)
    {r : Occurrence} (hr : r ∈ part.occurrences []) (hfree : ¬ r.Bound) :
    m.filedPath .modern root part r.path = Expr.dropSegments (segments b).length r.path := by
  have hpath := h.filterEntity_eq hown hroot hb hr hfree
  have hmodern := Adapter.wrappedPath_own rfl h.modern_target hown hroot h.modern hb hpath
  rw [Adapter.wrappedPath, storedPath_modern_own hown hroot] at hmodern
  exact hmodern

theorem legacy_own (h : m.InBoth o c t entity part b e e') (hown : sameName entity t.entityKey) :
    e = part := by
  obtain ⟨root, hroot, -⟩ := h.exists_root hown
  have he := Adapter.fragment_plain rfl h.target h.plain h.legacy
  rw [storedPath_legacy_own hown hroot] at he
  exact he.trans (Expr.mapScoped_id [] part)

theorem legacy_related (h : m.InBoth o c t entity part b e e')
    (hrel : ¬ sameName entity t.entityKey) : e = part.mapReferences (b ++ "/" ++ ·) := by
  have he := Adapter.fragment_plain rfl h.target h.plain h.legacy
  rwa [storedPath_legacy_related hrel (h.bucket_related hrel)] at he

theorem modern_own (h : m.InBoth o c t entity part b e e') (hown : sameName entity t.entityKey)
    (hroot : t.collection = some root) :
    e' = part.mapReferences (m.filedPath .modern root part) := by
  have he := Adapter.fragment_plain rfl h.modern_target h.plain h.modern
  rwa [storedPath_modern_own hown hroot] at he

theorem modern_related (h : m.InBoth o c t entity part b e e')
    (hrel : ¬ sameName entity t.entityKey) : e' = part := by
  have he := Adapter.fragment_plain rfl h.modern_target h.plain h.modern
  rw [storedPath_modern_related hrel] at he
  exact he.trans (Expr.mapScoped_id [] part)

/-- A lambda over the collection that it is filed under is kept as one. -/
theorem modern_isLambdaOver (h : m.InBoth o c t entity part b e e')
    (hown : sameName entity t.entityKey) (hroot : t.collection = some root) (hb : b ≠ root)
    (hl : part.isLambdaOver b = true) : e'.isLambdaOver b = true := by
  have hpart : (part.mapReferences id).isLambdaOver b = true := by
    rwa [Expr.mapReferences, Expr.mapScoped_id]
  obtain ⟨collection, name, var, body, he, hname, hsame⟩ := Expr.isLambdaOver_mapReferences.1 hpart
  have hr : (⟨[], collection⟩ : Occurrence) ∈ part.occurrences [] := by
    rw [he, Expr.occurrences_lambda hname]
    exact List.mem_cons_self
  have hkept := h.keptPath_own hown hroot hb hr List.not_mem_nil
  have hlength : (segments collection).length = (segments b).length :=
    length_segments_of_sameName hsame
  rw [h.modern_own hown hroot]
  refine Expr.isLambdaOver_mapReferences.2 ⟨collection, name, var, body, he, hname, ?_⟩
  have hdrop : Expr.dropSegments (segments b).length collection = collection := by
    rw [Expr.dropSegments, if_neg (by omega)]
  rw [hkept, hdrop]
  exact hsame

/-- A lambda that is kept for a related entity never is one over it in the legacy syntax. -/
theorem legacy_not_isLambdaOver (h : m.InBoth o c t entity part b e e')
    (hrel : ¬ sameName entity t.entityKey) : e.isLambdaOver b = false := by
  rw [Bool.eq_false_iff, h.legacy_related hrel]
  intro hl
  obtain ⟨collection, name, var, body, -, -, hsame⟩ := Expr.isLambdaOver_mapReferences.1 hl
  have hlength := length_segments_of_sameName hsame
  have hpos := List.length_pos_iff.2 (segments_ne_nil collection)
  simp only [segments_append, List.length_append] at hlength
  omega

theorem length_whole_le (h : m.InBoth o c t entity part b e e') (r : Occurrence) :
    (r.renameAll ((m.modernAdapter o).replacements m t entity part b .whole)).path.length ≤
      (r.renameAll ((m.legacyAdapter o).replacements m t entity part b .whole)).path.length := by
  show (r.rename _).path.length ≤ (r.rename _).path.length
  by_cases hfree : r.Bound
  · rw [Occurrence.rename_of_bound hfree, Occurrence.rename_of_bound hfree]
  · rw [Occurrence.rename_of_free hfree, Occurrence.rename_of_free hfree]
    by_cases hown : sameName entity t.entityKey = true
    · obtain ⟨root, hroot, -⟩ := h.exists_root hown
      rw [storedPath_legacy_own hown hroot, storedPath_modern_own hown hroot]
      exact length_filedPath_le m .modern root part r.path
    · rw [storedPath_legacy_related hown (h.bucket_related hown), storedPath_modern_related hown]
      simp only [id_eq, String.length_append]
      omega

theorem length_whole_le_wrapped (m : EntityModel) (o : AdapterOptions) (t : CommandTarget)
    (entity : String) (part : Expr) (b : String) (r : Occurrence) :
    (r.renameAll ((m.modernAdapter o).replacements m t entity part b .whole)).path.length ≤
      (r.renameAll ((m.modernAdapter o).replacements m t entity part b .wrapped)).path.length := by
  generalize hs : (m.modernAdapter o).storedPath m t entity part = stored
  show (r.rename _).path.length ≤ (((r.rename _).rename id).rename _).path.length
  rw [hs, Occurrence.rename_id]
  generalize r.rename stored = p
  by_cases hfree : p.Bound
  · rw [Occurrence.rename_of_bound hfree]
  · rw [Occurrence.rename_of_free hfree]
    simp only [String.length_append]
    omega

theorem renameAll_wrapped_own (h : m.InBoth o c t entity part b e e')
    (hown : sameName entity t.entityKey) (hroot : t.collection = some root) (hb : b ≠ root)
    {r : Occurrence} (hr : r ∈ part.occurrences []) :
    r.renameAll ((m.modernAdapter o).replacements m t entity part b .wrapped) =
      r.renameAll ((m.legacyAdapter o).replacements m t entity part b .wrapped) := by
  by_cases hfree : r.Bound
  · rw [Occurrence.renameAll_of_bound _ hfree, Occurrence.renameAll_of_bound _ hfree]
  · have hkept := h.keptPath_own hown hroot hb hr hfree
    show ((r.rename _).rename id).rename _ = ((r.rename _).rename _).rename _
    rw [storedPath_legacy_own hown hroot, storedPath_modern_own hown hroot, Occurrence.rename_id,
      Occurrence.rename_id, Occurrence.rename_of_free hfree, Occurrence.rename_of_free hfree, hkept]
    rfl

/-- In a legacy fragment a reference is captured while it stands with its full path, too. -/
theorem path_wrapped_related (h : m.InBoth o c t entity part b e e')
    (hrel : ¬ sameName entity t.entityKey) {r : Occurrence} (hfree : ¬ r.Bound) :
    (r.renameAll ((m.modernAdapter o).replacements m t entity part b .wrapped)).path =
        wrapperVariable ++ "/" ++ r.path ∧
      (r.renameAll ((m.legacyAdapter o).replacements m t entity part b .wrapped)).path =
        if headSegment b ∈ r.scopes then b ++ "/" ++ r.path
        else wrapperVariable ++ "/" ++ r.path := by
  constructor
  · show (((r.rename _).rename id).rename _).path = _
    rw [storedPath_modern_related hrel, Occurrence.rename_id, Occurrence.rename_id,
      Occurrence.rename_of_free hfree]
  · show (((r.rename _).rename _).rename _).path = _
    rw [storedPath_legacy_related hrel (h.bucket_related hrel), Occurrence.rename_of_free hfree]
    have hhead := headSegment_append b r.path
    by_cases hcaptured : headSegment b ∈ r.scopes
    · have hbound : Occurrence.Bound ⟨r.scopes, b ++ "/" ++ r.path⟩ := by
        rwa [Occurrence.Bound, hhead]
      rw [Occurrence.rename_of_bound hbound, Occurrence.rename_of_bound hbound, if_pos hcaptured]
    · have hopen : ¬ Occurrence.Bound ⟨r.scopes, b ++ "/" ++ r.path⟩ := by
        rwa [Occurrence.Bound, hhead]
      have hdrop : (m.legacyAdapter o).relativePath b (b ++ "/" ++ r.path) = r.path :=
        Expr.dropSegments_qualified b r.path
      rw [Occurrence.rename_of_free hopen, hdrop, if_neg hcaptured]
      exact congrArg Occurrence.path (Occurrence.rename_of_free hfree)

theorem length_wrapped_le (h : m.InBoth o c t entity part b e e')
    (hb : b ≠ Adapter.CommandTarget.rootBucket t) {r : Occurrence}
    (hr : r ∈ part.occurrences []) :
    (r.renameAll ((m.modernAdapter o).replacements m t entity part b .wrapped)).path.length ≤
      (r.renameAll ((m.legacyAdapter o).replacements m t entity part b .wrapped)).path.length := by
  by_cases hown : sameName entity t.entityKey = true
  · obtain ⟨root, hroot, hrootBucket⟩ := h.exists_root hown
    rw [h.renameAll_wrapped_own hown hroot (hrootBucket ▸ hb) hr]
  · by_cases hfree : r.Bound
    · rw [Occurrence.renameAll_of_bound _ hfree, Occurrence.renameAll_of_bound _ hfree]
    · obtain ⟨hmodern, hlegacy⟩ := h.path_wrapped_related hown hfree
      rw [hmodern, hlegacy]
      split
      · have hpos : b.length ≠ 0 :=
          fun hz => h.bucket_ne_empty hown (String.length_eq_zero_iff.1 hz)
        have hx : wrapperVariable.length = 1 := rfl
        simp only [String.length_append, hx]
        omega
      · exact Nat.le_refl _

theorem alike : (m.legacyAdapter o).renderer.Alike (m.modernAdapter o).renderer := ⟨rfl, rfl, rfl⟩

theorem narrower_emitted (h : m.InBoth o c t entity part b e e') (place place' : Placement)
    (hle : ∀ r ∈ part.occurrences [],
      (r.renameAll ((m.modernAdapter o).replacements m t entity part b place')).path.length ≤
        (r.renameAll ((m.legacyAdapter o).replacements m t entity part b place)).path.length)
    {u v : String}
    (hu : (m.legacyAdapter o).renderer.render ((m.legacyAdapter o).emitted b e place) = .ok u)
    (hv : (m.modernAdapter o).renderer.render ((m.modernAdapter o).emitted b e' place') = .ok v) :
    Narrower (∀ r ∈ part.occurrences [],
      (r.renameAll ((m.modernAdapter o).replacements m t entity part b place')).path =
        (r.renameAll ((m.legacyAdapter o).replacements m t entity part b place)).path) u v := by
  obtain ⟨u', v', hu', hv', huv⟩ := Renderer.render_narrower alike h.plain _ _ [] hle
  rw [← Adapter.emitted_plain rfl h.target h.plain h.legacy place] at hu'
  rw [← Adapter.emitted_plain rfl h.modern_target h.plain h.modern place'] at hv'
  obtain rfl := Except.ok.inj (hu.symm.trans hu')
  obtain rfl := Except.ok.inj (hv.symm.trans hv')
  exact huv

theorem operator_eq (h : m.InBoth o c t entity part b e e') : e'.operator = e.operator := by
  rw [Adapter.fragment_plain rfl h.target h.plain h.legacy,
    Adapter.fragment_plain rfl h.modern_target h.plain h.modern]
  exact (Expr.operator_mapScoped _ [] part).trans (Expr.operator_mapScoped _ [] part).symm

theorem narrower_whole (h : m.InBoth o c t entity part b e e') {s s' : String}
    (hs : (m.legacyAdapter o).conjunct e = .ok s)
    (hs' : (m.modernAdapter o).conjunct e' = .ok s') :
    Narrower (∀ path ∈ freePaths (part.occurrences []),
      (m.modernAdapter o).storedPath m t entity part path =
        (m.legacyAdapter o).storedPath m t entity part path) s s' := by
  obtain ⟨u, hu, rfl⟩ := map_eq_ok_iff.1 hs
  obtain ⟨v, hv, rfl⟩ := map_eq_ok_iff.1 hs'
  have huv := h.narrower_emitted .whole .whole (fun r _ => h.length_whole_le r) hu hv
  exact (Renderer.narrower_bracketed _ huv h.operator_eq).of_iff (rename_paths_iff _ _ _)

theorem narrower_wrapped (h : m.InBoth o c t entity part b e e')
    (hb : b ≠ Adapter.CommandTarget.rootBucket t) {u v : String}
    (hu : (m.legacyAdapter o).renderer.render ((m.legacyAdapter o).emitted b e .wrapped) = .ok u)
    (hv : (m.modernAdapter o).renderer.render ((m.modernAdapter o).emitted b e' .wrapped) = .ok v) :
    Narrower (∀ r ∈ part.occurrences [],
      (r.renameAll ((m.modernAdapter o).replacements m t entity part b .wrapped)).path =
        (r.renameAll ((m.legacyAdapter o).replacements m t entity part b .wrapped)).path)
      (anyLambda b wrapperVariable u) (anyLambda b wrapperVariable v) := by
  have huv := h.narrower_emitted .wrapped .wrapped (fun r hr => h.length_wrapped_le hb hr) hu hv
  exact huv.between (b ++ "/any(" ++ wrapperVariable ++ ":") ")"

/-- What the modern syntax takes for a lambda over its collection is shorter than the lambda
that the legacy syntax puts around it. -/
theorem narrower_of_lambda (h : m.InBoth o c t entity part b e e')
    (hb : b ≠ Adapter.CommandTarget.rootBucket t) (hl : e'.isLambdaOver b = true)
    {u s' : String}
    (hu : (m.legacyAdapter o).renderer.render ((m.legacyAdapter o).emitted b e .wrapped) = .ok u)
    (hs' : (m.modernAdapter o).conjunct e' = .ok s') :
    Narrower False (anyLambda b wrapperVariable u) s' := by
  obtain ⟨v, hv, rfl⟩ := map_eq_ok_iff.1 hs'
  have huv := h.narrower_emitted .wrapped .whole (fun r hr =>
    (length_whole_le_wrapped m o t entity part b r).trans (h.length_wrapped_le hb hr)) hu hv
  have hplain : Renderer.bracketed Operator.and.precedence e' v = v := by
    rw [Renderer.bracketed, Expr.operator_of_isLambdaOver hl]
    rfl
  have hlength : v.length < (anyLambda b wrapperVariable u).length := by
    have hle := huv.le
    have hparen : (")" : String).length = 1 := rfl
    simp only [anyLambda, String.length_append, hparen]
    omega
  rw [hplain]
  refine ⟨Nat.le_of_lt hlength, iff_of_false (fun heq => ?_) id⟩
  rw [heq] at hlength
  exact Nat.lt_irrefl _ hlength

theorem narrower_own (h : m.InBoth o c t entity part b e e')
    (hown : sameName entity t.entityKey) {s s' : String}
    (hs : (m.legacyAdapter o).filterPiece t b e = .ok s)
    (hs' : (m.modernAdapter o).filterPiece t b e' = .ok s') :
    Narrower (m.SaidAlike t entity part b) s s' := by
  obtain ⟨root, hroot, hbucket⟩ := h.exists_root hown
  have he := h.legacy_own hown
  have he' := h.modern_own hown hroot
  rw [SaidAlike, if_pos hown, hbucket]
  rw [Adapter.filterPiece, hbucket] at hs hs'
  by_cases hw : b = root ∨ part.isLambdaOver b = true
  · have hw' : b = root ∨ e'.isLambdaOver b = true := by
      by_cases hb : b = root
      · exact Or.inl hb
      · exact Or.inr (h.modern_isLambdaOver hown hroot hb (hw.resolve_left hb))
    rw [if_pos (he ▸ hw)] at hs
    rw [if_pos hw'] at hs'
    have hwhole := h.narrower_whole hs hs'
    rw [storedPath_legacy_own hown hroot, storedPath_modern_own hown hroot] at hwhole
    rw [if_pos hw]
    exact hwhole
  · obtain ⟨hb, hl⟩ := not_or.1 hw
    have hbr : b ≠ Adapter.CommandTarget.rootBucket t := hbucket.symm ▸ hb
    rw [if_neg (he ▸ hw)] at hs
    rw [if_neg hw, ← he']
    obtain ⟨u, hu, rfl⟩ := map_eq_ok_iff.1 hs
    by_cases hl' : e'.isLambdaOver b = true
    · rw [if_pos (Or.inr hl')] at hs'
      exact (h.narrower_of_lambda hbr hl' hu hs').of_iff (by simp [hl'])
    · rw [if_neg (not_or.2 ⟨hb, hl'⟩)] at hs'
      obtain ⟨v, hv, rfl⟩ := map_eq_ok_iff.1 hs'
      refine (h.narrower_wrapped hbr hu hv).of_iff (iff_of_true (fun r hr => ?_) hl')
      rw [h.renameAll_wrapped_own hown hroot hb hr]

theorem narrower_related (h : m.InBoth o c t entity part b e e')
    (hrel : ¬ sameName entity t.entityKey) {s s' : String}
    (hs : (m.legacyAdapter o).filterPiece t b e = .ok s)
    (hs' : (m.modernAdapter o).filterPiece t b e' = .ok s') :
    Narrower (m.SaidAlike t entity part b) s s' := by
  have he' := h.modern_related hrel
  rw [SaidAlike, if_neg hrel]
  rw [Adapter.filterPiece] at hs hs'
  by_cases hb : b = Adapter.CommandTarget.rootBucket t
  · rw [if_pos (Or.inl hb)] at hs hs'
    rw [if_pos hb]
    have hwhole := h.narrower_whole hs hs'
    rw [storedPath_legacy_related hrel (h.bucket_related hrel), storedPath_modern_related hrel]
      at hwhole
    refine hwhole.of_iff ⟨fun hall => ?_, fun hnil path hpath => ?_⟩
    · refine List.eq_nil_iff_forall_not_mem.2 fun path hpath => ?_
      have hlength := congrArg String.length (hall path hpath)
      have hslash : ("/" : String).length = 1 := rfl
      simp only [id_eq, String.length_append, hslash] at hlength
      omega
    · rw [hnil] at hpath
      exact absurd hpath List.not_mem_nil
  · rw [if_neg (by simp [hb, h.legacy_not_isLambdaOver hrel])] at hs
    rw [if_neg hb]
    obtain ⟨u, hu, rfl⟩ := map_eq_ok_iff.1 hs
    by_cases hl : part.isLambdaOver b = true
    · rw [if_pos (Or.inr (he' ▸ hl))] at hs'
      exact (h.narrower_of_lambda hb (he' ▸ hl) hu hs').of_iff (by simp [hl])
    · rw [if_neg (by simp [hb, he', hl])] at hs'
      obtain ⟨v, hv, rfl⟩ := map_eq_ok_iff.1 hs'
      refine (h.narrower_wrapped hb hu hv).of_iff ?_
      rw [and_iff_right hl]
      refine forall₂_congr fun r _ => ?_
      by_cases hfree : r.Bound
      · simp [Occurrence.renameAll_of_bound _ hfree, hfree]
      · obtain ⟨hmodern, hlegacy⟩ := h.path_wrapped_related hrel hfree
        rw [hmodern, hlegacy]
        by_cases hcaptured : headSegment b ∈ r.scopes
        · simp [hcaptured, hfree, eq_comm]
        · simp [hcaptured]

/-- The legacy text of a part is never the shorter one, and both texts are the same when the
part is said alike. -/
theorem narrower (h : m.InBoth o c t entity part b e e') {s s' : String}
    (hs : (m.legacyAdapter o).filterPiece t b e = .ok s)
    (hs' : (m.modernAdapter o).filterPiece t b e' = .ok s') :
    Narrower (m.SaidAlike t entity part b) s s' := by
  by_cases hown : sameName entity t.entityKey = true
  · exact h.narrower_own hown hs hs'
  · exact h.narrower_related hown hs hs'

end InBoth

end EntityModel

namespace Adapter

variable {a : Adapter} {m : EntityModel} {o : AdapterOptions} {c : Command} {t : CommandTarget}
  {filters : EntityFilters}

/-- The bucket of a part of a stored filter. -/
def bucket (a : Adapter) (t : CommandTarget) (entity : String) (part : Expr) : String :=
  match a.fragment t entity part with
  | .ok f => f.1
  | .error _ => ""

theorem bucket_of_fragment {entity : String} {part : Expr} {f : String × Expr}
    (h : a.fragment t entity part = .ok f) : a.bucket t entity part = f.1 := by rw [bucket, h]

theorem bucket_modern (m : EntityModel) (o : AdapterOptions) (t : CommandTarget) (entity : String)
    (part : Expr) : (m.modernAdapter o).bucket t entity part =
      (m.legacyAdapter o).bucket t entity part := by
  have h : ((m.modernAdapter o).fragment t entity part).map (·.1) =
      ((m.legacyAdapter o).fragment t entity part).map (·.1) := by
    rw [fragment, fragment]
    by_cases hown : sameName entity t.entityKey = true
    · rw [if_pos hown, if_pos hown]
      cases t.collection with
      | none => rfl
      | some root =>
        have hfile : ∀ root, (filePart (m.modernAdapter o).navigator
              (m.modernAdapter o).filterOptions root part).map (·.1) =
            (filePart (m.legacyAdapter o).navigator
              (m.legacyAdapter o).filterOptions root part).map (·.1) := fun root =>
          EntityModel.bucket_filePart m .modern false o.strictTargets root part
        show (m.navigator.requireCollection root >>= _).map _ =
          (m.navigator.requireCollection root >>= _).map _
        cases m.navigator.requireCollection root with
        | error error => rfl
        | ok root => exact hfile root
    · rw [if_neg hown, if_neg hown]
      rfl
  rw [bucket, bucket]
  cases hm : (m.modernAdapter o).fragment t entity part with
  | error error =>
    rw [hm] at h
    cases hl : (m.legacyAdapter o).fragment t entity part with
    | error error => rfl
    | ok f => simp [hl] at h
  | ok f =>
    rw [hm] at h
    obtain ⟨f', hf', hb⟩ := map_eq_ok_iff.1 h.symm
    rw [hf']
    exact hb.symm

theorem filterPieces_ok (hx : c.node.expands = []) (htexts : c.node.textFilters = .empty)
    {predicates : List Predicate} (hp : a.predicates c t filters = .ok predicates) :
    ∃ ss, List.Forall₂ (fun f s => a.filterPiece t f.1 f.2 = .ok s)
        (filters.headed (CommandTarget.rootBucket t)) ss ∧ predicates = ss.map .part := by
  obtain ⟨own, related, hown, hrelated, rfl⟩ := predicates_eq_ok hp
  have hnests : ∀ b, a.nests c b = false := fun b => by simp [nests, Command.isExpanded, hx]
  have hpiece : ∀ f ∈ otherFragments t filters, ∀ p, a.relatedPredicate c f.1 f.2 = .ok p →
      ∃ s, a.filterPiece t f.1 f.2 = .ok s ∧ p = .part s := by
    intro f hf p hp
    have hb := bucket_ne_of_mem_others hf
    rw [filterPiece]
    rw [relatedPredicate, hnests] at hp
    by_cases hl : f.2.isLambdaOver f.1 = true
    · rw [if_pos hl] at hp
      rw [if_pos (Or.inr hl)]
      obtain ⟨s, hs, rfl⟩ := map_eq_ok_iff.1 hp
      exact ⟨s, hs, rfl⟩
    · rw [if_neg hl] at hp
      rw [if_neg (not_or.2 ⟨hb, hl⟩)]
      obtain ⟨u, hu, rfl⟩ := map_eq_ok_iff.1 hp
      exact ⟨_, map_eq_ok_iff.2 ⟨u, hu, rfl⟩, rfl⟩
  obtain ⟨ss, hss, rfl⟩ := exists_map_of_forall₂ (mapM_eq_ok_iff.1 hrelated) hpiece
  refine ⟨own ++ ss, List.rel_append ?_ hss, ?_⟩
  · rw [List.forall₂_map_left_iff]
    exact (mapM_eq_ok_iff.1 hown).imp fun e s hs => (if_pos (Or.inl rfl)).trans hs
  · rw [htexts, List.map_append]
    exact List.append_nil _

/-- The parts of the stored filters with their buckets. -/
def tagged (a : Adapter) (c : Command) (t : CommandTarget) : List (String × (String × Expr)) :=
  c.filterParts.map fun p => (a.bucket t p.1 p.2, p)

/-- The parts of the stored filters in the order in which they stand in the filter. -/
def partsInOrder (a : Adapter) (c : Command) (t : CommandTarget) :
    List (String × (String × Expr)) :=
  (Table.grouped (a.tagged c t)).headed (CommandTarget.rootBucket t)

theorem partsInOrder_perm (a : Adapter) (c : Command) (t : CommandTarget) :
    (a.partsInOrder c t).Perm (a.tagged c t) :=
  Table.group_append_others_perm _ _

theorem tagged_modern (m : EntityModel) (o : AdapterOptions) (c : Command) (t : CommandTarget) :
    (m.modernAdapter o).tagged c t = (m.legacyAdapter o).tagged c t := by
  simp only [tagged, bucket_modern]

theorem tagged_filed {filed : List (String × Expr)}
    (h : c.filterParts.mapM (fun p => a.fragment t p.1 p.2) = .ok filed) :
    List.Forall₂ (fun tag f => tag.1 = f.1 ∧ a.fragment t tag.2.1 tag.2.2 = .ok (tag.1, f.2))
      (a.tagged c t) filed := by
  rw [tagged, List.forall₂_map_left_iff]
  refine (mapM_eq_ok_iff.1 h).imp fun p f hf => ?_
  rw [bucket_of_fragment hf]
  exact ⟨rfl, hf⟩

/-- The filter of a request, piece by piece. -/
theorem compile_filterPieces {r : CompiledRequest} (hx : c.node.expands = [])
    (htexts : c.node.textFilters = .empty) (h : a.compile c = .ok r) :
    ∃ t ss rest, a.target c = .ok t ∧
      List.Forall₂ (fun tag s => ∃ e, a.fragment t tag.2.1 tag.2.2 = .ok (tag.1, e) ∧
        a.filterPiece t tag.1 e = .ok s) (a.partsInOrder c t) ss ∧
      r.clauses = filterClause ss ++ rest := by
  obtain ⟨filters, hf, hc⟩ := clauses_of_compile h
  obtain ⟨t, predicates, search, items, selects, custom, ht, hp, -, -, -, hclauses⟩ :=
    clauses_eq_ok hc
  rw [analyze_eq, ht, ok_bind, map_eq_ok_iff] at hf
  obtain ⟨filed, hfiled, rfl⟩ := hf
  obtain ⟨ss, hss, rfl⟩ := filterPieces_ok hx htexts hp
  have hgroups : Table.SameGroups (fun b p e => a.fragment t p.1 p.2 = .ok (b, e))
      (Table.grouped (a.tagged c t)).entries (Table.grouped filed).entries :=
    Table.sameGroups_grouped (tagged_filed hfiled)
  have hordered := hgroups.headed (CommandTarget.rootBucket t)
  refine ⟨t, ss, search ++ listClause "$expand" items ++ a.trailingClauses c selects custom, ht, ?_, ?_⟩
  · refine forall₂_comp hordered hss fun tag f s htag hs => ⟨f.2, htag.2, ?_⟩
    rw [htag.1]
    exact hs
  · have hown : (ss.map Predicate.part).filterMap Predicate.own? = [] := by
      simp [List.filterMap_map, Function.comp_def, Predicate.own?]
    have hparts : (ss.map Predicate.part).filterMap Predicate.part? = ss := by
      simp [List.filterMap_map, Function.comp_def, Predicate.part?]
    have hfilter := Predicate.filterText?_eq (ss.map .part) rfl
    rw [Predicate.filterPieces_ownLast, hown, hparts, List.map_nil, List.append_nil] at hfilter
    rw [hclauses, hfilter]
    simp only [List.append_assoc]

end Adapter

theorem filterClause_eq_iff {ss ss' : List String} (h : ss'.length = ss.length) :
    filterClause ss' = filterClause ss ↔
      String.intercalate " and " ss' = String.intercalate " and " ss := by
  cases ss with
  | nil =>
    obtain rfl := List.length_eq_zero_iff.1 h
    simp
  | cons s ss =>
    obtain ⟨s', ss', rfl⟩ := List.exists_cons_of_length_eq_add_one h
    simp [filterClause]

namespace EntityModel

variable {m : EntityModel} {o : AdapterOptions} {c : Command}

theorem plain_filterParts (h : ∀ p ∈ c.node.filters.entries, p.2.Plain) :
    ∀ p ∈ c.filterParts, p.2.Plain := by
  intro p hp
  obtain ⟨entry, hentry, hp⟩ := List.mem_flatMap.1 hp
  obtain ⟨part, hpart, rfl⟩ := List.mem_map.1 hp
  exact Expr.plain_conjuncts (h entry hentry) part hpart

theorem named_filterParts (h : ∀ p ∈ c.node.filters.entries, p.1 ≠ "") :
    ∀ p ∈ c.filterParts, p.1 ≠ "" := by
  intro p hp
  obtain ⟨entry, hentry, hp⟩ := List.mem_flatMap.1 hp
  obtain ⟨part, hpart, rfl⟩ := List.mem_map.1 hp
  exact h entry hentry

/-- A command without expand items whose filters are plain has the same filter in both syntaxes
just when each of its parts is said alike. -/
theorem compile_saidAlike_iff (hplain : ∀ p ∈ c.node.filters.entries, p.2.Plain)
    (hnamed : ∀ p ∈ c.node.filters.entries, p.1 ≠ "") (hx : c.node.expands = [])
    (htexts : c.node.textFilters = .empty) {r r' : CompiledRequest}
    (hr : (m.legacyAdapter o).compile c = .ok r) (hr' : (m.modernAdapter o).compile c = .ok r') :
    ∃ t ss ss' rest rest', (m.legacyAdapter o).target c = .ok t ∧
      ss.length = c.filterParts.length ∧ ss'.length = c.filterParts.length ∧
      r.clauses = filterClause ss ++ rest ∧ r'.clauses = filterClause ss' ++ rest' ∧
      (filterClause ss' = filterClause ss ↔ ∀ p ∈ c.filterParts,
        m.SaidAlike t p.1 p.2 ((m.legacyAdapter o).bucket t p.1 p.2)) := by
  obtain ⟨t, ss, rest, ht, hss, hclauses⟩ := Adapter.compile_filterPieces hx htexts hr
  obtain ⟨t', ss', rest', ht', hss', hclauses'⟩ := Adapter.compile_filterPieces hx htexts hr'
  obtain rfl : t = t' := Except.ok.inj (ht.symm.trans ht')
  rw [Adapter.partsInOrder, Adapter.tagged_modern] at hss'
  have hperm := (m.legacyAdapter o).partsInOrder_perm c t
  have hlength : ((m.legacyAdapter o).partsInOrder c t).length = c.filterParts.length :=
    hperm.length_eq.trans (List.length_map _)
  have hlengths := hss.length_eq.symm.trans hlength
  have hlengths' := hss'.length_eq.symm.trans hlength
  have htag : ∀ tag ∈ (m.legacyAdapter o).partsInOrder c t, tag.2 ∈ c.filterParts := by
    intro tag htag
    obtain ⟨p, hp, rfl⟩ := List.mem_map.1 (hperm.mem_iff.1 htag)
    exact hp
  have hall : NarrowerAll (∀ tag ∈ (m.legacyAdapter o).partsInOrder c t,
      m.SaidAlike t tag.2.1 tag.2.2 tag.1) ss ss' := by
    refine .of_forall₂ hss hss' fun tag hmem s s' hs hs' => ?_
    obtain ⟨e, he, hs⟩ := hs
    obtain ⟨e', he', hs'⟩ := hs'
    have hboth : m.InBoth o c t tag.2.1 tag.2.2 tag.1 e e' :=
      ⟨ht, plain_filterParts hplain _ (htag tag hmem), named_filterParts hnamed _ (htag tag hmem),
        he, he'⟩
    exact hboth.narrower hs hs'
  refine ⟨t, ss, ss', rest, rest', ht, hlengths, hlengths', hclauses, hclauses', ?_⟩
  rw [filterClause_eq_iff (hlengths'.trans hlengths.symm), (hall.joined " and ").same]
  simp only [hperm.mem_iff, Adapter.tagged, List.forall_mem_map]

def largeDetails : Expr :=
  .binary .and
    (.binary .gt (.reference "OrderDetails/Quantity") (.value (.int32 7)))
    (.method (.reference "OrderDetails") "any"
      [.reference "d", .binary .gt (.reference "d/Discount") (.value (.int32 5))])

def bergen : Expr := .binary .eq (.reference "City") (.value (.string "Bergen"))

def largeOrders : Command :=
  ((Command.forCollection "Orders").addFilter "Orders" largeDetails).addFilter "Customer" bergen

def largeOrdersRequest (city quantity : String) : CompiledRequest where
  method := .get
  path := "Orders"
  clauses := [⟨"$filter", "Customer/any(x:x/City eq 'Bergen') and " ++
    "OrderDetails/any(x:x/Quantity gt 7) and OrderDetails/any(d:d/Discount gt 5)"⟩]
  entityFilters := (Table.empty.append "Customer" [city]).append "OrderDetails"
    [quantity, "OrderDetails/any(d:d/Discount gt 5)"]
  payload := none

theorem largeOrders_alike :
    ((northwind "4.0").legacyAdapter .plain).compile largeOrders =
        .ok (largeOrdersRequest "Customer/City eq 'Bergen'" "OrderDetails/Quantity gt 7") ∧
      ((northwind "4.0").modernAdapter .plain).compile largeOrders =
        .ok (largeOrdersRequest "City eq 'Bergen'" "Quantity gt 7") ∧
      ∃ ss ss' rest rest', ss.length = 3 ∧ ss'.length = 3 ∧
        (largeOrdersRequest "Customer/City eq 'Bergen'" "OrderDetails/Quantity gt 7").clauses =
          filterClause ss ++ rest ∧
        (largeOrdersRequest "City eq 'Bergen'" "Quantity gt 7").clauses =
          filterClause ss' ++ rest' ∧
        filterClause ss' = filterClause ss := by
  have hlegacy : ((northwind "4.0").legacyAdapter .plain).compile largeOrders =
    .ok (largeOrdersRequest "Customer/City eq 'Bergen'" "OrderDetails/Quantity gt 7") := rfl
  have hmodern : ((northwind "4.0").modernAdapter .plain).compile largeOrders =
    .ok (largeOrdersRequest "City eq 'Bergen'" "Quantity gt 7") := rfl
  have hentries : largeOrders.node.filters.entries =
    [("Customer", bergen), ("Orders", largeDetails)] := rfl
  have hdetails : largeDetails.Plain :=
    .binary (by decide) (.binary (by decide) (.reference _) (.value trivial))
      (.lambda (Or.inl rfl) (.binary (by decide) (.reference _) (.value trivial)))
  have hbergen : bergen.Plain := .binary (by decide) (.reference _) (.value trivial)
  have hplain : ∀ p ∈ largeOrders.node.filters.entries, p.2.Plain := by
    rw [hentries]
    simp [hdetails, hbergen]
  obtain ⟨t, ss, ss', rest, rest', ht, hss, hss', hclauses, hclauses', hiff⟩ :=
    compile_saidAlike_iff hplain (by decide) rfl rfl hlegacy hmodern
  obtain rfl : (⟨some "Orders", "Orders"⟩ : CommandTarget) = t := Except.ok.inj ht
  exact ⟨hlegacy, hmodern, ss, ss', rest, rest', hss, hss', hclauses, hclauses',
    hiff.2 (by decide)⟩

/-- Under the lambda of the filter the discount is still one of the order's details; the modern
syntax cuts the path as if the detail were read. -/
def discountedDetails : Expr :=
  .method (.reference "OrderDetails") "any"
    [.reference "d", .binary .gt (.reference "d/Quantity") (.reference "OrderDetails/Discount")]

def discountedOrders : Command :=
  (Command.forCollection "Orders").addFilter "Orders" discountedDetails

theorem discountedOrders_apart :
    (∀ p ∈ discountedOrders.node.filters.entries, p.2.Plain) ∧
      (∀ p ∈ discountedOrders.node.filters.entries, p.1 ≠ "") ∧
      discountedOrders.node.expands = [] ∧ discountedOrders.node.textFilters = .empty ∧
      (((northwind "4.0").legacyAdapter .plain).compile discountedOrders).map
          (·.clause? "$filter") =
        .ok (some "OrderDetails/any(d:d/Quantity gt OrderDetails/Discount)") ∧
      (((northwind "4.0").modernAdapter .plain).compile discountedOrders).map
          (·.clause? "$filter") =
        .ok (some "OrderDetails/any(d:d/Quantity gt Discount)") := by
  have hentries : discountedOrders.node.filters.entries = [("Orders", discountedDetails)] := rfl
  have hdetails : discountedDetails.Plain :=
    .lambda (Or.inl rfl) (.binary (by decide) (.reference _) (.reference _))
  refine ⟨?_, by decide, rfl, rfl, rfl, rfl⟩
  rw [hentries]
  simpa using hdetails

end EntityModel

end ODataClient
