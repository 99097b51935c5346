import FerrisScope.ObjectStatuses

/-!
# What the answers of a status batch rest on

An item waits in the group of its kind until a stage settles it. Each stage keeps the waiting
items as they were read and leaves every other item with an answer of its own kind. A LIST that
runs to its end shows all objects, but only those that project are found, so a listed object
that does not project is taken for an absent one.
-/

namespace FerrisScope.ObjectStatuses
open KeyedWrites KindSlots

variable {ν : Type} {w : World ν} {refs : List ObjectRef}

section Listing

/-- The objects of all pages, when the pages run to the end within the budget. -/
def fullListing (pages : ℕ → PageResult ν) : ℕ → ℕ → Option (List (DynamicObject ν))
  | 0, _ => none
  | budget + 1, n => match pages n with
      | .page items next =>
          if (next.filter fun t => !t.isEmpty).isNone then some items
          else (fullListing pages budget (n + 1)).map (items ++ ·)
      | _ => none

variable {kind : ResolvedKind ν} {wanted : Finset Key}

theorem scanPage_keys {found : Table Key (Json ν)} (h : found.keys ⊆ wanted)
    (items : List (DynamicObject ν)) : (scanPage kind wanted found items).keys ⊆ wanted := by
  induction items generalizing found with
  | nil => exact h
  | cons obj items ih =>
    refine ih ?_
    unfold scanObject
    split_ifs with hmem
    · split
      · rw [keys_insert]
        exact Finset.insert_subset hmem h
      · exact h
    · exact h

/-- A page adds the projections of the wanted objects. -/
theorem scanPage_lookup {found : Table Key (Json ν)} {items : List (DynamicObject ν)} {key : Key}
    {v : Json ν} (h : (scanPage kind wanted found items).lookup key = some v) :
    found.lookup key = some v ∨
      ∃ obj ∈ items, objectKey kind.namespaced obj = key ∧ kind.project obj = some v := by
  induction items generalizing found with
  | nil => exact .inl h
  | cons obj items ih =>
    rcases ih h with hfound | ⟨o, ho, hkey, hproj⟩
    · unfold scanObject at hfound
      split_ifs at hfound with hmem
      · split at hfound
        · next row hrow =>
          by_cases hk : key = objectKey kind.namespaced obj
          · subst hk
            rw [Finmap.lookup_insert, Option.some.injEq] at hfound
            exact .inr ⟨obj, by simp, rfl, by rw [hrow, hfound]⟩
          · rw [Finmap.lookup_insert_of_ne _ hk] at hfound
            exact .inl hfound
        · exact .inl hfound
      · exact .inl hfound
    · exact .inr ⟨o, by simp [ho], hkey, hproj⟩

/-- A wanted key stays unknown exactly when none of its objects projects. -/
theorem scanPage_eq_none {found : Table Key (Json ν)} {items : List (DynamicObject ν)} {key : Key}
    (hwanted : key ∈ wanted) : (scanPage kind wanted found items).lookup key = none ↔
      found.lookup key = none ∧
        ∀ obj ∈ items, objectKey kind.namespaced obj = key → kind.project obj = none := by
  induction items generalizing found with
  | nil => simp [scanPage]
  | cons obj items ih =>
    have hcons : scanPage kind wanted found (obj :: items) =
        scanPage kind wanted (scanObject kind wanted found obj) items := rfl
    rw [hcons, ih, List.forall_mem_cons, scanObject]
    by_cases hkey : objectKey kind.namespaced obj = key
    · subst hkey
      rw [if_pos hwanted]
      cases hproj : kind.project obj <;> simp
    · have hsame : ∀ row, (found.insert (objectKey kind.namespaced obj) row).lookup key =
          found.lookup key := fun row => Finmap.lookup_insert_of_ne _ fun h => hkey h.symm
      split_ifs
      · cases hproj : kind.project obj <;> simp [hsame, hkey]
      · simp [hkey]

/-- What has been found stays found. -/
theorem lookup_ne_none_scanPage {found : Table Key (Json ν)} {items : List (DynamicObject ν)}
    {key : Key} (h : found.lookup key ≠ none) : (scanPage kind wanted found items).lookup key ≠ none := by
  induction items generalizing found with
  | nil => exact h
  | cons obj items ih =>
    refine ih ?_
    unfold scanObject
    split_ifs
    · split
      · by_cases hk : key = objectKey kind.namespaced obj
        · subst hk
          simp
        · rwa [Finmap.lookup_insert_of_ne _ hk]
      · exact h
    · exact h

theorem lookup_ne_none_runList {pages : ℕ → PageResult ν} {budget n : ℕ}
    {found : Table Key (Json ν)} {key : Key} (h : found.lookup key ≠ none) :
    (runList kind wanted pages budget n found).found.lookup key ≠ none := by
  induction budget generalizing n found with
  | zero => exact h
  | succ budget ih =>
    have hscan : ∀ items, (scanPage kind wanted found items).lookup key ≠ none :=
      fun items => lookup_ne_none_scanPage h
    unfold runList
    split
    · exact h
    · exact h
    · dsimp only
      split_ifs
      · exact hscan _
      · exact ih (hscan _)

/-- A found row is the projection of a listed object of its key. -/
theorem runList_found {pages : ℕ → PageResult ν} {budget n : ℕ} {found : Table Key (Json ν)}
    {key : Key} {v : Json ν} (h : (runList kind wanted pages budget n found).found.lookup key = some v) :
    found.lookup key = some v ∨ ∃ m items next, pages m = .page items next ∧
      ∃ obj ∈ items, objectKey kind.namespaced obj = key ∧ kind.project obj = some v := by
  induction budget generalizing n found with
  | zero => exact .inl h
  | succ budget ih =>
    unfold runList at h
    split at h
    · exact .inl h
    · exact .inl h
    · next items next hpage =>
      have hscan : (scanPage kind wanted found items).lookup key = some v →
          found.lookup key = some v ∨ ∃ m items next, pages m = .page items next ∧
            ∃ obj ∈ items, objectKey kind.namespaced obj = key ∧ kind.project obj = some v := by
        intro hlook
        rcases scanPage_lookup hlook with hold | ⟨obj, hobj, hkey, hproj⟩
        · exact .inl hold
        · exact .inr ⟨n, items, next, hpage, obj, hobj, hkey, hproj⟩
      dsimp only at h
      split_ifs at h
      · exact hscan h
      · rcases ih h with hlook | hrest
        · exact hscan hlook
        · exact .inr hrest

theorem not_card_eq {found : Table Key (Json ν)} {key : Key} (hsub : found.keys ⊆ wanted)
    (hwanted : key ∈ wanted) (hnone : found.lookup key = none) : found.keys.card ≠ wanted.card := by
  intro hcard
  have heq := Finset.eq_of_subset_of_card_le hsub hcard.ge
  have hmem : key ∈ found := Finmap.mem_keys.mp (heq ▸ hwanted)
  exact Finmap.lookup_eq_none.mp hnone hmem

/-- A wanted key of a LIST that ends complete is unknown exactly when the pages run to their end
and none of the key's objects projects. -/
theorem runList_missing_iff {pages : ℕ → PageResult ν} {key : Key} (hwanted : key ∈ wanted)
    {budget n : ℕ} {found : Table Key (Json ν)} (hsub : found.keys ⊆ wanted)
    (hnone : found.lookup key = none) :
    ((runList kind wanted pages budget n found).complete = true ∧
        (runList kind wanted pages budget n found).found.lookup key = none) ↔
      ∃ objs, fullListing pages budget n = some objs ∧
        ∀ obj ∈ objs, objectKey kind.namespaced obj = key → kind.project obj = none := by
  induction budget generalizing n found with
  | zero => simp [runList, fullListing]
  | succ budget ih =>
    cases hpage : pages n with
    | error code => simp [runList, fullListing, hpage]
    | timedOut => simp [runList, fullListing, hpage]
    | page items next =>
      have hkeys : (scanPage kind wanted found items).keys ⊆ wanted := scanPage_keys hsub items
      have hlookup : (scanPage kind wanted found items).lookup key = none ↔ found.lookup key = none ∧
          ∀ obj ∈ items, objectKey kind.namespaced obj = key → kind.project obj = none :=
        scanPage_eq_none hwanted
      simp only [runList, fullListing, hpage]
      by_cases hend : (next.filter fun t => !t.isEmpty).isNone
      · rw [if_pos (.inl hend), if_pos hend]
        simp only [true_and, hlookup, hnone, Option.some.injEq, exists_eq_left']
      · rw [if_neg hend]
        by_cases hscan : (scanPage kind wanted found items).lookup key = none
        · rw [if_neg (not_or.mpr ⟨hend, not_card_eq hkeys hwanted hscan⟩), ih hkeys hscan]
          have hpageNone := (hlookup.mp hscan).2
          constructor
          · rintro ⟨objs, hfull, hobjs⟩
            refine ⟨items ++ objs, by rw [hfull]; rfl, fun obj hobj => ?_⟩
            rcases List.mem_append.mp hobj with hobj | hobj
            · exact hpageNone obj hobj
            · exact hobjs obj hobj
          · rintro ⟨all, hfull, hobjs⟩
            obtain ⟨objs, hrest, rfl⟩ := Option.map_eq_some_iff.mp hfull
            exact ⟨objs, hrest, fun obj hobj => hobjs obj (List.mem_append_right _ hobj)⟩
        · have hsome : ∃ obj ∈ items, objectKey kind.namespaced obj = key ∧ kind.project obj ≠ none := by
            by_contra hno
            push Not at hno
            exact hscan (hlookup.mpr ⟨hnone, hno⟩)
          obtain ⟨obj, hobj, hkey, hproj⟩ := hsome
          constructor
          · rintro ⟨-, hmiss⟩
            exfalso
            split_ifs at hmiss
            · exact hscan hmiss
            · exact lookup_ne_none_runList hscan hmiss
          · rintro ⟨all, hfull, hobjs⟩
            obtain ⟨objs, -, rfl⟩ := Option.map_eq_some_iff.mp hfull
            exact absurd (hobjs obj (List.mem_append_left _ hobj) hkey) hproj

theorem indexRows_found {namespaced : Bool} {rows : List (RowJson ν)} {out : Table Key (Json ν)}
    {key : Key} {v : Json ν} (h : (indexRows wanted namespaced rows out).lookup key = some v) :
    out.lookup key = some v ∨ ∃ row ∈ rows, rowKey namespaced row = some key ∧ v = row.value := by
  induction rows generalizing out with
  | nil => exact .inl h
  | cons row rows ih =>
    have htail : ∀ {out' : Table Key (Json ν)}, (indexRows wanted namespaced rows out').lookup key = some v →
        out'.lookup key = some v ∨
          ∃ r ∈ row :: rows, rowKey namespaced r = some key ∧ v = r.value := by
      intro out' h'
      rcases ih h' with hold | ⟨r, hr, hrest⟩
      · exact .inl hold
      · exact .inr ⟨r, List.mem_cons_of_mem _ hr, hrest⟩
    unfold indexRows at h
    split at h
    · exact htail h
    · next k hk =>
      have hinsert : (out.insert k row.value).lookup key = some v → out.lookup key = some v ∨
          ∃ r ∈ row :: rows, rowKey namespaced r = some key ∧ v = r.value := by
        intro hi
        by_cases hkey : key = k
        · subst hkey
          rw [Finmap.lookup_insert, Option.some.injEq] at hi
          exact .inr ⟨row, List.mem_cons_self, hk, hi.symm⟩
        · rw [Finmap.lookup_insert_of_ne _ hkey] at hi
          exact .inl hi
      split_ifs at h
      · dsimp only at h
        split_ifs at h
        · exact hinsert h
        · rcases htail h with hi | hrest
          · exact hinsert hi
          · exact .inr hrest
      · exact htail h

theorem lookup_ne_none_indexRows {namespaced : Bool} {rows : List (RowJson ν)}
    {out : Table Key (Json ν)} {key : Key} (h : out.lookup key ≠ none) :
    (indexRows wanted namespaced rows out).lookup key ≠ none := by
  induction rows generalizing out with
  | nil => exact h
  | cons row rows ih =>
    unfold indexRows
    split
    · exact ih h
    · next k hk =>
      have hinsert : (out.insert k row.value).lookup key ≠ none := by
        by_cases hkey : key = k
        · subst hkey
          simp
        · rwa [Finmap.lookup_insert_of_ne _ hkey]
      dsimp only
      split_ifs
      · exact hinsert
      · exact ih hinsert
      · exact ih h

/-- A wanted key that is not indexed has no row. -/
theorem indexRows_missing {namespaced : Bool} {rows : List (RowJson ν)} {out : Table Key (Json ν)}
    {key : Key} (hwanted : key ∈ wanted) (hsub : out.keys ⊆ wanted)
    (h : (indexRows wanted namespaced rows out).lookup key = none) :
    ∀ row ∈ rows, rowKey namespaced row ≠ some key := by
  induction rows generalizing out with
  | nil => simp
  | cons row rows ih =>
    rw [List.forall_mem_cons]
    unfold indexRows at h
    split at h
    · next hk => exact ⟨by simp [hk], ih hsub h⟩
    · next k hk =>
      split_ifs at h with hin
      · have hkeys : (out.insert k row.value).keys ⊆ wanted := by
          rw [keys_insert]
          exact Finset.insert_subset hin hsub
        have hnone : (out.insert k row.value).lookup key = none := by
          by_contra hne
          dsimp only at h
          split_ifs at h
          · exact hne h
          · exact lookup_ne_none_indexRows hne h
        have hne : k ≠ key := by
          rintro rfl
          simp at hnone
        dsimp only at h
        rw [if_neg (not_card_eq hkeys hwanted hnone)] at h
        exact ⟨by simp [hk, hne], ih hkeys h⟩
      · have hne : k ≠ key := by
          rintro rfl
          exact hin hwanted
        exact ⟨by simp [hk, hne], ih hsub h⟩

end Listing

section Stages

/-- The views of the kind have one that covers the reference. -/
def Covering (w : World ν) (views : List (CacheView ν)) (r : ObjectRef) (view : CacheView ν)
    (namespaced : Bool) (key : Key) : Prop :=
  (∃ v rest, slotsOf w views r.gk = (v, namespaced) :: rest) ∧
    (∃ stated, (view, stated) ∈ slotsOf w views r.gk) ∧
    refKey (pending r) namespaced = some key ∧ covers view.scope namespaced key.1 = true

/-- The row of the key in a list of rows, or none when no row has the key. -/
def RowOf (namespaced : Bool) (rows : List (RowJson ν)) (key : Key) : Option (Json ν) → Prop
  | some v => ∃ row ∈ rows, rowKey namespaced row = some key ∧ v = row.value
  | none => ∀ row ∈ rows, rowKey namespaced row ≠ some key

/-- An item as one of the stages leaves it. -/
inductive Right (w : World ν) (views : List (CacheView ν)) (jobs : List (ListJob ν)) (i : ℕ)
    (r : ObjectRef) : ObjectStatus → Prop
  | truncated (hi : maxRefs ≤ i) : Right w views jobs i r { pending r with error := some .truncated }
  | noNamespace : Right w views jobs i r { pending r with error := some .namespaceRequired }
  | cached (view : CacheView ν) (namespaced : Bool) (key : Key) (row : Option (Json ν))
      (hc : Covering w views r view namespaced key) (hrow : RowOf namespaced view.rows key row) :
      Right w views jobs i r (settle w view.kindId row (pending r))
  | notServed (h : resolveKind w r.gk = .ok none) :
      Right w views jobs i r { pending r with found := false, status := some "Missing" }
  | undiscovered (e : StatusError) : Right w views jobs i r { pending r with error := some e }
  | listed (job : ListJob ν) (key : Key) (hj : job ∈ jobs) (hmem : (i, key) ∈ job.refs) :
      Right w views jobs i r (outcomeItem w job.kind.kindId (job.outcome w) key (pending r))

/-- A stage of the batch: waiting items are as they were read, the others meet `P`. -/
structure Stage (refs : List ObjectRef) (P : ℕ → ObjectRef → ObjectStatus → Prop) (b : Batch) : Prop where
  length : b.items.length = refs.length
  waiting : ∀ gk, ∀ i ∈ b.group gk, ∃ r, refs[i]? = some r ∧ r.gk = gk ∧ b.items[i]? = some (pending r)
  settled : ∀ i r, refs[i]? = some r → i ∉ b.group r.gk → ∃ item, b.items[i]? = some item ∧ P i r item
  listed : ∀ gk, b.group gk ≠ [] → gk ∈ b.gks

variable {P Q : ℕ → ObjectRef → ObjectStatus → Prop} {b : Batch}

theorem Stage.mono (h : Stage refs P b) (hpq : ∀ i r item, P i r item → Q i r item) : Stage refs Q b :=
  ⟨h.length, h.waiting, fun i r hr hi => by
    obtain ⟨item, hitem, hp⟩ := h.settled i r hr hi
    exact ⟨item, hitem, hpq i r item hp⟩, h.listed⟩

theorem getElem?_update {idxs : List ℕ} {f : ObjectStatus → ObjectStatus} (b : Batch) (i : ℕ) :
    (b.update idxs f).items[i]? = (b.items[i]?).map fun item => if i ∈ idxs then f item else item := by
  simp [Batch.update]

/-- Writing the items of one group and shrinking it. -/
theorem Stage.settleGroup (h : Stage refs P b) (gk : Gk) {b' : Batch} {f : ObjectStatus → ObjectStatus}
    (hitems : b'.items = (b.update (b.group gk) f).items) (hgks : b'.gks = b.gks)
    (hothers : ∀ gk', gk' ≠ gk → b'.group gk' = b.group gk')
    (hsub : ∀ i ∈ b'.group gk, i ∈ b.group gk)
    (hkept : ∀ i ∈ b.group gk, ∀ r, refs[i]? = some r → r.gk = gk → i ∈ b'.group gk →
      f (pending r) = pending r)
    (hset : ∀ i ∈ b.group gk, ∀ r, refs[i]? = some r → r.gk = gk → i ∉ b'.group gk →
      P i r (f (pending r))) : Stage refs P b' := by
  have hget : ∀ i, b'.items[i]? = (b.items[i]?).map fun item =>
      if i ∈ b.group gk then f item else item := fun i => by rw [hitems, getElem?_update]
  refine ⟨?_, fun gk' i hi => ?_, fun i r hr hi => ?_, fun gk' hne => ?_⟩
  · rw [hitems, ← h.length]
    simp [Batch.update]
  · by_cases hgk : gk' = gk
    · subst hgk
      obtain ⟨r, hr, hrgk, hitem⟩ := h.waiting gk' i (hsub i hi)
      refine ⟨r, hr, hrgk, ?_⟩
      rw [hget, hitem, Option.map_some, if_pos (hsub i hi), hkept i (hsub i hi) r hr hrgk hi]
    · rw [hothers gk' hgk] at hi
      obtain ⟨r, hr, hrgk, hitem⟩ := h.waiting gk' i hi
      have hnot : i ∉ b.group gk := by
        intro hin
        obtain ⟨r', hr', hrgk', -⟩ := h.waiting gk i hin
        obtain rfl := Option.some.inj (hr.symm.trans hr')
        exact hgk (hrgk.symm.trans hrgk')
      refine ⟨r, hr, hrgk, ?_⟩
      rw [hget, hitem, Option.map_some, if_neg hnot]
  · by_cases hin : i ∈ b.group gk
    · obtain ⟨r', hr', hrgk, hitem⟩ := h.waiting gk i hin
      obtain rfl := Option.some.inj (hr.symm.trans hr')
      refine ⟨f (pending r), ?_, hset i hin r hr hrgk (by rwa [hrgk] at hi)⟩
      rw [hget, hitem, Option.map_some, if_pos hin]
    · have hold : i ∉ b.group r.gk := by
        by_cases hgk : r.gk = gk
        · rwa [hgk]
        · rwa [hothers _ hgk] at hi
      obtain ⟨item, hitem, hp⟩ := h.settled i r hr hold
      refine ⟨item, ?_, hp⟩
      rw [hget, hitem, Option.map_some, if_neg hin]
  · rw [hgks]
    by_cases hgk : gk' = gk
    · subst hgk
      refine h.listed gk' fun hnil => hne ?_
      exact List.eq_nil_iff_forall_not_mem.mpr fun i hi => by
        have := hsub i hi
        simp [hnil] at this
    · exact h.listed gk' (by rwa [hothers gk' hgk] at hne)

theorem group_push (b : Batch) (i : ℕ) (gk gk' : Gk) :
    (b.push i gk).group gk' = if gk' = gk then b.group gk ++ [i] else b.group gk' := by
  by_cases h : gk' = gk
  · subst h
    simp [Batch.push, Batch.group]
  · simp [Batch.push, Batch.group, h]

theorem group_foldl_push (l : List (ObjectRef × ℕ)) (b : Batch) (gk : Gk) :
    (l.foldl (fun b e => b.push e.2 e.1.gk) b).group gk =
      b.group gk ++ (l.filter fun e => e.1.gk = gk).map Prod.snd := by
  induction l generalizing b with
  | nil => simp
  | cons e l ih =>
    rw [List.foldl_cons, ih, group_push]
    by_cases h : e.1.gk = gk
    · simp [h]
    · have hne : gk ≠ e.1.gk := fun heq => h heq.symm
      simp [h, hne]

theorem foldl_push_items (l : List (ObjectRef × ℕ)) (b : Batch) :
    (l.foldl (fun b e => b.push e.2 e.1.gk) b).items = b.items := by
  induction l generalizing b with
  | nil => rfl
  | cons e l ih => rw [List.foldl_cons, ih]; rfl

theorem foldl_push_gks (l : List (ObjectRef × ℕ)) (b : Batch) (gk : Gk)
    (h : gk ∈ b.gks ∨ ∃ e ∈ l, e.1.gk = gk) : gk ∈ (l.foldl (fun b e => b.push e.2 e.1.gk) b).gks := by
  induction l generalizing b with
  | nil => simpa using h
  | cons e l ih =>
    refine ih _ ?_
    rcases h with h | ⟨e', he', hgk⟩
    · left
      simp only [Batch.push]
      split_ifs
      · exact h
      · exact List.mem_append_left _ h
    · rcases List.mem_cons.mp he' with rfl | he'
      · left
        simp only [Batch.push]
        split_ifs with hin
        · rwa [← hgk]
        · simp [hgk]
      · exact .inr ⟨e', he', hgk⟩

theorem mem_group_new {gk : Gk} {i : ℕ} : i ∈ (Batch.new refs).group gk ↔
    i < maxRefs ∧ ∃ r, refs[i]? = some r ∧ r.gk = gk := by
  have hstart : ∀ items truncated, (⟨items, truncated, ∅, []⟩ : Batch).group gk = [] :=
    fun _ _ => by simp [Batch.group]
  rw [Batch.new, group_foldl_push, hstart, List.nil_append]
  simp only [List.mem_map, List.mem_filter, decide_eq_true_eq, Prod.exists, exists_eq_right]
  constructor
  · rintro ⟨r, hmem, hgk⟩
    have hget := List.mem_zipIdx_iff_getElem?.mp hmem
    rw [List.getElem?_take] at hget
    split_ifs at hget with hlt
    exact ⟨hlt, r, hget, hgk⟩
  · rintro ⟨hlt, r, hr, hgk⟩
    refine ⟨r, List.mem_zipIdx_iff_getElem?.mpr ?_, hgk⟩
    rw [List.getElem?_take_of_lt hlt, hr]

theorem getElem?_new (i : ℕ) (r : ObjectRef) (hr : refs[i]? = some r) :
    (Batch.new refs).items[i]? =
      some (if maxRefs ≤ i then { pending r with error := some .truncated } else pending r) := by
  rw [Batch.new, foldl_push_items]
  simp [hr]

theorem stage_new (w : World ν) (views : List (CacheView ν)) (jobs : List (ListJob ν)) :
    Stage refs (Right w views jobs) (Batch.new refs) := by
  refine ⟨?_, fun gk i hi => ?_, fun i r hr hi => ?_, fun gk hne => ?_⟩
  · rw [Batch.new, foldl_push_items]
    simp
  · obtain ⟨hlt, r, hr, hgk⟩ := mem_group_new.mp hi
    exact ⟨r, hr, hgk, by rw [getElem?_new i r hr, if_neg (not_le.mpr hlt)]⟩
  · have hle : maxRefs ≤ i := by
      by_contra hlt
      exact hi (mem_group_new.mpr ⟨not_le.mp hlt, r, hr, rfl⟩)
    exact ⟨_, by rw [getElem?_new i r hr, if_pos hle], .truncated hle⟩
  · rw [Batch.new, group_foldl_push] at hne
    refine foldl_push_gks _ _ gk (.inr ?_)
    by_contra hno
    push Not at hno
    refine hne ?_
    have hfilter : ((refs.take maxRefs).zipIdx.filter fun e => e.1.gk = gk) = [] :=
      List.filter_eq_nil_iff.mpr fun e he => by simpa using hno e he
    rw [hfilter]
    simp [Batch.group]

theorem group_insert (b : Batch) (items : List ObjectStatus) (gk gk' : Gk) (l : List ℕ) :
    ({ b with items := items, groups := b.groups.insert gk l } : Batch).group gk' =
      if gk' = gk then l else b.group gk' := by
  by_cases h : gk' = gk
  · subst h
    simp [Batch.group]
  · simp [Batch.group, h]

theorem group_remove (b : Batch) (gk gk' : Gk) :
    (b.remove gk).group gk' = if gk' = gk then [] else b.group gk' := by
  by_cases h : gk' = gk
  · subst h
    simp [Batch.group, Batch.remove]
  · simp [Batch.group, Batch.remove, h, Finmap.lookup_erase_ne h]

/-- No view of the kind covers the reference. -/
def Silent (w : World ν) (views : List (CacheView ν)) (r : ObjectRef) : Prop :=
  ∀ view namespaced key, ¬ Covering w views r view namespaced key

/-- What `applyViews` does to one group. -/
structure Viewed (w : World ν) (refs : List ObjectRef) (views : List (CacheView ν)) (b b' : Batch)
    (gk : Gk) : Prop where
  others : ∀ gk', gk' ≠ gk → b'.group gk' = b.group gk'
  sub : ∀ i ∈ b'.group gk, i ∈ b.group gk
  silent : ∀ i ∈ b'.group gk, ∀ r, refs[i]? = some r → Silent w views r

theorem applyViews_stage {views : List (CacheView ν)} {jobs : List (ListJob ν)}
    (h : Stage refs (Right w views jobs) b) (gk : Gk) :
    Stage refs (Right w views jobs) (applyViews w views b gk) ∧
      Viewed w refs views b (applyViews w views b gk) gk := by
  unfold applyViews
  split
  · next hnone =>
    have hempty : b.group gk = [] := by simp [Batch.group, hnone]
    exact ⟨h, fun _ _ => rfl, fun i hi => hi, fun i hi => by simp [hempty] at hi⟩
  · next hslots _ =>
    refine ⟨h, fun _ _ => rfl, fun i hi => hi, fun i hi r hr view namespaced key hc => ?_⟩
    obtain ⟨r', hr', hgk, -⟩ := h.waiting gk i hi
    obtain rfl := Option.some.inj (hr.symm.trans hr')
    obtain ⟨v, rest, heq⟩ := hc.1
    rw [hgk, hslots] at heq
    cases heq
  · next idxs v namespaced rest hidxs hslots =>
    have hgroup : b.group gk = idxs := by simp [Batch.group, hidxs]
    have hgroup' : ∀ gk', ({ b.update idxs (answerItem w b ((v, namespaced) :: rest) namespaced idxs) with
        groups := b.groups.insert gk (retained b ((v, namespaced) :: rest) namespaced idxs) } : Batch).group gk' =
          if gk' = gk then retained b ((v, namespaced) :: rest) namespaced idxs else b.group gk' :=
      fun gk' => group_insert b _ gk gk' _
    have hmem : ∀ i ∈ b.group gk, ∀ r, refs[i]? = some r → r.gk = gk →
        (i ∈ retained b ((v, namespaced) :: rest) namespaced idxs ↔
          ∃ key, refKey (pending r) namespaced = some key ∧
            position ((v, namespaced) :: rest) namespaced key = none) := by
      intro i hi r hr hgk
      obtain ⟨r', hr', -, hitem⟩ := h.waiting gk i hi
      obtain rfl := Option.some.inj (hr.symm.trans hr')
      rw [hgroup] at hi
      simp [retained, hi, hitem, Option.any_eq_true]
    refine ⟨h.settleGroup gk (f := answerItem w b ((v, namespaced) :: rest) namespaced idxs)
      ?_ rfl ?_ ?_ ?_ ?_, ?_, ?_, ?_⟩
    · rw [hgroup]
    · intro gk' hne
      rw [hgroup', if_neg hne]
    · intro i hi
      rw [hgroup', if_pos rfl] at hi
      rw [hgroup]
      exact List.mem_of_mem_filter hi
    · intro i hi r hr hgk hkept
      rw [hgroup', if_pos rfl] at hkept
      obtain ⟨key, hkey, hpos⟩ := (hmem i hi r hr hgk).mp hkept
      simp [answerItem, hkey, hpos]
    · intro i hi r hr hgk hgone
      rw [hgroup', if_pos rfl, hmem i hi r hr hgk] at hgone
      cases hkey : refKey (pending r) namespaced with
      | none =>
        simp only [answerItem, hkey]
        exact .noNamespace
      | some key =>
        cases hpos : position ((v, namespaced) :: rest) namespaced key with
        | none => exact absurd ⟨key, hkey, hpos⟩ hgone
        | some n =>
          have hn := List.findIdx?_eq_some_iff_getElem.mp hpos
          obtain ⟨hlt, hcov, -⟩ := hn
          have hget : ((v, namespaced) :: rest)[n]? = some (((v, namespaced) :: rest)[n]) :=
            List.getElem?_eq_getElem hlt
          obtain ⟨⟨view, stated⟩, hslot⟩ : ∃ s, ((v, namespaced) :: rest)[n] = s := ⟨_, rfl⟩
          simp only [answerItem, hkey, hpos, hget, hslot]
          have hwanted : key ∈ assigned b ((v, namespaced) :: rest) namespaced idxs n := by
            obtain ⟨r', hr', -, hitem⟩ := h.waiting gk i hi
            obtain rfl := Option.some.inj (hr.symm.trans hr')
            rw [hgroup] at hi
            rw [assigned, List.mem_toFinset, List.mem_filterMap]
            exact ⟨i, hi, by simp [hitem, hkey, hpos]⟩
          refine .cached view namespaced key _ ⟨⟨v, rest, by rw [hgk, hslots]⟩, ⟨stated, ?_⟩, hkey, ?_⟩ ?_
          · rw [hgk, hslots, ← hslot]
            exact List.getElem_mem hlt
          · rw [hslot] at hcov
            exact hcov
          · cases hrow : (indexRows (assigned b ((v, namespaced) :: rest) namespaced idxs n)
                namespaced view.rows ∅).lookup key with
            | some row =>
              rcases indexRows_found hrow with hempty | hfound
              · simp at hempty
              · exact hfound
            | none => exact indexRows_missing hwanted (by simp) hrow
    · intro gk' hne
      rw [hgroup', if_neg hne]
    · intro i hi
      rw [hgroup', if_pos rfl] at hi
      rw [hgroup]
      exact List.mem_of_mem_filter hi
    · intro i hi r hr view namespaced' key hc
      rw [hgroup', if_pos rfl] at hi
      have hin : i ∈ b.group gk := by
        rw [hgroup]
        exact List.mem_of_mem_filter hi
      obtain ⟨r', hr', hgk, -⟩ := h.waiting gk i hin
      obtain rfl := Option.some.inj (hr.symm.trans hr')
      obtain ⟨key', hkey', hpos⟩ := (hmem i hin r hr hgk).mp hi
      obtain ⟨⟨v', rest', heq⟩, ⟨stated, hview⟩, hkey, hcov⟩ := hc
      rw [hgk, hslots] at heq hview
      obtain ⟨rfl, rfl⟩ := Prod.mk.inj (List.cons.inj heq).1
      obtain rfl := Option.some.inj (hkey.symm.trans hkey')
      have hall := List.findIdx?_eq_none_iff.mp hpos (view, stated) hview
      rw [hall] at hcov
      cases hcov

/-- The waiting references are among the first, and no view covers them. -/
def Calm (w : World ν) (refs : List ObjectRef) (views : List (CacheView ν)) (b : Batch) : Prop :=
  ∀ gk, ∀ i ∈ b.group gk, ∀ r, refs[i]? = some r → i < maxRefs ∧ Silent w views r

theorem applyCache_stage {views : List (CacheView ν)}
    (h : Stage refs (Right w views []) b) (hlt : ∀ gk, ∀ i ∈ b.group gk, i < maxRefs) :
    Stage refs (Right w views []) (applyCache w views b) ∧ Calm w refs views (applyCache w views b) := by
  have hfold : ∀ (l : List Gk) (b : Batch), Stage refs (Right w views []) b →
      Stage refs (Right w views []) (l.foldl (applyViews w views) b) ∧
      (∀ gk, ∀ i ∈ (l.foldl (applyViews w views) b).group gk, i ∈ b.group gk) ∧
      ∀ gk, (gk ∈ l ∨ ∀ i ∈ b.group gk, ∀ r, refs[i]? = some r → Silent w views r) →
        ∀ i ∈ (l.foldl (applyViews w views) b).group gk, ∀ r, refs[i]? = some r → Silent w views r := by
    intro l
    induction l with
    | nil => exact fun b h => ⟨h, fun _ _ hi => hi, fun gk hs => hs.resolve_left (by simp)⟩
    | cons g l ih =>
      intro b h
      obtain ⟨hstage, hviewed⟩ := applyViews_stage h g
      obtain ⟨hfinal, hsub, hsilent⟩ := ih _ hstage
      have hstep : ∀ gk, ∀ i ∈ (applyViews w views b g).group gk, i ∈ b.group gk := by
        intro gk i hi
        by_cases hgk : gk = g
        · subst hgk
          exact hviewed.sub i hi
        · rwa [hviewed.others gk hgk] at hi
      refine ⟨hfinal, fun gk i hi => hstep gk i (hsub gk i hi), fun gk hs => hsilent gk ?_⟩
      by_cases hgk : gk = g
      · subst hgk
        exact .inr hviewed.silent
      · rcases hs with hs | hs
        · exact .inl ((List.mem_cons.mp hs).resolve_left hgk)
        · exact .inr fun i hi => hs i (hstep gk i hi)
  obtain ⟨hstage, hsub, hsilent⟩ := hfold (viewGks w views) b h
  refine ⟨hstage, fun gk i hi r hr => ⟨hlt gk i (hsub gk i hi), ?_⟩⟩
  by_cases hin : gk ∈ viewGks w views
  · exact hsilent gk (.inl hin) i hi r hr
  · intro view namespaced key hc
    obtain ⟨r', hr', hgk, -⟩ := hstage.waiting gk i hi
    obtain rfl := Option.some.inj (hr.symm.trans hr')
    obtain ⟨stated, hview⟩ := hc.2.1
    rw [hgk, slotsOf, List.mem_filterMap] at hview
    obtain ⟨v, hv, hbind⟩ := hview
    obtain ⟨k, hk, hif⟩ := Option.bind_eq_some_iff.mp hbind
    split_ifs at hif with heq
    refine hin (List.mem_dedup.mpr (List.mem_filterMap.mpr ⟨v, hv, ?_⟩))
    rw [hk, Option.map_some, heq]

/-- The registry and discovery, part of the way through the groups. -/
structure Resolving (w : World ν) (refs : List ObjectRef) (views : List (CacheView ν))
    (acc : List (Gk × ResolvedKind ν) × Batch) (todo : List Gk) : Prop where
  stage : Stage refs (Right w views []) acc.2
  calm : Calm w refs views acc.2
  kinds : ∀ e ∈ acc.1, resolveKind w e.1 = .ok (some e.2)
  isOpen : ∀ gk, acc.2.group gk ≠ [] → (∃ kind, (gk, kind) ∈ acc.1) ∨ gk ∈ todo

/-- A group that cannot be resolved is settled and removed. -/
theorem Resolving.settleGroup {views : List (CacheView ν)} {acc : List (Gk × ResolvedKind ν) × Batch}
    {gk : Gk} {todo : List Gk} (h : Resolving w refs views acc (gk :: todo))
    {f : ObjectStatus → ObjectStatus}
    (hset : ∀ i r, r.gk = gk → Right w views [] i r (f (pending r))) :
    Resolving w refs views (acc.1, (acc.2.update (acc.2.group gk) f).remove gk) todo := by
  have hgroup : ∀ gk', ((acc.2.update (acc.2.group gk) f).remove gk).group gk' =
      if gk' = gk then [] else acc.2.group gk' := fun gk' => group_remove _ gk gk'
  refine ⟨h.stage.settleGroup gk (f := f) rfl rfl ?_ ?_ ?_ ?_, ?_, h.kinds, ?_⟩
  · intro gk' hne
    rw [hgroup, if_neg hne]
  · intro i hi
    simp [hgroup] at hi
  · intro i _ r _ _ hi
    simp [hgroup] at hi
  · intro i _ r _ hgk _
    exact hset i r hgk
  · intro gk' i hi r hr
    rw [hgroup] at hi
    split_ifs at hi
    · simp at hi
    · exact h.calm gk' i hi r hr
  · intro gk' hne
    rw [hgroup] at hne
    split_ifs at hne with hgk
    · exact absurd rfl hne
    · exact (h.isOpen gk' hne).imp_right fun hmem => (List.mem_cons.mp hmem).resolve_left hgk

theorem resolving_step {views : List (CacheView ν)} {acc : List (Gk × ResolvedKind ν) × Batch}
    {gk : Gk} {todo : List Gk} (h : Resolving w refs views acc (gk :: todo)) :
    Resolving w refs views (resolveStep w acc gk) todo := by
  unfold resolveStep
  split
  · next kind hk =>
    refine ⟨h.stage, h.calm, fun e he => ?_, fun gk' hne => ?_⟩
    · rcases List.mem_append.mp he with he | he
      · exact h.kinds e he
      · rw [List.mem_singleton.mp he, hk]
    · by_cases hgk : gk' = gk
      · subst hgk
        exact .inl ⟨kind, by simp⟩
      · rcases h.isOpen gk' hne with ⟨k, hmem⟩ | hmem
        · exact .inl ⟨k, List.mem_append_left _ hmem⟩
        · exact .inr ((List.mem_cons.mp hmem).resolve_left hgk)
  · next hk => exact h.settleGroup fun i r hgk => .notServed (by rw [hgk, hk])
  · next e _ => exact h.settleGroup fun i r _ => .undiscovered e

theorem resolving_resolveKinds {views : List (CacheView ν)} (h : Stage refs (Right w views []) b)
    (hcalm : Calm w refs views b) : Resolving w refs views (resolveKinds w b) [] := by
  have hfold : ∀ (todo : List Gk) acc, Resolving w refs views acc todo →
      Resolving w refs views (todo.foldl (resolveStep w) acc) [] := by
    intro todo
    induction todo with
    | nil => exact fun acc h => h
    | cons gk todo ih => exact fun acc h => ih _ (resolving_step h)
  refine hfold _ _ ⟨h, hcalm, by simp, fun gk hne => .inr ?_⟩
  refine List.mem_filter.mpr ⟨h.listed gk hne, ?_⟩
  simpa [Batch.wants] using hne

end Stages

section Jobs

/-- Each reference of the jobs of a kind. -/
theorem mem_jobsOf {kind : ResolvedKind ν} {es : List (ℕ × Key)} {job : ListJob ν}
    (h : job ∈ jobsOf kind es) : job.kind = kind ∧ ∀ e ∈ job.refs, e ∈ es ∧ e.2 ∈ job.wanted := by
  unfold jobsOf at h
  split_ifs at h
  · simp at h
  · obtain ⟨scope, -, rfl⟩ := List.mem_map.mp h
    refine ⟨rfl, fun e he => ⟨List.mem_of_mem_filter he, ?_⟩⟩
    exact List.mem_toFinset.mpr (List.mem_map_of_mem he)

theorem mem_namespacesOf {es : List (ℕ × Key)} {e : ℕ × Key} (h : e ∈ es) :
    e.2.1 ∈ namespacesOf es := by
  rw [namespacesOf, List.mem_mergeSort, List.mem_dedup]
  exact List.mem_map_of_mem (f := fun e : ℕ × Key => e.2.1) h

theorem exists_jobsOf (kind : ResolvedKind ν) {es : List (ℕ × Key)} {e : ℕ × Key} (h : e ∈ es) :
    ∃ job ∈ jobsOf kind es, e ∈ job.refs := by
  have hne : es.isEmpty = false := by
    cases es with
    | nil => simp at h
    | cons _ _ => rfl
  have hscope : ∃ scope ∈ planLists kind.namespaced (namespacesOf es),
      scope.all (fun ns => ns = e.2.1) = true := by
    unfold planLists
    split_ifs
    · exact ⟨none, by simp, rfl⟩
    · exact ⟨some e.2.1, List.mem_map_of_mem (mem_namespacesOf h), by simp⟩
  obtain ⟨scope, hmem, hall⟩ := hscope
  unfold jobsOf
  rw [if_neg (by simp [hne])]
  exact ⟨_, List.mem_map_of_mem hmem, List.mem_filter.mpr ⟨h, hall⟩⟩

/-- The jobs share no index. -/
def Apart (jobs : List (ListJob ν)) : Prop :=
  jobs.Pairwise fun job job' => ∀ e ∈ job.refs, ∀ e' ∈ job'.refs, e.1 ≠ e'.1

theorem apart_jobsOf {kind : ResolvedKind ν} {es : List (ℕ × Key)}
    (hkeys : ∀ e ∈ es, ∀ e' ∈ es, e.1 = e'.1 → e.2 = e'.2) : Apart (jobsOf kind es) := by
  have hnodup : (namespacesOf es).Nodup :=
    (List.mergeSort_perm _ _).nodup_iff.mpr (List.nodup_dedup _)
  unfold jobsOf Apart
  split_ifs
  · exact .nil
  · rw [List.pairwise_map]
    unfold planLists
    split_ifs
    · exact List.pairwise_singleton _ _
    · rw [List.pairwise_map]
      refine hnodup.imp fun {ns ns'} hne e he e' he' heq => ?_
      obtain ⟨hmem, hns⟩ := List.mem_filter.mp he
      obtain ⟨hmem', hns'⟩ := List.mem_filter.mp he'
      simp only [Option.all_some, decide_eq_true_eq] at hns hns'
      have hkey := hkeys e hmem e' hmem' heq
      exact hne (by rw [hns, hns', hkey])

theorem mem_keyed {b : Batch} {namespaced : Bool} {idxs : List ℕ} {e : ℕ × Key} :
    e ∈ keyed b namespaced idxs ↔ e.1 ∈ idxs ∧
      ∃ item, b.items[e.1]? = some item ∧ refKey item namespaced = some e.2 := by
  obtain ⟨i, key⟩ := e
  rw [keyed, List.mem_filterMap]
  constructor
  · rintro ⟨j, hj, hbind⟩
    obtain ⟨item, hitem, hmap⟩ := Option.bind_eq_some_iff.mp hbind
    obtain ⟨k, hk, heq⟩ := Option.map_eq_some_iff.mp hmap
    obtain ⟨rfl, rfl⟩ := Prod.mk.inj heq
    exact ⟨hj, item, hitem, hk⟩
  · rintro ⟨hi, item, hitem, hk⟩
    exact ⟨i, hi, by simp [hitem, hk]⟩

/-- A reference of a job: its kind is served, no view covers it, and its item still waits. -/
structure Issued (w : World ν) (refs : List ObjectRef) (views : List (CacheView ν)) (b : Batch)
    (job : ListJob ν) (e : ℕ × Key) (r : ObjectRef) : Prop where
  ref : refs[e.1]? = some r
  first : e.1 < maxRefs
  kind : resolveKind w r.gk = .ok (some job.kind)
  key : refKey (pending r) job.kind.namespaced = some e.2
  wanted : e.2 ∈ job.wanted
  silent : Silent w views r
  item : b.items[e.1]? = some (pending r)
  gone : e.1 ∉ b.group r.gk

/-- An item that the jobs will answer. -/
def Awaits (jobs : List (ListJob ν)) (i : ℕ) (r : ObjectRef) (item : ObjectStatus) : Prop :=
  item = pending r ∧ ∃ job ∈ jobs, ∃ key, (i, key) ∈ job.refs

/-- The jobs, part of the way through the resolved kinds. -/
structure Issuing (w : World ν) (refs : List ObjectRef) (views : List (CacheView ν))
    (acc : List (ListJob ν) × Batch) (todo : List (Gk × ResolvedKind ν)) : Prop where
  stage : Stage refs (fun i r item => Right w views [] i r item ∨ Awaits acc.1 i r item) acc.2
  calm : Calm w refs views acc.2
  kinds : ∀ e ∈ todo, resolveKind w e.1 = .ok (some e.2)
  isOpen : ∀ gk, acc.2.group gk ≠ [] → ∃ kind, (gk, kind) ∈ todo
  jobs : ∀ job ∈ acc.1, ∀ e ∈ job.refs, ∃ r, Issued w refs views acc.2 job e r
  apart : Apart acc.1

theorem requireNamespace_of_none {namespaced : Bool} {item : ObjectStatus}
    (h : refKey item namespaced = none) :
    requireNamespace namespaced item = { item with error := some .namespaceRequired } := by
  simp [requireNamespace, h]

theorem requireNamespace_of_some {namespaced : Bool} {item : ObjectStatus} {key : Key}
    (h : refKey item namespaced = some key) : requireNamespace namespaced item = item := by
  simp [requireNamespace, h]

theorem issuing_step {views : List (CacheView ν)} {acc : List (ListJob ν) × Batch}
    {e : Gk × ResolvedKind ν} {todo : List (Gk × ResolvedKind ν)}
    (h : Issuing w refs views acc (e :: todo)) : Issuing w refs views (jobStep acc e) todo := by
  obtain ⟨jobs, b⟩ := acc
  obtain ⟨gk, kind⟩ := e
  have hkind : resolveKind w gk = .ok (some kind) := h.kinds (gk, kind) (by simp)
  have hgroup : ∀ gk', (jobStep (jobs, b) (gk, kind)).2.group gk' =
      if gk' = gk then [] else b.group gk' := fun gk' => group_remove _ gk gk'
  have hget : ∀ i, (jobStep (jobs, b) (gk, kind)).2.items[i]? = (b.items[i]?).map fun item =>
      if i ∈ b.group gk then requireNamespace kind.namespaced item else item :=
    fun i => getElem?_update b i
  have hkeyed : ∀ e ∈ keyed b kind.namespaced (b.group gk), e.1 ∈ b.group gk ∧
      ∃ r, refs[e.1]? = some r ∧ r.gk = gk ∧ b.items[e.1]? = some (pending r) ∧
        refKey (pending r) kind.namespaced = some e.2 := by
    intro e he
    obtain ⟨hi, item, hitem, hkey⟩ := mem_keyed.mp he
    obtain ⟨r, hr, hgk, hitem'⟩ := h.stage.waiting gk e.1 hi
    obtain rfl := Option.some.inj (hitem.symm.trans hitem')
    exact ⟨hi, r, hr, hgk, hitem', hkey⟩
  refine ⟨?_, ?_, ?_, ?_, ?_, ?_⟩
  · have hmono : Stage refs (fun i r item => Right w views [] i r item ∨
        Awaits (jobStep (jobs, b) (gk, kind)).1 i r item) b := by
      refine h.stage.mono fun i r item hp => hp.imp_right ?_
      rintro ⟨hitem, job, hjob, key, hmem⟩
      exact ⟨hitem, job, List.mem_append_left _ hjob, key, hmem⟩
    refine hmono.settleGroup gk rfl rfl (fun gk' hne => ?_) (fun i hi => ?_)
      (fun i _ r _ _ hi => ?_) (fun i hi r hr hgk _ => ?_)
    · exact (hgroup gk').trans (if_neg hne)
    · rw [hgroup, if_pos rfl] at hi
      simp at hi
    · rw [hgroup, if_pos rfl] at hi
      simp at hi
    · cases hkey : refKey (pending r) kind.namespaced with
      | none =>
        left
        rw [requireNamespace_of_none hkey]
        exact .noNamespace
      | some key =>
        right
        rw [requireNamespace_of_some hkey]
        obtain ⟨r', hr', -, hitem⟩ := h.stage.waiting gk i hi
        obtain rfl := Option.some.inj (hr.symm.trans hr')
        have hmem : (i, key) ∈ keyed b kind.namespaced (b.group gk) :=
          mem_keyed.mpr ⟨hi, pending r, hitem, hkey⟩
        obtain ⟨job, hjob, hin⟩ := exists_jobsOf kind hmem
        exact ⟨rfl, job, List.mem_append_right _ hjob, key, hin⟩
  · intro gk' i hi r hr
    rw [hgroup] at hi
    split_ifs at hi
    · simp at hi
    · exact h.calm gk' i hi r hr
  · exact fun e he => h.kinds e (List.mem_cons_of_mem _ he)
  · intro gk' hne
    rw [hgroup] at hne
    split_ifs at hne with hgk
    · exact absurd rfl hne
    · obtain ⟨k, hk⟩ := h.isOpen gk' hne
      refine ⟨k, (List.mem_cons.mp hk).resolve_left fun heq => hgk ?_⟩
      exact congrArg Prod.fst heq
  · intro job hjob e he
    rcases List.mem_append.mp hjob with hjob | hjob
    · obtain ⟨r, hissued⟩ := h.jobs job hjob e he
      have hnot : e.1 ∉ b.group gk := by
        intro hin
        obtain ⟨r', hr', hgk, -⟩ := h.stage.waiting gk e.1 hin
        obtain rfl := Option.some.inj (hissued.ref.symm.trans hr')
        exact hissued.gone (hgk ▸ hin)
      refine ⟨r, hissued.ref, hissued.first, hissued.kind, hissued.key, hissued.wanted, hissued.silent, ?_, ?_⟩
      · rw [hget, hissued.item, Option.map_some, if_neg hnot]
      · intro hin
        rw [hgroup] at hin
        split_ifs at hin
        · simp at hin
        · exact hissued.gone hin
    · obtain ⟨hjk, hrefs⟩ := mem_jobsOf hjob
      obtain ⟨hmem, hwanted⟩ := hrefs e he
      obtain ⟨hi, r, hr, hgk, hitem, hkey⟩ := hkeyed e hmem
      obtain ⟨hlt, hsilent⟩ := h.calm gk e.1 hi r hr
      refine ⟨r, hr, hlt, by rw [hgk, hjk, hkind], by rw [hjk, hkey], hwanted, hsilent, ?_, ?_⟩
      · rw [hget, hitem, Option.map_some, if_pos hi, requireNamespace_of_some hkey]
      · intro hin
        rw [hgroup, if_pos hgk] at hin
        simp at hin
  · refine List.pairwise_append.mpr ⟨h.apart, apart_jobsOf fun e he e' he' heq => ?_, ?_⟩
    · obtain ⟨-, r, hr, -, -, hkey⟩ := hkeyed e he
      obtain ⟨-, r', hr', -, -, hkey'⟩ := hkeyed e' he'
      rw [heq] at hr
      obtain rfl := Option.some.inj (hr.symm.trans hr')
      exact Option.some.inj (hkey.symm.trans hkey')
    · intro job hjob job' hjob' e he e' he' heq
      obtain ⟨r, hissued⟩ := h.jobs job hjob e he
      obtain ⟨hi, r', hr', hgk, -, -⟩ := hkeyed e' ((mem_jobsOf hjob').2 e' he').1
      rw [← heq] at hr' hi
      obtain rfl := Option.some.inj (hissued.ref.symm.trans hr')
      exact hissued.gone (hgk ▸ hi)

theorem issuing_listJobs {views : List (CacheView ν)} {acc : List (Gk × ResolvedKind ν) × Batch}
    (h : Resolving w refs views acc []) : Issuing w refs views (listJobs acc.1 acc.2) [] := by
  have hfold : ∀ (todo : List (Gk × ResolvedKind ν)) acc, Issuing w refs views acc todo →
      Issuing w refs views (todo.foldl jobStep acc) [] := by
    intro todo
    induction todo with
    | nil => exact fun acc h => h
    | cons e todo ih => exact fun acc h => ih _ (issuing_step h)
  refine hfold _ _ ⟨h.stage.mono fun _ _ _ hp => .inl hp, h.calm, h.kinds, fun gk hne => ?_, by simp, .nil⟩
  exact (h.isOpen gk hne).resolve_right (by simp)

/-- Only the job of an item writes it. -/
theorem foldl_applyOutcome (jobs : List (ListJob ν)) (b : Batch) (i : ℕ) :
    ((∀ job ∈ jobs, ∀ e ∈ job.refs, e.1 ≠ i) →
      (jobs.foldl (applyOutcome w) b).items[i]? = b.items[i]?) ∧
    (Apart jobs → ∀ job ∈ jobs, ∀ key, (i, key) ∈ job.refs → (∀ k, (i, k) ∈ job.refs → k = key) →
      (jobs.foldl (applyOutcome w) b).items[i]? =
        (b.items[i]?).map (outcomeItem w job.kind.kindId (job.outcome w) key)) := by
  have hget : ∀ (b : Batch) (job : ListJob ν), (applyOutcome w b job).items[i]? =
      (b.items[i]?).map fun item => (job.refs.find? (·.1 = i)).elim item fun e =>
        outcomeItem w job.kind.kindId (job.outcome w) e.2 item := by
    intro b job
    refine List.getElem?_mapIdx.trans ?_
    cases job.refs.find? (·.1 = i) <;> rfl
  have hskip : ∀ (b : Batch) (job : ListJob ν), (∀ e ∈ job.refs, e.1 ≠ i) →
      (applyOutcome w b job).items[i]? = b.items[i]? := by
    intro b job hno
    have hfind : job.refs.find? (·.1 = i) = none := by simpa using hno
    rw [hget, hfind]
    simp
  induction jobs generalizing b with
  | nil => exact ⟨fun _ => rfl, fun _ job hjob => by simp at hjob⟩
  | cons j jobs ih =>
    refine ⟨fun hno => ?_, fun hapart job hjob key hmem huniq => ?_⟩
    · rw [List.forall_mem_cons] at hno
      rw [List.foldl_cons, (ih _).1 hno.2, hskip b j hno.1]
    · obtain ⟨hhead, htail⟩ := List.pairwise_cons.mp hapart
      rcases List.mem_cons.mp hjob with rfl | hjob
      · have hothers : ∀ job' ∈ jobs, ∀ e ∈ job'.refs, e.1 ≠ i :=
          fun job' hjob' e he heq => hhead job' hjob' (i, key) hmem e he heq.symm
        rw [List.foldl_cons, (ih _).1 hothers, hget]
        have hsome : (job.refs.find? (·.1 = i)).isSome := List.find?_isSome.mpr ⟨_, hmem, by simp⟩
        obtain ⟨⟨i', k⟩, hfind⟩ := Option.isSome_iff_exists.mp hsome
        obtain rfl : i' = i := by simpa using List.find?_some hfind
        obtain rfl := huniq k (List.mem_of_find?_eq_some hfind)
        rw [hfind]
        rfl
      · have hj : ∀ e ∈ j.refs, e.1 ≠ i := fun e he heq => hhead job hjob e he (i, key) hmem heq
        rw [List.foldl_cons, (ih _).2 htail job hjob key hmem huniq, hskip b j hj]

end Jobs

section Answers

/-- The synced caches of the kinds asked for. -/
def syncedViews (w : World ν) (refs : List ObjectRef) (slots : List (CachedSlot ν)) :
    List (CacheView ν) :=
  viewsOf w (Batch.new refs) slots

/-- The LISTs of a call, with the batch they are applied to. -/
def issued (w : World ν) (refs : List ObjectRef) (slots : List (CachedSlot ν)) :
    List (ListJob ν) × Batch :=
  let r := resolveKinds w (applyCache w (syncedViews w refs slots) (Batch.new refs))
  listJobs r.1 r.2

variable {slots : List (CachedSlot ν)}

theorem resolve_eq (w : World ν) (refs : List ObjectRef) (slots : List (CachedSlot ν)) :
    (resolveObjectStatuses w refs slots).items =
      ((issued w refs slots).1.foldl (applyOutcome w) (issued w refs slots).2).items := by
  have hnothing : ∀ b : Batch, b.pendingCount = 0 → resolveKinds w b = ([], b) := by
    intro b hcount
    have hnone : b.gks.filter (fun gk => b.wants gk) = [] := by
      refine List.filter_eq_nil_iff.mpr fun gk hgk hwants => ?_
      have hzero := List.sum_eq_zero_iff_forall_eq_nat.mp hcount _ (List.mem_map_of_mem hgk)
      simp [Batch.wants, List.eq_nil_of_length_eq_zero hzero] at hwants
    rw [resolveKinds, hnone, List.foldl_nil]
  simp only [resolveObjectStatuses, issued, syncedViews]
  split_ifs with hcount
  · rw [hnothing _ hcount]
    rfl
  · rfl

theorem issuing_of_call (w : World ν) (refs : List ObjectRef) (slots : List (CachedSlot ν)) :
    Issuing w refs (syncedViews w refs slots) (issued w refs slots) [] := by
  obtain ⟨hstage, hcalm⟩ := applyCache_stage (stage_new w (syncedViews w refs slots) [])
    fun gk i hi => (mem_group_new.mp hi).1
  exact issuing_listJobs (resolving_resolveKinds hstage hcalm)

/-- What a job says of its references, and the items it leaves. -/
theorem item_of_job {job : ListJob ν} (hjob : job ∈ (issued w refs slots).1) {e : ℕ × Key}
    (he : e ∈ job.refs) :
    ∃ r, Issued w refs (syncedViews w refs slots) (issued w refs slots).2 job e r ∧
      (resolveObjectStatuses w refs slots).items[e.1]? =
        some (outcomeItem w job.kind.kindId (job.outcome w) e.2 (pending r)) := by
  have h := issuing_of_call w refs slots
  obtain ⟨r, hissued⟩ := h.jobs job hjob e he
  have huniq : ∀ k, (e.1, k) ∈ job.refs → k = e.2 := by
    intro k hk
    obtain ⟨r', hissued'⟩ := h.jobs job hjob (e.1, k) hk
    obtain rfl := Option.some.inj (hissued.ref.symm.trans hissued'.ref)
    exact Option.some.inj (hissued'.key.symm.trans hissued.key)
  refine ⟨r, hissued, ?_⟩
  rw [resolve_eq, (foldl_applyOutcome _ _ e.1).2 h.apart job hjob e.2 he huniq, hissued.item,
    Option.map_some]

theorem job_unique {job job' : ListJob ν} {i : ℕ} {key key' : Key}
    (hjob : job ∈ (issued w refs slots).1) (hjob' : job' ∈ (issued w refs slots).1)
    (hi : (i, key) ∈ job.refs) (hi' : (i, key') ∈ job'.refs) : job = job' := by
  have h := issuing_of_call w refs slots
  have : Std.Symm fun j j' : ListJob ν => ∀ e ∈ j.refs, ∀ e' ∈ j'.refs, e.1 ≠ e'.1 :=
    ⟨fun j j' hj e' he' e he heq => hj e he e' he' heq.symm⟩
  by_contra hne
  exact h.apart.forall hjob hjob' hne (i, key) hi (i, key') hi' rfl

theorem right_of_call (w : World ν) (refs : List ObjectRef) (slots : List (CachedSlot ν)) :
    (resolveObjectStatuses w refs slots).items.length = refs.length ∧
      ∀ i r, refs[i]? = some r → ∃ item, (resolveObjectStatuses w refs slots).items[i]? = some item ∧
        Right w (syncedViews w refs slots) (issued w refs slots).1 i r item := by
  have h := issuing_of_call w refs slots
  have hlength : ∀ (jobs : List (ListJob ν)) (b : Batch),
      (jobs.foldl (applyOutcome w) b).items.length = b.items.length := by
    intro jobs
    induction jobs with
    | nil => exact fun b => rfl
    | cons job jobs ih =>
      intro b
      rw [List.foldl_cons, ih]
      simp [applyOutcome]
  refine ⟨by rw [resolve_eq, hlength, h.stage.length], fun i r hr => ?_⟩
  by_cases hin : ∃ job ∈ (issued w refs slots).1, ∃ e ∈ job.refs, e.1 = i
  · obtain ⟨job, hjob, e, he, rfl⟩ := hin
    obtain ⟨r', hissued, hitem⟩ := item_of_job hjob he
    obtain rfl := Option.some.inj (hr.symm.trans hissued.ref)
    exact ⟨_, hitem, .listed job e.2 hjob he⟩
  · push Not at hin
    have hempty : i ∉ (issued w refs slots).2.group r.gk := by
      intro hi
      obtain ⟨kind, hk⟩ := h.isOpen r.gk (List.ne_nil_of_mem hi)
      simp at hk
    obtain ⟨item, hitem, hp⟩ := h.stage.settled i r hr hempty
    refine ⟨item, ?_, ?_⟩
    · rw [resolve_eq, (foldl_applyOutcome _ _ i).1 hin, hitem]
    · rcases hp with hp | ⟨-, job, hjob, key, hmem⟩
      · cases hp with
        | truncated hi => exact .truncated hi
        | noNamespace => exact .noNamespace
        | cached view namespaced key row hc hrow => exact .cached view namespaced key row hc hrow
        | notServed hs => exact .notServed hs
        | undiscovered e => exact .undiscovered e
        | listed job key hj hmem => simp at hj
      · exact absurd rfl (hin job hjob (i, key) hmem)

def ObjectStatus.Missing (item : ObjectStatus) : Prop :=
  item.found = false ∧ item.status = some "Missing"

/-- No object of the reference exists in a synced cache that covers it, or in a LIST of its kind
that runs to its end, or the kind is not served. -/
inductive Absent (w : World ν) (refs : List ObjectRef) (slots : List (CachedSlot ν)) (i : ℕ)
    (r : ObjectRef) : Prop
  | cached (view : CacheView ν) (namespaced : Bool) (key : Key)
      (hc : Covering w (syncedViews w refs slots) r view namespaced key)
      (hrow : ∀ row ∈ view.rows, rowKey namespaced row ≠ some key)
  | listed (job : ListJob ν) (key : Key) (objs : List (DynamicObject ν))
      (hjob : job ∈ (issued w refs slots).1) (hmem : (i, key) ∈ job.refs)
      (hkind : resolveKind w r.gk = .ok (some job.kind))
      (hkey : refKey (pending r) job.kind.namespaced = some key)
      (hfull : fullListing (w.pages job.kind.kindId job.ns) (w.granted job.kind.kindId job.ns) 0 = some objs)
      (hobjs : ∀ obj ∈ objs, objectKey job.kind.namespaced obj ≠ key)
  | notServed (h : resolveKind w r.gk = .ok none)

/-- The item is read off a row of the reference's key. -/
inductive FromRow (w : World ν) (refs : List ObjectRef) (slots : List (CachedSlot ν)) (i : ℕ)
    (r : ObjectRef) (item : ObjectStatus) : Prop
  | cached (view : CacheView ν) (namespaced : Bool) (key : Key) (row : RowJson ν)
      (hc : Covering w (syncedViews w refs slots) r view namespaced key) (hrow : row ∈ view.rows)
      (hkey : rowKey namespaced row = some key)
      (heq : item = settle w view.kindId (some row.value) (pending r))
  | listed (job : ListJob ν) (key : Key) (n : ℕ) (objs : List (DynamicObject ν)) (next : Option String)
      (obj : DynamicObject ν) (v : Json ν) (hjob : job ∈ (issued w refs slots).1)
      (hmem : (i, key) ∈ job.refs) (hkind : resolveKind w r.gk = .ok (some job.kind))
      (hkey : refKey (pending r) job.kind.namespaced = some key)
      (hpage : w.pages job.kind.kindId job.ns n = .page objs next) (hobj : obj ∈ objs)
      (hobjKey : objectKey job.kind.namespaced obj = key) (hproject : job.kind.project obj = some v)
      (heq : item = settle w job.kind.kindId (some v) (pending r))

structure Honest (w : World ν) (refs : List ObjectRef) (slots : List (CachedSlot ν)) (i : ℕ)
    (r : ObjectRef) (item : ObjectStatus) : Prop where
  same : item.group = r.group ∧ item.kind = r.kind ∧ item.ns = r.ns ∧ item.name = r.name
  answered : i < maxRefs → item.found = true ∨ item.Missing ∨ item.error ≠ none
  missing : item.Missing → Absent w refs slots i r
  found : item.found = true → FromRow w refs slots i r item

/-- A listed object of the key has a row whenever the LIST runs to its end. -/
def Projects (w : World ν) (job : ListJob ν) (key : Key) : Prop :=
  ∀ objs, fullListing (w.pages job.kind.kindId job.ns) (w.granted job.kind.kindId job.ns) 0 = some objs →
    (∃ obj ∈ objs, objectKey job.kind.namespaced obj = key) →
      ∃ obj ∈ objs, objectKey job.kind.namespaced obj = key ∧ job.kind.project obj ≠ none

theorem outcome_missing_iff {job : ListJob ν} {key : Key} (hwanted : key ∈ job.wanted) :
    ((job.outcome w).complete = true ∧ (job.outcome w).found.lookup key = none) ↔
      ∃ objs, fullListing (w.pages job.kind.kindId job.ns) (w.granted job.kind.kindId job.ns) 0 = some objs ∧
        ∀ obj ∈ objs, objectKey job.kind.namespaced obj = key → job.kind.project obj = none :=
  runList_missing_iff hwanted (by simp) (Finmap.lookup_empty key)

/-- A listed object without a row is taken for an absent one. -/
theorem missing_of_unprojected {job : ListJob ν} {e : ℕ × Key} (hjob : job ∈ (issued w refs slots).1)
    (he : e ∈ job.refs) (hnot : ¬ Projects w job e.2) :
    ∃ r item, refs[e.1]? = some r ∧ (resolveObjectStatuses w refs slots).items[e.1]? = some item ∧
      item.Missing ∧ ¬ Absent w refs slots e.1 r := by
  obtain ⟨r, hissued, hitem⟩ := item_of_job hjob he
  simp only [Projects, not_forall, not_exists, not_and, not_not] at hnot
  obtain ⟨objs, hfull, ⟨obj, hobj, hkey⟩, hnone⟩ := hnot
  obtain ⟨hcomplete, hlookup⟩ := (outcome_missing_iff hissued.wanted).mpr ⟨objs, hfull, hnone⟩
  refine ⟨r, _, hissued.ref, hitem, ?_, fun habsent => ?_⟩
  · rw [outcomeItem, hlookup]
    dsimp only
    rw [if_pos hcomplete]
    exact ⟨rfl, rfl⟩
  · cases habsent with
    | cached view namespaced key hc _ => exact hissued.silent view namespaced key hc
    | listed job' key objs' hjob' hmem _ hkey' hfull' hobjs =>
      obtain rfl := job_unique hjob hjob' he hmem
      obtain rfl := Option.some.inj (hissued.key.symm.trans hkey')
      obtain rfl := Option.some.inj (hfull.symm.trans hfull')
      exact hobjs obj hobj hkey
    | notServed h => simp [hissued.kind] at h

theorem honest_outcomeItem {i : ℕ} {r : ObjectRef} {job : ListJob ν} {key : Key}
    (hjob : job ∈ (issued w refs slots).1) (hmem : (i, key) ∈ job.refs) (hr : refs[i]? = some r)
    (hprojects : Projects w job key) :
    Honest w refs slots i r (outcomeItem w job.kind.kindId (job.outcome w) key (pending r)) := by
  obtain ⟨r', hissued, -⟩ := item_of_job hjob hmem
  obtain rfl := Option.some.inj (hr.symm.trans hissued.ref)
  have hoff := outcome_missing_iff (w := w) hissued.wanted
  unfold outcomeItem
  cases hlookup : (job.outcome w).found.lookup key with
  | some v =>
    refine ⟨⟨rfl, rfl, rfl, rfl⟩, fun _ => .inl rfl, fun hmiss => ?_, fun _ => ?_⟩
    · simp [settle, ObjectStatus.Missing] at hmiss
    · rcases runList_found hlookup with hempty | ⟨n, objs, next, hpage, obj, hobj, hobjKey, hproject⟩
      · simp at hempty
      · exact .listed job key n objs next obj v hjob hmem hissued.kind hissued.key hpage hobj hobjKey
          hproject rfl
  | none =>
    cases hcomplete : (job.outcome w).complete with
    | false =>
      simp only [Bool.false_eq_true, if_false]
      refine ⟨⟨rfl, rfl, rfl, rfl⟩, fun _ => .inr (.inr ?_), fun hmiss => ?_, fun hfound => ?_⟩
      · exact Option.some_ne_none _
      · simp [pending, ObjectStatus.Missing] at hmiss
      · simp [pending] at hfound
    | true =>
      simp only [if_true]
      refine ⟨⟨rfl, rfl, rfl, rfl⟩, fun _ => .inr (.inl ⟨rfl, rfl⟩), fun _ => ?_, fun hfound => ?_⟩
      · obtain ⟨objs, hfull, hnone⟩ := hoff.mp ⟨hcomplete, hlookup⟩
        refine .listed job key objs hjob hmem hissued.kind hissued.key hfull fun obj hobj hkey => ?_
        obtain ⟨o, ho, hokey, hproject⟩ := hprojects objs hfull ⟨obj, hobj, hkey⟩
        exact hproject (hnone o ho hokey)
      · simp [settle] at hfound

theorem honest_of_right {i : ℕ} {r : ObjectRef} {item : ObjectStatus}
    (hprojects : ∀ job ∈ (issued w refs slots).1, ∀ e ∈ job.refs, Projects w job e.2)
    (hr : refs[i]? = some r)
    (h : Right w (syncedViews w refs slots) (issued w refs slots).1 i r item) :
    Honest w refs slots i r item := by
  have hmissing : ∀ e : Option StatusError, ¬ ({ pending r with error := e } : ObjectStatus).Missing :=
    fun e hmiss => by simp [pending, ObjectStatus.Missing] at hmiss
  have herror : ∀ e : StatusError, Honest w refs slots i r { pending r with error := some e } :=
    fun e => ⟨⟨rfl, rfl, rfl, rfl⟩, fun _ => .inr (.inr (Option.some_ne_none e)),
      fun hmiss => absurd hmiss (hmissing _), fun hfound => by simp [pending] at hfound⟩
  cases h with
  | truncated hi => exact herror _
  | noNamespace => exact herror _
  | undiscovered e => exact herror e
  | notServed hs =>
    exact ⟨⟨rfl, rfl, rfl, rfl⟩, fun _ => .inr (.inl ⟨rfl, rfl⟩), fun _ => .notServed hs,
      fun hfound => by simp at hfound⟩
  | cached view namespaced key row hc hrow =>
    cases row with
    | none =>
      exact ⟨⟨rfl, rfl, rfl, rfl⟩, fun _ => .inr (.inl ⟨rfl, rfl⟩),
        fun _ => .cached view namespaced key hc hrow, fun hfound => by simp [settle] at hfound⟩
    | some v =>
      obtain ⟨row, hmem, hkey, rfl⟩ := hrow
      exact ⟨⟨rfl, rfl, rfl, rfl⟩, fun _ => .inl rfl,
        fun hmiss => by simp [settle, ObjectStatus.Missing] at hmiss,
        fun _ => .cached view namespaced key row hc hmem hkey rfl⟩
  | listed job key hj hmem => exact honest_outcomeItem hj hmem hr (hprojects job hj _ hmem)

/-- One cluster that serves deployments, lists one, and cannot read it. -/
def unreadable : World Unit :=
  let kind : ResolvedKind Unit := ⟨"apps/v1/deployments", true, fun _ => none⟩
  { parseKindId := fun _ => none
    lookupByGk := fun gk => if gk = ("apps", "Deployment") then some kind else none
    fromDynamicCrd := fun _ _ => kind
    normalize := fun _ _ => (none, none)
    filtered := .failed
    group := fun _ => .unknown
    pages := fun _ _ _ => .page [⟨some "web", some "prod", .null⟩] none
    granted := fun _ _ => 1 }

def webRef : ObjectRef := ⟨"apps", "Deployment", some "prod", "web"⟩

def webJob : ListJob Unit :=
  { kind := ⟨"apps/v1/deployments", true, fun _ => none⟩
    ns := some "prod"
    wanted := {("prod", "web")}
    refs := [(0, ("prod", "web"))] }

theorem issued_web : (issued unreadable [webRef] []).1 = [webJob] := by
  have hviews : syncedViews unreadable [webRef] [] = [] := rfl
  have hkinds : resolveKinds unreadable (applyCache unreadable [] (Batch.new [webRef])) =
      ([(webRef.gk, webJob.kind)], Batch.new [webRef]) := rfl
  rw [issued, hviews, hkinds]
  have hkeyed : keyed (Batch.new [webRef]) true ((Batch.new [webRef]).group webRef.gk) =
      [(0, ("prod", "web"))] := rfl
  simp [listJobs, jobStep, webJob, hkeyed, jobsOf, namespacesOf, planLists, perNamespaceListMax]

end Answers

end FerrisScope.ObjectStatuses
