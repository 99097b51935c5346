import Mathlib.Data.Finmap

/-!
# Streams of writes to a keyed map

A write sets or deletes one key. The effect of a list of writes is, for each key, what the
list leaves there: nothing, a deletion, or a value. Effects compose, the later one winning,
and folding the writes into a finite map is the same as overlaying their effect. A list
that enumerates a finite set stands for one iteration order of an unordered collection.
-/

namespace FerrisScope.KeyedWrites

variable {κ ν : Type*} [DecidableEq κ]

/-- An unordered finite map. -/
abbrev Table (κ ν : Type*) := Finmap (fun _ : κ => ν)

inductive Write (κ ν : Type*) where
  | put (k : κ) (v : ν)
  | del (k : κ)
  deriving DecidableEq, Repr

/-- What writes leave at each key: `none` untouched, `some none` deleted, else the value. -/
abbrev Effect (κ ν : Type*) := κ → Option (Option ν)

def applyWrite (m : Table κ ν) : Write κ ν → Table κ ν
  | .put k v => m.insert k v
  | .del k => m.erase k

def effectAt (w : Write κ ν) : Effect κ ν := fun k =>
  match w with
  | .put k' v => if k = k' then some (some v) else none
  | .del k' => if k = k' then some none else none

/-- Two effects one after the other. -/
def andThen (f g : Effect κ ν) : Effect κ ν := fun k => (g k).or (f k)

def effect (ws : List (Write κ ν)) : Effect κ ν :=
  ws.foldl (fun f w => andThen f (effectAt w)) fun _ => none

/-- A map seen through an effect. -/
def overlay (f : Effect κ ν) (m : κ → Option ν) : κ → Option ν := fun k => (f k).getD (m k)

omit [DecidableEq κ] in
theorem andThen_assoc (f g h : Effect κ ν) :
    andThen (andThen f g) h = andThen f (andThen g h) := by
  funext k
  simp [andThen, Option.or_assoc]

omit [DecidableEq κ] in
@[simp] theorem none_andThen (f : Effect κ ν) : andThen (fun _ => none) f = f := by
  funext k
  simp [andThen]

omit [DecidableEq κ] in
@[simp] theorem andThen_none (f : Effect κ ν) : andThen f (fun _ => none) = f := by
  funext k
  simp [andThen]

omit [DecidableEq κ] in
theorem overlay_andThen (f g : Effect κ ν) (m : κ → Option ν) :
    overlay (andThen f g) m = overlay g (overlay f m) := by
  funext k
  cases hg : g k <;> simp [overlay, andThen, hg]

theorem lookup_applyWrite (m : Table κ ν) (w : Write κ ν) :
    (applyWrite m w).lookup = overlay (effectAt w) m.lookup := by
  funext k
  cases w with
  | put k' v =>
    by_cases h : k = k'
    · subst h
      simp [applyWrite, overlay, effectAt]
    · simp [applyWrite, overlay, effectAt, h]
  | del k' =>
    by_cases h : k = k'
    · subst h
      simp [applyWrite, overlay, effectAt]
    · simp [applyWrite, overlay, effectAt, h, Finmap.lookup_erase_ne]

@[simp] theorem effect_nil : effect ([] : List (Write κ ν)) = fun _ => none := rfl

private theorem foldl_andThen (ws : List (Write κ ν)) (f : Effect κ ν) :
    ws.foldl (fun f w => andThen f (effectAt w)) f = andThen f (effect ws) := by
  induction ws generalizing f with
  | nil => simp
  | cons w ws ih =>
    have hw : effect (w :: ws) = andThen (effectAt w) (effect ws) := by
      rw [effect, List.foldl_cons, ih, none_andThen]
    rw [List.foldl_cons, ih, hw, andThen_assoc]

theorem effect_append (ws us : List (Write κ ν)) :
    effect (ws ++ us) = andThen (effect ws) (effect us) := by
  rw [effect, List.foldl_append, foldl_andThen us]
  rfl

@[simp] theorem effect_singleton (w : Write κ ν) : effect [w] = effectAt w := by
  simp [effect]

theorem effect_cons (w : Write κ ν) (ws : List (Write κ ν)) :
    effect (w :: ws) = andThen (effectAt w) (effect ws) := by
  rw [← List.singleton_append, effect_append, effect_singleton]

/-- Folding writes into a map is overlaying their effect. -/
theorem lookup_foldl_applyWrite (ws : List (Write κ ν)) (m : Table κ ν) :
    (ws.foldl applyWrite m).lookup = overlay (effect ws) m.lookup := by
  induction ws generalizing m with
  | nil => funext k; simp [overlay]
  | cons w ws ih =>
    rw [List.foldl_cons, ih, lookup_applyWrite, effect_cons, overlay_andThen]

/-- Folding operations that are writes into a map is overlaying the effect of the writes. -/
theorem lookup_foldl_of_writes {β : Type*} {f : Table κ ν → β → Table κ ν}
    {writes : β → List (Write κ ν)} (h : ∀ m b, f m b = (writes b).foldl applyWrite m)
    (bs : List β) (m : Table κ ν) :
    (bs.foldl f m).lookup = overlay (effect (bs.flatMap writes)) m.lookup := by
  rw [← lookup_foldl_applyWrite]
  induction bs generalizing m with
  | nil => rfl
  | cons b bs ih => rw [List.foldl_cons, List.flatMap_cons, List.foldl_append, ih, h]

theorem table_ext {m m' : Table κ ν} (h : m.lookup = m'.lookup) : m = m' :=
  Finmap.ext_lookup fun k => congrFun h k

def Write.map {μ : Type*} (f : ν → μ) : Write κ ν → Write κ μ
  | .put k v => .put k (f v)
  | .del k => .del k

/-- An effect with its values mapped. -/
def mapEffect {μ : Type*} (f : ν → μ) (e : Effect κ ν) : Effect κ μ := fun k =>
  (e k).map (Option.map f)

omit [DecidableEq κ] in
@[simp] theorem mapEffect_none {μ : Type*} (f : ν → μ) :
    mapEffect f (fun _ => none : Effect κ ν) = fun _ => none := rfl

omit [DecidableEq κ] in
theorem mapEffect_andThen {μ : Type*} (f : ν → μ) (e e' : Effect κ ν) :
    mapEffect f (andThen e e') = andThen (mapEffect f e) (mapEffect f e') := by
  funext k
  cases h : e' k <;> simp [mapEffect, andThen, h]

theorem effectAt_map {μ : Type*} (f : ν → μ) (w : Write κ ν) :
    effectAt (w.map f) = mapEffect f (effectAt w) := by
  funext k
  cases w with
  | put k' v => by_cases h : k = k' <;> simp [effectAt, Write.map, mapEffect, h]
  | del k' => by_cases h : k = k' <;> simp [effectAt, Write.map, mapEffect, h]

theorem effect_map {μ : Type*} (f : ν → μ) (ws : List (Write κ ν)) :
    effect (ws.map (Write.map f)) = mapEffect f (effect ws) := by
  induction ws with
  | nil => rfl
  | cons w ws ih => rw [List.map_cons, effect_cons, effect_cons, mapEffect_andThen, ih, effectAt_map]

/-- A value left by a list of writes was put by one of them. -/
theorem put_mem_of_effect {ws : List (Write κ ν)} {k : κ} {v : ν}
    (h : effect ws k = some (some v)) : .put k v ∈ ws := by
  induction ws with
  | nil => simp at h
  | cons w ws ih =>
    rw [effect_cons] at h
    cases hws : effect ws k with
    | some x =>
      simp only [andThen, hws, Option.some_or, Option.some.injEq] at h
      exact List.mem_cons_of_mem _ (ih (by rw [hws, h]))
    | none =>
      cases w with
      | put k' v' =>
        by_cases hk : k = k'
        · subst hk
          simp only [andThen, hws, effectAt, if_true, Option.none_or, Option.some.injEq] at h
          simp [h]
        · simp [andThen, hws, effectAt, hk] at h
      | del k' =>
        by_cases hk : k = k'
        · subst hk
          simp [andThen, hws, effectAt] at h
        · simp [andThen, hws, effectAt, hk] at h

omit [DecidableEq κ] in
/-- What a whole stream leaves unchanged, each of its tails leaves unchanged. -/
theorem overlay_eq_of_andThen {f g : Effect κ ν} {m : κ → Option ν}
    (h : overlay (andThen f g) m = m) : overlay g m = m := by
  funext k
  have hk := congrFun h k
  cases hg : g k with
  | none => simp [overlay, hg]
  | some w => simpa [overlay, andThen, hg] using hk

omit [DecidableEq κ] in
/-- Writes still in flight that end in the current map keep doing so after it changes. -/
theorem overlay_andThen_fixed {f g : Effect κ ν} {m : κ → Option ν} (h : overlay f m = m) :
    overlay (andThen f g) (overlay g m) = overlay g m := by
  funext k
  have hk := congrFun h k
  cases hg : g k with
  | none => simpa [overlay, andThen, hg] using hk
  | some w => simp [overlay, andThen, hg]

/-- One iteration order of a finite set. -/
def Enumerates (l : List κ) (s : Finset κ) : Prop := l.Nodup ∧ l.toFinset = s

instance (l : List κ) (s : Finset κ) : Decidable (Enumerates l s) :=
  inferInstanceAs (Decidable (_ ∧ _))

theorem Enumerates.mem_iff {l : List κ} {s : Finset κ} (h : Enumerates l s) {k : κ} :
    k ∈ l ↔ k ∈ s := by
  rw [← h.2, List.mem_toFinset]

theorem Enumerates.length_eq {l : List κ} {s : Finset κ} (h : Enumerates l s) :
    l.length = s.card := by
  rw [← h.2, List.toFinset_card_of_nodup h.1]

/-- The entries of `m` at the listed keys, as writes. -/
def puts (m : Table κ ν) (l : List κ) : List (Write κ ν) :=
  l.filterMap fun k => (m.lookup k).map (Write.put k)

theorem effect_puts (m : Table κ ν) (l : List κ) (k : κ) :
    effect (puts m l) k = if k ∈ l then (m.lookup k).map some else none := by
  induction l with
  | nil => simp [puts]
  | cons a l ih =>
    have hcons : puts m (a :: l) = (match m.lookup a with
        | none => puts m l
        | some v => .put a v :: puts m l) := by
      cases h : m.lookup a <;> simp [puts, h]
    rw [hcons]
    cases ha : m.lookup a with
    | none =>
      by_cases hk : k = a
      · subst hk
        simp [ih, ha]
      · simp [ih, hk]
    | some v =>
      simp only [effect_cons, andThen, ih, effectAt]
      by_cases hk : k = a
      · subst hk
        by_cases hl : k ∈ l <;> simp [hl, ha]
      · by_cases hl : k ∈ l <;> simp [hl, hk]

theorem effect_puts_keys (m : Table κ ν) {l : List κ} (h : Enumerates l m.keys) (k : κ) :
    effect (puts m l) k = (m.lookup k).map some := by
  rw [effect_puts]
  split_ifs with hk
  · rfl
  · have hn : k ∉ m := fun hm => hk (h.mem_iff.mpr (Finmap.mem_keys.mpr hm))
    simp [Finmap.lookup_eq_none.mpr hn]

theorem effect_dels (l : List κ) (k : κ) :
    effect (l.map (Write.del : κ → Write κ ν)) k = if k ∈ l then some none else none := by
  induction l with
  | nil => simp
  | cons a l ih =>
    rw [List.map_cons, effect_cons]
    simp only [andThen, ih, effectAt]
    by_cases hl : k ∈ l
    · simp [hl]
    · by_cases hk : k = a
      · subst hk
        simp [hl]
      · simp [hl, hk]

/-- Rebuilding a map from its enumerated entries. -/
theorem foldl_puts_empty (m : Table κ ν) {l : List κ} (h : Enumerates l m.keys) :
    (puts m l).foldl applyWrite ∅ = m := by
  apply table_ext
  rw [lookup_foldl_applyWrite]
  funext k
  rw [overlay, effect_puts_keys m h]
  cases m.lookup k <;> simp

theorem lookup_foldl_erase (l : List κ) (m : Table κ ν) (k : κ) :
    (l.foldl (fun m k => m.erase k) m).lookup k = if k ∈ l then none else m.lookup k := by
  induction l generalizing m with
  | nil => simp
  | cons a l ih =>
    rw [List.foldl_cons, ih]
    by_cases hk : k = a
    · subst hk
      simp
    · simp [hk, Finmap.lookup_erase_ne hk]

theorem lookup_foldl_insert (l : List κ) (v : ν) (m : Table κ ν) (k : κ) :
    (l.foldl (fun m k => m.insert k v) m).lookup k = if k ∈ l then some v else m.lookup k := by
  induction l generalizing m with
  | nil => simp
  | cons a l ih =>
    rw [List.foldl_cons, ih]
    by_cases hk : k = a
    · subst hk
      simp
    · simp [hk, Finmap.lookup_insert_of_ne _ hk]

/-- Erasing keys: only their set matters. -/
theorem foldl_erase_congr {l l' : List κ} (h : ∀ k, k ∈ l ↔ k ∈ l') (m : Table κ ν) :
    l.foldl (fun m k => m.erase k) m = l'.foldl (fun m k => m.erase k) m := by
  refine Finmap.ext_lookup fun k => ?_
  simp only [lookup_foldl_erase, h k]

theorem keys_insert (m : Table κ ν) (k : κ) (v : ν) :
    (m.insert k v).keys = insert k m.keys := by
  ext x
  simp [Finmap.mem_keys]

/-- Inserting a value that no key has keeps a table injective. -/
theorem insert_inj_on {m : Table κ ν} {k₀ : κ} {v₀ : ν}
    (hinj : ∀ k k' v, m.lookup k = some v → m.lookup k' = some v → k = k')
    (hnew : ∀ k v, m.lookup k = some v → v ≠ v₀) {k k' : κ} {v : ν}
    (h : (m.insert k₀ v₀).lookup k = some v) (h' : (m.insert k₀ v₀).lookup k' = some v) : k = k' := by
  by_cases hk : k = k₀ <;> by_cases hk' : k' = k₀
  · rw [hk, hk']
  · subst hk
    rw [Finmap.lookup_insert] at h
    rw [Finmap.lookup_insert_of_ne _ hk'] at h'
    exact absurd (Option.some.inj h).symm (hnew k' v h')
  · subst hk'
    rw [Finmap.lookup_insert] at h'
    rw [Finmap.lookup_insert_of_ne _ hk] at h
    exact absurd (Option.some.inj h').symm (hnew k v h)
  · rw [Finmap.lookup_insert_of_ne _ hk] at h
    rw [Finmap.lookup_insert_of_ne _ hk'] at h'
    exact hinj k k' v h h'

end FerrisScope.KeyedWrites
