import FerrisScope.KeyedWrites
import FerrisScope.LabelledRuns

/-!
# The coalescing dirty channel

The watcher records upserts and deletes per uid while its single consumer is busy; a drain
takes the coalesced result, whole or in capped chunks. Each operation below is one hold of
the channel's mutex. A capped drain reads its hash collections in some iteration order,
which the caller supplies and which is arbitrary.
-/

namespace FerrisScope
open KeyedWrites LabelledRuns

abbrev Uid := String

structure DirtyState (ρ : Type) where
  changed : Table Uid ρ
  deleted : Finset Uid
  initDonePending : Bool
  closed : Bool

structure DrainedBatch (ρ : Type) where
  upserts : Table Uid ρ
  deletes : Finset Uid
  initDone : Bool

/-- The delta for each uid that upserts and deletes amount to. -/
def deltaAt {ρ : Type} (upserts : Table Uid ρ) (deletes : Finset Uid) : Effect Uid ρ := fun u =>
  if u ∈ deletes then some none else (upserts.lookup u).map some

namespace DrainedBatch

variable {ρ : Type}

def isEmpty (b : DrainedBatch ρ) : Bool :=
  decide (b.upserts.keys = ∅) && decide (b.deletes = ∅) && !b.initDone

def deltaCount (b : DrainedBatch ρ) : ℕ := b.upserts.keys.card + b.deletes.card

def effect (b : DrainedBatch ρ) : Effect Uid ρ := deltaAt b.upserts b.deletes

end DrainedBatch

namespace DirtyChannel

variable {ρ : Type}

def new : DirtyState ρ := ⟨∅, ∅, false, false⟩

def recordUpsert (s : DirtyState ρ) (uid : Uid) (row : ρ) : DirtyState ρ :=
  if s.closed then s
  else { s with deleted := s.deleted.erase uid, changed := s.changed.insert uid row }

def recordDelete (s : DirtyState ρ) (uid : Uid) : DirtyState ρ :=
  if s.closed then s
  else { s with changed := s.changed.erase uid, deleted := insert uid s.deleted }

/-- A write to the channel is `record_upsert` or `record_delete`. -/
def record (s : DirtyState ρ) : Write Uid ρ → DirtyState ρ
  | .put uid row => recordUpsert s uid row
  | .del uid => recordDelete s uid

def markInitDone (s : DirtyState ρ) : DirtyState ρ :=
  if s.closed then s else { s with initDonePending := true }

def close (s : DirtyState ρ) : DirtyState ρ := { s with closed := true }

def drain (s : DirtyState ρ) : DrainedBatch ρ × DirtyState ρ :=
  (⟨s.changed, s.deleted, s.initDonePending⟩,
    { s with changed := ∅, deleted := ∅, initDonePending := false })

/-- The loop over the uids taken from `deleted`. -/
def takeDeletes (s : DirtyState ρ) (take : List Uid) : Finset Uid × DirtyState ρ :=
  take.foldl (fun acc uid =>
    (insert uid acc.1, { acc.2 with deleted := acc.2.deleted.erase uid })) (∅, s)

/-- The loop over the uids taken from `changed`. -/
def takeUpserts (s : DirtyState ρ) (take : List Uid) : Table Uid ρ × DirtyState ρ :=
  take.foldl (fun acc uid => match acc.2.changed.lookup uid with
    | some v => (acc.1.insert uid v, { acc.2 with changed := acc.2.changed.erase uid })
    | none => acc) (∅, s)

/-- `drain_capped`, with the iteration orders of `deleted` and `changed`. -/
def drainCapped (s : DirtyState ρ) (max : ℕ) (deletedIter changedIter : List Uid) :
    DrainedBatch ρ × DirtyState ρ :=
  if max = 0 ∨ s.changed.keys.card + s.deleted.card ≤ max then drain s
  else
    let d := if s.deleted = ∅ then (∅, s) else takeDeletes s (deletedIter.take max)
    let budget := max - d.1.card
    let u := if 0 < budget then takeUpserts d.2 (changedIter.take budget) else (∅, d.2)
    (⟨u.1, d.1, false⟩, u.2)

/-- What the channel still holds for each uid. -/
def pending (s : DirtyState ρ) : Effect Uid ρ := deltaAt s.changed s.deleted

def Separate (s : DirtyState ρ) : Prop := ∀ u ∈ s.deleted, u ∉ s.changed

theorem pending_record (s : DirtyState ρ) (w : Write Uid ρ) (ho : s.closed = false) :
    pending (record s w) = andThen (pending s) (effectAt w) := by
  funext u
  cases w with
  | put uid row =>
    by_cases hu : u = uid
    · subst hu
      simp [record, recordUpsert, ho, pending, deltaAt, andThen, effectAt]
    · simp [record, recordUpsert, ho, pending, deltaAt, andThen, effectAt, hu]
  | del uid =>
    by_cases hu : u = uid
    · subst hu
      simp [record, recordDelete, ho, pending, deltaAt, andThen, effectAt]
    · simp [record, recordDelete, ho, pending, deltaAt, andThen, effectAt, hu,
        Finmap.lookup_erase_ne hu]

theorem record_closed (s : DirtyState ρ) (w : Write Uid ρ) (hc : s.closed = true) :
    record s w = s := by
  cases w <;> simp [record, recordUpsert, recordDelete, hc]

@[simp] theorem record_closed_eq (s : DirtyState ρ) (w : Write Uid ρ) :
    (record s w).closed = s.closed := by
  cases w <;> simp only [record, recordUpsert, recordDelete] <;> split <;> rfl

@[simp] theorem record_initDonePending (s : DirtyState ρ) (w : Write Uid ρ) :
    (record s w).initDonePending = s.initDonePending := by
  cases w <;> simp only [record, recordUpsert, recordDelete] <;> split <;> rfl

@[simp] theorem markInitDone_closed (s : DirtyState ρ) : (markInitDone s).closed = s.closed := by
  simp only [markInitDone]
  split <;> rfl

@[simp] theorem pending_markInitDone (s : DirtyState ρ) : pending (markInitDone s) = pending s := by
  simp only [markInitDone]
  split <;> rfl

@[simp] theorem pending_close (s : DirtyState ρ) : pending (close s) = pending s := rfl

theorem separate_markInitDone {s : DirtyState ρ} (h : Separate s) : Separate (markInitDone s) := by
  simp only [markInitDone]
  split <;> exact h

theorem separate_record {s : DirtyState ρ} (h : Separate s) (w : Write Uid ρ) :
    Separate (record s w) := by
  cases hc : s.closed with
  | true => rwa [record_closed s w hc]
  | false =>
    cases w with
    | put uid row =>
      intro u hu
      simp only [record, recordUpsert, hc, Bool.false_eq_true, if_false, Finset.mem_erase] at hu
      simp [record, recordUpsert, hc, hu.1, h u hu.2]
    | del uid =>
      intro u hu
      simp only [record, recordDelete, hc, Bool.false_eq_true, if_false, Finset.mem_insert] at hu
      rcases hu with rfl | hu
      · simp [record, recordDelete, hc]
      · simp [record, recordDelete, hc, h u hu]

/-- A drain hands over each uid's delta or keeps it. -/
def Splits (f given kept : Effect Uid ρ) : Prop := ∀ u,
  (given u = f u ∧ kept u = none) ∨ (given u = none ∧ kept u = f u)

theorem Splits.andThen_eq {f given kept : Effect Uid ρ} (h : Splits f given kept) :
    andThen given kept = f := by
  funext u
  rcases h u with ⟨hg, hk⟩ | ⟨hg, hk⟩ <;> simp [andThen, hg, hk]

private theorem foldl_takeDeletes (l : List Uid) (acc : Finset Uid) (s : DirtyState ρ) :
    l.foldl (fun acc uid =>
      (insert uid acc.1, { acc.2 with deleted := acc.2.deleted.erase uid })) (acc, s) =
    (acc ∪ l.toFinset, { s with deleted := s.deleted \ l.toFinset }) := by
  induction l generalizing acc s with
  | nil => simp
  | cons a l ih =>
    rw [List.foldl_cons, ih]
    refine Prod.ext ?_ ?_
    · ext u
      simp
    · simp [Finset.sdiff_insert, Finset.erase_sdiff_comm]

theorem takeDeletes_eq (s : DirtyState ρ) (take : List Uid) :
    takeDeletes s take = (take.toFinset, { s with deleted := s.deleted \ take.toFinset }) := by
  rw [takeDeletes, foldl_takeDeletes, Finset.empty_union]

/-- What the upsert loop makes of a table being filled and the state it takes from. -/
private def upsertLoop (acc : Table Uid ρ × DirtyState ρ) (take : List Uid) :
    Table Uid ρ × DirtyState ρ :=
  take.foldl (fun acc uid => match acc.2.changed.lookup uid with
    | some v => (acc.1.insert uid v, { acc.2 with changed := acc.2.changed.erase uid })
    | none => acc) acc

private theorem upsertLoop_frame (acc : Table Uid ρ × DirtyState ρ) (take : List Uid) :
    (upsertLoop acc take).2 = { acc.2 with changed := (upsertLoop acc take).2.changed } := by
  induction take generalizing acc with
  | nil => rfl
  | cons a l ih =>
    rw [upsertLoop, List.foldl_cons, ← upsertLoop, ih]
    cases acc.2.changed.lookup a <;> rfl

private theorem lookup_upsertLoop (acc : Table Uid ρ × DirtyState ρ) (take : List Uid) (u : Uid) :
    (upsertLoop acc take).1.lookup u =
      (if u ∈ take then (acc.2.changed.lookup u).or (acc.1.lookup u) else acc.1.lookup u) ∧
    (upsertLoop acc take).2.changed.lookup u =
      (if u ∈ take then none else acc.2.changed.lookup u) := by
  induction take generalizing acc with
  | nil => simp [upsertLoop]
  | cons a l ih =>
    rw [upsertLoop, List.foldl_cons, ← upsertLoop]
    cases ha : acc.2.changed.lookup a with
    | none =>
      refine ⟨(ih acc).1.trans ?_, (ih acc).2.trans ?_⟩
      · by_cases hu : u = a
        · subst hu
          simp [ha]
        · simp [hu]
      · by_cases hu : u = a
        · subst hu
          simp [ha]
        · simp [hu]
    | some v =>
      refine ⟨(ih _).1.trans ?_, (ih _).2.trans ?_⟩
      · by_cases hu : u = a
        · subst hu
          simp [ha]
        · simp [hu, Finmap.lookup_erase_ne hu]
      · by_cases hu : u = a
        · subst hu
          simp
        · simp [hu, Finmap.lookup_erase_ne hu]

theorem lookup_takeUpserts (s : DirtyState ρ) (take : List Uid) (u : Uid) :
    (takeUpserts s take).1.lookup u = (if u ∈ take then s.changed.lookup u else none) ∧
    (takeUpserts s take).2.changed.lookup u = (if u ∈ take then none else s.changed.lookup u) := by
  simpa [upsertLoop, takeUpserts] using lookup_upsertLoop (∅, s) take u

theorem takeUpserts_frame (s : DirtyState ρ) (take : List Uid) :
    (takeUpserts s take).2 = { s with changed := (takeUpserts s take).2.changed } :=
  upsertLoop_frame (∅, s) take

/-- A batch made of the deletes `D` and the upserts `C`, and the state it leaves. -/
structure Chunk (s : DirtyState ρ) (D C : List Uid) (r : DrainedBatch ρ × DirtyState ρ) :
    Prop where
  deletes : r.1.deletes = D.toFinset
  upserts : ∀ u, r.1.upserts.lookup u = if u ∈ C then s.changed.lookup u else none
  initDone : r.1.initDone = false
  deleted : r.2.deleted = s.deleted \ D.toFinset
  changed : ∀ u, r.2.changed.lookup u = if u ∈ C then none else s.changed.lookup u
  initDonePending : r.2.initDonePending = s.initDonePending
  closed : r.2.closed = s.closed

/-- Above the cap, the batch is the first `max` deletes and then, up to the remaining
budget, the first upserts of the two iteration orders. -/
theorem drainCapped_chunk {s : DirtyState ρ} {max : ℕ} {di ci : List Uid}
    (hd : Enumerates di s.deleted)
    (hcap : ¬ (max = 0 ∨ s.changed.keys.card + s.deleted.card ≤ max)) :
    Chunk s (di.take max) (ci.take (max - (di.take max).length)) (drainCapped s max di ci) := by
  generalize hD : di.take max = D
  have hdel : (if s.deleted = ∅ then (∅, s) else takeDeletes s D) =
      (D.toFinset, { s with deleted := s.deleted \ D.toFinset }) := by
    split_ifs with he
    · have hnil : di = [] := List.eq_nil_iff_length_eq_zero.mpr (by simp [hd.length_eq, he])
      simp [← hD, hnil]
    · exact takeDeletes_eq s _
  have hcard : D.toFinset.card = D.length :=
    List.toFinset_card_of_nodup (hD ▸ hd.1.sublist (List.take_sublist _ _))
  generalize hC : ci.take (max - D.length) = C
  have hups : (if 0 < max - D.toFinset.card then
      takeUpserts { s with deleted := s.deleted \ D.toFinset } (ci.take (max - D.toFinset.card))
      else (∅, { s with deleted := s.deleted \ D.toFinset })) =
      takeUpserts { s with deleted := s.deleted \ D.toFinset } C := by
    rw [hcard, hC]
    split_ifs with hb
    · rfl
    · have hnil : C = [] := by
        rw [← hC, show max - D.length = 0 by omega, List.take_zero]
      rw [hnil]
      rfl
  have hframe := takeUpserts_frame { s with deleted := s.deleted \ D.toFinset } C
  simp only [drainCapped, hcap, if_false, hD, hdel, hups]
  exact ⟨rfl, fun u => (lookup_takeUpserts _ C u).1, rfl, by rw [hframe],
    fun u => (lookup_takeUpserts _ C u).2, by rw [hframe], by rw [hframe]⟩

theorem Chunk.splits {s : DirtyState ρ} {D C : List Uid} {r : DrainedBatch ρ × DirtyState ρ}
    (h : Chunk s D C r) (hs : Separate s) (hD : ∀ u ∈ D, u ∈ s.deleted) :
    Splits (pending s) r.1.effect (pending r.2) := by
  intro u
  by_cases hdel : u ∈ s.deleted
  · have hnone : s.changed.lookup u = none := Finmap.lookup_eq_none.mpr (hs u hdel)
    by_cases hu : u ∈ D
    · left
      simp [DrainedBatch.effect, pending, deltaAt, h.deletes, h.deleted, h.changed, hdel, hu, hnone]
    · right
      simp [DrainedBatch.effect, pending, deltaAt, h.deletes, h.deleted, h.upserts, hdel, hu, hnone]
  · have hu : u ∉ D := fun hu => hdel (hD u hu)
    by_cases hc : u ∈ C
    · left
      simp [DrainedBatch.effect, pending, deltaAt, h.deletes, h.deleted, h.upserts, h.changed,
        hdel, hu, hc]
    · right
      simp [DrainedBatch.effect, pending, deltaAt, h.deletes, h.deleted, h.upserts, h.changed,
        hdel, hu, hc]

/-- Everything a drain with cap `cap` (`0` for none) does to the channel. -/
structure Drained (s : DirtyState ρ) (cap : ℕ) (r : DrainedBatch ρ × DirtyState ρ) : Prop where
  splits : Splits (pending s) r.1.effect (pending r.2)
  separate : Separate r.2
  disjoint : ∀ u ∈ r.1.deletes, u ∉ r.1.upserts
  count : cap ≠ 0 → r.1.deltaCount ≤ cap
  initDone : r.1.initDone = true ↔
    s.initDonePending = true ∧ r.2.changed.keys = ∅ ∧ r.2.deleted = ∅
  initDonePending : r.2.initDonePending = (s.initDonePending && !r.1.initDone)
  closed : r.2.closed = s.closed

theorem drain_drained {s : DirtyState ρ} (hs : Separate s) {cap : ℕ}
    (hcap : cap = 0 ∨ s.changed.keys.card + s.deleted.card ≤ cap) : Drained s cap (drain s) where
  splits u := .inl ⟨rfl, by simp [drain, pending, deltaAt]⟩
  separate := by simp [drain, Separate]
  disjoint := hs
  count h := hcap.resolve_left h
  initDone := by simp [drain]
  initDonePending := by simp [drain]
  closed := rfl

theorem Chunk.card_le_of_emptied {s : DirtyState ρ} {D C : List Uid}
    {r : DrainedBatch ρ × DirtyState ρ} (h : Chunk s D C r) (hc : r.2.changed.keys = ∅)
    (hd : r.2.deleted = ∅) : s.changed.keys.card + s.deleted.card ≤ D.length + C.length := by
  have hdel : s.deleted ⊆ D.toFinset := Finset.sdiff_eq_empty_iff_subset.mp (h.deleted ▸ hd)
  have hchg : s.changed.keys ⊆ C.toFinset := by
    intro u hu
    by_contra hn
    have hmem : u ∈ r.2.changed.keys := by
      rw [Finmap.mem_keys] at hu ⊢
      rw [← Finmap.lookup_isSome, h.changed, if_neg (by simpa using hn), Finmap.lookup_isSome]
      exact hu
    simp [hc] at hmem
  have hd' := (Finset.card_le_card hdel).trans (List.toFinset_card_le D)
  have hc' := (Finset.card_le_card hchg).trans (List.toFinset_card_le C)
  omega

theorem Chunk.deltaCount_le {s : DirtyState ρ} {D C : List Uid}
    {r : DrainedBatch ρ × DirtyState ρ} (h : Chunk s D C r) :
    r.1.deltaCount ≤ D.length + C.length := by
  have hups : r.1.upserts.keys ⊆ C.toFinset := by
    intro u hu
    by_contra hn
    rw [Finmap.mem_keys, ← Finmap.lookup_isSome, h.upserts, if_neg (by simpa using hn)] at hu
    cases hu
  have hu := (Finset.card_le_card hups).trans (List.toFinset_card_le C)
  have hd := List.toFinset_card_le D
  rw [DrainedBatch.deltaCount, h.deletes]
  omega

theorem drainCapped_drained {s : DirtyState ρ} (hs : Separate s) {di ci : List Uid}
    (hd : Enumerates di s.deleted) (max : ℕ) : Drained s max (drainCapped s max di ci) := by
  by_cases hfast : max = 0 ∨ s.changed.keys.card + s.deleted.card ≤ max
  · rw [drainCapped, if_pos hfast]
    exact drain_drained hs hfast
  have h : Chunk s (di.take max) (ci.take (max - (di.take max).length)) (drainCapped s max di ci) :=
    drainCapped_chunk hd hfast
  have hlen : (di.take max).length + (ci.take (max - (di.take max).length)).length ≤ max := by
    simp only [List.length_take]
    omega
  generalize drainCapped s max di ci = r at h
  have hD : ∀ u ∈ di.take max, u ∈ s.deleted := fun u hu => hd.mem_iff.mp (List.mem_of_mem_take hu)
  refine ⟨h.splits hs hD, ?_, ?_, fun _ => h.deltaCount_le.trans hlen, ?_, ?_, h.closed⟩
  · intro u hu
    rw [h.deleted, Finset.mem_sdiff] at hu
    have hn : s.changed.lookup u = none := Finmap.lookup_eq_none.mpr (hs u hu.1)
    rw [← Finmap.lookup_eq_none, h.changed, hn, ite_self]
  · intro u hu
    rw [h.deletes, List.mem_toFinset] at hu
    have hn : s.changed.lookup u = none := Finmap.lookup_eq_none.mpr (hs u (hD u hu))
    rw [← Finmap.lookup_eq_none, h.upserts, hn, ite_self]
  · rw [h.initDone]
    refine ⟨fun hf => absurd hf (by decide), fun ⟨_, hc, hdel⟩ => ?_⟩
    have := h.card_le_of_emptied hc hdel
    omega
  · rw [h.initDonePending, h.initDone]
    simp

end DirtyChannel
end FerrisScope
