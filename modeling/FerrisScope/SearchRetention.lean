import FerrisScope.SearchWriter

/-!
# Garbage collection of the search index

A pass deletes tombstones and live rows that are older than two ages. An upsert that changes nothing
does not touch its row for a while, so the time a row carries may lie before the last upsert of it. The
notes beside the writer say when each key was last upserted and, since then, first deleted: at the
times the writes were issued, which may lie before those of their batches.
-/

namespace FerrisScope.SearchRetention
open KeyedWrites (Table)
open LabelledRuns SearchWriter

def sqlAnd : Option Bool → Option Bool → Option Bool
  | some false, _ => some false
  | _, some false => some false
  | some true, some true => some true
  | _, _ => none

/-- `IS NULL` -/
def sqlIsNull {α : Type*} [DecidableEq α] (a : Option α) : Option Bool := some (decide (a = none))

/-- A duration in nanoseconds. -/
abbrev Duration := ℕ

def asMillis (d : Duration) : ℕ := d / 1000000

def i64Max : ℤ := 9223372036854775807

/-- `i64::try_from(age.as_millis()).unwrap_or(0)` -/
def ageMillis (age : Duration) : ℤ := if (asMillis age : ℤ) ≤ i64Max then asMillis age else 0

def saturatingSub (a b : ℤ) : ℤ := max (-i64Max - 1) (min i64Max (a - b))

def tombstoneWhere (cutoff : ℤ) (row : Row) : Option Bool :=
  sqlAnd (sqlIsNot row.deletedAt none) (sqlLt row.deletedAt (some cutoff))

def staleWhere (cutoff : ℤ) (row : Row) : Option Bool :=
  sqlAnd (sqlIsNull row.deletedAt) (sqlLt (some row.updatedAt) (some cutoff))

theorem nodupKeys_filter {ν : Type} (p : (Σ _ : Key, ν) → Prop) [DecidablePred p] (m : Table Key ν) :
    (m.entries.filter p).NodupKeys :=
  Multiset.nodup_keys.mp
    (Multiset.nodup_of_le (Multiset.map_le_map (Multiset.filter_le p m.entries)) m.nodupKeys.nodup_keys)

/-- The entries that are kept. -/
def keepWhere {ν : Type} (keep : Key → ν → Bool) (m : Table Key ν) : Table Key ν where
  entries := m.entries.filter fun e => keep e.1 e.2 = true
  nodupKeys := nodupKeys_filter _ m

/-- `DELETE FROM rows WHERE …`, with the trigger that deletes the full-text entries. -/
def deleteRows (clause : Row → Option Bool) (db : Db) : Db where
  rows := keepWhere (fun _ row => !decide (clause row = some true)) db.rows
  fts := keepWhere (fun key _ => !((db.rows.lookup key).any fun row => decide (clause row = some true))) db.fts

structure GcStats where
  tombstonesPurged : ℕ
  stalePurged : ℕ

/-- `gc::run` -/
def gcRun (now : ℤ) (tombstoneAge staleAge : Duration) (db : Db) : Db × GcStats :=
  let tombstoneCutoff := saturatingSub now (ageMillis tombstoneAge)
  let staleCutoff := saturatingSub now (ageMillis staleAge)
  let swept := deleteRows (tombstoneWhere tombstoneCutoff) db
  let left := deleteRows (staleWhere staleCutoff) swept
  (left, ⟨db.rows.entries.card - swept.rows.entries.card, swept.rows.entries.card - left.rows.entries.card⟩)

/-! ## Runs of the writer with passes -/

/-- When a key was last upserted and, since then, first deleted. -/
structure Note where
  upserted : Option ℤ
  deleted : Option ℤ

abbrev Notes := Key → Note

def noteWrite (notes : Notes) : WriteOp × ℤ → Notes
  | (.upsert kindId uid _ _ _, issued) => Function.update notes (kindId, uid) ⟨some issued, none⟩
  | (.delete kindId uid, issued) =>
    let note := notes (kindId, uid)
    Function.update notes (kindId, uid) { note with deleted := note.deleted.or (some issued) }

def noteAll (notes : Notes) (writes : List (WriteOp × ℤ)) : Notes := writes.foldl noteWrite notes

/-- The writer beside the times of its buffered writes, the notes of the applied ones and the clock. -/
structure State where
  writer : Writer
  pending : List (WriteOp × ℤ)
  notes : Notes
  clock : ℤ

def State.new : State := ⟨.new, [], fun _ => ⟨none, none⟩, 0⟩

inductive Action where
  /-- A command of the writer. A write was issued at a time of its own. -/
  | command (issued : ℤ) (e : Event)
  /-- A pass, with the time of the flush before it. -/
  | gc (tombstoneAge staleAge : Duration) (flushed now : ℤ)

def timeOf : Event → ℤ
  | .write _ now => now
  | .window now => now
  | .search now => now

def issuedWrites (issued : ℤ) : Event → List (WriteOp × ℤ)
  | .write op _ => [(op, issued)]
  | .window _ => []
  | .search _ => []

/-- The state when the writer has come to `w`: its notes are those of all writes once none is left. -/
def settle (st : State) (writes : List (WriteOp × ℤ)) (now : ℤ) (w : Writer) : State :=
  if w.buffer = [] then ⟨w, [], noteAll st.notes writes, now⟩ else ⟨w, writes, st.notes, now⟩

def flushed (now : ℤ) (w : Writer) : Writer := if w.buffer = [] then w else flush now w

def step (st : State) : Action → Option State
  | .command issued e =>
    if issued ≤ timeOf e ∧ st.clock ≤ timeOf e then
      (SearchWriter.step st.writer e).map (settle st (st.pending ++ issuedWrites issued e) (timeOf e))
    else none
  | .gc tombstoneAge staleAge flushTime now =>
    if st.clock ≤ flushTime ∧ flushTime ≤ now then
      let st := settle st st.pending now (flushed flushTime st.writer)
      some { st with writer := { st.writer with db := (gcRun now tombstoneAge staleAge st.writer.db).1 } }
    else none

/-! ## Deletes -/

theorem sqlAnd_eq_true {a b : Option Bool} : sqlAnd a b = some true ↔ a = some true ∧ b = some true := by
  rcases a with _ | _ | _ <;> rcases b with _ | _ | _ <;> decide

theorem tombstoneWhere_eq_true {cutoff : ℤ} {row : Row} :
    tombstoneWhere cutoff row = some true ↔ ∃ d, row.deletedAt = some d ∧ d < cutoff := by
  rw [tombstoneWhere, sqlAnd_eq_true, sqlIsNot_eq_true]
  cases row.deletedAt <;> simp [sqlLt]

theorem staleWhere_eq_true {cutoff : ℤ} {row : Row} :
    staleWhere cutoff row = some true ↔ row.deletedAt = none ∧ row.updatedAt < cutoff := by
  rw [staleWhere, sqlAnd_eq_true]
  simp [sqlIsNull, sqlLt]

theorem lookup_keepWhere {ν : Type} {keep : Key → ν → Bool} {m : Table Key ν} {key : Key} {v : ν} :
    (keepWhere keep m).lookup key = some v ↔ m.lookup key = some v ∧ keep key v = true := by
  rw [Finmap.lookup_eq_some_iff, Finmap.lookup_eq_some_iff]
  exact Multiset.mem_filter

theorem lookup_deleteRows {clause : Row → Option Bool} {db : Db} {key : Key} {row : Row} :
    (deleteRows clause db).rows.lookup key = some row ↔
      db.rows.lookup key = some row ∧ clause row ≠ some true := by
  rw [deleteRows, lookup_keepWhere]
  simp

/-- A row stays exactly when neither clause holds of it. -/
theorem lookup_gcRun {now : ℤ} {tombstoneAge staleAge : Duration} {db : Db} {key : Key} {row : Row} :
    (gcRun now tombstoneAge staleAge db).1.rows.lookup key = some row ↔ db.rows.lookup key = some row ∧
      tombstoneWhere (saturatingSub now (ageMillis tombstoneAge)) row ≠ some true ∧
      staleWhere (saturatingSub now (ageMillis staleAge)) row ≠ some true := by
  rw [gcRun, lookup_deleteRows, lookup_deleteRows, and_assoc]

theorem saturatingSub_le {now b : ℤ} (hnow : 0 ≤ now) (hb : b ≤ i64Max) : saturatingSub now b ≤ now - b := by
  have hlow : -i64Max - 1 ≤ now - b := by omega
  rw [saturatingSub]
  exact max_le hlow (min_le_right _ _)

theorem ageMillis_eq {age : Duration} (h : (asMillis age : ℤ) ≤ i64Max) : ageMillis age = asMillis age := if_pos h

/-! ## What the rows know of the writes -/

/-- A live row carries a time that lies at most the touch interval before its last upsert. A tombstone
is no older than the delete that made it. -/
structure Dated (note : Note) (row : Row) : Prop where
  live : row.deletedAt = none →
    note.deleted = none ∧ ∃ s, note.upserted = some s ∧ s - touchIntervalMs ≤ row.updatedAt
  tombstone : ∀ d, row.deletedAt = some d → ∃ s, note.deleted = some s ∧ s ≤ d

def AllDated (notes : Notes) (db : Db) : Prop := ∀ key row, db.rows.lookup key = some row → Dated (notes key) row

theorem allDated_insert {notes : Notes} {db : Db} {key : Key} {row : Row} {note : Note} {fts : Table Key Doc}
    (h : AllDated notes db) (hrow : Dated note row) :
    AllDated (Function.update notes key note) ⟨db.rows.insert key row, fts⟩ := by
  intro k r hr
  by_cases hk : k = key
  · subst hk
    rw [Finmap.lookup_insert] at hr
    rw [Function.update_self, ← Option.some.inj hr]
    exact hrow
  · rw [Finmap.lookup_insert_of_ne _ hk] at hr
    rw [Function.update_of_ne hk]
    exact h k r hr

theorem allDated_update {notes : Notes} {db : Db} {key : Key} {note : Note} (h : AllDated notes db)
    (hrow : ∀ row, db.rows.lookup key = some row → Dated note row) :
    AllDated (Function.update notes key note) db := by
  intro k r hr
  by_cases hk : k = key
  · subst hk
    rw [Function.update_self]
    exact hrow r hr
  · rw [Function.update_of_ne hk]
    exact h k r hr

theorem touchIntervalMs_pos : 0 < touchIntervalMs := by decide

/-- Applying a write keeps the dates right, for a write issued before it is applied. -/
theorem allDated_upsert {notes : Notes} {db : Db} (h : AllDated notes db) (kindId uid : String)
    (ns : Option String) (name labels : String) {issued now : ℤ} (hissued : issued ≤ now) :
    AllDated (noteWrite notes (.upsert kindId uid ns name labels, issued))
      (applyWrite now db (.upsert kindId uid ns name labels)) := by
  have htouch := touchIntervalMs_pos
  have hfresh : Dated ⟨some issued, none⟩ ⟨ns, name, labels, now, none⟩ :=
    ⟨fun _ => ⟨rfl, issued, rfl, by dsimp only; omega⟩, fun d hd => by cases hd⟩
  simp only [applyWrite, noteWrite]
  split
  · exact allDated_insert h hfresh
  · rename_i row hrow
    split
    · exact allDated_insert h hfresh
    · rename_i hsuppressed
      rw [upsertWhere_eq_true] at hsuppressed
      push Not at hsuppressed
      obtain ⟨hlive, -, -, -, hrecent⟩ := hsuppressed
      refine allDated_update h fun r hr => ?_
      obtain rfl : r = row := Option.some.inj (hr.symm.trans hrow)
      refine ⟨fun _ => ⟨rfl, issued, rfl, ?_⟩, fun d hd => ?_⟩
      · dsimp only at hrecent
        omega
      · rw [hlive] at hd
        cases hd

theorem allDated_delete {notes : Notes} {db : Db} (h : AllDated notes db) (kindId uid : String) {issued now : ℤ}
    (hissued : issued ≤ now) :
    AllDated (noteWrite notes (.delete kindId uid, issued)) (applyWrite now db (.delete kindId uid)) := by
  simp only [applyWrite, noteWrite]
  split
  · rename_i hnone
    refine allDated_update h fun r hr => ?_
    rw [hnone] at hr
    cases hr
  · rename_i row hrow
    have hdated := h _ _ hrow
    split
    · rename_i hlive
      refine allDated_insert h ⟨fun hnone => absurd hnone (Option.some_ne_none now), fun d hd => ⟨issued, ?_, ?_⟩⟩
      · rw [(hdated.live hlive).1]
        rfl
      · rw [← Option.some.inj hd]
        exact hissued
    · rename_i hdeleted
      refine allDated_update h fun r hr => ?_
      obtain rfl : r = row := Option.some.inj (hr.symm.trans hrow)
      refine ⟨fun hlive => absurd hlive hdeleted, fun d hd => ?_⟩
      obtain ⟨s, hs, hsd⟩ := hdated.tombstone d hd
      refine ⟨s, ?_, hsd⟩
      dsimp only
      rw [hs]
      rfl

theorem allDated_applyWrite {notes : Notes} {db : Db} (h : AllDated notes db) {op : WriteOp} {issued now : ℤ}
    (hissued : issued ≤ now) : AllDated (noteWrite notes (op, issued)) (applyWrite now db op) := by
  cases op with
  | upsert kindId uid ns name labels => exact allDated_upsert h kindId uid ns name labels hissued
  | delete kindId uid => exact allDated_delete h kindId uid hissued

theorem allDated_applyWrites {notes : Notes} {db : Db} (h : AllDated notes db) {writes : List (WriteOp × ℤ)}
    {now : ℤ} (hissued : ∀ e ∈ writes, e.2 ≤ now) :
    AllDated (noteAll notes writes) (applyWrites now db (writes.map Prod.fst)) := by
  induction writes generalizing notes db with
  | nil => exact h
  | cons e writes ih =>
    exact ih (allDated_applyWrite h (hissued e List.mem_cons_self)) fun f hf => hissued f (List.mem_cons_of_mem e hf)

theorem allDated_gcRun {notes : Notes} {db : Db} (h : AllDated notes db) (now : ℤ) (tombstoneAge staleAge : Duration) :
    AllDated notes (gcRun now tombstoneAge staleAge db).1 := fun key row hrow => h key row (lookup_gcRun.mp hrow).1

/-- The notes are those of the applied writes, and the buffered ones were issued before now. -/
structure Noted (st : State) : Prop where
  dated : AllDated st.notes st.writer.db
  buffered : st.pending.map Prod.fst = st.writer.buffer
  issued : ∀ e ∈ st.pending, e.2 ≤ st.clock
  clock_nonneg : 0 ≤ st.clock

theorem noted_new : Noted .new where
  dated := by
    intro key row hrow
    cases hrow
  buffered := rfl
  issued := fun e he => absurd he List.not_mem_nil
  clock_nonneg := le_refl 0

/-- The writer after a flush of all these writes. -/
theorem noted_flush {st : State} (h : Noted st) {writes : List (WriteOp × ℤ)} {w : Writer} {flushTime now : ℤ}
    (hdb : w.db = applyWrites flushTime st.writer.db (writes.map Prod.fst)) (hbuffer : w.buffer = [])
    (hissued : ∀ e ∈ writes, e.2 ≤ flushTime) (hnow : 0 ≤ now) : Noted (settle st writes now w) := by
  rw [settle, if_pos hbuffer]
  refine ⟨?_, hbuffer.symm, fun e he => absurd he List.not_mem_nil, hnow⟩
  rw [hdb]
  exact allDated_applyWrites h.dated hissued

theorem issued_le {st : State} (h : Noted st) {issued : ℤ} {e : Event} (hissued : issued ≤ timeOf e)
    (hclock : st.clock ≤ timeOf e) : ∀ p ∈ st.pending ++ issuedWrites issued e, p.2 ≤ timeOf e := by
  intro p hp
  rcases List.mem_append.mp hp with hp | hp
  · exact (h.issued p hp).trans hclock
  · cases e with
    | write op now =>
      rw [List.mem_singleton.mp hp]
      exact hissued
    | window now => cases hp
    | search now => cases hp

theorem noted_command {st st' : State} (h : Noted st) {issued : ℤ} {e : Event}
    (hstep : step st (.command issued e) = some st') : Noted st' := by
  rw [step] at hstep
  split at hstep
  · rename_i htimes
    obtain ⟨hissued, hclock⟩ := htimes
    obtain ⟨w, hw, rfl⟩ := Option.map_eq_some_iff.mp hstep
    have hnow : 0 ≤ timeOf e := h.clock_nonneg.trans hclock
    have hall := issued_le h hissued hclock
    cases e with
    | write op now =>
      have hbuffer : (st.pending ++ [(op, issued)]).map Prod.fst = st.writer.buffer ++ [op] := by
        rw [List.map_append, h.buffered]
        rfl
      simp only [SearchWriter.step] at hw
      split at hw
      · cases hw
        refine noted_flush h ?_ rfl hall hnow
        rw [issuedWrites, hbuffer]
        rfl
      · cases hw
        rw [settle, if_neg (by simp)]
        exact ⟨h.dated, hbuffer, hall, hnow⟩
    | window now =>
      simp only [SearchWriter.step] at hw
      split at hw
      · cases hw
      · cases hw
        refine noted_flush h ?_ rfl hall hnow
        rw [issuedWrites, List.append_nil, h.buffered]
        rfl
    | search now =>
      simp only [SearchWriter.step, Option.some.injEq] at hw
      subst hw
      have hwrites : (st.pending ++ issuedWrites issued (.search now)).map Prod.fst = st.writer.buffer := by
        rw [issuedWrites, List.append_nil, h.buffered]
      split
      · rename_i hempty
        refine noted_flush h ?_ hempty hall hnow
        rw [hwrites, hempty]
        rfl
      · refine noted_flush h ?_ rfl hall hnow
        rw [hwrites]
        rfl
  · cases hstep

/-- What a pass works on: every write so far is applied and noted. -/
theorem noted_before_gc {st : State} (h : Noted st) {flushTime now : ℤ} (hclock : st.clock ≤ flushTime)
    (hnow : flushTime ≤ now) : Noted (settle st st.pending now (flushed flushTime st.writer)) := by
  have hissued : ∀ e ∈ st.pending, e.2 ≤ flushTime := fun e he => (h.issued e he).trans hclock
  have hnonneg : 0 ≤ now := (h.clock_nonneg.trans hclock).trans hnow
  rw [flushed]
  split
  · rename_i hempty
    refine noted_flush h ?_ hempty hissued hnonneg
    rw [h.buffered, hempty]
    rfl
  · refine noted_flush h ?_ rfl hissued hnonneg
    rw [h.buffered]
    rfl

theorem noted_step (st : State) (a : Action) (st' : State) (h : Noted st) (hstep : step st a = some st') : Noted st' := by
  cases a with
  | command issued e => exact noted_command h hstep
  | gc tombstoneAge staleAge flushTime now =>
    rw [step] at hstep
    split at hstep
    · rename_i htimes
      cases hstep
      have hbefore := noted_before_gc h htimes.1 htimes.2
      exact ⟨allDated_gcRun hbefore.dated _ _ _, hbefore.buffered, hbefore.issued, hbefore.clock_nonneg⟩
    · cases hstep

/-! ## What a pass spares -/

/-- The pass leaves the live rows that were upserted within the stale age less the touch interval, and
the tombstones younger than the tombstone age. -/
structure Spares (tombstoneAge staleAge : Duration) (now : ℤ) (notes : Notes) (before after : Db) : Prop where
  live : ∀ key row s, before.rows.lookup key = some row → row.deletedAt = none → (notes key).upserted = some s →
    (now - s) * 1000000 ≤ staleAge - touchIntervalMs * 1000000 → after.rows.lookup key = some row
  tombstone : ∀ key row s, before.rows.lookup key = some row → row.deletedAt ≠ none →
    (notes key).deleted = some s → (now - s) * 1000000 < tombstoneAge → after.rows.lookup key = some row

theorem spares_gcRun {notes : Notes} {db : Db} (h : AllDated notes db) {now : ℤ} (hnow : 0 ≤ now)
    {tombstoneAge staleAge : Duration} (htombstone : (asMillis tombstoneAge : ℤ) ≤ i64Max)
    (hstale : (asMillis staleAge : ℤ) ≤ i64Max) :
    Spares tombstoneAge staleAge now notes db (gcRun now tombstoneAge staleAge db).1 := by
  have htombstoneCut := saturatingSub_le hnow htombstone
  have hstaleCut := saturatingSub_le hnow hstale
  have htombstoneMillis : (asMillis tombstoneAge : ℤ) * 1000000 ≤ tombstoneAge ∧
      (tombstoneAge : ℤ) < (asMillis tombstoneAge + 1) * 1000000 := by
    unfold asMillis
    omega
  have hstaleMillis : (asMillis staleAge : ℤ) * 1000000 ≤ staleAge ∧
      (staleAge : ℤ) < (asMillis staleAge + 1) * 1000000 := by
    unfold asMillis
    omega
  constructor
  · intro key row s hrow hlive hs hage
    obtain ⟨s', hs', htouch⟩ := ((h key row hrow).live hlive).2
    obtain rfl : s = s' := Option.some.inj (hs.symm.trans hs')
    refine lookup_gcRun.mpr ⟨hrow, fun hclause => ?_, fun hclause => ?_⟩
    · obtain ⟨d, hd, -⟩ := tombstoneWhere_eq_true.mp hclause
      rw [hlive] at hd
      cases hd
    · obtain ⟨-, hcut⟩ := staleWhere_eq_true.mp hclause
      rw [ageMillis_eq hstale] at hcut
      omega
  · intro key row s hrow hdeleted hs hage
    obtain ⟨d, hd⟩ := Option.ne_none_iff_exists'.mp hdeleted
    obtain ⟨s', hs', hsd⟩ := (h key row hrow).tombstone d hd
    obtain rfl : s = s' := Option.some.inj (hs.symm.trans hs')
    refine lookup_gcRun.mpr ⟨hrow, fun hclause => ?_, fun hclause => ?_⟩
    · obtain ⟨d', hd', hcut⟩ := tombstoneWhere_eq_true.mp hclause
      obtain rfl : d = d' := Option.some.inj (hd.symm.trans hd')
      rw [ageMillis_eq htombstone] at hcut
      omega
    · exact hdeleted (staleWhere_eq_true.mp hclause).1

/-- What a pass works on, after its flush. -/
def beforePass (st : State) (flushTime now : ℤ) : State := settle st st.pending now (flushed flushTime st.writer)

/-- In every run, a pass whose ages fit a signed 64-bit number of milliseconds spares what it should. -/
theorem gc_spares (actions : List Action) (st st' : State) (tombstoneAge staleAge : Duration) (flushTime now : ℤ)
    (hrun : run step .new actions = some st) (hgc : step st (.gc tombstoneAge staleAge flushTime now) = some st')
    (htombstone : (asMillis tombstoneAge : ℤ) ≤ i64Max) (hstale : (asMillis staleAge : ℤ) ≤ i64Max) :
    Spares tombstoneAge staleAge now (beforePass st flushTime now).notes (beforePass st flushTime now).writer.db
      st'.writer.db := by
  have hnoted : Noted st := run_invariant noted_step noted_new hrun
  rw [step] at hgc
  split at hgc
  · rename_i htimes
    cases hgc
    have hbefore := noted_before_gc hnoted htimes.1 htimes.2
    exact spares_gcRun hbefore.dated ((hnoted.clock_nonneg.trans htimes.1).trans htimes.2) htombstone hstale
  · cases hgc

def oneUpsert : List Action := [.command 1 (.write (.upsert "pods" "u1" none "api-0" "") 1)]

/-- Seven days after its upsert a row is still there, but for the touch interval. -/
theorem gc_spares_oneUpsert : ∃ st st', run step .new oneUpsert = some st ∧
    step st (.gc (24 * 3600 * 1000000000) (168 * 3600 * 1000000000) 1 601200001) = some st' ∧
    st'.writer.db.rows.lookup ("pods", "u1") = some ⟨none, "api-0", "", 1, none⟩ := by
  refine ⟨_, _, rfl, rfl, ?_⟩
  refine (gc_spares oneUpsert _ _ (24 * 3600 * 1000000000) (168 * 3600 * 1000000000) 1 601200001 rfl rfl (by decide)
    (by decide)).live ("pods", "u1") ⟨none, "api-0", "", 1, none⟩ 1 (by decide) rfl (by decide) (by decide)

/-- An age of 2^63 milliseconds counts as none. -/
theorem longest_age_spares_nothing : ∃ st st', run step .new oneUpsert = some st ∧
    step st (.gc (9223372036854775808 * 1000000) (9223372036854775808 * 1000000) 1 2) = some st' ∧
    ¬ Spares (9223372036854775808 * 1000000) (9223372036854775808 * 1000000) 2 (beforePass st 1 2).notes
      (beforePass st 1 2).writer.db st'.writer.db := by
  refine ⟨_, _, rfl, rfl, fun h => ?_⟩
  have hkept := h.live ("pods", "u1") ⟨none, "api-0", "", 1, none⟩ 1 (by decide) rfl (by decide) (by decide)
  revert hkept
  decide

end FerrisScope.SearchRetention
