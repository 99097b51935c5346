import FerrisScope.KeyedWrites
import FerrisScope.LabelledRuns

/-!
# The writer of the search index

Writes are collected in a buffer and applied in batches, when the buffer is full, when its time
window is over, and before every search. A row that an upsert would not change is left alone by a
clause over columns that may be null, so the clause is written in three-valued logic. Triggers keep
the full-text table. Batch times come from the clock and may be anything.
-/

namespace FerrisScope.SearchWriter
open KeyedWrites LabelledRuns

section ThreeValued

variable {α : Type*} [DecidableEq α]

/-- `<>`, unknown when a side is null. -/
def sqlNe : Option α → Option α → Option Bool
  | some a, some b => some (decide (a ≠ b))
  | _, _ => none

/-- `IS NOT`, which treats null as a value. -/
def sqlIsNot (a b : Option α) : Option Bool := some (decide (a ≠ b))

def sqlLt : Option ℤ → Option ℤ → Option Bool
  | some a, some b => some (decide (a < b))
  | _, _ => none

def sqlOr : Option Bool → Option Bool → Option Bool
  | some true, _ => some true
  | _, some true => some true
  | some false, some false => some false
  | _, _ => none

theorem sqlOr_eq_true {a b : Option Bool} : sqlOr a b = some true ↔ a = some true ∨ b = some true := by
  rcases a with _ | _ | _ <;> rcases b with _ | _ | _ <;> decide

theorem sqlNe_some {a b : α} : sqlNe (some a) (some b) = some true ↔ a ≠ b := by simp [sqlNe]

theorem sqlIsNot_eq_true {a b : Option α} : sqlIsNot a b = some true ↔ a ≠ b := by simp [sqlIsNot]

end ThreeValued

abbrev Key := String × String

structure Row where
  ns : Option String
  name : String
  labels : String
  updatedAt : ℤ
  deletedAt : Option ℤ
  deriving DecidableEq, Repr

/-- What the full-text table indexes of a row, besides its kind. -/
structure Doc where
  name : String
  ns : Option String
  labels : String
  deriving DecidableEq, Repr

def Row.doc (r : Row) : Doc := ⟨r.name, r.ns, r.labels⟩

structure Db where
  rows : Table Key Row
  fts : Table Key Doc

inductive WriteOp where
  | upsert (kindId uid : String) (ns : Option String) (name labels : String)
  | delete (kindId uid : String)
  deriving DecidableEq, Repr

def batchMax : ℕ := 500

def touchIntervalMs : ℤ := 60 * 60 * 1000

/-- The `WHERE` clause of the upsert: `row` is the stored row, `new` the excluded one. -/
def upsertWhere (row new : Row) : Option Bool :=
  sqlOr (sqlOr (sqlOr (sqlOr (sqlIsNot row.deletedAt none) (sqlNe (some row.name) (some new.name)))
    (sqlIsNot row.ns new.ns)) (sqlNe (some row.labels) (some new.labels)))
    (sqlLt (some row.updatedAt) (some (new.updatedAt - touchIntervalMs)))

/-- The `WHEN` clause of the update trigger. -/
def triggerWhen (key : Key) (old new : Row) : Option Bool :=
  sqlOr (sqlOr (sqlOr (sqlNe (some old.name) (some new.name)) (sqlIsNot old.ns new.ns))
    (sqlNe (some key.1) (some key.1))) (sqlNe (some old.labels) (some new.labels))

def insertRow (db : Db) (key : Key) (new : Row) : Db :=
  ⟨db.rows.insert key new, db.fts.insert key new.doc⟩

def updateRow (db : Db) (key : Key) (old new : Row) : Db where
  rows := db.rows.insert key new
  fts := if triggerWhen key old new = some true then (db.fts.erase key).insert key new.doc else db.fts

def applyWrite (now : ℤ) (db : Db) : WriteOp → Db
  | .upsert kindId uid ns name labels =>
    let new : Row := ⟨ns, name, labels, now, none⟩
    match db.rows.lookup (kindId, uid) with
    | none => insertRow db (kindId, uid) new
    | some row => if upsertWhere row new = some true then updateRow db (kindId, uid) row new else db
  | .delete kindId uid =>
    match db.rows.lookup (kindId, uid) with
    | none => db
    | some row =>
      if row.deletedAt = none then updateRow db (kindId, uid) row { row with deletedAt := some now }
      else db

def applyWrites (now : ℤ) (db : Db) (ops : List WriteOp) : Db := ops.foldl (applyWrite now) db

/-- What a search sees of a row. -/
structure Visible where
  ns : Option String
  name : String
  labels : String
  deleted : Bool
  deriving DecidableEq, Repr

def Row.visible (r : Row) : Visible := ⟨r.ns, r.name, r.labels, r.deletedAt.isSome⟩

abbrev View := Key → Option Visible

def view (db : Db) : View := fun key => (db.rows.lookup key).map Row.visible

structure Writer where
  db : Db
  buffer : List WriteOp
  answers : List View

def Writer.new : Writer := ⟨⟨∅, ∅⟩, [], []⟩

def flush (now : ℤ) (w : Writer) : Writer := { w with
  db := applyWrites now w.db w.buffer
  buffer := [] }

inductive Event where
  | write (op : WriteOp) (now : ℤ)
  | window (now : ℤ)
  | search (now : ℤ)
  deriving DecidableEq, Repr

def step (w : Writer) : Event → Option Writer
  | .write op now =>
    let w := { w with buffer := w.buffer ++ [op] }
    if batchMax ≤ w.buffer.length then some (flush now w) else some w
  | .window now => if w.buffer = [] then none else some (flush now w)
  | .search now =>
    let w := if w.buffer = [] then w else flush now w
    some { w with answers := w.answers ++ [view w.db] }

/-- The plain map: every write overwrites its key. -/
def naiveWrite (m : View) : WriteOp → View
  | .upsert kindId uid ns name labels => Function.update m (kindId, uid) (some ⟨ns, name, labels, false⟩)
  | .delete kindId uid =>
    Function.update m (kindId, uid) ((m (kindId, uid)).map fun v => { v with deleted := true })

def naive (ops : List WriteOp) : View := ops.foldl naiveWrite fun _ => none

/-- The answers of the plain map, after the writes `ops`, to the searches among the events. -/
def naiveAnswers (ops : List WriteOp) : List Event → List View
  | [] => []
  | .write op _ :: events => naiveAnswers (ops ++ [op]) events
  | .window _ :: events => naiveAnswers ops events
  | .search _ :: events => naive ops :: naiveAnswers ops events

theorem upsertWhere_eq_true {row new : Row} :
    upsertWhere row new = some true ↔
      row.deletedAt ≠ none ∨ row.name ≠ new.name ∨ row.ns ≠ new.ns ∨ row.labels ≠ new.labels ∨
        row.updatedAt < new.updatedAt - touchIntervalMs := by
  simp only [upsertWhere, sqlOr_eq_true, sqlIsNot_eq_true, sqlNe_some, or_assoc]
  simp [sqlLt]

theorem triggerWhen_eq_true {key : Key} {old new : Row} :
    triggerWhen key old new = some true ↔ old.doc ≠ new.doc := by
  simp only [triggerWhen, sqlOr_eq_true, sqlIsNot_eq_true, sqlNe_some, Row.doc, ne_eq, Doc.mk.injEq]
  tauto

/-- The clause only holds back an upsert that changes nothing a search sees. -/
theorem visible_of_suppressed {row new : Row} (hnew : new.deletedAt = none)
    (h : upsertWhere row new ≠ some true) : row.visible = new.visible := by
  rw [ne_eq, upsertWhere_eq_true] at h
  push Not at h
  obtain ⟨hdel, hname, hns, hlabels, -⟩ := h
  simp [Row.visible, hdel, hname, hns, hlabels, hnew]

theorem view_insert (db : Db) (fts : Table Key Doc) (key : Key) (row : Row) :
    view ⟨db.rows.insert key row, fts⟩ = Function.update (view db) key (some row.visible) := by
  funext k
  by_cases hk : k = key
  · subst hk
    simp [view]
  · simp [view, Finmap.lookup_insert_of_ne _ hk, hk]

theorem view_of_lookup {db : Db} {key : Key} {row : Row} (h : db.rows.lookup key = some row) :
    view db key = some row.visible := by
  simp [view, h]

theorem view_applyWrite (now : ℤ) (db : Db) (op : WriteOp) :
    view (applyWrite now db op) = naiveWrite (view db) op := by
  cases op with
  | upsert kindId uid ns name labels =>
    simp only [applyWrite, naiveWrite]
    split
    · exact view_insert db _ _ _
    · rename_i row hrow
      split
      · exact view_insert db _ _ _
      · rename_i hsup
        have hsame := visible_of_suppressed rfl hsup
        have hval : some (⟨ns, name, labels, false⟩ : Visible) = view db (kindId, uid) := by
          rw [view_of_lookup hrow, hsame]
          rfl
        rw [hval, Function.update_eq_self]
  | delete kindId uid =>
    simp only [applyWrite, naiveWrite]
    split
    · rename_i hnone
      have hval : ((view db (kindId, uid)).map fun v => { v with deleted := true }) = view db (kindId, uid) := by
        simp [view, hnone]
      rw [hval, Function.update_eq_self]
    · rename_i row hrow
      rw [view_of_lookup hrow]
      split
      · exact view_insert db _ _ _
      · rename_i hdel
        have hval : (Option.map (fun v : Visible => { v with deleted := true }) (some row.visible)) =
            view db (kindId, uid) := by
          rw [view_of_lookup hrow]
          cases hd : row.deletedAt with
          | none => exact absurd hd hdel
          | some d => simp [Row.visible, hd]
        rw [hval, Function.update_eq_self]

theorem view_applyWrites (now : ℤ) (db : Db) (ops : List WriteOp) :
    view (applyWrites now db ops) = ops.foldl naiveWrite (view db) := by
  induction ops generalizing db with
  | nil => rfl
  | cons op ops ih =>
    rw [applyWrites, List.foldl_cons, List.foldl_cons, ← view_applyWrite now]
    exact ih _

/-- The full-text table holds exactly what it indexes of the rows. -/
def Synced (db : Db) : Prop := ∀ key, db.fts.lookup key = (db.rows.lookup key).map Row.doc

theorem synced_insertRow {db : Db} (hs : Synced db) (key : Key) (new : Row) :
    Synced (insertRow db key new) := by
  intro k
  by_cases hk : k = key
  · subst hk
    simp [insertRow]
  · simp [insertRow, Finmap.lookup_insert_of_ne _ hk, hs k]

theorem synced_updateRow {db : Db} (hs : Synced db) {key : Key} {old : Row}
    (hold : db.rows.lookup key = some old) (new : Row) : Synced (updateRow db key old new) := by
  intro k
  by_cases hk : k = key
  · subst hk
    simp only [updateRow, Finmap.lookup_insert]
    split
    · simp
    · rename_i hsame
      rw [triggerWhen_eq_true, not_not] at hsame
      rw [hs k, hold, Option.map_some, Option.map_some, hsame]
  · simp only [updateRow, Finmap.lookup_insert_of_ne _ hk]
    split
    · rw [Finmap.lookup_insert_of_ne _ hk, Finmap.lookup_erase_ne hk, hs k]
    · exact hs k

theorem synced_applyWrite {db : Db} (hs : Synced db) (now : ℤ) (op : WriteOp) :
    Synced (applyWrite now db op) := by
  cases op with
  | upsert kindId uid ns name labels =>
    simp only [applyWrite]
    split
    · exact synced_insertRow hs _ _
    · rename_i row hrow
      split
      · exact synced_updateRow hs hrow _
      · exact hs
  | delete kindId uid =>
    simp only [applyWrite]
    split
    · exact hs
    · rename_i row hrow
      split
      · exact synced_updateRow hs hrow _
      · exact hs

theorem synced_flush {w : Writer} (hs : Synced w.db) (now : ℤ) : Synced (flush now w).db := by
  unfold flush applyWrites
  dsimp only
  generalize w.db = db at hs
  induction w.buffer generalizing db with
  | nil => exact hs
  | cons op ops ih => exact ih _ (synced_applyWrite hs now op)

/-- The stored rows with the buffered writes are those of the plain map after `ops`. -/
structure Tracks (ops : List WriteOp) (w : Writer) : Prop where
  pending : w.buffer.foldl naiveWrite (view w.db) = naive ops
  synced : Synced w.db

theorem tracks_new : Tracks [] .new where
  pending := by
    funext key
    simp [Writer.new, view, naive]
  synced := by simp [Synced, Writer.new]

variable {ops : List WriteOp} {w w' : Writer}

theorem Tracks.flush (ht : Tracks ops w) (now : ℤ) : Tracks ops (flush now w) where
  pending := (view_applyWrites now w.db w.buffer).trans ht.pending
  synced := synced_flush ht.synced now

theorem Tracks.push (ht : Tracks ops w) (op : WriteOp) :
    Tracks (ops ++ [op]) { w with buffer := w.buffer ++ [op] } where
  pending := by
    rw [List.foldl_append, ht.pending, naive, naive, List.foldl_append]
  synced := ht.synced

/-- A search is answered from an empty buffer. -/
theorem Tracks.answered (ht : Tracks ops w) (hb : w.buffer = []) : view w.db = naive ops := by
  have h := ht.pending
  rw [hb] at h
  exact h

/-- What one event adds to the answers, and to the writes. -/
theorem tracks_step (ht : Tracks ops w) {e : Event} (h : step w e = some w') :
    ∃ ops', Tracks ops' w' ∧ ∀ events,
      w.answers ++ naiveAnswers ops (e :: events) = w'.answers ++ naiveAnswers ops' events := by
  cases e with
  | write op now =>
    simp only [step] at h
    split at h
    · cases h
      exact ⟨ops ++ [op], (ht.push op).flush now, fun events => rfl⟩
    · cases h
      exact ⟨ops ++ [op], ht.push op, fun events => rfl⟩
  | window now =>
    simp only [step] at h
    split at h
    · cases h
    · cases h
      exact ⟨ops, ht.flush now, fun events => rfl⟩
  | search now =>
    simp only [step, Option.some.injEq] at h
    subst h
    split
    · rename_i hb
      refine ⟨ops, ⟨ht.pending, ht.synced⟩, fun events => ?_⟩
      rw [ht.answered hb, List.append_assoc]
      rfl
    · have hf := ht.flush now
      refine ⟨ops, ⟨hf.pending, hf.synced⟩, fun events => ?_⟩
      rw [hf.answered rfl, List.append_assoc]
      rfl

theorem tracks_run (ht : Tracks ops w) {events : List Event} (h : run step w events = some w') :
    w'.answers = w.answers ++ naiveAnswers ops events ∧ Synced w'.db := by
  induction events generalizing w ops with
  | nil =>
    cases h
    exact ⟨by simp [naiveAnswers], ht.synced⟩
  | cons e events ih =>
    obtain ⟨u, hu, hr⟩ := run_cons_eq_some.mp h
    obtain ⟨ops', ht', hans⟩ := tracks_step ht hu
    obtain ⟨h₁, h₂⟩ := ih ht' hr
    exact ⟨h₁.trans (hans events).symm, h₂⟩

/-- Every search is answered as the plain map of all earlier writes would, however they were
batched, from a full-text table that agrees with the rows; and an upsert that is held back would
have changed nothing visible. -/
theorem writer_equals_naive (events : List Event) (w : Writer) (h : run step .new events = some w) :
    w.answers = naiveAnswers [] events ∧ Synced w.db ∧
      ∀ row new : Row, new.deletedAt = none → upsertWhere row new ≠ some true →
        row.visible = new.visible := by
  obtain ⟨hans, hsync⟩ := tracks_run tracks_new h
  exact ⟨hans, hsync, fun _ _ hnew hsup => visible_of_suppressed hnew hsup⟩

/-- A row written twice, deleted and revived in other batches, with a search in between. -/
def flapping : List Event :=
  [.write (.upsert "pods" "u1" (some "default") "api-0" "") 1, .window 2,
    .write (.upsert "pods" "u1" (some "default") "api-0" "") 3, .write (.delete "pods" "u1") 4, .search 5,
    .write (.upsert "pods" "u1" none "api-0" "app=api") 6, .search 7]

theorem writer_equals_naive_flapping :
    ∃ w, run step .new flapping = some w ∧
      w.answers.map (· ("pods", "u1")) =
        [some ⟨some "default", "api-0", "", true⟩, some ⟨none, "api-0", "app=api", false⟩] := by
  obtain ⟨w, hw⟩ : ∃ w, run step .new flapping = some w := Option.isSome_iff_exists.mp (by decide)
  refine ⟨w, hw, ?_⟩
  rw [(writer_equals_naive flapping w hw).1]
  decide

end FerrisScope.SearchWriter
