import FerrisScope.DirtyChannel

/-!
# Every run of the dirty channel

The log of a run lists the calls and the batches handed out. The ledger of a uid is read
off the log alone: the last write recorded since the uid was last drained, and the writes
settled by the drains so far. Calls after `close` record nothing, as in the channel.
-/

namespace FerrisScope.DirtyChannel
open KeyedWrites LabelledRuns

variable {ρ : Type}

inductive Op (ρ : Type) where
  | recordUpsert (uid : Uid) (row : ρ)
  | recordDelete (uid : Uid)
  | markInitDone
  | close
  | drain
  | drainCapped (max : ℕ) (deletedIter changedIter : List Uid)

inductive Event (ρ : Type) where
  | record (w : Write Uid ρ)
  | mark
  | close
  | drained (cap : ℕ) (batch : DrainedBatch ρ)

structure Traced (ρ : Type) where
  chan : DirtyState ρ
  log : List (Event ρ)

def start : Traced ρ := ⟨new, []⟩

/-- One call. A capped drain is given an iteration order of each hash collection. -/
def step (t : Traced ρ) : Op ρ → Option (Traced ρ)
  | .recordUpsert uid row => some ⟨recordUpsert t.chan uid row, t.log ++ [.record (.put uid row)]⟩
  | .recordDelete uid => some ⟨recordDelete t.chan uid, t.log ++ [.record (.del uid)]⟩
  | .markInitDone => some ⟨markInitDone t.chan, t.log ++ [.mark]⟩
  | .close => some ⟨close t.chan, t.log ++ [.close]⟩
  | .drain => some ⟨(drain t.chan).2, t.log ++ [.drained 0 (drain t.chan).1]⟩
  | .drainCapped max di ci =>
      if Enumerates di t.chan.deleted ∧ Enumerates ci t.chan.changed.keys then
        let r := drainCapped t.chan max di ci
        some ⟨r.2, t.log ++ [.drained max r.1]⟩
      else none

/-- Account of one uid: the write outstanding for it and the writes already settled. -/
structure Ledger (ρ : Type) where
  isOpen : Bool
  current : Option (Option ρ)
  settled : List (Option ρ)

def Ledger.enter (u : Uid) (l : Ledger ρ) : Event ρ → Ledger ρ
  | .record w => if l.isOpen then { l with current := (effectAt w u).or l.current } else l
  | .mark => l
  | .close => { l with isOpen := false }
  | .drained _ b => if (b.effect u).isSome then
      { l with current := none, settled := l.settled ++ l.current.toList } else l

def ledger (u : Uid) (log : List (Event ρ)) : Ledger ρ :=
  log.foldl (Ledger.enter u) ⟨true, none, []⟩

/-- Whether a mark made while the channel was open has not been reported yet. -/
def unreported (log : List (Event ρ)) : Bool × Bool :=
  log.foldl (fun acc e => match e with
    | .mark => (acc.1, acc.1 || acc.2)
    | .close => (false, acc.2)
    | .drained _ b => (acc.1, acc.2 && !b.initDone)
    | .record _ => acc) (true, false)

/-- The deltas for a uid in the batches handed out, in order. -/
def delivered (u : Uid) (log : List (Event ρ)) : List (Option ρ) :=
  log.filterMap fun e => match e with
    | .drained _ b => b.effect u
    | _ => none

/-- What a batch promises, given the log before it. -/
structure BatchContract (before : List (Event ρ)) (cap : ℕ) (b : DrainedBatch ρ) : Prop where
  disjoint : ∀ u ∈ b.deletes, u ∉ b.upserts
  count : cap ≠ 0 → b.deltaCount ≤ cap
  last : ∀ u w, b.effect u = some w → (ledger u before).current = some w
  initDone : b.initDone = true ↔ (unreported before).2 = true ∧
    ∀ u, (ledger u (before ++ [.drained cap b])).current = none

@[simp] theorem ledger_concat (u : Uid) (log : List (Event ρ)) (e : Event ρ) :
    ledger u (log ++ [e]) = (ledger u log).enter u e := by
  simp [ledger]

@[simp] theorem delivered_concat (u : Uid) (log : List (Event ρ)) (e : Event ρ) :
    delivered u (log ++ [e]) = delivered u log ++ (match e with
      | .drained _ b => (b.effect u).toList
      | _ => []) := by
  cases e with
  | drained cap b => cases h : b.effect u <;> simp [delivered, h]
  | _ => simp [delivered]

/-- The channel carries what the ledgers say, and every batch kept its promises. -/
structure Accounted (t : Traced ρ) : Prop where
  separate : Separate t.chan
  isOpen : ∀ u, (ledger u t.log).isOpen = !t.chan.closed
  current : ∀ u, (ledger u t.log).current = pending t.chan u
  settled : ∀ u, (ledger u t.log).settled = delivered u t.log
  marks : unreported t.log = (!t.chan.closed, t.chan.initDonePending)
  batches : ∀ n cap b, t.log[n]? = some (.drained cap b) → BatchContract (t.log.take n) cap b

theorem accounted_start : Accounted (start : Traced ρ) where
  separate := by simp [start, new, Separate]
  isOpen u := rfl
  current u := by simp [start, new, ledger, pending, deltaAt]
  settled u := rfl
  marks := rfl
  batches n cap b h := by simp [start] at h

/-- A batch of the longer log is a batch of the old log or the new entry. -/
theorem batches_concat {log : List (Event ρ)} {e : Event ρ}
    (h : ∀ n cap b, log[n]? = some (.drained cap b) → BatchContract (log.take n) cap b)
    (he : ∀ cap b, e = .drained cap b → BatchContract log cap b) (n cap : ℕ) (b : DrainedBatch ρ)
    (hn : (log ++ [e])[n]? = some (.drained cap b)) :
    BatchContract ((log ++ [e]).take n) cap b := by
  rcases Nat.lt_trichotomy n log.length with hlt | heq | hgt
  · rw [List.getElem?_append_left hlt] at hn
    rw [List.take_append_of_le_length hlt.le]
    exact h n cap b hn
  · subst heq
    simp only [List.getElem?_concat_length, Option.some.injEq] at hn
    rw [List.take_left]
    exact he cap b hn
  · rw [List.getElem?_eq_none (by simp; omega)] at hn
    cases hn

theorem accounted_record {t : Traced ρ} (h : Accounted t) (w : Write Uid ρ) :
    Accounted ⟨record t.chan w, t.log ++ [.record w]⟩ where
  separate := separate_record h.separate w
  isOpen u := by
    simp only [ledger_concat, Ledger.enter, record_closed_eq]
    split <;> exact h.isOpen u
  current u := by
    simp only [ledger_concat, Ledger.enter, h.isOpen u]
    cases hc : t.chan.closed with
    | true => simp [record_closed _ w hc, h.current u]
    | false => simp [pending_record _ w hc, andThen, h.current u]
  settled u := by
    simp only [ledger_concat, Ledger.enter, delivered_concat, List.append_nil]
    split <;> exact h.settled u
  marks := by simpa [unreported] using h.marks
  batches := batches_concat h.batches (by simp)

theorem accounted_drained {t : Traced ρ} (h : Accounted t) {cap : ℕ}
    {r : DrainedBatch ρ × DirtyState ρ} (hr : Drained t.chan cap r) :
    Accounted ⟨r.2, t.log ++ [.drained cap r.1]⟩ := by
  have hcur : ∀ u, (ledger u (t.log ++ [.drained cap r.1])).current = pending r.2 u := by
    intro u
    simp only [ledger_concat, Ledger.enter]
    rcases hr.splits u with ⟨hg, hk⟩ | ⟨hg, hk⟩
    · cases hp : pending t.chan u with
      | none => simp [hg, hp, hk, h.current u]
      | some w => simp [hg, hp, hk]
    · simp [hg, hk, h.current u]
  have hempty : (∀ u, pending r.2 u = none) ↔ r.2.changed.keys = ∅ ∧ r.2.deleted = ∅ := by
    constructor
    · intro hn
      have hdel : ∀ u, u ∉ r.2.deleted := fun u hu => by simpa [pending, deltaAt, hu] using hn u
      refine ⟨Finset.eq_empty_of_forall_notMem fun u hu => ?_, Finset.eq_empty_of_forall_notMem hdel⟩
      have hl : r.2.changed.lookup u = none := by simpa [pending, deltaAt, hdel u] using hn u
      exact Finmap.lookup_eq_none.mp hl (Finmap.mem_keys.mp hu)
    · rintro ⟨hc, hd⟩ u
      have hl : r.2.changed.lookup u = none := by
        rw [Finmap.lookup_eq_none, ← Finmap.mem_keys, hc]
        simp
      simp [pending, deltaAt, hd, hl]
  refine ⟨hr.separate, fun u => ?_, hcur, fun u => ?_, ?_, batches_concat h.batches ?_⟩
  · simp only [ledger_concat, Ledger.enter, hr.closed]
    split <;> exact h.isOpen u
  · simp only [ledger_concat, Ledger.enter, delivered_concat, h.current u, ← h.settled u]
    rcases hr.splits u with ⟨hg, hk⟩ | ⟨hg, hk⟩
    · cases hp : pending t.chan u <;> simp [hg, hp]
    · simp [hg]
  · have hm := h.marks
    simp only [unreported] at hm
    simp [unreported, hm, hr.closed, hr.initDonePending]
  · rintro c b hb
    cases hb
    refine ⟨hr.disjoint, hr.count, fun u w hw => ?_, ?_⟩
    · rcases hr.splits u with ⟨hg, hk⟩ | ⟨hg, hk⟩
      · rw [h.current u, ← hg, hw]
      · simp [hg] at hw
    · rw [hr.initDone, h.marks]
      simp only [hcur, hempty]

theorem accounted_mark {t : Traced ρ} (h : Accounted t) :
    Accounted ⟨markInitDone t.chan, t.log ++ [.mark]⟩ where
  separate := separate_markInitDone h.separate
  isOpen u := by simpa [Ledger.enter] using h.isOpen u
  current u := by simpa [Ledger.enter] using h.current u
  settled u := by simpa [Ledger.enter] using h.settled u
  marks := by
    have hm := h.marks
    simp only [unreported] at hm
    cases hc : t.chan.closed <;> simp [unreported, hm, markInitDone, hc]
  batches := batches_concat h.batches (by simp)

theorem accounted_close {t : Traced ρ} (h : Accounted t) :
    Accounted ⟨close t.chan, t.log ++ [.close]⟩ where
  separate := h.separate
  isOpen u := by simp [Ledger.enter, close]
  current u := by simpa [Ledger.enter] using h.current u
  settled u := by simpa [Ledger.enter] using h.settled u
  marks := by
    have hm := h.marks
    simp only [unreported] at hm
    simp [unreported, hm, close]
  batches := batches_concat h.batches (by simp)

theorem accounted_step {t t' : Traced ρ} (op : Op ρ) (h : Accounted t)
    (hs : step t op = some t') : Accounted t' := by
  cases op with
  | recordUpsert uid row =>
    cases hs
    exact accounted_record h (.put uid row)
  | recordDelete uid =>
    cases hs
    exact accounted_record h (.del uid)
  | markInitDone =>
    cases hs
    exact accounted_mark h
  | close =>
    cases hs
    exact accounted_close h
  | drain =>
    cases hs
    exact accounted_drained h (drain_drained h.separate (.inl rfl))
  | drainCapped max di ci =>
    simp only [step, Option.ite_none_right_eq_some, Option.some.injEq] at hs
    obtain ⟨⟨hd, -⟩, rfl⟩ := hs
    exact accounted_drained h (drainCapped_drained h.separate hd max)

/-- In every run: pending upserts and deletes are disjoint; each drained delta of a uid is
the last write recorded since the uid was last drained, delivered once, and what is not
delivered is still pending; a capped batch holds at most its cap; and the marks made since
the last report are reported by the first batch that leaves nothing outstanding. -/
theorem channel_contract {ops : List (Op ρ)} {t : Traced ρ} (h : run step start ops = some t) :
    Separate t.chan ∧
    (∀ u, delivered u t.log = (ledger u t.log).settled ∧
      pending t.chan u = (ledger u t.log).current) ∧
    ∀ n cap b, t.log[n]? = some (.drained cap b) → BatchContract (t.log.take n) cap b := by
  have ha : Accounted t := run_invariant (fun _ op _ => accounted_step op) accounted_start h
  exact ⟨ha.separate, fun u => ⟨(ha.settled u).symm, (ha.current u).symm⟩, ha.batches⟩

def sampleOps : List (Op ℕ) :=
  [.recordUpsert "a" 1, .recordUpsert "b" 2, .markInitDone, .drainCapped 1 [] ["b", "a"],
    .recordDelete "b", .drainCapped 1 ["b"] ["a"], .drain]

theorem channel_contract_sampleOps : ∃ t : Traced ℕ, run step start sampleOps = some t ∧
    delivered "b" t.log = (ledger "b" t.log).settled ∧ delivered "b" t.log = [some 2, none] := by
  have hrun : ∃ t : Traced ℕ, run step start sampleOps = some t ∧
      delivered "b" t.log = [some 2, none] := ⟨_, rfl, by decide⟩
  obtain ⟨t, ht, hd⟩ := hrun
  exact ⟨t, ht, ((channel_contract ht).2.1 "b").1, hd⟩

/-- A cap of zero does not bound the batch, two marks are reported once, and a write to a
closed channel is never delivered. -/
theorem uncapped_coalesced_closed :
    (∃ t : Traced ℕ, run step start [.recordUpsert "a" 1, .drainCapped 0 [] ["a"]] = some t ∧
      ∃ b, t.log[1]? = some (.drained 0 b) ∧ ¬ b.deltaCount ≤ 0) ∧
    (∃ t : Traced ℕ, run step start [.markInitDone, .markInitDone, .drain, .drain] = some t ∧
      t.log.map (fun e => match e with
        | .drained _ b => b.initDone
        | _ => false) = [false, false, true, false]) ∧
    (∃ t : Traced ℕ, run step start [.close, .recordUpsert "a" 1] = some t ∧
      delivered "a" t.log = [] ∧ pending t.chan "a" = none) :=
  ⟨⟨_, rfl, _, rfl, by decide⟩, ⟨_, rfl, by decide⟩, ⟨_, rfl, by decide, by decide⟩⟩

end FerrisScope.DirtyChannel
