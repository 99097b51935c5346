import FerrisScope.ChatMessages
import FerrisScope.KeyedAccumulators

/-!
# Tool calls that stream in

`ToolCallAccum` puts the calls of a completion together from fragments and reports them to the sink
as they arrive. A call is reported from the fragment on that has a function part when its id and name
are known; what the fragments before it said of its arguments is never reported, and a call whose id
comes last and alone is not reported at all. The reports agree with the calls that are returned
exactly when the fragments of each call come in order and no two calls have one id.
-/

namespace FerrisScope.StreamedToolCalls
open ChatMessages KeyedAccumulators

structure FunctionDelta where
  name : Option String
  arguments : Option String
  deriving DecidableEq, Repr

structure ToolCallDelta where
  index : Option ℕ
  id : Option String
  function : Option FunctionDelta
  deriving DecidableEq, Repr

structure AccumEntry where
  id : String := ""
  name : String := ""
  arguments : String := ""
  deriving DecidableEq, Repr

structure ToolCallAccum where
  byIndex : List (ℕ × AccumEntry) := []
  started : List ℕ := []
  deriving DecidableEq, Repr

namespace ToolCallDelta

variable (delta : ToolCallDelta)

def idx : ℕ := delta.index.getD 0

def name : Option String := delta.function.bind (·.name)

def argText : String := (delta.function.bind (·.arguments)).getD ""

end ToolCallDelta

/-- The first text that is not empty stays. -/
def setOnce (old : String) (new : Option String) : String := if old = "" then new.getD "" else old

def AccumEntry.absorb (entry : AccumEntry) (delta : ToolCallDelta) : AccumEntry where
  id := setOnce entry.id delta.id
  name := setOnce entry.name delta.name
  arguments := entry.arguments ++ delta.argText

/-- The fragment with which a call is reported. -/
def starts (started : Bool) (entry : AccumEntry) (delta : ToolCallDelta) : Bool :=
  delta.function.isSome && !started && entry.id ≠ "" && entry.name ≠ ""

/-- The reports of a fragment, of which the entry knows already. -/
def reports (started : Bool) (entry : AccumEntry) (delta : ToolCallDelta) : List CompletionEvent :=
  (if starts started entry delta then [.toolCallStart entry.id entry.name] else []) ++
    if delta.argText ≠ "" ∧ (started || starts started entry delta) = true then
      [.toolCallArgsDelta entry.id delta.argText]
    else []

namespace ToolCallAccum

def apply (s : ToolCallAccum) (delta : ToolCallDelta) : ToolCallAccum × List CompletionEvent :=
  let entry := ((s.byIndex.lookup delta.idx).getD {}).absorb delta
  let started := decide (delta.idx ∈ s.started)
  (⟨modify delta.idx {} (·.absorb delta) s.byIndex,
      if starts started entry delta then delta.idx :: s.started else s.started⟩,
    reports started entry delta)

def finish (s : ToolCallAccum) : List ToolCall × List CompletionEvent :=
  let known := s.byIndex.filter fun e => e.2.id ≠ "" && e.2.name ≠ ""
  (known.map fun e => ⟨e.2.id, e.2.name, e.2.arguments, none⟩,
    (known.filter fun e => decide (e.1 ∈ s.started)).map fun e => .toolCallEnd e.2.id)

end ToolCallAccum

def applyAll (deltas : List ToolCallDelta) : ToolCallAccum × List CompletionEvent :=
  deltas.foldl (fun s delta => ((s.1.apply delta).1, s.2 ++ (s.1.apply delta).2)) ({}, [])

/-- The calls that are returned and all that the sink is told. -/
def stream (deltas : List ToolCallDelta) : List ToolCall × List CompletionEvent :=
  let s := applyAll deltas
  (s.1.finish.1, s.2 ++ s.1.finish.2)

/-! ## Two views of the calls -/

def startOf : CompletionEvent → Option (String × String)
  | .toolCallStart id name => some (id, name)
  | _ => none

def argsOf (id : String) : CompletionEvent → Option String
  | .toolCallArgsDelta id' json => if id' = id then some json else none
  | _ => none

def endOf : CompletionEvent → Option String
  | .toolCallEnd id => some id
  | _ => none

/-- What the sink is told of the calls is what is returned. -/
structure Agree (calls : List ToolCall) (events : List CompletionEvent) : Prop where
  starts : (events.filterMap startOf).Perm (calls.map fun tc => (tc.id, tc.name))
  once : ((events.filterMap startOf).map Prod.fst).Nodup
  arguments : ∀ tc ∈ calls, String.join (events.filterMap (argsOf tc.id)) = tc.arguments
  ends : (events.filterMap endOf).Perm (calls.map (·.id))

/-- The first text that is there and not empty. -/
def firstOf (xs : List (Option String)) : String := xs.foldl setOnce ""

def idOf (fragments : List ToolCallDelta) : String := firstOf (fragments.map (·.id))

def nameOf (fragments : List ToolCallDelta) : String := firstOf (fragments.map (·.name))

def fragments (i : ℕ) (deltas : List ToolCallDelta) : List ToolCallDelta :=
  deltas.filter fun d => decide (d.idx = i)

/-- The id and the name have arrived. -/
def Known (fragments : List ToolCallDelta) : Prop := idOf fragments ≠ "" ∧ nameOf fragments ≠ ""

/-- A fragment with a function part that comes when the call is known. -/
def Opens (before : List ToolCallDelta) (d : ToolCallDelta) : Prop :=
  d.function.isSome = true ∧ Known (before ++ [d])

/-- Every call is opened before its arguments begin, and ids tell calls apart. -/
structure Orderly (deltas : List ToolCallDelta) : Prop where
  opened : ∀ i, Known (fragments i deltas) → ∃ before d after,
    fragments i deltas = before ++ d :: after ∧ Opens before d ∧ ∀ e ∈ before, e.argText = ""
  distinct : ∀ i j, Known (fragments i deltas) → Known (fragments j deltas) →
    idOf (fragments i deltas) = idOf (fragments j deltas) → i = j

/-! ## The fragments of one call -/

/-- The accumulator of one index. -/
def call : Machine (AccumEntry × Bool) ToolCallDelta CompletionEvent where
  init := ({}, false)
  step s delta :=
    ((s.1.absorb delta, s.2 || starts s.2 (s.1.absorb delta) delta), reports s.2 (s.1.absorb delta) delta)

def tagged (deltas : List ToolCallDelta) : List (ℕ × ToolCallDelta) := deltas.map fun d => (d.idx, d)

theorem only_tagged_deltas (i : ℕ) (deltas : List ToolCallDelta) : only i (tagged deltas) = fragments i deltas := by
  rw [only, tagged, List.filter_map, List.map_map]
  exact List.map_id _

theorem setOnce_of_ne {old : String} (h : old ≠ "") (new : Option String) : setOnce old new = old := if_neg h

theorem firstOf_concat (xs : List (Option String)) (x : Option String) :
    firstOf (xs ++ [x]) = setOnce (firstOf xs) x := by
  rw [firstOf, List.foldl_append]
  rfl

theorem idOf_concat (frs : List ToolCallDelta) (d : ToolCallDelta) :
    idOf (frs ++ [d]) = setOnce (idOf frs) d.id := by
  rw [idOf, List.map_append]
  exact firstOf_concat _ _

theorem nameOf_concat (frs : List ToolCallDelta) (d : ToolCallDelta) :
    nameOf (frs ++ [d]) = setOnce (nameOf frs) d.name := by
  rw [nameOf, List.map_append]
  exact firstOf_concat _ _

/-- What is known of a call stays. -/
theorem Known.append {frs : List ToolCallDelta} (h : Known frs) (more : List ToolCallDelta) :
    idOf (frs ++ more) = idOf frs ∧ nameOf (frs ++ more) = nameOf frs := by
  induction more using List.reverseRecOn with
  | nil => simp
  | append_singleton more d ih =>
    rw [← List.append_assoc, idOf_concat, nameOf_concat, ih.1, ih.2]
    exact ⟨setOnce_of_ne h.1 _, setOnce_of_ne h.2 _⟩

theorem Known.append_known {frs : List ToolCallDelta} (h : Known frs) (more : List ToolCallDelta) :
    Known (frs ++ more) := by
  rw [Known, (h.append more).1, (h.append more).2]
  exact h

def argTexts (frs : List ToolCallDelta) : String := String.join (frs.map (·.argText))

def argReports (id : String) (frs : List ToolCallDelta) : List CompletionEvent :=
  (frs.filter fun d => d.argText ≠ "").map fun d => .toolCallArgsDelta id d.argText

/-- What the accumulator of an index comes to. It reports the call from the first fragment on that
opens it. -/
inductive Reported : List ToolCallDelta → Bool → List CompletionEvent → Prop
  | closed {frs} (h : ∀ before d after, frs = before ++ d :: after → ¬ Opens before d) :
      Reported frs false []
  | opened {before d after} (h : Opens before d)
      (first : ∀ pre e post, before ++ d :: after = pre ++ e :: post → Opens pre e → before <+: pre) :
      Reported (before ++ d :: after) true (.toolCallStart (idOf (before ++ d :: after))
        (nameOf (before ++ d :: after)) :: argReports (idOf (before ++ d :: after)) (d :: after))

theorem split_concat {frs pre post : List ToolCallDelta} {d e : ToolCallDelta}
    (h : frs ++ [d] = pre ++ e :: post) : (pre = frs ∧ e = d) ∨ ∃ rest, frs = pre ++ e :: rest := by
  rcases List.eq_nil_or_concat' post with rfl | ⟨rest, x, rfl⟩
  · obtain ⟨hfront, heq⟩ := List.append_inj' h rfl
    cases heq
    exact .inl ⟨hfront.symm, rfl⟩
  · rw [← List.cons_append, ← List.append_assoc] at h
    exact .inr ⟨rest, (List.append_inj' h rfl).1⟩

theorem starts_false_iff {frs : List ToolCallDelta} {d : ToolCallDelta} {entry : AccumEntry}
    (hid : entry.id = idOf (frs ++ [d])) (hname : entry.name = nameOf (frs ++ [d])) :
    starts false entry d = true ↔ Opens frs d := by
  simp [starts, Opens, Known, hid, hname, and_assoc]

/-- A call that has been opened is known from then on. -/
theorem Opens.known {before : List ToolCallDelta} {d : ToolCallDelta} (h : Opens before d)
    (after : List ToolCallDelta) : Known (before ++ d :: after) := by
  have hmore := h.2.append_known after
  rwa [List.append_assoc, List.singleton_append] at hmore

theorem Reported.known {frs : List ToolCallDelta} {events : List CompletionEvent}
    (h : Reported frs true events) : Known frs := by
  cases h with
  | @opened before d after h first => exact h.known after

theorem argReports_append (id : String) (frs more : List ToolCallDelta) :
    argReports id (frs ++ more) = argReports id frs ++ argReports id more := by
  rw [argReports, List.filter_append, List.map_append]
  rfl

/-- One more fragment opens the call, leaves it closed, or is reported with it. -/
theorem Reported.opens {frs : List ToolCallDelta}
    (h : ∀ before d after, frs = before ++ d :: after → ¬ Opens before d) {d : ToolCallDelta} (hopens : Opens frs d) :
    Reported (frs ++ [d]) true (.toolCallStart (idOf (frs ++ [d])) (nameOf (frs ++ [d])) ::
      argReports (idOf (frs ++ [d])) [d]) := by
  apply Reported.opened hopens
  intro pre e post heq he
  rcases split_concat heq with ⟨rfl, -⟩ | ⟨rest, hfrs⟩
  · exact List.prefix_refl _
  · exact absurd he (h pre e rest hfrs)

theorem Reported.stays_closed {frs : List ToolCallDelta}
    (h : ∀ before d after, frs = before ++ d :: after → ¬ Opens before d) {d : ToolCallDelta}
    (hopens : ¬ Opens frs d) : Reported (frs ++ [d]) false [] := by
  refine .closed fun pre e post heq he => ?_
  rcases split_concat heq with ⟨rfl, rfl⟩ | ⟨rest, hfrs⟩
  · exact hopens he
  · exact h pre e rest hfrs he

theorem Reported.stays_opened {frs : List ToolCallDelta} {events : List CompletionEvent}
    (h : Reported frs true events) (d : ToolCallDelta) :
    Reported (frs ++ [d]) true (events ++ argReports (idOf (frs ++ [d])) [d]) := by
  obtain ⟨hid, hname⟩ := h.known.append [d]
  cases h with
  | @opened before d₀ after hopens first =>
    have hsplit : before ++ d₀ :: after ++ [d] = before ++ d₀ :: (after ++ [d]) := by simp
    have hfirst : ∀ pre e post, before ++ d₀ :: (after ++ [d]) = pre ++ e :: post → Opens pre e →
        before <+: pre := by
      intro pre e post heq he
      rw [← hsplit] at heq
      rcases split_concat heq with ⟨rfl, -⟩ | ⟨rest, hfrs⟩
      · exact List.prefix_append _ _
      · exact first pre e rest hfrs he
    have hreport := Reported.opened hopens hfirst
    rw [← hsplit, hid, hname, ← List.cons_append, argReports_append] at hreport
    rw [hid]
    exact hreport

theorem run_call (frs : List ToolCallDelta) :
    (call.run frs).1.1 = ⟨idOf frs, nameOf frs, argTexts frs⟩ ∧
      Reported frs (call.run frs).1.2 (call.run frs).2 := by
  induction frs using List.reverseRecOn with
  | nil => exact ⟨rfl, .closed (by simp)⟩
  | append_singleton frs d ih =>
    obtain ⟨hentry, hreported⟩ := ih
    rw [run_concat]
    have hnext : (call.run frs).1.1.absorb d = ⟨idOf (frs ++ [d]), nameOf (frs ++ [d]), argTexts (frs ++ [d])⟩ := by
      rw [hentry, AccumEntry.absorb, idOf_concat, nameOf_concat, argTexts, argTexts, List.map_append]
      simp [String.join_append]
    have hstep : call.step (call.run frs).1 d = (((call.run frs).1.1.absorb d, (call.run frs).1.2 ||
        starts (call.run frs).1.2 ((call.run frs).1.1.absorb d) d),
        reports (call.run frs).1.2 ((call.run frs).1.1.absorb d) d) := rfl
    rw [hstep, hnext]
    refine ⟨rfl, ?_⟩
    generalize (call.run frs).1.2 = flag at hreported
    generalize (call.run frs).2 = events at hreported
    cases flag with
    | false =>
      cases hreported with
      | closed h =>
        have hiff := @starts_false_iff frs d ⟨idOf (frs ++ [d]), nameOf (frs ++ [d]), argTexts (frs ++ [d])⟩ rfl rfl
        by_cases hopens : Opens frs d
        · have hreport := Reported.opens h hopens
          have hstart := hiff.mpr hopens
          simp only [Bool.false_or, hstart, List.nil_append, reports, if_true]
          by_cases harg : d.argText = ""
          · simpa [argReports, harg] using hreport
          · simpa [argReports, harg] using hreport
        · have hstart : starts false _ d = false := Bool.eq_false_iff.mpr fun hs => hopens (hiff.mp hs)
          simp only [Bool.false_or, hstart, List.nil_append, reports, Bool.false_eq_true, and_false, if_false]
          exact Reported.stays_closed h hopens
    | true =>
      have hreport := hreported.stays_opened d
      by_cases harg : d.argText = ""
      · simpa [reports, starts, argReports, harg] using hreport
      · simpa [reports, starts, argReports, harg] using hreport

theorem Reported.not_opens {frs : List ToolCallDelta} {events : List CompletionEvent}
    (h : Reported frs false events) {before after : List ToolCallDelta} {d : ToolCallDelta}
    (hsplit : frs = before ++ d :: after) : ¬ Opens before d := by
  cases h with
  | closed h => exact h before d after hsplit

theorem Reported.filterMap_startOf {frs : List ToolCallDelta} {flag : Bool} {events : List CompletionEvent}
    (h : Reported frs flag events) :
    events.filterMap startOf = if flag then [(idOf frs, nameOf frs)] else [] := by
  cases h with
  | closed h => rfl
  | opened h first => simp [startOf, argReports, List.filterMap_map, Function.comp_def]

theorem Reported.filterMap_endOf {frs : List ToolCallDelta} {flag : Bool} {events : List CompletionEvent}
    (h : Reported frs flag events) : events.filterMap endOf = [] := by
  cases h with
  | closed h => rfl
  | opened h first =>
    rw [List.filterMap_cons, argReports, List.filterMap_map]
    simp [endOf, Function.comp_def]

/-- Arguments are reported under the id of a call that is known. -/
theorem Reported.of_args {frs : List ToolCallDelta} {flag : Bool} {events : List CompletionEvent}
    (h : Reported frs flag events) {event : CompletionEvent} (hmem : event ∈ events) {id : String}
    (hargs : argsOf id event ≠ none) : Known frs ∧ idOf frs = id := by
  cases h with
  | closed h => cases hmem
  | opened h first =>
    refine ⟨(Reported.opened h first).known, ?_⟩
    rcases List.mem_cons.mp hmem with rfl | hmem
    · exact absurd rfl hargs
    · obtain ⟨d, -, rfl⟩ := List.mem_map.mp hmem
      by_contra hne
      exact hargs (if_neg hne)

/-! ## The fragments of all calls -/

theorem applyAll_concat (deltas : List ToolCallDelta) (d : ToolCallDelta) :
    applyAll (deltas ++ [d]) = (((applyAll deltas).1.apply d).1,
      (applyAll deltas).2 ++ ((applyAll deltas).1.apply d).2) := by
  rw [applyAll, List.foldl_append]
  rfl

theorem fragments_concat (i : ℕ) (deltas : List ToolCallDelta) (d : ToolCallDelta) :
    fragments i (deltas ++ [d]) = fragments i deltas ++ if d.idx = i then [d] else [] := by
  rw [fragments, List.filter_append]
  by_cases h : d.idx = i
  · simp [fragments, h]
  · simp [fragments, h]

/-- What stands at an index is what the machine of that index has come to. -/
theorem flag_of_started {deltas : List ToolCallDelta} {i : ℕ}
    (h : i ∈ (applyAll deltas).1.started ↔ (call.run (fragments i deltas)).1.2 = true) :
    decide (i ∈ (applyAll deltas).1.started) = (call.run (fragments i deltas)).1.2 := by
  by_cases hi : i ∈ (applyAll deltas).1.started
  · rw [decide_eq_true hi, h.mp hi]
  · rw [decide_eq_false hi, eq_comm, Bool.eq_false_iff]
    exact fun hs => hi (h.mpr hs)

theorem entry_of_byIndex {deltas : List ToolCallDelta} (i : ℕ)
    (h : (applyAll deltas).1.byIndex = (call.runAll (tagged deltas)).1.map (fun e => (e.1, e.2.1))) :
    ((applyAll deltas).1.byIndex.lookup i).getD {} = (call.run (fragments i deltas)).1.1 := by
  rw [h, lookup_map Prod.fst, ← only_tagged_deltas, ← getD_lookup_runAll]
  cases (call.runAll (tagged deltas)).1.lookup i <;> rfl

/-- The accumulator keeps one machine for each index. -/
theorem applyAll_runAll (deltas : List ToolCallDelta) :
    (applyAll deltas).1.byIndex = (call.runAll (tagged deltas)).1.map (fun e => (e.1, e.2.1)) ∧
      (∀ i, i ∈ (applyAll deltas).1.started ↔ (call.run (fragments i deltas)).1.2 = true) ∧
      (applyAll deltas).2 = (call.runAll (tagged deltas)).2.map Prod.snd := by
  induction deltas using List.reverseRecOn with
  | nil => exact ⟨rfl, fun i => by simp [applyAll, fragments, Machine.run, call], rfl⟩
  | append_singleton deltas d ih =>
    obtain ⟨hentries, hstarted, hevents⟩ := ih
    have hflag := flag_of_started (hstarted d.idx)
    have hentry := entry_of_byIndex d.idx hentries
    have htagged : tagged (deltas ++ [d]) = tagged deltas ++ [(d.idx, d)] := by simp [tagged]
    rw [applyAll_concat, htagged, runAll_concat, Machine.feed, getD_lookup_runAll, only_tagged_deltas]
    refine ⟨?_, fun i => ?_, ?_⟩
    · rw [ToolCallAccum.apply, hentries]
      exact @modify_map ℕ (AccumEntry × Bool) _ d.idx call.init (fun s => (call.step s d).1) AccumEntry {}
        (·.absorb d) Prod.fst rfl (fun _ => rfl) _
    · rw [ToolCallAccum.apply, hflag, hentry, fragments_concat]
      by_cases hi : d.idx = i
      · subst hi
        rw [if_pos rfl, run_concat]
        have hstep : (call.step (call.run (fragments d.idx deltas)).1 d).1.2 =
            ((call.run (fragments d.idx deltas)).1.2 || starts (call.run (fragments d.idx deltas)).1.2
              ((call.run (fragments d.idx deltas)).1.1.absorb d) d) := rfl
        rw [hstep, Bool.or_eq_true, ← hstarted]
        split_ifs with hs
        · simp [hs]
        · simp [hs]
      · rw [if_neg hi, List.append_nil, ← hstarted]
        split_ifs with hs
        · simp [Ne.symm hi]
        · rfl
    · rw [ToolCallAccum.apply, hflag, hentry, hevents, List.map_append]
      have hstep : (call.step (call.run (fragments d.idx deltas)).1 d).2 =
          reports (call.run (fragments d.idx deltas)).1.2 ((call.run (fragments d.idx deltas)).1.1.absorb d) d := rfl
      rw [hstep]
      simp

def entries (deltas : List ToolCallDelta) : List (ℕ × (AccumEntry × Bool)) := (call.runAll (tagged deltas)).1

def isKnown (e : ℕ × (AccumEntry × Bool)) : Bool := e.2.1.id ≠ "" && e.2.1.name ≠ ""

variable {deltas : List ToolCallDelta} {e : ℕ × (AccumEntry × Bool)}

theorem entry_run (h : e ∈ entries deltas) : e.2 = (call.run (fragments e.1 deltas)).1 := by
  rw [← only_tagged_deltas]
  exact (entry_eq_run call h).1

theorem entry_spec (h : e ∈ entries deltas) :
    e.2.1 = ⟨idOf (fragments e.1 deltas), nameOf (fragments e.1 deltas), argTexts (fragments e.1 deltas)⟩ ∧
      Reported (fragments e.1 deltas) e.2.2 (call.run (fragments e.1 deltas)).2 := by
  rw [entry_run h]
  exact run_call _

theorem entry_id {i : ℕ} {s : AccumEntry × Bool} (h : (i, s) ∈ entries deltas) :
    s.1.id = idOf (fragments i deltas) := congrArg AccumEntry.id (entry_spec h).1

theorem entry_arguments {i : ℕ} {s : AccumEntry × Bool} (h : (i, s) ∈ entries deltas) :
    s.1.arguments = argTexts (fragments i deltas) := congrArg AccumEntry.arguments (entry_spec h).1

theorem isKnown_iff (h : e ∈ entries deltas) : isKnown e = true ↔ Known (fragments e.1 deltas) := by
  simp [isKnown, Known, (entry_spec h).1]

theorem exists_entry {i : ℕ} (h : Known (fragments i deltas)) : ∃ s, (i, s) ∈ entries deltas := by
  have hne : fragments i deltas ≠ [] := by
    intro hnil
    rw [hnil] at h
    exact h.1 rfl
  refine ⟨(call.run (fragments i deltas)).1, (lookup_eq_some (sorted_runAll call (tagged deltas))).mp ?_⟩
  rw [lookup_runAll, only_tagged_deltas, if_neg hne]

theorem stream_calls (deltas : List ToolCallDelta) : (stream deltas).1 =
    ((entries deltas).filter isKnown).map fun e => ⟨e.2.1.id, e.2.1.name, e.2.1.arguments, none⟩ := by
  rw [stream, ToolCallAccum.finish, (applyAll_runAll deltas).1, List.filter_map, List.map_map]
  rfl

theorem stream_events (deltas : List ToolCallDelta) : (stream deltas).2 =
    (call.runAll (tagged deltas)).2.map Prod.snd ++
      (((entries deltas).filter isKnown).filter fun e => e.2.2).map fun e => .toolCallEnd e.2.1.id := by
  obtain ⟨hentries, hstarted, hevents⟩ := applyAll_runAll deltas
  have hflags : ((entries deltas).filter isKnown).filter (fun e => decide (e.1 ∈ (applyAll deltas).1.started)) =
      ((entries deltas).filter isKnown).filter fun e => e.2.2 := by
    apply List.filter_congr
    intro e he
    have he := List.mem_of_mem_filter he
    rw [entry_run he]
    by_cases hs : e.1 ∈ (applyAll deltas).1.started
    · rw [decide_eq_true hs, (hstarted e.1).mp hs]
    · rw [decide_eq_false hs, eq_comm, Bool.eq_false_iff]
      exact fun h => hs ((hstarted e.1).mpr h)
  rw [stream, ToolCallAccum.finish, hentries, hevents, ← hflags]
  simp only [List.filter_map, List.map_map]
  rfl

theorem flatMap_ite {α β : Type*} (p : α → Bool) (f : α → β) (xs : List α) :
    (xs.flatMap fun x => if p x then [f x] else []) = (xs.filter p).map f := by
  induction xs with
  | nil => rfl
  | cons x xs ih =>
    rw [List.flatMap_cons, ih, List.filter_cons]
    split_ifs <;> rfl

theorem perm_starts (deltas : List ToolCallDelta) : ((stream deltas).2.filterMap startOf).Perm
    (((entries deltas).filter fun e => e.2.2).map fun e => (e.2.1.id, e.2.1.name)) := by
  have hends : ((((entries deltas).filter isKnown).filter fun e => e.2.2).map fun e =>
      CompletionEvent.toolCallEnd e.2.1.id).filterMap startOf = [] := by
    simp [List.filterMap_map, Function.comp_def, startOf]
  have hperm := (perm_events call (tagged deltas)).filterMap startOf
  rw [List.filterMap_flatMap] at hperm
  rw [stream_events, List.filterMap_append, hends, List.append_nil]
  refine hperm.trans (List.Perm.of_eq ?_)
  rw [← flatMap_ite]
  apply List.flatMap_congr
  intro e he
  rw [only_tagged_deltas, (entry_spec he).2.filterMap_startOf, (entry_spec he).1]

theorem ends_eq (deltas : List ToolCallDelta) : (stream deltas).2.filterMap endOf =
    (((entries deltas).filter isKnown).filter fun e => e.2.2).map fun e => e.2.1.id := by
  have hnone : ((call.runAll (tagged deltas)).2.map Prod.snd).filterMap endOf = [] := by
    have hperm := (perm_events call (tagged deltas)).filterMap endOf
    rw [List.filterMap_flatMap] at hperm
    refine List.perm_nil.mp (hperm.trans (List.Perm.of_eq ?_))
    rw [List.flatMap_eq_nil_iff]
    intro e he
    rw [only_tagged_deltas, (entry_spec he).2.filterMap_endOf]
  rw [stream_events, List.filterMap_append, hnone, List.nil_append, List.filterMap_map]
  exact congrFun (List.filterMap_eq_map (f := fun e : ℕ × (AccumEntry × Bool) => e.2.1.id)) _

theorem known_of_flag (h : e ∈ entries deltas) (hflag : e.2.2 = true) : isKnown e = true := by
  have hreported := (entry_spec h).2
  rw [hflag] at hreported
  exact (isKnown_iff h).mpr hreported.known

/-- What is reported of the arguments of an id comes from the calls with this id. -/
theorem args_eq {i : ℕ}
    (honly : ∀ j, Known (fragments j deltas) → idOf (fragments j deltas) = idOf (fragments i deltas) → j = i) :
    (stream deltas).2.filterMap (argsOf (idOf (fragments i deltas))) =
      (call.run (fragments i deltas)).2.filterMap (argsOf (idOf (fragments i deltas))) := by
  have hends : ((((entries deltas).filter isKnown).filter fun e => e.2.2).map fun e =>
      CompletionEvent.toolCallEnd e.2.1.id).filterMap (argsOf (idOf (fragments i deltas))) = [] := by
    simp [List.filterMap_map, Function.comp_def, argsOf]
  have htag : ∀ t ∈ (call.runAll (tagged deltas)).2,
      argsOf (idOf (fragments i deltas)) t.2 ≠ none → decide (t.1 = i) = true := by
    intro t ht hargs
    have hmem : t.2 ∈ only t.1 (call.runAll (tagged deltas)).2 :=
      List.mem_map_of_mem (List.mem_filter.mpr ⟨ht, decide_eq_true rfl⟩)
    rw [only_runAll, only_tagged_deltas] at hmem
    obtain ⟨hknown, hid⟩ := (run_call (fragments t.1 deltas)).2.of_args hmem hargs
    exact decide_eq_true (honly t.1 hknown hid)
  rw [stream_events, List.filterMap_append, hends, List.append_nil, List.filterMap_map]
  have honly : (call.run (fragments i deltas)).2 = only i (call.runAll (tagged deltas)).2 := by
    rw [only_runAll, only_tagged_deltas]
  rw [honly, only, List.filterMap_map, List.filterMap_filter]
  apply List.filterMap_congr
  intro t ht
  split_ifs with hi
  · rfl
  · exact not_not.mp fun hargs => hi (htag t ht hargs)

theorem join_eq_empty {xs : List String} : String.join xs = "" ↔ ∀ x ∈ xs, x = "" := by
  induction xs with
  | nil => simp
  | cons x xs ih => simp [String.join_cons, ih]

theorem argTexts_append (frs more : List ToolCallDelta) : argTexts (frs ++ more) = argTexts frs ++ argTexts more := by
  rw [argTexts, List.map_append, String.join_append]
  rfl

theorem join_filter (frs : List ToolCallDelta) :
    String.join ((frs.filter fun d => d.argText ≠ "").map (·.argText)) = argTexts frs := by
  rw [argTexts]
  induction frs with
  | nil => rfl
  | cons d frs ih =>
    rw [List.filter_cons, List.map_cons, String.join_cons, ← ih]
    split_ifs with h
    · rw [List.map_cons, String.join_cons]
    · have hempty : d.argText = "" := by simpa using h
      rw [hempty, String.empty_append]

theorem string_eq_append_iff {s t : String} : t = s ++ t ↔ s = "" := by
  constructor
  · intro h
    have hlen := congrArg String.length h
    rw [String.length_append] at hlen
    exact String.length_eq_zero_iff.mp (by omega)
  · rintro rfl
    rw [String.empty_append]

/-- What is reported of the arguments, and when it is all of them. -/
theorem join_args {frs : List ToolCallDelta} {events : List CompletionEvent} (h : Reported frs true events) :
    String.join (events.filterMap (argsOf (idOf frs))) = argTexts frs ↔
      ∃ before d after, frs = before ++ d :: after ∧ Opens before d ∧ ∀ e ∈ before, e.argText = "" := by
  cases h with
  | @opened before d after hopens first =>
    generalize hid : idOf (before ++ d :: after) = id
    have hfun : argsOf id ∘ (fun d : ToolCallDelta => .toolCallArgsDelta id d.argText) = some ∘ (·.argText) := by
      funext e
      simp [argsOf]
    have hreported : (CompletionEvent.toolCallStart id (nameOf (before ++ d :: after)) ::
        argReports id (d :: after)).filterMap (argsOf id) =
          ((d :: after).filter fun d => d.argText ≠ "").map (·.argText) := by
      rw [List.filterMap_cons, argReports, List.filterMap_map, hfun]
      exact congrFun (List.filterMap_eq_map (f := fun e : ToolCallDelta => e.argText)) _
    rw [hreported, join_filter, argTexts_append, string_eq_append_iff, argTexts, join_eq_empty]
    constructor
    · intro h
      exact ⟨before, d, after, rfl, hopens, fun e he => h _ (List.mem_map_of_mem he)⟩
    · rintro ⟨pre, e, post, heq, he, hquiet⟩ x hx
      obtain ⟨e', he', rfl⟩ := List.mem_map.mp hx
      exact hquiet e' ((first pre e post heq he).subset he')

theorem entry_unique {s t : AccumEntry × Bool} {i : ℕ} (hs : (i, s) ∈ entries deltas)
    (ht : (i, t) ∈ entries deltas) : s = t := (entry_run hs).trans (entry_run ht).symm

theorem mem_calls {tc : ToolCall} : tc ∈ (stream deltas).1 ↔ ∃ e ∈ entries deltas, isKnown e = true ∧
    tc = ⟨e.2.1.id, e.2.1.name, e.2.1.arguments, none⟩ := by
  rw [stream_calls]
  simp only [List.mem_map, List.mem_filter, and_assoc, eq_comm (a := tc)]

/-- Every call that is returned was reported: its start is among as many as there are calls. -/
theorem flag_of_starts (h : ((stream deltas).2.filterMap startOf).Perm
    ((stream deltas).1.map fun tc => (tc.id, tc.name))) {e : ℕ × (AccumEntry × Bool)}
    (he : e ∈ entries deltas) (hknown : isKnown e = true) : e.2.2 = true := by
  have hlen := ((perm_starts deltas).symm.trans h).length_eq
  rw [stream_calls, List.length_map, List.length_map, List.length_map] at hlen
  have hsub : ((entries deltas).filter fun e => e.2.2).Sublist ((entries deltas).filter isKnown) := by
    have hflags : ((entries deltas).filter fun e => e.2.2) =
        ((entries deltas).filter isKnown).filter fun e => e.2.2 := by
      rw [List.filter_filter]
      apply List.filter_congr
      intro e he
      cases hflag : e.2.2 with
      | false => rfl
      | true => rw [known_of_flag he hflag]; rfl
    rw [hflags]
    exact List.filter_sublist
  have hmem : e ∈ (entries deltas).filter isKnown := List.mem_filter.mpr ⟨he, hknown⟩
  rw [← hsub.eq_of_length hlen] at hmem
  exact (List.mem_filter.mp hmem).2

theorem Agree.distinct (h : Agree (stream deltas).1 (stream deltas).2) {i j : ℕ} (hi : Known (fragments i deltas))
    (hj : Known (fragments j deltas)) (hid : idOf (fragments i deltas) = idOf (fragments j deltas)) : i = j := by
  obtain ⟨s, hs⟩ := exists_entry hi
  obtain ⟨t, ht⟩ := exists_entry hj
  have hnodup := ((perm_starts deltas).map Prod.fst).nodup_iff.mp h.once
  rw [List.map_map] at hnodup
  have hmem : ∀ {k u}, (k, u) ∈ entries deltas → Known (fragments k deltas) →
      (k, u) ∈ (entries deltas).filter fun e => e.2.2 := fun {k u} hu hk =>
    List.mem_filter.mpr ⟨hu, flag_of_starts h.starts hu ((isKnown_iff hu).mpr hk)⟩
  have hsame : s.1.id = t.1.id := by rw [entry_id hs, entry_id ht, hid]
  exact congrArg Prod.fst (List.inj_on_of_nodup_map hnodup (hmem hs hi) (hmem ht hj) hsame)

theorem Orderly.flag_iff (h : Orderly deltas) (he : e ∈ entries deltas) : e.2.2 = true ↔ isKnown e = true := by
  constructor
  · exact known_of_flag he
  · intro hknown
    obtain ⟨before, d, after, hsplit, hopens, -⟩ := h.opened e.1 ((isKnown_iff he).mp hknown)
    have hreported := (entry_spec he).2
    by_contra hflag
    rw [Bool.eq_false_iff.mpr hflag] at hreported
    exact hreported.not_opens hsplit hopens

theorem Orderly.filter_flag (h : Orderly deltas) :
    ((entries deltas).filter fun e => e.2.2) = (entries deltas).filter isKnown :=
  List.filter_congr fun _ he => Bool.eq_iff_iff.mpr (h.flag_iff he)

theorem Orderly.nodup_ids (h : Orderly deltas) : (((entries deltas).filter isKnown).map fun e => e.2.1.id).Nodup := by
  have hnodup : (entries deltas).Nodup := (sorted_runAll call (tagged deltas)).nodup_keys.of_map
  refine List.Nodup.map_on ?_ (hnodup.filter _)
  rintro ⟨i, s⟩ hs ⟨j, t⟩ ht hid
  obtain ⟨hs, hsk⟩ := List.mem_filter.mp hs
  obtain ⟨ht, htk⟩ := List.mem_filter.mp ht
  have hid : s.1.id = t.1.id := hid
  rw [entry_id hs, entry_id ht] at hid
  obtain rfl := h.distinct i j ((isKnown_iff hs).mp hsk) ((isKnown_iff ht).mp htk) hid
  rw [entry_unique hs ht]

theorem Agree.orderly (h : Agree (stream deltas).1 (stream deltas).2) : Orderly deltas := by
  refine ⟨fun i hi => ?_, fun i j hi hj hid => h.distinct hi hj hid⟩
  obtain ⟨s, hs⟩ := exists_entry hi
  have hknown := (isKnown_iff hs).mpr hi
  have hreported := (entry_spec hs).2
  rw [flag_of_starts h.starts hs hknown] at hreported
  have hargs : String.join ((stream deltas).2.filterMap (argsOf s.1.id)) = s.1.arguments :=
    h.arguments _ (mem_calls.mpr ⟨_, hs, hknown, rfl⟩)
  rw [entry_id hs, entry_arguments hs, args_eq fun j hj hid => h.distinct hj hi hid] at hargs
  exact (join_args hreported).mp hargs

theorem Orderly.agree (h : Orderly deltas) : Agree (stream deltas).1 (stream deltas).2 := by
  have hstarts := perm_starts deltas
  rw [h.filter_flag] at hstarts
  constructor
  case starts =>
    rw [stream_calls, List.map_map]
    exact hstarts
  case once =>
    rw [(hstarts.map Prod.fst).nodup_iff, List.map_map]
    exact h.nodup_ids
  case arguments =>
    intro tc htc
    obtain ⟨⟨i, s⟩, hs, hknown, rfl⟩ := mem_calls.mp htc
    have hi := (isKnown_iff hs).mp hknown
    have hreported := (entry_spec hs).2
    rw [(h.flag_iff hs).mpr hknown] at hreported
    change String.join ((stream deltas).2.filterMap (argsOf s.1.id)) = s.1.arguments
    rw [entry_id hs, entry_arguments hs, args_eq fun j hj hid => h.distinct j i hj hi hid]
    exact (join_args hreported).mpr (h.opened i hi)
  case ends =>
    have hall : ((entries deltas).filter isKnown).filter (fun e => e.2.2) = (entries deltas).filter isKnown := by
      rw [List.filter_eq_self]
      intro e he
      obtain ⟨he, hknown⟩ := List.mem_filter.mp he
      exact (h.flag_iff he).mpr hknown
    rw [ends_eq, hall, stream_calls, List.map_map]
    exact List.Perm.refl _

/-- The reports agree with the result exactly when the fragments come in order. -/
theorem agree_iff_orderly (deltas : List ToolCallDelta) :
    Agree (stream deltas).1 (stream deltas).2 ↔ Orderly deltas := ⟨Agree.orderly, Orderly.agree⟩

/-- The arguments begin before the name is there. -/
def earlyArguments : List ToolCallDelta :=
  [⟨some 0, some "call_1", some ⟨none, some "\x7b"⟩⟩, ⟨some 0, none, some ⟨some "fs_pods_list", some "\x7d"⟩⟩]

theorem earlyArguments_disagree : ¬ Agree (stream earlyArguments).1 (stream earlyArguments).2 := by
  intro h
  have hargs := h.arguments ⟨"call_1", "fs_pods_list", "\x7b\x7d", none⟩ (by decide)
  exact absurd hargs (by decide)

end FerrisScope.StreamedToolCalls
