import FerrisScope.LabelledRuns
import FerrisScope.SessionCodec
import Mathlib.Logic.Function.Basic
import Mathlib.Tactic.Common

/-!
# Requests to an MCP server

A request takes the next id, puts the sender of its answer into a map under it, hands its message to
the transport and waits. A reader takes the server's messages one by one and looks each one's id up
in the same map; when the channel has closed and is empty it fails whatever the map still holds, once.

The ids of the server's own requests are not told apart from answers, so one of them completes the
request it happens to meet. A request that enters the map after the reader is gone waits for ever if
its message can still be sent. Requests are answered as they should be exactly in the runs without
these, and without an id coming round to a request that is still there.
-/

namespace FerrisScope.McpRequests
open LabelledRuns ChatMessages Json

inductive McpError where
  | io (text : String)
  | decode (text : String)
  | server (code : Int64) (message : String)
  | closed
  | invalidResponse (text : String)
  | transport (text : String)
  deriving DecidableEq

structure JsonRpcErrorObj where
  code : Int64
  message : String

structure JsonRpcResponse where
  jsonrpc : Option String
  id : Option Value
  result : Option Value
  error : Option JsonRpcErrorObj

/-- A field that may be missing or `null`. -/
def field {α : Type} (read : Value → Option α) : Option Value → Option (Option α)
  | none | some .null => some none
  | some v => (read v).map some

def errorFields (code message : Option Value) : Option JsonRpcErrorObj := do
  let code ← code.bind SessionCodec.int64.read
  let message ← message.bind asStr
  return { code, message }

/-- A record is also read from an array of its fields. -/
def readError : Value → Option JsonRpcErrorObj
  | .obj fs => errorFields (find "code" fs) (find "message" fs)
  | .arr [code, message] => errorFields (some code) (some message)
  | _ => none

def responseFields (jsonrpc id result error : Option Value) : Option JsonRpcResponse := do
  let jsonrpc ← field asStr jsonrpc
  let id ← field some id
  let result ← field some result
  let error ← field readError error
  return { jsonrpc, id, result, error }

/-- Keys that are not fields are ignored. In an array only the first field has to be there. -/
def readResponse : Value → Option JsonRpcResponse
  | .obj fs => responseFields (find "jsonrpc" fs) (find "id" fs) (find "result" fs) (find "error" fs)
  | .arr xs => if 1 ≤ xs.length ∧ xs.length ≤ 4 then responseFields xs[0]? xs[1]? xs[2]? xs[3]? else none
  | _ => none

def asU64 : Value → Option UInt64
  | .num (.posInt n) => some n
  | _ => none

def JsonRpcResponse.requestId (r : JsonRpcResponse) : Option UInt64 := r.id.bind asU64

def JsonRpcResponse.payload (r : JsonRpcResponse) : Except McpError Value :=
  match r.error with
  | some err => .error (.server err.code err.message)
  | none => .ok (r.result.getD .null)

/-- The client's end of the wire. The endpoint of `sse` is where its messages are posted to. -/
inductive Transport where
  | stdio
  | http
  | sse (endpoint : Option String)

/-- Hand over a message; `outcome` is what the write or the request comes to. It waits for an endpoint
while the stream may still bring one, and keeps the one it has when the stream is gone. -/
def Transport.send (closed : Bool) (outcome : Except McpError Unit) : Transport → Option (Except McpError Unit)
  | .stdio | .http | .sse (some _) => some outcome
  | .sse none => if closed then some (.error (.transport "sse endpoint never arrived (stream closed)")) else none

/-- The channel of `http` lives as long as the client. -/
def Transport.canClose : Transport → Bool
  | .http => false
  | _ => true

inductive Phase where
  | fresh
  | inserting
  | sending
  | clearing (e : McpError)
  | awaiting
  | returned (r : Except McpError Value)
  | cancelled

/-- Its sender has been put into the map, and the request is still there to take the answer. -/
def Phase.waits : Phase → Bool
  | .sending | .clearing _ | .awaiting => true
  | _ => false

/-- What became of the sender of a request: it was used for a message, used when the channel closed, or
dropped. -/
inductive Completion where
  | answered (message : Value) (payload : Except McpError Value)
  | closed
  | dropped

def Completion.result : Completion → Except McpError Value
  | .answered _ payload => payload
  | .closed | .dropped => .error .closed

/-- Requests are numbered in the order they take their ids, and `completions` is what each has been
sent while it was there to take it. -/
structure State where
  transport : Transport
  calls : Nat
  phase : Nat → Phase
  pending : UInt64 → Option Nat
  completions : Nat → List Completion
  incoming : List Value
  closed : Bool
  drained : Bool

def fromTransport (transport : Transport) : State where
  transport := transport
  calls := 0
  phase := fun _ => .fresh
  pending := fun _ => none
  completions := fun _ => []
  incoming := []
  closed := false
  drained := false

/-- The counter starts at one and wraps. -/
def idOf (n : Nat) : UInt64 := UInt64.ofNat (n + 1)

def setPhase (s : State) (n : Nat) (p : Phase) : State := { s with phase := Function.update s.phase n p }

/-- Remove the sender under an id and complete its request with `c`, if that still waits. -/
def settle (s : State) (id : UInt64) (c : Completion) : State :=
  match s.pending id with
  | none => s
  | some n =>
    { s with
      pending := Function.update s.pending id none
      completions :=
        if (s.phase n).waits then Function.update s.completions n (s.completions n ++ [c]) else s.completions }

/-- A sender that stood under the id of the request is dropped. -/
def insert (s : State) (n : Nat) : State :=
  let s := settle s (idOf n) .dropped
  setPhase { s with pending := Function.update s.pending (idOf n) (some n) } n .sending

def dispatchIncoming (s : State) (v : Value) : State :=
  match readResponse v with
  | none => s
  | some resp =>
    match resp.requestId with
    | none => s
    | some id => settle s id (.answered v resp.payload)

/-- Every sender in the map is used up. -/
def drain (s : State) : State :=
  { s with
    pending := fun _ => none
    completions := fun n =>
      if s.pending (idOf n) = some n ∧ (s.phase n).waits then s.completions n ++ [.closed] else s.completions n
    drained := true }

inductive Action where
  | request
  | insert (n : Nat)
  | send (n : Nat) (outcome : Except McpError Unit)
  | clear (n : Nat)
  | await (n : Nat)
  | cancel (n : Nat)
  | endpoint (url : String)
  | arrive (v : Value)
  | close
  | dispatch
  | drain

def step (s : State) : Action → Option State
  | .request => some { setPhase s s.calls .inserting with calls := s.calls + 1 }
  | .insert n =>
    match s.phase n with
    | .inserting => some (insert s n)
    | _ => none
  | .send n outcome =>
    match s.phase n, s.transport.send s.closed outcome with
    | .sending, some (.ok ()) => some (setPhase s n .awaiting)
    | .sending, some (.error e) => some (setPhase s n (.clearing e))
    | _, _ => none
  | .clear n =>
    match s.phase n with
    | .clearing e => some (settle (setPhase s n (.returned (.error e))) (idOf n) .dropped)
    | _ => none
  | .await n =>
    match s.phase n, s.completions n with
    | .awaiting, c :: _ => some (setPhase s n (.returned c.result))
    | _, _ => none
  | .cancel n =>
    match s.phase n with
    | .inserting | .sending | .clearing _ | .awaiting => some (setPhase s n .cancelled)
    | _ => none
  | .endpoint url =>
    match s.transport with
    | .sse _ => if s.closed then none else some { s with transport := .sse (some url) }
    | _ => none
  | .arrive v => if s.closed then none else some { s with incoming := s.incoming ++ [v] }
  | .close => if s.closed = false ∧ s.transport.canClose then some { s with closed := true } else none
  | .dispatch =>
    match s.incoming with
    | [] => none
    | v :: rest => some (dispatchIncoming { s with incoming := rest } v)
  | .drain => if s.closed ∧ s.incoming.isEmpty ∧ s.drained = false then some (drain s) else none

/-- A response or an error object: it calls no method, and it has a result or an error. -/
def IsResponse (v : Value) : Prop :=
  v.get? "method" = none ∧ (v.get? "result" ≠ none ∨ v.get? "error" ≠ none)

def Answers (id : UInt64) (v : Value) : Prop := IsResponse v ∧ v.get? "id" = some (.num (.posInt id))

/-- Requests are completed at most once and only by their answers, until the channel has closed; then
none of them is left to wait for one. -/
structure Correlated (s : State) : Prop where
  answered : ∀ n v payload, .answered v payload ∈ s.completions n → Answers (idOf n) v
  kept : ∀ n, .dropped ∉ s.completions n
  closed : ∀ n, .closed ∈ s.completions n → s.drained = true
  once : ∀ n, (s.completions n).length ≤ 1
  unblocked : s.drained = true → ∀ n, s.phase n = .awaiting → s.completions n ≠ []

/-- The request whose id a message bears. -/
def addressee (s : State) (v : Value) : Option Nat :=
  ((readResponse v).bind JsonRpcResponse.requestId).bind s.pending

/-- What meets the id of a waiting request is a response, no id comes round while its request waits, and
what enters the map after the reader is gone cannot be sent. -/
def Careful (s : State) : Action → Prop
  | .dispatch => ∀ v rest n, s.incoming = v :: rest → addressee s v = some n → (s.phase n).waits = true → IsResponse v
  | .insert n => ∀ m, s.pending (idOf n) = some m → (s.phase m).waits = false
  | .clear n => ∀ m, s.pending (idOf n) = some m → m = n ∨ (s.phase m).waits = false
  | .send n outcome =>
    s.drained = true → s.transport.send s.closed outcome = some (.ok ()) → s.pending (idOf n) ≠ some n
  | _ => True

/-- What a step can do. -/
inductive Step (s : State) : Action → State → Prop
  | request : Step s .request { setPhase s s.calls .inserting with calls := s.calls + 1 }
  | insert {n} (hp : s.phase n = .inserting) : Step s (.insert n) (insert s n)
  | sent {n outcome} (hp : s.phase n = .sending) (hsend : s.transport.send s.closed outcome = some (.ok ())) :
      Step s (.send n outcome) (setPhase s n .awaiting)
  | failed {n outcome e} (hp : s.phase n = .sending)
      (hsend : s.transport.send s.closed outcome = some (.error e)) :
      Step s (.send n outcome) (setPhase s n (.clearing e))
  | clear {n e} (hp : s.phase n = .clearing e) :
      Step s (.clear n) (settle (setPhase s n (.returned (.error e))) (idOf n) .dropped)
  | await {n c cs} (hp : s.phase n = .awaiting) (hc : s.completions n = c :: cs) :
      Step s (.await n) (setPhase s n (.returned c.result))
  | cancel {n} (hp : s.phase n ≠ .fresh) : Step s (.cancel n) (setPhase s n .cancelled)
  | wire (a) (ha : Careful s a) (transport : Transport) (incoming : List Value) (closed : Bool) :
      Step s a { s with transport := transport, incoming := incoming, closed := closed }
  | dispatch {v rest} (hv : s.incoming = v :: rest) : Step s .dispatch (dispatchIncoming { s with incoming := rest } v)
  | drain : Step s .drain (drain s)

theorem step_inv {s t : State} {a : Action} (h : step s a = some t) : Step s a t := by
  cases a with
  | request =>
    cases h
    exact .request
  | insert n =>
    simp only [step] at h
    split at h
    · cases h
      exact .insert ‹_›
    · cases h
  | send n outcome =>
    simp only [step] at h
    split at h
    · cases h
      exact .sent ‹_› ‹_›
    · cases h
      exact .failed ‹_› ‹_›
    · cases h
  | clear n =>
    simp only [step] at h
    split at h
    · cases h
      exact .clear ‹_›
    · cases h
  | await n =>
    simp only [step] at h
    split at h
    · cases h
      exact .await ‹_› ‹_›
    · cases h
  | cancel n =>
    have hp : s.phase n ≠ .fresh := by
      intro hp
      rw [step, hp] at h
      cases h
    simp only [step] at h
    split at h
    · cases h
      exact .cancel hp
    · cases h
      exact .cancel hp
    · cases h
      exact .cancel hp
    · cases h
      exact .cancel hp
    · cases h
  | endpoint url =>
    simp only [step] at h
    split at h
    · split at h
      · cases h
      · cases h
        exact .wire (.endpoint url) trivial (.sse (some url)) s.incoming s.closed
    · cases h
  | arrive v =>
    simp only [step] at h
    split at h
    · cases h
    · cases h
      exact .wire (.arrive v) trivial s.transport (s.incoming ++ [v]) s.closed
  | close =>
    simp only [step] at h
    split at h
    · cases h
      exact .wire .close trivial s.transport s.incoming true
    · cases h
  | dispatch =>
    simp only [step] at h
    split at h
    · cases h
    · cases h
      exact .dispatch ‹_›
  | drain =>
    simp only [step] at h
    split at h
    · cases h
      exact .drain
    · cases h

section Settling

variable (s : State) (id : UInt64) (c : Completion)

@[simp] theorem settle_phase : (settle s id c).phase = s.phase := by
  rw [settle]
  split <;> rfl

@[simp] theorem settle_drained : (settle s id c).drained = s.drained := by
  rw [settle]
  split <;> rfl

theorem settle_pending : (settle s id c).pending = Function.update s.pending id none := by
  rw [settle]
  split
  next h => rw [← h, Function.update_eq_self]
  next => rfl

theorem settle_completions (n : Nat) :
    (settle s id c).completions n =
      if s.pending id = some n ∧ (s.phase n).waits then s.completions n ++ [c] else s.completions n := by
  rw [settle]
  split
  next h => simp [h]
  next m h =>
    by_cases hn : m = n
    · subst hn
      by_cases hw : (s.phase m).waits = true
      · simp [h, hw]
      · simp [h, hw]
    · have hno : ¬(s.pending id = some n ∧ (s.phase n).waits) := by
        rw [h]
        exact fun hand => hn (Option.some.inj hand.1)
      rw [if_neg hno]
      dsimp only
      split
      · exact Function.update_of_ne (Ne.symm hn) _ _
      · rfl

end Settling

/-- The request has been put into the map. -/
def Phase.registered : Phase → Bool
  | .fresh | .inserting => false
  | _ => true

/-- What a message completes a request with is read from the message, which bears the request's id. -/
def Completion.Fits (drained : Bool) (n : Nat) : Completion → Prop
  | .answered v payload => ∃ r, readResponse v = some r ∧ r.requestId = some (idOf n) ∧ r.payload = payload
  | .closed => drained = true
  | .dropped => True

/-- A sender is in the map, under the id of its request, as long as it is unused and its request waits. -/
structure Inv (s : State) : Prop where
  fresh : ∀ n, s.calls ≤ n → s.phase n = .fresh
  entries : ∀ id n, s.pending id = some n → id = idOf n ∧ s.completions n = []
  unregistered : ∀ n, (s.phase n).registered = false → s.completions n = [] ∧ ∀ id, s.pending id ≠ some n
  waiting : ∀ n, (s.phase n).waits = true → s.completions n = [] → s.pending (idOf n) = some n
  once : ∀ n, (s.completions n).length ≤ 1
  fits : ∀ n, ∀ c ∈ s.completions n, c.Fits s.drained n

theorem inv_fromTransport (transport : Transport) : Inv (fromTransport transport) where
  fresh _ _ := rfl
  entries _ _ h := by cases h
  unregistered _ _ := ⟨rfl, fun _ h => by cases h⟩
  waiting _ h _ := by cases h
  once _ := Nat.zero_le 1
  fits _ _ h := by cases h

section Invariant

variable {s t : State} {a : Action}

/-- One more completion for requests that had none and whose senders are gone from the map. -/
theorem inv_complete (h : Inv s) (taken : Nat → Prop) [DecidablePred taken] {pending : UInt64 → Option Nat}
    {completions : Nat → List Completion} {c : Completion} {drained : Bool}
    (hdrained : s.drained = true → drained = true)
    (hpending : ∀ id n, pending id = some n → s.pending id = some n ∧ ¬taken n)
    (htaken : ∀ n, taken n → s.pending (idOf n) = some n)
    (hkept : ∀ n, (s.phase n).waits = true → ¬taken n → s.pending (idOf n) = some n → pending (idOf n) = some n)
    (hcompletions : ∀ n, completions n = if taken n then s.completions n ++ [c] else s.completions n)
    (hfits : ∀ n, taken n → c.Fits drained n) :
    Inv { s with pending := pending, completions := completions, drained := drained } where
  fresh := h.fresh
  entries id n hn := by
    obtain ⟨hold, hfree⟩ := hpending id n hn
    obtain ⟨hid, hnone⟩ := h.entries id n hold
    refine ⟨hid, ?_⟩
    change completions n = []
    rw [hcompletions, if_neg hfree, hnone]
  unregistered n hn := by
    obtain ⟨hnone, hout⟩ := h.unregistered n hn
    refine ⟨?_, fun id hid => hout id (hpending id n hid).1⟩
    change completions n = []
    rw [hcompletions, if_neg fun ht => hout _ (htaken n ht), hnone]
  waiting n hw hc := by
    change completions n = [] at hc
    by_cases ht : taken n
    · rw [hcompletions, if_pos ht] at hc
      exact absurd hc (by simp)
    · rw [hcompletions, if_neg ht] at hc
      exact hkept n hw ht (h.waiting n hw hc)
  once n := by
    change (completions n).length ≤ 1
    rw [hcompletions]
    split
    next ht => rw [(h.entries _ n (htaken n ht)).2]; exact Nat.le_refl 1
    next => exact h.once n
  fits n x hx := by
    change x ∈ completions n at hx
    have hold : x ∈ s.completions n → x.Fits drained n := by
      intro hmem
      have hfit := h.fits n x hmem
      cases x with
      | answered v payload => exact hfit
      | closed => exact hdrained hfit
      | dropped => trivial
    rw [hcompletions] at hx
    split at hx
    next ht =>
      rcases List.mem_append.mp hx with hx | hx
      · exact hold hx
      · cases List.mem_singleton.mp hx
        exact hfits n ht
    next => exact hold hx

theorem inv_settle (h : Inv s) {id : UInt64} {c : Completion}
    (hfits : ∀ n, s.pending id = some n → c.Fits s.drained n) : Inv (settle s id c) := by
  have hsettle : settle s id c =
      { s with pending := (settle s id c).pending, completions := (settle s id c).completions } := by
    rw [settle]
    split <;> rfl
  rw [hsettle]
  refine inv_complete h (fun n => s.pending id = some n ∧ (s.phase n).waits = true) (c := c) (fun hd => hd)
    ?_ ?_ ?_ (settle_completions s id c) fun n ht => hfits n ht.1
  · intro i n hn
    rw [settle_pending] at hn
    by_cases hi : i = id
    · rw [hi, Function.update_self] at hn
      cases hn
    · rw [Function.update_of_ne hi] at hn
      refine ⟨hn, fun ht => hi ?_⟩
      rw [(h.entries i n hn).1, (h.entries id n ht.1).1]
  · intro n ht
    rw [← (h.entries id n ht.1).1]
    exact ht.1
  · intro n hw ht hn
    have hi : idOf n ≠ id := fun hi => ht ⟨hi ▸ hn, hw⟩
    rw [settle_pending, Function.update_of_ne hi, hn]

theorem inv_drain (h : Inv s) : Inv (drain s) := by
  refine inv_complete h (fun n => s.pending (idOf n) = some n ∧ (s.phase n).waits = true) (fun _ => rfl)
    (fun _ _ hn => by cases hn) (fun n ht => ht.1) ?_ (fun n => rfl) fun n _ => rfl
  intro n hw ht hn
  exact absurd ⟨hn, hw⟩ ht

/-- A request that is past its number goes on. -/
theorem inv_setPhase (h : Inv s) {n : Nat} {p : Phase} (hstarted : s.phase n ≠ .fresh) (hp : p.registered = true)
    (hwaits : p.waits = true → (s.phase n).waits = true) : Inv (setPhase s n p) := by
  refine ⟨fun m hm => ?_, h.entries, fun m hm => ?_, fun m hm hc => ?_, h.once, h.fits⟩
  · have hne : m ≠ n := by
      rintro rfl
      exact hstarted (h.fresh m hm)
    exact (Function.update_of_ne hne _ _).trans (h.fresh m hm)
  · change (Function.update s.phase n p m).registered = false at hm
    by_cases hne : m = n
    · rw [hne, Function.update_self, hp] at hm
      cases hm
    · rw [Function.update_of_ne hne] at hm
      exact h.unregistered m hm
  · change (Function.update s.phase n p m).waits = true at hm
    refine h.waiting m ?_ hc
    by_cases hne : m = n
    · rw [hne, Function.update_self] at hm
      rw [hne]
      exact hwaits hm
    · rwa [Function.update_of_ne hne] at hm

theorem inv_request (h : Inv s) : Inv { setPhase s s.calls .inserting with calls := s.calls + 1 } := by
  have hold := h.fresh s.calls (Nat.le_refl _)
  have hnew := h.unregistered s.calls (by rw [hold]; rfl)
  refine ⟨fun m hm => ?_, h.entries, fun m hm => ?_, fun m hm hc => ?_, h.once, h.fits⟩
  · change s.calls + 1 ≤ m at hm
    exact (Function.update_of_ne (by omega) _ _).trans (h.fresh m (by omega))
  · by_cases hne : m = s.calls
    · rw [hne]
      exact hnew
    · refine h.unregistered m ?_
      rwa [← Function.update_of_ne hne .inserting s.phase]
  · change (Function.update s.phase s.calls .inserting m).waits = true at hm
    by_cases hne : m = s.calls
    · rw [hne, Function.update_self] at hm
      cases hm
    · rw [Function.update_of_ne hne] at hm
      exact h.waiting m hm hc

theorem inv_insert (h : Inv s) {n : Nat} (hp : s.phase n = .inserting) : Inv (insert s n) := by
  have hs : Inv (settle s (idOf n) .dropped) := inv_settle h fun _ _ => trivial
  have hfree : (settle s (idOf n) .dropped).pending (idOf n) = none := by
    rw [settle_pending, Function.update_self]
  have hphase : (settle s (idOf n) .dropped).phase n = .inserting := by rw [settle_phase, hp]
  rw [insert]
  generalize settle s (idOf n) .dropped = u at hs hfree hphase
  refine ⟨fun m hm => ?_, fun i m hi => ?_, fun m hm => ?_, fun m hm hc => ?_, hs.once, hs.fits⟩
  · have hne : m ≠ n := by
      rintro rfl
      rw [hs.fresh m hm] at hphase
      cases hphase
    exact (Function.update_of_ne hne _ _).trans (hs.fresh m hm)
  · change Function.update u.pending (idOf n) (some n) i = some m at hi
    by_cases hid : i = idOf n
    · rw [hid, Function.update_self] at hi
      cases hi
      exact ⟨hid, (hs.unregistered n (by rw [hphase]; rfl)).1⟩
    · rw [Function.update_of_ne hid] at hi
      exact hs.entries i m hi
  · change (Function.update u.phase n .sending m).registered = false at hm
    by_cases hne : m = n
    · rw [hne, Function.update_self] at hm
      cases hm
    · rw [Function.update_of_ne hne] at hm
      obtain ⟨hnone, hout⟩ := hs.unregistered m hm
      refine ⟨hnone, fun i hi => ?_⟩
      change Function.update u.pending (idOf n) (some n) i = some m at hi
      by_cases hid : i = idOf n
      · rw [hid, Function.update_self] at hi
        exact hne (Option.some.inj hi).symm
      · rw [Function.update_of_ne hid] at hi
        exact hout i hi
  · change (Function.update u.phase n .sending m).waits = true at hm
    change Function.update u.pending (idOf n) (some n) (idOf m) = some m
    by_cases hne : m = n
    · rw [hne, Function.update_self]
    · rw [Function.update_of_ne hne] at hm
      have hentry := hs.waiting m hm hc
      have hid : idOf m ≠ idOf n := by
        intro hid
        rw [hid, hfree] at hentry
        cases hentry
      rw [Function.update_of_ne hid, hentry]

theorem inv_dispatchIncoming (h : Inv s) (v : Value) : Inv (dispatchIncoming s v) := by
  rw [dispatchIncoming]
  split
  · exact h
  · rename_i r hr
    split
    · exact h
    · rename_i id hid
      refine inv_settle h fun n hn => ⟨r, hr, ?_, rfl⟩
      rw [hid, (h.entries id n hn).1]

theorem inv_step (s : State) (a : Action) (t : State) (h : Inv s) (hstep : step s a = some t) : Inv t := by
  cases step_inv hstep with
  | request => exact inv_request h
  | insert hp => exact inv_insert h hp
  | sent hp _ => exact inv_setPhase h (by rw [hp]; simp) rfl fun _ => by rw [hp]; rfl
  | failed hp _ => exact inv_setPhase h (by rw [hp]; simp) rfl fun _ => by rw [hp]; rfl
  | clear hp =>
    refine inv_settle ?_ fun _ _ => trivial
    exact inv_setPhase h (by rw [hp]; simp) rfl fun hw => by cases hw
  | await hp _ => exact inv_setPhase h (by rw [hp]; simp) rfl fun hw => by cases hw
  | cancel hp => exact inv_setPhase h hp rfl fun hw => by cases hw
  | wire => exact ⟨h.fresh, h.entries, h.unregistered, h.waiting, h.once, h.fits⟩
  | dispatch =>
    refine inv_dispatchIncoming ?_ _
    exact ⟨h.fresh, h.entries, h.unregistered, h.waiting, h.once, h.fits⟩
  | drain => exact inv_drain h

end Invariant

/-- A request was completed as it should be. -/
def Completion.Sound : Completion → Prop
  | .answered v _ => IsResponse v
  | .closed => True
  | .dropped => False

def Sound (s : State) : Prop := ∀ n, ∀ c ∈ s.completions n, c.Sound

def Unblocked (s : State) : Prop := s.drained = true → ∀ n, s.phase n = .awaiting → s.completions n ≠ []

theorem of_field {v w : Option Value} (h : field some v = some w) {x : Value} (hw : w = some x) : v = some x := by
  subst hw
  cases v with
  | none => cases h
  | some v =>
    cases v with
    | null => cases h
    | _ =>
      cases h
      rfl

theorem answers_of_isResponse {v : Value} {r : JsonRpcResponse} {id : UInt64} (hv : IsResponse v)
    (hr : readResponse v = some r) (hid : r.requestId = some id) : Answers id v := by
  refine ⟨hv, ?_⟩
  cases v with
  | obj fs =>
    simp only [readResponse, responseFields, Option.bind_eq_bind, Option.bind_eq_some_iff, Option.pure_def] at hr
    obtain ⟨_, _, i, hi, _, _, _, _, hr⟩ := hr
    cases hr
    obtain ⟨x, hx, hnum⟩ := Option.bind_eq_some_iff.mp hid
    have hfind := of_field hi hx
    unfold asU64 at hnum
    split at hnum
    · cases hnum
      exact hfind
    · cases hnum
  | _ =>
    rcases hv.2 with hres | herr
    · exact absurd rfl hres
    · exact absurd rfl herr

section Correlation

variable {s t : State} {a : Action}

theorem correlated_iff (h : Inv s) : Correlated s ↔ Sound s ∧ Unblocked s := by
  constructor
  · intro hc
    refine ⟨fun n c hmem => ?_, hc.unblocked⟩
    cases c with
    | answered v payload => exact (hc.answered n v payload hmem).1
    | closed => trivial
    | dropped => exact hc.kept n hmem
  · rintro ⟨hsound, hun⟩
    refine ⟨fun n v payload hmem => ?_, fun n => hsound n _, fun n hmem => h.fits n _ hmem, h.once, hun⟩
    obtain ⟨r, hr, hid, -⟩ := h.fits n _ hmem
    exact answers_of_isResponse (hsound n _ hmem) hr hid

theorem sound_settle {id : UInt64} {c : Completion} (hs : Sound s) :
    Sound (settle s id c) ↔ ∀ n, s.pending id = some n → (s.phase n).waits = true → c.Sound := by
  constructor
  · intro h n hn hw
    refine h n c ?_
    rw [settle_completions, if_pos ⟨hn, hw⟩]
    exact List.mem_append_right _ (List.mem_singleton.mpr rfl)
  · intro h n x hx
    rw [settle_completions] at hx
    split at hx
    next ht =>
      rcases List.mem_append.mp hx with hx | hx
      · exact hs n x hx
      · cases List.mem_singleton.mp hx
        exact h n ht.1 ht.2
    next => exact hs n x hx

theorem unblocked_settle (h : Unblocked s) (id : UInt64) (c : Completion) : Unblocked (settle s id c) := by
  intro hd n hn
  rw [settle_drained] at hd
  rw [settle_phase] at hn
  rw [settle_completions]
  split
  · simp
  · exact h hd n hn

theorem unblocked_setPhase (h : Unblocked s) (n : Nat) (p : Phase) :
    Unblocked (setPhase s n p) ↔ (s.drained = true → p = .awaiting → s.completions n ≠ []) := by
  constructor
  · intro hu hd hp
    refine hu hd n ?_
    rw [setPhase, hp]
    exact Function.update_self _ _ _
  · intro hu hd m hm
    change Function.update s.phase n p m = .awaiting at hm
    change s.completions m ≠ []
    by_cases hne : m = n
    · rw [hne, Function.update_self] at hm
      rw [hne]
      exact hu hd hm
    · rw [Function.update_of_ne hne] at hm
      exact h hd m hm

/-- A phase in which nothing is waited for blocks nobody. -/
theorem unblocked_setPhase_of_ne (h : Unblocked s) (n : Nat) {p : Phase} (hp : p ≠ .awaiting) :
    Unblocked (setPhase s n p) :=
  (unblocked_setPhase h n p).mpr fun _ he => absurd he hp

theorem correlated_insert (hs : Sound s) (hu : Unblocked s) (n : Nat) :
    Sound (insert s n) ∧ Unblocked (insert s n) ↔ Careful s (.insert n) := by
  have hun : Unblocked (insert s n) :=
    unblocked_setPhase_of_ne (s := { settle s (idOf n) .dropped with pending := _ })
      (unblocked_settle hu (idOf n) .dropped) n (by simp)
  rw [and_iff_left hun]
  change Sound (settle s (idOf n) .dropped) ↔ _
  rw [sound_settle hs]
  refine forall_congr' fun m => forall_congr' fun _ => ?_
  change ((s.phase m).waits = true → False) ↔ _
  simp

theorem correlated_sent (h : Inv s) (hs : Sound s) (hu : Unblocked s) {n : Nat} {outcome : Except McpError Unit}
    (hp : s.phase n = .sending) (hsend : s.transport.send s.closed outcome = some (.ok ())) :
    Sound (setPhase s n .awaiting) ∧ Unblocked (setPhase s n .awaiting) ↔ Careful s (.send n outcome) := by
  rw [unblocked_setPhase hu]
  constructor
  · rintro ⟨-, hne⟩ hd - hentry
    exact hne hd rfl (h.entries _ n hentry).2
  · intro hc
    refine ⟨hs, fun hd _ hnone => ?_⟩
    have hw : (s.phase n).waits = true := by rw [hp]; rfl
    exact hc hd hsend (h.waiting n hw hnone)

theorem correlated_clear (hs : Sound s) (hu : Unblocked s) (n : Nat) (e : McpError) :
    Sound (settle (setPhase s n (.returned (.error e))) (idOf n) .dropped) ∧
      Unblocked (settle (setPhase s n (.returned (.error e))) (idOf n) .dropped) ↔ Careful s (.clear n) := by
  have hsound : Sound (setPhase s n (.returned (.error e))) := hs
  have hun : Unblocked (setPhase s n (.returned (.error e))) := unblocked_setPhase_of_ne hu n (by simp)
  rw [and_iff_left (unblocked_settle hun _ _), sound_settle hsound]
  refine forall_congr' fun m => forall_congr' fun _ => ?_
  change ((Function.update s.phase n _ m).waits = true → False) ↔ _
  by_cases hne : m = n
  · rw [hne, Function.update_self]
    exact iff_of_true (fun hw => by cases hw) (.inl rfl)
  · rw [Function.update_of_ne hne]
    simp [hne]

theorem correlated_dispatch (hs : Sound s) (hu : Unblocked s) {v : Value} {rest : List Value}
    (hv : s.incoming = v :: rest) :
    Sound (dispatchIncoming { s with incoming := rest } v) ∧
      Unblocked (dispatchIncoming { s with incoming := rest } v) ↔ Careful s .dispatch := by
  have hcareful : Careful s .dispatch ↔
      ∀ n, addressee s v = some n → (s.phase n).waits = true → IsResponse v := by
    constructor
    · exact fun hc n => hc v rest n hv
    · intro hc v' rest' n hv'
      cases hv.symm.trans hv'
      exact hc n
  rw [hcareful, dispatchIncoming, addressee]
  split
  next hr =>
    rw [hr]
    exact iff_of_true ⟨hs, hu⟩ fun _ hn => by cases hn
  next r hr =>
    rw [hr, Option.bind_some]
    split
    next hid =>
      rw [hid]
      exact iff_of_true ⟨hs, hu⟩ fun _ hn => by cases hn
    next id hid =>
      rw [hid, Option.bind_some, and_iff_left (unblocked_settle (s := { s with incoming := rest }) hu _ _)]
      exact sound_settle (s := { s with incoming := rest }) hs

theorem correlated_drain (h : Inv s) (hs : Sound s) : Sound (drain s) ∧ Unblocked (drain s) := by
  have hcompletions (n : Nat) : (drain s).completions n =
      if s.pending (idOf n) = some n ∧ (s.phase n).waits then s.completions n ++ [.closed] else s.completions n := rfl
  refine ⟨fun n c hc => ?_, fun _ n hn => ?_⟩
  · rw [hcompletions] at hc
    split at hc
    · rcases List.mem_append.mp hc with hc | hc
      · exact hs n c hc
      · cases List.mem_singleton.mp hc
        trivial
    · exact hs n c hc
  · change s.phase n = .awaiting at hn
    have hw : (s.phase n).waits = true := by rw [hn]; rfl
    rw [hcompletions]
    split
    · simp
    · rename_i hfree
      exact fun hnone => hfree ⟨h.waiting n hw hnone, hw⟩

theorem correlated_step (s : State) (a : Action) (t : State) (h : Inv s) (hc : Correlated s)
    (hstep : step s a = some t) : Correlated t ↔ Careful s a := by
  obtain ⟨hs, hu⟩ := (correlated_iff h).mp hc
  rw [correlated_iff (inv_step s a t h hstep)]
  cases step_inv hstep with
  | request => exact iff_of_true ⟨hs, unblocked_setPhase_of_ne hu s.calls (by simp)⟩ trivial
  | insert _ => exact correlated_insert hs hu _
  | sent hp hsend => exact correlated_sent h hs hu hp hsend
  | failed _ hsend =>
    refine iff_of_true ⟨hs, unblocked_setPhase_of_ne hu _ (by simp)⟩ fun _ hok => ?_
    rw [hsend] at hok
    cases hok
  | clear _ => exact correlated_clear hs hu _ _
  | await _ _ => exact iff_of_true ⟨hs, unblocked_setPhase_of_ne hu _ (by simp)⟩ trivial
  | cancel _ => exact iff_of_true ⟨hs, unblocked_setPhase_of_ne hu _ (by simp)⟩ trivial
  | wire _ ha => exact iff_of_true ⟨hs, hu⟩ ha
  | dispatch hv => exact correlated_dispatch hs hu hv
  | drain => exact iff_of_true (correlated_drain h hs) trivial

end Correlation

theorem correlated_fromTransport (transport : Transport) : Correlated (fromTransport transport) :=
  (correlated_iff (inv_fromTransport transport)).mpr ⟨fun _ _ h => (by cases h), fun h => by cases h⟩

/-- What a request returns without an error it has from a message. -/
def FromMessages (s : State) : Prop :=
  ∀ n v, s.phase n = .returned (.ok v) → ∃ m, .answered m (.ok v) ∈ s.completions n

section Returning

variable {s t : State}

theorem fromMessages_settle (h : FromMessages s) (id : UInt64) (c : Completion) : FromMessages (settle s id c) := by
  intro n v hn
  rw [settle_phase] at hn
  obtain ⟨m, hm⟩ := h n v hn
  refine ⟨m, ?_⟩
  rw [settle_completions]
  split
  · exact List.mem_append_left _ hm
  · exact hm

theorem fromMessages_setPhase (h : FromMessages s) (n : Nat) (p : Phase)
    (hp : ∀ v, p = .returned (.ok v) → ∃ m, .answered m (.ok v) ∈ s.completions n) :
    FromMessages (setPhase s n p) := by
  intro k v hk
  change Function.update s.phase n p k = _ at hk
  by_cases hne : k = n
  · rw [hne, Function.update_self] at hk
    rw [hne]
    exact hp v hk
  · rw [Function.update_of_ne hne] at hk
    exact h k v hk

theorem fromMessages_drain (h : FromMessages s) : FromMessages (drain s) := by
  intro n v hn
  obtain ⟨m, hm⟩ := h n v hn
  refine ⟨m, ?_⟩
  rw [drain]
  dsimp only
  split
  · exact List.mem_append_left _ hm
  · exact hm

theorem fromMessages_step (s : State) (a : Action) (t : State) (h : FromMessages s) (hstep : step s a = some t) :
    FromMessages t := by
  cases step_inv hstep with
  | request => exact fromMessages_setPhase h s.calls .inserting fun _ hp => by cases hp
  | @insert n _ =>
    exact fromMessages_setPhase (s := { settle s (idOf n) .dropped with pending := _ })
      (fromMessages_settle h (idOf n) .dropped) n .sending fun _ hp => by cases hp
  | sent _ _ => exact fromMessages_setPhase h _ _ fun _ hp => by cases hp
  | failed _ _ => exact fromMessages_setPhase h _ _ fun _ hp => by cases hp
  | clear _ =>
    refine fromMessages_settle ?_ _ _
    exact fromMessages_setPhase h _ _ fun _ hp => by cases hp
  | @await n c cs _ hc =>
    refine fromMessages_setPhase h n _ fun v hp => ?_
    rw [Phase.returned.injEq] at hp
    rw [hc]
    cases c with
    | answered m payload =>
      cases hp
      exact ⟨m, List.mem_cons_self⟩
    | closed => cases hp
    | dropped => cases hp
  | cancel _ => exact fromMessages_setPhase h _ _ fun _ hp => by cases hp
  | wire => exact h
  | @dispatch v rest _ =>
    rw [dispatchIncoming]
    split
    · exact h
    · split
      · exact h
      · exact fromMessages_settle (s := { s with incoming := rest }) h _ _
  | drain => exact fromMessages_drain h

end Returning

/-- In every run a request returns a value only from a message that bears its id and carries the value. -/
theorem ok_of_message {transport : Transport} {as : List Action} {t : State}
    (h : run step (fromTransport transport) as = some t) {n : Nat} {v : Value} (hn : t.phase n = .returned (.ok v)) :
    ∃ m r, readResponse m = some r ∧ r.requestId = some (idOf n) ∧ r.payload = .ok v := by
  have hfrom : FromMessages t := run_invariant fromMessages_step (fun _ _ hn => by cases hn) h
  have hinv : Inv t := run_invariant inv_step (inv_fromTransport transport) h
  obtain ⟨m, hm⟩ := hfrom n v hn
  exact ⟨m, hinv.fits n _ hm⟩

/-- After the drain a request that still waits has what it needs to return. -/
theorem Correlated.await {s : State} (h : Correlated s) (hd : s.drained = true) {n : Nat} (hp : s.phase n = .awaiting) :
    ∃ c : Completion, step s (.await n) = some (setPhase s n (.returned c.result)) := by
  obtain ⟨c, cs, hc⟩ := List.exists_cons_of_ne_nil (h.unblocked hd n hp)
  refine ⟨c, ?_⟩
  rw [step, hp, hc]

/-- In every run each state has its requests completed by their own answers, at most once, and none left
waiting after the channel has closed, exactly when every step is careful. -/
theorem correlated_iff_careful (transport : Transport) (as : List Action) (t : State)
    (h : run step (fromTransport transport) as = some t) :
    (∀ pre post u, as = pre ++ post → run step (fromTransport transport) pre = some u → Correlated u) ↔
      Meets step Careful (fromTransport transport) as :=
  forall_prefix_iff_meets inv_step correlated_step (inv_fromTransport transport)
    (correlated_fromTransport transport) h

/-- The server answers the first request. -/
def answer : Value :=
  .obj [("jsonrpc", .str "2.0"), ("id", .num (.posInt 1)), ("result", .obj [("tools", .arr [])])]

def answered : List Action := [.request, .insert 0, .send 0 (.ok ()), .arrive answer, .dispatch, .await 0]

theorem answered_correlated :
    ∃ t, run step (fromTransport .stdio) answered = some t ∧
      t.phase 0 = .returned (.ok (.obj [("tools", .arr [])])) ∧ Correlated t := by
  have hm : Meets step Careful (fromTransport .stdio) answered := by
    refine ⟨trivial, fun u hu => ?_⟩
    cases hu
    refine ⟨fun _ hm => (by cases hm), fun u hu => ?_⟩
    cases hu
    refine ⟨fun hd => (by cases hd), fun u hu => ?_⟩
    cases hu
    refine ⟨trivial, fun u hu => ?_⟩
    cases hu
    refine ⟨fun v rest n hv _ _ => ?_, fun u hu => ?_⟩
    · cases hv
      exact ⟨rfl, .inl (Option.some_ne_none _)⟩
    · cases hu
      exact ⟨trivial, fun _ _ => trivial⟩
  refine ⟨_, rfl, rfl, ?_⟩
  exact (correlated_iff_careful .stdio answered _ rfl).mpr hm answered [] _ (List.append_nil _).symm rfl

/-- The server asks for something on its own, under the id of the request that waits. -/
def sampling : Value :=
  .obj [("jsonrpc", .str "2.0"), ("id", .num (.posInt 1)), ("method", .str "sampling/createMessage"),
    ("params", .obj [])]

/-- The server's request completes the client's with `null`; and a request made after the stream has
ended, whose message can still be posted, waits with nobody left to answer it. -/
theorem server_request_completes :
    (∃ t, run step (fromTransport .stdio)
        [.request, .insert 0, .send 0 (.ok ()), .arrive sampling, .dispatch, .await 0] = some t ∧
      t.phase 0 = .returned (.ok .null) ∧ ¬Correlated t) ∧
    ∃ t, run step (fromTransport (.sse none))
        [.endpoint "http://host/messages", .close, .drain, .request, .insert 0, .send 0 (.ok ())] = some t ∧
      t.phase 0 = .awaiting ∧ step t (.await 0) = none ∧ ¬Correlated t := by
  refine ⟨⟨_, rfl, rfl, fun hc => ?_⟩, ⟨_, rfl, rfl, rfl, fun hc => ?_⟩⟩
  · have hmem := hc.answered 0 sampling (.ok .null) (List.mem_singleton.mpr rfl)
    cases hmem.1.1
  · exact hc.unblocked rfl 0 rfl rfl

end FerrisScope.McpRequests
