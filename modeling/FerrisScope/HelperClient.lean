import FerrisScope.HelperProtocol
import FerrisScope.LabelledRuns

/-!
# The client of the privileged helper

One stream carries framed replies and bare status bytes. The client writes a request and reads
until its frame is complete, or, for a listener, polls for one byte; the helper answers
requests in order and its bytes arrive late and piecemeal. Timeouts, errors and a closed stream mark
the client broken on the framed path. On the listener path, and when the task that runs an
operation is aborted, the client gives up without a mark.

Every request is numbered and every byte remembers the request it replies to.
-/

namespace FerrisScope.HelperClient
open LabelledRuns LengthFrames LoopbackAddresses HelperProtocol

/-- The JSON text of responses. -/
structure Codec where
  encode : Response → List UInt8
  decode : List UInt8 → Option Response

/-- A byte of the stream, with the descriptor attached to it. -/
structure Cell where
  byte : UInt8
  fd : Option Nat
  replyTo : Nat
  deriving DecidableEq, Repr

/-- What the client is doing. -/
inductive Phase where
  | idle
  | reading (n : Nat) (got : List UInt8)
  | binding (n : Nat)
  deriving DecidableEq, Repr

/-- The helper's end of a `bindListener`: nothing can be sent, a failure, or a listener. -/
inductive BindAnswer where
  | unsent
  | failure
  | listener (fd : Nat)
  deriving DecidableEq, Repr

inductive Answer where
  | response (r : Response)
  | bind (a : BindAnswer)
  deriving DecidableEq, Repr

inductive RecvListener where
  | listener (fd : Nat)
  | failure
  | noDescriptor
  deriving DecidableEq, Repr

/-- What one received byte means to `bind_listener`. -/
def tryRecvListener (c : Cell) : RecvListener :=
  if c.byte = statusOk then
    match c.fd with
    | some fd => .listener fd
    | none => .noDescriptor
  else .failure

/-- `inbound` are the requests the helper has yet to answer, `outbox` the bytes of its answer it has
yet to send, `wire` those sent and unread. A write that failed part of the way leaves the stream
to the helper `torn`: no later request is understood. The last four fields are history: what the
helper answered, the bytes read, the payloads parsed and the listeners adopted. -/
structure State where
  phase : Phase
  broken : Bool
  requests : Nat
  inbound : List (Nat × Request)
  outbox : List Cell
  wire : List Cell
  torn : Bool
  closed : Bool
  answered : List (Nat × Answer)
  consumed : List (Nat × Cell)
  replies : List (Nat × List UInt8)
  listeners : List (Nat × Nat)
  deriving DecidableEq, Repr

def initialState : State where
  phase := .idle
  broken := false
  requests := 0
  inbound := []
  outbox := []
  wire := []
  torn := false
  closed := false
  answered := []
  consumed := []
  replies := []
  listeners := []

inductive Action where
  | request (req : Request)
  | requestWriteFails (torn : Bool)
  | read
  | readEof
  | timeout
  | bindListener (ip : Ipv4Addr) (port : UInt16)
  | bindWriteFails (torn : Bool)
  | recv
  | recvEof
  | recvError
  | deadline
  | abort
  | answer (response : Response)
  | answerBind (answer : BindAnswer)
  | deliver
  | close
  deriving DecidableEq, Repr

/-- Write a request whole. -/
def post (s : State) (req : Request) (phase : Phase) : State := { s with
  phase := phase
  requests := s.requests + 1
  inbound := if s.closed ∨ s.torn then s.inbound else s.inbound ++ [(s.requests, req)] }

def markBroken (s : State) : State := { s with phase := .idle, broken := true }

/-- `read_message` after one more byte. -/
def received (K : Codec) (s : State) (n : Nat) (got : List UInt8) : State :=
  match readFrame maxFrame got with
  | .more => { s with phase := .reading n got }
  | .tooLarge _ => markBroken s
  | .payload bytes _ =>
    match K.decode bytes with
    | some _ => { s with phase := .idle, replies := s.replies ++ [(n, bytes)] }
    | none => markBroken s

def consume (s : State) (n : Nat) (c : Cell) (wire : List Cell) : State := { s with
  wire := wire
  consumed := s.consumed ++ [(n, c)] }

def adopt (s : State) (n : Nat) (c : Cell) : State :=
  match tryRecvListener c with
  | .listener fd => { s with phase := .idle, listeners := s.listeners ++ [(n, fd)] }
  | .failure => { s with phase := .idle }
  | .noDescriptor => { s with phase := .idle }

def closeStream (s : State) : State := { s with
  closed := true
  inbound := []
  outbox := [] }

/-- A frame of the helper. -/
def cells (n : Nat) (bytes : List UInt8) : List Cell := bytes.map fun b => ⟨b, none, n⟩

def bindCells (n : Nat) : BindAnswer → List Cell
  | .unsent => []
  | .failure => [⟨statusErr, none, n⟩]
  | .listener fd => [⟨statusOk, some fd, n⟩]

def answerRequest (K : Codec) (s : State) (n : Nat) (inbound : List (Nat × Request)) (r : Response) : State :=
  if (K.encode r).length ≤ maxFrame then { s with
    inbound := inbound
    outbox := cells n (frame (K.encode r))
    answered := s.answered ++ [(n, .response r)] }
  else closeStream s

def answerListener (s : State) (n : Nat) (inbound : List (Nat × Request)) (a : BindAnswer) : State := { s with
  inbound := inbound
  outbox := bindCells n a
  answered := s.answered ++ [(n, .bind a)] }

def step (K : Codec) (s : State) : Action → Option State
  | .request req =>
    if s.phase = .idle ∧ req.isBind = false then some (post s req (.reading s.requests [])) else none
  | .requestWriteFails torn =>
    if s.phase = .idle then some (markBroken { s with torn := s.torn || torn }) else none
  | .read =>
    match s.phase, s.wire with
    | .reading n got, c :: wire => some (received K (consume s n c wire) n (got ++ [c.byte]))
    | _, _ => none
  | .readEof =>
    match s.phase with
    | .reading _ _ => if s.wire = [] ∧ s.closed then some (markBroken s) else none
    | _ => none
  | .timeout =>
    match s.phase with
    | .reading _ _ => some (markBroken s)
    | _ => none
  | .bindListener ip port =>
    if s.phase = .idle then some (post s (.bindListener ip port) (.binding s.requests)) else none
  | .bindWriteFails torn =>
    if s.phase = .idle then some { s with torn := s.torn || torn } else none
  | .recv =>
    match s.phase, s.wire with
    | .binding n, c :: wire => some (adopt (consume s n c wire) n c)
    | _, _ => none
  | .recvEof =>
    match s.phase with
    | .binding _ => if s.wire = [] ∧ s.closed then some { s with phase := .idle } else none
    | _ => none
  | .recvError =>
    match s.phase with
    | .binding _ => some { s with phase := .idle }
    | _ => none
  | .deadline =>
    match s.phase with
    | .binding _ => if s.wire = [] then some { s with phase := .idle } else none
    | _ => none
  | .abort => if s.phase = .idle then none else some { s with phase := .idle }
  | .answer r =>
    match s.inbound with
    | (n, req) :: inbound =>
      if s.outbox = [] ∧ req.isBind = false then some (answerRequest K s n inbound r) else none
    | [] => none
  | .answerBind a =>
    match s.inbound with
    | (n, req) :: inbound =>
      if s.outbox = [] ∧ req.isBind then some (answerListener s n inbound a) else none
    | [] => none
  | .deliver =>
    match s.outbox with
    | c :: outbox => some { s with outbox := outbox, wire := s.wire ++ [c] }
    | [] => none
  | .close => some (closeStream s)

/-- Nothing of a reply is unread or still to be sent. -/
def Quiet (s : State) : Prop := s.inbound = [] ∧ s.outbox = [] ∧ s.wire = []

/-- Unless the client is broken: between operations nothing is outstanding, every byte read so far
replied to the request it was read for, and what was parsed or adopted is the answer to it. -/
def InStep (K : Codec) (s : State) : Prop :=
  s.broken = false →
    (s.phase = .idle → Quiet s) ∧
    (∀ x ∈ s.consumed, x.2.replyTo = x.1) ∧
    (∀ x ∈ s.replies, ∃ r, (x.1, Answer.response r) ∈ s.answered ∧ x.2 = K.encode r) ∧
    ∀ x ∈ s.listeners, (x.1, Answer.bind (.listener x.2)) ∈ s.answered

/-- A client that is not broken gives up on a listener, or is aborted, only with nothing
outstanding. -/
def GivesUpQuiet (s : State) : Action → Prop
  | .recvError | .deadline | .abort => s.broken = false → Quiet s
  | _ => True

/-! ### What is outstanding belongs to the operation under way -/

/-- The request `n` is not answered, or will never be. -/
structure Unanswered (s : State) (n : Nat) (isBind : Bool) : Prop where
  inbound : s.inbound = [] ∨ ∃ req, s.inbound = [(n, req)] ∧ req.isBind = isBind
  outbox : s.outbox = []
  wire : s.wire = []

/-- The answer to `n` is on its way, `got` of it read. -/
structure Arriving (K : Codec) (s : State) (n : Nat) (got : List UInt8) (r : Response) : Prop where
  inbound : s.inbound = []
  answered : (n, .response r) ∈ s.answered
  fits : (K.encode r).length ≤ maxFrame
  bytes : got ++ (s.wire ++ s.outbox).map (·.byte) <+: frame (K.encode r)
  unfinished : got.length < (frame (K.encode r)).length
  replyTo : ∀ c ∈ s.wire ++ s.outbox, c.replyTo = n

def Aligned (K : Codec) (s : State) : Prop :=
  match s.phase with
  | .idle => Quiet s
  | .reading n got => (got = [] ∧ Unanswered s n false) ∨ ∃ r, Arriving K s n got r
  | .binding n => Unanswered s n true ∨
      (s.inbound = [] ∧ ∃ a, (n, .bind a) ∈ s.answered ∧
        (s.wire ++ s.outbox = bindCells n a ∨ s.wire ++ s.outbox = []))

/-- The invariant of a client that is not broken. -/
structure Matched (K : Codec) (s : State) : Prop where
  aligned : Aligned K s
  consumed : ∀ x ∈ s.consumed, x.2.replyTo = x.1
  replies : ∀ x ∈ s.replies, ∃ r, (x.1, Answer.response r) ∈ s.answered ∧ x.2 = K.encode r
  listeners : ∀ x ∈ s.listeners, (x.1, Answer.bind (.listener x.2)) ∈ s.answered
  closed : s.closed → s.inbound = [] ∧ s.outbox = []

variable {K : Codec} {s : State}

theorem Matched.quiet (h : Matched K s) (hidle : s.phase = .idle) : Quiet s := by
  have hal := h.aligned
  rw [Aligned, hidle] at hal
  exact hal

/-- Becoming idle takes nothing but that nothing is outstanding. -/
theorem Matched.to_idle (h : Matched K s) (hq : Quiet s) : Matched K { s with phase := .idle } :=
  { h with aligned := hq }

theorem inbound_post (hq : Quiet s) (req : Request) (phase : Phase) :
    (post s req phase).inbound = [] ∨ (post s req phase).inbound = [(s.requests, req)] := by
  simp only [post, hq.1]
  split
  · exact .inl rfl
  · exact .inr rfl

theorem unanswered_post (hq : Quiet s) (req : Request) (phase : Phase) :
    Unanswered (post s req phase) s.requests req.isBind where
  inbound := by
    rcases inbound_post hq req phase with h | h
    · exact .inl h
    · exact .inr ⟨req, h, rfl⟩
  outbox := hq.2.1
  wire := hq.2.2

theorem closed_post (h : Matched K s) (req : Request) (phase : Phase) :
    (post s req phase).closed → (post s req phase).inbound = [] ∧ (post s req phase).outbox = [] := by
  intro hclosed
  have hclosed : s.closed = true := hclosed
  obtain ⟨hin, hout⟩ := h.closed hclosed
  exact ⟨by simp only [post, hclosed, true_or, if_true, hin], hout⟩

theorem matched_request (h : Matched K s) (hidle : s.phase = .idle) {req : Request} (hreq : req.isBind = false) :
    Matched K (post s req (.reading s.requests [])) where
  aligned := .inl ⟨rfl, hreq ▸ unanswered_post (h.quiet hidle) req _⟩
  consumed := h.consumed
  replies := h.replies
  listeners := h.listeners
  closed := closed_post h req _

theorem matched_bindListener (h : Matched K s) (hidle : s.phase = .idle) (ip : Ipv4Addr) (port : UInt16) :
    Matched K (post s (.bindListener ip port) (.binding s.requests)) where
  aligned := .inl (unanswered_post (h.quiet hidle) (.bindListener ip port) _)
  consumed := h.consumed
  replies := h.replies
  listeners := h.listeners
  closed := closed_post h _ _

/-- Reading the next byte of a reply: it is a byte of the answer, and the last one completes it. -/
theorem matched_read (h : Matched K s) {n : Nat} {got : List UInt8} {c : Cell} {wire : List Cell}
    (hphase : s.phase = .reading n got) (hwire : s.wire = c :: wire)
    (hok : (received K (consume s n c wire) n (got ++ [c.byte])).broken = false) :
    Matched K (received K (consume s n c wire) n (got ++ [c.byte])) := by
  have hal := h.aligned
  rw [Aligned, hphase] at hal
  rcases hal with ⟨-, hun⟩ | ⟨r, harr⟩
  · cases hun.wire.symm.trans hwire
  · have htags := harr.replyTo
    have hbytes := harr.bytes
    rw [hwire] at htags hbytes
    have hconsumed : ∀ x ∈ s.consumed ++ [(n, c)], x.2.replyTo = x.1 :=
      List.forall_mem_append.mpr ⟨h.consumed, List.forall_mem_singleton.mpr (htags c List.mem_cons_self)⟩
    have hshift : got ++ ((c :: wire) ++ s.outbox).map (·.byte) =
        (got ++ [c.byte]) ++ (wire ++ s.outbox).map (·.byte) := by simp
    rw [hshift] at hbytes
    have hread := readFrame_of_prefix (by decide) harr.fits ((List.prefix_append _ _).trans hbytes)
    unfold received at hok ⊢
    rw [hread] at hok ⊢
    by_cases hmore : (got ++ [c.byte]).length < (frame (K.encode r)).length
    · rw [if_pos hmore] at hok ⊢
      refine ⟨.inr ⟨r, harr.inbound, harr.answered, harr.fits, hbytes, hmore, ?_⟩, hconsumed, h.replies,
        h.listeners, h.closed⟩
      exact fun x hx => htags x (List.mem_cons_of_mem c hx)
    · rw [if_neg hmore] at hok ⊢
      have hrest : wire ++ s.outbox = [] := by
        have hle := hbytes.length_le
        rw [List.length_append, List.length_map] at hle
        exact List.eq_nil_of_length_eq_zero (by omega)
      dsimp only at hok ⊢
      cases hdecode : K.decode (K.encode r) with
      | none =>
        rw [hdecode] at hok
        cases hok
      | some decoded =>
        refine ⟨⟨harr.inbound, (List.append_eq_nil_iff.mp hrest).2, (List.append_eq_nil_iff.mp hrest).1⟩,
          hconsumed, ?_, h.listeners, h.closed⟩
        exact List.forall_mem_append.mpr
          ⟨h.replies, List.forall_mem_singleton.mpr ⟨r, harr.answered, rfl⟩⟩

theorem mem_bindCells {n : Nat} {a : BindAnswer} {c : Cell} {rest : List Cell} (h : c :: rest = bindCells n a) :
    c.replyTo = n ∧ rest = [] ∧ ∀ fd, tryRecvListener c = .listener fd → a = .listener fd := by
  cases a with
  | unsent => cases h
  | failure =>
    cases h
    exact ⟨rfl, rfl, fun fd hfd => by cases hfd⟩
  | listener fd₀ =>
    cases h
    refine ⟨rfl, rfl, fun fd hfd => ?_⟩
    cases hfd
    rfl

theorem matched_recv (h : Matched K s) {n : Nat} {c : Cell} {wire : List Cell} (hphase : s.phase = .binding n)
    (hwire : s.wire = c :: wire) : Matched K (adopt (consume s n c wire) n c) := by
  have hal := h.aligned
  rw [Aligned, hphase] at hal
  rcases hal with hun | ⟨hin, a, ha, hcells⟩
  · cases hun.wire.symm.trans hwire
  · rw [hwire, List.cons_append] at hcells
    rcases hcells with hcells | hnil
    · obtain ⟨htag, hrest, hfd⟩ := mem_bindCells hcells
      have hconsumed : ∀ x ∈ s.consumed ++ [(n, c)], x.2.replyTo = x.1 :=
        List.forall_mem_append.mpr ⟨h.consumed, List.forall_mem_singleton.mpr htag⟩
      have hquiet : Quiet (consume s n c wire) :=
        ⟨hin, (List.append_eq_nil_iff.mp hrest).2, (List.append_eq_nil_iff.mp hrest).1⟩
      unfold adopt
      split
      · rename_i fd hlistener
        refine ⟨hquiet, hconsumed, h.replies, ?_, h.closed⟩
        refine List.forall_mem_append.mpr ⟨h.listeners, List.forall_mem_singleton.mpr ?_⟩
        exact hfd fd hlistener ▸ ha
      · exact ⟨hquiet, hconsumed, h.replies, h.listeners, h.closed⟩
      · exact ⟨hquiet, hconsumed, h.replies, h.listeners, h.closed⟩
    · cases hnil

/-- The stream is closed and drained. -/
theorem quiet_of_closed (h : Matched K s) (hclosed : s.closed = true) (hwire : s.wire = []) : Quiet s :=
  ⟨(h.closed hclosed).1, (h.closed hclosed).2, hwire⟩

/-- A request at the helper is the one of the operation under way. -/
theorem phase_of_inbound (h : Matched K s) {n : Nat} {req : Request} {inbound : List (Nat × Request)}
    (hin : s.inbound = (n, req) :: inbound) :
    inbound = [] ∧ s.wire = [] ∧
      ((s.phase = .reading n [] ∧ req.isBind = false) ∨ (s.phase = .binding n ∧ req.isBind = true)) := by
  have hal := h.aligned
  rw [Aligned] at hal
  split at hal
  · cases hin.symm.trans hal.1
  · rename_i m got hphase
    rcases hal with ⟨rfl, hun⟩ | ⟨r, harr⟩
    · rcases hun.inbound with hnil | ⟨req', heq, hb⟩
      · cases hin.symm.trans hnil
      · cases hin.symm.trans heq
        exact ⟨rfl, hun.wire, .inl ⟨hphase, hb⟩⟩
    · cases hin.symm.trans harr.inbound
  · rename_i m hphase
    rcases hal with hun | ⟨hnil, -⟩
    · rcases hun.inbound with hnil | ⟨req', heq, hb⟩
      · cases hin.symm.trans hnil
      · cases hin.symm.trans heq
        exact ⟨rfl, hun.wire, .inr ⟨hphase, hb⟩⟩
    · cases hin.symm.trans hnil

/-- Of an answer that is one byte, the part that was sent is all or nothing. -/
theorem sent_or_nothing {n : Nat} {a : BindAnswer} {wire outbox : List Cell}
    (h : wire ++ outbox = bindCells n a ∨ wire ++ outbox = []) : wire = bindCells n a ∨ wire = [] := by
  rcases h with h | h
  · cases wire with
    | nil => exact .inr rfl
    | cons c wire =>
      rw [List.cons_append] at h
      obtain ⟨-, hrest, -⟩ := mem_bindCells h
      rw [hrest] at h
      rw [(List.append_eq_nil_iff.mp hrest).1]
      exact .inl h
  · exact .inr (List.append_eq_nil_iff.mp h).1

theorem matched_close (h : Matched K s) : Matched K (closeStream s) := by
  refine ⟨?_, h.consumed, h.replies, h.listeners, fun _ => ⟨rfl, rfl⟩⟩
  have hal := h.aligned
  rw [Aligned] at hal
  split at hal
  · rename_i hphase
    simp only [Aligned, closeStream, hphase]
    exact ⟨rfl, rfl, hal.2.2⟩
  · rename_i n got hphase
    simp only [Aligned, closeStream, hphase]
    rcases hal with ⟨hgot, hun⟩ | ⟨r, harr⟩
    · exact .inl ⟨hgot, .inl rfl, rfl, hun.wire⟩
    · refine .inr ⟨r, rfl, harr.answered, harr.fits, ?_, harr.unfinished, ?_⟩
      · rw [List.append_nil]
        refine List.IsPrefix.trans ?_ harr.bytes
        rw [List.map_append, ← List.append_assoc]
        exact List.prefix_append _ _
      · rw [List.append_nil]
        exact fun c hc => harr.replyTo c (List.mem_append_left _ hc)
  · rename_i n hphase
    simp only [Aligned, closeStream, hphase]
    rcases hal with hun | ⟨-, a, ha, hcells⟩
    · exact .inl ⟨.inl rfl, rfl, hun.wire⟩
    · refine .inr ⟨trivial, a, ha, ?_⟩
      rw [List.append_nil]
      exact sent_or_nothing hcells

theorem matched_answer (h : Matched K s) {n : Nat} {req : Request} {inbound : List (Nat × Request)}
    (hin : s.inbound = (n, req) :: inbound) (hreq : req.isBind = false) (r : Response) :
    Matched K (answerRequest K s n inbound r) := by
  unfold answerRequest
  split
  · rename_i hfits
    obtain ⟨rfl, hwire, ⟨hphase, -⟩ | ⟨-, hb⟩⟩ := phase_of_inbound h hin
    · refine ⟨?_, h.consumed, fun x hx => ?_, fun x hx => List.mem_append_left _ (h.listeners x hx), ?_⟩
      · have hpos : ([] : List UInt8).length < (frame (K.encode r)).length := by
          rw [length_frame, List.length_nil]
          omega
        simp only [Aligned, hphase]
        refine .inr ⟨r, rfl, List.mem_append_right _ (List.mem_singleton_self _), hfits, ?_, hpos, ?_⟩
        · simp [hwire, cells, Function.comp_def]
        · rw [hwire, List.nil_append]
          intro c hc
          obtain ⟨b, -, rfl⟩ := List.mem_map.mp hc
          rfl
      · obtain ⟨r', hr', he⟩ := h.replies x hx
        exact ⟨r', List.mem_append_left _ hr', he⟩
      · intro hclosed
        cases hin.symm.trans (h.closed hclosed).1
    · cases hreq.symm.trans hb
  · exact matched_close h

theorem matched_answerBind (h : Matched K s) {n : Nat} {req : Request} {inbound : List (Nat × Request)}
    (hin : s.inbound = (n, req) :: inbound) (hreq : req.isBind = true) (a : BindAnswer) :
    Matched K (answerListener s n inbound a) := by
  obtain ⟨rfl, hwire, ⟨-, hb⟩ | ⟨hphase, -⟩⟩ := phase_of_inbound h hin
  · cases hreq.symm.trans hb
  · refine ⟨?_, h.consumed, fun x hx => ?_, fun x hx => List.mem_append_left _ (h.listeners x hx), ?_⟩
    · simp only [Aligned, answerListener, hphase]
      refine .inr ⟨trivial, a, List.mem_append_right _ (List.mem_singleton_self _), .inl ?_⟩
      rw [hwire, List.nil_append]
    · obtain ⟨r', hr', he⟩ := h.replies x hx
      exact ⟨r', List.mem_append_left _ hr', he⟩
    · intro hclosed
      cases hin.symm.trans (h.closed hclosed).1

theorem matched_deliver (h : Matched K s) {c : Cell} {outbox : List Cell} (hout : s.outbox = c :: outbox) :
    Matched K { s with outbox := outbox, wire := s.wire ++ [c] } := by
  have hsame : (s.wire ++ [c]) ++ outbox = s.wire ++ s.outbox := by
    rw [List.append_assoc, hout]
    rfl
  refine ⟨?_, h.consumed, h.replies, h.listeners, fun hclosed => ?_⟩
  · have hal := h.aligned
    rw [Aligned] at hal
    split at hal
    · cases hout.symm.trans hal.2.1
    · rename_i n got hphase
      rcases hal with ⟨-, hun⟩ | ⟨r, harr⟩
      · cases hout.symm.trans hun.outbox
      · simp only [Aligned, hphase]
        exact .inr ⟨r, harr.inbound, harr.answered, harr.fits, hsame ▸ harr.bytes, harr.unfinished,
          hsame ▸ harr.replyTo⟩
    · rename_i n hphase
      rcases hal with hun | ⟨hnil, a, ha, hcells⟩
      · cases hout.symm.trans hun.outbox
      · simp only [Aligned, hphase]
        exact .inr ⟨hnil, a, ha, hsame ▸ hcells⟩
  · cases hout.symm.trans (h.closed hclosed).2

/-- A client that is not broken after a byte was not broken before it. -/
theorem broken_received {n : Nat} {got : List UInt8} (h : (received K s n got).broken = false) :
    s.broken = false := by
  unfold received at h
  split at h
  · exact h
  · cases h
  · split at h
    · exact h
    · cases h

theorem broken_adopt {n : Nat} {c : Cell} (h : (adopt s n c).broken = false) : s.broken = false := by
  unfold adopt at h
  split at h <;> exact h

theorem broken_answerRequest {n : Nat} {inbound : List (Nat × Request)} {r : Response}
    (h : (answerRequest K s n inbound r).broken = false) : s.broken = false := by
  unfold answerRequest at h
  split at h <;> exact h

/-- The invariant, which says nothing of a broken client. -/
def Sound (K : Codec) (s : State) : Prop := s.broken = false → Matched K s

theorem sound_step (s : State) (a : Action) (s' : State) (hq : GivesUpQuiet s a) (hs : Sound K s)
    (h : step K s a = some s') : Sound K s' := by
  intro hok
  cases a with
  | request req =>
    simp only [step] at h
    split at h
    · rename_i hen
      cases h
      exact matched_request (hs hok) hen.1 hen.2
    · cases h
  | requestWriteFails torn =>
    simp only [step] at h
    split at h
    · cases h
      cases hok
    · cases h
  | read =>
    simp only [step] at h
    split at h
    · rename_i n got c wire hphase hwire
      cases h
      have hok' : (consume s n c wire).broken = false := broken_received hok
      exact matched_read (hs hok') hphase hwire hok
    · cases h
  | readEof =>
    simp only [step] at h
    split at h
    · split at h
      · cases h
        cases hok
      · cases h
    · cases h
  | timeout =>
    simp only [step] at h
    split at h
    · cases h
      cases hok
    · cases h
  | bindListener ip port =>
    simp only [step] at h
    split at h
    · rename_i hidle
      cases h
      exact matched_bindListener (hs hok) hidle ip port
    · cases h
  | bindWriteFails torn =>
    simp only [step] at h
    split at h
    · rename_i hidle
      cases h
      have hquiet := (hs hok).quiet hidle
      refine { hs hok with aligned := ?_ }
      simp only [Aligned, hidle]
      exact hquiet
    · cases h
  | recv =>
    simp only [step] at h
    split at h
    · rename_i n c wire hphase hwire
      cases h
      have hok' : (consume s n c wire).broken = false := broken_adopt hok
      exact matched_recv (hs hok') hphase hwire
    · cases h
  | recvEof =>
    simp only [step] at h
    split at h
    · split at h
      · rename_i hen
        cases h
        exact (hs hok).to_idle (quiet_of_closed (hs hok) hen.2 hen.1)
      · cases h
    · cases h
  | recvError =>
    simp only [step] at h
    split at h
    · cases h
      exact (hs hok).to_idle (hq hok)
    · cases h
  | deadline =>
    simp only [step] at h
    split at h
    · split at h
      · cases h
        exact (hs hok).to_idle (hq hok)
      · cases h
    · cases h
  | abort =>
    simp only [step] at h
    split at h
    · cases h
    · cases h
      exact (hs hok).to_idle (hq hok)
  | answer r =>
    simp only [step] at h
    split at h
    · split at h
      · rename_i n req inbound hin hen
        cases h
        exact matched_answer (hs (broken_answerRequest hok)) hin hen.2 r
      · cases h
    · cases h
  | answerBind a =>
    simp only [step] at h
    split at h
    · split at h
      · rename_i n req inbound hin hen
        cases h
        exact matched_answerBind (hs hok) hin hen.2 a
      · cases h
    · cases h
  | deliver =>
    simp only [step] at h
    split at h
    · rename_i c outbox hout
      cases h
      exact matched_deliver (hs hok) hout
    · cases h
  | close =>
    cases h
    exact matched_close (hs hok)

theorem sound_initialState : Sound K initialState := fun _ =>
  ⟨⟨rfl, rfl, rfl⟩, List.forall_mem_nil _, List.forall_mem_nil _, List.forall_mem_nil _, fun h => by cases h⟩

theorem Sound.inStep (h : Sound K s) : InStep K s := fun hok =>
  have hm := h hok
  ⟨hm.quiet, hm.consumed, hm.replies, hm.listeners⟩

/-- Giving up with something outstanding leaves a client that is idle, not broken and not quiet. -/
theorem givesUpQuiet_of_inStep {a : Action} {s' : State} (h : step K s a = some s') (hs' : InStep K s') :
    GivesUpQuiet s a := by
  cases a with
  | recvError =>
    intro hok
    simp only [step] at h
    split at h
    · cases h
      exact (hs' hok).1 rfl
    · cases h
  | deadline =>
    intro hok
    simp only [step] at h
    split at h
    · split at h
      · cases h
        exact (hs' hok).1 rfl
      · cases h
    · cases h
  | abort =>
    intro hok
    simp only [step] at h
    split at h
    · cases h
    · cases h
      exact (hs' hok).1 rfl
  | _ => trivial

/-- In every run, against a helper that answers in order but arbitrarily late: the client is in step
in every state exactly when no operation is given up, without a mark, with its reply outstanding. -/
theorem inStep_iff_givesUpQuiet (K : Codec) (acts : List Action) (s : State)
    (hrun : run (step K) initialState acts = some s) :
    (∀ pre t, pre <+: acts → run (step K) initialState pre = some t → InStep K t) ↔
      Meets (step K) GivesUpQuiet initialState acts := by
  constructor
  · intro hall
    refine meets_of_forall_split fun pre a post t hacts ht => ?_
    subst hacts
    obtain ⟨t₀, ht₀, hrest⟩ := run_append_eq_some.mp hrun
    cases ht.symm.trans ht₀
    obtain ⟨t', ht', -⟩ := run_cons_eq_some.mp hrest
    have hpre : run (step K) initialState (pre ++ [a]) = some t' :=
      run_append_eq_some.mpr ⟨t, ht, run_cons_eq_some.mpr ⟨t', ht', rfl⟩⟩
    refine givesUpQuiet_of_inStep ht' (hall (pre ++ [a]) t' ⟨post, ?_⟩ hpre)
    rw [List.append_assoc, List.singleton_append]
  · rintro hmeets pre t ⟨post, rfl⟩ ht
    exact (run_invariant_meets sound_step (meets_append.mp hmeets).1 sound_initialState ht).inStep

/-- JSON for the responses without data. -/
def plainCodec : Codec where
  encode
    | .ok => ascii "\x7b\"status\":\"ok\"\x7d"
    | .pong => ascii "\x7b\"status\":\"pong\"\x7d"
    | .purged _ => []
    | .error _ => []
  decode bytes :=
    if bytes = ascii "\x7b\"status\":\"ok\"\x7d" then some .ok
    else if bytes = ascii "\x7b\"status\":\"pong\"\x7d" then some .pong
    else none

/-- A ping whose reply arrives byte by byte, and then a listener. -/
def pingThenListener : List Action :=
  [.request .ping, .answer .pong] ++ List.replicate 21 .deliver ++ List.replicate 21 .read ++
    [.bindListener ⟨127, 1, 0, 1⟩ 80, .answerBind (.listener 7), .deliver, .recv]

theorem givesUpQuiet_pingThenListener (s : State) : ∀ a ∈ pingThenListener, GivesUpQuiet s a := by
  intro a ha
  simp only [pingThenListener, List.mem_append, List.mem_cons, List.mem_replicate] at ha
  rcases ha with (((rfl | rfl | ha) | ⟨-, rfl⟩) | ⟨-, rfl⟩) | rfl | rfl | rfl | rfl | ha <;> trivial

theorem inStep_pingThenListener :
    ∃ s, run (step plainCodec) initialState pingThenListener = some s ∧ InStep plainCodec s ∧
      s.broken = false ∧ s.replies = [(0, plainCodec.encode .pong)] ∧ s.listeners = [(1, 7)] := by
  obtain ⟨s, hs⟩ : ∃ s, run (step plainCodec) initialState pingThenListener = some s :=
    Option.isSome_iff_exists.mp (by decide +kernel)
  have hstep := (inStep_iff_givesUpQuiet plainCodec pingThenListener s hs).mpr
    (meets_of_forall givesUpQuiet_pingThenListener initialState)
  have hend : (run (step plainCodec) initialState pingThenListener).map
      (fun s => (s.broken, s.replies, s.listeners)) =
      some (false, [(0, plainCodec.encode .pong)], [(1, 7)]) := by decide +kernel
  rw [hs] at hend
  obtain ⟨hbroken, hreplies, hlisteners⟩ : _ ∧ _ ∧ _ := by simpa using hend
  exact ⟨s, hs, hstep pingThenListener s (List.prefix_refl _) hs, hbroken, hreplies, hlisteners⟩

/-- The status byte of a listener arrives after the deadline, and a ping reads it. -/
def lateListener : List Action :=
  [.bindListener ⟨127, 1, 0, 1⟩ 80, .deadline, .request .ping, .answerBind (.listener 7), .deliver, .read]

theorem lateListener_out_of_step :
    ∃ s, run (step plainCodec) initialState lateListener = some s ∧ s.broken = false ∧
      s.consumed = [(1, ⟨statusOk, some 7, 0⟩)] ∧ ¬InStep plainCodec s := by
  refine ⟨_, rfl, rfl, rfl, fun h => ?_⟩
  have hmatch := (h rfl).2.1 (1, ⟨statusOk, some 7, 0⟩) List.mem_cons_self
  cases hmatch

end FerrisScope.HelperClient
