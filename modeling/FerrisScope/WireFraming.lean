import FerrisScope.HelperProtocol

/-!
# Framed messages on a byte stream

`encode` puts the JSON text of a message behind its length, `decode` takes one message off the
front of a buffer and says how many bytes it used, and `readMessage` reads one message from a
stream that ends. All three refuse a payload over the limit. JSON is a parameter that may fail
on either side.
-/

namespace FerrisScope.WireFraming
open LengthFrames HelperProtocol

variable {M : Type*}

/-- JSON for messages of one type, with the text of its errors. -/
structure Json (M : Type*) where
  toVec : M → Except String (List UInt8)
  fromSlice : List UInt8 → Except String M

inductive ProtocolError where
  | serde (error : String)
  | tooLarge (len : Nat)
  | truncated (need have' : Nat)
  deriving DecidableEq, Repr

def encode (J : Json M) (msg : M) : Except ProtocolError (List UInt8) :=
  match J.toVec msg with
  | .error e => .error (.serde e)
  | .ok payload =>
    if payload.length > maxFrame then .error (.tooLarge payload.length)
    else .ok (bigEndian payload.length ++ payload)

def parse (J : Json M) (payload : List UInt8) : Except ProtocolError M :=
  match J.fromSlice payload with
  | .error e => .error (.serde e)
  | .ok msg => .ok msg

def decode (J : Json M) (buf : List UInt8) : Except ProtocolError (M × Nat) :=
  if buf.length < 4 then .error (.truncated 4 buf.length)
  else
    let len := ofBigEndian (buf.take 4)
    if len > maxFrame then .error (.tooLarge len)
    else
      let stop := 4 + len
      if buf.length < stop then .error (.truncated stop buf.length)
      else (parse J ((buf.drop 4).take len)).map fun msg => (msg, stop)

/-- One message from a stream that holds these bytes and then ends, with the bytes left. A stream
that ends inside the length is a clean end. -/
def readMessage (J : Json M) (stream : List UInt8) : Except ProtocolError (Option M × List UInt8) :=
  if stream.length < 4 then .ok (none, [])
  else
    let len := ofBigEndian (stream.take 4)
    if len > maxFrame then .error (.tooLarge len)
    else if (stream.drop 4).length < len then .error (.serde "early eof")
    else (parse J ((stream.drop 4).take len)).map fun msg => (some msg, stream.drop (4 + len))

/-- The frame fits, so that `encode` returns it. -/
def Fits (J : Json M) (msg : M) : Prop := ∃ payload, J.toVec msg = .ok payload ∧ payload.length ≤ maxFrame

/-- What JSON promises: a text it wrote, it reads back. -/
def Json.RoundTrips (J : Json M) : Prop := ∀ msg payload, J.toVec msg = .ok payload → J.fromSlice payload = .ok msg

theorem decode_used {J : Json M} {buf : List UInt8} {msg : M} {used : Nat}
    (h : decode J buf = .ok (msg, used)) : 4 ≤ used ∧ used ≤ buf.length := by
  unfold decode at h
  split at h
  · cases h
  dsimp only at h
  split at h
  · cases h
  split at h
  · cases h
  cases hp : parse J ((buf.drop 4).take (ofBigEndian (buf.take 4))) with
  | error e =>
    rw [hp] at h
    cases h
  | ok msg' =>
    rw [hp] at h
    cases h
    omega

/-- Decode until it reports an error: the messages and the bytes that are left. -/
def decodeAll (J : Json M) (buf : List UInt8) : List M × List UInt8 :=
  match h : decode J buf with
  | .error _ => ([], buf)
  | .ok (msg, used) =>
    have : 4 ≤ used ∧ used ≤ buf.length := decode_used h
    let rest := decodeAll J (buf.drop used)
    (msg :: rest.1, rest.2)
  termination_by buf.length
  decreasing_by
    rw [List.length_drop]
    omega

/-- Read until the stream ends or a read fails: the messages and whether the end was clean. -/
def readAll (J : Json M) : Nat → List UInt8 → List M × Bool
  | 0, _ => ([], false)
  | fuel + 1, stream =>
    match readMessage J stream with
    | .error _ => ([], false)
    | .ok (none, _) => ([], true)
    | .ok (some msg, rest) =>
      let later := readAll J fuel rest
      (msg :: later.1, later.2)

theorem maxFrame_lt : maxFrame < 0x100000000 := by decide

/-- `decode` in terms of the frame reader. -/
theorem decode_eq (J : Json M) (buf : List UInt8) :
    match readFrame maxFrame buf with
    | .more => ∃ need, buf.length < need ∧ decode J buf = .error (.truncated need buf.length)
    | .tooLarge len => decode J buf = .error (.tooLarge len)
    | .payload bytes rest =>
      decode J buf = (parse J bytes).map (fun msg => (msg, 4 + bytes.length)) ∧ buf.drop (4 + bytes.length) = rest := by
  unfold readFrame decode
  by_cases hfour : buf.length < 4
  · rw [if_pos hfour, if_pos hfour]
    exact ⟨4, hfour, rfl⟩
  rw [if_neg hfour, if_neg hfour]
  dsimp only
  by_cases hlimit : maxFrame < ofBigEndian (buf.take 4)
  · rw [if_pos hlimit, if_pos hlimit]
  rw [if_neg hlimit, if_neg hlimit]
  by_cases hmore : buf.length < 4 + ofBigEndian (buf.take 4)
  · rw [if_pos hmore, if_pos hmore]
    exact ⟨_, hmore, rfl⟩
  rw [if_neg hmore, if_neg hmore]
  have hlen : ((buf.drop 4).take (ofBigEndian (buf.take 4))).length = ofBigEndian (buf.take 4) := by
    rw [List.length_take, List.length_drop]
    omega
  dsimp only
  rw [hlen]
  exact ⟨rfl, rfl⟩

/-- `readMessage` in terms of the frame reader. -/
theorem readMessage_eq (J : Json M) (stream : List UInt8) :
    match readFrame maxFrame stream with
    | .more => ∀ msg rest, readMessage J stream ≠ .ok (some msg, rest)
    | .tooLarge len => readMessage J stream = .error (.tooLarge len)
    | .payload bytes rest => readMessage J stream = (parse J bytes).map fun msg => (some msg, rest) := by
  unfold readFrame readMessage
  by_cases hfour : stream.length < 4
  · rw [if_pos hfour, if_pos hfour]
    intro msg rest h
    cases h
  rw [if_neg hfour, if_neg hfour]
  dsimp only
  by_cases hlimit : maxFrame < ofBigEndian (stream.take 4)
  · rw [if_pos hlimit, if_pos hlimit]
  rw [if_neg hlimit, if_neg hlimit, List.length_drop]
  by_cases hmore : stream.length < 4 + ofBigEndian (stream.take 4)
  · rw [if_pos hmore, if_pos (by omega)]
    intro msg rest h
    cases h
  · rw [if_neg hmore, if_neg (by omega)]

theorem decode_frame_append {J : Json M} {msg : M} {payload : List UInt8} (hlen : payload.length ≤ maxFrame)
    (hparse : parse J payload = .ok msg) (rest : List UInt8) :
    decode J (frame payload ++ rest) = .ok (msg, (frame payload).length) := by
  have h := decode_eq J (frame payload ++ rest)
  rw [readFrame_append maxFrame_lt hlen rest] at h
  rw [h.1, hparse, length_frame]
  rfl

theorem readMessage_frame_append {J : Json M} {msg : M} {payload : List UInt8}
    (hlen : payload.length ≤ maxFrame) (hparse : parse J payload = .ok msg) (rest : List UInt8) :
    readMessage J (frame payload ++ rest) = .ok (some msg, rest) := by
  have h := readMessage_eq J (frame payload ++ rest)
  rw [readFrame_append maxFrame_lt hlen rest] at h
  rw [h, hparse]
  rfl

/-- One frame off the front. -/
theorem decodeAll_frame_append {J : Json M} {msg : M} {payload : List UInt8}
    (hlen : payload.length ≤ maxFrame) (hparse : parse J payload = .ok msg) (rest : List UInt8) :
    decodeAll J (frame payload ++ rest) = (msg :: (decodeAll J rest).1, (decodeAll J rest).2) := by
  have hone := decode_frame_append hlen hparse rest
  rw [decodeAll]
  split
  · rename_i e he
    rw [hone] at he
    cases he
  · rename_i msg' used hused
    rw [hone] at hused
    cases hused
    dsimp only
    rw [List.drop_left]

theorem decodeAll_nil (J : Json M) : decodeAll J [] = ([], []) := by
  rw [decodeAll]
  split
  · rfl
  · rename_i msg used h
    cases h

section RoundTrip

variable {J : Json M} (hJ : J.RoundTrips)

include hJ

/-- A message that fits has a frame, and its payload parses back. -/
theorem encode_of_fits {msg : M} (h : Fits J msg) :
    ∃ payload, payload.length ≤ maxFrame ∧ encode J msg = .ok (frame payload) ∧ parse J payload = .ok msg := by
  obtain ⟨payload, hvec, hfits⟩ := h
  refine ⟨payload, hfits, ?_, ?_⟩
  · rw [encode, hvec]
    exact if_neg (by omega)
  · rw [parse, hJ msg payload hvec]

/-- The stream of a list of messages that fit, decoded and read back. -/
theorem decodeAll_flatten (msgs : List M) (hfits : ∀ msg ∈ msgs, Fits J msg) :
    ∃ frames, msgs.mapM (encode J) = .ok frames ∧ decodeAll J frames.flatten = (msgs, []) ∧
      ∀ fuel, msgs.length < fuel → readAll J fuel frames.flatten = (msgs, true) := by
  induction msgs with
  | nil =>
    refine ⟨[], rfl, decodeAll_nil J, fun fuel hfuel => ?_⟩
    cases fuel with
    | zero => simp at hfuel
    | succ fuel => rfl
  | cons msg msgs ih =>
    obtain ⟨payload, hlen, hencode, hparse⟩ := encode_of_fits hJ (hfits msg List.mem_cons_self)
    obtain ⟨frames, hframes, hdecode, hread⟩ := ih fun m hm => hfits m (List.mem_cons_of_mem msg hm)
    refine ⟨frame payload :: frames, ?_, ?_, fun fuel hfuel => ?_⟩
    · rw [List.mapM_cons, hencode, hframes]
      rfl
    · rw [List.flatten_cons, decodeAll_frame_append hlen hparse, hdecode]
    · obtain ⟨n, rfl⟩ := Nat.exists_eq_succ_of_ne_zero (Nat.ne_of_gt (Nat.zero_lt_of_lt hfuel))
      rw [List.flatten_cons, readAll, readMessage_frame_append hlen hparse]
      dsimp only
      rw [hread n (by simpa using hfuel)]

/-- Every proper part of a frame is reported as truncated, with what is there and more needed. -/
theorem decode_of_proper_prefix {msg : M} {bytes got : List UInt8} (hencode : encode J msg = .ok bytes)
    (hpart : got <+: bytes) (hproper : got ≠ bytes) :
    ∃ need, got.length < need ∧ decode J got = .error (.truncated need got.length) ∧
      ∀ m rest, readMessage J got ≠ .ok (some m, rest) := by
  have hfits : Fits J msg := by
    unfold encode at hencode
    split at hencode
    · cases hencode
    · rename_i payload hvec
      split at hencode
      · cases hencode
      · exact ⟨payload, hvec, by omega⟩
  obtain ⟨payload, hlen, hframe, -⟩ := encode_of_fits hJ hfits
  obtain rfl : frame payload = bytes := Except.ok.inj (hframe.symm.trans hencode)
  have hshort : got.length < (frame payload).length := by
    refine Nat.lt_of_le_of_ne hpart.length_le fun heq => ?_
    exact hproper (hpart.eq_of_length heq)
  have hmore : readFrame maxFrame got = .more := by
    rw [ readFrame_of_prefix maxFrame_lt hlen hpart, if_pos hshort]
  have hdecode := decode_eq J got
  have hread := readMessage_eq J got
  rw [hmore] at hdecode hread
  obtain ⟨need, hneed, h⟩ := hdecode
  exact ⟨need, hneed, h, hread⟩

end RoundTrip

/-- A length over the limit is refused, by the decoder and by the reader. -/
theorem refuses_of_header {J : Json M} {buf : List UInt8} (hfour : 4 ≤ buf.length)
    (hlimit : maxFrame < ofBigEndian (buf.take 4)) :
    decode J buf = .error (.tooLarge (ofBigEndian (buf.take 4))) ∧
      readMessage J buf = .error (.tooLarge (ofBigEndian (buf.take 4))) := by
  have hlarge : readFrame maxFrame buf = .tooLarge (ofBigEndian (buf.take 4)) := by
    rw [readFrame, if_neg (by omega)]
    exact if_pos hlimit
  have hdecode := decode_eq J buf
  have hread := readMessage_eq J buf
  rw [hlarge] at hdecode hread
  exact ⟨hdecode, hread⟩

/-- The wire format: a stream of frames decodes to exactly the messages that were encoded, a part
of a frame is reported as truncated, and a length over the limit is never accepted. -/
theorem framing_round_trip (J : Json M) (hJ : J.RoundTrips) :
    (∀ msgs : List M, (∀ msg ∈ msgs, Fits J msg) →
      ∃ frames, msgs.mapM (encode J) = .ok frames ∧ decodeAll J frames.flatten = (msgs, []) ∧
        ∀ fuel, msgs.length < fuel → readAll J fuel frames.flatten = (msgs, true)) ∧
    (∀ msg bytes got, encode J msg = .ok bytes → got <+: bytes → got ≠ bytes →
      ∃ need, got.length < need ∧ decode J got = .error (.truncated need got.length) ∧
        ∀ m rest, readMessage J got ≠ .ok (some m, rest)) ∧
    (∀ buf, 4 ≤ buf.length → maxFrame < ofBigEndian (buf.take 4) →
      decode J buf = .error (.tooLarge (ofBigEndian (buf.take 4))) ∧
        readMessage J buf = .error (.tooLarge (ofBigEndian (buf.take 4)))) := by
  refine ⟨decodeAll_flatten hJ, ?_, fun buf => refuses_of_header⟩
  intro msg bytes got
  exact decode_of_proper_prefix hJ

/-- JSON for truth values. -/
def boolJson : Json Bool where
  toVec msg := .ok (ascii (if msg then "true" else "false"))
  fromSlice bytes :=
    if bytes = ascii "true" then .ok true
    else if bytes = ascii "false" then .ok false
    else .error "expected value at line 1 column 1"

theorem boolJson_round_trip : boolJson.RoundTrips ∧
    ∃ frames, [true, false].mapM (encode boolJson) = .ok frames ∧
      decodeAll boolJson frames.flatten = ([true, false], []) := by
  have hJ : boolJson.RoundTrips := by
    intro msg payload h
    cases h
    cases msg <;> decide
  have hfits : ∀ msg ∈ [true, false], Fits boolJson msg := by
    intro msg _
    exact ⟨_, rfl, by cases msg <;> decide⟩
  obtain ⟨frames, hframes, hdecode, -⟩ := (framing_round_trip boolJson hJ).1 [true, false] hfits
  exact ⟨hJ, frames, hframes, hdecode⟩

/-! ## Streams that end inside a frame -/

/-- The stream ends before the frame at its front does. -/
def Cut (stream : List UInt8) : Prop := readFrame maxFrame stream = .more

/-- Only a stream that ends at a frame boundary has no message, and one that ends inside a frame
is an error to both decoders. -/
structure PartialIsError (J : Json M) (stream : List UInt8) : Prop where
  none_at_boundary : ∀ rest, readMessage J stream = .ok (none, rest) → stream = []
  error_of_cut : Cut stream → stream ≠ [] → ∃ error, readMessage J stream = .error error
  truncated_iff : Cut stream ↔ ∃ need, decode J stream = .error (.truncated need stream.length)

theorem decode_truncated_iff (J : Json M) (stream : List UInt8) :
    Cut stream ↔ ∃ need, decode J stream = .error (.truncated need stream.length) := by
  have hdecode := decode_eq J stream
  unfold Cut
  constructor
  · intro hcut
    rw [hcut] at hdecode
    obtain ⟨need, -, h⟩ := hdecode
    exact ⟨need, h⟩
  · rintro ⟨need, h⟩
    cases hread : readFrame maxFrame stream with
    | more => rfl
    | tooLarge len =>
      rw [hread] at hdecode
      cases hdecode.symm.trans h
    | payload bytes rest =>
      rw [hread] at hdecode
      have hparsed := hdecode.1.symm.trans h
      unfold parse at hparsed
      split at hparsed <;> cases hparsed

/-- From the fourth byte on, a stream that ends inside a frame is an error to the reader. -/
theorem readMessage_of_header {J : Json M} {stream : List UInt8} (hfour : 4 ≤ stream.length) :
    (∀ rest, readMessage J stream ≠ .ok (none, rest)) ∧
      (Cut stream → ∃ error, readMessage J stream = .error error) := by
  have hlong : ¬ stream.length < 4 := by omega
  unfold Cut readMessage readFrame
  rw [if_neg hlong, if_neg hlong]
  dsimp only
  by_cases hlimit : maxFrame < ofBigEndian (stream.take 4)
  · rw [if_pos hlimit, if_pos hlimit]
    exact ⟨fun _ => nofun, fun _ => ⟨_, rfl⟩⟩
  rw [if_neg hlimit, if_neg hlimit, List.length_drop]
  by_cases hmore : stream.length < 4 + ofBigEndian (stream.take 4)
  · rw [if_pos (by omega)]
    exact ⟨fun _ => nofun, fun _ => ⟨_, rfl⟩⟩
  · rw [if_neg (by omega), if_neg hmore]
    refine ⟨fun rest h => ?_, nofun⟩
    cases hparse : parse J ((stream.drop 4).take (ofBigEndian (stream.take 4))) with
    | error e =>
      rw [hparse] at h
      cases h
    | ok msg =>
      rw [hparse] at h
      cases h

/-- The reader and the decoder agree on every stream except one that ends inside the length. -/
theorem partial_is_error_iff (J : Json M) (stream : List UInt8) :
    PartialIsError J stream ↔ stream.length = 0 ∨ 4 ≤ stream.length := by
  constructor
  · intro h
    by_contra hshort
    rw [not_or, Nat.not_le] at hshort
    have hnone : readMessage J stream = .ok (none, []) := if_pos hshort.2
    rw [h.none_at_boundary [] hnone] at hshort
    exact hshort.1 rfl
  · rintro (hempty | hfour)
    · obtain rfl := List.eq_nil_of_length_eq_zero hempty
      exact ⟨fun _ _ => rfl, fun _ h => absurd rfl h, decode_truncated_iff J []⟩
    · obtain ⟨hnone, herror⟩ := readMessage_of_header (J := J) hfour
      exact ⟨fun rest h => absurd h (hnone rest), fun hcut _ => herror hcut, decode_truncated_iff J stream⟩

/-- Two bytes of a length count as the end of the stream. -/
theorem partial_length_ignored : ¬ PartialIsError boolJson [0, 0] := by
  intro h
  have hread : readMessage boolJson [0, 0] = .ok (none, []) := rfl
  exact absurd (h.none_at_boundary [] hread) (by decide)

end FerrisScope.WireFraming
