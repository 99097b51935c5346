import Mathlib.Data.List.Basic

/-!
# Length-prefixed frames

A frame is the length of its payload in four bytes, most significant first, and the payload. A
reader that has some bytes of a stream may need more, may find a length over its limit, or
finds the first payload and what follows it.
-/

namespace FerrisScope.LengthFrames

/-- The four bytes of a 32-bit number, most significant first. -/
def bigEndian (n : Nat) : List UInt8 :=
  [UInt8.ofNat (n / 0x1000000), UInt8.ofNat (n / 0x10000), UInt8.ofNat (n / 0x100), UInt8.ofNat n]

def ofBigEndian (bs : List UInt8) : Nat := bs.foldl (fun n b => n * 256 + b.toNat) 0

def frame (payload : List UInt8) : List UInt8 := bigEndian payload.length ++ payload

inductive Read where
  | more
  | tooLarge (len : Nat)
  | payload (bytes rest : List UInt8)
  deriving DecidableEq, Repr

/-- What the bytes read so far amount to. -/
def readFrame (limit : Nat) (got : List UInt8) : Read :=
  if got.length < 4 then .more
  else
    let len := ofBigEndian (got.take 4)
    if limit < len then .tooLarge len
    else if got.length < 4 + len then .more
    else .payload ((got.drop 4).take len) (got.drop (4 + len))

@[simp] theorem length_bigEndian (n : Nat) : (bigEndian n).length = 4 := rfl

@[simp] theorem length_frame (payload : List UInt8) : (frame payload).length = 4 + payload.length := by
  rw [frame, List.length_append, length_bigEndian]

theorem ofBigEndian_bigEndian {n : Nat} (h : n < 0x100000000) : ofBigEndian (bigEndian n) = n := by
  simp only [bigEndian, ofBigEndian, List.foldl_cons, List.foldl_nil, UInt8.toNat_ofNat']
  omega

/-- The bytes of a frame in the order they arrive: more are needed until the last one, which
completes the payload. -/
theorem readFrame_of_prefix {limit : Nat} (hlimit : limit < 0x100000000) {payload got : List UInt8}
    (hpayload : payload.length ≤ limit) (h : got <+: frame payload) :
    readFrame limit got = if got.length < (frame payload).length then .more else .payload payload [] := by
  have hle : got.length ≤ (frame payload).length := h.length_le
  rw [length_frame] at hle ⊢
  unfold readFrame
  split
  · rw [if_pos (by omega)]
  · rename_i hfour
    have htake : got.take 4 = bigEndian payload.length := by
      obtain ⟨rest, hrest⟩ := h
      have htaken := congrArg (List.take 4) hrest
      rw [frame, List.take_append_of_le_length (by omega), List.take_left' (length_bigEndian _)] at htaken
      exact htaken
    dsimp only
    rw [htake, ofBigEndian_bigEndian (by omega), if_neg (by omega)]
    split
    · rfl
    · have hall : got = frame payload := h.eq_of_length (by rw [length_frame]; omega)
      rw [hall, frame, List.drop_left' (length_bigEndian _), List.take_length]
      rw [List.drop_eq_nil_of_le (by simp)]

/-- A whole frame at the front of a stream, whatever follows it. -/
theorem readFrame_append {limit : Nat} (hlimit : limit < 0x100000000) {payload : List UInt8}
    (hpayload : payload.length ≤ limit) (rest : List UInt8) :
    readFrame limit (frame payload ++ rest) = .payload payload rest := by
  have hlen : (frame payload ++ rest).length = 4 + payload.length + rest.length := by
    rw [List.length_append, length_frame]
  have htake : (frame payload ++ rest).take 4 = bigEndian payload.length := by
    rw [frame, List.append_assoc, List.take_left' (length_bigEndian _)]
  unfold readFrame
  rw [if_neg (by omega)]
  dsimp only
  rw [htake, ofBigEndian_bigEndian (by omega), if_neg (by omega), if_neg (by omega)]
  rw [List.drop_left' (length_frame payload), frame, List.append_assoc]
  rw [List.drop_left' (length_bigEndian _), List.take_left]

end FerrisScope.LengthFrames
