import FerrisScope.SwallowedTriggers
import FerrisScope.Utf8Slices

/-!
# The loop over the bytes

The loop runs over the bytes of the text in lower case and takes what it copies from the text itself, at the
same places. A place within a character would end the program.
-/

namespace FerrisScope.SecretBytes
open HostsFile (Text)
open AsciiCase ProviderErrors SecretScan SwallowedTriggers Utf8Slices

def isAsciiAlphanumeric (b : UInt8) : Bool :=
  (48 ≤ b && b ≤ 57) || (65 ≤ b && b ≤ 90) || (97 ≤ b && b ≤ 122)

def isSecretByte (b : UInt8) : Bool :=
  isAsciiAlphanumeric b || (['-', '_', '.', '+', '/', '=', '~'].map Char.toUInt8).contains b

def isWordByte (b : UInt8) : Bool := isAsciiAlphanumeric b || (['_', '-'].map Char.toUInt8).contains b

def startsWith (lb : List UInt8) (i : Nat) (word : String) : Bool := (encode word.toList).isPrefixOf (lb.drop i)

/-- Where the secret bytes from this place on end. -/
def runEnd (lb : List UInt8) (j : Nat) : Nat := j + ((lb.drop j).takeWhile isSecretByte).length

def startsKey (lb : List UInt8) (i : Nat) (start : String) : Bool :=
  let len := byteLen start.toList
  startsWith lb i start && len + 8 ≤ runEnd lb (i + len) - i

/-- Whether a word can start here. The byte before is looked up unless there is none. -/
def boundaryAt (lb : List UInt8) (i : Nat) : Option Bool :=
  if i = 0 then some true else lb[i - 1]?.map (! isWordByte ·)

/-- One turn of the loop: what is written, and where the next turn begins. -/
def turn (input : Text) (lb : List UInt8) (i : Nat) : Option (Text × Nat) :=
  (boundaryAt lb i).bind fun boundary =>
    match if boundary then valueTriggers.find? (startsWith lb i) else none with
    | some trigger =>
      let pend := i + byteLen trigger.toList
      (slice input i pend).map fun kept =>
        let j := runEnd lb pend
        if pend < j then (kept ++ redacted, j) else (kept, pend)
    | none =>
      match if boundary then keyPrefixes.find? (startsKey lb i) else none with
      | some start => some (redacted, runEnd lb (i + byteLen start.toList))
      | none => (sliceFrom input i).bind fun rest => rest.head?.map fun ch => ([ch], i + ch.utf8Size)

def loop (input : Text) (lb : List UInt8) : Nat → Nat → Text → Option Text
  | 0, _, _ => none
  | turns + 1, i, out =>
    if i < byteLen input then (turn input lb i).bind fun (written, i') => loop input lb turns i' (out ++ written)
    else some out

/-- The redacted text. There is none when the program ends in a slice or the loop goes on. -/
def redactSecrets (input : Text) : Option Text :=
  loop input (encode (toAsciiLowercase input)) (byteLen input + 1) 0 []

/-! ## Bytes and characters -/

theorem contains_high {l : List Char} {c : Char} (hl : (l.all fun d => d.toNat < 128) = true) (hc : 128 ≤ c.toNat) :
    l.contains c = false := by
  rw [List.contains_eq_mem, decide_eq_false_iff_not]
  intro hmem
  have hlow := of_decide_eq_true (List.all_eq_true.mp hl c hmem)
  omega

theorem secret_ascii : Ascii isSecretChar isSecretByte where
  same := forall_ascii (by decide)
  high_byte := forall_byte (by decide +kernel)
  high_char c hc := by rw [isSecretChar, isAlphanum_high hc, contains_high (by decide) hc, Bool.false_or]

theorem word_ascii : Ascii isWordChar isWordByte where
  same := forall_ascii (by decide)
  high_byte := forall_byte (by decide +kernel)
  high_char c hc := by rw [isWordChar, isAlphanum_high hc, contains_high (by decide) hc, Bool.false_or]

theorem byteLen_lower (t : Text) : byteLen (toAsciiLowercase t) = byteLen t := byteLen_map_toLower t

theorem drop_lower (before t : Text) :
    (encode (toAsciiLowercase (before ++ t))).drop (byteLen before) = encode (toAsciiLowercase t) := by
  rw [lower_append, encode_append, ← byteLen_lower before]
  exact List.drop_left

theorem boundaryAt_eq (before t : Text) :
    boundaryAt (encode (toAsciiLowercase (before ++ t))) (byteLen before) = some (atBoundary before) := by
  by_cases hne : before = []
  · rw [hne]
    rfl
  have hpos : byteLen before ≠ 0 := mt byteLen_eq_zero.mp hne
  have hlast : (encode (toAsciiLowercase (before ++ t)))[byteLen before - 1]? =
      (encode (toAsciiLowercase before)).getLast? := by
    have hlength : (encode (toAsciiLowercase before)).length = byteLen before := byteLen_lower before
    rw [lower_append, encode_append, List.getLast?_eq_getElem?, hlength, List.getElem?_append_left (by omega)]
  have hmap := word_ascii.getLast?_encode (toAsciiLowercase before)
  rw [boundaryAt, if_neg hpos, hlast, ← atBoundary_lower, atBoundary]
  cases hchar : (toAsciiLowercase before).getLast? with
  | none => exact absurd (List.map_eq_nil_iff.mp (List.getLast?_eq_none_iff.mp hchar)) hne
  | some c =>
    rw [hchar] at hmap
    obtain ⟨b, hb, hbc⟩ := Option.map_eq_some_iff.mp hmap
    rw [hb, Option.map_some, hbc, Option.all_some]

theorem startsWith_iff {before t : Text} {word : String} (hword : ∀ c ∈ word.toList, c.toNat < 128) :
    startsWith (encode (toAsciiLowercase (before ++ t))) (byteLen before) word = true ↔
      ∃ w r, t = w ++ r ∧ toAsciiLowercase w = word.toList := by
  rw [startsWith, drop_lower, List.isPrefixOf_iff_prefix, encode_prefix_iff hword, ← List.isPrefixOf_iff_prefix,
    isPrefixOf_lower]

theorem runEnd_eq (before t : Text) :
    runEnd (encode (toAsciiLowercase (before ++ t))) (byteLen before) = byteLen before + byteLen (run t) := by
  have hrun : (toAsciiLowercase t).takeWhile isSecretChar = toAsciiLowercase (run t) := by
    rw [toAsciiLowercase, List.takeWhile_map, toAsciiLowercase, run]
    exact congrArg (fun p => (t.takeWhile p).map Char.toLower) (funext isSecretChar_toLower)
  rw [runEnd, drop_lower, secret_ascii.takeWhile_encode, hrun]
  exact congrArg (byteLen before + ·) (byteLen_lower (run t))

/-! ## The loop and the scan -/

theorem ascii_of_all {words : List String} (h : (words.all fun s => s.toList.all fun c => c.toNat < 128) = true) :
    ∀ s ∈ words, ∀ c ∈ s.toList, c.toNat < 128 := fun s hs c hc =>
  of_decide_eq_true (List.all_eq_true.mp (List.all_eq_true.mp h s hs) c hc)

theorem trigger_ascii : ∀ s ∈ valueTriggers, ∀ c ∈ s.toList, c.toNat < 128 := ascii_of_all (by decide)

theorem key_ascii : ∀ s ∈ keyPrefixes, ∀ c ∈ s.toList, c.toNat < 128 := ascii_of_all (by decide)

theorem byteLen_word {w : Text} {word : String} (h : toAsciiLowercase w = word.toList) : byteLen word.toList = byteLen w := by
  rw [← h, byteLen_lower]

theorem byteLen_run (t : Text) : byteLen (run t) = (run t).length := by
  apply byteLen_ascii
  intro c hc
  by_contra hhigh
  have hsecret := List.all_eq_true.mp (run_all t) c hc
  rw [secret_ascii.high_char c (Nat.not_lt.mp hhigh)] at hsecret
  cases hsecret

/-- The loop finds a key where the scan finds one. -/
theorem startsKey_iff {before t : Text} {start : String} (hstart : start ∈ keyPrefixes) :
    startsKey (encode (toAsciiLowercase (before ++ t))) (byteLen before) start = true ↔
      ∃ w r, t = w ++ r ∧ toAsciiLowercase w = start.toList ∧ 8 ≤ (run r).length := by
  rw [startsKey, Bool.and_eq_true, decide_eq_true_eq, startsWith_iff (key_ascii start hstart)]
  constructor
  · rintro ⟨⟨w, r, rfl, hw⟩, hlong⟩
    rw [byteLen_word hw, ← byteLen_append, ← List.append_assoc, runEnd_eq, byteLen_append, byteLen_run] at hlong
    exact ⟨w, r, rfl, hw, by omega⟩
  · rintro ⟨w, r, rfl, hw, hlong⟩
    refine ⟨⟨w, r, rfl, hw⟩, ?_⟩
    rw [byteLen_word hw, ← byteLen_append, ← List.append_assoc, runEnd_eq, byteLen_append, byteLen_run]
    omega

theorem copy_eq (before : Text) {t : Text} (ht : t ≠ []) (h : atBoundary before = true → spanAt t = none) :
    ((sliceFrom (before ++ t) (byteLen before)).bind fun rest => rest.head?.map fun ch =>
      ([ch], byteLen before + ch.utf8Size)) =
      some ((pieceAt before t).shown, byteLen before + byteLen (pieceAt before t).text) := by
  rcases pieceAt_cases before ht with ⟨c, r, rfl, hp, -⟩ | ⟨hb, hspan⟩
  · have htext : Piece.text ⟨[c], []⟩ = [c] := rfl
    rw [sliceFrom_append, hp, htext, byteLen_cons, byteLen_nil]
    rfl
  · rw [h hb] at hspan
    cases hspan

/-- The loop at a value trigger. -/
theorem turn_trigger {before w r : Text} {trigger : String} (hb : atBoundary before = true) (hmem : trigger ∈ valueTriggers)
    (hw : toAsciiLowercase w = trigger.toList)
    (hfind : valueTriggers.find? (startsWith (encode (toAsciiLowercase (before ++ (w ++ r)))) (byteLen before)) =
      some trigger) :
    turn (before ++ (w ++ r)) (encode (toAsciiLowercase (before ++ (w ++ r)))) (byteLen before) =
      some ((pieceAt before (w ++ r)).shown, byteLen before + byteLen (pieceAt before (w ++ r)).text) := by
  have htrigger : IsTrigger w := List.mem_map.mpr ⟨trigger, hmem, hw.symm⟩
  have hend : runEnd (encode (toAsciiLowercase (before ++ (w ++ r)))) (byteLen before + byteLen w) =
      byteLen before + byteLen w + byteLen (run r) := by
    rw [← byteLen_append, ← List.append_assoc, runEnd_eq]
  have htext : byteLen (Piece.text ⟨w, run r⟩) = byteLen w + byteLen (run r) := byteLen_append w (run r)
  rw [turn, boundaryAt_eq, Option.bind_some, hb, if_pos rfl, if_pos rfl, hfind,
    pieceAt_of_span hb (spanAt_trigger r htrigger), htext]
  dsimp only
  rw [byteLen_word hw, slice_append, Option.map_some, hend, Piece.shown]
  by_cases hrun : run r = []
  · rw [hrun, byteLen_nil, if_neg (by omega), if_pos rfl, List.append_nil, Nat.add_zero]
  · have hpos : byteLen (run r) ≠ 0 := mt byteLen_eq_zero.mp hrun
    rw [if_pos (by omega), if_neg hrun, Nat.add_assoc]

/-- The loop at a key. -/
theorem turn_key {before w r : Text} {start : String} (hb : atBoundary before = true) (hmem : start ∈ keyPrefixes)
    (hw : toAsciiLowercase w = start.toList) (hlong : 8 ≤ (run r).length)
    (hvalue : valueTriggers.find? (startsWith (encode (toAsciiLowercase (before ++ (w ++ r)))) (byteLen before)) = none)
    (hfind : keyPrefixes.find? (startsKey (encode (toAsciiLowercase (before ++ (w ++ r)))) (byteLen before)) =
      some start) :
    turn (before ++ (w ++ r)) (encode (toAsciiLowercase (before ++ (w ++ r)))) (byteLen before) =
      some ((pieceAt before (w ++ r)).shown, byteLen before + byteLen (pieceAt before (w ++ r)).text) := by
  have htoken : IsKeyToken (run (w ++ r)) := isKeyToken_run.mpr ⟨start, hmem, w, r, rfl, hw, hlong⟩
  have hend : runEnd (encode (toAsciiLowercase (before ++ (w ++ r)))) (byteLen before + byteLen w) =
      byteLen before + byteLen (run (w ++ r)) := by
    rw [← byteLen_append, ← List.append_assoc, runEnd_eq, run_key hmem hw, byteLen_append, byteLen_append, Nat.add_assoc]
  have hne : run (w ++ r) ≠ [] := by
    rw [run_key hmem hw]
    exact List.append_ne_nil_of_right_ne_nil _ (List.ne_nil_of_length_pos (by omega))
  rw [turn, boundaryAt_eq, Option.bind_some, hb, if_pos rfl, if_pos rfl, hvalue, hfind,
    pieceAt_of_span hb (spanAt_token htoken), Piece.shown, Piece.text]
  dsimp only
  rw [byteLen_word hw, hend, if_neg hne, List.nil_append, List.nil_append]

/-- Where the loop finds neither a trigger nor a key the scan finds no piece. -/
theorem spanAt_of_unfound {before t : Text}
    (hvalue : valueTriggers.find? (startsWith (encode (toAsciiLowercase (before ++ t))) (byteLen before)) = none)
    (hkey : keyPrefixes.find? (startsKey (encode (toAsciiLowercase (before ++ t))) (byteLen before)) = none) :
    spanAt t = none := by
  cases hspan : spanAt t with
  | none => rfl
  | some p =>
    obtain ⟨r, hr, hhidden, htrigger | ⟨hkept, htoken⟩⟩ := spanAt_spec hspan
    · obtain ⟨trigger, hmem, hw⟩ := htrigger.exists_mem
      exact absurd ((startsWith_iff (trigger_ascii trigger hmem)).mpr ⟨p.kept, r, hr, hw.symm⟩)
        (List.find?_eq_none.mp hvalue trigger hmem)
    · rw [hkept, List.nil_append] at hr
      rw [hhidden, ← hr] at htoken
      obtain ⟨start, hmem, hstart⟩ := isKeyToken_run.mp htoken
      exact absurd ((startsKey_iff hmem).mpr hstart) (List.find?_eq_none.mp hkey start hmem)

theorem turn_eq (before : Text) {t : Text} (ht : t ≠ []) :
    turn (before ++ t) (encode (toAsciiLowercase (before ++ t))) (byteLen before) =
      some ((pieceAt before t).shown, byteLen before + byteLen (pieceAt before t).text) := by
  cases hb : atBoundary before with
  | false =>
    rw [turn, boundaryAt_eq, Option.bind_some, hb]
    exact copy_eq before ht fun h => absurd (hb.symm.trans h) Bool.false_ne_true
  | true =>
    cases hvalue : valueTriggers.find? (startsWith (encode (toAsciiLowercase (before ++ t))) (byteLen before)) with
    | some trigger =>
      have hmem := List.mem_of_find?_eq_some hvalue
      obtain ⟨w, r, rfl, hw⟩ := (startsWith_iff (trigger_ascii trigger hmem)).mp (List.find?_some hvalue)
      exact turn_trigger hb hmem hw hvalue
    | none =>
      cases hkey : keyPrefixes.find? (startsKey (encode (toAsciiLowercase (before ++ t))) (byteLen before)) with
      | some start =>
        have hmem := List.mem_of_find?_eq_some hkey
        obtain ⟨w, r, rfl, hw, hlong⟩ := (startsKey_iff hmem).mp (List.find?_some hkey)
        exact turn_key hb hmem hw hlong hvalue hkey
      | none =>
        rw [turn, boundaryAt_eq, Option.bind_some, hb, if_pos rfl, if_pos rfl, hvalue]
        dsimp only
        rw [hkey]
        exact copy_eq before ht fun _ => spanAt_of_unfound hvalue hkey

theorem loop_eq (before t out : Text) {turns : Nat} (h : t.length < turns) :
    loop (before ++ t) (encode (toAsciiLowercase (before ++ t))) turns (byteLen before) out =
      some (out ++ (pieces before t).flatMap Piece.shown) := by
  induction turns generalizing before t out with
  | zero => exact absurd h (Nat.not_lt_zero _)
  | succ turns ih =>
    rw [loop, byteLen_append]
    by_cases ht : t = []
    · rw [ht, byteLen_nil, if_neg (by omega), pieces_nil, List.flatMap_nil, List.append_nil]
    · have hpos : byteLen t ≠ 0 := mt byteLen_eq_zero.mp ht
      rw [if_pos (by omega), turn_eq before ht, Option.bind_some]
      obtain ⟨r, hr, hpieces⟩ := pieces_eq before ht
      have hne := List.length_pos_of_ne_nil (pieceAt_text before ht).1
      have hlength : t.length = (pieceAt before t).text.length + r.length := by
        rw [← List.length_append, ← hr]
      have hwhole : before ++ t = before ++ (pieceAt before t).text ++ r := by rw [List.append_assoc, ← hr]
      dsimp only
      rw [hpieces, List.flatMap_cons, ← List.append_assoc, ← byteLen_append]
      conv => lhs; rw [hwhole]
      exact ih _ r _ (by omega)

/-- The loop comes to an end, takes nothing from within a character, and writes what the scan shows. -/
theorem redactSecrets_eq (input : Text) : redactSecrets input = some ((pieces [] input).flatMap Piece.shown) :=
  loop_eq [] input [] (Nat.lt_succ_of_le (length_le_byteLen input))

theorem redactSecrets_refines (input : Text) : redactSecrets input = some (ProviderErrors.redactSecrets input) := by
  rw [redactSecrets_eq, SecretScan.redactSecrets_eq]

/-- What is asked of the redacted text. -/
structure Redacted (input out : Text) : Prop where
  again : redactSecrets out = some out
  written : out = (pieces [] input).flatMap Piece.shown
  hidden : ∀ o : Triggered input, ∀ k < o.value.length, ¬ IsCopied input (o.pre.length + o.trigger.length + k)

/-- The values are all hidden unless the trigger with the blank lies in another value and has a value that is not
a token by itself. -/
theorem redacted_iff (input : Text) : (∃ out, redactSecrets input = some out ∧ Redacted input out) ↔
    ∀ o : Triggered input, IsBearer o.trigger → Covered o.pre → o.value = [] ∨ IsKeyToken o.value := by
  constructor
  · rintro ⟨out, -, hout⟩ o
    exact o.hidden_iff.mp (hout.hidden o)
  · intro h
    refine ⟨_, redactSecrets_refines input, ?_, SecretScan.redactSecrets_eq input, fun o => o.hidden_iff.mpr (h o)⟩
    rw [redactSecrets_refines, redactSecrets_idempotent]

def tokenOfBearer : Text := "token=bearer abc".toList

theorem bearer_value_is_copied : redactSecrets tokenOfBearer = some "token=<redacted> abc".toList ∧
    ¬ ∃ out, redactSecrets tokenOfBearer = some out ∧ Redacted tokenOfBearer out := by
  refine ⟨by decide, fun ⟨out, _, hout⟩ => ?_⟩
  let o : Triggered tokenOfBearer :=
    ⟨"token=".toList, "bearer ".toList, "abc".toList, [], by decide, by decide, by decide, by decide⟩
  have hcovered : Covered "token=".toList := by
    rw [Covered]
    exact ⟨[], "token=".toList, [], rfl, rfl, rfl, .inl ⟨by decide, fun hbearer => absurd hbearer (by decide)⟩⟩
  rcases o.hidden_iff.mp (hout.hidden o) (by decide) hcovered with hempty | ⟨k, -, -, hlong⟩
  · exact absurd hempty (by decide)
  · have hshort : o.value.length = 3 := by decide
    omega

end FerrisScope.SecretBytes
