import FerrisScope.HostsFile
import FerrisScope.LabelledRuns
import FerrisScope.SessionCodec
import Mathlib.Data.List.TakeWhile

/-!
# The session log after crashes

An append opens the log, writes the line of its event at the end, with a line feed, and returns. A
crash in the middle leaves a part of these bytes, and the next append goes on behind them. Loading
reads the whole file as text, takes it line by line and skips what is blank or malformed.

A part that ends inside a character makes the file unreadable as text, and a part without its line
feed runs into the next line. Where no part is cut inside a character and every append that returns
started on a line of its own, loading finds all of them.
-/

namespace FerrisScope.SessionLog
open LabelledRuns ChatMessages SessionEvents DerivedCodecs SessionCodec
open HostsFile (Text isWhitespace trim stripCr linesFrom lines)

def toUtf8 (t : Text) : List UInt8 := t.flatMap String.utf8EncodeChar

def fromUtf8 (bytes : List UInt8) : Option Text := bytes.toByteArray.utf8Decode?.map Array.toList

/-- The bytes `append` writes for an event. -/
def lineBytes (T : JsonText) (F : Floats) (e : SessionEvent) : List UInt8 := toUtf8 (encodeLine T F e ++ ['\n'])

/-- The file, and the events whose append returned. -/
structure State where
  file : List UInt8
  completed : List SessionEvent

def create : State where
  file := []
  completed := []

inductive Action where
  | append (event : SessionEvent)
  | crash (event : SessionEvent) (written : Nat)

def step (T : JsonText) (F : Floats) (s : State) : Action → Option State
  | .append e => some ⟨s.file ++ lineBytes T F e, s.completed ++ [e]⟩
  | .crash e written => some { s with file := s.file ++ (lineBytes T F e).take written }

inductive LoadError where
  | io (error : String)
  deriving DecidableEq, Repr

/-- The events of a text, malformed lines skipped. -/
def eventsOf (T : JsonText) (F : Floats) (t : Text) : List SessionEvent :=
  ((lines t).filter fun line => !(trim line).isEmpty).filterMap (decodeLine T F)

def readEvents (T : JsonText) (F : Floats) (file : List UInt8) : Except LoadError (List SessionEvent) :=
  match fromUtf8 file with
  | none => .error (.io "stream did not contain valid UTF-8")
  | some raw => .ok (eventsOf T F raw)

def load (T : JsonText) (F : Floats) (file : List UInt8) : Except LoadError (List SessionEvent) :=
  (readEvents T F file).map applyCompaction

/-- The log reads, and has every event whose append returned, in order. -/
def Recovers (T : JsonText) (F : Floats) (s : State) : Prop :=
  ∃ events, readEvents T F s.file = .ok events ∧ load T F s.file = .ok (applyCompaction events) ∧
    s.completed.Sublist events

/-- Nothing stands on the last line. -/
def AtLineStart (file : List UInt8) : Prop := ∀ raw, fromUtf8 file = some raw → raw = [] ∨ raw.getLast? = some '\n'

/-- The event comes back from its own line. -/
def Lasting (e : SessionEvent) : Prop := ∀ u ts, e = .sessionUpdate u ts → SetsOnly u

/-- An append that returns starts on a line of its own, with an event that its line gives back; a
crash leaves whole characters. -/
def Clean (T : JsonText) (F : Floats) (s : State) : Action → Prop
  | .append e => AtLineStart s.file ∧ Lasting e
  | .crash e written => (fromUtf8 ((lineBytes T F e).take written)).isSome = true

/-- What JSON promises of the text of an object. -/
structure LineText (T : JsonText) (v : Value) : Prop where
  readsBack : T.ReadsBack v
  oneLine : '\n' ∉ T.toString v
  closed : (T.toString v).getLast? = some '\x7d'

def Action.event : Action → SessionEvent
  | .append e => e
  | .crash e _ => e

theorem toUtf8_append (t t' : Text) : toUtf8 (t ++ t') = toUtf8 t ++ toUtf8 t' := List.flatMap_append

theorem fromUtf8_toUtf8 (t : Text) : fromUtf8 (toUtf8 t) = some t := by
  have h : (toUtf8 t).toByteArray.utf8Decode? = some t.toArray := List.utf8Decode?_utf8Encode
  rw [fromUtf8, h]
  rfl

theorem eq_toUtf8_of_fromUtf8 {bytes : List UInt8} {t : Text} (h : fromUtf8 bytes = some t) : bytes = toUtf8 t := by
  obtain ⟨cs, hcs, rfl⟩ := Option.map_eq_some_iff.mp h
  have hback := ByteArray.utf8Encode_get_utf8Decode? (b := bytes.toByteArray) (h := by rw [hcs]; rfl)
  have hget : bytes.toByteArray.utf8Decode?.get (by rw [hcs]; rfl) = cs := by
    simp [hcs]
  rw [hget] at hback
  exact (List.toByteArray_inj.mp hback).symm

/-- A text that is empty or ends with a line feed. -/
def Whole (t : Text) : Prop := t = [] ∨ t.getLast? = some '\n'

theorem linesFrom_feed (acc pre rest : Text) :
    linesFrom acc (pre ++ '\n' :: rest) = linesFrom acc (pre ++ ['\n']) ++ linesFrom [] rest := by
  induction pre generalizing acc with
  | nil => simp [linesFrom]
  | cons c pre ih =>
    rw [List.cons_append, List.cons_append, linesFrom, linesFrom]
    split
    · rw [ih, List.cons_append]
    · exact ih _

/-- Lines before and after a line feed. -/
theorem lines_append {done : Text} (h : Whole done) (rest : Text) : lines (done ++ rest) = lines done ++ lines rest := by
  rcases h with rfl | hlast
  · rfl
  · obtain ⟨pre, rfl⟩ := List.getLast?_eq_some_iff.mp hlast
    rw [List.append_assoc]
    exact linesFrom_feed [] pre rest

theorem eventsOf_append (T : JsonText) (F : Floats) {done : Text} (h : Whole done) (rest : Text) :
    eventsOf T F (done ++ rest) = eventsOf T F done ++ eventsOf T F rest := by
  rw [eventsOf, lines_append h, List.filter_append, List.filterMap_append]
  rfl

theorem trim_ne_nil {c : Char} {t : Text} (hmem : c ∈ t) (hc : isWhitespace c = false) : trim t ≠ [] := by
  intro h
  rw [trim, List.reverse_eq_nil_iff, List.dropWhile_eq_nil_iff] at h
  have hall : ∀ x ∈ t.dropWhile isWhitespace, isWhitespace x = true := fun x hx => h x (List.mem_reverse.mpr hx)
  cases hdrop : t.dropWhile isWhitespace with
  | nil =>
    have := List.dropWhile_eq_nil_iff.mp hdrop c hmem
    rw [hc] at this
    cases this
  | cons x rest =>
    have hhead := List.head_dropWhile_not isWhitespace (by rw [hdrop]; exact List.cons_ne_nil x rest)
    rw [hall _ (List.head_mem _)] at hhead
    cases hhead

section Lines

variable {T : JsonText} {F : Floats} {e : SessionEvent}

/-- The line of an event on its own. -/
theorem eventsOf_line (hF : F.Faithful) (hT : LineText T ((sessionEvent F).write e)) (he : Lasting e) :
    eventsOf T F (encodeLine T F e ++ ['\n']) = [e] := by
  have hlast : (encodeLine T F e).getLast? = some '\x7d' := hT.closed
  have hone : '\n' ∉ encodeLine T F e := hT.oneLine
  have hstrip : stripCr (encodeLine T F e) = encodeLine T F e := by
    rw [stripCr, if_neg]
    rw [hlast]
    decide
  have hlines : lines (encodeLine T F e ++ ['\n']) = [encodeLine T F e] := by
    rw [lines, HostsFile.linesFrom_append hone, List.nil_append, hstrip]
    rfl
  have hblank : (trim (encodeLine T F e)).isEmpty = false := by
    rw [List.isEmpty_eq_false_iff]
    exact trim_ne_nil (List.mem_of_getLast? hlast) (by decide)
  have hback : decodeLine T F (encodeLine T F e) = some e := by
    rw [decodeLine_encodeLine hF hT.readsBack]
    cases e with
    | sessionUpdate u ts =>
      rw [eventBack, (updateBack_eq_self_iff u).mpr (he u ts rfl)]
    | _ => rfl
  rw [eventsOf, hlines]
  simp [hblank, hback]

/-- The file is text, and what is before its last line feed has every event that was completed. -/
structure Kept (T : JsonText) (F : Floats) (s : State) (done torn : Text) : Prop where
  file : s.file = toUtf8 (done ++ torn)
  whole : Whole done
  completed : s.completed.Sublist (eventsOf T F done)

def Sound (T : JsonText) (F : Floats) (s : State) : Prop := ∃ done torn, Kept T F s done torn

theorem sound_append (hF : F.Faithful) (hT : LineText T ((sessionEvent F).write e)) (he : Lasting e) {s : State}
    (hs : Sound T F s) (hstart : AtLineStart s.file) :
    Sound T F ⟨s.file ++ lineBytes T F e, s.completed ++ [e]⟩ := by
  obtain ⟨done, torn, hkept⟩ := hs
  have hwhole : Whole (done ++ torn) := hstart _ (by rw [hkept.file, fromUtf8_toUtf8])
  refine ⟨done ++ torn ++ (encodeLine T F e ++ ['\n']), [], ?_, ?_, ?_⟩
  · rw [List.append_nil, toUtf8_append (done ++ torn), ← hkept.file]
    rfl
  · right
    rw [← List.append_assoc, List.getLast?_concat]
  · rw [eventsOf_append T F hwhole, eventsOf_line hF hT he, eventsOf_append T F hkept.whole]
    exact (hkept.completed.trans (List.sublist_append_left _ _)).append (List.Sublist.refl [e])

theorem sound_crash {s : State} (hs : Sound T F s) {written : Nat}
    (hcut : (fromUtf8 ((lineBytes T F e).take written)).isSome = true) :
    Sound T F { s with file := s.file ++ (lineBytes T F e).take written } := by
  obtain ⟨done, torn, hkept⟩ := hs
  obtain ⟨part, hpart⟩ := Option.isSome_iff_exists.mp hcut
  refine ⟨done, torn ++ part, ?_, hkept.whole, hkept.completed⟩
  rw [← List.append_assoc, toUtf8_append (done ++ torn), ← hkept.file, eq_toUtf8_of_fromUtf8 hpart]

end Lines

theorem sound_create (T : JsonText) (F : Floats) : Sound T F create :=
  ⟨[], [], rfl, .inl rfl, List.Sublist.refl []⟩

/-- A sound log is recovered. -/
theorem Sound.recovers {T : JsonText} {F : Floats} {s : State} (h : Sound T F s) : Recovers T F s := by
  obtain ⟨done, torn, hkept⟩ := h
  have hread : readEvents T F s.file = .ok (eventsOf T F (done ++ torn)) := by
    rw [readEvents, hkept.file, fromUtf8_toUtf8]
  refine ⟨_, hread, ?_, ?_⟩
  · rw [load, hread]
    rfl
  · rw [eventsOf_append T F hkept.whole]
    exact hkept.completed.trans (List.sublist_append_left _ _)

/-- The text of every event of the run is a line of its own. -/
def WritesLines (T : JsonText) (F : Floats) (acts : List Action) : Prop :=
  ∀ a ∈ acts, LineText T ((sessionEvent F).write a.event)

theorem sound_run {T : JsonText} {F : Floats} (hF : F.Faithful) {acts : List Action} (hT : WritesLines T F acts)
    {s t : State} (hs : Sound T F s) (hclean : Meets (step T F) (Clean T F) s acts)
    (hrun : run (step T F) s acts = some t) : Sound T F t := by
  induction acts generalizing s with
  | nil =>
    cases hrun
    exact hs
  | cons a acts ih =>
    obtain ⟨u, hu, hrest⟩ := run_cons_eq_some.mp hrun
    refine ih (fun b hb => hT b (List.mem_cons_of_mem a hb)) ?_ (hclean.2 u hu) hrest
    have ha := hT a List.mem_cons_self
    have hc := hclean.1
    cases a with
    | append e =>
      cases hu
      exact sound_append hF ha hc.2 hs hc.1
    | crash e written =>
      cases hu
      exact sound_crash hs hc

/-- In every run in which crashes leave whole characters and every append that returns starts on a
line of its own, with an event that its line gives back, loading succeeds at every point and has
every event whose append returned, in order. -/
theorem log_recovers (T : JsonText) (F : Floats) (hF : F.Faithful) (acts : List Action) (hT : WritesLines T F acts)
    (hclean : Meets (step T F) (Clean T F) create acts) (s : State) (hrun : run (step T F) create acts = some s) :
    Recovers T F s :=
  (sound_run hF hT (sound_create T F) hclean hrun).recovers

theorem question_line : LineText questionText ((sessionEvent bitFloats).write question) where
  readsBack := textOf_readsBack _ _
  oneLine := by decide +kernel
  closed := by decide +kernel

/-- An append, and one that a crash cuts off after ten bytes. -/
def cutOff : List Action := [.append question, .crash question 10]

theorem cutOff_recovers : bitFloats.Faithful ∧ WritesLines questionText bitFloats cutOff ∧
    Meets (step questionText bitFloats) (Clean questionText bitFloats) create cutOff ∧
    ∃ s, run (step questionText bitFloats) create cutOff = some s ∧ s.completed = [question] ∧
      Recovers questionText bitFloats s := by
  have hF : bitFloats.Faithful := fun x _ => UInt32.toUInt32_toUInt64 x
  have hT : WritesLines questionText bitFloats cutOff := by
    intro a ha
    simp only [cutOff, List.mem_cons, List.not_mem_nil, or_false] at ha
    rcases ha with rfl | rfl
    · exact question_line
    · exact question_line
  have hpart : (lineBytes questionText bitFloats question).take 10 =
      toUtf8 ((encodeLine questionText bitFloats question).take 10) := by decide +kernel
  have hclean : Meets (step questionText bitFloats) (Clean questionText bitFloats) create cutOff := by
    refine ⟨⟨fun raw hraw => ?_, fun u ts h => by cases h⟩, fun t _ => ⟨?_, fun _ _ => trivial⟩⟩
    · have hempty : fromUtf8 create.file = some [] := fromUtf8_toUtf8 []
      exact .inl (Option.some.inj (hraw.symm.trans hempty))
    · change (fromUtf8 ((lineBytes questionText bitFloats question).take 10)).isSome = true
      rw [hpart, fromUtf8_toUtf8]
      rfl
  exact ⟨hF, hT, hclean, _, rfl, rfl, log_recovers questionText bitFloats hF cutOff hT hclean _ rfl⟩

/-- A crash after ten bytes, and then an append that returns. -/
def runsOn : List Action := [.crash question 10, .append question]

/-- The completed event stands on the line of the broken one and is skipped with it. -/
theorem runsOn_loses : ∃ s, run (step questionText bitFloats) create runsOn = some s ∧
    s.completed = [question] ∧ load questionText bitFloats s.file = .ok [] ∧ ¬Recovers questionText bitFloats s := by
  have hfile : ([] ++ (lineBytes questionText bitFloats question).take 10) ++ lineBytes questionText bitFloats question =
      toUtf8 ((encodeLine questionText bitFloats question).take 10 ++
        (encodeLine questionText bitFloats question ++ ['\n'])) := by decide +kernel
  have hnone : eventsOf questionText bitFloats ((encodeLine questionText bitFloats question).take 10 ++
      (encodeLine questionText bitFloats question ++ ['\n'])) = [] := by decide +kernel
  have hread : readEvents questionText bitFloats
      (([] ++ (lineBytes questionText bitFloats question).take 10) ++ lineBytes questionText bitFloats question) = .ok [] := by
    rw [hfile, readEvents, fromUtf8_toUtf8]
    dsimp only
    rw [hnone]
  refine ⟨_, rfl, rfl, ?_, ?_⟩
  · change load questionText bitFloats
      (([] ++ (lineBytes questionText bitFloats question).take 10) ++ lineBytes questionText bitFloats question) = .ok []
    rw [load, hread]
    rfl
  · rintro ⟨events, hevents, -, hsub⟩
    change readEvents questionText bitFloats
      (([] ++ (lineBytes questionText bitFloats question).take 10) ++ lineBytes questionText bitFloats question) = _ at hevents
    rw [hread] at hevents
    cases hevents
    exact absurd hsub.length_le (by decide)

end FerrisScope.SessionLog
