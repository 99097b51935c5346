import FerrisScope.PathComponents
import FerrisScope.RepinnedIdentities
import Mathlib.Data.List.DropRight
import Mathlib.Data.List.Forall2

/-!
# Slots of cached tokens

Each identity gets a directory in which the plugin keeps its token. The name of the directory is made from the
identity, and a pin removes the tokens of all directories.
-/

namespace FerrisScope.TokenSlots
open PathComponents

inductive IoError where
  | notFound (message : String)
  | other (message : String)
  deriving DecidableEq, Repr

def IoError.message : IoError → String
  | .notFound message => message
  | .other message => message

/-- The characters of an identity that stand in its slot's name. -/
def isPlain (c : Char) : Bool := c.isAlphanum || c ∈ ['.', '-', '_', '@']

def cleaned (c : Char) : Char := if isPlain c then c else '_'

def trimDots (cs : List Char) : List Char := (cs.dropWhile (· = '.')).rdropWhile (· = '.')

def maxName : ℕ := 80

def activeSlot : List Char := "active".toList

def slotName : Option String → List Char
  | none => activeSlot
  | some identity =>
      let trimmed := trimDots (identity.toList.map cleaned)
      if trimmed = [] then activeSlot else trimmed.take maxName

structure Slot where
  dir : List Char
  kubeconfig : List Char
  deriving DecidableEq, Repr

/-- The slot of an identity; `made` is what becomes of making the directory and the file in it. -/
def prepareSlot (root : Option (List Char)) (identity : Option String) (made : Except IoError Unit) :
    Except IoError Slot :=
  match root with
  | none => .error (.notFound "no config directory for this platform")
  | some root =>
      let dir := join root (slotName identity)
      match made with
      | .error e => .error e
      | .ok _ => .ok ⟨dir, join dir "config".toList⟩

/-- An entry under the root: whether reading it from the directory fails, whether a token file is in it, and why the
token file could not be removed. -/
structure SlotEntry where
  name : List Char
  unread : Bool
  token : Bool
  locked : Option String
  deriving DecidableEq, Repr

/-- The root, when its entries can be listed; a root that is not there has none. -/
structure SlotsRoot where
  opened : Except IoError Unit
  entries : List SlotEntry
  missing : ∀ message, opened = .error (.notFound message) → entries = []

def removeToken (e : SlotEntry) : SlotEntry × Except IoError Unit :=
  match e.locked with
  | some message => (e, .error (.other message))
  | none =>
      if e.token then ({ e with token := false }, .ok ())
      else (e, .error (.notFound "No such file or directory"))

/-- The tokens of the entries are removed. An entry that cannot be read is passed over. -/
def clearEntries : List SlotEntry → List SlotEntry × Except IoError Unit
  | [] => ([], .ok ())
  | e :: es =>
      if e.unread then ((e :: (clearEntries es).1), (clearEntries es).2)
      else match removeToken e with
        | (e', .error (.other message)) => (e' :: es, .error (.other message))
        | (e', _) => (e' :: (clearEntries es).1, (clearEntries es).2)

def clearCacheSlotsAt (root : SlotsRoot) : List SlotEntry × Except IoError Unit :=
  match root.opened with
  | .error (.notFound _) => (root.entries, .ok ())
  | .error e => (root.entries, .error e)
  | .ok _ => clearEntries root.entries

/-- Different identities have different slots, a slot is a file name under the root, and no token is left when the
slots are cleared without an error. -/
structure SlotsSeparate (root : List Char) (a b : Option String) (slots : SlotsRoot) : Prop where
  apart : a ≠ b → ∀ made made' slot slot', prepareSlot (some root) a made = .ok slot →
    prepareSlot (some root) b made' = .ok slot' → components slot.dir ≠ components slot'.dir
  single : ∀ identity made slot, prepareSlot (some root) identity made = .ok slot →
    ∃ name, components name = [.normal name] ∧ components slot.dir = components root ++ [.normal name]
  cleared : (clearCacheSlotsAt slots).2 = .ok () → ∀ e ∈ (clearCacheSlotsAt slots).1, e.token = false

/-- What an identity is told apart by. -/
def core : Option String → List Char
  | none => activeSlot
  | some identity => if trimDots identity.toList = [] then activeSlot else (trimDots identity.toList).take maxName

/-- Two characters that look the same in a name: what is not plain is an underscore. -/
def Alike (c d : Char) : Prop := c = d ∨ ((c = '_' ∨ isPlain c = false) ∧ (d = '_' ∨ isPlain d = false))

/-- Without the dots at their ends, and up to a length, the identities look the same. -/
def Confused (a b : Option String) : Prop := List.Forall₂ Alike (core a) (core b)

/-- A token is only where the entry can be read, or the clearing comes to an error. -/
def Reached (slots : SlotsRoot) : Prop :=
  (∀ e ∈ slots.entries, e.unread = true → e.token = false) ∨
    (∃ message, slots.opened = .error (.other message)) ∨ ∃ e ∈ slots.entries, e.unread = false ∧ e.locked ≠ none

/-! ## Names -/

theorem cleaned_of_plain {c : Char} (h : isPlain c = true) : cleaned c = c := if_pos h

theorem cleaned_eq_dot {c : Char} : cleaned c = '.' ↔ c = '.' := by
  rw [cleaned]
  split
  · rfl
  · next h =>
    refine iff_of_false (by decide) ?_
    rintro rfl
    exact h (by decide)

theorem cleaned_ne_slash (c : Char) : cleaned c ≠ '/' := by
  rw [cleaned]
  split
  · next h =>
    rintro rfl
    exact absurd h (by decide)
  · decide

theorem cleaned_eq_iff {c d : Char} : cleaned c = cleaned d ↔ Alike c d := by
  have hunder : ∀ {c : Char}, cleaned c = '_' ↔ c = '_' ∨ isPlain c = false := by
    intro c
    rw [cleaned]
    split
    · next h => simp [h]
    · next h => simp [Bool.eq_false_iff.mpr h]
  rw [Alike, ← hunder, ← hunder]
  constructor
  · intro h
    by_cases hc : isPlain c = true
    · by_cases hd : isPlain d = true
      · rw [cleaned_of_plain hc, cleaned_of_plain hd] at h
        exact Or.inl h
      · exact Or.inr ⟨h.trans (if_neg hd), if_neg hd⟩
    · exact Or.inr ⟨if_neg hc, h.symm.trans (if_neg hc)⟩
  · rintro (rfl | ⟨hc, hd⟩)
    · rfl
    · exact hc.trans hd.symm

/-- Dots are dots before and after the characters are cleaned. -/
theorem trimDots_map (cs : List Char) : trimDots (cs.map cleaned) = (trimDots cs).map cleaned := by
  have hdot : ((fun c : Char => decide (c = '.')) ∘ cleaned) = fun c : Char => decide (c = '.') :=
    funext fun c => decide_eq_decide.mpr cleaned_eq_dot
  rw [trimDots, trimDots, List.dropWhile_map, hdot, List.rdropWhile, List.rdropWhile, ← List.map_reverse,
    List.dropWhile_map, hdot, List.map_reverse]

theorem slotName_eq (identity : Option String) : slotName identity = (core identity).map cleaned := by
  have hactive : activeSlot = activeSlot.map cleaned := by decide
  cases identity with
  | none => exact hactive
  | some identity =>
    rw [slotName, core, trimDots_map]
    by_cases hnil : trimDots identity.toList = []
    · rw [if_pos hnil, hnil]
      exact hactive
    · rw [if_neg hnil, if_neg (mt List.map_eq_nil_iff.mp hnil), List.map_take]

theorem slotName_eq_iff {a b : Option String} : slotName a = slotName b ↔ Confused a b := by
  rw [slotName_eq, slotName_eq, ← List.forall₂_eq_eq_eq, List.forall₂_map_left_iff, List.forall₂_map_right_iff]
  exact ⟨fun h => h.imp fun _ _ => cleaned_eq_iff.mp, fun h => h.imp fun _ _ => cleaned_eq_iff.mpr⟩

/-- What is left of an identity does not begin with a dot. -/
theorem head?_trimDots (cs : List Char) : (trimDots cs).head? ≠ some '.' := by
  intro h
  have hprefix : trimDots cs <+: cs.dropWhile (· = '.') := List.rdropWhile_prefix _ _
  obtain ⟨t, ht⟩ := hprefix
  have hne : trimDots cs ≠ [] := fun hnil => by
    rw [hnil] at h
    cases h
  have hhead : (cs.dropWhile (· = '.')).head? = some '.' := by
    rw [← ht, List.head?_append_of_ne_nil _ hne]
    exact h
  have hnot := List.head?_dropWhile_not (fun c : Char => decide (c = '.')) cs
  rw [hhead] at hnot
  simp at hnot

theorem isFileName_slotName (identity : Option String) : IsFileName (slotName identity) := by
  have hslash : '/' ∉ slotName identity := by
    rw [slotName_eq]
    intro h
    obtain ⟨c, -, hc⟩ := List.mem_map.mp h
    exact cleaned_ne_slash c hc
  have hhead : slotName identity ≠ [] ∧ (slotName identity).head? ≠ some '.' := by
    cases identity with
    | none => exact ⟨by decide, by decide⟩
    | some identity =>
      rw [slotName]
      split
      · exact ⟨by decide, by decide⟩
      · next hne =>
        obtain ⟨c, t, ht⟩ := List.exists_cons_of_ne_nil hne
        have hc : c ≠ '.' := by
          rintro rfl
          exact head?_trimDots (identity.toList.map cleaned) (by rw [ht]; rfl)
        rw [ht, maxName, List.take_succ_cons]
        exact ⟨List.cons_ne_nil _ _, fun h => hc (Option.some_inj.mp h)⟩
  refine ⟨hhead.1, ?_, ?_, hslash⟩
  · intro h
    exact hhead.2 (by rw [h]; rfl)
  · intro h
    exact hhead.2 (by rw [h]; rfl)

theorem prepareSlot_eq_ok {root : List Char} {identity : Option String} {made : Except IoError Unit} {slot : Slot}
    (h : prepareSlot (some root) identity made = .ok slot) : slot.dir = join root (slotName identity) := by
  cases made with
  | error e => cases h
  | ok _ =>
    cases h
    rfl

/-- The directory of a slot is told by its name. -/
theorem components_slot {root : List Char} {identity : Option String} {made : Except IoError Unit} {slot : Slot}
    (h : prepareSlot (some root) identity made = .ok slot) :
    components slot.dir = components root ++ [.normal (slotName identity)] := by
  rw [prepareSlot_eq_ok h, components_join root (isFileName_slotName identity)]

/-! ## Tokens -/

/-- An entry after its token file has been removed. -/
def emptied (e : SlotEntry) : SlotEntry := if e.unread then e else { e with token := false }

theorem removeToken_unlocked {e : SlotEntry} (h : e.locked = none) :
    (removeToken e).1 = { e with token := false } ∧ ∀ message, (removeToken e).2 ≠ .error (.other message) := by
  obtain ⟨name, unread, token, locked⟩ := e
  obtain rfl : locked = none := h
  cases token with
  | true => exact ⟨rfl, fun message h => by cases h⟩
  | false => exact ⟨rfl, fun message h => by cases h⟩

theorem clearEntries_cons {e : SlotEntry} (es : List SlotEntry) (h : e.unread = true ∨ e.locked = none) :
    clearEntries (e :: es) = (emptied e :: (clearEntries es).1, (clearEntries es).2) := by
  rw [clearEntries, emptied]
  cases hunread : e.unread with
  | true => rfl
  | false =>
    have hlocked := h.resolve_left (by simp [hunread])
    obtain ⟨hentry, hresult⟩ := removeToken_unlocked hlocked
    rw [hunread] at hentry
    rw [if_neg Bool.false_ne_true, if_neg Bool.false_ne_true, ← hentry]
    split
    · next hremove => exact absurd (congrArg Prod.snd hremove) (hresult _)
    · next hremove => rw [hremove]

/-- The clearing goes through exactly when no token file that is looked at is locked. -/
theorem clearEntries_ok_iff (es : List SlotEntry) :
    (clearEntries es).2 = .ok () ↔ ∀ e ∈ es, e.unread = true ∨ e.locked = none := by
  induction es with
  | nil => simp [clearEntries]
  | cons e es ih =>
    rw [List.forall_mem_cons]
    by_cases h : e.unread = true ∨ e.locked = none
    · rw [clearEntries_cons es h]
      exact ih.trans (iff_and_self.mpr fun _ => h)
    · refine iff_of_false ?_ fun hall => h hall.1
      obtain ⟨hunread, hlocked⟩ := not_or.mp h
      obtain ⟨message, hmessage⟩ := Option.ne_none_iff_exists'.mp hlocked
      rw [clearEntries, if_neg hunread, removeToken, hmessage]
      simp

theorem clearEntries_eq {es : List SlotEntry} (h : ∀ e ∈ es, e.unread = true ∨ e.locked = none) :
    (clearEntries es).1 = es.map emptied := by
  induction es with
  | nil => rfl
  | cons e es ih =>
    obtain ⟨he, hes⟩ := List.forall_mem_cons.mp h
    rw [clearEntries_cons es he, ih hes, List.map_cons]

theorem emptied_token {e : SlotEntry} : (emptied e).token = false ↔ (e.unread = true → e.token = false) := by
  rw [emptied]
  cases e.unread <;> simp

/-- The tokens are gone after a clearing without an error exactly when they could be reached. -/
theorem cleared_iff (slots : SlotsRoot) :
    ((clearCacheSlotsAt slots).2 = .ok () → ∀ e ∈ (clearCacheSlotsAt slots).1, e.token = false) ↔ Reached slots := by
  rw [Reached, clearCacheSlotsAt]
  cases hopened : slots.opened with
  | error e =>
    cases e with
    | notFound message => simp [slots.missing message hopened]
    | other message => simp
  | ok _ =>
    have hnot : ∀ message, ¬ (.ok () : Except IoError Unit) = .error (.other message) := fun _ h => by cases h
    dsimp only
    rw [clearEntries_ok_iff]
    constructor
    · intro h
      by_cases hall : ∀ e ∈ slots.entries, e.unread = true ∨ e.locked = none
      · refine Or.inl fun e he => emptied_token.mp (h hall (emptied e) ?_)
        rw [clearEntries_eq hall]
        exact List.mem_map_of_mem he
      · obtain ⟨e, he⟩ := not_forall.mp hall
        obtain ⟨he, hnot⟩ := Classical.not_imp.mp he
        obtain ⟨hunread, hlocked⟩ := not_or.mp hnot
        exact Or.inr (Or.inr ⟨e, he, Bool.eq_false_iff.mpr hunread, hlocked⟩)
    · rintro (h | ⟨message, h⟩ | ⟨e, he, hunread, hlocked⟩) hall e' he'
      · rw [clearEntries_eq hall] at he'
        obtain ⟨e, he, rfl⟩ := List.mem_map.mp he'
        exact emptied_token.mpr (h e he)
      · exact absurd h (hnot message)
      · rcases hall e he with h | h
        · rw [h] at hunread
          cases hunread
        · exact absurd h hlocked

/-- A pin that reports no error has cleared the slots without one. -/
theorem cleared_of_pin {δ : Type} {call : KubeconfigEdits.PinCall δ} {slots : SlotsRoot}
    (hcall : call.slotsRoot = some ((clearCacheSlotsAt slots).2.mapError IoError.message))
    (hreport : KubeconfigEdits.cacheError (some .gcloud) call = none) : (clearCacheSlotsAt slots).2 = .ok () := by
  rw [KubeconfigEdits.cacheError, if_pos rfl, Option.or_eq_none_iff, hcall] at hreport
  cases hresult : (clearCacheSlotsAt slots).2 with
  | ok _ => rfl
  | error e =>
    rw [hresult] at hreport
    cases hreport.2

/-- Slots separate the identities exactly when they are not confused, and no token is out of reach. -/
theorem slotsSeparate_iff (root : List Char) (a b : Option String) (slots : SlotsRoot) :
    SlotsSeparate root a b slots ↔ (a ≠ b → ¬ Confused a b) ∧ Reached slots := by
  have hnames : ∀ made made' slot slot', prepareSlot (some root) a made = .ok slot →
      prepareSlot (some root) b made' = .ok slot' → (components slot.dir = components slot'.dir ↔ Confused a b) := by
    intro made made' slot slot' h h'
    rw [components_slot h, components_slot h', List.append_cancel_left_eq, ← slotName_eq_iff]
    simp
  constructor
  · intro h
    refine ⟨fun hne hconfused => ?_, (cleared_iff slots).mp h.cleared⟩
    exact h.apart hne (.ok ()) (.ok ()) _ _ rfl rfl ((hnames (.ok ()) (.ok ()) _ _ rfl rfl).mpr hconfused)
  · rintro ⟨hapart, hreached⟩
    constructor
    case apart =>
      intro hne made made' slot slot' h h' hsame
      exact hapart hne ((hnames made made' slot slot' h h').mp hsame)
    case single =>
      intro identity made slot h
      exact ⟨slotName identity, (isFileName_slotName identity).components, components_slot h⟩
    case cleared => exact (cleared_iff slots).mpr hreached

def noSlots : SlotsRoot := ⟨.error (.notFound "No such file or directory"), [], fun _ _ => rfl⟩

/-- Two accounts with one slot. -/
theorem not_slotsSeparate_plus :
    ¬ SlotsSeparate "slots".toList (some "dev+ci@a.io") (some "dev_ci@a.io") noSlots := by
  intro h
  exact h.apart (by decide) (.ok ()) (.ok ()) _ _ rfl rfl (by decide)

end FerrisScope.TokenSlots
