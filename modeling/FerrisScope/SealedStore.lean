import FerrisScope.CredentialStore
import FerrisScope.KeyedWrites
import Mathlib.Data.Countable.Basic
import Mathlib.Data.Multiset.Basic
import Mathlib.Logic.Equiv.Multiset

/-!
# The encrypted credentials file

Where the keychain of the platform is of no use, the credentials of all providers are one encrypted file. A write decrypts
it, changes one entry and replaces the file by a new one, written beside it first. It may stop at any point, with an error
or because the process ends. What stops before the new file takes the place of the old one has not happened, and so the file
is a map from providers to credentials. A file that does not open is left as it is.
-/

namespace FerrisScope.SealedStore
open AgentSettings CredentialStore
open KeyedWrites (Table)

inductive SecretError where
  | unavailable (text : String)
  | notFound
  | other (text : String)
  deriving DecidableEq, Repr

abbrev Bytes := List UInt8

abbrev Nonce := { n : Bytes // n.length = 12 }

/-- The cipher under the key of the machine, and the JSON forms of the store and of a credential. -/
structure Sealing (ν : Type) where
  encrypt : Bytes → Bytes → Bytes
  decrypt : Bytes → Bytes → Option Bytes
  toVec : Table String ν → Bytes
  fromSlice : Bytes → Except String (Table String ν)
  toValue : Credential → ν
  fromValue : ν → Except String Credential
  decrypt_encrypt : ∀ nonce plain, decrypt nonce (encrypt nonce plain) = some plain
  /-- The tag. -/
  length_encrypt : ∀ nonce plain, 16 ≤ (encrypt nonce plain).length
  fromSlice_toVec : ∀ store, fromSlice (toVec store) = .ok store
  fromValue_toValue : ∀ c, fromValue (toValue c) = .ok c

/-- `credentials.enc`, and `credentials.enc.tmp` beside it. -/
structure Files where
  main : Option Bytes
  tmp : Option Bytes

/-- Where a call stops. -/
inductive Fault where
  | noConfigDir
  | read (e : String)
  | noKey (e : String)
  | createDir (e : String)
  | encode (e : String)
  | serialize (e : String)
  | encryption
  | create (e : String)
  /-- Only so many bytes are written. -/
  | write (n : ℕ) (e : String)
  | flush (e : String)
  | sync (e : String)
  | rename (e : String)
  deriving DecidableEq

def fileVersion : UInt8 := 1

def nonceLen : ℕ := 12

def accountFor (kind : ProviderKind) : String := if kind = .openRouter then "openrouter" else kind.id

variable {ν : Type} (S : Sealing ν)

/-- The bytes of a file that is there. -/
def openStore (bytes : Bytes) (fault : Option Fault) : Except SecretError (Table String ν) :=
  if bytes = [] then .ok ∅
  else if bytes.length < 1 + nonceLen + 16 then .error (.other "credentials.enc truncated")
  else if bytes.head? ≠ some fileVersion then
    .error (.other ("unsupported credentials.enc version: " ++ toString (bytes.headD 0)))
  else
    match fault with
    | some (.noKey e) => .error (.unavailable e)
    | _ =>
      match S.decrypt ((bytes.drop 1).take nonceLen) (bytes.drop (1 + nonceLen)) with
      | none => .error (.other "credentials.enc: decryption failed")
      | some plain =>
        match S.fromSlice plain with
        | .error e => .error (.other ("credentials.enc: parse: " ++ e))
        | .ok store => .ok store

def loadStore (fs : Files) (fault : Option Fault) : Except SecretError (Table String ν) :=
  match fault with
  | some .noConfigDir => .error (.unavailable "no config dir")
  | some (.read e) => .error (.other ("read credentials.enc: " ++ e))
  | _ =>
    match fs.main with
    | none => .ok ∅
    | some bytes => openStore S bytes fault

/-- The new file is complete before it takes the place of the old one. -/
def writeAtomic (fs : Files) (contents : Bytes) (fault : Option Fault) : Files × Except SecretError Unit :=
  match fault with
  | some (.create e) => (fs, .error (.other ("create tmp: " ++ e)))
  | some (.write n e) => ({ fs with tmp := some (contents.take n) }, .error (.other ("write tmp: " ++ e)))
  | some (.flush e) => ({ fs with tmp := some contents }, .error (.other ("flush tmp: " ++ e)))
  | some (.sync e) => ({ fs with tmp := some contents }, .error (.other ("fsync tmp: " ++ e)))
  | some (.rename e) => ({ fs with tmp := some contents }, .error (.other ("rename tmp: " ++ e)))
  | _ => (⟨some contents, none⟩, .ok ())

def sealed (store : Table String ν) (nonce : Nonce) : Bytes :=
  fileVersion :: (nonce.1 ++ S.encrypt nonce.1 (S.toVec store))

def saveStore (fs : Files) (store : Table String ν) (nonce : Nonce) (fault : Option Fault) :
    Files × Except SecretError Unit :=
  match fault with
  | some .noConfigDir => (fs, .error (.unavailable "no config dir"))
  | some (.createDir e) => (fs, .error (.other ("create config dir: " ++ e)))
  | some (.serialize e) => (fs, .error (.other ("serialize store: " ++ e)))
  | some (.noKey e) => (fs, .error (.unavailable e))
  | some .encryption => (fs, .error (.other "encryption failed"))
  | _ => writeAtomic fs (sealed S store nonce) fault

def get (fs : Files) (kind : ProviderKind) (fault : Option Fault) : Except SecretError Credential :=
  match loadStore S fs fault with
  | .error e => .error e
  | .ok store =>
    match store.lookup (accountFor kind) with
    | none => .error .notFound
    | some raw =>
      match S.fromValue raw with
      | .ok c => .ok c
      | .error e => .error (.other ("decode credential: " ++ e))

def set (fs : Files) (kind : ProviderKind) (value : Credential) (nonce : Nonce) (fault : Option Fault) :
    Files × Except SecretError Unit :=
  match loadStore S fs fault with
  | .error e => (fs, .error e)
  | .ok store =>
    match fault with
    | some (.encode e) => (fs, .error (.other ("encode credential: " ++ e)))
    | _ => saveStore S fs (store.insert (accountFor kind) (S.toValue value)) nonce fault

def delete (fs : Files) (kind : ProviderKind) (nonce : Nonce) (fault : Option Fault) : Files × Except SecretError Unit :=
  match loadStore S fs fault with
  | .error e => (fs, .error e)
  | .ok store =>
    if accountFor kind ∈ store then saveStore S fs (store.erase (accountFor kind)) nonce fault
    else (fs, .ok ())

/-! ## The file as a map -/

/-- A call, and where it stops if it does. The calls of a process come one after the other. -/
inductive Call where
  | get (kind : ProviderKind) (fault : Option Fault)
  | set (kind : ProviderKind) (value : Credential) (nonce : Nonce) (fault : Option Fault)
  | delete (kind : ProviderKind) (nonce : Nonce) (fault : Option Fault)

def Call.fault : Call → Option Fault
  | .get _ fault => fault
  | .set _ _ _ fault => fault
  | .delete _ _ fault => fault

/-- What a call gives back, a credential if it reads one. -/
abbrev Result := Except SecretError (Option Credential)

def step (fs : Files) : Call → Files × Result
  | .get kind fault => (fs, (get S fs kind fault).map some)
  | .set kind value nonce fault =>
    let r := set S fs kind value nonce fault
    (r.1, r.2.map fun _ => none)
  | .delete kind nonce fault =>
    let r := delete S fs kind nonce fault
    (r.1, r.2.map fun _ => none)

def run (fs : Files) : List Call → Files × List Result
  | [] => (fs, [])
  | c :: cs =>
    let next := step S fs c
    let rest := run next.1 cs
    (rest.1, next.2 :: rest.2)

/-- A failure. That nothing is found is an answer. -/
def Failed (r : Result) : Prop := ∃ e, r = .error e ∧ e ≠ .notFound

def answer : Option Credential → Result
  | some c => .ok (some c)
  | none => .error .notFound

/-- What a call that takes place does to the map, and what it gives back. -/
def Call.onMap (m : KindMap Credential) : Call → KindMap Credential × Result
  | .get kind _ => (m, answer (m kind))
  | .set kind value _ _ => (Function.update m kind (some value), .ok none)
  | .delete kind _ _ => (Function.update m kind none, .ok none)

/-- The results are those of a map on which each call takes place, or stops, fails and leaves the map as it was. -/
def Explained (m : KindMap Credential) : List Call → List Result → Prop
  | [], rs => rs = []
  | c :: cs, rs => ∃ r rest, rs = r :: rest ∧
      ((r = (c.onMap m).2 ∧ Explained (c.onMap m).1 cs rest) ∨ (c.fault ≠ none ∧ Failed r ∧ Explained m cs rest))

/-- The file holds the map. -/
def Holds (fs : Files) (m : KindMap Credential) : Prop :=
  ∃ store, loadStore S fs none = .ok store ∧ ∀ kind, store.lookup (accountFor kind) = (m kind).map S.toValue

variable {S} {fs : Files} {m : KindMap Credential} {fault : Option Fault}

theorem accountFor_injective : Function.Injective accountFor := by
  have hid : ∀ k : ProviderKind, k.id ≠ "openrouter" := by
    intro k
    cases k <;> decide
  intro a b h
  simp only [accountFor] at h
  split_ifs at h with ha hb hb
  · rw [ha, hb]
  · exact absurd h.symm (hid b)
  · exact absurd h (hid a)
  · exact ProviderKind.id_injective h

/-- What was sealed opens again. -/
theorem openStore_sealed (store : Table String ν) (nonce : Nonce) (hfault : ∀ e, fault ≠ some (.noKey e)) :
    openStore S (sealed S store nonce) fault = .ok store := by
  obtain ⟨n, hn⟩ := nonce
  have hlength : (sealed S store ⟨n, hn⟩).length = 1 + nonceLen + (S.encrypt n (S.toVec store)).length := by
    simp only [sealed, List.length_cons, List.length_append, hn, nonceLen]
    omega
  have htag := S.length_encrypt n (S.toVec store)
  have hne : sealed S store ⟨n, hn⟩ ≠ [] := List.cons_ne_nil _ _
  have hhead : (sealed S store ⟨n, hn⟩).head? = some fileVersion := rfl
  simp only [openStore]
  rw [if_neg hne, if_neg (by rw [hlength]; omega), if_neg (not_not.mpr hhead)]
  have hnonce : ((sealed S store ⟨n, hn⟩).drop 1).take nonceLen = n := by
    simp only [sealed, List.drop_one, List.tail_cons]
    exact List.take_left' hn
  have hct : (sealed S store ⟨n, hn⟩).drop (1 + nonceLen) = S.encrypt n (S.toVec store) := by
    rw [← List.drop_drop]
    simp only [sealed, List.drop_one, List.tail_cons]
    exact List.drop_left' hn
  rw [hnonce, hct, S.decrypt_encrypt]
  simp only [S.fromSlice_toVec]

theorem openStore_fault (bytes : Bytes) (fault : Option Fault) : openStore S bytes fault = openStore S bytes none ∨
    (fault ≠ none ∧ ∃ e, openStore S bytes fault = .error e ∧ e ≠ .notFound) := by
  cases fault with
  | none => exact .inl rfl
  | some f =>
    cases f with
    | noKey e =>
      simp only [openStore]
      split_ifs
      · exact .inl rfl
      · exact .inl rfl
      · exact .inl rfl
      · exact .inr ⟨Option.some_ne_none _, _, rfl, by simp⟩
    | noConfigDir | read | createDir | encode | serialize | encryption | create | write | flush | sync | rename =>
      exact .inl rfl

/-- A call that gets to the file finds what is in it. -/
theorem loadStore_fault (fs : Files) (fault : Option Fault) : loadStore S fs fault = loadStore S fs none ∨
    (fault ≠ none ∧ ∃ e, loadStore S fs fault = .error e ∧ e ≠ .notFound) := by
  cases fault with
  | none => exact .inl rfl
  | some f =>
    cases f with
    | noConfigDir | read => exact .inr ⟨Option.some_ne_none _, _, rfl, by simp⟩
    | noKey | createDir | encode | serialize | encryption | create | write | flush | sync | rename =>
      simp only [loadStore]
      cases fs.main with
      | none => exact .inl rfl
      | some bytes => exact openStore_fault bytes _

/-- A file that does not open is no answer. -/
theorem openStore_ne_notFound {bytes : Bytes} {e : SecretError} (h : openStore S bytes fault = .error e) :
    e ≠ .notFound := by
  simp only [openStore] at h
  split_ifs at h
  · cases h
    simp
  · cases h
    simp
  · split at h
    · cases h
      simp
    · split at h
      · cases h
        simp
      · split at h
        · cases h
          simp
        · cases h

theorem loadStore_ne_notFound {e : SecretError} (h : loadStore S fs fault = .error e) : e ≠ .notFound := by
  simp only [loadStore] at h
  split at h
  · cases h
    simp
  · cases h
    simp
  · split at h
    · cases h
    · exact openStore_ne_notFound h

/-- The new file takes the place of the old one, or the old one stays. -/
theorem saveStore_spec (fs : Files) (store : Table String ν) (nonce : Nonce) (fault : Option Fault) :
    (saveStore S fs store nonce fault).2 = .ok () ∧ (saveStore S fs store nonce fault).1.main = some (sealed S store nonce) ∨
      fault ≠ none ∧ (saveStore S fs store nonce fault).1.main = fs.main ∧
        ∃ e, (saveStore S fs store nonce fault).2 = .error e ∧ e ≠ .notFound := by
  cases fault with
  | none => exact .inl ⟨rfl, rfl⟩
  | some f =>
    cases f with
    | read | encode => exact .inl ⟨rfl, rfl⟩
    | noConfigDir | noKey | createDir | serialize | encryption | create | write | flush | sync | rename =>
      exact .inr ⟨Option.some_ne_none _, rfl, _, rfl, by simp⟩

theorem set_spec {store : Table String ν} (kind : ProviderKind) (value : Credential) (nonce : Nonce)
    (hload : loadStore S fs fault = .ok store) :
    (set S fs kind value nonce fault).2 = .ok () ∧ (set S fs kind value nonce fault).1.main =
        some (sealed S (store.insert (accountFor kind) (S.toValue value)) nonce) ∨
      fault ≠ none ∧ (set S fs kind value nonce fault).1.main = fs.main ∧
        ∃ e, (set S fs kind value nonce fault).2 = .error e ∧ e ≠ .notFound := by
  simp only [set, hload]
  split
  · exact .inr ⟨Option.some_ne_none _, rfl, _, rfl, by simp⟩
  · exact saveStore_spec fs _ nonce fault

theorem loadStore_congr {fs' : Files} (h : fs'.main = fs.main) : loadStore S fs' none = loadStore S fs none := by
  simp only [loadStore, h]

theorem Holds.congr {fs' : Files} (h : Holds S fs m) (hmain : fs'.main = fs.main) : Holds S fs' m := by
  obtain ⟨store, hload, hstore⟩ := h
  exact ⟨store, (loadStore_congr hmain).trans hload, hstore⟩

theorem holds_sealed {store : Table String ν} {nonce : Nonce} (hmain : fs.main = some (sealed S store nonce))
    (hstore : ∀ kind, store.lookup (accountFor kind) = (m kind).map S.toValue) : Holds S fs m := by
  refine ⟨store, ?_, hstore⟩
  simp only [loadStore, hmain]
  exact openStore_sealed store nonce fun e => by simp

/-- The call took place, or it was stopped, failed and left the map as it was. -/
def Served (S : Sealing ν) (fs : Files) (m : KindMap Credential) (c : Call) : Prop :=
  ((step S fs c).2 = (c.onMap m).2 ∧ Holds S (step S fs c).1 (c.onMap m).1) ∨
    (c.fault ≠ none ∧ Failed (step S fs c).2 ∧ Holds S (step S fs c).1 m)

/-- What does not get to the store fails, and changes nothing. -/
theorem step_unloaded {e : SecretError} (c : Call) (he : loadStore S fs c.fault = .error e) :
    step S fs c = (fs, .error e) := by
  cases c with
  | get kind fault =>
    have he : loadStore S fs fault = .error e := he
    simp only [step, SealedStore.get, he]
    rfl
  | set kind value nonce fault =>
    have he : loadStore S fs fault = .error e := he
    simp only [step, SealedStore.set, he]
    rfl
  | delete kind nonce fault =>
    have he : loadStore S fs fault = .error e := he
    simp only [step, SealedStore.delete, he]
    rfl

section
variable {store : Table String ν} (hstore : ∀ kind, store.lookup (accountFor kind) = (m kind).map S.toValue)
include hstore

theorem served_get (kind : ProviderKind) (hload : loadStore S fs none = .ok store)
    (heq : loadStore S fs fault = loadStore S fs none) : Served S fs m (.get kind fault) := by
  left
  refine ⟨?_, store, hload, hstore⟩
  have hlookup := hstore kind
  simp only [step, SealedStore.get, heq, hload, hlookup, Call.onMap]
  cases m kind with
  | none => rfl
  | some c =>
    simp only [Option.map_some, S.fromValue_toValue]
    rfl

theorem lookup_insert (kind : ProviderKind) (value : Credential) (other : ProviderKind) :
    (store.insert (accountFor kind) (S.toValue value)).lookup (accountFor other) =
      (Function.update m kind (some value) other).map S.toValue := by
  by_cases hother : other = kind
  · subst hother
    rw [Finmap.lookup_insert]
    simp
  · rw [Finmap.lookup_insert_of_ne _ fun heq => hother (accountFor_injective heq), hstore, Function.update_of_ne hother]

theorem lookup_erase (kind other : ProviderKind) : (store.erase (accountFor kind)).lookup (accountFor other) =
    (Function.update m kind none other).map S.toValue := by
  by_cases hother : other = kind
  · subst hother
    rw [Finmap.lookup_erase]
    simp
  · rw [Finmap.lookup_erase_ne fun heq => hother (accountFor_injective heq), hstore, Function.update_of_ne hother]

theorem served_set (kind : ProviderKind) (value : Credential) (nonce : Nonce) (h : Holds S fs m)
    (hload : loadStore S fs fault = .ok store) : Served S fs m (.set kind value nonce fault) := by
  rcases set_spec kind value nonce hload with ⟨hok, hmain⟩ | ⟨hfault, hmain, e, he, hne⟩
  · left
    simp only [step, hok]
    exact ⟨rfl, holds_sealed hmain (lookup_insert hstore kind value)⟩
  · right
    exact ⟨hfault, ⟨e, by simp only [step, he]; rfl, hne⟩, h.congr hmain⟩

theorem served_delete (kind : ProviderKind) (nonce : Nonce) (h : Holds S fs m) (hload : loadStore S fs none = .ok store)
    (heq : loadStore S fs fault = loadStore S fs none) : Served S fs m (.delete kind nonce fault) := by
  by_cases hmem : accountFor kind ∈ store
  · have hdelete : SealedStore.delete S fs kind nonce fault = saveStore S fs (store.erase (accountFor kind)) nonce fault := by
      rw [SealedStore.delete, heq, hload]
      exact if_pos hmem
    rcases saveStore_spec (S := S) fs (store.erase (accountFor kind)) nonce fault with
      ⟨hok, hmain⟩ | ⟨hfault, hmain, e, he, hne⟩
    · left
      simp only [step, hdelete, hok]
      exact ⟨rfl, holds_sealed hmain (lookup_erase hstore kind)⟩
    · right
      simp only [step, hdelete]
      exact ⟨hfault, ⟨e, by rw [he]; rfl, hne⟩, h.congr hmain⟩
  · -- Nothing is stored, and nothing is written.
    have hdelete : SealedStore.delete S fs kind nonce fault = (fs, .ok ()) := by
      rw [SealedStore.delete, heq, hload]
      exact if_neg hmem
    have hnone : m kind = none := by
      have hlookup := hstore kind
      rw [Finmap.lookup_eq_none.mpr hmem] at hlookup
      exact Option.map_eq_none_iff.mp hlookup.symm
    left
    simp only [step, hdelete, Call.onMap]
    rw [← hnone, Function.update_eq_self]
    exact ⟨rfl, h⟩

end

theorem step_spec (h : Holds S fs m) (c : Call) : Served S fs m c := by
  obtain ⟨store, hload, hstore⟩ := h
  have h : Holds S fs m := ⟨store, hload, hstore⟩
  rcases loadStore_fault (S := S) fs c.fault with heq | ⟨hfault, e, he, hne⟩
  · cases c with
    | get kind fault => exact served_get hstore kind hload heq
    | set kind value nonce fault => exact served_set hstore kind value nonce h (heq.trans hload)
    | delete kind nonce fault => exact served_delete hstore kind nonce h hload heq
  · right
    rw [step_unloaded c he]
    exact ⟨hfault, ⟨e, rfl, hne⟩, h⟩

/-- A file that does not open. -/
def Unreadable (fs : Files) : Prop := ∃ e, loadStore S fs none = .error e

theorem step_unreadable (h : Unreadable (S := S) fs) (c : Call) :
    Failed (step S fs c).2 ∧ (step S fs c).1 = fs := by
  obtain ⟨e, he⟩ := h
  rcases loadStore_fault (S := S) fs c.fault with heq | ⟨-, e', he', hne⟩
  · rw [step_unloaded c (heq.trans he)]
    exact ⟨⟨e, rfl, loadStore_ne_notFound he⟩, rfl⟩
  · rw [step_unloaded c he']
    exact ⟨⟨e', rfl, hne⟩, rfl⟩

/-- Whatever the calls and wherever they stop, the file is a map from providers to credentials: every result is that of the
map, or the call failed, was stopped, and left the map as it was. A file that does not open is never replaced. -/
theorem sealed_refines (S : Sealing ν) (fs : Files) (cs : List Call) :
    (∀ m, Holds S fs m → Explained m cs (run S fs cs).2) ∧
      ((∃ e, loadStore S fs none = .error e) → (run S fs cs).1 = fs ∧ ∀ r ∈ (run S fs cs).2, Failed r) := by
  induction cs generalizing fs with
  | nil => exact ⟨fun m _ => rfl, fun _ => ⟨rfl, fun r hr => absurd hr List.not_mem_nil⟩⟩
  | cons c cs ih =>
    refine ⟨fun m h => ?_, fun h => ?_⟩
    · rcases step_spec h c with ⟨hresult, hholds⟩ | ⟨hfault, hfailed, hholds⟩
      · exact ⟨_, _, rfl, .inl ⟨hresult, (ih _).1 _ hholds⟩⟩
      · exact ⟨_, _, rfl, .inr ⟨hfault, hfailed, (ih _).1 _ hholds⟩⟩
    · obtain ⟨hfailed, hsame⟩ := step_unreadable h c
      have hrest := (ih (step S fs c).1).2 (by rw [hsame]; exact h)
      refine ⟨hrest.1.trans hsame, fun r hr => ?_⟩
      rcases List.mem_cons.mp hr with rfl | hr
      · exact hfailed
      · exact hrest.2 r hr

/-- Without a file there are no credentials. -/
theorem holds_empty (S : Sealing ν) (tmp : Option Bytes) : Holds S ⟨none, tmp⟩ fun _ => none :=
  ⟨∅, rfl, fun _ => Finmap.lookup_empty _⟩

theorem countable_string : Countable String := by
  have : Countable Char := Function.Injective.countable (f := Char.toNat) fun _ _ h => Char.toNat_inj.mp h
  exact Function.Injective.countable (f := String.toList) fun _ _ h => String.toList_inj.mp h

theorem countable_credential : Countable Credential := by
  have := countable_string
  have : Countable Int64 := Function.Injective.countable (f := Int64.toInt) fun _ _ h => Int64.toInt_inj.mp h
  let code : Credential → String ⊕ (String × String × Int64 × Option String) :=
    Credential.rec .inl fun access refresh expires account => .inr (access, refresh, expires, account)
  apply Function.Injective.countable (f := code)
  intro a b h
  cases a <;> cases b <;> simp_all [code]

theorem countable_store : Countable (Table String Credential) := by
  have := countable_string
  have := countable_credential
  apply Function.Injective.countable (f := Finmap.entries)
  intro a b h
  exact Finmap.ext h

/-- Some text form of a store, some cipher with its tag. -/
theorem exists_sealing : Nonempty (Sealing Credential) := by
  have := countable_store
  obtain ⟨code, hcode⟩ := exists_injective_nat (Table String Credential)
  have hvec : Function.Injective fun store => List.replicate (code store) (0 : UInt8) := by
    intro a b h
    exact hcode (by simpa using congrArg List.length h)
  exact ⟨{
    encrypt := fun _ plain => plain ++ List.replicate 16 0
    decrypt := fun _ sealed => some (sealed.take (sealed.length - 16))
    toVec := fun store => List.replicate (code store) 0
    fromSlice := fun plain => .ok (Function.invFun (fun store => List.replicate (code store) 0) plain)
    toValue := id
    fromValue := .ok
    decrypt_encrypt := fun _ plain => by simp
    length_encrypt := fun _ plain => by simp
    fromSlice_toVec := fun store => congrArg _ (Function.leftInverse_invFun hvec store)
    fromValue_toValue := fun _ => rfl }⟩

def zeroNonce : Nonce := ⟨List.replicate 12 0, rfl⟩

/-- A key is stored, the write that deletes it stops half way, and it is asked for. -/
def halfWritten : List Call :=
  [.set .openAI (.apiKey "sk") zeroNonce none, .delete .openAI zeroNonce (some (.write 5 "No space left on device")),
    .get .openAI none]

theorem sealed_refines_halfWritten : ∃ S : Sealing Credential,
    Explained (fun _ => none) halfWritten (run S ⟨none, none⟩ halfWritten).2 ∧
      (run S ⟨some [2], none⟩ halfWritten).1 = ⟨some [2], none⟩ := by
  obtain ⟨S⟩ := exists_sealing
  refine ⟨S, (sealed_refines S _ _).1 _ (holds_empty S none), ((sealed_refines S _ _).2 ?_).1⟩
  exact ⟨.other "credentials.enc truncated", rfl⟩

end FerrisScope.SealedStore
