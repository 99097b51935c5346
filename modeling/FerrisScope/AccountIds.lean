import FerrisScope.Base64
import FerrisScope.JsonPointers
import FerrisScope.ListCuts
import FerrisScope.Utf8Slices

/-!
# The account of a token

A token is three parts with dots between them, and its middle part is a JSON object in base 64. The account is
looked for in the object itself, in a claim of which the name is an address, and in the first organization.
-/

namespace FerrisScope.AccountIds
open HostsFile Base64 JsonPointers

def urlSafeDigits : Text := "ABCDEFGHIJKLMNOPQRSTUVWXYZabcdefghijklmnopqrstuvwxyz0123456789-_".toList

def urlSafe : Alphabet Char where
  digit x := urlSafeDigits.get (x.cast (by decide))
  pad := '='
  digit_injective := by decide +kernel
  digit_ne_pad := by decide +kernel

variable {ν : Type}

def asArray : Json ν → Option (List (Json ν))
  | .arr xs => some xs
  | _ => none

def namespacedPointer : Text := "/https://api.openai.com/auth/chatgpt_account_id".toList

def directId (claims : Json ν) : Option String := (claims.get? "chatgpt_account_id").bind Json.asStr

def pointerId (claims : Json ν) : Option String := (pointer claims namespacedPointer).bind Json.asStr

def organizationId (claims : Json ν) : Option String :=
  ((claims.get? "organizations").bind asArray).bind fun arr =>
    (arr.head?.bind fun v => v.get? "id").bind Json.asStr

/-- What is done with the claims. -/
def idOfClaims (claims : Json ν) : Option String :=
  match directId claims with
  | some s => some s
  | none =>
    match pointerId claims with
    | some s => some s
    | none => organizationId claims

variable (fromSlice : List UInt8 → Option (Json ν))

def extractAccountId (jwt : Text) : Option String :=
  match jwt.splitOn '.' with
  | [_, payload, _] =>
    ((urlSafe.decode payload).orElse fun _ => urlSafe.decodePadded payload).bind fun bytes =>
      (fromSlice bytes).bind idOfClaims
  | _ => none

/-! ## What is looked for -/

/-- The account in the claim of which the name is an address. -/
def namespacedId (claims : Json ν) : Option String :=
  ((claims.get? "https://api.openai.com/auth").bind fun v => v.get? "chatgpt_account_id").bind Json.asStr

/-- The first of the three. -/
def firstId (claims : Json ν) : Option String :=
  (directId claims).or ((namespacedId claims).or (organizationId claims))

/-- Three parts, of which the middle one is an object in base 64, padded or not. -/
def IsToken (jwt : Text) (claims : Json.Fields ν) : Prop :=
  ∃ header payload signature bytes, '.' ∉ header ∧ '.' ∉ payload ∧ '.' ∉ signature ∧
    jwt = header ++ '.' :: (payload ++ '.' :: signature) ∧
    (payload = urlSafe.encode bytes ∨ payload = urlSafe.encodePadded bytes) ∧ fromSlice bytes = some (.obj claims)

/-- The account where the pointer leads: each slash of the address is one step down. -/
def nestedId (claims : Json ν) : Option String :=
  (descend claims (["https:", "", "api.openai.com", "auth", "chatgpt_account_id"].map String.toList)).bind Json.asStr

theorem pointerId_eq (claims : Json ν) : pointerId claims = nestedId claims := by
  have htokens : (namespacedPointer.tail.splitOn '/').map unescape =
      ["https:", "", "api.openai.com", "auth", "chatgpt_account_id"].map String.toList := by decide
  have hpointer : pointer claims namespacedPointer = descend claims ((namespacedPointer.tail.splitOn '/').map unescape) := rfl
  rw [pointerId, hpointer, htokens, nestedId]

theorem idOfClaims_eq (claims : Json ν) :
    idOfClaims claims = (directId claims).or ((nestedId claims).or (organizationId claims)) := by
  rw [← pointerId_eq, idOfClaims]
  cases directId claims with
  | some s => rfl
  | none =>
    cases pointerId claims with
    | some s => rfl
    | none => rfl

/-- Only an object has an account. -/
theorem idOfClaims_eq_none {claims : Json ν} (h : ∀ fs, claims ≠ .obj fs) : idOfClaims claims = none := by
  cases claims with
  | obj fs => exact absurd rfl (h fs)
  | arr xs => rfl
  | _ => rfl

theorem decode_payload {payload : Text} {bytes : List UInt8} :
    ((urlSafe.decode payload).orElse fun _ => urlSafe.decodePadded payload) = some bytes ↔
      payload = urlSafe.encode bytes ∨ payload = urlSafe.encodePadded bytes := by
  constructor
  · intro h
    cases hplain : urlSafe.decode payload with
    | some b =>
      rw [hplain] at h
      cases h
      exact .inl (urlSafe.decode_eq_some.mp hplain).symm
    | none =>
      rw [hplain] at h
      exact .inr (urlSafe.decodePadded_eq_some.mp h).symm
  · rintro (rfl | rfl)
    · rw [urlSafe.decode_eq_some.mpr rfl]
      rfl
    · cases hplain : urlSafe.decode (urlSafe.encodePadded bytes) with
      | some b =>
        -- Both readings succeed where there is nothing to pad.
        rw [urlSafe.encodePadded_eq_encode (urlSafe.decode_eq_some.mp hplain).symm]
        rfl
      | none => exact urlSafe.decodePadded_eq_some.mpr rfl

theorem splitOn_three {t header payload signature : Text} :
    t.splitOn '.' = [header, payload, signature] ↔
      '.' ∉ header ∧ '.' ∉ payload ∧ '.' ∉ signature ∧ t = header ++ '.' :: (payload ++ '.' :: signature) := by
  constructor
  · intro h
    have hclear : ∀ p ∈ [header, payload, signature], '.' ∉ p := fun p hp => ListCuts.notMem_of_mem_splitOn (h ▸ hp)
    have ht : ['.'].intercalate (t.splitOn '.') = t := List.intercalate_splitOn '.'
    rw [h, List.intercalate_cons_cons, List.intercalate_cons_cons, List.intercalate_singleton, List.append_assoc,
      List.append_assoc] at ht
    exact ⟨hclear _ (by simp), hclear _ (by simp), hclear _ (by simp), ht.symm⟩
  · rintro ⟨hheader, hpayload, hsignature, rfl⟩
    rw [List.splitOn_append_cons_self_of_not_mem hheader, List.splitOn_append_cons_self_of_not_mem hpayload,
      List.splitOn_eq_singleton hsignature]

/-- What is returned for any text: the account of its claims where the text is a token, and else nothing. -/
theorem extractAccountId_spec (jwt : Text) :
    (∀ claims, IsToken fromSlice jwt claims → extractAccountId fromSlice jwt = idOfClaims (.obj claims)) ∧
      ((∀ claims, ¬ IsToken fromSlice jwt claims) → extractAccountId fromSlice jwt = none) := by
  constructor
  · rintro claims ⟨header, payload, signature, bytes, hheader, hpayload, hsignature, hjwt, hbytes, hclaims⟩
    rw [extractAccountId, splitOn_three.mpr ⟨hheader, hpayload, hsignature, hjwt⟩]
    change (Option.bind (Option.orElse _ _) _) = _
    rw [decode_payload.mpr hbytes, Option.bind_some, hclaims, Option.bind_some]
  · intro hnone
    rw [extractAccountId]
    split
    · next header payload signature hparts =>
      obtain ⟨hheader, hpayload, hsignature, hjwt⟩ := splitOn_three.mp hparts
      cases hbytes : (urlSafe.decode payload).orElse fun _ => urlSafe.decodePadded payload with
      | none => rfl
      | some bytes =>
        rw [Option.bind_some]
        cases hvalue : fromSlice bytes with
        | none => rfl
        | some claims =>
          apply idOfClaims_eq_none
          intro fs hfs
          subst hfs
          exact hnone fs ⟨header, payload, signature, bytes, hheader, hpayload, hsignature, hjwt,
            decode_payload.mp hbytes, hvalue⟩
    · rfl

/-- The account in the namespaced claim makes no difference, and no other string is taken for it. -/
def Agrees (claims : Json ν) : Prop :=
  (directId claims).isSome ∨
    (nestedId claims = none ∧ (namespacedId claims = none ∨ namespacedId claims = organizationId claims)) ∨
    ((nestedId claims).isSome ∧
      (namespacedId claims = nestedId claims ∨ (namespacedId claims = none ∧ organizationId claims = nestedId claims)))

theorem idOfClaims_eq_firstId_iff (claims : Json ν) : idOfClaims claims = firstId claims ↔ Agrees claims := by
  rw [idOfClaims_eq, firstId, Agrees]
  cases directId claims with
  | some s => exact iff_of_true rfl (.inl rfl)
  | none =>
    cases nestedId claims with
    | none =>
      cases namespacedId claims with
      | none => simp
      | some n => simp [eq_comm]
    | some m =>
      cases namespacedId claims with
      | none => simp [eq_comm]
      | some n => simp [eq_comm]

/-- The first of the three accounts is returned exactly where the namespaced claim, which is never read, and
the path that is read in its place make no difference. -/
theorem account_found_iff (jwt : Text) :
    ((∀ claims, IsToken fromSlice jwt claims → extractAccountId fromSlice jwt = firstId (.obj claims)) ∧
        ((∀ claims, ¬ IsToken fromSlice jwt claims) → extractAccountId fromSlice jwt = none)) ↔
      ∀ claims, IsToken fromSlice jwt claims → Agrees (.obj claims) := by
  obtain ⟨hsome, hnone⟩ := extractAccountId_spec fromSlice jwt
  constructor
  · intro h claims htoken
    rw [← idOfClaims_eq_firstId_iff, ← hsome claims htoken]
    exact h.1 claims htoken
  · intro h
    refine ⟨?_, hnone⟩
    intro claims htoken
    rw [hsome claims htoken]
    exact (idOfClaims_eq_firstId_iff _).mpr (h claims htoken)

theorem dot_notMem_encode (b : List UInt8) : '.' ∉ urlSafe.encode b := by
  intro hmem
  obtain ⟨x, -, hx⟩ := List.mem_map.mp hmem
  exact absurd hx ((by decide +kernel : ∀ x, urlSafe.digit x ≠ '.') x)

/-- A document with an account in the namespaced claim only. -/
def namespacedDocument : Text := "\x7b\"https://api.openai.com/auth\":\x7b\"chatgpt_account_id\":\"acct\"\x7d\x7d".toList

def namespacedClaims : Json.Fields Unit :=
  [("https://api.openai.com/auth", .obj [("chatgpt_account_id", .str "acct")])]

/-- A token whose account is in the namespaced claim has no account for the program. -/
theorem namespaced_account_lost :
    ∃ (fromSlice : List UInt8 → Option (Json Unit)) (jwt : Text), IsToken fromSlice jwt namespacedClaims ∧
      firstId (.obj namespacedClaims) = some "acct" ∧ extractAccountId fromSlice jwt = none := by
  let bytes := Utf8Slices.encode namespacedDocument
  let fromSlice : List UInt8 → Option (Json Unit) := fun b => if b = bytes then some (.obj namespacedClaims) else none
  let jwt := "e30".toList ++ '.' :: (urlSafe.encode bytes ++ '.' :: "s".toList)
  have htoken : IsToken fromSlice jwt namespacedClaims :=
    ⟨_, _, _, bytes, by decide, dot_notMem_encode bytes, by decide, rfl, .inl rfl, if_pos rfl⟩
  refine ⟨fromSlice, jwt, htoken, by decide, ?_⟩
  rw [(extractAccountId_spec fromSlice jwt).1 _ htoken]
  decide

end FerrisScope.AccountIds
