import FerrisScope.KubeconfigProtection

/-!
# What a deletion removes from a kubeconfig

A deletion removes the contexts of a name, and the cluster and the user they refer to unless another context
does. The references are carried in one variable each, so only those of the last removed context are looked at.
-/

namespace FerrisScope.KubeconfigEdits
open Json IdentityPin LinkFiles

variable {ν δ : Type}

section Documents

def keptContexts (mapping : Fields ν) (name : String) : List (Json ν) :=
  (listAt "contexts" mapping).filter fun e => nameOf e ≠ some name

def removedContexts (mapping : Fields ν) (name : String) : List (Json ν) :=
  (listAt "contexts" mapping).filter fun e => nameOf e = some name

def refersTo (kind n : String) (contexts : List (Json ν)) : Bool := contexts.any fun e => contextField kind e = some n

/-- A removed context refers to this name, and no context that is left does. -/
def orphaned (mapping : Fields ν) (name kind n : String) : Bool :=
  refersTo kind n (removedContexts mapping name) && !refersTo kind n (keptContexts mapping name)

/-- The items of a list without those of the names in question. -/
def dropNamed (dropped : String → Bool) : Json ν → Json ν
  | .arr xs => .arr (xs.filter fun e => (nameOf e).all fun n => !dropped n)
  | v => v

/-- The lists after a deletion that drops these clusters and users. -/
def listAfter (mapping : Fields ν) (name : String) (dropped : String → String → Bool) (key : String) (v : Json ν) :
    Json ν :=
  if key = "contexts" then .arr (keptContexts mapping name)
  else if key = "clusters" then dropNamed (dropped "cluster") v
  else if key = "users" then dropNamed (dropped "user") v
  else v

/-- The value at a key after such a deletion. -/
def valueAfter (mapping : Fields ν) (name : String) (dropped : String → String → Bool) (key : String) (v : Json ν) :
    Json ν :=
  if key = "current-context" then if asStr v = some name then .str "" else v
  else listAfter mapping name dropped key v

/-- The keys of before in their order, with the values of before or what this deletion leaves of them. -/
def DeletesWith (mapping mapping' : Fields ν) (name : String) (dropped : String → String → Bool) : Prop :=
  mapping'.map Prod.fst = mapping.map Prod.fst ∧
    ∀ key, find key mapping' = (find key mapping).map (valueAfter mapping name dropped key)

/-- The clusters and users that are dropped are those that only removed contexts refer to. -/
def DeletedExactly (mapping mapping' : Fields ν) (name : String) : Prop :=
  DeletesWith mapping mapping' name (orphaned mapping name)

/-- The last removed entry with a context refers to each listed name that only removed contexts refer to. -/
def LastRefersTo (mapping : Fields ν) (name kind listKey : String) : Prop :=
  ∀ e ∈ listAt listKey mapping, ∀ n, nameOf e = some n → orphaned mapping name kind n = true →
    removedField kind (removedContexts mapping name) = some n

/-! ## Entries of a mapping -/

variable {mapping mapping' : Fields ν} {name kind listKey key : String} {v : Json ν} {removed : List (Json ν)}

theorem find_insertEntry (k key : String) (v : Json ν) (fs : Fields ν) :
    find key (insertEntry k v fs) = if key = k then some v else find key fs := by
  split
  · next h => rw [h, find_insertEntry_self]
  · next h => exact find_insertEntry_of_ne h v fs

theorem map_fst_insertEntry {k : String} {fs : Fields ν} (h : (find k fs).isSome = true) (v : Json ν) :
    (insertEntry k v fs).map Prod.fst = fs.map Prod.fst := by
  induction fs with
  | nil => exact absurd h Bool.false_ne_true
  | cons f fs ih =>
    obtain ⟨k', v'⟩ := f
    rw [find_cons] at h
    rw [insertEntry]
    split
    · rfl
    · next hk =>
      rw [if_neg hk] at h
      rw [List.map_cons, List.map_cons, ih h]

theorem dropNamed_none (v : Json ν) : dropNamed (fun _ => false) v = v := by
  cases v with
  | arr xs =>
    rw [dropNamed, List.filter_eq_self.mpr]
    intro e _
    cases nameOf e <;> rfl
  | _ => rfl

/-- Two ways to drop items agree on a list exactly when they agree on its names. -/
theorem dropNamed_eq_iff {dropped dropped' : String → Bool} {xs : List (Json ν)} :
    dropNamed dropped (.arr xs) = dropNamed dropped' (.arr xs) ↔
      ∀ e ∈ xs, ∀ n, nameOf e = some n → dropped n = dropped' n := by
  rw [dropNamed, dropNamed, Json.arr.injEq]
  constructor
  · intro h e he n hn
    have hmem := congrArg (e ∈ ·) h
    simp only [List.mem_filter, he, true_and, hn, Option.all_some, Bool.not_eq_true', eq_iff_iff] at hmem
    cases hd : dropped n with
    | false => exact (hmem.mp hd).symm
    | true =>
      cases hd' : dropped' n with
      | false => exact absurd (hd.symm.trans (hmem.mpr hd')) Bool.noConfusion
      | true => rfl
  · intro h
    apply List.filter_congr
    intro e he
    cases hn : nameOf e with
    | none => rfl
    | some n => rw [Option.all_some, Option.all_some, h e he n hn]

/-! ## The entries that are pruned -/

theorem option_map_eq_self {α : Type} {f : α → α} {o : Option α} (h : ∀ a, o = some a → f a = a) : o.map f = o := by
  cases o with
  | none => rfl
  | some a => exact congrArg some (h a rfl)

theorem find_pruneNamed (mapping : Fields ν) (listKey key n : String) :
    find key (pruneNamed mapping listKey n) = (find key mapping).map fun v =>
      if key = listKey then dropNamed (fun m => decide (m = n)) v else v := by
  rw [pruneNamed]
  split
  · next xs hlist =>
    rw [find_insertEntry]
    split
    · next hkey =>
      subst hkey
      rw [hlist, Option.map_some, dropNamed]
      congr 3
      funext e
      cases nameOf e with
      | none => rfl
      | some m => simp
    · next hkey => exact (option_map_eq_self fun v _ => rfl).symm
  · next hlist =>
    refine (option_map_eq_self fun v hv => ?_).symm
    split
    · next hkey =>
      cases v with
      | arr xs => exact absurd (hkey ▸ hv) (hlist xs)
      | _ => rfl
    · rfl

theorem map_fst_pruneNamed (mapping : Fields ν) (listKey n : String) :
    (pruneNamed mapping listKey n).map Prod.fst = mapping.map Prod.fst := by
  rw [pruneNamed]
  split
  · next hlist => exact map_fst_insertEntry (by rw [hlist]; rfl) _
  · rfl

/-- The name that the source prunes. -/
def pruned (mapping : Fields ν) (name kind n : String) : Bool :=
  decide (removedField kind (removedContexts mapping name) = some n) && !refersTo kind n (keptContexts mapping name)

theorem pruneUnused_cases (mapping' : Fields ν) (kind listKey : String)
    (hkept : listAt "contexts" mapping' = keptContexts mapping name) :
    (pruneUnused mapping' kind listKey (removedContexts mapping name) = mapping' ∧
        pruned mapping name kind = fun _ => false) ∨
      ∃ n, pruneUnused mapping' kind listKey (removedContexts mapping name) = pruneNamed mapping' listKey n ∧
        pruned mapping name kind = fun m => decide (m = n) := by
  rw [pruneUnused]
  cases hfield : removedField kind (removedContexts mapping name) with
  | none =>
    refine Or.inl ⟨rfl, funext fun m => ?_⟩
    rw [pruned, hfield]
    rfl
  | some n =>
    have hused : contextFieldStillUsed mapping' kind n = refersTo kind n (keptContexts mapping name) := by
      rw [contextFieldStillUsed, hkept, refersTo]
    simp only [hused]
    cases hrefers : refersTo kind n (keptContexts mapping name) with
    | true =>
      refine Or.inl ⟨rfl, funext fun m => ?_⟩
      rw [pruned, hfield]
      by_cases hm : n = m
      · rw [← hm, hrefers, Bool.not_true, Bool.and_false]
      · rw [decide_eq_false (mt Option.some_inj.mp hm), Bool.false_and]
    | false =>
      refine Or.inr ⟨n, rfl, funext fun m => ?_⟩
      rw [pruned, hfield]
      by_cases hm : n = m
      · rw [← hm, hrefers, decide_eq_true rfl, decide_eq_true rfl]
        rfl
      · rw [decide_eq_false (mt Option.some_inj.mp hm), decide_eq_false (Ne.symm hm), Bool.false_and]

theorem find_pruneUnused (mapping' : Fields ν) (kind listKey key : String)
    (hkept : listAt "contexts" mapping' = keptContexts mapping name) :
    find key (pruneUnused mapping' kind listKey (removedContexts mapping name)) = (find key mapping').map fun v =>
      if key = listKey then dropNamed (pruned mapping name kind) v else v := by
  rcases pruneUnused_cases mapping' kind listKey hkept with ⟨hsame, hpruned⟩ | ⟨n, hprune, hpruned⟩
  · rw [hsame, hpruned]
    refine (option_map_eq_self fun v _ => ?_).symm
    rw [dropNamed_none, ite_self]
  · rw [hprune, hpruned, find_pruneNamed]

theorem map_fst_pruneUnused (mapping' : Fields ν) (kind listKey : String)
    (hkept : listAt "contexts" mapping' = keptContexts mapping name) :
    (pruneUnused mapping' kind listKey (removedContexts mapping name)).map Prod.fst = mapping'.map Prod.fst := by
  rcases pruneUnused_cases mapping' kind listKey hkept with ⟨hsame, -⟩ | ⟨n, hprune, -⟩
  · rw [hsame]
  · rw [hprune, map_fst_pruneNamed]

def prunedMapping (mapping : Fields ν) (name : String) : Fields ν :=
  pruneUnused (pruneUnused (insertEntry "contexts" (.arr (keptContexts mapping name)) mapping) "cluster" "clusters"
    (removedContexts mapping name)) "user" "users" (removedContexts mapping name)

theorem prunedMapping_spec (name : String) (h : (find "contexts" mapping).isSome = true) :
    (prunedMapping mapping name).map Prod.fst = mapping.map Prod.fst ∧
      ∀ key, find key (prunedMapping mapping name) =
        (find key mapping).map (listAfter mapping name (pruned mapping name) key) := by
  have hfirst : listAt "contexts" (insertEntry "contexts" (.arr (keptContexts mapping name)) mapping) =
      keptContexts mapping name := listAt_insertEntry_self _ _ _
  have hclusters := fun key => find_pruneUnused _ "cluster" "clusters" key hfirst
  have hsecond : listAt "contexts" (pruneUnused (insertEntry "contexts" (.arr (keptContexts mapping name)) mapping)
      "cluster" "clusters" (removedContexts mapping name)) = keptContexts mapping name := by
    rw [listAt, hclusters, find_insertEntry_self, Option.map_some, if_neg (by decide)]
  refine ⟨?_, fun key => ?_⟩
  · rw [prunedMapping, map_fst_pruneUnused _ _ _ hsecond, map_fst_pruneUnused _ _ _ hfirst, map_fst_insertEntry h]
  · rw [prunedMapping, find_pruneUnused _ _ _ _ hsecond, hclusters, find_insertEntry, Option.map_map]
    by_cases hcontexts : key = "contexts"
    · subst hcontexts
      obtain ⟨v, hv⟩ := Option.isSome_iff_exists.mp h
      rw [if_pos rfl, hv]
      rfl
    · rw [if_neg hcontexts]
      refine congrArg (fun f => (find key mapping).map f) (funext fun v => ?_)
      rw [listAfter, if_neg hcontexts, Function.comp_apply]
      by_cases hkey : key = "clusters"
      · subst hkey
        rfl
      · rw [if_neg hkey, if_neg hkey]

theorem deleteContext_eq_ok {doc : Json ν} (h : deleteContext (.obj mapping) name = .ok doc) :
    (find "contexts" mapping).isSome = true ∧ doc = .obj (
      if (find "current-context" (prunedMapping mapping name)).bind asStr = some name then
        insertEntry "current-context" (.str "") (prunedMapping mapping name)
      else prunedMapping mapping name) := by
  rw [deleteContext] at h
  split at h
  · next contexts hcontexts =>
    have hlist : listAt "contexts" mapping = contexts := by rw [listAt, hcontexts]
    subst hlist
    dsimp only at h
    split at h
    · cases h
    · split at h
      · cases h
      · refine ⟨by rw [hcontexts]; rfl, ?_⟩
        split at h
        · next hcurrent =>
          obtain rfl := Except.ok.inj h
          exact congrArg Json.obj (if_pos hcurrent).symm
        · next hcurrent =>
          obtain rfl := Except.ok.inj h
          exact congrArg Json.obj (if_neg hcurrent).symm
  · cases h

/-- What the source makes of a document. -/
theorem deleteContext_spec {doc : Json ν} (h : deleteContext (.obj mapping) name = .ok doc) :
    ∃ mapping', doc = .obj mapping' ∧ DeletesWith mapping mapping' name (pruned mapping name) := by
  obtain ⟨hcontexts, rfl⟩ := deleteContext_eq_ok h
  obtain ⟨hkeys, hfind⟩ := prunedMapping_spec name hcontexts
  have hcurrent : find "current-context" (prunedMapping mapping name) = find "current-context" mapping := by
    rw [hfind]
    exact option_map_eq_self fun v _ => rfl
  refine ⟨_, rfl, ?_, fun key => ?_⟩
  · split
    · next hnamed =>
      rw [map_fst_insertEntry, hkeys]
      cases hv : find "current-context" (prunedMapping mapping name) with
      | none =>
        rw [hv] at hnamed
        cases hnamed
      | some v => rfl
    · exact hkeys
  · by_cases hkey : key = "current-context"
    · subst hkey
      cases hv : find "current-context" mapping with
      | none =>
        rw [hcurrent, hv]
        exact hcurrent.trans hv
      | some v =>
        rw [hcurrent, hv, Option.bind_some, Option.map_some, valueAfter, if_pos rfl]
        split
        · exact find_insertEntry_self _ _ _
        · exact hcurrent.trans hv
    · have hother : find key (if (find "current-context" (prunedMapping mapping name)).bind asStr = some name then
          insertEntry "current-context" (.str "") (prunedMapping mapping name) else prunedMapping mapping name) =
          find key (prunedMapping mapping name) := by
        split
        · exact find_insertEntry_of_ne hkey _ _
        · rfl
      rw [hother, hfind]
      exact congrArg (fun f => (find key mapping).map f) (funext fun v => (if_neg hkey).symm)

theorem removed_refersTo {n : String} (h : removedField kind removed = some n) : refersTo kind n removed = true := by
  obtain ⟨e, he, hfield⟩ := Option.bind_eq_some_iff.mp h
  refine List.any_eq_true.mpr ⟨e, List.mem_of_mem_filter (List.mem_of_getLast? he), decide_eq_true hfield⟩

theorem pruned_le_orphaned {n : String} (h : pruned mapping name kind n = true) : orphaned mapping name kind n = true := by
  obtain ⟨hfield, hkept⟩ := (Bool.and_eq_true _ _).mp h
  exact (Bool.and_eq_true _ _).mpr ⟨removed_refersTo (of_decide_eq_true hfield), hkept⟩

/-- The entries that are pruned from a list are the right ones exactly when the last reference names them. -/
theorem dropNamed_pruned_iff :
    (find listKey mapping).map (dropNamed (pruned mapping name kind)) =
        (find listKey mapping).map (dropNamed (orphaned mapping name kind)) ↔
      LastRefersTo mapping name kind listKey := by
  rw [LastRefersTo, listAt]
  cases find listKey mapping with
  | none => exact iff_of_true rfl fun e he => absurd he List.not_mem_nil
  | some v =>
    rw [Option.map_some, Option.map_some, Option.some_inj]
    cases v with
    | arr xs =>
      rw [dropNamed_eq_iff]
      refine forall₄_congr fun e he n hn => ⟨fun h horphaned => ?_, fun h => ?_⟩
      · rw [horphaned] at h
        exact of_decide_eq_true ((Bool.and_eq_true _ _).mp h).1
      · cases horphaned : orphaned mapping name kind n with
        | true =>
          have hkept := ((Bool.and_eq_true _ _).mp horphaned).2
          rw [pruned, decide_eq_true (h horphaned), hkept]
          rfl
        | false => exact Bool.eq_false_iff.mpr fun h => Bool.false_ne_true (horphaned.symm.trans (pruned_le_orphaned h))
    | _ => exact iff_of_true rfl fun e he => absurd he List.not_mem_nil

theorem deletesWith_iff (h : DeletesWith mapping mapping' name (pruned mapping name)) :
    DeletedExactly mapping mapping' name ↔
      LastRefersTo mapping name "cluster" "clusters" ∧ LastRefersTo mapping name "user" "users" := by
  obtain ⟨hkeys, hfind⟩ := h
  rw [← dropNamed_pruned_iff, ← dropNamed_pruned_iff]
  constructor
  · rintro ⟨-, hexact⟩
    exact ⟨(hfind "clusters").symm.trans (hexact "clusters"), (hfind "users").symm.trans (hexact "users")⟩
  · rintro ⟨hclusters, husers⟩
    refine ⟨hkeys, fun key => (hfind key).trans ?_⟩
    by_cases hkey : key = "clusters"
    · subst hkey
      exact hclusters
    by_cases hkey' : key = "users"
    · subst hkey'
      exact husers
    have hsame : ∀ dropped, listAfter mapping name dropped key =
        fun v => if key = "contexts" then .arr (keptContexts mapping name) else v := by
      intro dropped
      funext v
      rw [listAfter, if_neg hkey, if_neg hkey']
    refine congrArg (fun f => (find key mapping).map f) (funext fun v => ?_)
    rw [valueAfter, valueAfter, hsame, hsame]

end Documents

section Files
variable [DecidableEq δ] (env : Env ν δ) (st : State δ) (path : Loc δ) (name : String) (writeFails : Bool)

/-- The state and the answer after a deletion. -/
def afterDelete : State δ × Except EditError Bool := applyStep env st ⟨path, .deleteContext name, false, writeFails⟩

/-- An error leaves every place but the temporary name as it was; else the file has the text of the document from
which the context is deleted exactly. -/
def Deletes : Prop :=
  (∀ e, (afterDelete env st path name writeFails).2 = .error e → ∀ r, r ≠ tmpSibling env.pid st.seq path →
      (afterDelete env st path name writeFails).1.fs r = st.fs r) ∧
    ∀ b, (afterDelete env st path name writeFails).2 = .ok b → ∃ raw mode mapping mapping' text mode',
      readFile st.fs maxLinks path = some (raw, mode) ∧ env.parse raw = some (.obj mapping) ∧
      deleteContext (.obj mapping) name = .ok (.obj mapping') ∧ env.print (.obj mapping') = some text ∧
      (afterDelete env st path name writeFails).1.fs path = some (.file text mode') ∧
      DeletedExactly mapping mapping' name

variable {env st path name writeFails}

theorem apply_deleteContext {raw text : String} (h : Edit.apply env path (.deleteContext name) raw = .ok text) :
    ∃ mapping mapping', env.parse raw = some (.obj mapping) ∧
      deleteContext (.obj mapping) name = .ok (.obj mapping') ∧ env.print (.obj mapping') = some text := by
  rw [Edit.apply] at h
  cases hparse : env.parse raw with
  | none =>
    rw [hparse] at h
    cases h
  | some doc =>
    rw [hparse] at h
    dsimp only at h
    cases hdelete : deleteContext doc name with
    | error e =>
      rw [hdelete] at h
      cases h
    | ok doc' =>
      rw [hdelete] at h
      dsimp only at h
      cases hprint : env.print doc' with
      | none =>
        rw [hprint] at h
        cases h
      | some text' =>
        rw [hprint] at h
        obtain rfl := Except.ok.inj h
        cases doc with
        | obj mapping =>
          obtain ⟨mapping', rfl, -⟩ := deleteContext_spec hdelete
          exact ⟨mapping, mapping', rfl, hdelete, hprint⟩
        | _ => cases hdelete

theorem afterDelete_cases (env : Env ν δ) (st : State δ) (path : Loc δ) (name : String) (writeFails : Bool) :
    ((∃ e, (afterDelete env st path name writeFails).2 = .error e) ∧ ∀ r, r ≠ tmpSibling env.pid st.seq path →
        (afterDelete env st path name writeFails).1.fs r = st.fs r) ∨
      ((afterDelete env st path name writeFails).2 = .ok true ∧ ∃ raw mode mapping mapping' text mode',
        readFile st.fs maxLinks path = some (raw, mode) ∧ env.parse raw = some (.obj mapping) ∧
        deleteContext (.obj mapping) name = .ok (.obj mapping') ∧ env.print (.obj mapping') = some text ∧
        (afterDelete env st path name writeFails).1.fs path = some (.file text mode')) := by
  have hafter : afterDelete env st path name writeFails =
      editInFile env st ⟨path, .deleteContext name, false, writeFails⟩ := rfl
  rw [hafter, editInFile]
  cases hread : readFile st.fs maxLinks path with
  | none => exact Or.inl ⟨⟨_, rfl⟩, fun _ _ => rfl⟩
  | some file =>
    obtain ⟨raw, mode⟩ := file
    dsimp only
    cases hedit : Edit.apply env path (.deleteContext name) raw with
    | error e => exact Or.inl ⟨⟨e, rfl⟩, fun _ _ => rfl⟩
    | ok text =>
      obtain ⟨mapping, mapping', hparse, hdelete, hprint⟩ := apply_deleteContext hedit
      dsimp only
      rcases replaceFile_frame st.fs (tmpSibling_ne env.pid st.seq path) text (newMode env.umask none) writeFails with
        ⟨hfailed, hframe⟩ | ⟨hdone, hfile⟩
      · refine Or.inl ⟨⟨.io, ?_⟩, hframe⟩
        rw [atomicWriteSyncMode, hfailed]
        rfl
      · refine Or.inr ⟨?_, raw, mode, mapping, mapping', text, _, rfl, hparse, hdelete, hprint, hfile⟩
        rw [atomicWriteSyncMode, hdone]
        rfl

/-- A context is deleted exactly just when the last removed entry refers to all that is to go with it. -/
theorem deletes_iff (env : Env ν δ) (st : State δ) (path : Loc δ) (name : String) (writeFails : Bool) :
    Deletes env st path name writeFails ↔ ∀ b, (afterDelete env st path name writeFails).2 = .ok b →
      ∀ raw mode mapping, readFile st.fs maxLinks path = some (raw, mode) → env.parse raw = some (.obj mapping) →
        LastRefersTo mapping name "cluster" "clusters" ∧ LastRefersTo mapping name "user" "users" := by
  rcases afterDelete_cases env st path name writeFails with
    ⟨⟨e, he⟩, hframe⟩ | ⟨hok, raw, mode, mapping, mapping', text, mode', hread, hparse, hdelete, hprint, hfile⟩
  · have hnot : ∀ b, (afterDelete env st path name writeFails).2 ≠ .ok b := by
      intro b hb
      cases he.symm.trans hb
    exact iff_of_true ⟨fun _ _ => hframe, fun b hb => absurd hb (hnot b)⟩ fun b hb => absurd hb (hnot b)
  · obtain ⟨_, heq, hwith⟩ := deleteContext_spec hdelete
    obtain rfl := Json.obj.inj heq
    constructor
    · rintro ⟨-, h⟩ b hb raw₁ mode₁ mapping₁ hread₁ hparse₁
      obtain ⟨raw₂, mode₂, mapping₂, mapping₂', -, -, hread₂, hparse₂, hdelete₂, -, -, hexact⟩ := h b hb
      cases hread.symm.trans hread₁
      cases hread.symm.trans hread₂
      cases hparse.symm.trans hparse₁
      cases hparse.symm.trans hparse₂
      cases hdelete.symm.trans hdelete₂
      exact (deletesWith_iff hwith).mp hexact
    · intro h
      refine ⟨fun e he => absurd (he.symm.trans hok) (by simp), fun b hb => ?_⟩
      exact ⟨raw, mode, mapping, mapping', text, mode', hread, hparse, hdelete, hprint, hfile,
        (deletesWith_iff hwith).mpr (h b hb raw mode mapping hread hparse)⟩

end Files

def namedEntry (name : String) : Json Unit := .obj [("name", .str name)]

def contextEntry (name cluster user : String) : Json Unit :=
  .obj [("name", .str name), ("context", .obj [("cluster", .str cluster), ("user", .str user)])]

/-- Two contexts of one name that refer to two clusters, and a third context. -/
def twiceNamed : Fields Unit :=
  [("contexts", .arr [contextEntry "dev" "a" "u", contextEntry "dev" "b" "u", contextEntry "prod" "c" "v"]),
    ("clusters", .arr [namedEntry "a", namedEntry "b", namedEntry "c"])]

def twiceNamedEnv : Env Unit Unit :=
  { parse := fun _ => some (.obj twiceNamed)
    print := fun _ => some "new"
    display := fun _ => ""
    umask := 0o022
    pid := 7 }

/-- The first cluster is left although no context refers to it any more. -/
theorem not_deletes_twiceNamed : ¬ Deletes twiceNamedEnv linkedState sharedLoc "dev" false := by
  rintro ⟨-, h⟩
  obtain ⟨raw, mode, mapping, mapping', text, mode', -, hparse, hdelete, -, -, hexact⟩ := h true rfl
  cases hparse
  obtain ⟨_, heq, hwith⟩ := deleteContext_spec hdelete
  obtain rfl := Json.obj.inj heq
  have hlast := ((deletesWith_iff hwith).mp hexact).1 (namedEntry "a") (by simp [listAt, find, twiceNamed]) "a" rfl rfl
  exact absurd hlast (by decide)

end FerrisScope.KubeconfigEdits
