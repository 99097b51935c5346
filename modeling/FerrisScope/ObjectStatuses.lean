import FerrisScope.KeyedWrites
import FerrisScope.KindSlots
import FerrisScope.WatcherLoop
import Mathlib.Algebra.Order.Ring.Nat
import Mathlib.Data.List.Dedup

/-!
# Status of a batch of object references

References are grouped by group and kind. Synced caches that cover a reference answer it; the
other kinds are resolved by the registry or by discovery, and their references are split into
LIST jobs that share a budget of pages. Each job's share of the budget, the answers of the
apiserver and the registry are given to the model. Groups are visited in the order of their first
reference: each settles its own items.
-/

namespace FerrisScope.ObjectStatuses
open KeyedWrites KindSlots

variable {ν : Type}

def maxRefs : ℕ := 5000

def perNamespaceListMax : ℕ := 3

structure ObjectRef where
  group : String
  kind : String
  ns : Option String
  name : String
  deriving DecidableEq, Repr

inductive StatusError where
  | forbidden
  | truncated
  | namespaceRequired
  | discovery
  | timeout
  | failed
  deriving DecidableEq, Repr

structure ObjectStatus where
  group : String
  kind : String
  ns : Option String
  name : String
  kindId : Option String
  found : Bool
  status : Option String
  ready : Option String
  error : Option StatusError
  deriving DecidableEq, Repr

structure KindKey where
  group : String
  kind : String
  namespaced : Bool
  deriving DecidableEq, Repr

abbrev Gk := String × String

/-- Namespace and name. -/
abbrev Key := String × String

/-- A watcher of the app, with its snapshot. -/
structure CachedSlot (ν : Type) where
  kindId : String
  scope : NsScope
  initDone : Bool
  rows : List (RowJson ν)

structure CacheView (ν : Type) where
  kindId : String
  scope : NsScope
  rows : List (RowJson ν)

structure DynamicObject (ν : Type) where
  name : Option String
  ns : Option String
  data : Json ν

structure ApiResource where
  group : String
  version : String
  plural : String
  kind : String
  deriving DecidableEq, Repr

/-- `project` gives nothing where the object does not deserialize into the kind's type. -/
structure ResolvedKind (ν : Type) where
  kindId : String
  namespaced : Bool
  project : DynamicObject ν → Option (Json ν)

inductive FilteredRun where
  | ok (kinds : Gk → Option (ApiResource × Bool))
  | failed
  | timedOut

inductive GroupRun where
  | ok (kinds : String → Option (ApiResource × Bool))
  | unknown
  | failed
  | timedOut

/-- The code of an API error, if it is one. -/
inductive PageResult (ν : Type) where
  | page (items : List (DynamicObject ν)) (next : Option String)
  | error (code : Option ℕ)
  | timedOut

/-- The registry, the normalization of rows, and what the apiserver answers. Pages and shares of
the budget are those of the LIST of a kind id in a namespace, or cluster-wide. -/
structure World (ν : Type) where
  parseKindId : String → Option KindKey
  lookupByGk : Gk → Option (ResolvedKind ν)
  fromDynamicCrd : ApiResource → Bool → ResolvedKind ν
  normalize : String → Json ν → Option String × Option String
  filtered : FilteredRun
  group : String → GroupRun
  pages : String → Option String → ℕ → PageResult ν
  granted : String → Option String → ℕ

def covers (scope : NsScope) (namespaced : Bool) (ns : String) : Bool :=
  match scope with
  | .all => true
  | .one s => namespaced && s = ns

/-- `none` is one cluster-wide LIST. -/
def planLists (namespaced : Bool) (namespaces : List String) : List (Option String) :=
  if !namespaced || namespaces.isEmpty || perNamespaceListMax < namespaces.length then [none]
  else namespaces.map some

/-- An optional text field of a row, if the row parses. -/
def textField (row : RowJson ν) (key : String) : Option String :=
  match row.value.get? key with
  | none => some ""
  | some .null => some ""
  | some (.str s) => some s
  | some _ => none

/-- The key of a row. -/
def rowKey (namespaced : Bool) (row : RowJson ν) : Option Key :=
  match row.value with
  | .obj _ => match textField row "name", textField row "namespace" with
      | some name, some ns => some (if namespaced then ns else "", name)
      | _, _ => none
  | _ => none

def indexRows (wanted : Finset Key) (namespaced : Bool) :
    List (RowJson ν) → Table Key (Json ν) → Table Key (Json ν)
  | [], out => out
  | row :: rows, out => match rowKey namespaced row with
      | none => indexRows wanted namespaced rows out
      | some key =>
          if key ∈ wanted then
            let out := out.insert key row.value
            if out.keys.card = wanted.card then out else indexRows wanted namespaced rows out
          else indexRows wanted namespaced rows out

def pending (r : ObjectRef) : ObjectStatus :=
  ⟨r.group, r.kind, r.ns, r.name, none, false, none, none, none⟩

def settle (w : World ν) (kindId : String) (row : Option (Json ν)) (item : ObjectStatus) :
    ObjectStatus :=
  match row with
  | some v => { item with
      kindId := some kindId
      error := none
      found := true
      status := (w.normalize kindId v).1
      ready := (w.normalize kindId v).2 }
  | none => { item with
      kindId := some kindId
      error := none
      found := false
      status := some "Missing"
      ready := none }

def refKey (item : ObjectStatus) (namespaced : Bool) : Option Key :=
  if namespaced then (item.ns.filter fun s => !s.isEmpty).map fun ns => (ns, item.name)
  else some ("", item.name)

def ObjectStatus.gk (item : ObjectStatus) : Gk := (item.group, item.kind)

def ObjectRef.gk (r : ObjectRef) : Gk := (r.group, r.kind)

/-- `gks` are the keys of `groups`, in the order they are visited. -/
structure Batch where
  items : List ObjectStatus
  truncated : Bool
  groups : Table Gk (List ℕ)
  gks : List Gk

namespace Batch

def group (b : Batch) (gk : Gk) : List ℕ := (b.groups.lookup gk).getD []

local instance : LawfulBEq Gk := inferInstanceAs (LawfulBEq (String × String))

def push (b : Batch) (i : ℕ) (gk : Gk) : Batch :=
  { b with
    groups := b.groups.insert gk (b.group gk ++ [i])
    gks := if gk ∈ b.gks then b.gks else b.gks ++ [gk] }

def new (refs : List ObjectRef) : Batch :=
  (refs.take maxRefs).zipIdx.foldl (fun b e => b.push e.2 e.1.gk)
    { items := refs.mapIdx fun i r =>
        if maxRefs ≤ i then { pending r with error := some .truncated } else pending r
      truncated := maxRefs < refs.length
      groups := ∅
      gks := [] }

def pendingCount (b : Batch) : ℕ := (b.gks.map fun gk => (b.group gk).length).sum

def wants (b : Batch) (gk : Gk) : Bool := !(b.group gk).isEmpty

/-- Write the items of some indices. -/
def update (b : Batch) (idxs : List ℕ) (f : ObjectStatus → ObjectStatus) : Batch :=
  { b with items := b.items.mapIdx fun i item => if i ∈ idxs then f item else item }

end Batch

/-- The views of a kind, each with the scope its id states. -/
def slotsOf (w : World ν) (views : List (CacheView ν)) (gk : Gk) : List (CacheView ν × Bool) :=
  views.filterMap fun v => (w.parseKindId v.kindId).bind fun k =>
    if (k.group, k.kind) = gk then some (v, k.namespaced) else none

/-- The first view that covers the key. -/
def position (slots : List (CacheView ν × Bool)) (namespaced : Bool) (key : Key) : Option ℕ :=
  slots.findIdx? fun s => covers s.1.scope namespaced key.1

/-- The keys of the items that the `n`-th view answers. -/
def assigned (b : Batch) (slots : List (CacheView ν × Bool)) (namespaced : Bool) (idxs : List ℕ)
    (n : ℕ) : Finset Key :=
  (idxs.filterMap fun i => (b.items[i]?).bind fun item => (refKey item namespaced).filter fun key =>
    position slots namespaced key = some n).toFinset

/-- What the views do to an item of their kind. -/
def answerItem (w : World ν) (b : Batch) (slots : List (CacheView ν × Bool)) (namespaced : Bool)
    (idxs : List ℕ) (item : ObjectStatus) : ObjectStatus :=
  match refKey item namespaced with
  | none => { item with error := some .namespaceRequired }
  | some key => match position slots namespaced key with
      | none => item
      | some n => match slots[n]? with
          | none => item
          | some (view, _) =>
              settle w view.kindId
                ((indexRows (assigned b slots namespaced idxs n) namespaced view.rows ∅).lookup key) item

/-- The indices that no view answers. -/
def retained (b : Batch) (slots : List (CacheView ν × Bool)) (namespaced : Bool) (idxs : List ℕ) :
    List ℕ :=
  idxs.filter fun i => (b.items[i]?).any fun item => (refKey item namespaced).any fun key =>
    (position slots namespaced key).isNone

def applyViews (w : World ν) (views : List (CacheView ν)) (b : Batch) (gk : Gk) : Batch :=
  match b.groups.lookup gk, slotsOf w views gk with
  | none, _ => b
  | _, [] => b
  | some idxs, (v, namespaced) :: rest =>
      { b.update idxs (answerItem w b ((v, namespaced) :: rest) namespaced idxs) with
        groups := b.groups.insert gk (retained b ((v, namespaced) :: rest) namespaced idxs) }

/-- The kinds of the views, each once. -/
def viewGks (w : World ν) (views : List (CacheView ν)) : List Gk :=
  (views.filterMap fun v => (w.parseKindId v.kindId).map fun k => (k.group, k.kind)).dedup

def applyCache (w : World ν) (views : List (CacheView ν)) (b : Batch) : Batch :=
  (viewGks w views).foldl (applyViews w views) b

namespace Batch

def remove (b : Batch) (gk : Gk) : Batch := { b with groups := b.groups.erase gk }

def failGroup (b : Batch) (gk : Gk) (err : StatusError) : Batch :=
  (b.update (b.group gk) fun item => { item with error := some err }).remove gk

def missGroup (b : Batch) (gk : Gk) : Batch :=
  (b.update (b.group gk) fun item => { item with found := false, status := some "Missing" }).remove gk

end Batch

abbrev Discovered := Except StatusError (Option (ApiResource × Bool))

/-- One filtered run, or one run for each group when that fails. -/
def discoverKind (w : World ν) (gk : Gk) : Discovered :=
  match w.filtered with
  | .ok kinds => .ok (kinds gk)
  | .timedOut => .error .timeout
  | .failed => match w.group gk.1 with
      | .ok kinds => .ok (kinds gk.2)
      | .unknown => .ok none
      | .failed => .error .discovery
      | .timedOut => .error .timeout

/-- The registry's kind, else the discovered one. -/
def resolveKind (w : World ν) (gk : Gk) : Except StatusError (Option (ResolvedKind ν)) :=
  match w.lookupByGk gk with
  | some k => .ok (some k)
  | none => (discoverKind w gk).map fun found => found.map fun e => w.fromDynamicCrd e.1 e.2

/-- Groups that cannot be resolved are settled. -/
def resolveStep (w : World ν) (acc : List (Gk × ResolvedKind ν) × Batch) (gk : Gk) :
    List (Gk × ResolvedKind ν) × Batch :=
  match resolveKind w gk with
  | .ok (some kind) => (acc.1 ++ [(gk, kind)], acc.2)
  | .ok none => (acc.1, acc.2.missGroup gk)
  | .error e => (acc.1, acc.2.failGroup gk e)

def resolveKinds (w : World ν) (b : Batch) : List (Gk × ResolvedKind ν) × Batch :=
  (b.gks.filter fun gk => b.wants gk).foldl (resolveStep w) ([], b)

structure ListJob (ν : Type) where
  kind : ResolvedKind ν
  ns : Option String
  wanted : Finset Key
  refs : List (ℕ × Key)

/-- The indices with their keys. -/
def keyed (b : Batch) (namespaced : Bool) (idxs : List ℕ) : List (ℕ × Key) :=
  idxs.filterMap fun i => (b.items[i]?).bind fun item => (refKey item namespaced).map fun key => (i, key)

/-- The namespaces of the keys, sorted. -/
def namespacesOf (refs : List (ℕ × Key)) : List String :=
  (refs.map fun e => e.2.1).dedup.mergeSort

def jobsOf (kind : ResolvedKind ν) (refs : List (ℕ × Key)) : List (ListJob ν) :=
  if refs.isEmpty then []
  else (planLists kind.namespaced (namespacesOf refs)).map fun scope =>
    let mine := refs.filter fun e => scope.all fun ns => ns = e.2.1
    { kind := kind, ns := scope, wanted := (mine.map Prod.snd).toFinset, refs := mine }

/-- An item of a namespaced kind needs a namespace. -/
def requireNamespace (namespaced : Bool) (item : ObjectStatus) : ObjectStatus :=
  match refKey item namespaced with
  | none => { item with error := some .namespaceRequired }
  | some _ => item

def jobStep (acc : List (ListJob ν) × Batch) (e : Gk × ResolvedKind ν) : List (ListJob ν) × Batch :=
  let b := acc.2
  let idxs := b.group e.1
  let refs := keyed b e.2.namespaced idxs
  (acc.1 ++ jobsOf e.2 refs,
    (b.update idxs (requireNamespace e.2.namespaced)).remove e.1)

def listJobs (kinds : List (Gk × ResolvedKind ν)) (b : Batch) : List (ListJob ν) × Batch :=
  kinds.foldl jobStep ([], b)

structure ListOutcome (ν : Type) where
  found : Table Key (Json ν)
  complete : Bool
  error : Option StatusError

def classify : Option ℕ → StatusError
  | some code => if code = 403 ∨ code = 401 then .forbidden else .failed
  | none => .failed

def objectKey (namespaced : Bool) (obj : DynamicObject ν) : Key :=
  (if namespaced then obj.ns.getD "" else "", obj.name.getD "")

def scanObject (kind : ResolvedKind ν) (wanted : Finset Key) (found : Table Key (Json ν))
    (obj : DynamicObject ν) : Table Key (Json ν) :=
  if objectKey kind.namespaced obj ∈ wanted then
    match kind.project obj with
    | some row => found.insert (objectKey kind.namespaced obj) row
    | none => found
  else found

def scanPage (kind : ResolvedKind ν) (wanted : Finset Key) (found : Table Key (Json ν))
    (items : List (DynamicObject ν)) : Table Key (Json ν) :=
  items.foldl (scanObject kind wanted) found

/-- The loop of a LIST with a share of the budget, from the `n`-th page on. -/
def runList (kind : ResolvedKind ν) (wanted : Finset Key) (pages : ℕ → PageResult ν) :
    ℕ → ℕ → Table Key (Json ν) → ListOutcome ν
  | 0, _, found => ⟨found, false, none⟩
  | budget + 1, n, found => match pages n with
      | .error code => ⟨found, false, some (classify code)⟩
      | .timedOut => ⟨found, false, some .timeout⟩
      | .page items next =>
          let found := scanPage kind wanted found items
          if (next.filter fun t => !t.isEmpty).isNone ∨ found.keys.card = wanted.card then
            ⟨found, true, none⟩
          else runList kind wanted pages budget (n + 1) found

def ListJob.outcome (w : World ν) (job : ListJob ν) : ListOutcome ν :=
  runList job.kind job.wanted (w.pages job.kind.kindId job.ns) (w.granted job.kind.kindId job.ns) 0 ∅

/-- What the outcome of a LIST does to an item. -/
def outcomeItem (w : World ν) (kindId : String) (outcome : ListOutcome ν) (key : Key)
    (item : ObjectStatus) : ObjectStatus :=
  match outcome.found.lookup key with
  | some v => settle w kindId (some v) item
  | none =>
      if outcome.complete then settle w kindId none item
      else { item with kindId := some kindId, error := some (outcome.error.getD .truncated) }

def applyOutcome (w : World ν) (b : Batch) (job : ListJob ν) : Batch :=
  let outcome := job.outcome w
  { b with
    items := b.items.mapIdx fun i item => match job.refs.find? (·.1 = i) with
      | some e => outcomeItem w job.kind.kindId outcome e.2 item
      | none => item
    truncated := b.truncated || job.refs.any fun e =>
      (outcome.found.lookup e.2).isNone && !outcome.complete && outcome.error.getD .truncated = .truncated }

structure Statuses where
  items : List ObjectStatus
  truncated : Bool

def Batch.finish (b : Batch) : Statuses := ⟨b.items, b.truncated⟩

def viewsOf (w : World ν) (b : Batch) (slots : List (CachedSlot ν)) : List (CacheView ν) :=
  ((slots.filter fun s => s.initDone).filter fun s =>
    (w.parseKindId s.kindId).any fun k => b.wants (k.group, k.kind)).map fun s =>
      ⟨s.kindId, s.scope, s.rows⟩

def resolveObjectStatuses (w : World ν) (refs : List ObjectRef) (slots : List (CachedSlot ν)) :
    Statuses :=
  let b := Batch.new refs
  let b := applyCache w (viewsOf w b slots) b
  if b.pendingCount = 0 then b.finish
  else
    let r := resolveKinds w b
    let j := listJobs r.1 r.2
    (j.1.foldl (applyOutcome w) j.2).finish

end FerrisScope.ObjectStatuses
