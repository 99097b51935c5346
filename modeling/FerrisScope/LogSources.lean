import FerrisScope.ClusterShortNames

/-!
# The log streams of a set of pods and their labels

Each label has only the parts that seem needed: the cluster when there are several, the namespace
when a short pod name repeats in its cluster, the container when a pod has several. The parts are
joined by the same separator whatever they are.
-/

namespace FerrisScope.LogSources
open HostsFile ClusterShortNames

/-- The letters of the names the API server accepts for namespaces, pods and containers. -/
def isNameChar (c : Char) : Bool := ('a' ≤ c && c ≤ 'z') || ('0' ≤ c && c ≤ '9') || c == '-' || c == '.'

structure ObjectName where
  text : Text
  valid : ∀ c ∈ text, isNameChar c = true

@[ext] theorem ObjectName.ext {a b : ObjectName} (h : a.text = b.text) : a = b := by
  cases a
  cases b
  cases h
  rfl

instance : DecidableEq ObjectName := fun a b =>
  decidable_of_iff (a.text = b.text) ⟨ObjectName.ext, fun h => h ▸ rfl⟩

inductive LogContainerKind where
  | main
  | sidecar
  | init
  deriving DecidableEq

structure LogContainer where
  name : ObjectName
  kind : LogContainerKind
  deriving DecidableEq

structure ObservedPod where
  clusterId : Text
  ns : ObjectName
  name : ObjectName
  containers : List LogContainer
  deriving DecidableEq

structure LogViewSource where
  key : Text
  clusterId : Text
  ns : ObjectName
  pod : ObjectName
  container : ObjectName
  containerKind : LogContainerKind
  previous : Bool
  tailLines : Option ℕ
  label : Text
  colorIdx : ℕ

structure BuildLogSourceOpts where
  tailLines : Option (Option ℕ) := none
  excludedContainers : Option (List ObjectName) := none
  includedPods : Option (List Text) := none

structure Built where
  sources : List LogViewSource
  dropped : ℕ

def defaultTailLines : ℕ := 200

def maxLogSources : ℕ := 24

def nul : Char := Char.ofNat 0

def sourceKey (clusterId : Text) (ns pod container : ObjectName) (previous : Bool) (tailLines : Option ℕ) :
    Text :=
  let tailSeg := match tailLines with
    | none => "all".toList
    | some n => Nat.toDigits 10 n
  [nul].intercalate [clusterId, ns.text, pod.text, container.text,
    if previous then "prev".toList else "live".toList, tailSeg]

def podKey (clusterId : Text) (ns name : ObjectName) : Text :=
  [nul].intercalate [clusterId, ns.text, name.text]

def keyOf (p : ObservedPod) : Text := podKey p.clusterId p.ns p.name

/-- The text of `shorts[n] ?? n`. Under `__proto__` the record has an object. -/
def readShort (names : List Text) (n : Text) : Text :=
  if n = protoKey then "[object Object]".toList else (shortClusterNames names n).getD n

section Build
variable (pods : List ObservedPod) (clusterNameFor : Text → Text) (opts : BuildLogSourceOpts)

def clusterIds : List Text := (pods.map ObservedPod.clusterId).eraseDups

def multiCluster : Bool := decide (1 < (clusterIds pods).length)

def shortPod (p : ObservedPod) : Text :=
  readShort ((pods.map fun q => q.name.text).eraseDups) p.name.text

/-- The key a short name is counted under. -/
def scopedName (p : ObservedPod) : Text := p.clusterId ++ nul :: shortPod pods p

def ambiguous (p : ObservedPod) : Bool := decide (1 < (pods.map (scopedName pods)).count (scopedName pods p))

def podLabel (p : ObservedPod) : Text :=
  if ambiguous pods p then p.ns.text ++ '/' :: shortPod pods p else shortPod pods p

def clusterShown (p : ObservedPod) : Text :=
  readShort ((clusterIds pods).map clusterNameFor) (clusterNameFor p.clusterId)

def clusterPrefix (p : ObservedPod) : Text :=
  if multiCluster pods then clusterShown pods clusterNameFor p ++ [' '] else []

def streamed (p : ObservedPod) : List LogContainer :=
  p.containers.filter fun c => !((opts.excludedContainers.getD []).contains c.name)

/-- Several containers of the pod are streamed. -/
def several (p : ObservedPod) : Bool := decide (1 < (streamed opts p).length)

def included (p : ObservedPod) : Bool :=
  match opts.includedPods with
  | none => true
  | some keys => keys.contains (keyOf p)

def labelOf (p : ObservedPod) (c : LogContainer) : Text :=
  if several opts p then
    clusterPrefix pods clusterNameFor p ++ podLabel pods p ++ '/' :: c.name.text
  else clusterPrefix pods clusterNameFor p ++ podLabel pods p

def sourceOf (p : ObservedPod) (c : LogContainer) (colorIdx : ℕ) : LogViewSource :=
  let tailLines := opts.tailLines.getD (some defaultTailLines)
  { key := sourceKey p.clusterId p.ns p.name c.name false tailLines
    clusterId := p.clusterId
    ns := p.ns
    pod := p.name
    container := c.name
    containerKind := c.kind
    previous := false
    tailLines
    label := labelOf pods clusterNameFor opts p c
    colorIdx }

def addContainer (p : ObservedPod) (b : Built) (c : LogContainer) : Built :=
  if maxLogSources ≤ b.sources.length then { b with dropped := b.dropped + 1 }
  else { b with sources := b.sources ++ [sourceOf pods clusterNameFor opts p c b.sources.length] }

def addPod (b : Built) (p : ObservedPod) : Built :=
  if included opts p then (streamed opts p).foldl (addContainer pods clusterNameFor opts p) b else b

def buildLogSources : Built := pods.foldl (addPod pods clusterNameFor opts) ⟨[], 0⟩

/-! ## The eligible streams -/

/-- The containers that are to be streamed, in the order of their pods. -/
def eligible : List (ObservedPod × LogContainer) :=
  (pods.filter (included opts)).flatMap fun p => (streamed opts p).map fun c => (p, c)

def addStream (b : Built) (s : ObservedPod × LogContainer) : Built := addContainer pods clusterNameFor opts s.1 b s.2

theorem foldl_addPod (ps : List ObservedPod) (b : Built) :
    ps.foldl (addPod pods clusterNameFor opts) b = ((ps.filter (included opts)).flatMap fun p =>
      (streamed opts p).map fun c => (p, c)).foldl (addStream pods clusterNameFor opts) b := by
  induction ps generalizing b with
  | nil => rfl
  | cons p ps ih =>
    rw [List.foldl_cons, ih, addPod]
    by_cases hp : included opts p
    · rw [if_pos hp, List.filter_cons_of_pos hp, List.flatMap_cons, List.foldl_append, List.foldl_map]
      rfl
    · rw [if_neg hp, List.filter_cons_of_neg hp]

/-- The streams that fit are taken in order, and the others counted. -/
theorem foldl_addStream (ss : List (ObservedPod × LogContainer)) (b : Built)
    (hb : b.sources.length ≤ maxLogSources) :
    let built := ss.foldl (addStream pods clusterNameFor opts) b
    built.sources.map LogViewSource.label = b.sources.map LogViewSource.label ++
        (ss.take (maxLogSources - b.sources.length)).map (fun s => labelOf pods clusterNameFor opts s.1 s.2) ∧
      built.sources.length ≤ maxLogSources ∧
      built.sources.length + built.dropped = b.sources.length + b.dropped + ss.length := by
  induction ss generalizing b with
  | nil => exact ⟨by simp, hb, by simp⟩
  | cons s ss ih =>
    rw [List.foldl_cons, addStream, addContainer]
    by_cases hfull : maxLogSources ≤ b.sources.length
    · obtain ⟨hlabels, hcap, htotal⟩ := ih { b with dropped := b.dropped + 1 } hb
      rw [if_pos hfull]
      refine ⟨?_, hcap, ?_⟩
      · rw [hlabels]
        simp [Nat.sub_eq_zero_of_le hfull]
      · rw [htotal, List.length_cons]
        dsimp only
        omega
    · have hroom : b.sources.length + 1 ≤ maxLogSources := Nat.lt_of_not_le hfull
      obtain ⟨hlabels, hcap, htotal⟩ := ih
        { b with sources := b.sources ++ [sourceOf pods clusterNameFor opts s.1 s.2 b.sources.length] }
        (by simpa using hroom)
      rw [if_neg hfull]
      refine ⟨?_, hcap, ?_⟩
      · rw [hlabels]
        obtain ⟨k, hk⟩ := Nat.exists_eq_add_of_le hroom
        have hleft : maxLogSources - b.sources.length = k + 1 := by omega
        have hleft' : maxLogSources - (b.sources.length + 1) = k := by omega
        simp [hleft, hleft', sourceOf]
      · rw [htotal, List.length_cons]
        dsimp only
        rw [List.length_append, List.length_singleton]
        omega

theorem buildLogSources_labels : (buildLogSources pods clusterNameFor opts).sources.map LogViewSource.label =
    ((eligible pods opts).take maxLogSources).map fun s => labelOf pods clusterNameFor opts s.1 s.2 := by
  have hbuilt := foldl_addStream pods clusterNameFor opts (eligible pods opts) ⟨[], 0⟩ (Nat.zero_le _)
  rw [buildLogSources, foldl_addPod]
  exact hbuilt.1

theorem buildLogSources_counts : let built := buildLogSources pods clusterNameFor opts
    built.sources.length ≤ maxLogSources ∧
      built.sources.length + built.dropped = (eligible pods opts).length := by
  have hbuilt := foldl_addStream pods clusterNameFor opts (eligible pods opts) ⟨[], 0⟩ (Nat.zero_le _)
  rw [buildLogSources, foldl_addPod]
  refine ⟨hbuilt.2.1, hbuilt.2.2.trans ?_⟩
  simp

end Build

/-! ## The parts of a label -/

/-- Pods as a view holds them: one for each key, with containers of different names. -/
structure PodSet where
  pods : List ObservedPod
  keys_nodup : (pods.map keyOf).Nodup
  containers_nodup : ∀ p ∈ pods, (p.containers.map LogContainer.name).Nodup

theorem ObjectName.not_mem {c : Char} (n : ObjectName) (h : isNameChar c = false) : c ∉ n.text := fun hc => by
  rw [n.valid c hc] at h
  cases h

theorem append_cons_inj {α : Type*} {a : α} {x y z w : List α} (hz : a ∉ z) (hw : a ∉ w)
    (h : x ++ a :: z = y ++ a :: w) : x = y ∧ z = w := by
  rcases List.append_eq_append_iff.mp h with ⟨as, rfl, heq⟩ | ⟨as, rfl, heq⟩
  · cases as with
    | nil => exact ⟨(List.append_nil x).symm, (List.cons.inj heq).2⟩
    | cons b bs =>
      rw [(List.cons.inj heq).2] at hz
      exact absurd (List.mem_append_right bs List.mem_cons_self) hz
  · cases as with
    | nil => exact ⟨List.append_nil y, (List.cons.inj heq).2.symm⟩
    | cons b bs =>
      rw [(List.cons.inj heq).2] at hw
      exact absurd (List.mem_append_right bs List.mem_cons_self) hw

theorem readShort_of_mem {names : List Text} {n : Text} (hn : n ∈ names) (hkey : n ≠ protoKey) :
    readShort names n = shownName names n := by
  rw [readShort, if_neg hkey, shortClusterNames_of_ne hn hkey, Option.getD_some]

theorem mem_shownName {names : List Text} {n : Text} {c : Char} (h : c ∈ shownName names n) : c = '-' ∨ c ∈ n := by
  unfold shownName at h
  dsimp only at h
  split at h
  · exact Or.inr h
  split at h
  · exact Or.inr h
  split at h
  · exact Or.inr h
  split at h
  · exact mem_shortForm h
  · exact Or.inr h

section Labels
variable {pods : List ObservedPod} {clusterNameFor : Text → Text} {opts : BuildLogSourceOpts} {p q : ObservedPod}

theorem not_mem_shortPod (hp : p ∈ pods) {c : Char} (hc : isNameChar c = false) : c ∉ shortPod pods p := by
  have hname : p.name.text ∈ (pods.map fun q => q.name.text).eraseDups :=
    List.mem_eraseDups.mpr (List.mem_map_of_mem (f := fun q => q.name.text) hp)
  have hkey : p.name.text ≠ protoKey := by
    intro hproto
    have hunderscore : '_' ∈ p.name.text := by
      rw [hproto]
      decide
    exact p.name.not_mem (by decide) hunderscore
  rw [shortPod, readShort_of_mem hname hkey]
  intro hmem
  rcases mem_shownName hmem with rfl | hmem
  · exact absurd hc (by decide)
  · exact p.name.not_mem hc hmem

theorem scopedName_inj (hp : p ∈ pods) (hq : q ∈ pods) :
    scopedName pods p = scopedName pods q ↔ p.clusterId = q.clusterId ∧ shortPod pods p = shortPod pods q := by
  constructor
  · intro h
    exact append_cons_inj (not_mem_shortPod hp (by decide)) (not_mem_shortPod hq (by decide)) h
  · rintro ⟨hid, hshort⟩
    rw [scopedName, scopedName, hid, hshort]

/-- A short name is ambiguous when another pod of the cluster has it. -/
theorem ambiguous_iff (hnodup : pods.Nodup) (hp : p ∈ pods) : ambiguous pods p = true ↔
    ∃ q ∈ pods, q ≠ p ∧ q.clusterId = p.clusterId ∧ shortPod pods q = shortPod pods p := by
  have hone := count_map_eq_one_iff (f := scopedName pods) hnodup hp
  have hpos := List.count_pos_iff.mpr (List.mem_map_of_mem (f := scopedName pods) hp)
  rw [ambiguous, decide_eq_true_eq]
  constructor
  · intro hmany
    by_contra hnone
    have hcount := hone.mpr fun q hq heq => by_contra fun hne =>
      hnone ⟨q, hq, hne, (scopedName_inj hq hp).mp heq⟩
    omega
  · rintro ⟨q, hq, hne, hsame⟩
    have hcount := mt hone.mp fun h => hne (h q hq ((scopedName_inj hq hp).mpr hsame))
    omega

/-- The names a label is made of behind the cluster. -/
def parts (pods : List ObservedPod) (opts : BuildLogSourceOpts) (s : ObservedPod × LogContainer) : List Text :=
  (if ambiguous pods s.1 then [s.1.ns.text] else []) ++ shortPod pods s.1 ::
    (if several opts s.1 then [s.2.name.text] else [])

theorem labelOf_eq (s : ObservedPod × LogContainer) : labelOf pods clusterNameFor opts s.1 s.2 =
    clusterPrefix pods clusterNameFor s.1 ++ ['/'].intercalate (parts pods opts s) := by
  rw [labelOf, podLabel, parts]
  by_cases hmany : several opts s.1 <;> by_cases hamb : ambiguous pods s.1 <;>
    simp [hmany, hamb, List.intercalate]

theorem not_mem_parts {s : ObservedPod × LogContainer} (hp : s.1 ∈ pods) {c : Char} (hc : isNameChar c = false) :
    ∀ t ∈ parts pods opts s, c ∉ t := by
  intro t ht
  rw [parts, List.mem_append, List.mem_cons] at ht
  rcases ht with ht | rfl | ht
  · split at ht
    · rw [List.mem_singleton.mp ht]
      exact s.1.ns.not_mem hc
    · cases ht
  · exact not_mem_shortPod hp hc
  · split at ht
    · rw [List.mem_singleton.mp ht]
      exact s.2.name.not_mem hc
    · cases ht

theorem parts_inj {s t : ObservedPod × LogContainer} (hs : s.1 ∈ pods) (ht : t.1 ∈ pods)
    (h : ['/'].intercalate (parts pods opts s) = ['/'].intercalate (parts pods opts t)) :
    parts pods opts s = parts pods opts t := by
  have hslash : isNameChar '/' = false := by decide
  have hne : ∀ u, parts pods opts u ≠ [] := fun u => by simp [parts]
  rw [← List.splitOn_intercalate '/' (not_mem_parts hs hslash) (hne s), h,
    List.splitOn_intercalate '/' (not_mem_parts ht hslash) (hne t)]

/-- The view shows the two pods under one cluster. -/
def SameShownCluster (pods : List ObservedPod) (clusterNameFor : Text → Text) (p q : ObservedPod) : Prop :=
  multiCluster pods = true → clusterShown pods clusterNameFor p = clusterShown pods clusterNameFor q

theorem labelOf_eq_iff {s t : ObservedPod × LogContainer} (hs : s.1 ∈ pods) (ht : t.1 ∈ pods) :
    labelOf pods clusterNameFor opts s.1 s.2 = labelOf pods clusterNameFor opts t.1 t.2 ↔
      SameShownCluster pods clusterNameFor s.1 t.1 ∧ parts pods opts s = parts pods opts t := by
  have hblank : ∀ u : ObservedPod × LogContainer, u.1 ∈ pods → ' ' ∉ ['/'].intercalate (parts pods opts u) := by
    intro u hu hmem
    rcases ListCuts.mem_intercalate hmem with hc | ⟨t, ht, hc⟩
    · exact absurd hc (by decide)
    · exact not_mem_parts hu (by decide) t ht hc
  rw [labelOf_eq, labelOf_eq, clusterPrefix, clusterPrefix, SameShownCluster]
  by_cases hmulti : multiCluster pods
  · rw [if_pos hmulti, if_pos hmulti, List.append_assoc, List.append_assoc, List.singleton_append,
      List.singleton_append]
    constructor
    · intro h
      obtain ⟨hcluster, hparts⟩ := append_cons_inj (hblank s hs) (hblank t ht) h
      exact ⟨fun _ => hcluster, parts_inj hs ht hparts⟩
    · rintro ⟨hcluster, hparts⟩
      rw [hcluster hmulti, hparts]
  · rw [if_neg hmulti, if_neg hmulti, List.nil_append, List.nil_append]
    exact ⟨fun h => ⟨fun hm => absurd hm hmulti, parts_inj hs ht h⟩, fun h => by rw [h.2]⟩

end Labels

/-! ## Which streams get one label -/

section Confusable
variable (pods : List ObservedPod) (clusterNameFor : Text → Text) (opts : BuildLogSourceOpts)

/-- Labels of one form with the same names in it. -/
structure SameForm (s t : ObservedPod × LogContainer) : Prop where
  ambiguous_eq : ambiguous pods s.1 = ambiguous pods t.1
  several_eq : several opts s.1 = several opts t.1
  short_eq : shortPod pods s.1 = shortPod pods t.1
  ns_eq : ambiguous pods s.1 = true → s.1.ns = t.1.ns
  container_eq : several opts s.1 = true → s.2.name = t.2.name

/-- A namespace and pod read like a pod and container. -/
structure Crossed (s t : ObservedPod × LogContainer) : Prop where
  left_ambiguous : ambiguous pods s.1 = true
  left_single : several opts s.1 = false
  right_unique : ambiguous pods t.1 = false
  right_several : several opts t.1 = true
  ns_eq : s.1.ns.text = shortPod pods t.1
  short_eq : shortPod pods s.1 = t.2.name.text

variable {pods clusterNameFor opts} {s t : ObservedPod × LogContainer}

theorem SameForm.parts_eq (h : SameForm pods opts s t) : parts pods opts s = parts pods opts t := by
  rw [parts, parts, h.short_eq, ← h.ambiguous_eq, ← h.several_eq]
  congr 1
  · by_cases hamb : ambiguous pods s.1
    · rw [if_pos hamb, if_pos hamb, h.ns_eq hamb]
    · rw [if_neg hamb, if_neg hamb]
  · by_cases hmany : several opts s.1
    · rw [if_pos hmany, if_pos hmany, h.container_eq hmany]
    · rw [if_neg hmany, if_neg hmany]

theorem Crossed.parts_eq (h : Crossed pods opts s t) : parts pods opts s = parts pods opts t := by
  rw [parts, parts, if_pos h.left_ambiguous, if_neg (by rw [h.left_single]; exact Bool.false_ne_true),
    if_neg (by rw [h.right_unique]; exact Bool.false_ne_true), if_pos h.right_several, h.ns_eq, h.short_eq]
  rfl

/-- Equal parts come from one form, or from a namespace and pod beside a pod and container. -/
theorem form_of_parts_eq (h : parts pods opts s = parts pods opts t) :
    SameForm pods opts s t ∨ Crossed pods opts s t ∨ Crossed pods opts t s := by
  unfold parts at h
  cases has : ambiguous pods s.1 <;> cases hat : ambiguous pods t.1 <;>
    cases hms : several opts s.1 <;> cases hmt : several opts t.1 <;>
    simp [has, hat, hms, hmt] at h
  case false.false.false.false => exact Or.inl ⟨by rw [has, hat], by rw [hms, hmt], h, by simp [has], by simp [hms]⟩
  case false.false.true.true =>
    exact Or.inl ⟨by rw [has, hat], by rw [hms, hmt], h.1, by simp [has], fun _ => ObjectName.ext h.2⟩
  case false.true.true.false => exact Or.inr (Or.inr ⟨hat, hmt, has, hms, h.1.symm, h.2.symm⟩)
  case true.false.false.true => exact Or.inr (Or.inl ⟨has, hms, hat, hmt, h.1, h.2⟩)
  case true.true.false.false =>
    exact Or.inl ⟨by rw [has, hat], by rw [hms, hmt], h.2, fun _ => ObjectName.ext h.1, by simp [hms]⟩
  case true.true.true.true =>
    exact Or.inl ⟨by rw [has, hat], by rw [hms, hmt], h.2.1, fun _ => ObjectName.ext h.1,
      fun _ => ObjectName.ext h.2.2⟩

variable (pods clusterNameFor opts) in
/-- The ways two streams come to be shown alike. -/
inductive Confusable (s t : ObservedPod × LogContainer) : Prop where
  /-- Two clusters are shown under one name. -/
  | otherCluster (hid : s.1.clusterId ≠ t.1.clusterId) (hshown : SameShownCluster pods clusterNameFor s.1 t.1)
      (hform : SameForm pods opts s t)
  /-- Two pods of a namespace have one short name. -/
  | sameNamespace (hid : s.1.clusterId = t.1.clusterId) (hns : s.1.ns = t.1.ns) (hname : s.1.name ≠ t.1.name)
      (hshort : shortPod pods s.1 = shortPod pods t.1) (hseveral : several opts s.1 = several opts t.1)
      (hcontainer : several opts s.1 = true → s.2.name = t.2.name)
  | crossed (hshown : SameShownCluster pods clusterNameFor s.1 t.1) (hcrossed : Crossed pods opts s t)

theorem SameShownCluster.symm {p q : ObservedPod} (h : SameShownCluster pods clusterNameFor p q) :
    SameShownCluster pods clusterNameFor q p := fun hmulti => (h hmulti).symm

theorem sameShownCluster_of_id {p q : ObservedPod} (h : p.clusterId = q.clusterId) :
    SameShownCluster pods clusterNameFor p q := fun _ => by rw [clusterShown, clusterShown, h]

theorem mem_eligible {s : ObservedPod × LogContainer} (h : s ∈ eligible pods opts) :
    s.1 ∈ pods ∧ s.2 ∈ streamed opts s.1 := by
  obtain ⟨p, hp, hs⟩ := List.mem_flatMap.mp h
  obtain ⟨c, hc, rfl⟩ := List.mem_map.mp hs
  exact ⟨(List.mem_filter.mp hp).1, hc⟩

end Confusable

section PodSets
variable {P : PodSet} {clusterNameFor : Text → Text} {opts : BuildLogSourceOpts} {s t : ObservedPod × LogContainer}

theorem PodSet.nodup (P : PodSet) : P.pods.Nodup := List.Nodup.of_map _ P.keys_nodup

theorem PodSet.eq_of_keyOf {p q : ObservedPod} (hp : p ∈ P.pods) (hq : q ∈ P.pods) (h : keyOf p = keyOf q) : p = q :=
  List.inj_on_of_nodup_map P.keys_nodup hp hq h

theorem PodSet.eligible_nodup (P : PodSet) (opts : BuildLogSourceOpts) : (eligible P.pods opts).Nodup := by
  rw [eligible, List.nodup_flatMap]
  constructor
  · intro p hp
    have hcontainers := (P.containers_nodup p (List.mem_filter.mp hp).1).of_map
    exact (hcontainers.filter _).map fun c d h => (Prod.mk.inj h).2
  · refine (P.nodup.filter _).imp ?_
    intro p q hne s hsp hsq
    obtain ⟨c, -, rfl⟩ := List.mem_map.mp hsp
    obtain ⟨d, -, heq⟩ := List.mem_map.mp hsq
    exact hne (Prod.mk.inj heq).1.symm

/-- Two streams of one pod have labels with different containers. -/
theorem not_sameForm_of_pod_eq (hs : s ∈ eligible P.pods opts) (ht : t ∈ eligible P.pods opts) (hne : s ≠ t)
    (hpod : s.1 = t.1) : ¬ SameForm P.pods opts s t := by
  intro hform
  obtain ⟨p, c⟩ := s
  obtain ⟨q, d⟩ := t
  obtain rfl : p = q := hpod
  obtain ⟨hp, hc⟩ := mem_eligible hs
  obtain ⟨-, hd⟩ := mem_eligible ht
  have hcd : c ≠ d := fun h => hne (h ▸ rfl)
  have hmany : several opts p = true := by
    rw [several, decide_eq_true_eq]
    by_contra hfew
    obtain ⟨e, he⟩ := List.length_eq_one_iff.mp
      (le_antisymm (Nat.le_of_not_lt hfew) (List.length_pos_of_mem hc))
    rw [he, List.mem_singleton] at hc hd
    exact hcd (hc.trans hd.symm)
  refine hcd (List.inj_on_of_nodup_map (P.containers_nodup p hp) (List.mem_of_mem_filter hc)
    (List.mem_of_mem_filter hd) (hform.container_eq hmany))

/-- Labels of one form are of two clusters or of one namespace. -/
theorem confusable_of_sameForm (hs : s ∈ eligible P.pods opts) (ht : t ∈ eligible P.pods opts) (hne : s ≠ t)
    (hshown : SameShownCluster P.pods clusterNameFor s.1 t.1) (hform : SameForm P.pods opts s t) :
    Confusable P.pods clusterNameFor opts s t := by
  by_cases hid : s.1.clusterId = t.1.clusterId
  · have hpod : s.1 ≠ t.1 := fun h => not_sameForm_of_pod_eq hs ht hne h hform
    have hamb : ambiguous P.pods s.1 = true := (ambiguous_iff P.nodup (mem_eligible hs).1).mpr
      ⟨t.1, (mem_eligible ht).1, Ne.symm hpod, hid.symm, hform.short_eq.symm⟩
    have hns := hform.ns_eq hamb
    have hname : s.1.name ≠ t.1.name := fun hname => hpod <|
      PodSet.eq_of_keyOf (mem_eligible hs).1 (mem_eligible ht).1 (by rw [keyOf, keyOf, hid, hns, hname])
    exact .sameNamespace hid hns hname hform.short_eq hform.several_eq hform.container_eq
  · exact .otherCluster hid hshown hform

theorem labelOf_eq_of_confusable (hs : s.1 ∈ P.pods) (ht : t.1 ∈ P.pods)
    (h : Confusable P.pods clusterNameFor opts s t) :
    labelOf P.pods clusterNameFor opts s.1 s.2 = labelOf P.pods clusterNameFor opts t.1 t.2 := by
  rw [labelOf_eq_iff hs ht]
  cases h with
  | otherCluster hid hshown hform => exact ⟨hshown, hform.parts_eq⟩
  | sameNamespace hid hns hname hshort hseveral hcontainer =>
    have hpod : s.1 ≠ t.1 := fun h => hname (by rw [h])
    have hs_amb := (ambiguous_iff P.nodup hs).mpr ⟨t.1, ht, Ne.symm hpod, hid.symm, hshort.symm⟩
    have ht_amb := (ambiguous_iff P.nodup ht).mpr ⟨s.1, hs, hpod, hid, hshort⟩
    have hform : SameForm P.pods opts s t :=
      ⟨hs_amb.trans ht_amb.symm, hseveral, hshort, fun _ => hns, hcontainer⟩
    exact ⟨sameShownCluster_of_id hid, hform.parts_eq⟩
  | crossed hshown hcrossed => exact ⟨hshown, hcrossed.parts_eq⟩

theorem labelOf_eq_iff_confusable (hs : s ∈ eligible P.pods opts) (ht : t ∈ eligible P.pods opts) (hne : s ≠ t) :
    labelOf P.pods clusterNameFor opts s.1 s.2 = labelOf P.pods clusterNameFor opts t.1 t.2 ↔
      Confusable P.pods clusterNameFor opts s t ∨ Confusable P.pods clusterNameFor opts t s := by
  have hsp := (mem_eligible hs).1
  have htp := (mem_eligible ht).1
  constructor
  · intro hlabel
    obtain ⟨hshown, hparts⟩ := (labelOf_eq_iff hsp htp).mp hlabel
    rcases form_of_parts_eq hparts with hform | hcrossed | hcrossed
    · exact Or.inl (confusable_of_sameForm hs ht hne hshown hform)
    · exact Or.inl (.crossed hshown hcrossed)
    · exact Or.inr (.crossed hshown.symm hcrossed)
  · rintro (h | h)
    · exact labelOf_eq_of_confusable hsp htp h
    · exact (labelOf_eq_of_confusable htp hsp h).symm

end PodSets

/-- The streams that get a slot. -/
def taken (pods : List ObservedPod) (opts : BuildLogSourceOpts) : List (ObservedPod × LogContainer) :=
  (eligible pods opts).take maxLogSources

/-- Slots and dropped streams always add up. The labels are distinct exactly when no two streams with
a slot are confusable. -/
theorem buildLogSources_labels_iff (P : PodSet) (clusterNameFor : Text → Text) (opts : BuildLogSourceOpts) :
    let built := buildLogSources P.pods clusterNameFor opts
    ((built.sources.map LogViewSource.label).Nodup ∧ built.sources.length ≤ maxLogSources ∧
        built.sources.length + built.dropped = (eligible P.pods opts).length) ↔
      ∀ s ∈ taken P.pods opts, ∀ t ∈ taken P.pods opts, s ≠ t → ¬ Confusable P.pods clusterNameFor opts s t := by
  intro built
  have hcounts := buildLogSources_counts P.pods clusterNameFor opts
  have hnodup : (taken P.pods opts).Nodup := (P.eligible_nodup opts).sublist (List.take_sublist _ _)
  have hmem : ∀ {s}, s ∈ taken P.pods opts → s ∈ eligible P.pods opts := List.mem_of_mem_take
  have hlabels : (built.sources.map LogViewSource.label).Nodup ↔ ∀ s ∈ taken P.pods opts,
      ∀ t ∈ taken P.pods opts, labelOf P.pods clusterNameFor opts s.1 s.2 =
        labelOf P.pods clusterNameFor opts t.1 t.2 → s = t := by
    rw [buildLogSources_labels]
    exact List.nodup_map_iff_inj_on hnodup
  rw [and_iff_left hcounts, hlabels]
  constructor
  · intro hinj s hs t ht hne hconfusable
    exact hne (hinj s hs t ht ((labelOf_eq_iff_confusable (hmem hs) (hmem ht) hne).mpr (Or.inl hconfusable)))
  · intro hfree s hs t ht hlabel
    by_contra hne
    rcases (labelOf_eq_iff_confusable (hmem hs) (hmem ht) hne).mp hlabel with h | h
    · exact hfree s hs t ht hne h
    · exact hfree t ht s hs (Ne.symm hne) h

def objectName (t : String) (h : t.toList.all isNameChar = true) : ObjectName := ⟨t.toList, List.all_eq_true.mp h⟩

/-- The pod `api` of the namespace `web` and the container `api` of the pod `web`. -/
def namesakes : PodSet where
  pods :=
    let name : ObjectName := objectName "api" (by decide)
    let web : ObjectName := objectName "web" (by decide)
    let app : LogContainer := ⟨objectName "app" (by decide), .main⟩
    [⟨[], web, name, [app]⟩, ⟨[], objectName "x" (by decide), name, [app]⟩,
      ⟨[], objectName "y" (by decide), web, [⟨name, .main⟩, app]⟩]
  keys_nodup := by decide
  containers_nodup := by decide

theorem namesakes_share_a_label :
    ¬ ((buildLogSources namesakes.pods id {}).sources.map LogViewSource.label).Nodup := by decide

end FerrisScope.LogSources
