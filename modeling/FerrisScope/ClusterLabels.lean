import FerrisScope.ClusterShortNames
import FerrisScope.EntryLists
import FerrisScope.SplitOnce

/-!
# Labels of clusters

A context name that a known tool has written is cut down to its cluster, and the rest of it becomes the qualifiers.
Contexts that would be shown alike keep their full names. Nothing checks a full name against what the others are cut
down to.
-/

namespace FerrisScope.ClusterLabels
open HostsFile SplitOnce EntryLists

inductive ClusterProvider | gke | eks | eksctl | openshift | aks | digitalocean | unknown
  deriving DecidableEq

def ClusterProvider.text : ClusterProvider → Text
  | .gke => "gke".toList
  | .eks => "eks".toList
  | .eksctl => "eksctl".toList
  | .openshift => "openshift".toList
  | .aks => "aks".toList
  | .digitalocean => "digitalocean".toList
  | .unknown => "unknown".toList

structure ParsedContext where
  provider : ClusterProvider
  short : Text
  qualifiers : List Text
  deriving DecidableEq

structure LabelSource where
  id : String
  name : Text
  user : Option Text
  deriving DecidableEq

structure ClusterLabel where
  full : Text
  short : Text
  qualifier : Option Text
  groupKey : Option Text
  groupLabel : Option Text

/-! ## Schemes -/

/-- What follows a beginning. -/
def afterFront (front t : Text) : Option Text := if front <+: t then some (t.drop front.length) else none

/-- What comes before an ending. -/
def beforeBack (back t : Text) : Option Text := if back <:+ t then some (t.take (t.length - back.length)) else none

/-- The parts before and after the last character of the kind. -/
def splitLast (sep : Char) (t : Text) : Option (Text × Text) :=
  (splitOnce [sep] t.reverse).map fun e => (e.2.reverse, e.1.reverse)

/-- A character of `\w` in a regular expression. -/
def isWord (c : Char) : Bool := c.isAlphanum || c == '_'

/-- The characters that `.` does not stand for in a regular expression. -/
def isLineTerminator (c : Char) : Bool := c == '\n' || c == '\r' || c.toNat == 0x2028 || c.toNat == 0x2029

/-- A text for `(.+)$`. -/
def isRest (t : Text) : Bool := !t.isEmpty && t.all fun c => !isLineTerminator c

def unknown (name : Text) : ParsedContext := ⟨.unknown, name, []⟩

def parseEksArn (name : Text) : Option ParsedContext := do
  let aws ← afterFront "arn:aws".toList name
  let coordinates ← afterFront ":eks:".toList (aws.dropWhile fun c => isWord c || c == '-')
  let region ← splitOnce [':'] coordinates
  let account ← splitOnce [':'] region.2
  let cluster ← afterFront "cluster/".toList account.2
  if !region.1.isEmpty && !account.1.isEmpty && isRest cluster then some ⟨.eks, cluster, [account.1, region.1]⟩ else none

def eksctlBack : Text := ".eksctl.io".toList

/-- Without an identity the name has only the cluster and the region. -/
def parseEksctl (name : Text) : Option ParsedContext := do
  let body ← beforeBack eksctlBack name
  let parts := (splitOnce ['@'] body).getD ([], body)
  let cluster ← splitLast '.' parts.2
  if cluster.1.isEmpty || cluster.2.isEmpty then none
  else some ⟨.eksctl, cluster.1, if parts.1.isEmpty then [cluster.2] else [cluster.2, parts.1]⟩

def parseGke (name : Text) : Option ParsedContext :=
  match name.splitOn '_' with
  | [head, project, location, cluster] =>
    if head = "gke".toList && !project.isEmpty && !location.isEmpty && !cluster.isEmpty then
      some ⟨.gke, cluster, [project, location]⟩
    else none
  | _ => none

/-- The host of a server that is written with its port. -/
def serverHost (server : Text) : Option Text := do
  let parts ← splitOnce [':'] server
  if !parts.1.isEmpty && parts.1.all (fun c => c.isAlphanum || c == '.' || c == '-') && !parts.2.isEmpty &&
    parts.2.all Char.isDigit then some parts.1 else none

def parseOpenShift (name : Text) : Option ParsedContext :=
  match name.splitOn '/' with
  | [namespace_, server, user] =>
    (serverHost server).bind fun host =>
      let short := (afterFront "api-".toList host).getD host
      if short.isEmpty then none else some ⟨.openshift, short, [namespace_, user].filter fun q => !q.isEmpty⟩
  | _ => none

def aksAdminBack : Text := "-admin".toList

def parseAks (name : Text) (user : Option Text) : Option ParsedContext := do
  let user ← user
  let rest ← (afterFront "clusterAdmin_".toList user).or (afterFront "clusterUser_".toList user)
  let cluster := (beforeBack aksAdminBack name).getD name
  let group ← beforeBack ('_' :: cluster) rest
  if !isRest rest || cluster.isEmpty || group.isEmpty then none else some ⟨.aks, name, [group]⟩

def parseDigitalOcean (name : Text) : Option ParsedContext := do
  let coordinate ← afterFront "do-".toList name
  let letters := coordinate.takeWhile fun c => c.isLower
  let region := coordinate.drop letters.length
  let digits := region.takeWhile Char.isDigit
  let cluster ← afterFront ['-'] (region.drop digits.length)
  if 2 ≤ letters.length && letters.length ≤ 5 && !digits.isEmpty && isRest cluster then
    some ⟨.digitalocean, name, [letters ++ digits]⟩
  else none

def parseContextName (name : Text) (user : Option Text) : ParsedContext :=
  if name = [] then unknown name
  else
    (((((((parseEksArn name).or (parseEksctl name)).or (parseGke name)).or (parseOpenShift name)).or
      (parseAks name user)).or (parseDigitalOcean name))).getD (unknown name)

/-! ## Labels -/

def joinQualifiers (qualifiers : List Text) : Option Text :=
  if qualifiers = [] then none else some (" · ".toList.intercalate qualifiers)

def parsed (c : LabelSource) : ParsedContext := parseContextName c.name c.user

def renderKey (p : ParsedContext) : String := String.ofList (p.short ++ '|' :: ['|'].intercalate p.qualifiers)

/-- How many contexts would be shown alike. -/
def seen (contexts : List LabelSource) : List (String × ℕ) := tallyKeys (contexts.map fun c => renderKey (parsed c))

def labelOf (contexts : List LabelSource) (enabled : Bool) (c : LabelSource) : ClusterLabel :=
  let p := parsed c
  let coordinate := joinQualifiers p.qualifiers
  let groupKey := (coordinate.filter fun t => !t.isEmpty).map fun _ => p.provider.text ++ '|' :: ['|'].intercalate p.qualifiers
  let shortenable := enabled && ((seen contexts).lookup (renderKey p)).getD 0 == 1
  { full := c.name
    short := if shortenable then p.short else c.name
    qualifier := if shortenable then coordinate else none
    groupKey
    groupLabel := coordinate }

/-- `computeLabels` -/
def clusterLabels (contexts : List LabelSource) (enabled : Bool) : List (String × ClusterLabel) :=
  fromEntries (contexts.map fun c => (c.id, labelOf contexts enabled c))

/-- What is shown for a context: its name and what stands beside it. -/
def rendered (contexts : List LabelSource) (enabled : Bool) (c : LabelSource) : Option (Text × Option Text) :=
  ((clusterLabels contexts enabled).lookup c.id).map fun l => (l.short, l.qualifier)

/-- The group of a context. -/
def groupOf (contexts : List LabelSource) (enabled : Bool) (c : LabelSource) : Option (Option Text × Option Text) :=
  ((clusterLabels contexts enabled).lookup c.id).map fun l => (l.groupKey, l.groupLabel)

/-! ## What the schemes give -/

/-- A name that is recognised has qualifiers, except that of a server without a project and a user. -/
def Recognised (p : ParsedContext) : Prop := p.provider ≠ .unknown ∧ (p.qualifiers = [] → p.provider = .openshift)

variable {name : Text} {user : Option Text} {p : ParsedContext}

theorem recognised_eksArn (h : parseEksArn name = some p) : Recognised p := by
  simp only [parseEksArn, Option.bind_eq_bind, Option.bind_eq_some_iff] at h
  obtain ⟨aws, -, coordinates, -, region, -, account, -, cluster, -, h⟩ := h
  split at h
  · cases h
    exact ⟨by simp, by simp⟩
  · cases h

theorem recognised_eksctl (h : parseEksctl name = some p) : Recognised p := by
  simp only [parseEksctl, Option.bind_eq_bind, Option.bind_eq_some_iff] at h
  obtain ⟨body, -, cluster, -, h⟩ := h
  split at h
  · cases h
  · cases h
    refine ⟨by simp, fun hnone => ?_⟩
    dsimp only at hnone
    split at hnone
    · cases hnone
    · cases hnone

theorem recognised_gke (h : parseGke name = some p) : Recognised p := by
  unfold parseGke at h
  split at h
  · split at h
    · cases h
      exact ⟨by simp, by simp⟩
    · cases h
  · cases h

theorem recognised_openShift (h : parseOpenShift name = some p) : Recognised p := by
  unfold parseOpenShift at h
  split at h
  · obtain ⟨host, -, h⟩ := Option.bind_eq_some_iff.mp h
    dsimp only at h
    split at h
    · cases h
    · cases h
      exact ⟨by simp, fun _ => rfl⟩
  · cases h

theorem recognised_aks (h : parseAks name user = some p) : Recognised p := by
  simp only [parseAks, Option.bind_eq_bind, Option.bind_eq_some_iff] at h
  obtain ⟨u, -, rest, -, group, -, h⟩ := h
  split at h
  · cases h
  · cases h
    exact ⟨by simp, by simp⟩

theorem recognised_digitalOcean (h : parseDigitalOcean name = some p) : Recognised p := by
  simp only [parseDigitalOcean, Option.bind_eq_bind, Option.bind_eq_some_iff] at h
  obtain ⟨coordinate, -, cluster, -, h⟩ := h
  split at h
  · cases h
    exact ⟨by simp, by simp⟩
  · cases h

/-- A name of an unknown shape is left as it is. -/
theorem parseContextName_cases (name : Text) (user : Option Text) :
    parseContextName name user = unknown name ∨ Recognised (parseContextName name user) := by
  unfold parseContextName
  split
  · exact .inl rfl
  · cases h : (((((parseEksArn name).or (parseEksctl name)).or (parseGke name)).or (parseOpenShift name)).or
        (parseAks name user)).or (parseDigitalOcean name) with
    | none => exact .inl rfl
    | some p =>
      rw [Option.getD_some]
      simp only [Option.or_eq_some_iff] at h
      refine .inr ?_
      rcases h with (((((h | h) | h) | h) | h) | h)
      · exact recognised_eksArn h
      · exact recognised_eksctl h.2
      · exact recognised_gke h.2
      · exact recognised_openShift h.2
      · exact recognised_aks h.2
      · exact recognised_digitalOcean h.2

theorem parsed_of_unknown {c : LabelSource} (h : (parsed c).provider = .unknown) : parsed c = unknown c.name := by
  rcases parseContextName_cases c.name c.user with hunknown | hrecognised
  · exact hunknown
  · exact absurd h hrecognised.1

/-! ## What is shown -/

variable {contexts : List LabelSource}

/-- Another context has the same key. -/
def Collapsed (contexts : List LabelSource) (c : LabelSource) : Prop :=
  ∃ d ∈ contexts, d.name ≠ c.name ∧ renderKey (parsed d) = renderKey (parsed c)

/-- A full name stands alone, and a short name has the qualifiers beside it. -/
def Shows (contexts : List LabelSource) (c : LabelSource) (shown : Text × Option Text) : Prop :=
  (Collapsed contexts c ∧ shown = (c.name, none)) ∨
    ¬ Collapsed contexts c ∧ shown = ((parsed c).short, joinQualifiers (parsed c).qualifiers)

theorem seen_eq_one_iff (hnames : (contexts.map LabelSource.name).Nodup) {c : LabelSource} (hc : c ∈ contexts) :
    ((seen contexts).lookup (renderKey (parsed c))).getD 0 = 1 ↔ ¬ Collapsed contexts c := by
  have hcontexts : contexts.Nodup := List.Nodup.of_map _ hnames
  have hcount := ClusterShortNames.count_map_eq_one_iff (f := fun c => renderKey (parsed c)) hcontexts hc
  rw [seen, getD_lookup_tallyKeys, hcount]
  constructor
  · rintro halone ⟨d, hd, hname, hkey⟩
    exact hname (congrArg LabelSource.name (halone d hd hkey))
  · intro hfree d hd hkey
    by_contra hne
    have hname : d.name ≠ c.name := fun heq => hne (List.inj_on_of_nodup_map hnames hd hc heq)
    exact hfree ⟨d, hd, hname, hkey⟩

theorem lookup_clusterLabels (hids : (contexts.map LabelSource.id).Nodup) (enabled : Bool) {c : LabelSource}
    (hc : c ∈ contexts) : (clusterLabels contexts enabled).lookup c.id = some (labelOf contexts enabled c) := by
  apply lookup_fromEntries
  · exact List.mem_map.mpr ⟨c, hc, rfl⟩
  · intro l hl
    obtain ⟨d, hd, heq⟩ := List.mem_map.mp hl
    obtain ⟨hid, rfl⟩ := Prod.mk.inj heq
    rw [List.inj_on_of_nodup_map hids hd hc hid]

theorem shows_rendered (hnames : (contexts.map LabelSource.name).Nodup) (hids : (contexts.map LabelSource.id).Nodup)
    {c : LabelSource} (hc : c ∈ contexts) : ∃ shown, rendered contexts true c = some shown ∧ Shows contexts c shown := by
  refine ⟨_, by rw [rendered, lookup_clusterLabels hids true hc, Option.map_some], ?_⟩
  by_cases hcollapsed : Collapsed contexts c
  · have hseen : ((seen contexts).lookup (renderKey (parsed c))).getD 0 ≠ 1 := fun hone =>
      (seen_eq_one_iff hnames hc).mp hone hcollapsed
    exact .inl ⟨hcollapsed, by simp [labelOf, hseen]⟩
  · have hseen := (seen_eq_one_iff hnames hc).mpr hcollapsed
    exact .inr ⟨hcollapsed, by simp [labelOf, hseen]⟩

theorem joinQualifiers_eq_none_iff {qualifiers : List Text} : joinQualifiers qualifiers = none ↔ qualifiers = [] := by
  simp [joinQualifiers]

/-- The contexts have ids of their own, qualifiers that read alike are the same, and no context that keeps its full
name has the name of a host which another one is cut down to. -/
structure Identifiable (contexts : List LabelSource) : Prop where
  ids : (contexts.map LabelSource.id).Nodup
  coordinates : ∀ c ∈ contexts, ∀ d ∈ contexts, ¬ Collapsed contexts c → ¬ Collapsed contexts d →
    (parsed c).short = (parsed d).short → joinQualifiers (parsed c).qualifiers = joinQualifiers (parsed d).qualifiers →
    (parsed c).qualifiers = (parsed d).qualifiers
  fullNames : ∀ c ∈ contexts, ∀ d ∈ contexts, Collapsed contexts c → ¬ Collapsed contexts d →
    ¬ ((parsed d).provider = .openshift ∧ (parsed d).qualifiers = [] ∧ (parsed d).short = c.name)

theorem eq_of_shows (h : Identifiable contexts) {c d : LabelSource} (hc : c ∈ contexts) (hd : d ∈ contexts)
    {shown : Text × Option Text} (hshows : Shows contexts c shown) (hshows' : Shows contexts d shown) : c.name = d.name := by
  -- A full name and a short one can only meet where the short one has no qualifiers.
  have hmixed : ∀ {a b : LabelSource}, a ∈ contexts → b ∈ contexts → Collapsed contexts a → ¬ Collapsed contexts b →
      (a.name, none) = ((parsed b).short, joinQualifiers (parsed b).qualifiers) → a.name = b.name := by
    intro a b ha hb hcollapsed hfree heq
    obtain ⟨hshort, hnone⟩ := Prod.mk.inj heq
    have hqualifiers := joinQualifiers_eq_none_iff.mp hnone.symm
    rcases parseContextName_cases b.name b.user with hunknown | hrecognised
    · rw [hshort, parsed, hunknown]
      rfl
    · exact absurd ⟨hrecognised.2 hqualifiers, hqualifiers, hshort.symm⟩ (h.fullNames a ha b hb hcollapsed hfree)
  rcases hshows with ⟨hcollapsed, rfl⟩ | ⟨hfree, rfl⟩
  · rcases hshows' with ⟨hcollapsed', heq⟩ | ⟨hfree', heq⟩
    · exact (Prod.mk.inj heq).1
    · exact hmixed hc hd hcollapsed hfree' heq
  · rcases hshows' with ⟨hcollapsed', heq⟩ | ⟨hfree', heq⟩
    · exact (hmixed hd hc hcollapsed' hfree heq.symm).symm
    · obtain ⟨hshort, hjoined⟩ := Prod.mk.inj heq
      have hkey : renderKey (parsed c) = renderKey (parsed d) := by
        rw [renderKey, renderKey, hshort, h.coordinates c hc d hd hfree hfree' hshort hjoined]
      by_contra hne
      exact hfree ⟨d, hd, Ne.symm hne, hkey.symm⟩

theorem identifiable_of_nodup (hnames : (contexts.map LabelSource.name).Nodup)
    (h : (contexts.map (rendered contexts true)).Nodup) : Identifiable contexts := by
  have hids : (contexts.map LabelSource.id).Nodup := by
    apply List.Nodup.of_map fun i => ((clusterLabels contexts true).lookup i).map fun l => (l.short, l.qualifier)
    rw [List.map_map]
    exact h
  -- Two contexts that show the same are one.
  have hsame : ∀ {c d : LabelSource} {shown : Text × Option Text}, c ∈ contexts → d ∈ contexts → Shows contexts c shown →
      Shows contexts d shown → c = d := by
    intro c d shown hc hd hshows hshows'
    have hunique : ∀ {a : LabelSource}, a ∈ contexts → Shows contexts a shown → rendered contexts true a = some shown := by
      intro a ha hshown
      obtain ⟨shown', heq, hshown'⟩ := shows_rendered hnames hids ha
      rw [heq]
      rcases hshown with ⟨hcollapsed, rfl⟩ | ⟨hfree, rfl⟩
      · rcases hshown' with ⟨-, rfl⟩ | ⟨hfree, -⟩
        · rfl
        · exact absurd hcollapsed hfree
      · rcases hshown' with ⟨hcollapsed, -⟩ | ⟨-, rfl⟩
        · exact absurd hcollapsed hfree
        · rfl
    exact List.inj_on_of_nodup_map h hc hd ((hunique hc hshows).trans (hunique hd hshows').symm)
  constructor
  · exact hids
  · intro c hc d hd hfree hfree' hshort hjoined
    have heq : c = d := hsame hc hd (.inr ⟨hfree, rfl⟩) (.inr ⟨hfree', by rw [hshort, hjoined]⟩)
    rw [heq]
  · rintro c hc d hd hcollapsed hfree ⟨-, hqualifiers, hshort⟩
    have heq : c = d := by
      apply hsame hc hd (.inl ⟨hcollapsed, rfl⟩)
      exact .inr ⟨hfree, by rw [hshort, joinQualifiers_eq_none_iff.mpr hqualifiers]⟩
    exact hfree (heq ▸ hcollapsed)

/-- When the labels tell the contexts apart. A name of an unknown shape is always shown as it is, and the groups do
not depend on the setting. -/
theorem labels_identify_iff (hnames : (contexts.map LabelSource.name).Nodup) :
    ((contexts.map (rendered contexts true)).Nodup ∧
      (∀ c ∈ contexts, (parsed c).provider = .unknown → rendered contexts true c = some (c.name, none)) ∧
      ∀ c ∈ contexts, groupOf contexts true c = groupOf contexts false c) ↔ Identifiable contexts := by
  constructor
  · intro h
    exact identifiable_of_nodup hnames h.1
  · intro h
    refine ⟨?_, ?_, ?_⟩
    · apply (List.nodup_map_iff_inj_on (List.Nodup.of_map _ hnames)).mpr
      intro c hc d hd heq
      obtain ⟨shown, hrendered, hshows⟩ := shows_rendered hnames h.ids hc
      obtain ⟨shown', hrendered', hshows'⟩ := shows_rendered hnames h.ids hd
      have hshown : shown = shown' := Option.some.inj (hrendered.symm.trans (heq.trans hrendered'))
      subst hshown
      exact List.inj_on_of_nodup_map hnames hc hd (eq_of_shows h hc hd hshows hshows')
    · intro c hc hunknown
      obtain ⟨shown, hrendered, hshows⟩ := shows_rendered hnames h.ids hc
      rw [hrendered]
      rcases hshows with ⟨-, rfl⟩ | ⟨-, rfl⟩
      · rfl
      · rw [parsed_of_unknown hunknown]
        rfl
    · intro c hc
      rw [groupOf, groupOf, lookup_clusterLabels h.ids true hc, lookup_clusterLabels h.ids false hc]
      rfl

/-- Two clusters of two tools, and one that is logged in to without a project and a user. -/
def threeContexts : List LabelSource :=
  [⟨"a", "prod".toList, some "clusterUser_eu-west-1_prod".toList⟩, ⟨"b", "prod.eu-west-1.eksctl.io".toList, none⟩,
    ⟨"c", "/api-prod:6443/".toList, none⟩]

theorem three_contexts_alike : (threeContexts.map LabelSource.name).Nodup ∧
    ¬ (threeContexts.map (rendered threeContexts true)).Nodup := by decide +kernel

def twoContexts : List LabelSource :=
  [⟨"a", "prod".toList, some "clusterUser_eu-west-1_prod".toList⟩, ⟨"b", "gke_shop_eu-west-1_prod".toList, none⟩]

theorem labels_identify_two : Identifiable twoContexts := by
  apply (labels_identify_iff (by decide +kernel)).mp
  refine ⟨by decide +kernel, fun c hc => ?_, fun c hc => ?_⟩
  · simp only [twoContexts, List.mem_cons, List.not_mem_nil, or_false] at hc
    rcases hc with rfl | rfl <;> decide +kernel
  · simp only [twoContexts, List.mem_cons, List.not_mem_nil, or_false] at hc
    rcases hc with rfl | rfl <;> decide +kernel

end FerrisScope.ClusterLabels
