import FerrisScope.KubeconfigContexts

/-!
# Where a context id leads

The id of a context is split again at its first separator. The split finds the name of the
context exactly when the file name in front holds no separator and does not end with a colon.
-/

namespace FerrisScope.KubeconfigContexts
open SplitOnce

variable {ι : Type} {disk : Disk ι} {file : SourcesFile}

/-- The file behind a context. -/
inductive Origin where
  | default
  | ssh (sourceId : Text)
  | file (path : Path)
  deriving DecidableEq, Repr

def Origin.path : Origin → Option Path
  | .file path => some path
  | _ => none

/-- A kubeconfig as it is read, with the source id its contexts get. -/
structure Reading (ι : Type) where
  origin : Origin
  sourceId : Text
  group : Text
  kc : Kubeconfig ι
  identities : Text → Option ι

def Reading.contexts (r : Reading ι) : List (ContextInfo ι) :=
  contextsOf r.kc r.sourceId r.group r.origin.path r.identities

/-- The files of a folder that the scan takes. -/
def scan (disk : Disk ι) (folder : Path) : List (FileName × Kubeconfig ι) :=
  ((disk.readDir folder).getD []).filterMap DirEntry.taken

def defaultReadings (disk : Disk ι) (file : SourcesFile) : List (Reading ι) :=
  if file.defaultDisabled then []
  else disk.default.toList.map fun kc =>
    ⟨.default, defaultSourceId, defaultGroup, kc, disk.defaultIdentities⟩

def childReading (src : KubeconfigSource) (e : FileName × Kubeconfig ι) : Reading ι :=
  ⟨.file (src.path.join e.1.text), src.id ++ '/' :: e.1.text, src.effectiveGroup, e.2, e.2.identities⟩

def sourceReadings (disk : Disk ι) (src : KubeconfigSource) : List (Reading ι) :=
  match src.kind with
  | .file => (disk.readFrom src.path).toList.map fun kc =>
      ⟨.file src.path, src.id, src.effectiveGroup, kc, kc.identities⟩
  | .folder => (scan disk src.path).map (childReading src)
  | .ssh =>
      if src.ssh.isSome then (disk.sshCache src.id).toList.map fun kc =>
        ⟨.ssh src.id, src.id, src.effectiveGroup, kc, fun _ => none⟩
      else []

def readings (disk : Disk ι) (file : SourcesFile) : List (Reading ι) :=
  defaultReadings disk file ++ (file.sources.filter fun src => src.enabled).flatMap (sourceReadings disk)

theorem mem_readings {r : Reading ι} : r ∈ readings disk file ↔ r ∈ defaultReadings disk file ∨
    ∃ src ∈ file.sources, src.enabled = true ∧ r ∈ sourceReadings disk src := by
  simp [readings, and_assoc]

theorem loadSource_eq (out : List (ContextInfo ι)) (src : KubeconfigSource) :
    loadSource disk out src =
      out ++ if src.enabled then (sourceReadings disk src).flatMap Reading.contexts else [] := by
  have hfolder : ∀ (entries : List (DirEntry ι)) out,
      entries.foldl (loadEntry src.path src.id src.effectiveGroup) out =
        out ++ ((entries.filterMap DirEntry.taken).map (childReading src)).flatMap Reading.contexts := by
    intro entries
    induction entries with
    | nil => simp
    | cons e entries ih =>
      intro out
      rw [List.foldl_cons, ih, loadEntry, List.filterMap_cons]
      cases e.taken with
      | none => rfl
      | some taken => simp [appendContexts, Reading.contexts, childReading, Origin.path]
  unfold loadSource sourceReadings
  by_cases henabled : src.enabled = true
  · rw [if_pos henabled, if_pos henabled]
    cases hkind : src.kind with
    | file => cases h : disk.readFrom src.path <;>
        simp [loadFileInto, h, appendContexts, Reading.contexts, Origin.path]
    | folder => cases h : disk.readDir src.path <;> simp [loadFolderInto, h, hfolder, scan]
    | ssh => cases hs : src.ssh <;> cases hc : disk.sshCache src.id <;>
        simp [loadSshInto, hs, hc, appendContexts, Reading.contexts, Origin.path]
  · rw [if_neg henabled, if_neg henabled, List.append_nil]

/-- The contexts collected are those of the files read. -/
theorem collect_eq : collect disk file = (readings disk file).flatMap Reading.contexts := by
  have hsources : ∀ (sources : List KubeconfigSource) (out : List (ContextInfo ι)),
      sources.foldl (loadSource disk) out = out ++
        ((sources.filter fun src => src.enabled).flatMap (sourceReadings disk)).flatMap
          Reading.contexts := by
    intro sources
    induction sources with
    | nil => simp
    | cons src sources ih =>
      intro out
      rw [List.foldl_cons, ih, loadSource_eq, List.filter_cons]
      split_ifs <;> simp
  have hdefault : loadDefault disk file = (defaultReadings disk file).flatMap Reading.contexts := by
    unfold loadDefault defaultReadings
    split_ifs
    · rfl
    · cases disk.default <;> simp [appendContexts, Reading.contexts, Origin.path]
  rw [collect, hsources, hdefault, readings, List.flatMap_append]

theorem mem_contexts {r : Reading ι} {c : ContextInfo ι} (h : c ∈ r.contexts) :
    c.id = r.sourceId ++ idSep ++ c.name ∧ c.sourcePath = r.origin.path := by
  obtain ⟨named, -, hc⟩ := List.mem_filterMap.mp h
  obtain ⟨ctx, -, rfl⟩ := Option.map_eq_some_iff.mp hc
  exact ⟨rfl, rfl⟩

/-- A context with the same id, name and file. -/
def Same (c d : ContextInfo ι) : Prop := c.id = d.id ∧ c.name = d.name ∧ c.sourcePath = d.sourcePath

/-- The list has the first context of each id that was collected. -/
theorem mem_listContexts (cs : List (ContextInfo ι)) :
    (∀ d ∈ cs.foldl keepFirst [], ∃ c ∈ cs, Same d c) ∧
      ∀ c ∈ cs, ∃ d ∈ cs.foldl keepFirst [], d.id = c.id := by
  induction cs using List.reverseRecOn with
  | nil => simp
  | append_singleton cs ctx ih =>
    obtain ⟨hfrom, hkept⟩ := ih
    rw [List.foldl_append, List.foldl_cons, List.foldl_nil, keepFirst]
    have hcurrent : ∀ c : ContextInfo ι, Same
        (if c.id = ctx.id ∧ ctx.isCurrent then { c with isCurrent := true } else c) c := by
      intro c
      split_ifs
      · exact ⟨rfl, rfl, rfl⟩
      · exact ⟨rfl, rfl, rfl⟩
    split_ifs with hseen
    · refine ⟨fun d hd => ?_, fun c hc => ?_⟩
      · obtain ⟨c, hc, rfl⟩ := List.mem_map.mp hd
        obtain ⟨c', hc', hid, hname, hpath⟩ := hfrom c hc
        obtain ⟨hid', hname', hpath'⟩ := hcurrent c
        exact ⟨c', List.mem_append_left _ hc', hid'.trans hid, hname'.trans hname, hpath'.trans hpath⟩
      · have hold : ∃ d ∈ cs.foldl keepFirst [], d.id = c.id := by
          rcases List.mem_append.mp hc with hc | hc
          · exact hkept c hc
          · obtain rfl := List.mem_singleton.mp hc
            simpa using hseen
        obtain ⟨d, hd, hid⟩ := hold
        exact ⟨_, List.mem_map_of_mem hd, (hcurrent d).1.trans hid⟩
    · refine ⟨fun d hd => ?_, fun c hc => ?_⟩
      · rcases List.mem_append.mp hd with hd | hd
        · obtain ⟨c, hc, hsame⟩ := hfrom d hd
          exact ⟨c, List.mem_append_left _ hc, hsame⟩
        · obtain rfl := List.mem_singleton.mp hd
          exact ⟨d, by simp, rfl, rfl, rfl⟩
      · rcases List.mem_append.mp hc with hc | hc
        · obtain ⟨d, hd, hid⟩ := hkept c hc
          exact ⟨d, List.mem_append_left _ hd, hid⟩
        · exact ⟨c, List.mem_append_right _ hc, rfl⟩

section Splitting

theorem contextNameFromId_eq_iff {sourceId name : Text} :
    contextNameFromId (sourceId ++ idSep ++ name) = name ↔ Clear idSep sourceId := by
  constructor
  · intro h
    unfold contextNameFromId at h
    split at h
    · next e he => exact clear_of_splitOnce_snd he h
    · have hlength := congrArg List.length h
      simp only [List.length_append, idSep, List.length_cons, List.length_nil] at hlength
      omega
  · intro h
    rw [contextNameFromId, splitOnce_append_iff.mpr h]

theorem sourcePathFor_of_clear {sourceId : Text} (h : Clear idSep sourceId) (name : Text) :
    sourcePathFor (sourceId ++ idSep ++ name) file = pathOfSource sourceId file := by
  rw [sourcePathFor, splitOnce_append_iff.mpr h]

/-- A name that the split of an id keeps whole. -/
def Plain (name : Text) : Prop := ¬ idSep <:+: name ∧ name.getLast? ≠ some ':'

/-- The path of the first source with the id, unless it is an SSH source. -/
def ownPath (id : Text) (file : SourcesFile) : Option Path :=
  (file.sources.find? (·.id = id)).bind fun src => if src.kind = .ssh then none else some src.path

theorem pathOfSource_of_notMem {id : Text} (h : '/' ∉ id) :
    pathOfSource id file = if id = defaultSourceId then none else ownPath id file := by
  rw [pathOfSource, splitOnce_of_notMem h, ownPath]

theorem components_fileName {name : FileName} (h : name.text.head? ≠ some '.') :
    components name.text = [.normal name.text] := by
  have hdot : name.text ≠ ['.'] := fun heq => h (by rw [heq]; rfl)
  have hdots : name.text ≠ ['.', '.'] := fun heq => h (by rw [heq]; rfl)
  have hslash : name.text.head? ≠ some '/' := fun heq => name.noSlash (List.mem_of_mem_head? heq)
  simp [components, List.splitOn_eq_singleton name.noSlash, name.nonempty, hdot, hdots, hslash]

theorem pathOfSource_child {id : Text} (h : '/' ∉ id) {name : FileName}
    (hname : name.text.head? ≠ some '.') :
    pathOfSource (id ++ '/' :: name.text) file =
      (ownPath id file).map fun path => path ++ [.normal name.text] := by
  have hsplit : splitOnce ['/'] (id ++ '/' :: name.text) = some (id, name.text) := by
    have hclear : Clear ['/'] id := clear_of_notMem h
    simpa using splitOnce_append_iff.mpr hclear
  have hdefault : id ++ '/' :: name.text ≠ defaultSourceId := by
    intro heq
    have hmem : '/' ∈ defaultSourceId := heq ▸ by simp
    exact absurd hmem (by decide)
  rw [pathOfSource, if_neg hdefault, hsplit, ownPath]
  dsimp only
  cases file.sources.find? (·.id = id) with
  | none => rfl
  | some src =>
    simp only [Option.bind_some, components_fileName hname, Path.join]
    split_ifs <;> rfl

theorem plain_iff {id : Text} (h : ':' ∉ id) (name : Text) :
    Clear idSep (id ++ '/' :: name) ↔ Plain name := by
  have hfront : ':' ∉ id ++ ['/'] := by simp [h]
  rw [show id ++ '/' :: name = id ++ ['/'] ++ name by simp, idSep, clear_append hfront, clear_pair_iff]
  rfl

end Splitting

section Resolving

/-- The id of a context of the reading leads back to its file, whatever its name. -/
def Leads (file : SourcesFile) (r : Reading ι) : Prop :=
  Clear idSep r.sourceId ∧ pathOfSource r.sourceId file = r.origin.path

theorem resolves_iff {r : Reading ι} {c : ContextInfo ι} (hc : c ∈ r.contexts) :
    (sourcePathFor c.id file = c.sourcePath ∧ contextNameFromId c.id = c.name) ↔ Leads file r := by
  obtain ⟨hid, hpath⟩ := mem_contexts hc
  rw [hid, hpath, contextNameFromId_eq_iff, and_comm]
  exact and_congr_right fun hclear => by rw [sourcePathFor_of_clear hclear]

/-- The first source with the id of `src` stands for the place that `src` is read from. -/
def Owns (file : SourcesFile) (src : KubeconfigSource) : Prop :=
  match src.kind with
  | .file => src.id ≠ defaultSourceId ∧ ownPath src.id file = some src.path
  | .folder => ownPath src.id file = some src.path
  | .ssh => src.id = defaultSourceId ∨ ownPath src.id file = none

theorem head_of_taken {e : DirEntry ι} {name : FileName} {kc : Kubeconfig ι}
    (h : e.taken = some (name, kc)) : name.text.head? ≠ some '.' := by
  intro hdot
  rw [DirEntry.taken] at h
  split_ifs at h with htaken
  obtain ⟨name', hname, hkc⟩ := Option.bind_eq_some_iff.mp h
  obtain ⟨kc', -, heq⟩ := Option.map_eq_some_iff.mp hkc
  obtain ⟨rfl, rfl⟩ := Prod.mk.inj heq
  simp [hname, filenameIsCandidate, hdot] at htaken

/-- The three ways a source is read. -/
theorem sourceReadings_cases {src : KubeconfigSource} {r : Reading ι}
    (hr : r ∈ sourceReadings disk src) :
    (src.kind = .file ∧ r.origin = .file src.path ∧ r.sourceId = src.id) ∨
      (src.kind = .folder ∧ ∃ e ∈ scan disk src.path, r = childReading src e) ∨
      (src.kind = .ssh ∧ r.origin = .ssh src.id ∧ r.sourceId = src.id) := by
  unfold sourceReadings at hr
  split at hr
  · next hkind =>
    obtain ⟨kc, -, rfl⟩ := List.mem_map.mp hr
    exact .inl ⟨hkind, rfl, rfl⟩
  · next hkind =>
    obtain ⟨e, he, rfl⟩ := List.mem_map.mp hr
    exact .inr (.inl ⟨hkind, e, he, rfl⟩)
  · next hkind =>
    split_ifs at hr
    · obtain ⟨kc, -, rfl⟩ := List.mem_map.mp hr
      exact .inr (.inr ⟨hkind, rfl, rfl⟩)
    · simp at hr

theorem leads_iff {src : KubeconfigSource} (hid : '/' ∉ src.id ∧ ':' ∉ src.id) {r : Reading ι}
    (hr : r ∈ sourceReadings disk src) :
    Leads file r ↔ Owns file src ∧ ∀ name, r.sourceId = src.id ++ '/' :: name → Plain name := by
  obtain ⟨hslash, hcolon⟩ := hid
  have hwhole : ∀ name : Text, src.id ≠ src.id ++ '/' :: name := by simp
  rcases sourceReadings_cases hr with ⟨hkind, horigin, hsource⟩ | ⟨hkind, e, he, rfl⟩ | ⟨hkind, horigin, hsource⟩
  · have hclear : Clear idSep src.id := clear_of_notMem hcolon
    simp [Leads, Owns, hkind, horigin, hsource, hclear, pathOfSource_of_notMem hslash, Origin.path]
  · obtain ⟨entry, -, htaken⟩ := List.mem_filterMap.mp he
    have hchild : pathOfSource (src.id ++ '/' :: e.1.text) file =
        (ownPath src.id file).map fun path => path ++ [.normal e.1.text] :=
      pathOfSource_child hslash (head_of_taken htaken)
    have hjoin : src.path.join e.1.text = src.path ++ [.normal e.1.text] := by
      rw [Path.join, components_fileName (head_of_taken htaken)]
    simp only [Leads, childReading, Origin.path, Owns, hkind, plain_iff hcolon, hchild, hjoin,
      Option.map_eq_some_iff]
    constructor
    · rintro ⟨hplain, path, hpath, heq⟩
      rw [List.append_left_inj] at heq
      refine ⟨heq ▸ hpath, fun name hname => ?_⟩
      simp only [List.append_cancel_left_eq, List.cons.injEq, true_and] at hname
      exact hname ▸ hplain
    · rintro ⟨hpath, hplain⟩
      exact ⟨hplain _ rfl, src.path, hpath, rfl⟩
  · have hclear : Clear idSep src.id := clear_of_notMem hcolon
    simp [Leads, Owns, hkind, horigin, hsource, hclear, pathOfSource_of_notMem hslash, Origin.path,
      or_iff_not_imp_left]

theorem leads_default {r : Reading ι} (hr : r ∈ defaultReadings disk file) :
    r.origin = .default ∧ r.sourceId = defaultSourceId ∧ Leads file r := by
  unfold defaultReadings at hr
  split_ifs at hr
  · simp at hr
  · obtain ⟨kc, -, rfl⟩ := List.mem_map.mp hr
    have hcolon : ':' ∉ defaultSourceId := by decide
    refine ⟨rfl, rfl, clear_of_notMem hcolon, ?_⟩
    rw [pathOfSource, if_pos rfl]
    rfl

/-- The files of folders have plain names, each source that contexts are read from stands first
under its id, and an SSH source of the default's id shares no name with it. -/
structure Unambiguous (disk : Disk ι) (file : SourcesFile) : Prop where
  names : ∀ src ∈ file.sources, src.enabled = true → src.kind = .folder →
    ∀ e ∈ scan disk src.path, (childReading src e).contexts ≠ [] → Plain e.1.text
  owners : ∀ src ∈ file.sources, src.enabled = true →
    ∀ r ∈ sourceReadings disk src, r.contexts ≠ [] → Owns file src
  default : ∀ src ∈ file.sources, src.enabled = true → src.kind = .ssh → src.id = defaultSourceId →
    ∀ r ∈ sourceReadings disk src, ∀ d ∈ defaultReadings disk file,
      ∀ c ∈ r.contexts, ∀ c' ∈ d.contexts, c.name ≠ c'.name

/-- Every listed context is found again by its id, and no two contexts of different files or names
share one. -/
structure ContextsResolve (disk : Disk ι) (file : SourcesFile) : Prop where
  resolves : ∀ c ∈ listContexts disk file,
    sourcePathFor c.id file = c.sourcePath ∧ contextNameFromId c.id = c.name
  distinct : ∀ r ∈ readings disk file, ∀ r' ∈ readings disk file,
    ∀ c ∈ r.contexts, ∀ c' ∈ r'.contexts, c.id = c'.id → r.origin = r'.origin ∧ c.name = c'.name

theorem mem_listContexts_of_reading (disk : Disk ι) (file : SourcesFile) :
    (∀ d ∈ listContexts disk file, ∃ r ∈ readings disk file, ∃ c ∈ r.contexts, Same d c) ∧
      ∀ r ∈ readings disk file, ∀ c ∈ r.contexts, ∃ d ∈ listContexts disk file, d.id = c.id := by
  obtain ⟨hfrom, hkept⟩ := mem_listContexts (collect disk file)
  rw [collect_eq] at hfrom hkept
  refine ⟨fun d hd => ?_, fun r hr c hc => ?_⟩
  · rw [listContexts, collect_eq] at hd
    obtain ⟨c, hc, hsame⟩ := hfrom d hd
    obtain ⟨r, hr, hcr⟩ := List.mem_flatMap.mp hc
    exact ⟨r, hr, c, hcr, hsame⟩
  · rw [listContexts, collect_eq]
    exact hkept c (List.mem_flatMap.mpr ⟨r, hr, hc⟩)

theorem ContextsResolve.leads (h : ContextsResolve disk file) {r : Reading ι}
    (hr : r ∈ readings disk file) (hne : r.contexts ≠ []) : Leads file r := by
  obtain ⟨c, hc⟩ := List.exists_mem_of_ne_nil _ hne
  obtain ⟨hfrom, hkept⟩ := mem_listContexts_of_reading disk file
  obtain ⟨d, hd, hid⟩ := hkept r hr c hc
  obtain ⟨r', hr', c', hc', hid', hname', hpath'⟩ := hfrom d hd
  obtain ⟨horigin, hname⟩ := h.distinct r hr r' hr' c hc c' hc' (hid.symm.trans hid')
  obtain ⟨hpath, hcontext⟩ := h.resolves d hd
  refine (resolves_iff hc).mp ⟨?_, ?_⟩
  · rw [← hid, hpath, hpath', (mem_contexts hc').2, (mem_contexts hc).2, horigin]
  · rw [← hid, hcontext, hname', hname]

theorem Unambiguous.leads (hids : ∀ src ∈ file.sources, '/' ∉ src.id ∧ ':' ∉ src.id)
    (h : Unambiguous disk file) {r : Reading ι} (hr : r ∈ readings disk file) (hne : r.contexts ≠ []) :
    Leads file r := by
  rcases mem_readings.mp hr with hr | ⟨src, hsrc, henabled, hr⟩
  · exact (leads_default hr).2.2
  · refine (leads_iff (hids src hsrc) hr).mpr ⟨h.owners src hsrc henabled r hr hne, fun name hname => ?_⟩
    have hslash : ∀ name : Text, src.id ≠ src.id ++ '/' :: name := by simp
    rcases sourceReadings_cases hr with ⟨-, -, hsource⟩ | ⟨hkind, e, he, rfl⟩ | ⟨-, -, hsource⟩
    · exact absurd (hsource.symm.trans hname) (hslash name)
    · have heq : e.1.text = name := by simpa [childReading] using hname
      exact heq ▸ h.names src hsrc henabled hkind e he hne
    · exact absurd (hsource.symm.trans hname) (hslash name)

/-- A reading without a path is that of the default or of an SSH source. -/
theorem origin_of_path_none {r : Reading ι} (hr : r ∈ readings disk file) (hnone : r.origin.path = none) :
    (r ∈ defaultReadings disk file ∧ r.origin = .default) ∨
      ∃ src ∈ file.sources, src.enabled = true ∧ src.kind = .ssh ∧ r ∈ sourceReadings disk src ∧
        r.origin = .ssh r.sourceId ∧ r.sourceId = src.id := by
  rcases mem_readings.mp hr with hr | ⟨src, hsrc, henabled, hr⟩
  · exact .inl ⟨hr, (leads_default hr).1⟩
  · rcases sourceReadings_cases hr with ⟨-, horigin, -⟩ | ⟨-, e, -, rfl⟩ | ⟨hkind, horigin, hsource⟩
    · simp [horigin, Origin.path] at hnone
    · simp [childReading, Origin.path] at hnone
    · exact .inr ⟨src, hsrc, henabled, hkind, hr, by rw [horigin, hsource], hsource⟩

theorem Unambiguous.origin_eq (h : Unambiguous disk file) {r r' : Reading ι}
    (hr : r ∈ readings disk file) (hr' : r' ∈ readings disk file) {c c' : ContextInfo ι}
    (hc : c ∈ r.contexts) (hc' : c' ∈ r'.contexts) (hname : c.name = c'.name)
    (hsource : r.sourceId = r'.sourceId) (hpath : r.origin.path = r'.origin.path) :
    r.origin = r'.origin := by
  cases hp : r.origin.path with
  | some path =>
    have hfile : ∀ o : Origin, o.path = some path → o = .file path := by
      intro o ho
      cases o <;> simp_all [Origin.path]
    exact (hfile r.origin hp).trans (hfile r'.origin (hpath ▸ hp)).symm
  | none =>
    rcases origin_of_path_none hr hp with ⟨hd, horigin⟩ | ⟨src, hsrc, henabled, hkind, hs, horigin, hid⟩ <;>
      rcases origin_of_path_none hr' (hpath ▸ hp) with
        ⟨hd', horigin'⟩ | ⟨src', hsrc', henabled', hkind', hs', horigin', hid'⟩
    · rw [horigin, horigin']
    · have heq : src'.id = defaultSourceId := by rw [← hid', ← hsource, (leads_default hd).2.1]
      exact absurd hname.symm (h.default src' hsrc' henabled' hkind' heq r' hs' r hd c' hc' c hc)
    · have heq : src.id = defaultSourceId := by rw [← hid, hsource, (leads_default hd').2.1]
      exact absurd hname (h.default src hsrc henabled hkind heq r hs r' hd' c hc c' hc')
    · rw [horigin, horigin', hsource]

/-- Context ids resolve to where they came from exactly when the sources are unambiguous. -/
theorem contexts_resolve_iff (hids : ∀ src ∈ file.sources, '/' ∉ src.id ∧ ':' ∉ src.id) :
    ContextsResolve disk file ↔ Unambiguous disk file := by
  constructor
  · intro h
    have hleads : ∀ src ∈ file.sources, src.enabled = true → ∀ r ∈ sourceReadings disk src,
        r.contexts ≠ [] → Owns file src ∧ ∀ name, r.sourceId = src.id ++ '/' :: name → Plain name := by
      intro src hsrc henabled r hr hne
      have hmem : r ∈ readings disk file := mem_readings.mpr (.inr ⟨src, hsrc, henabled, hr⟩)
      exact (leads_iff (hids src hsrc) hr).mp (h.leads hmem hne)
    refine ⟨fun src hsrc henabled hkind e he hne => ?_, fun src hsrc henabled r hr hne => ?_,
      fun src hsrc henabled hkind hid r hr d hd c hc c' hc' hname => ?_⟩
    · have hmem : childReading src e ∈ sourceReadings disk src := by
        simp only [sourceReadings, hkind]
        exact List.mem_map_of_mem he
      exact (hleads src hsrc henabled _ hmem hne).2 _ rfl
    · exact (hleads src hsrc henabled r hr hne).1
    · have hr' : r ∈ readings disk file := mem_readings.mpr (.inr ⟨src, hsrc, henabled, hr⟩)
      have hd' : d ∈ readings disk file := mem_readings.mpr (.inl hd)
      obtain ⟨horigin, hdefault, -⟩ := leads_default hd
      obtain ⟨hssh, hsource⟩ : r.origin = .ssh src.id ∧ r.sourceId = src.id := by
        rcases sourceReadings_cases hr with ⟨hk, -⟩ | ⟨hk, -⟩ | ⟨-, hrest⟩
        · simp [hkind] at hk
        · simp [hkind] at hk
        · exact hrest
      have hsame : c.id = c'.id := by
        rw [(mem_contexts hc).1, (mem_contexts hc').1, hname, hsource, hid, hdefault]
      have heq := (h.distinct r hr' d hd' c hc c' hc' hsame).1
      rw [hssh, horigin] at heq
      cases heq
  · intro h
    have hresolves : ∀ r ∈ readings disk file, ∀ c ∈ r.contexts,
        sourcePathFor c.id file = c.sourcePath ∧ contextNameFromId c.id = c.name :=
      fun r hr c hc => (resolves_iff hc).mpr (h.leads hids hr (List.ne_nil_of_mem hc))
    refine ⟨fun d hd => ?_, fun r hr r' hr' c hc c' hc' hid => ?_⟩
    · obtain ⟨r, hr, c, hc, hid, hname, hpath⟩ := (mem_listContexts_of_reading disk file).1 d hd
      rw [hid, hname, hpath]
      exact hresolves r hr c hc
    · obtain ⟨hpath, hname⟩ := hresolves r hr c hc
      obtain ⟨hpath', hname'⟩ := hresolves r' hr' c' hc'
      have hnames : c.name = c'.name := by rw [← hname, hid, hname']
      obtain ⟨hidc, hpathc⟩ := mem_contexts hc
      obtain ⟨hidc', hpathc'⟩ := mem_contexts hc'
      have hsource : r.sourceId = r'.sourceId := by
        rw [hidc, hidc', hnames, List.append_left_inj, List.append_left_inj] at hid
        exact hid
      have hpaths : r.origin.path = r'.origin.path := by
        rw [← hpathc, ← hpathc', ← hpath, hid, hpath']
      exact ⟨h.origin_eq hr hr' hc hc' hnames hsource hpaths, hnames⟩

def folderSource : KubeconfigSource :=
  { id := ['u']
    path := [.rootDir, .normal ['k']]
    kind := .folder
    groupOverride := none
    enabled := true
    ssh := none }

def folderFile : SourcesFile := ⟨false, [folderSource]⟩

/-- One folder, with one kubeconfig of the name, that has the context `c`. -/
def folderDisk (name : FileName) : Disk Unit :=
  { default := none
    defaultIdentities := fun _ => none
    readFrom := fun _ => none
    readDir := fun _ => some [⟨some name, true, 100,
      some ⟨none, [⟨['c'], some ⟨['k'], none, none⟩⟩], fun _ => none⟩⟩]
    sshCache := fun _ => none }

def colonName : FileName := ⟨['a', ':', ':', 'b'], by decide, by decide⟩

def plainName : FileName := ⟨['a', ':', 'b'], by decide, by decide⟩

theorem colon_name_split : ¬ ContextsResolve (folderDisk colonName) folderFile := by
  intro h
  have hlist : (listContexts (folderDisk colonName) folderFile).map (fun c => (c.id, c.name)) =
      [("u/a::b::c".toList, ['c'])] := by decide
  obtain ⟨c, hc, heq⟩ := List.mem_map.mp (hlist ▸ List.mem_singleton_self _)
  obtain ⟨hid, hname⟩ := Prod.mk.inj heq
  have hsplit : contextNameFromId c.id = c.name := (h.resolves c hc).2
  rw [hid, hname] at hsplit
  exact absurd hsplit (by decide)

theorem contexts_resolve_plainName : ContextsResolve (folderDisk plainName) folderFile := by
  refine (contexts_resolve_iff (by decide)).mpr ⟨fun src hsrc _ _ e he _ => ?_, fun src hsrc _ r _ _ => ?_,
    fun src hsrc _ hkind => ?_⟩ <;> obtain rfl := List.mem_singleton.mp hsrc
  · obtain rfl := List.mem_singleton.mp he
    exact ⟨by decide, by decide⟩
  · have hown : ownPath folderSource.id folderFile = some folderSource.path := by decide
    exact hown
  · cases hkind

end Resolving

end FerrisScope.KubeconfigContexts
