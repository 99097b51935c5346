import FerrisScope.HelmChartsRuns
import FerrisScope.SplitOnce

/-!
# The uids of the chart catalogue

The catalogue shows the charts in use in the cluster and those of the configured repositories. A row is
found by a uid that joins its source, name and version with colons. None of the three is free of colons,
and a repository may be called like the source of the charts in use, so two rows may share a uid.
-/

namespace FerrisScope.ChartUids
open KeyedWrites TableViews LabelledRuns SplitOnce

/-- An entry of `helm search repo`, its repository split off. -/
structure HelmRepoChart where
  repo : String
  name : String
  version : String
  appVersion : Option String
  description : Option String
  deriving DecidableEq

def textField (entry : Json ℕ) (key : String) : Option String := (entry.get? key).bind Json.asStr

/-- An entry without a repository, a name or a version is left out. -/
def parseEntry (entry : Json ℕ) : Option HelmRepoChart :=
  ((textField entry "name").bind fun full => splitOnce ['/'] full.toList).bind fun parts =>
    if parts.1 = [] ∨ parts.2 = [] then none
    else
      (textField entry "version").map fun version =>
        ⟨String.ofList parts.1, String.ofList parts.2, version, textField entry "app_version",
          textField entry "description"⟩

/-- The list in the output, when it is one. -/
def parseSearchOutput (raw : Option (List (Json ℕ))) : List HelmRepoChart := (raw.getD []).filterMap parseEntry

/-- The row of a repository chart, its fields in key order. -/
def projectRepoRow (rc : HelmRepoChart) : Json ℕ :=
  .obj [("app_version", optStr rc.appVersion), ("description", optStr rc.description), ("name", .str rc.name),
    ("repo", .str rc.repo), ("used_by", .num 0), ("version", .str rc.version)]

def repoUid (rc : HelmRepoChart) : Uid := syntheticUid rc.repo rc.name rc.version

/-- The snapshot, the charts in use in the order of `keys`. -/
def snapshot (g : ClusterCharts) (keys : List ChartKey) (repos : List HelmRepoChart) : List (RowJson ℕ) :=
  g.snapshot keys ++ repos.filterMap fun rc => synthRow (repoUid rc) (projectRepoRow rc)

/-- Source, name and version one after the other, in the parts between their colons. -/
def colonParts (source name version : String) : List (List Char) :=
  source.toList.splitOn ':' ++ name.toList.splitOn ':' ++ version.toList.splitOn ':'

def clusterParts (key : ChartKey) : List (List Char) := colonParts helmClusterSource key.1 key.2

def repoParts (rc : HelmRepoChart) : List (List Char) := colonParts rc.repo rc.name rc.version

/-- No two of the charts shown have the same parts: neither two that latest revisions use, nor two of the
repositories, nor one of each. -/
structure Apart (latest : ReleaseKey → Option (Option ChartRef)) (repos : List HelmRepoChart) : Prop where
  cluster : ∀ k k' c c', latest k = some (some c) → latest k' = some (some c') →
    clusterParts c.key = clusterParts c'.key → c.key = c'.key
  repositories : repos.Pairwise fun rc rc' => repoParts rc ≠ repoParts rc'
  across : ∀ k c, latest k = some (some c) → ∀ rc ∈ repos, clusterParts c.key ≠ repoParts rc

theorem splitOn_injective {a b : List Char} (h : a.splitOn ':' = b.splitOn ':') : a = b := by
  have hjoined := congrArg [':'].intercalate h
  rwa [List.intercalate_splitOn, List.intercalate_splitOn] at hjoined

theorem syntheticUid_toList (source name version : String) :
    (syntheticUid source name version).toList =
      "helm:chart:".toList ++ (source.toList ++ ':' :: (name.toList ++ ':' :: version.toList)) := by
  simp [syntheticUid, String.toList_append]

/-- A uid tells exactly the parts. -/
theorem syntheticUid_eq_iff {source name version source' name' version' : String} :
    syntheticUid source name version = syntheticUid source' name' version' ↔
      colonParts source name version = colonParts source' name' version' := by
  have hsplit : ∀ source name version : String,
      (source.toList ++ ':' :: (name.toList ++ ':' :: version.toList)).splitOn ':' =
        colonParts source name version := by
    intro source name version
    rw [List.splitOn_append_cons_self, List.splitOn_append_cons_self, colonParts, List.append_assoc]
  rw [← String.toList_inj, syntheticUid_toList, syntheticUid_toList, List.append_cancel_left_eq, ← hsplit, ← hsplit]
  exact ⟨congrArg _, splitOn_injective⟩

theorem repo_uids (repos : List HelmRepoChart) :
    (repos.filterMap fun rc => synthRow (repoUid rc) (projectRepoRow rc)).map RowJson.uid = repos.map repoUid := by
  have hbuilt : (fun rc => synthRow (repoUid rc) (projectRepoRow rc)) =
      fun rc => some ⟨withUid (repoUid rc) (projectRepoRow rc)⟩ := rfl
  have huid : ∀ rc, (⟨withUid (repoUid rc) (projectRepoRow rc)⟩ : RowJson ℕ).uid = repoUid rc := by
    intro rc
    simp [RowJson.uid, uid_withUid, Json.asStr]
  rw [hbuilt, List.filterMap_eq_map', List.map_map]
  exact List.map_congr_left fun rc _ => huid rc

theorem chartUid_eq_iff {key key' : ChartKey} :
    ClusterCharts.chartUid key = ClusterCharts.chartUid key' ↔ clusterParts key = clusterParts key' :=
  syntheticUid_eq_iff

theorem chartUid_eq_repoUid_iff {key : ChartKey} {rc : HelmRepoChart} :
    ClusterCharts.chartUid key = repoUid rc ↔ clusterParts key = repoParts rc :=
  syntheticUid_eq_iff

theorem nodup_repoUids_iff {repos : List HelmRepoChart} :
    (repos.map repoUid).Nodup ↔ repos.Pairwise fun rc rc' => repoParts rc ≠ repoParts rc' := by
  rw [List.Nodup, List.pairwise_map]
  exact List.Pairwise.iff fun rc rc' => not_congr syntheticUid_eq_iff

variable {Obj : Type} {S : ReleaseSecret Obj} {inputs : List (WatchEvent Obj × List Uid)} {t : ChartsTask}

/-- A key of the snapshot is the chart of some latest revision. -/
theorem mem_keys_iff (h : run (ChartsTask.step S) ChartsTask.start inputs = some t) {keys : List ChartKey}
    (hk : Enumerates keys t.cluster.usage.charts.keys) (key : ChartKey) :
    key ∈ keys ↔ ∃ k c, t.cluster.index.latest k = some (some c) ∧ c.key = key := by
  obtain ⟨m, hm, hcounts⟩ := (ChartsTask.sound_run h).counts
  rw [hk.mem_iff, Finmap.mem_keys, ← Finmap.lookup_isSome, Option.isSome_iff_exists,
    ClusterCharts.mem_charts_iff hcounts, ← hm]

theorem snapshot_nodup_iff (h : run (ChartsTask.step S) ChartsTask.start inputs = some t) {keys : List ChartKey}
    (hk : Enumerates keys t.cluster.usage.charts.keys) (repos : List HelmRepoChart) :
    ((snapshot t.cluster keys repos).map RowJson.uid).Nodup ↔ Apart t.cluster.index.latest repos := by
  obtain ⟨m, hm, hcounts⟩ := (ChartsTask.sound_run h).counts
  have hcluster := ChartsTask.nodup_snapshot_iff hk
  rw [ClusterCharts.distinct_iff hcounts, hm] at hcluster
  have huids : (t.cluster.snapshot keys).map RowJson.uid = keys.map ClusterCharts.chartUid :=
    ChartsTask.snapshot_uids fun key hmem => Finmap.mem_keys.mp (hk.mem_iff.mp hmem)
  rw [snapshot, List.map_append, List.nodup_append, hcluster, repo_uids, nodup_repoUids_iff, huids]
  constructor
  · rintro ⟨hdistinct, hrepos, hacross⟩
    refine ⟨fun k k' c c' hk hk' hparts => hdistinct k k' c c' hk hk' (chartUid_eq_iff.mpr hparts), hrepos,
      fun k c hlatest rc hrc hparts => ?_⟩
    have hkey : c.key ∈ keys := (mem_keys_iff h hk c.key).mpr ⟨k, c, hlatest, rfl⟩
    exact hacross _ (List.mem_map_of_mem hkey) _ (List.mem_map_of_mem hrc) (chartUid_eq_repoUid_iff.mpr hparts)
  · rintro ⟨hdistinct, hrepos, hacross⟩
    refine ⟨fun k k' c c' hk hk' huid => hdistinct k k' c c' hk hk' (chartUid_eq_iff.mp huid), hrepos, ?_⟩
    intro uid huid uid' huid' heq
    obtain ⟨key, hkey, rfl⟩ := List.mem_map.mp huid
    obtain ⟨rc, hrc, rfl⟩ := List.mem_map.mp huid'
    obtain ⟨k, c, hlatest, rfl⟩ := (mem_keys_iff h hk key).mp hkey
    exact hacross k c hlatest rc hrc (chartUid_eq_repoUid_iff.mp heq)

theorem colonParts_of_plain {source name version : String} (hsource : ':' ∉ source.toList)
    (hname : ':' ∉ name.toList) (hversion : ':' ∉ version.toList) :
    colonParts source name version = [source.toList, name.toList, version.toList] := by
  rw [colonParts, List.splitOn_eq_singleton hsource, List.splitOn_eq_singleton hname,
    List.splitOn_eq_singleton hversion]
  rfl

/-- Without colons the parts tell the three apart. -/
theorem colonParts_inj {source name version source' name' version' : String} (hsource : ':' ∉ source.toList)
    (hname : ':' ∉ name.toList) (hversion : ':' ∉ version.toList) (hsource' : ':' ∉ source'.toList)
    (hname' : ':' ∉ name'.toList) (hversion' : ':' ∉ version'.toList)
    (h : colonParts source name version = colonParts source' name' version') :
    source = source' ∧ name = name' ∧ version = version' := by
  rw [colonParts_of_plain hsource hname hversion, colonParts_of_plain hsource' hname' hversion'] at h
  simpa [String.toList_inj] using h

structure Plain (rc : HelmRepoChart) : Prop where
  repo : ':' ∉ rc.repo.toList
  name : ':' ∉ rc.name.toList
  version : ':' ∉ rc.version.toList

/-- Without colons, and without a repository called like the cluster's source, only equal charts share a uid. -/
theorem apart_of_plain {latest : ReleaseKey → Option (Option ChartRef)} {repos : List HelmRepoChart}
    (hcluster : ∀ k c, latest k = some (some c) → ':' ∉ c.name.toList ∧ ':' ∉ c.version.toList)
    (hrepos : ∀ rc ∈ repos, Plain rc ∧ rc.repo ≠ helmClusterSource)
    (hdistinct : repos.Pairwise fun rc rc' => (rc.repo, rc.name, rc.version) ≠ (rc'.repo, rc'.name, rc'.version)) :
    Apart latest repos := by
  have hsource : ':' ∉ helmClusterSource.toList := by decide
  refine ⟨fun k k' c c' hk hk' hparts => ?_, ?_, fun k c hk rc hrc hparts => ?_⟩
  · obtain ⟨hname, hversion⟩ := hcluster k c hk
    obtain ⟨hname', hversion'⟩ := hcluster k' c' hk'
    obtain ⟨-, hn, hv⟩ := colonParts_inj hsource hname hversion hsource hname' hversion' hparts
    exact Prod.ext hn hv
  · refine hdistinct.imp_of_mem fun {rc rc'} hrc hrc' hne hparts => hne ?_
    have hplain := (hrepos rc hrc).1
    have hplain' := (hrepos rc' hrc').1
    obtain ⟨hr, hn, hv⟩ := colonParts_inj hplain.repo hplain.name hplain.version hplain'.repo hplain'.name
      hplain'.version hparts
    rw [hr, hn, hv]
  · obtain ⟨hname, hversion⟩ := hcluster k c hk
    obtain ⟨hplain, hne⟩ := hrepos rc hrc
    exact hne (colonParts_inj hsource hname hversion hplain.repo hplain.name hplain.version hparts).1.symm

def inUse : List (WatchEvent (Uid × ReleaseSummary) × List Uid) :=
  [(.apply ("u1", ChartsTask.sampleRelease "web" "nginx" "1.0"), [])]

/-- What the search finds when it finds one chart. -/
def searched (name : String) : List HelmRepoChart :=
  parseSearchOutput (some [.obj [("name", .str name), ("version", .str "1.0")]])

theorem snapshot_nodup_bitnami : ∃ t, run (ChartsTask.step ChartsTask.sampleSecrets) .start inUse = some t ∧
    ((snapshot t.cluster [("nginx", "1.0")] (searched "bitnami/nginx")).map RowJson.uid).Nodup := by
  obtain ⟨t, ht, hk⟩ : ∃ t : ChartsTask, run (ChartsTask.step ChartsTask.sampleSecrets) .start inUse = some t ∧
      Enumerates [("nginx", "1.0")] t.cluster.usage.charts.keys := ⟨_, rfl, by decide⟩
  refine ⟨t, ht, (snapshot_nodup_iff ht hk _).mpr (apart_of_plain (fun k c hc => ?_) ?_ (by decide))⟩
  · have hkey : c.key ∈ [("nginx", "1.0")] := (mem_keys_iff ht hk c.key).mpr ⟨k, c, hc, rfl⟩
    obtain ⟨hname, hversion⟩ := Prod.mk.inj (List.mem_singleton.mp hkey)
    rw [hname, hversion]
    exact ⟨by decide, by decide⟩
  · have hsearched : searched "bitnami/nginx" = [⟨"bitnami", "nginx", "1.0", none, none⟩] := by decide
    rw [hsearched, List.forall_mem_singleton]
    exact ⟨⟨by decide, by decide, by decide⟩, by decide⟩

/-- A repository called like the cluster's source. -/
theorem snapshot_shares_uid : ∃ t, run (ChartsTask.step ChartsTask.sampleSecrets) .start inUse = some t ∧
    Enumerates [("nginx", "1.0")] t.cluster.usage.charts.keys ∧
    ¬((snapshot t.cluster [("nginx", "1.0")] (searched "cluster/nginx")).map RowJson.uid).Nodup :=
  ⟨_, rfl, by decide, by decide⟩

end FerrisScope.ChartUids
