import Mathlib.Data.List.Dedup
import Mathlib.Data.List.Basic
import Mathlib.Tactic.Linarith

/-!
# In-cluster names of a service

A service is reachable under its label alone, under label and namespace, and under two longer
suffixes of these. A label never contains a dot, so every dotted name determines the label and
the namespace that it was made from.
-/

namespace FerrisScope.HostNames

def sanitizeChar (c : Char) : Char := if c.isAlphanum then c.toLower else '-'

def trimMatches (c : Char) (l : List Char) : List Char :=
  ((l.dropWhile (· == c)).reverse.dropWhile (· == c)).reverse

def sanitizeLabel (s : String) : String := String.ofList (trimMatches '-' (s.toList.map sanitizeChar))

def variants (service ns : String) : List String :=
  let svc := sanitizeLabel service
  let ns := sanitizeLabel ns
  if svc = "" ∨ ns = "" then []
  else [svc, svc ++ "." ++ ns, svc ++ "." ++ ns ++ ".svc", svc ++ "." ++ ns ++ ".svc.cluster.local"]

def isBare (h : String) : Bool := decide ('.' ∉ h.toList)

/-- The bare names each entry claims, once for an entry. -/
def bareClaims (lists : List (List String)) : List String :=
  lists.flatMap fun list => (list.filter isBare).dedup

def isAmbiguous (lists : List (List String)) (h : String) : Bool := decide (1 < (bareClaims lists).count h)

def dropAmbiguousBareNames (lists : List (List String)) : List (List String) :=
  lists.map fun list => list.filter fun h => !isBare h || !isAmbiguous lists h

def isValidLabel (label : List Char) : Bool :=
  label ≠ [] && decide ((label.map Char.utf8Size).sum ≤ 63) &&
    label.head? ≠ some '-' && label.getLast? ≠ some '-' &&
    label.all fun c => c.isLower || c.isDigit || c == '-'

def isValidHostname (h : String) : Bool :=
  h ≠ "" && decide (h.utf8ByteSize ≤ 253) && (h.toList.splitOn '.').all isValidLabel

theorem toLower_ne_dot {c : Char} (h : c ≠ '.') : c.toLower ≠ '.' := by
  intro hdot
  unfold Char.toLower at hdot
  split at hdot
  · rename_i hup
    have hlo : 65 ≤ c.val.toNat := UInt32.le_iff_toNat_le.mp hup.1
    have hhi : c.val.toNat ≤ 90 := UInt32.le_iff_toNat_le.mp hup.2
    have hval : (c.val.toNat + 32) % 2 ^ 32 = 46 := congrArg Char.toNat hdot
    omega
  · exact h hdot

theorem sanitizeChar_ne_dot (c : Char) : sanitizeChar c ≠ '.' := by
  unfold sanitizeChar
  split
  · rename_i h
    apply toLower_ne_dot
    rintro rfl
    exact absurd h (by decide)
  · decide

theorem mem_trimMatches {c d : Char} {l : List Char} (h : d ∈ trimMatches c l) : d ∈ l := by
  have h1 := (List.dropWhile_sublist _).subset (List.mem_reverse.mp h)
  exact (List.dropWhile_sublist _).subset (List.mem_reverse.mp h1)

theorem dot_notMem_sanitizeLabel (s : String) : '.' ∉ (sanitizeLabel s).toList := by
  intro h
  rw [sanitizeLabel, String.toList_ofList] at h
  obtain ⟨c, -, hc⟩ := List.mem_map.mp (mem_trimMatches h)
  exact sanitizeChar_ne_dot c hc

/-- A dotted name starts with the label and the namespace it was made from. -/
def Qualifies (svc ns h : String) : Prop :=
  ∃ tail, (tail = [] ∨ tail.head? = some '.') ∧ h.toList = svc.toList ++ '.' :: (ns.toList ++ tail)

/-- What stands before the first separator. -/
theorem takeWhile_append_tail {sep : Char} {l tail : List Char} (hl : sep ∉ l)
    (ht : tail = [] ∨ tail.head? = some sep) : (l ++ tail).takeWhile (· ≠ sep) = l := by
  have hall : ∀ c ∈ l, decide (c ≠ sep) = true := by
    intro c hc
    simpa using fun he : c = sep => hl (he ▸ hc)
  rw [List.takeWhile_append_of_pos hall]
  cases tail with
  | nil => simp
  | cons c tail =>
    have hc : c = sep := by simpa using ht
    simp [hc]

theorem Qualifies.unique {svc ns svc' ns' h : String} (hq : Qualifies svc ns h)
    (hq' : Qualifies svc' ns' h) (hs : '.' ∉ svc.toList) (hn : '.' ∉ ns.toList)
    (hs' : '.' ∉ svc'.toList) (hn' : '.' ∉ ns'.toList) : svc = svc' ∧ ns = ns' := by
  obtain ⟨tail, ht, he⟩ := hq
  obtain ⟨tail', ht', he'⟩ := hq'
  have hsame := he.symm.trans he'
  have hsvc := congrArg (List.takeWhile (· ≠ '.')) hsame
  rw [takeWhile_append_tail hs (.inr rfl), takeWhile_append_tail hs' (.inr rfl)] at hsvc
  rw [hsvc, List.append_cancel_left_eq, List.cons_inj_right] at hsame
  have hns := congrArg (List.takeWhile (· ≠ '.')) hsame
  rw [takeWhile_append_tail hn ht, takeWhile_append_tail hn' ht'] at hns
  exact ⟨String.toList_inj.mp hsvc, String.toList_inj.mp hns⟩

/-- Labels that yield names at all. -/
def Named (service ns : String) : Prop := sanitizeLabel service ≠ "" ∧ sanitizeLabel ns ≠ ""

theorem variants_of_named {service ns : String} (h : Named service ns) :
    variants service ns =
      [sanitizeLabel service, sanitizeLabel service ++ "." ++ sanitizeLabel ns,
        sanitizeLabel service ++ "." ++ sanitizeLabel ns ++ ".svc",
        sanitizeLabel service ++ "." ++ sanitizeLabel ns ++ ".svc.cluster.local"] := by
  simp [variants, h.1, h.2]

/-- A name of a service is its bare label or a dotted name. -/
theorem mem_variants {service ns h : String} (hm : h ∈ variants service ns) :
    Named service ns ∧
      (isBare h ∨ Qualifies (sanitizeLabel service) (sanitizeLabel ns) h) := by
  by_cases hn : Named service ns
  · refine ⟨hn, ?_⟩
    rw [variants_of_named hn] at hm
    rcases List.mem_cons.mp hm with rfl | hm
    · left
      simpa [isBare] using dot_notMem_sanitizeLabel service
    right
    rcases List.mem_cons.mp hm with rfl | hm
    · exact ⟨[], .inl rfl, by simp [String.toList_append]⟩
    rcases List.mem_cons.mp hm with rfl | hm
    · exact ⟨".svc".toList, .inr rfl, by simp [String.toList_append]⟩
    · obtain rfl := List.mem_singleton.mp hm
      exact ⟨".svc.cluster.local".toList, .inr rfl, by simp [String.toList_append]⟩
  · have hz : sanitizeLabel service = "" ∨ sanitizeLabel ns = "" := by
      by_contra hc
      exact hn (not_or.mp hc)
    rw [variants, if_pos hz] at hm
    simp at hm

theorem qualified_mem_variants {service ns : String} (h : Named service ns) :
    sanitizeLabel service ++ "." ++ sanitizeLabel ns ∈ variants service ns := by
  simp [variants_of_named h]

/-- What two different members of a list both yield occurs twice. -/
theorem one_lt_count_flatMap {α β : Type*} [DecidableEq β] {f : α → List β} {x : β} {l : List α}
    {a b : α} (ha : a ∈ l) (hb : b ∈ l) (hne : a ≠ b) (hxa : x ∈ f a) (hxb : x ∈ f b) :
    1 < (l.flatMap f).count x := by
  induction l with
  | nil => simp at ha
  | cons c l ih =>
    rw [List.flatMap_cons, List.count_append]
    have hpos : ∀ d ∈ l, x ∈ f d → 0 < (l.flatMap f).count x := fun d hd hxd =>
      List.count_pos_iff.mpr (List.mem_flatMap.mpr ⟨d, hd, hxd⟩)
    rcases List.mem_cons.mp ha with rfl | ha' <;> rcases List.mem_cons.mp hb with rfl | hb'
    · exact absurd rfl hne
    · have h1 := List.count_pos_iff.mpr hxa
      have h2 := hpos b hb' hxb
      omega
    · have h1 := List.count_pos_iff.mpr hxb
      have h2 := hpos a ha' hxa
      omega
    · have := ih ha' hb'
      omega

/-- A bare name that two entries claim is ambiguous. -/
theorem isAmbiguous_of_two {α : Type*} (names : α → List String) {l : List α} {a b : α} (ha : a ∈ l)
    (hb : b ∈ l) (hne : a ≠ b) {h : String} (hbare : isBare h) (hxa : h ∈ names a) (hxb : h ∈ names b) :
    isAmbiguous (l.map names) h := by
  have hmem : ∀ c, h ∈ names c → h ∈ ((names c).filter isBare).dedup := by
    intro c hc
    simp [hc, hbare]
  simp only [isAmbiguous, bareClaims, List.flatMap_map, decide_eq_true_eq]
  exact one_lt_count_flatMap ha hb hne (hmem a hxa) (hmem b hxb)

end FerrisScope.HostNames
