import FerrisScope.CircularCells
import FerrisScope.EntryLists
import FerrisScope.OrderedMerges
import Mathlib.Data.List.Pairwise

/-!
# The scrollback of the log view

The buffer is partitioned by source. Each source has a ring of its own, whose capacity follows from the
total one and the number of sources, and a line that does not fit takes the place of the oldest one of
its source. All lines are read in the order of their ids, and the result is kept until the buffer
changes. Beside the rings stands what they are for: the newest lines of each source.
-/

namespace FerrisScope.LogRings
open CircularCells EntryLists OrderedMerges

class RingEntry (T : Type*) where
  id : T → ℕ
  src : T → String

variable {T : Type*}

def minLinesPerSource : ℕ := 500

def perSourceCap (totalCap sourceCount : ℕ) : ℕ :=
  if sourceCount ≤ 1 then totalCap else max minLinesPerSource (totalCap / sourceCount)

structure SourceRing (T : Type*) where
  cap : ℕ
  buf : List (Option T)
  start : ℕ
  len : ℕ

namespace SourceRing

def new (cap : ℕ) : SourceRing T := ⟨cap, List.replicate cap none, 0, 0⟩

def push (r : SourceRing T) (entry : T) : SourceRing T :=
  if r.len < r.cap then
    { r with buf := r.buf.set ((r.start + r.len) % r.cap) (some entry), len := r.len + 1 }
  else { r with buf := r.buf.set r.start (some entry), start := (r.start + 1) % r.cap }

def size (r : SourceRing T) : ℕ := r.len

/-- The entry at a place, if one was written there. -/
def entryAt (r : SourceRing T) (i : ℕ) : Option T := cellAt r.buf r.cap r.start i

def recap (r : SourceRing T) (cap : ℕ) : SourceRing T :=
  if cap = r.cap then r
  else
    let keep := min r.len cap
    ⟨cap, (List.range keep).map (fun i => r.entryAt (r.len - keep + i)) ++ List.replicate (cap - keep) none, 0, keep⟩

def entries (r : SourceRing T) : List T := (List.range r.size).filterMap r.entryAt

/-- The ring holds the list. -/
structure Holds (r : SourceRing T) (l : List T) : Prop where
  contents : Contents r.buf r.cap r.start l
  len_eq : r.len = l.length

variable {r : SourceRing T} {l : List T}

theorem Holds.cap_pos (h : Holds r l) : 0 < r.cap := Nat.zero_lt_of_lt h.contents.start_lt

theorem Holds.entries_eq (h : Holds r l) : r.entries = l := by
  rw [entries, size, h.len_eq]
  exact h.contents.filterMap_range

theorem Holds.entryAt_eq (h : Holds r l) {i : ℕ} (hi : i < r.len) : r.entryAt i = l[i]? :=
  h.contents.get i (h.len_eq ▸ hi)

theorem holds_new {cap : ℕ} (hcap : 0 < cap) : Holds (new cap : SourceRing T) [] where
  contents := contents_replicate hcap
  len_eq := rfl

@[simp] theorem cap_push (r : SourceRing T) (entry : T) : (r.push entry).cap = r.cap := by
  unfold push
  split_ifs <;> rfl

/-- A push keeps the newest entries. -/
theorem Holds.push (h : Holds r l) (entry : T) : Holds (r.push entry) ((l ++ [entry]).rtake r.cap) := by
  unfold SourceRing.push
  split_ifs with hlt
  · rw [h.len_eq] at hlt
    rw [rtake_concat_of_lt hlt, h.len_eq]
    refine ⟨h.contents.append hlt entry, ?_⟩
    rw [List.length_append, List.length_singleton]
  · have hfull : l.length = r.cap := by
      have hle := h.contents.length_le
      have hlen := h.len_eq
      omega
    rw [rtake_concat_of_eq hfull h.cap_pos]
    refine ⟨h.contents.overwrite hfull entry, ?_⟩
    have hcap := h.cap_pos
    have hlen := h.len_eq
    simp only [List.length_append, List.length_tail, List.length_singleton]
    omega

theorem cap_recap (r : SourceRing T) (cap : ℕ) : (r.recap cap).cap = cap := by
  unfold recap
  split_ifs with hcap
  · exact hcap.symm
  · rfl

/-- A new capacity keeps the newest entries. -/
theorem Holds.recap (h : Holds r l) {cap : ℕ} (hcap : 0 < cap) : Holds (r.recap cap) (l.rtake cap) := by
  unfold SourceRing.recap
  split_ifs with hsame
  · rw [hsame, rtake_eq_self h.contents.length_le]
    exact h
  · have hlen := h.len_eq
    have hkeep : (l.rtake cap).length = min r.len cap := by
      rw [List.rtake, List.length_drop]
      omega
    have hcopy : (List.range (min r.len cap)).map (fun i => r.entryAt (r.len - min r.len cap + i)) =
        (l.rtake cap).map some := by
      refine List.ext_getElem? fun i => ?_
      rcases Nat.lt_or_ge i (min r.len cap) with hlt | hge
      · have hin : r.len - min r.len cap + i < r.len := by omega
        have hdrop : l.length - cap + i = r.len - min r.len cap + i := by omega
        rw [List.getElem?_map, List.getElem?_range hlt, Option.map_some, List.getElem?_map,
          List.getElem?_eq_getElem (hkeep.symm ▸ hlt), h.entryAt_eq hin]
        simp only [List.rtake, List.getElem_drop, Option.map_some, hdrop]
        exact congrArg some (List.getElem?_eq_getElem (by omega))
      · rw [List.getElem?_eq_none (by simpa using hge), List.getElem?_eq_none (by simpa [hkeep] using hge)]
    simp only [hcopy]
    refine ⟨?_, hkeep.symm⟩
    rw [← hkeep]
    exact contents_copy hcap (length_rtake_le l cap)

end SourceRing

structure LogRing (T : Type*) where
  totalCap : ℕ
  parts : List (String × SourceRing T)
  sourceCount : ℕ
  merged : Option (List T)

namespace LogRing

def new (totalCap : ℕ) : LogRing T := ⟨totalCap, [], 1, none⟩

def quota (r : LogRing T) : ℕ := perSourceCap r.totalCap r.sourceCount

def size (r : LogRing T) : ℕ := (r.parts.map fun p => p.2.size).sum

def clear (r : LogRing T) : LogRing T := { r with parts := [], merged := none }

def recapParts (r : LogRing T) : LogRing T :=
  { r with parts := r.parts.map (Prod.map id fun p => p.recap r.quota), merged := none }

def setSourceCount (r : LogRing T) (n : ℕ) : LogRing T :=
  let next := max 1 n
  if next = r.sourceCount then r else recapParts { r with sourceCount := next }

def setTotalCap (r : LogRing T) (cap : ℕ) : LogRing T :=
  if cap = r.totalCap then r else recapParts { r with totalCap := cap }

/-- The lines of a source that are in the buffer. -/
def held (r : LogRing T) (src : String) : List T := ((r.parts.lookup src).map SourceRing.entries).getD []

end LogRing

/-- A source's ring and how many of its lines have been merged. -/
abbrev Cursor (T : Type*) := SourceRing T × ℕ

def headOf (c : Cursor T) : Option T := if c.1.size ≤ c.2 then none else c.1.entryAt c.2

variable [RingEntry T]

def mergeLoop : ℕ → List (Cursor T) → List T
  | 0, _ => []
  | w + 1, cs =>
    match pick RingEntry.id (cs.map headOf) with
    | none => []
    | some (k, e) => e :: mergeLoop w (cs.modify k fun c => (c.1, c.2 + 1))

def mergeParts (parts : List (SourceRing T)) : List T :=
  match parts.filter fun p => 0 < p.size with
  | [] => []
  | [only] => only.entries
  | parts => mergeLoop (parts.map SourceRing.size).sum (parts.map (·, 0))

namespace LogRing

def push (r : LogRing T) (entry : T) : LogRing T :=
  let part := (r.parts.lookup (RingEntry.src entry)).getD (SourceRing.new r.quota)
  { r with parts := put (RingEntry.src entry) (part.push entry) r.parts, merged := none }

def toArray (r : LogRing T) : List T × LogRing T :=
  match r.merged with
  | some lines => (lines, r)
  | none =>
    let lines := mergeParts (r.parts.map Prod.snd)
    (lines, { r with merged := some lines })

end LogRing

inductive Op (T : Type*) where
  | push (entry : T)
  | setSourceCount (n : ℕ)
  | setTotalCap (cap : ℕ) (hcap : 1 ≤ cap)
  | clear
  | toArray

def perform (r : LogRing T) : Op T → LogRing T
  | .push entry => r.push entry
  | .setSourceCount n => r.setSourceCount n
  | .setTotalCap cap _ => r.setTotalCap cap
  | .clear => r.clear
  | .toArray => r.toArray.2

/-! ## The merge -/

/-- What is left of a source's lines. -/
def restOf (c : Cursor T) : List T := c.1.entries.drop c.2

/-- The ring holds a list. -/
def SourceRing.Sound (r : SourceRing T) : Prop := ∃ l, r.Holds l

variable {cs : List (Cursor T)} {parts : List (SourceRing T)}

omit [RingEntry T] in
theorem SourceRing.Sound.length_entries {r : SourceRing T} (h : r.Sound) : r.entries.length = r.size := by
  obtain ⟨l, hl⟩ := h
  rw [hl.entries_eq, size, hl.len_eq]

omit [RingEntry T] in
theorem head?_restOf {c : Cursor T} (h : c.1.Sound) : (restOf c).head? = headOf c := by
  have hlen := h.length_entries
  obtain ⟨l, hl⟩ := h
  rw [restOf, headOf, List.head?_drop]
  split_ifs with hge
  · exact List.getElem?_eq_none (hlen.trans_le hge)
  · rw [hl.entries_eq, hl.entryAt_eq (not_le.mp hge)]

omit [RingEntry T] in
theorem map_restOf_modify {k : ℕ} {c : Cursor T} (hk : cs[k]? = some c) :
    (cs.modify k fun c => (c.1, c.2 + 1)).map restOf = (cs.map restOf).set k (restOf c).tail := by
  refine List.ext_getElem? fun i => ?_
  rw [List.getElem?_map, List.getElem?_modify]
  by_cases hi : k = i
  · subst hi
    have hlt : k < (cs.map restOf).length := by
      rw [List.length_map]
      exact (List.getElem?_eq_some_iff.mp hk).1
    rw [List.getElem?_set_self hlt, hk]
    simp [restOf, List.tail_drop]
  · rw [List.getElem?_set_ne hi, List.getElem?_map]
    simp [hi]

/-- The loop over the heads takes the least one each time. -/
theorem merges_mergeLoop {w : ℕ} (hsound : ∀ c ∈ cs, c.1.Sound) (hw : (cs.map restOf).flatten.length = w) :
    Merges RingEntry.id (cs.map restOf) (mergeLoop w cs) := by
  induction w generalizing cs with
  | zero => exact .done (List.flatten_eq_nil_iff.mp (List.length_eq_zero_iff.mp hw))
  | succ w ih =>
    have hheads : cs.map headOf = (cs.map restOf).map List.head? := by
      rw [List.map_map]
      exact List.map_congr_left fun c hc => (head?_restOf (hsound c hc)).symm
    rw [mergeLoop]
    cases hpick : pick RingEntry.id (cs.map headOf) with
    | none =>
      have hnone := pick_eq_none hpick
      rw [hheads] at hnone
      have hempty : (cs.map restOf).flatten = [] := List.flatten_eq_nil_iff.mpr fun l hl =>
        List.head?_eq_none_iff.mp (hnone _ (List.mem_map_of_mem hl))
      rw [hempty] at hw
      cases hw
    | some p =>
      obtain ⟨k, e⟩ := p
      obtain ⟨hget, hleast⟩ := pick_eq_some hpick
      rw [hheads] at hget hleast
      obtain ⟨l, hl, hhead⟩ := Option.map_eq_some_iff.mp (List.getElem?_map ▸ hget)
      obtain ⟨c, hc, rfl⟩ := Option.map_eq_some_iff.mp (List.getElem?_map ▸ hl)
      obtain ⟨rest, hrest⟩ := List.head?_eq_some_iff.mp hhead
      have hk : (cs.map restOf)[k]? = some (e :: rest) := hl.trans (congrArg some hrest)
      have hmodify := map_restOf_modify hc
      rw [hrest, List.tail_cons] at hmodify
      refine .next hk (fun l hl b hb => hleast b ?_) ?_
      · rw [← Option.mem_def.mp hb]
        exact List.mem_map_of_mem hl
      · rw [← hmodify]
        refine ih (fun c' hc' => ?_) ?_
        · obtain ⟨i, hi⟩ := List.getElem?_of_mem hc'
          rw [List.getElem?_modify] at hi
          obtain ⟨d, hd, rfl⟩ := Option.map_eq_some_iff.mp hi
          have hmem := hsound d (List.mem_of_getElem? hd)
          split_ifs <;> exact hmem
        · have hperm := (flatten_set hk).length_eq
          rw [hmodify]
          rw [List.length_cons] at hperm
          omega

theorem merges_singleton (l : List T) (h : l.Pairwise fun a b => RingEntry.id a ≤ RingEntry.id b) :
    Merges RingEntry.id [l] l := by
  induction l with
  | nil => exact .done fun l hl => List.mem_singleton.mp hl
  | cons a l ih =>
    obtain ⟨hleast, hrest⟩ := List.pairwise_cons.mp h
    have hk : [a :: l][0]? = some (a :: l) := rfl
    refine .next hk (fun l' hl b hb => ?_) (ih hrest)
    obtain rfl := List.mem_singleton.mp hl
    cases Option.mem_def.mp hb
    exact le_rfl

/-- In every case the lines are merged by id. -/
theorem merges_mergeParts (hsound : ∀ p ∈ parts, p.Sound)
    (hsorted : ∀ p ∈ parts, p.entries.Pairwise fun a b => RingEntry.id a ≤ RingEntry.id b) :
    Merges RingEntry.id ((parts.filter fun p => 0 < p.size).map SourceRing.entries) (mergeParts parts) := by
  have hmem : ∀ p ∈ parts.filter fun p => 0 < p.size, p ∈ parts := fun p hp => List.mem_of_mem_filter hp
  unfold mergeParts
  split
  · next heq =>
    rw [heq]
    exact .done nofun
  · next only heq =>
    rw [heq]
    exact merges_singleton _ (hsorted only (hmem only (heq ▸ List.mem_singleton_self only)))
  · have hrests : ∀ ps : List (SourceRing T), (ps.map (·, 0)).map restOf = ps.map SourceRing.entries := by
      intro ps
      rw [List.map_map]
      exact List.map_congr_left fun p _ => List.drop_zero
    rw [← hrests]
    refine merges_mergeLoop (fun c hc => ?_) ?_
    · obtain ⟨p, hp, rfl⟩ := List.mem_map.mp hc
      exact hsound p (hmem p hp)
    · rw [hrests, List.length_flatten, List.map_map]
      exact congrArg List.sum (List.map_congr_left fun p hp => (hsound p (hmem p hp)).length_entries)

omit [RingEntry T] in
theorem flatten_filter_size (hsound : ∀ p ∈ parts, p.Sound) :
    ((parts.filter fun p => 0 < p.size).map SourceRing.entries).flatten = (parts.map SourceRing.entries).flatten := by
  induction parts with
  | nil => rfl
  | cons p parts ih =>
    obtain ⟨hp, hparts⟩ := List.forall_mem_cons.mp hsound
    rw [List.filter_cons]
    split_ifs with hsize
    · rw [List.map_cons, List.flatten_cons, ih hparts, List.map_cons, List.flatten_cons]
    · have hempty : p.entries = [] := by
        rw [← List.length_eq_zero_iff, hp.length_entries]
        simpa using hsize
      rw [ih hparts, List.map_cons, List.flatten_cons, hempty, List.nil_append]

/-! ## What the buffer is for -/

/-- The lines since the last clear, and the newest ones of each source that are kept. -/
structure Scrollback (T : Type*) where
  lines : List T
  kept : String → List T
  totalCap : ℕ
  sourceCount : ℕ

namespace Scrollback

def new (totalCap : ℕ) : Scrollback T := ⟨[], fun _ => [], totalCap, 1⟩

def quota (s : Scrollback T) : ℕ := perSourceCap s.totalCap s.sourceCount

/-- Every source drops what exceeds the quota, the oldest lines first. -/
def trim (s : Scrollback T) : Scrollback T := { s with kept := fun src => (s.kept src).rtake s.quota }

def next (s : Scrollback T) : Op T → Scrollback T
  | .push e => trim { s with
      lines := s.lines ++ [e]
      kept := Function.update s.kept (RingEntry.src e) (s.kept (RingEntry.src e) ++ [e]) }
  | .setSourceCount n => trim { s with sourceCount := max 1 n }
  | .setTotalCap cap _ => trim { s with totalCap := cap }
  | .clear => { s with lines := [], kept := fun _ => [] }
  | .toArray => s

omit [RingEntry T] in
theorem kept_trim (s : Scrollback T) (src : String) : s.trim.kept src = (s.kept src).rtake s.quota := rfl

theorem kept_push (s : Scrollback T) (e : T) (src : String) : (s.next (.push e)).kept src =
    (if src = RingEntry.src e then s.kept src ++ [e] else s.kept src).rtake s.quota := by
  change (Function.update s.kept (RingEntry.src e) (s.kept (RingEntry.src e) ++ [e]) src).rtake s.quota = _
  rw [Function.update_apply]
  split_ifs with heq
  · rw [heq]
  · rfl

/-- Each source keeps a suffix of its lines, within the quota. -/
structure Bounded (s : Scrollback T) : Prop where
  totalCap_pos : 1 ≤ s.totalCap
  length_le : ∀ src, (s.kept src).length ≤ s.quota
  suffix : ∀ src, s.kept src <:+ s.lines.filter fun e => RingEntry.src e = src

end Scrollback

omit [RingEntry T] in
theorem perSourceCap_pos {totalCap : ℕ} (h : 1 ≤ totalCap) (sourceCount : ℕ) :
    0 < perSourceCap totalCap sourceCount := by
  unfold perSourceCap minLinesPerSource
  split_ifs
  · exact h
  · omega

namespace Scrollback

variable {s : Scrollback T}

theorem bounded_new {totalCap : ℕ} (h : 1 ≤ totalCap) : Bounded (new totalCap : Scrollback T) where
  totalCap_pos := h
  length_le _ := Nat.zero_le _
  suffix _ := List.suffix_refl _

theorem bounded_trim (hcap : 1 ≤ s.totalCap)
    (hsuffix : ∀ src, s.kept src <:+ s.lines.filter fun e => RingEntry.src e = src) : Bounded s.trim where
  totalCap_pos := hcap
  length_le _ := length_rtake_le _ _
  suffix src := (rtake_suffix _ _).trans (hsuffix src)

theorem bounded_next (h : Bounded s) (op : Op T) : Bounded (s.next op) := by
  cases op with
  | push e =>
    have hlines : (s.next (.push e)).lines = s.lines ++ [e] := rfl
    refine ⟨h.totalCap_pos, fun src => ?_, fun src => ?_⟩
    · rw [kept_push]
      exact length_rtake_le _ _
    · rw [kept_push, hlines, List.filter_append]
      refine (rtake_suffix _ _).trans ?_
      split_ifs with hsrc
      · obtain ⟨pre, hpre⟩ := h.suffix src
        have hone : [e].filter (fun e' => RingEntry.src e' = src) = [e] := by simp [hsrc]
        rw [hone, ← hpre, List.append_assoc]
        exact List.suffix_append _ _
      · have hnone : [e].filter (fun e' => RingEntry.src e' = src) = [] := by simp [Ne.symm hsrc]
        rw [hnone, List.append_nil]
        exact h.suffix src
  | setSourceCount n => exact bounded_trim h.totalCap_pos h.suffix
  | setTotalCap cap hcap => exact bounded_trim hcap h.suffix
  | clear => exact ⟨h.totalCap_pos, fun _ => Nat.zero_le _, fun _ => List.suffix_refl _⟩
  | toArray => exact h

theorem Bounded.trim_eq (h : Bounded s) : s.trim = s := by
  have hkept : (fun src => (s.kept src).rtake s.quota) = s.kept := funext fun src => rtake_eq_self (h.length_le src)
  rw [trim, hkept]

end Scrollback

/-! ## The rings hold what is to be kept -/

/-- The buffer holds the scrollback, and a merge that is remembered is that of the rings. -/
structure Refines (r : LogRing T) (s : Scrollback T) : Prop where
  totalCap : r.totalCap = s.totalCap
  sourceCount : r.sourceCount = s.sourceCount
  nodup : (r.parts.map Prod.fst).Nodup
  absent : ∀ src, r.parts.lookup src = none → s.kept src = []
  present : ∀ src p, r.parts.lookup src = some p → p.cap = r.quota ∧ p.Holds (s.kept src)
  merged : ∀ lines, r.merged = some lines → lines = mergeParts (r.parts.map Prod.snd)

variable {r : LogRing T} {s : Scrollback T}

theorem Refines.quota (h : Refines r s) : r.quota = s.quota := by
  rw [LogRing.quota, Scrollback.quota, h.totalCap, h.sourceCount]

theorem refines_new (totalCap : ℕ) : Refines (LogRing.new totalCap : LogRing T) (Scrollback.new totalCap) where
  totalCap := rfl
  sourceCount := rfl
  nodup := List.nodup_nil
  absent _ _ := rfl
  present _ _ h := nomatch h
  merged _ h := nomatch h

theorem Refines.push (h : Refines r s) (hb : s.Bounded) (e : T) : Refines (r.push e) (s.next (.push e)) := by
  have hpart : ∃ p : SourceRing T, (r.parts.lookup (RingEntry.src e)).getD (SourceRing.new r.quota) = p ∧
      p.cap = r.quota ∧ p.Holds (s.kept (RingEntry.src e)) := by
    cases hlookup : r.parts.lookup (RingEntry.src e) with
    | none =>
      refine ⟨SourceRing.new r.quota, rfl, rfl, ?_⟩
      rw [h.absent _ hlookup]
      exact SourceRing.holds_new (perSourceCap_pos (h.totalCap.symm ▸ hb.totalCap_pos) _)
    | some p => exact ⟨p, rfl, h.present _ p hlookup⟩
  obtain ⟨p, hp, hcap, hholds⟩ := hpart
  have hparts : (r.push e).parts = put (RingEntry.src e) (p.push e) r.parts := by
    rw [LogRing.push, hp]
  have hquota : (s.next (.push e)).quota = s.quota := rfl
  refine ⟨h.totalCap, h.sourceCount, ?_, fun src hsrc => ?_, fun src q hq => ?_, nofun⟩
  · rw [hparts]
    exact nodup_put h.nodup
  · rw [hparts, lookup_put] at hsrc
    split_ifs at hsrc with heq
    rw [Scrollback.kept_push, if_neg heq, h.absent src hsrc]
    exact List.rtake_nil _
  · rw [hparts, lookup_put] at hq
    rw [Scrollback.kept_push]
    split_ifs at hq ⊢ with heq
    · cases hq
      subst heq
      rw [SourceRing.cap_push, ← h.quota, ← hcap]
      exact ⟨hcap, hholds.push e⟩
    · rw [rtake_eq_self (hb.length_le src)]
      exact h.present src q hq

/-- New quotas reach every ring. -/
theorem Refines.recapParts (h : Refines r s) {totalCap : ℕ} (hcap : 1 ≤ totalCap) (sourceCount : ℕ) :
    Refines (LogRing.recapParts { r with totalCap, sourceCount })
      (Scrollback.trim { s with totalCap, sourceCount }) where
  totalCap := rfl
  sourceCount := rfl
  nodup := by
    rw [LogRing.recapParts, List.map_map]
    exact h.nodup
  absent src hsrc := by
    rw [LogRing.recapParts, lookup_map, Option.map_eq_none_iff] at hsrc
    rw [Scrollback.kept_trim, h.absent src hsrc]
    exact List.rtake_nil _
  present src p hp := by
    rw [LogRing.recapParts, lookup_map] at hp
    obtain ⟨q, hq, rfl⟩ := Option.map_eq_some_iff.mp hp
    exact ⟨SourceRing.cap_recap q _, (h.present src q hq).2.recap (perSourceCap_pos hcap sourceCount)⟩
  merged := nofun

theorem Refines.toArray_eq (h : Refines r s) : r.toArray.1 = mergeParts (r.parts.map Prod.snd) := by
  unfold LogRing.toArray
  split
  · next lines heq => exact h.merged lines heq
  · rfl

theorem Refines.perform (h : Refines r s) (hb : s.Bounded) (op : Op T) : Refines (perform r op) (s.next op) := by
  cases op with
  | push e => exact h.push hb e
  | setSourceCount n =>
    change Refines (r.setSourceCount n) _
    unfold LogRing.setSourceCount
    dsimp only
    split_ifs with hsame
    · have hnext : s.next (.setSourceCount n) = s := by
        rw [Scrollback.next, hsame, h.sourceCount]
        exact hb.trim_eq
      rw [hnext]
      exact h
    · have hrecap := h.recapParts (h.totalCap.symm ▸ hb.totalCap_pos) (max 1 n)
      have hnext : s.next (.setSourceCount n) =
          Scrollback.trim { s with totalCap := r.totalCap, sourceCount := max 1 n } := by
        rw [h.totalCap]
        rfl
      rw [hnext]
      exact hrecap
  | setTotalCap cap hcap =>
    change Refines (r.setTotalCap cap) _
    unfold LogRing.setTotalCap
    split_ifs with hsame
    · have hnext : s.next (.setTotalCap cap hcap) = s := by
        rw [Scrollback.next, hsame, h.totalCap]
        exact hb.trim_eq
      rw [hnext]
      exact h
    · have hrecap := h.recapParts hcap r.sourceCount
      have hnext : s.next (.setTotalCap cap hcap) =
          Scrollback.trim { s with totalCap := cap, sourceCount := r.sourceCount } := by
        rw [h.sourceCount]
        rfl
      rw [hnext]
      exact hrecap
  | clear => exact ⟨h.totalCap, h.sourceCount, List.nodup_nil, fun _ _ => rfl, nofun, nofun⟩
  | toArray =>
    have harray := h.toArray_eq
    change Refines r.toArray.2 s
    unfold LogRing.toArray at harray ⊢
    split
    · exact h
    · refine ⟨h.totalCap, h.sourceCount, h.nodup, h.absent, h.present, fun lines hlines => ?_⟩
      exact (Option.some.inj hlines).symm

/-- The buffer after the operations. -/
def LogRing.after (totalCap : ℕ) (ops : List (Op T)) : LogRing T := ops.foldl LogRings.perform (.new totalCap)

/-- What is to be kept after the operations. -/
def Scrollback.after (totalCap : ℕ) (ops : List (Op T)) : Scrollback T := ops.foldl Scrollback.next (.new totalCap)

/-- The rings hold what is kept, in every run. -/
theorem refines_run (ops : List (Op T)) (h : Refines r s) (hb : s.Bounded) :
    Refines (ops.foldl LogRings.perform r) (ops.foldl Scrollback.next s) ∧ (ops.foldl Scrollback.next s).Bounded := by
  induction ops generalizing r s with
  | nil => exact ⟨h, hb⟩
  | cons op ops ih => exact ih (h.perform hb op) (Scrollback.bounded_next hb op)

theorem Refines.held_eq (h : Refines r s) (src : String) : r.held src = s.kept src := by
  unfold LogRing.held
  cases hlookup : r.parts.lookup src with
  | none => exact (h.absent src hlookup).symm
  | some p => exact (h.present src p hlookup).2.entries_eq

/-! ## The order of the ids -/

/-- The lines that a run pushes. -/
def pushed (ops : List (Op T)) : List T := ops.filterMap fun
  | .push e => some e
  | _ => none

theorem lines_sublist (ops : List (Op T)) (s : Scrollback T) :
    (ops.foldl Scrollback.next s).lines.Sublist (s.lines ++ pushed ops) := by
  induction ops generalizing s with
  | nil => exact List.sublist_append_left _ _
  | cons op ops ih =>
    have hrest := ih (s.next op)
    cases op with
    | push e =>
      have hpushed : pushed (.push e :: ops) = e :: pushed ops := rfl
      rw [hpushed, List.append_cons]
      exact hrest
    | setSourceCount n => exact hrest
    | setTotalCap cap hcap => exact hrest
    | clear => exact hrest.trans (List.sublist_append_right _ _)
    | toArray => exact hrest

/-- Lines with increasing ids, in the order of their ids, are told apart by them. -/
theorem pairwise_lt {l : List T} (hnodup : l.Nodup) (hle : l.Pairwise fun a b => RingEntry.id a ≤ RingEntry.id b)
    (hinj : ∀ a ∈ l, ∀ b ∈ l, RingEntry.id a = RingEntry.id b → a = b) :
    l.Pairwise fun a b => RingEntry.id a < RingEntry.id b := by
  refine (List.Pairwise.and hle hnodup).imp_of_mem fun ha hb h => ?_
  exact lt_of_le_of_ne h.1 fun heq => h.2 (hinj _ ha _ hb heq)

section Merged

variable (h : Refines r s)
include h

theorem Refines.part {src : String} {p : SourceRing T} (hmem : (src, p) ∈ r.parts) : p.Holds (s.kept src) :=
  (h.present src p ((lookup_eq_some_iff h.nodup).mpr hmem)).2

theorem Refines.sound {p : SourceRing T} (hp : p ∈ r.parts.map Prod.snd) : p.Sound := by
  obtain ⟨⟨src, q⟩, hmem, rfl⟩ := List.mem_map.mp hp
  exact ⟨_, h.part hmem⟩

theorem Refines.mem_flatten (hb : s.Bounded) (e : T) :
    e ∈ ((r.parts.map Prod.snd).map SourceRing.entries).flatten ↔ e ∈ r.held (RingEntry.src e) := by
  simp only [List.mem_flatten, List.mem_map, exists_exists_and_eq_and, Prod.exists, exists_eq_right]
  rw [h.held_eq]
  constructor
  · rintro ⟨p, ⟨src, hmem⟩, he⟩
    rw [(h.part hmem).entries_eq] at he
    have hsrc := (hb.suffix src).subset he
    rw [List.mem_filter, decide_eq_true_eq] at hsrc
    rwa [hsrc.2]
  · intro he
    cases hlookup : r.parts.lookup (RingEntry.src e) with
    | none =>
      rw [h.absent _ hlookup] at he
      cases he
    | some p =>
      have hmem := (lookup_eq_some_iff h.nodup).mp hlookup
      refine ⟨p, ⟨_, hmem⟩, ?_⟩
      rwa [(h.part hmem).entries_eq]

variable (hb : s.Bounded) (hids : s.lines.Pairwise fun a b => RingEntry.id a < RingEntry.id b)
include hb hids

theorem Refines.pairwise_part {src : String} {p : SourceRing T} (hmem : (src, p) ∈ r.parts) :
    p.entries.Pairwise fun a b => RingEntry.id a < RingEntry.id b := by
  rw [(h.part hmem).entries_eq]
  exact hids.sublist ((hb.suffix src).sublist.trans List.filter_sublist)

theorem Refines.nodup_flatten : ((r.parts.map Prod.snd).map SourceRing.entries).flatten.Nodup := by
  rw [List.map_map, List.nodup_flatten]
  constructor
  · intro l hl
    obtain ⟨⟨src, p⟩, hmem, rfl⟩ := List.mem_map.mp hl
    exact (h.pairwise_part hb hids hmem).imp fun hlt heq => absurd (heq ▸ hlt) (lt_irrefl _)
  · refine List.pairwise_map.mpr ((List.pairwise_map.mp h.nodup).imp_of_mem ?_)
    rintro ⟨src, p⟩ ⟨src', p'⟩ hp hp' hne e he he'
    have hkept : e ∈ s.kept src := by
      rw [← (h.part hp).entries_eq]
      exact he
    have hkept' : e ∈ s.kept src' := by
      rw [← (h.part hp').entries_eq]
      exact he'
    have hsrc := (hb.suffix src).subset hkept
    have hsrc' := (hb.suffix src').subset hkept'
    rw [List.mem_filter, decide_eq_true_eq] at hsrc hsrc'
    exact hne (hsrc.2.symm.trans hsrc'.2)

/-- The lines of all sources, by increasing id. -/
theorem Refines.toArray_merged : r.toArray.1.Pairwise (fun a b => RingEntry.id a < RingEntry.id b) ∧
    r.toArray.1.Perm ((r.parts.map Prod.snd).map SourceRing.entries).flatten := by
  have hsound : ∀ p ∈ r.parts.map Prod.snd, p.Sound := fun p hp => h.sound hp
  have hsorted : ∀ p ∈ r.parts.map Prod.snd,
      p.entries.Pairwise fun a b => RingEntry.id a ≤ RingEntry.id b := by
    intro p hp
    obtain ⟨⟨src, q⟩, hmem, rfl⟩ := List.mem_map.mp hp
    exact (h.pairwise_part hb hids hmem).imp le_of_lt
  have hmerges := merges_mergeParts hsound hsorted
  rw [h.toArray_eq]
  have hperm := hmerges.perm
  rw [flatten_filter_size hsound] at hperm
  refine ⟨pairwise_lt (hperm.nodup_iff.mpr (h.nodup_flatten hb hids)) (hmerges.sorted fun l hl => ?_) ?_, hperm⟩
  · obtain ⟨p, hp, rfl⟩ := List.mem_map.mp hl
    exact hsorted p (List.mem_of_mem_filter hp)
  · have hline : ∀ e ∈ mergeParts (r.parts.map Prod.snd), e ∈ s.lines := by
      intro e he
      have hheld := (h.mem_flatten hb e).mp (hperm.mem_iff.mp he)
      rw [h.held_eq] at hheld
      exact List.mem_of_mem_filter ((hb.suffix _).subset hheld)
    have hne : s.lines.Pairwise fun a b => RingEntry.id a ≠ RingEntry.id b := hids.imp fun hlt => hlt.ne
    have : Std.Symm fun a b : T => RingEntry.id a ≠ RingEntry.id b := ⟨fun _ _ hab => hab.symm⟩
    intro a ha b hb' heq
    by_contra hab
    exact hne.forall (hline a ha) (hline b hb') hab heq

end Merged

/-- In every run whose lines have increasing ids each source has a suffix of its lines since the last
clear, within the quota, and it is the suffix that a source which drops its oldest lines keeps. The
array has these lines of all sources by increasing id, and the size is its length. -/
theorem ring_refines_suffixes {totalCap : ℕ} (hcap : 1 ≤ totalCap) (ops : List (Op T))
    (hids : (pushed ops).Pairwise fun a b => RingEntry.id a < RingEntry.id b) :
    (∀ src, (LogRing.after totalCap ops).held src = (Scrollback.after totalCap ops).kept src ∧
      (LogRing.after totalCap ops).held src <:+
        (Scrollback.after totalCap ops).lines.filter (fun e => RingEntry.src e = src) ∧
      ((LogRing.after totalCap ops).held src).length ≤ (LogRing.after totalCap ops).quota) ∧
    (LogRing.after totalCap ops).toArray.1.Pairwise (fun a b => RingEntry.id a < RingEntry.id b) ∧
    (∀ e, e ∈ (LogRing.after totalCap ops).toArray.1 ↔
      e ∈ (LogRing.after totalCap ops).held (RingEntry.src e)) ∧
    (LogRing.after totalCap ops).size = (LogRing.after totalCap ops).toArray.1.length := by
  have hrun : Refines (LogRing.after totalCap ops) (Scrollback.after totalCap ops) ∧
      (Scrollback.after totalCap ops).Bounded :=
    refines_run ops (refines_new totalCap) (Scrollback.bounded_new hcap)
  obtain ⟨h, hb⟩ := hrun
  have hlines : (Scrollback.after totalCap ops).lines.Sublist (pushed ops) := lines_sublist ops (.new totalCap)
  obtain ⟨hsorted, hperm⟩ := h.toArray_merged hb (hids.sublist hlines)
  refine ⟨fun src => ⟨h.held_eq src, ?_, ?_⟩, hsorted, fun e => ?_, ?_⟩
  · rw [h.held_eq]
    exact hb.suffix src
  · rw [h.held_eq, h.quota]
    exact hb.length_le src
  · rw [hperm.mem_iff]
    exact h.mem_flatten hb e
  · rw [hperm.length_eq, List.length_flatten, List.map_map, List.map_map]
    refine congrArg List.sum (List.map_congr_left fun p hp => ?_)
    exact (h.sound (List.mem_map_of_mem hp)).length_entries.symm

instance : RingEntry (ℕ × String) where
  id := Prod.fst
  src := Prod.snd

/-- One source alone, then a second one, and back to a buffer of two lines. -/
def twoSources : List (Op (ℕ × String)) :=
  [.push (1, "a"), .push (2, "a"), .push (3, "a"), .setSourceCount 2, .push (4, "b"), .toArray, .push (5, "a"),
    .setSourceCount 1]

theorem ring_refines_suffixes_twoSources :
    (LogRing.after 2 twoSources).held "a" <:+ [(1, "a"), (2, "a"), (3, "a"), (5, "a")] ∧
      (LogRing.after 2 twoSources).toArray.1 = [(3, "a"), (4, "b"), (5, "a")] ∧
      (LogRing.after 2 twoSources).size = 3 := by
  obtain ⟨hheld, -, -, hsize⟩ := ring_refines_suffixes (show 1 ≤ 2 by decide) twoSources (by decide)
  have harray : (LogRing.after 2 twoSources).toArray.1 = [(3, "a"), (4, "b"), (5, "a")] := by decide
  refine ⟨(hheld "a").2.1, harray, ?_⟩
  rw [hsize, harray]
  rfl

end FerrisScope.LogRings
