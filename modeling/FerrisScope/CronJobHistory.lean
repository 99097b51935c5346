import FerrisScope.FixedWidthText
import Mathlib.Order.WithBot

/-!
# The runs of a cron job

The jobs of a namespace are listed page by page and those that the cron job controls are kept, newest first. The number
of pages, of jobs that are looked at and of runs that are returned is bounded, and a history that may lack runs is marked.
-/

namespace FerrisScope.CronJobHistory
open FixedWidthText

abbrev Text := List Char

/-- The places of a time, from the year to the second. -/
def layout : List (ℕ × Char) := [(4, '-'), (2, '-'), (2, 'T'), (2, ':'), (2, ':'), (2, 'Z')]

/-- A time of the API, in UTC and in whole seconds. -/
structure Time where
  fields : List ℕ
  fits : Fits layout fields

theorem fields_injective : Function.Injective Time.fields := by
  rintro ⟨fields, hfits⟩ ⟨fields', hfits'⟩ rfl
  rfl

instance : LinearOrder Time := LinearOrder.lift' Time.fields fields_injective

def Time.display (t : Time) : Text := write layout t.fields

structure OwnerReference where
  uid : String
  controller : Option Bool
  deriving DecidableEq, Repr

structure JobStatus where
  startTime : Option Time

structure Job (α : Type) where
  name : Option Text
  ownerReferences : Option (List OwnerReference)
  creationTimestamp : Option Time
  status : Option JobStatus
  details : α

structure JobPage (α : Type) where
  items : List (Job α)
  continue_ : Option String

structure CronJobHistory (β : Type) where
  runs : List β
  truncated : Bool

inductive FetchError (ε : Type) where
  | kube (e : ε)
  | noJobTemplate (name : String)

def maxCronJobHistory : ℕ := 50

def historyPageSize : ℕ := 200

def maxCronJobHistoryScan : ℕ := 20 * historyPageSize

def maxCronJobHistoryPages : ℕ := 40

example : historyPageSize ≤ maxCronJobHistoryScan ∧ maxCronJobHistory ≤ maxCronJobHistoryScan := by decide

variable {α β ε : Type}

/-! ## The scan of a namespace -/

/-- The answer to each request, by its number and the token it continues with. -/
abbrev Server (α ε : Type) := ℕ → Option String → Except ε (JobPage α)

def isOwned (uid : String) (j : Job α) : Bool :=
  (j.ownerReferences.getD []).any fun o => o.uid = uid && o.controller.getD false

structure Scan (α : Type) where
  owned : List (Job α) := []
  scanned : ℕ := 0
  cursor : Option String := none
  truncated : Bool := false

/-- Where the next page continues, if there is one. -/
def JobPage.next (page : JobPage α) : Option String := page.continue_.filter fun c => c ≠ ""

def Scan.add (s : Scan α) (uid : String) (page : JobPage α) : Scan α :=
  { s with
    owned := s.owned ++ page.items.filter (isOwned uid)
    scanned := s.scanned + page.items.length
    cursor := page.next }

/-- The requests that are still made, and the scan they end with. -/
def scanPages (server : Server α ε) (uid : String) : ℕ → ℕ → Scan α → ℕ × Except ε (Scan α)
  | 0, _, s => (0, .ok s)
  | left + 1, pageNo, s =>
      match server pageNo s.cursor with
      | .error e => (1, .error e)
      | .ok page =>
          let s := s.add uid page
          if s.cursor = none then (1, .ok s)
          else if maxCronJobHistoryScan ≤ s.scanned ∨ pageNo + 1 = maxCronJobHistoryPages then
            (1, .ok { s with truncated := true })
          else
            let rest := scanPages server uid left (pageNo + 1) s
            (rest.1 + 1, rest.2)

/-! ## The order of the runs -/

/-- Nothing comes before everything. -/
def orBot {γ : Type} (o : Option γ) : WithBot γ := o.elim ⊥ fun c => c

/-- The start of a job, or else its creation. -/
def timeOf (j : Job α) : Option Time := (j.status.bind (·.startTime)).or j.creationTimestamp

def jobSortKey (j : Job α) : WithBot Text := orBot ((timeOf j).map Time.display)

def newestFirst (a b : Job α) : Bool :=
  decide (jobSortKey b < jobSortKey a ∨ jobSortKey b = jobSortKey a ∧ orBot b.name ≤ orBot a.name)

/-- The requests for pages that are made, and the history. -/
def listJobsForCronJob (cronUid : Except ε (Option String)) (server : Server α ε) (name : String) (project : Job α → β) :
    ℕ × Except (FetchError ε) (CronJobHistory β) :=
  match cronUid with
  | .error e => (0, .error (.kube e))
  | .ok none => (0, .error (.noJobTemplate name))
  | .ok (some uid) =>
      let scan := scanPages server uid maxCronJobHistoryPages 0 {}
      (scan.1, match scan.2 with
        | .error e => .error (.kube e)
        | .ok s =>
            let owned := s.owned.mergeSort newestFirst
            if maxCronJobHistory < owned.length then
              .ok ⟨(owned.take maxCronJobHistory).map project, true⟩
            else .ok ⟨owned.map project, s.truncated⟩)

/-! ## What a history says -/

/-- The jobs on the pages from this request on, up to one that does not continue. -/
inductive Lists (server : Server α ε) : ℕ → Option String → List (Job α) → Prop
  | last {n : ℕ} {cursor : Option String} {page : JobPage α} (answer : server n cursor = .ok page)
      (next : page.next = none) : Lists server n cursor page.items
  | more {n : ℕ} {cursor : Option String} {page : JobPage α} {jobs : List (Job α)} (answer : server n cursor = .ok page)
      (next : page.next ≠ none) (rest : Lists server (n + 1) page.next jobs) : Lists server n cursor (page.items ++ jobs)

def ControlledBy (uid : String) (j : Job α) : Prop :=
  ∃ o ∈ j.ownerReferences.getD [], o.controller = some true ∧ o.uid = uid

instance decidableControlledBy (uid : String) (j : Job α) : Decidable (ControlledBy uid j) :=
  inferInstanceAs (Decidable (∃ o ∈ j.ownerReferences.getD [], o.controller = some true ∧ o.uid = uid))

/-- The runs are jobs of the cron job, newest first, and all of them unless the history is marked. -/
structure Exact (server : Server α ε) (uid : String) (project : Job α → β) (h : CronJobHistory β) (jobs : List (Job α)) :
    Prop where
  runs : h.runs = jobs.map project
  owned : ∀ j ∈ jobs, ControlledBy uid j
  newest : jobs.Pairwise fun a b => orBot (timeOf b) ≤ orBot (timeOf a)
  complete : h.truncated = false → ∃ listed, Lists server 0 none listed ∧ jobs.Perm (listed.filter fun j => ControlledBy uid j)

section Scans

variable {server : Server α ε} {uid : String}

theorem isOwned_iff (uid : String) (j : Job α) : isOwned uid j = true ↔ ControlledBy uid j := by
  rw [isOwned, List.any_eq_true, ControlledBy]
  refine exists_congr fun o => and_congr_right fun _ => ?_
  rw [Bool.and_eq_true, decide_eq_true_eq, and_comm]
  cases o.controller <;> simp

theorem isOwned_eq (uid : String) : (isOwned uid : Job α → Bool) = fun j => decide (ControlledBy uid j) := by
  funext j
  rw [Bool.eq_iff_iff, isOwned_iff, decide_eq_true_eq]

theorem requests_le (left pageNo : ℕ) (s : Scan α) : (scanPages server uid left pageNo s).1 ≤ left := by
  induction left generalizing pageNo s with
  | zero => exact Nat.le_refl 0
  | succ left ih =>
    rw [scanPages]
    split
    · exact Nat.succ_le_succ (Nat.zero_le _)
    · dsimp only
      split
      · exact Nat.succ_le_succ (Nat.zero_le _)
      · split
        · exact Nat.succ_le_succ (Nat.zero_le _)
        · exact Nat.succ_le_succ (ih _ _)

/-- A scan keeps jobs of the cron job only. -/
theorem owned_scanPages {left pageNo : ℕ} {s s' : Scan α} (h : (scanPages server uid left pageNo s).2 = .ok s')
    (hs : ∀ j ∈ s.owned, ControlledBy uid j) : ∀ j ∈ s'.owned, ControlledBy uid j := by
  induction left generalizing pageNo s with
  | zero =>
    cases h
    exact hs
  | succ left ih =>
    rw [scanPages] at h
    split at h
    · cases h
    · next page hpage =>
      have hadd : ∀ j ∈ (s.add uid page).owned, ControlledBy uid j := by
        intro j hj
        rcases List.mem_append.mp hj with hj | hj
        · exact hs j hj
        · exact (isOwned_iff uid j).mp (List.mem_filter.mp hj).2
      dsimp only at h
      split at h
      · cases h
        exact hadd
      · split at h
        · cases h
          exact hadd
        · exact ih h hadd

/-- A scan that is not marked has seen the last page. -/
theorem complete_scanPages {left pageNo : ℕ} {s s' : Scan α} (h : (scanPages server uid left pageNo s).2 = .ok s')
    (hleft : 0 < left) (hpages : pageNo + left = maxCronJobHistoryPages) (hmark : s'.truncated = false) :
    ∃ listed, Lists server pageNo s.cursor listed ∧ s'.owned = s.owned ++ listed.filter (isOwned uid) := by
  induction left generalizing pageNo s with
  | zero => exact absurd hleft (Nat.lt_irrefl 0)
  | succ left ih =>
    rw [scanPages] at h
    split at h
    · cases h
    · next page hpage =>
      dsimp only at h
      split at h
      · next hlast =>
        cases h
        exact ⟨page.items, .last hpage hlast, rfl⟩
      · next hmore =>
        split at h
        · cases h
          cases hmark
        · next hbound =>
          rw [not_or] at hbound
          obtain ⟨listed, hlisted, howned⟩ := ih h (by omega) (by omega)
          refine ⟨page.items ++ listed, .more hpage hmore hlisted, ?_⟩
          rw [howned, Scan.add, List.filter_append, List.append_assoc]

end Scans

section Orders

theorem display_le_iff {t u : Time} : t.display ≤ u.display ↔ t ≤ u := write_le_iff t.fits u.fits

/-- The texts of times are in the order of the times. -/
theorem sortKey_le_iff {a b : Job α} : jobSortKey a ≤ jobSortKey b ↔ orBot (timeOf a) ≤ orBot (timeOf b) := by
  rw [jobSortKey, jobSortKey]
  cases timeOf a with
  | none => exact iff_of_true bot_le bot_le
  | some t =>
    cases timeOf b with
    | none => exact iff_of_false (WithBot.not_coe_le_bot _) (WithBot.not_coe_le_bot _)
    | some u => exact WithBot.coe_le_coe.trans (display_le_iff.trans WithBot.coe_le_coe.symm)

theorem newestFirst_trans (a b c : Job α) (hab : newestFirst a b = true) (hbc : newestFirst b c = true) :
    newestFirst a c = true := by
  rw [newestFirst, decide_eq_true_eq] at hab hbc ⊢
  rcases hab with hab | ⟨hkey, hname⟩
  · rcases hbc with hbc | ⟨hkey, -⟩
    · exact Or.inl (hbc.trans hab)
    · exact Or.inl (hkey ▸ hab)
  · rcases hbc with hbc | ⟨hkey', hname'⟩
    · exact Or.inl (hkey ▸ hbc)
    · exact Or.inr ⟨hkey'.trans hkey, hname'.trans hname⟩

theorem newestFirst_total (a b : Job α) : (newestFirst a b || newestFirst b a) = true := by
  rw [Bool.or_eq_true, newestFirst, decide_eq_true_eq, newestFirst, decide_eq_true_eq]
  rcases lt_trichotomy (jobSortKey a) (jobSortKey b) with hlt | heq | hgt
  · exact Or.inr (Or.inl hlt)
  · rcases le_total (orBot a.name) (orBot b.name) with hname | hname
    · exact Or.inr (Or.inr ⟨heq, hname⟩)
    · exact Or.inl (Or.inr ⟨heq.symm, hname⟩)
  · exact Or.inl (Or.inl hgt)

theorem newest_mergeSort (jobs : List (Job α)) :
    (jobs.mergeSort newestFirst).Pairwise fun a b => orBot (timeOf b) ≤ orBot (timeOf a) := by
  refine (List.pairwise_mergeSort newestFirst_trans newestFirst_total jobs).imp fun {a b} hab => ?_
  rw [newestFirst, decide_eq_true_eq] at hab
  rw [← sortKey_le_iff]
  rcases hab with hlt | ⟨heq, -⟩
  · exact hlt.le
  · exact heq.le

end Orders

/-- No more pages are requested than allowed, and a history is exact unless it is marked. -/
theorem history_exact (cronUid : Except ε (Option String)) (server : Server α ε) (name : String) (project : Job α → β) :
    (listJobsForCronJob cronUid server name project).1 ≤ maxCronJobHistoryPages ∧
      ∀ h, (listJobsForCronJob cronUid server name project).2 = .ok h →
        ∃ uid jobs, cronUid = .ok (some uid) ∧ Exact server uid project h jobs := by
  match cronUid with
  | .error e => exact ⟨Nat.zero_le _, fun h hh => by cases hh⟩
  | .ok none => exact ⟨Nat.zero_le _, fun h hh => by cases hh⟩
  | .ok (some uid) =>
    rw [listJobsForCronJob]
    refine ⟨requests_le _ _ _, fun h hh => ?_⟩
    dsimp only at hh
    split at hh
    · cases hh
    · next s hs =>
      have howned : ∀ j ∈ s.owned.mergeSort newestFirst, ControlledBy uid j := fun j hj =>
        owned_scanPages hs (fun _ hnil => by cases hnil) j (List.mem_mergeSort.mp hj)
      have hnewest := newest_mergeSort s.owned
      split at hh
      · cases hh
        refine ⟨uid, _, rfl, rfl, fun j hj => howned j (List.mem_of_mem_take hj), hnewest.take, fun hmark => ?_⟩
        cases hmark
      · cases hh
        refine ⟨uid, _, rfl, rfl, howned, hnewest, fun hmark => ?_⟩
        obtain ⟨listed, hlisted, heq⟩ := complete_scanPages hs (by decide) (by decide) hmark
        refine ⟨listed, hlisted, (List.mergeSort_perm _ _).trans ?_⟩
        rw [heq, List.nil_append, isOwned_eq]

end FerrisScope.CronJobHistory
