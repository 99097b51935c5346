import Mathlib.Order.Lattice
import Mathlib.Order.BoundedOrder.Lattice
import FerrisScope.PermissionReviewsRuns

/-!
# Permission answers and the authorizer

The verdicts of a check are combined as in Kleene's logic: a plan is the least of its `all`
attributes and of the greatest of its groups. Over an authorizer that is additive a verdict says
what the authorizer says, or that a review failed; when none fails and nothing is invalidated
meanwhile, the answers are the authorizer's own.
-/

namespace FerrisScope.PermissionReviews
open KeyedWrites LabelledRuns

inductive Certainty where
  | denied
  | unknown
  | allowed
  deriving DecidableEq, Repr

namespace Certainty

def rank : Certainty → ℕ
  | .denied => 0
  | .unknown => 1
  | .allowed => 2

theorem rank_injective : Function.Injective rank := by
  intro a b h
  cases a <;> cases b <;> first | rfl | cases h

/-- A denial is below an unknown, which is below an allow. -/
instance : LinearOrder Certainty := LinearOrder.lift' rank rank_injective

theorem denied_le (c : Certainty) : .denied ≤ c := Nat.zero_le c.rank

theorem le_allowed (c : Certainty) : c ≤ .allowed := by
  cases c <;> decide

end Certainty

def Verdict.certainty : Verdict → Certainty
  | .allowed => .allowed
  | .denied => .denied
  | .unknown _ => .unknown

def Access.certainty : Access → Certainty
  | .allowed => .allowed
  | .denied _ => .denied
  | .unknown _ => .unknown

/-- The least verdict of the attributes. -/
def leastOf (v : Attr → Verdict) (attrs : List Attr) : Certainty :=
  attrs.foldr (fun a c => min (v a).certainty c) .allowed

/-- The greatest verdict of the groups. -/
def greatestOf (v : Attr → Verdict) (groups : List (List Attr)) : Certainty :=
  groups.foldr (fun g c => max (leastOf v g) c) .denied

def Plan.certainty (v : Attr → Verdict) (p : Plan) : Certainty :=
  if p.any.isEmpty then leastOf v p.all else min (leastOf v p.all) (greatestOf v p.any)

/-- A request without a plan stays unknown. -/
def planCertainty (v : Attr → Verdict) : Except String Plan → Certainty
  | .ok p => p.certainty v
  | .error _ => .unknown

def blockerCertainty : Except Attr (Option String) → Certainty
  | .error _ => .denied
  | .ok (some _) => .unknown
  | .ok none => .allowed

theorem firstBlocker_certainty (v : Attr → Verdict) (attrs : List Attr) :
    blockerCertainty (firstBlocker attrs v) = leastOf v attrs := by
  have hfold : ∀ acc, blockerCertainty (attrs.foldl (blockerStep v) acc) =
      min (blockerCertainty acc) (leastOf v attrs) := by
    induction attrs with
    | nil => exact fun acc => (min_eq_left (Certainty.le_allowed _)).symm
    | cons a attrs ih =>
      intro acc
      have hcons : leastOf v (a :: attrs) = min (v a).certainty (leastOf v attrs) := rfl
      rw [List.foldl_cons, ih, hcons, ← min_assoc]
      congr 1
      unfold blockerStep
      cases hv : v a <;> rcases acc with b | _ | e <;> rfl
  rw [firstBlocker, hfold]
  exact min_eq_right (Certainty.le_allowed _)

def unknownCertainty : Option String → Certainty
  | some _ => .unknown
  | none => .denied

/-- What a scan of the groups has found. -/
def scanCertainty (found : Bool × Option Attr × Option String) : Certainty :=
  if found.1 then .allowed else unknownCertainty found.2.2

theorem scanGroups_certainty (v : Attr → Verdict) (groups : List (List Attr)) (d : Option Attr)
    (u : Option String) :
    scanCertainty (scanGroups v groups d u) = max (unknownCertainty u) (greatestOf v groups) := by
  induction groups generalizing d u with
  | nil => cases u <;> rfl
  | cons g groups ih =>
    have hblock := firstBlocker_certainty v g
    have hcons : greatestOf v (g :: groups) = max (leastOf v g) (greatestOf v groups) := rfl
    rw [hcons, ← hblock]
    cases hb : firstBlocker g v with
    | error a =>
      simp only [scanGroups, hb, ih, blockerCertainty]
      rw [max_eq_right (Certainty.denied_le (greatestOf v groups))]
    | ok unknown =>
      cases unknown with
      | none =>
        simp only [scanGroups, hb, blockerCertainty, scanCertainty, if_true]
        rw [max_eq_left (Certainty.le_allowed (greatestOf v groups)),
          max_eq_right (Certainty.le_allowed _)]
      | some e =>
        simp only [scanGroups, hb, ih, blockerCertainty, ← max_assoc]
        cases u <;> rfl

/-- A scan that found no allowed group has found a reason. -/
theorem scanGroups_reason {v : Attr → Verdict} {groups : List (List Attr)} {d : Option Attr}
    {u : Option String} (h : groups ≠ [] ∨ d ≠ none ∨ u ≠ none) :
    scanGroups v groups d u ≠ (false, none, none) := by
  induction groups generalizing d u with
  | nil =>
    rcases h with h | h | h
    · exact absurd rfl h
    · simp [scanGroups, h]
    · simp [scanGroups, h]
  | cons g groups ih =>
    simp only [scanGroups]
    split
    · simp
    · exact ih (.inr (.inr (by cases u <;> simp)))
    · exact ih (.inr (.inl (by cases d <;> simp)))

theorem combine_certainty (p : Plan) (v : Attr → Verdict) :
    (combine p v).certainty = p.certainty v := by
  have hall := firstBlocker_certainty v p.all
  unfold combine Plan.certainty
  cases hb : firstBlocker p.all v with
  | error a =>
    rw [hb] at hall
    have hdenied : leastOf v p.all = .denied := hall.symm
    dsimp only
    rw [hdenied, min_eq_left (Certainty.denied_le _), ite_self]
    rfl
  | ok unknown =>
    rw [hb] at hall
    have hacc : (accessOf unknown).certainty = leastOf v p.all := by
      rw [← hall]
      cases unknown <;> rfl
    dsimp only
    split_ifs with hempty
    · exact hacc
    · have hne : p.any ≠ [] := fun h => hempty (by simp [h])
      have hscan := scanGroups_certainty v p.any none none
      rw [unknownCertainty, max_eq_right (Certainty.denied_le _)] at hscan
      have hreason := scanGroups_reason (v := v) (d := none) (u := none) (.inl hne)
      rw [← hscan, ← hacc]
      generalize scanGroups v p.any none none = found at hreason
      obtain ⟨allowed, d, u⟩ := found
      cases allowed with
      | true => exact (min_eq_left (Certainty.le_allowed _)).symm
      | false =>
        cases u with
        | some e => cases unknown <;> rfl
        | none =>
          cases d with
          | none => exact absurd rfl hreason
          | some a => cases unknown <;> rfl

theorem leastOf_eq_allowed {v : Attr → Verdict} {attrs : List Attr} :
    leastOf v attrs = .allowed ↔ ∀ a ∈ attrs, (v a).certainty = .allowed := by
  induction attrs with
  | nil => simp [leastOf]
  | cons a attrs ih =>
    have hcons : leastOf v (a :: attrs) = min (v a).certainty (leastOf v attrs) := rfl
    rw [hcons, List.forall_mem_cons, ← ih]
    cases (v a).certainty <;> cases leastOf v attrs <;> decide

theorem greatestOf_eq_allowed {v : Attr → Verdict} {groups : List (List Attr)} :
    greatestOf v groups = .allowed ↔ ∃ g ∈ groups, leastOf v g = .allowed := by
  induction groups with
  | nil => simp [greatestOf]
  | cons g groups ih =>
    have hcons : greatestOf v (g :: groups) = max (leastOf v g) (greatestOf v groups) := rfl
    rw [hcons, List.exists_mem_cons_iff, ← ih]
    cases leastOf v g <;> cases greatestOf v groups <;> decide

/-- An attribute that asks for at least as much. -/
structure Covers (b a : Attr) : Prop where
  verb : b.verb = a.verb
  group : b.group = a.group
  resource : b.resource = a.resource
  subresource : b.subresource = a.subresource
  ns : b.ns = "" ∨ b.ns = a.ns
  name : b.name = "" ∨ b.name = a.name

def Additive (auth : Attr → Bool) : Prop := ∀ a b, Covers b a → auth b = true → auth a = true

theorem covers_of_mem_broadening {a b : Attr} (h : b ∈ a.broadening) : Covers b a := by
  rcases mem_broadening.mp h with ⟨-, rfl⟩ | ⟨-, rfl⟩ | rfl
  · exact ⟨rfl, rfl, rfl, rfl, .inl rfl, .inl rfl⟩
  · exact ⟨rfl, rfl, rfl, rfl, .inr rfl, .inl rfl⟩
  · exact ⟨rfl, rfl, rfl, rfl, .inr rfl, .inr rfl⟩

/-- A review that answers says what the authorizer says. -/
def Reviewed.Agrees (allowed : Bool) : Reviewed → Prop
  | .allowed => allowed = true
  | .denied => allowed = false
  | .inconclusive => allowed = false
  | .unsupported _ => True
  | .failed _ => True

instance (allowed : Bool) : (reviewed : Reviewed) → Decidable (reviewed.Agrees allowed)
  | .allowed => inferInstanceAs (Decidable (_ = _))
  | .denied => inferInstanceAs (Decidable (_ = _))
  | .inconclusive => inferInstanceAs (Decidable (_ = _))
  | .unsupported _ => .isTrue trivial
  | .failed _ => .isTrue trivial

def Reviewed.Answers : Reviewed → Prop
  | .unsupported _ => False
  | .failed _ => False
  | _ => True

variable {Req : Type} {plan : Req → Except String Plan} {auth : Attr → Bool}

/-- Reviews that answer agree with the authorizer. -/
def Agreeing (auth : Attr → Bool) (s : State) : Action Req → Prop
  | .answer id reviewed => ∀ r ∈ s.reviews[id]?, reviewed.Agrees (auth r.attr)
  | _ => True

instance (s : State) : (a : Action Req) → Decidable (Agreeing auth s a)
  | .answer id _ => Option.decidableForallMem s.reviews[id]?
  | .tick _ => .isTrue trivial
  | .check _ => .isTrue trivial
  | .advance _ _ => .isTrue trivial
  | .commit _ => .isTrue trivial
  | .abort _ => .isTrue trivial
  | .invalidate => .isTrue trivial

/-- Every review answers. -/
def Answering (_ : State) : Action Req → Prop
  | .answer _ reviewed => reviewed.Answers
  | .abort _ => False
  | _ => True

/-- Where a review after a step comes from. -/
inductive Origin (s : State) (a : Action Req) (id : ℕ) (r' : Review) : Prop where
  | launched (h : r'.phase = .running)
  | same (h : s.reviews[id]? = some r')
  | answered (r : Review) (reviewed : Reviewed) (hr : s.reviews[id]? = some r)
      (ha : a = .answer id reviewed) (h : r' = { r with phase := .answered reviewed s.now })
  | finished (r : Review) (reviewed : Reviewed) (now : ℕ) (hr : s.reviews[id]? = some r)
      (hp : r.phase = .answered reviewed now) (h : r' = { r with phase := .finished reviewed now })
  | aborted (r : Review) (hr : s.reviews[id]? = some r) (ha : a = .abort id ∨ a = .invalidate)
      (h : r' = { r with phase := .aborted })

theorem origin_setPhase {s : State} {a : Action Req} {i id : ℕ} {r' : Review} {phase : ReviewPhase}
    (hr' : (s.setPhase i phase).reviews[id]? = some r')
    (hset : ∀ r, s.reviews[i]? = some r → Origin s a i { r with phase := phase }) :
    Origin s a id r' := by
  obtain ⟨r, hr, ⟨rfl, rfl⟩ | ⟨-, rfl⟩⟩ := getElem?_setPhase hr'
  · exact hset r hr
  · exact .same hr

theorem commit_fields (s : State) (id : ℕ) (r : Review) (reviewed : Reviewed) (now : ℕ) :
    (s.commit id r reviewed now).reviews = (s.setPhase id (.finished reviewed now)).reviews ∧
      (s.commit id r reviewed now).generation = s.generation ∧
      (s.commit id r reviewed now).checks = s.checks := by
  unfold State.commit
  dsimp only
  split_ifs
  · split
    · exact ⟨rfl, rfl, rfl⟩
    · exact remember_fields _ _ _
    · exact ⟨rfl, rfl, rfl⟩
  · exact ⟨rfl, rfl, rfl⟩

/-- A resolver changes the cache by a launch or by remembering an inferred answer. -/
theorem advance_state {s s' : State} {slot slot' : Slot} (h : advance s slot = some (s', slot')) :
    s' = s ∨ (∃ attr, s' = s.launch attr) ∨ ∃ attr hit, s' = s.remember attr hit := by
  unfold advance at h
  split at h
  · split at h <;> cases h <;> exact .inl rfl
  · cases h
    exact .inl rfl
  · next candidate rest _ =>
    split at h
    · cases h
      exact .inl rfl
    · split at h
      · cases h
        exact .inl rfl
      · split at h <;> cases h
        · exact .inl rfl
        · exact .inr (.inl ⟨candidate, rfl⟩)
  · obtain ⟨answer, -, heq⟩ := Option.map_eq_some_iff.mp h
    cases heq
    exact .inl rfl
  · next generation candidate hit _ =>
    cases h
    split_ifs
    · exact .inr (.inr ⟨_, hit, rfl⟩)
    · exact .inl rfl
  · cases h

theorem advance_fields {s s' : State} {slot slot' : Slot} (h : advance s slot = some (s', slot')) :
    s'.generation = s.generation ∧ s'.checks = s.checks ∧
      (s'.reviews = s.reviews ∨ ∃ attr, s'.reviews = (s.launch attr).reviews) := by
  rcases advance_state h with rfl | ⟨attr, rfl⟩ | ⟨attr, hit, rfl⟩
  · exact ⟨rfl, rfl, .inl rfl⟩
  · exact ⟨rfl, rfl, .inr ⟨attr, rfl⟩⟩
  · obtain ⟨hr, hg, hc⟩ := remember_fields s attr hit
    exact ⟨hg, hc, .inl hr⟩

theorem origin_of_step {s s' : State} {a : Action Req} (hs : step plan s a = some s') {id : ℕ}
    {r' : Review} (hr' : s'.reviews[id]? = some r') : Origin s a id r' := by
  cases step_inv hs with
  | tick => exact .same hr'
  | check => exact .same hr'
  | advance _ _ hadv =>
    rcases (advance_fields hadv).2.2 with heq | ⟨attr, heq⟩
    · exact .same (heq ▸ hr')
    · have hmem : (s.launch attr).reviews[id]? = some r' := heq ▸ hr'
      by_cases hlt : id < s.reviews.length
      · rw [State.launch, List.getElem?_append_left hlt] at hmem
        exact .same hmem
      · rw [State.launch, List.getElem?_append_right (not_lt.mp hlt)] at hmem
        have hin := List.mem_of_getElem? hmem
        rw [List.mem_singleton] at hin
        exact .launched (by rw [hin])
  | answer _ reviewed => exact origin_setPhase hr' fun r hr => .answered r reviewed hr rfl rfl
  | @commit _ attr generation reviewed now hr =>
    rw [(commit_fields _ _ _ _ _).1] at hr'
    refine origin_setPhase hr' fun r hri => ?_
    obtain rfl := Option.some.inj (hr.symm.trans hri)
    exact .finished _ reviewed now hr rfl rfl
  | abort _ => exact origin_setPhase hr' fun r hr => .aborted r hr (.inl rfl) rfl
  | invalidate =>
    obtain ⟨r, hr, ⟨-, -, rfl⟩ | ⟨-, rfl⟩⟩ := getElem?_drainFlights hr'
    · exact .aborted r hr (.inr rfl) rfl
    · exact .same hr

/-- A review has come to the outcome. -/
def Review.Came (r : Review) (reviewed : Reviewed) : Prop :=
  ∃ now, r.phase = .answered reviewed now ∨ r.phase = .finished reviewed now

/-- The outcomes of all reviews so far. -/
def Outcomes (P : Attr → Reviewed → Prop) (s : State) : Prop :=
  ∀ (id : ℕ) (r : Review) (reviewed : Reviewed), s.reviews[id]? = some r → r.Came reviewed → P r.attr reviewed

theorem outcomes_step {P : Attr → Reviewed → Prop} {s s' : State} {a : Action Req}
    (ha : ∀ id reviewed r, a = .answer id reviewed → s.reviews[id]? = some r → P r.attr reviewed)
    (h : Outcomes P s) (hs : step plan s a = some s') : Outcomes P s' := by
  rintro id r' reviewed hr' ⟨now, hcame⟩
  cases origin_of_step hs hr' with
  | launched hp => simp [hp] at hcame
  | same hr => exact h id r' reviewed hr ⟨now, hcame⟩
  | answered r given hr hact heq =>
    subst heq
    rcases hcame with hcame | hcame
    · cases hcame
      exact ha id _ r hact hr
    · cases hcame
  | finished r given then_ hr hp heq =>
    subst heq
    rcases hcame with hcame | hcame
    · cases hcame
    · cases hcame
      exact h id r _ hr ⟨_, .inl hp⟩
  | aborted r hr _ heq =>
    subst heq
    rcases hcame with hcame | hcame <;> cases hcame

theorem outcomes_start (P : Attr → Reviewed → Prop) : Outcomes P State.start := by
  intro id r reviewed hr
  simp [State.start] at hr

theorem agrees_of_run {s : State} {as : List (Action Req)}
    (hm : Meets (step plan) (Agreeing auth) State.start as)
    (h : run (step plan) State.start as = some s) :
    Outcomes (fun a reviewed => reviewed.Agrees (auth a)) s := by
  refine run_invariant_meets (fun u a t hc hinv hst => ?_) hm (outcomes_start _) h
  refine outcomes_step (fun id reviewed r ha hr => ?_) hinv hst
  subst ha
  exact hc r hr

/-- Every review answers, and only reviews from before an invalidation are aborted. -/
structure Answered (s : State) : Prop where
  answers : Outcomes (fun _ reviewed => reviewed.Answers) s
  aborted : ∀ (id : ℕ) (r : Review), s.reviews[id]? = some r → r.phase = .aborted →
    r.generation < s.generation

theorem generation_step {s s' : State} {a : Action Req} (hs : step plan s a = some s') :
    s.generation ≤ s'.generation ∧ (a = .invalidate → s.generation < s'.generation) := by
  cases step_inv hs with
  | tick => exact ⟨le_rfl, fun h => by cases h⟩
  | check => exact ⟨le_rfl, fun h => by cases h⟩
  | advance _ _ hadv => exact ⟨(advance_fields hadv).1.ge, fun h => by cases h⟩
  | answer => exact ⟨le_rfl, fun h => by cases h⟩
  | commit => exact ⟨(commit_fields _ _ _ _ _).2.1.ge, fun h => by cases h⟩
  | abort => exact ⟨le_rfl, fun h => by cases h⟩
  | invalidate => exact ⟨Nat.le_succ _, fun _ => Nat.lt_succ_self _⟩

theorem answered_step {s s' : State} {a : Action Req} (hbound : Sound s) (ha : Answering s a)
    (h : Answered s) (hs : step plan s a = some s') : Answered s' := by
  constructor
  · refine outcomes_step (fun id reviewed r hact _ => ?_) h.answers hs
    subst hact
    exact ha
  · intro id r' hr' hp
    obtain ⟨hle, hlt⟩ := generation_step hs
    cases origin_of_step hs hr' with
    | launched hrun => cases hrun.symm.trans hp
    | same hr => exact (h.aborted id r' hr hp).trans_le hle
    | answered r given hr hact heq =>
      subst heq
      cases hp
    | finished r given now hr hpr heq =>
      subst heq
      cases hp
    | aborted r hr hact heq =>
      subst heq
      rcases hact with hact | hact
      · subst hact
        exact ha.elim
      · exact (hbound.bounded id r hr).trans_lt (hlt hact)

theorem answered_of_run {s : State} {as : List (Action Req)}
    (hm : Meets (step plan) Answering State.start as)
    (h : run (step plan) State.start as = some s) : Answered s := by
  have hstart : Invariant State.start ∧ Answered State.start :=
    ⟨invariant_start, outcomes_start _, fun id r hr => by simp [State.start] at hr⟩
  exact (run_invariant_meets (fun u a t hc hinv hst =>
    And.intro (invariant_step hinv.1 hst) (answered_step hinv.1.sound hc hinv.2 hst)) hm hstart h).2

/-- A verdict that claims nothing the authorizer does not say. -/
def Verdict.Sound (allowed : Bool) : Verdict → Prop
  | .allowed => allowed = true
  | .denied => allowed = false
  | .unknown _ => True

theorem answer_agrees {s : State} (hagree : Outcomes (fun a reviewed => reviewed.Agrees (auth a)) s)
    {g : ℕ} {attr : Attr} {hit : Hit} (hgave : Gave s.reviews g attr hit) :
    ∃ b ∈ attr.broadening, (hit.allowed = false → b = attr) ∧ auth b = hit.allowed := by
  obtain ⟨r, reviewed, now, hr, -, hmem, hdenied, hphase, hans⟩ := hgave
  refine ⟨r.attr, hmem, hdenied, ?_⟩
  have hcame := hagree hit.review r reviewed hr ⟨now, .inr hphase⟩
  cases reviewed <;> simp only [answerOf, Except.ok.injEq, reduceCtorEq] at hans <;> rw [← hans] <;>
    exact hcame

theorem sound_of_supported {s : State} (hadd : Additive auth)
    (hagree : Outcomes (fun a reviewed => reviewed.Agrees (auth a)) s) {attr : Attr}
    {basis : List ℕ} {v : Verdict} (h : Supported s.reviews attr basis v) : v.Sound (auth attr) := by
  cases v with
  | unknown e => trivial
  | allowed =>
    obtain ⟨hit, -, hallowed, hgave⟩ := h
    obtain ⟨b, hmem, -, hauth⟩ := answer_agrees hagree hgave
    exact hadd attr b (covers_of_mem_broadening hmem) (hauth.trans hallowed)
  | denied =>
    obtain ⟨hit, -, hdenied, hgave⟩ := h
    obtain ⟨b, -, hsame, hauth⟩ := answer_agrees hagree hgave
    obtain rfl := hsame hdenied
    exact hauth.trans hdenied

/-- A review of the current generation does not fail when all answer. -/
theorem not_failed {s : State} (h : Answered s) {g id : ℕ} {e : String} (hg : s.generation ≤ g)
    (hf : Failed s.reviews g e id) : False := by
  obtain ⟨r, hr, hgen, hout⟩ := hf
  cases hphase : r.phase with
  | running => simp [Review.output, hphase] at hout
  | answered reviewed now => simp [Review.output, hphase] at hout
  | aborted =>
    have hold := h.aborted id r hr hphase
    omega
  | finished reviewed now =>
    have hans := h.answers id r reviewed hr ⟨now, .inr hphase⟩
    cases reviewed <;> simp [Review.output, hphase, answerOf] at hout <;> exact hans

theorem mem_uniqAttrs {plans : List (Except String Plan)} {p : Plan} (hp : .ok p ∈ plans) {a : Attr}
    (ha : a ∈ p.all ∨ ∃ g ∈ p.any, a ∈ g) : a ∈ uniqAttrs plans := by
  have hfold : ∀ (l uniq : List Attr), a ∈ uniq ∨ a ∈ l →
      a ∈ l.foldl (fun uniq a => if a ∈ uniq then uniq else uniq ++ [a]) uniq := by
    intro l
    induction l with
    | nil => exact fun uniq h => h.resolve_right (by simp)
    | cons x l ih =>
      intro uniq h
      apply ih
      dsimp only
      rcases h with h | h
      · left
        split_ifs
        · exact h
        · exact List.mem_append_left _ h
      · rcases List.mem_cons.mp h with rfl | h
        · left
          split_ifs with hin
          · exact hin
          · simp
        · exact .inr h
  refine hfold _ [] (.inr (List.mem_flatMap.mpr ⟨.ok p, hp, ?_⟩))
  simpa using ha

def Plan.attrs (p : Plan) : List Attr := p.all ++ p.any.flatten

/-- What the authorizer allows of a plan. -/
def Plan.AllowedBy (auth : Attr → Bool) (p : Plan) : Prop :=
  (∀ a ∈ p.all, auth a = true) ∧ (p.any ≠ [] → ∃ g ∈ p.any, ∀ a ∈ g, auth a = true)

/-- The answer is the authorizer's. A request without a plan is answered with its error. -/
def Decides (auth : Attr → Bool) : Except String Plan → Access → Prop
  | .ok p, answer => (p.AllowedBy auth → answer = .allowed) ∧
      (¬ p.AllowedBy auth → ∃ reason, answer = .denied reason)
  | .error e, answer => answer = .unknown e

theorem leastOf_ne_unknown {v : Attr → Verdict} {attrs : List Attr}
    (h : ∀ a ∈ attrs, (v a).certainty ≠ .unknown) : leastOf v attrs ≠ .unknown := by
  induction attrs with
  | nil => simp [leastOf]
  | cons a attrs ih =>
    have hcons : leastOf v (a :: attrs) = min (v a).certainty (leastOf v attrs) := rfl
    have ha := h a List.mem_cons_self
    have hrest := ih fun b hb => h b (List.mem_cons_of_mem a hb)
    rw [hcons]
    rcases min_choice (v a).certainty (leastOf v attrs) with heq | heq <;> rw [heq] <;> assumption

theorem greatestOf_ne_unknown {v : Attr → Verdict} {groups : List (List Attr)}
    (h : ∀ g ∈ groups, leastOf v g ≠ .unknown) : greatestOf v groups ≠ .unknown := by
  induction groups with
  | nil => simp [greatestOf]
  | cons g groups ih =>
    have hcons : greatestOf v (g :: groups) = max (leastOf v g) (greatestOf v groups) := rfl
    have hg := h g List.mem_cons_self
    have hrest := ih fun b hb => h b (List.mem_cons_of_mem g hb)
    rw [hcons]
    rcases max_choice (leastOf v g) (greatestOf v groups) with heq | heq <;> rw [heq] <;> assumption

theorem plan_ne_unknown {v : Attr → Verdict} {p : Plan}
    (h : ∀ a ∈ p.attrs, (v a).certainty ≠ .unknown) : p.certainty v ≠ .unknown := by
  have hall : leastOf v p.all ≠ .unknown :=
    leastOf_ne_unknown fun a ha => h a (List.mem_append_left _ ha)
  have hany : greatestOf v p.any ≠ .unknown := greatestOf_ne_unknown fun g hg =>
    leastOf_ne_unknown fun a ha =>
      h a (List.mem_append_right _ (List.mem_flatten.mpr ⟨g, hg, ha⟩))
  unfold Plan.certainty
  split_ifs
  · exact hall
  · rcases min_choice (leastOf v p.all) (greatestOf v p.any) with heq | heq <;> rw [heq] <;>
      assumption

theorem plan_eq_allowed {v : Attr → Verdict} {p : Plan}
    (h : ∀ a ∈ p.attrs, ((v a).certainty = .allowed ↔ auth a = true)) :
    p.certainty v = .allowed ↔ p.AllowedBy auth := by
  have hleast : ∀ attrs, (∀ a ∈ attrs, a ∈ p.attrs) →
      (leastOf v attrs = .allowed ↔ ∀ a ∈ attrs, auth a = true) := by
    intro attrs hsub
    rw [leastOf_eq_allowed]
    exact forall₂_congr fun a ha => h a (hsub a ha)
  have hall := hleast p.all fun a ha => List.mem_append_left _ ha
  have hany : greatestOf v p.any = .allowed ↔ ∃ g ∈ p.any, ∀ a ∈ g, auth a = true := by
    rw [greatestOf_eq_allowed]
    refine exists_congr fun g => and_congr_right fun hg => hleast g fun a ha => ?_
    exact List.mem_append_right _ (List.mem_flatten.mpr ⟨g, hg, ha⟩)
  have hmin : ∀ c d : Certainty, min c d = .allowed ↔ c = .allowed ∧ d = .allowed := by
    intro c d
    cases c <;> cases d <;> decide
  unfold Plan.certainty Plan.AllowedBy
  split_ifs with hempty
  · have hnil : p.any = [] := List.isEmpty_iff.mp hempty
    rw [hall]
    simp [hnil]
  · have hne : p.any ≠ [] := fun hnil => hempty (by simp [hnil])
    rw [hmin, hall, hany]
    simp [hne]

theorem decides_of_certainty {v : Attr → Verdict} {plan : Except String Plan}
    (h : ∀ p, plan = .ok p → ∀ a ∈ p.attrs,
      (v a).certainty ≠ .unknown ∧ ((v a).certainty = .allowed ↔ auth a = true)) :
    Decides auth plan (answerPlan v plan) := by
  cases plan with
  | error e => rfl
  | ok p =>
    have hattrs := h p rfl
    have hcomb := combine_certainty p v
    have hne := plan_ne_unknown fun a ha => (hattrs a ha).1
    have hiff := plan_eq_allowed fun a ha => (hattrs a ha).2
    rw [← hcomb] at hne hiff
    constructor
    · intro hallowed
      have hcert := hiff.mpr hallowed
      change combine p v = .allowed
      cases hc : combine p v <;> rw [hc] at hcert <;> first | rfl | cases hcert
    · intro hnot
      have hcert := mt hiff.mp hnot
      change ∃ reason, combine p v = .denied reason
      cases hc : combine p v with
      | allowed => rw [hc] at hcert; exact absurd rfl hcert
      | denied reason => exact ⟨reason, rfl⟩
      | unknown e => rw [hc] at hne; exact absurd rfl hne

theorem advance_attr {s s' : State} {slot slot' : Slot} (h : advance s slot = some (s', slot')) :
    slot'.attr = slot.attr := by
  unfold advance at h
  split at h
  · split at h <;> cases h <;> rfl
  · cases h
    rfl
  · split at h
    · cases h
      rfl
    · split at h
      · cases h
        rfl
      · split at h <;> cases h <;> rfl
  · obtain ⟨answer, -, heq⟩ := Option.map_eq_some_iff.mp h
    cases heq
    rfl
  · cases h
    rfl
  · cases h

/-- A check has one slot for each attribute of its plans. -/
def Covered (s : State) : Prop :=
  ∀ c ∈ s.checks, c.slots.map Slot.attr = uniqAttrs c.plans

theorem covered_step {s s' : State} {a : Action Req} (h : Covered s)
    (hs : step plan s a = some s') : Covered s' := by
  cases step_inv hs with
  | tick => exact h
  | check requests =>
    intro c hc
    rcases List.mem_append.mp hc with hc | hc
    · exact h c hc
    · obtain rfl := List.mem_singleton.mp hc
      rw [List.map_map]
      conv_rhs => rw [← List.map_id (uniqAttrs _)]
      refine List.map_congr_left fun attr _ => ?_
      simp only [Function.comp_apply, lookupSlot, id]
      split <;> rfl
  | @advance i j c slot t slot' hc hslot hadv =>
    intro d hd
    rcases List.mem_or_eq_of_mem_set hd with hd | rfl
    · exact h d hd
    · rw [← h c (List.mem_of_getElem? hc)]
      apply List.ext_getElem?
      intro k
      by_cases hk : j = k
      · subst hk
        obtain ⟨hlt, hget⟩ := List.getElem?_eq_some_iff.mp hslot
        simp [hlt, hget, advance_attr hadv]
      · simp [hk]
  | answer => exact h
  | commit =>
    intro c hc
    rw [(commit_fields _ _ _ _ _).2.2] at hc
    exact h c hc
  | abort => exact h
  | invalidate => exact h

theorem covered_run {s : State} {as : List (Action Req)}
    (h : run (step plan) State.start as = some s) : Covered s := by
  refine run_invariant (fun _ _ _ hinv hst => covered_step hinv hst) ?_ h
  intro c hc
  simp [State.start] at hc

/-- The verdict a plan reads once the check returns. -/
theorem verdict_supported {s : State} (hinv : Invariant s) (hcov : Covered s) {c : Check}
    (hc : c ∈ s.checks) {answers : List Access} (hres : c.result = some answers) {p : Plan}
    (hp : .ok p ∈ c.plans) {a : Attr} (ha : a ∈ p.attrs) :
    ∃ basis, Supported s.reviews a basis (c.verdict a) ∧
      ∀ id ∈ basis, ∃ r : Review, s.reviews[id]? = some r ∧ c.generation ≤ r.generation := by
  have hin : a ∈ c.slots.map Slot.attr := by
    rw [hcov c hc]
    refine mem_uniqAttrs hp ?_
    simpa [Plan.attrs] using ha
  have hall : ∀ slot ∈ c.slots, slot.verdict?.isSome := by
    unfold Check.result at hres
    split_ifs at hres with hdone
    exact List.all_eq_true.mp hdone
  obtain ⟨slot₀, hslot₀, hattr₀⟩ := List.mem_map.mp hin
  have hfound : (c.slots.find? (·.attr = a)).isSome :=
    List.find?_isSome.mpr ⟨slot₀, hslot₀, by simpa using hattr₀⟩
  obtain ⟨slot, hslot⟩ := Option.isSome_iff_exists.mp hfound
  have hmem := List.mem_of_find?_eq_some hslot
  have hattr : slot.attr = a := by simpa using List.find?_some hslot
  obtain ⟨v, hv⟩ := Option.isSome_iff_exists.mp (hall slot hmem)
  have hok := (hinv.checks c hc).slots slot hmem
  have hverdict : c.verdict a = v := by
    simp [Check.verdict, hslot, hv]
  refine ⟨slot.basis, ?_, hok.basis⟩
  have hphase := hok.phase
  cases hph : slot.phase <;> simp only [Slot.verdict?, hph, reduceCtorEq, Option.some.injEq] at hv
  rw [hph] at hphase
  rw [hverdict, ← hv, ← hattr]
  exact hphase

/-- Steps a resolver may still make. -/
def Slot.remaining (slot : Slot) : ℕ :=
  match slot.phase with
  | .start => 8
  | .walking _ rest => 2 * rest.length + 1
  | .awaiting _ _ rest _ => 2 * rest.length + 2
  | .granted _ _ _ => 1
  | .done _ => 0

def Check.remaining (c : Check) : ℕ := (c.slots.map Slot.remaining).sum

def Review.remaining (r : Review) : ℕ :=
  match r.phase with
  | .running => 2
  | .answered _ _ => 1
  | _ => 0

/-- A resolver step may launch a review, which then has two steps of its own. -/
def work (s : State) : ℕ :=
  3 * (s.checks.map Check.remaining).sum + (s.reviews.map Review.remaining).sum

/-- The steps of the resolvers and of the reviews. -/
def Moves : Action Req → Prop
  | .advance _ _ => True
  | .answer _ _ => True
  | .commit _ => True
  | _ => False

theorem sum_map_modify {α : Type} {f : α → ℕ} {g : α → α} {l : List α} {i : ℕ} {x : α}
    (h : l[i]? = some x) : ((l.modify i g).map f).sum + f x = (l.map f).sum + f (g x) := by
  induction l generalizing i with
  | nil => simp at h
  | cons y l ih =>
    cases i with
    | zero =>
      obtain rfl : y = x := by simpa using h
      simp only [List.modify_zero_cons, List.map_cons, List.sum_cons]
      omega
    | succ i =>
      have hrest := ih (by simpa using h)
      simp only [List.modify_succ_cons, List.map_cons, List.sum_cons]
      omega

theorem sum_map_set {α : Type} {f : α → ℕ} {l : List α} {i : ℕ} {x : α} (y : α)
    (h : l[i]? = some x) : ((l.set i y).map f).sum + f x = (l.map f).sum + f y := by
  rw [List.set_eq_modify]
  exact sum_map_modify h

theorem onAnswer_remaining (read : ℕ) (candidate attr : Attr) (rest : List Attr) (answer : Answer)
    (basis : List ℕ) :
    (⟨attr, onAnswer read candidate rest answer, basis⟩ : Slot).remaining ≤ 2 * rest.length + 1 := by
  unfold onAnswer
  cases answer with
  | error e => simp [Slot.remaining]
  | ok hit =>
    dsimp only
    split_ifs
    · simp [Slot.remaining]
    · cases rest <;> simp [Slot.remaining]

theorem length_broadening (a : Attr) : a.broadening.length ≤ 3 := by
  unfold Attr.broadening
  split_ifs <;> simp

theorem advance_remaining {s s' : State} {slot slot' : Slot}
    (h : advance s slot = some (s', slot')) : slot'.remaining < slot.remaining := by
  obtain ⟨attr, phase, basis⟩ := slot
  cases phase with
  | done v => simp [advance] at h
  | start =>
    simp only [advance] at h
    have hlen := length_broadening attr
    split at h <;> cases h
    · simp [Slot.remaining]
    · simp only [Slot.remaining]
      omega
  | walking read rest =>
    cases rest with
    | nil =>
      cases h
      simp [Slot.remaining]
    | cons candidate rest =>
      simp only [advance] at h
      have hbound : ∀ answer basis', (⟨attr, onAnswer read candidate rest answer, basis'⟩ : Slot).remaining <
          (⟨attr, .walking read (candidate :: rest), basis⟩ : Slot).remaining := by
        intro answer basis'
        have hle := onAnswer_remaining read candidate attr rest answer basis'
        simp only [Slot.remaining, List.length_cons] at hle ⊢
        omega
      split at h
      · cases h
        simp [Slot.remaining]
      · split at h
        · cases h
          exact hbound _ _
        · split at h <;> cases h <;> simp only [Slot.remaining, List.length_cons] <;> omega
  | awaiting read candidate rest id =>
    simp only [advance] at h
    obtain ⟨answer, -, heq⟩ := Option.map_eq_some_iff.mp h
    cases heq
    exact Nat.lt_succ_of_le (onAnswer_remaining _ _ _ _ _ _)
  | granted read candidate hit =>
    cases h
    simp [Slot.remaining]

theorem work_lt {s t : State} {a : Action Req} (ha : Moves a) (hs : step plan s a = some t) :
    work t < work s := by
  cases step_inv hs with
  | tick => exact ha.elim
  | check => exact ha.elim
  | abort => exact ha.elim
  | invalidate => exact ha.elim
  | @advance i j c slot u slot' hc hslot hadv =>
    have hslots := sum_map_set (f := Slot.remaining) slot' hslot
    have hchecks := sum_map_set (f := Check.remaining) { c with slots := c.slots.set j slot' } hc
    have hless := advance_remaining hadv
    have hreviews : (u.reviews.map Review.remaining).sum ≤ (s.reviews.map Review.remaining).sum + 2 := by
      rcases (advance_fields hadv).2.2 with heq | ⟨attr, heq⟩ <;> rw [heq]
      · exact Nat.le_add_right _ _
      · simp [State.launch, Review.remaining]
    simp only [work]
    simp only [Check.remaining] at hchecks ⊢
    omega
  | answer hr reviewed =>
    have hsum := sum_map_modify (f := Review.remaining)
      (g := fun r => { r with phase := .answered reviewed s.now }) hr
    simp only [work, State.setPhase, Review.remaining] at hsum ⊢
    omega
  | @commit id attr generation reviewed now hr =>
    obtain ⟨hreviews, -, hchecks⟩ := commit_fields s id ⟨attr, generation, .answered reviewed now⟩ reviewed now
    have hsum := sum_map_modify (f := Review.remaining)
      (g := fun r => { r with phase := .finished reviewed now }) hr
    rw [work, work, hreviews, hchecks]
    simp only [State.setPhase, Review.remaining] at hsum ⊢
    omega

/-- A resolver that is not through can move, or the review it waits for can. -/
theorem returns_of_stuck {s : State} (hinv : Invariant s)
    (hstuck : ∀ a : Action Req, Moves a → step plan s a = none) {c : Check} (hc : c ∈ s.checks) :
    ∃ answers, c.result = some answers := by
  suffices hall : ∀ slot ∈ c.slots, slot.verdict?.isSome by
    exact ⟨_, if_pos (List.all_eq_true.mpr hall)⟩
  intro slot hslot
  obtain ⟨i, hi⟩ := List.mem_iff_getElem?.mp hc
  obtain ⟨j, hj⟩ := List.mem_iff_getElem?.mp hslot
  have hnone : advance s slot = none := by
    have hadv := hstuck (.advance i j) trivial
    simpa [step, hi, hj] using hadv
  have hphase := ((hinv.checks c hc).slots slot hslot).phase
  cases hp : slot.phase with
  | done v => simp [Slot.verdict?, hp]
  | start =>
    simp only [advance, hp] at hnone
    split at hnone <;> cases hnone
  | walking read rest =>
    cases rest with
    | nil => simp [advance, hp] at hnone
    | cons candidate rest =>
      simp only [advance, hp] at hnone
      split at hnone
      · cases hnone
      · split at hnone
        · cases hnone
        · split at hnone <;> cases hnone
  | granted read candidate hit => simp [advance, hp] at hnone
  | awaiting read candidate rest id =>
    rw [hp] at hphase
    obtain ⟨-, -, -, ⟨attr, generation, phase⟩, hr, -, -⟩ := hphase
    cases phase with
    | running =>
      have hans := hstuck (.answer id .allowed) trivial
      simp [step, hr] at hans
    | answered reviewed now =>
      have hcom := hstuck (.commit id) trivial
      simp [step, hr] at hcom
    | finished reviewed now => simp [advance, hp, hr, Review.output] at hnone
    | aborted => simp [advance, hp, hr, Review.output] at hnone

/-- What a returned check says of the authorizer. -/
structure Faithful (auth : Attr → Bool) (c : Check) (answers : List Access) : Prop where
  kleene : answers.map Access.certainty = c.plans.map (planCertainty c.verdict)
  verdicts : ∀ p, .ok p ∈ c.plans → ∀ a ∈ p.attrs, (c.verdict a).Sound (auth a)

/-- Any number of checks run over an additive authorizer. Each returns the Kleene combination of
its attributes' verdicts, and an allow or denial among these is the authorizer's. When every
review answers, a check that no invalidation has overtaken returns exactly what the authorizer
decides for each plan, in order. Steps of resolvers and reviews run out, and when none is left
every check has returned. -/
theorem checks_answer (hadd : Additive auth) {s : State} {as : List (Action Req)}
    (hrun : run (step plan) State.start as = some s)
    (hagree : Meets (step plan) (Agreeing auth) State.start as) :
    (∀ c ∈ s.checks, ∀ answers, c.result = some answers → Faithful auth c answers ∧
      (Meets (step plan) Answering State.start as → c.generation = s.generation →
        List.Forall₂ (Decides auth) c.plans answers)) ∧
    (∀ a t, Moves a → step plan s a = some t → work t < work s) ∧
    ((∀ a : Action Req, Moves a → step plan s a = none) →
      ∀ c ∈ s.checks, ∃ answers, c.result = some answers) := by
  have hinv := invariant_run hrun
  have hcov := covered_run hrun
  have hout := agrees_of_run hagree hrun
  refine ⟨fun c hc answers hres => ?_, fun a t ha hs => work_lt ha hs,
    fun hstuck c hc => returns_of_stuck hinv hstuck hc⟩
  have hval : answers = c.plans.map (answerPlan c.verdict) := by
    unfold Check.result at hres
    split_ifs at hres
    exact (Option.some.inj hres).symm
  refine ⟨⟨?_, fun p hp a ha => ?_⟩, fun hanswering hcur => ?_⟩
  · rw [hval, List.map_map]
    refine List.map_congr_left fun plan _ => ?_
    cases plan with
    | error e => rfl
    | ok p => exact combine_certainty p c.verdict
  · obtain ⟨basis, hsup, -⟩ := verdict_supported hinv hcov hc hres hp ha
    exact sound_of_supported hadd hout hsup
  · have hanswered := answered_of_run hanswering hrun
    rw [hval, List.forall₂_map_right_iff, List.forall₂_same]
    intro plan hplan
    refine decides_of_certainty fun p hp a ha => ?_
    subst hp
    obtain ⟨basis, hsup, hbasis⟩ := verdict_supported hinv hcov hc hres hplan ha
    have hsound := sound_of_supported hadd hout hsup
    cases hv : c.verdict a with
    | allowed =>
      rw [hv] at hsound
      have htrue : auth a = true := hsound
      exact ⟨by simp [Verdict.certainty], by simp [Verdict.certainty, htrue]⟩
    | denied =>
      rw [hv] at hsound
      have hfalse : auth a = false := hsound
      exact ⟨by simp [Verdict.certainty], by simp [Verdict.certainty, hfalse]⟩
    | unknown e =>
      rw [hv] at hsup
      obtain ⟨id, hid, r, hr, -, houtput⟩ := hsup
      obtain ⟨r', hr', hgen⟩ := hbasis id hid
      obtain rfl := Option.some.inj (hr.symm.trans hr')
      exact (not_failed hanswered le_rfl ⟨r, hr, hcur ▸ hgen, houtput⟩).elim

/-- Everyone may read and nobody may delete. -/
def sampleAuth (a : Attr) : Bool := a.verb = "get"

/-- Two requests side by side: the first is settled by the review of the cluster-wide scope, the
second needs that of its own. -/
def sampleRun : List (Action (List Attr)) :=
  [.check [[samplePods], [{ samplePods with verb := "delete" }]], .advance 0 0, .advance 0 0,
    .advance 0 1, .advance 0 1, .answer 0 .allowed, .answer 1 .denied, .commit 1, .commit 0,
    .advance 0 1, .advance 0 0, .advance 0 0, .advance 0 1, .answer 2 .denied, .commit 2,
    .advance 0 1]

theorem checks_answer_sample :
    ∃ s c, run (step samplePlan) State.start sampleRun = some s ∧ c ∈ s.checks ∧
      List.Forall₂ (Decides sampleAuth) c.plans
        [.allowed, .denied "cannot delete pods in prod"] := by
  obtain ⟨s, c, hrun, hc, hres, hcur⟩ : ∃ s c, run (step samplePlan) State.start sampleRun = some s ∧
      s.checks = [c] ∧ c.result = some [.allowed, .denied "cannot delete pods in prod"] ∧
      c.generation = s.generation := ⟨_, _, rfl, rfl, by decide, rfl⟩
  have hmem : c ∈ s.checks := by simp [hc]
  have hadd : Additive sampleAuth := by
    intro a b hcov hb
    simpa [sampleAuth, hcov.verb] using hb
  have hanswering : Meets (step samplePlan) Answering State.start sampleRun := by
    refine meets_of_forall (fun s a ha => ?_) State.start
    simp only [sampleRun, List.mem_cons, List.not_mem_nil, or_false] at ha
    rcases ha with rfl | rfl | rfl | rfl | rfl | rfl | rfl | rfl | rfl | rfl | rfl | rfl | rfl | rfl |
      rfl | rfl <;> trivial
  obtain ⟨hfaithful, -, -⟩ := checks_answer hadd hrun (by decide)
  exact ⟨s, c, hrun, hmem, (hfaithful c hmem _ hres).2 hanswering hcur⟩

end FerrisScope.PermissionReviews
