import FerrisScope.PermissionReviews

/-!
# What the permission cache and its callers rest on

Every entry, registered flight and unsupported mark comes from a review of the current
generation, and every verdict from reviews at least as young as its check. The invariant of the
cache is kept apart from that of the resolvers: a resolver only asks that reviews it has used
stay as they were.
-/

namespace FerrisScope.PermissionReviews
open KeyedWrites LabelledRuns

/-- The hit is the answer of a finished review of the attribute or, for an allow, of a broader
one, launched at the given generation or later. -/
def Gave (reviews : List Review) (generation : ℕ) (attr : Attr) (hit : Hit) : Prop :=
  ∃ (r : Review) (reviewed : Reviewed) (now : ℕ), reviews[hit.review]? = some r ∧ generation ≤ r.generation ∧
    r.attr ∈ attr.broadening ∧ (hit.allowed = false → r.attr = attr) ∧
    r.phase = .finished reviewed now ∧ answerOf hit.review reviewed now = .ok hit

/-- The review could not answer. -/
def Failed (reviews : List Review) (generation : ℕ) (e : String) (id : ℕ) : Prop :=
  ∃ r : Review, reviews[id]? = some r ∧ generation ≤ r.generation ∧ r.output id = some (.error e)

/-- The task of the review has not ended. -/
def Review.Live (r : Review) (generation : ℕ) : Prop :=
  r.phase = .running ∨ (∃ reviewed now, r.phase = .answered reviewed now) ∧ r.generation = generation

structure Sound (s : State) : Prop where
  bounded : ∀ (id : ℕ) (r : Review), s.reviews[id]? = some r → r.generation ≤ s.generation
  entries : ∀ e ∈ s.entries, Gave s.reviews s.generation e.1 e.2
  flights : ∀ attr id, s.flights.lookup attr = some id →
    ∃ r : Review, s.reviews[id]? = some r ∧ r.attr = attr ∧ s.generation ≤ r.generation
  unsupported : ∀ e id, s.unsupported = some (e, id) → Failed s.reviews s.generation e id
  live : ∀ (id : ℕ) (r : Review), s.reviews[id]? = some r → r.Live s.generation →
    s.flights.lookup r.attr = some id

/-- The reviews of the basis give the verdict. -/
def Supported (reviews : List Review) (attr : Attr) (basis : List ℕ) : Verdict → Prop
  | .allowed => ∃ hit, hit.review ∈ basis ∧ hit.allowed = true ∧ Gave reviews 0 attr hit
  | .denied => ∃ hit, hit.review ∈ basis ∧ hit.allowed = false ∧ Gave reviews 0 attr hit
  | .unknown e => ∃ id ∈ basis, Failed reviews 0 e id

/-- Where a resolver of a check of generation `g` may stand. -/
def PhaseOk (reviews : List Review) (generation g : ℕ) (attr : Attr) (basis : List ℕ) :
    ResolvePhase → Prop
  | .start => True
  | .walking read rest => g ≤ read ∧ read ≤ generation ∧ rest ≠ [] ∧ rest <:+ attr.broadening
  | .awaiting read candidate rest id =>
      g ≤ read ∧ read ≤ generation ∧ candidate :: rest <:+ attr.broadening ∧
      ∃ r : Review, reviews[id]? = some r ∧ r.attr = candidate ∧ read ≤ r.generation
  | .granted read candidate hit =>
      g ≤ read ∧ candidate ∈ attr.broadening ∧ hit.allowed = true ∧
      Gave reviews read candidate hit ∧ hit.review ∈ basis
  | .done v => Supported reviews attr basis v

structure SlotOk (reviews : List Review) (generation g : ℕ) (slot : Slot) : Prop where
  basis : ∀ id ∈ slot.basis, ∃ r : Review, reviews[id]? = some r ∧ g ≤ r.generation
  phase : PhaseOk reviews generation g slot.attr slot.basis slot.phase

structure CheckOk (s : State) (c : Check) : Prop where
  started : c.generation ≤ s.generation
  slots : ∀ slot ∈ c.slots, SlotOk s.reviews s.generation c.generation slot

/-- Reviews keep their attribute and generation, and their output once they have one. -/
def Evolves (rs rs' : List Review) : Prop :=
  ∀ (id : ℕ) (r : Review), rs[id]? = some r → ∃ r' : Review, rs'[id]? = some r' ∧ r'.attr = r.attr ∧
    r'.generation = r.generation ∧ (r.output id ≠ none → r' = r)

theorem mem_broadening {a b : Attr} : b ∈ a.broadening ↔
    (a.ns ≠ "" ∧ b = { a with ns := "", name := "" }) ∨ (a.name ≠ "" ∧ b = { a with name := "" }) ∨
      b = a := by
  unfold Attr.broadening
  by_cases hns : a.ns = "" <;> by_cases hname : a.name = "" <;> simp [hns, hname]

theorem self_mem_broadening (a : Attr) : a ∈ a.broadening :=
  mem_broadening.mpr (.inr (.inr rfl))

theorem broadening_trans {a b c : Attr} (hb : b ∈ a.broadening) (hc : c ∈ b.broadening) :
    c ∈ a.broadening := by
  rw [mem_broadening] at hb
  rcases hb with ⟨hns, rfl⟩ | ⟨hname, rfl⟩ | rfl
  · simp only [mem_broadening, ne_eq, not_true_eq_false, false_and, false_or] at hc
    exact mem_broadening.mpr (.inl ⟨hns, hc⟩)
  · simp only [mem_broadening, ne_eq, not_true_eq_false, false_and, false_or] at hc
    rcases hc with ⟨hns, rfl⟩ | rfl
    · exact mem_broadening.mpr (.inl ⟨hns, rfl⟩)
    · exact mem_broadening.mpr (.inr (.inl ⟨hname, rfl⟩))
  · exact hc

theorem broadening_ne_nil (a : Attr) : a.broadening ≠ [] :=
  List.ne_nil_of_mem (self_mem_broadening a)

/-- The last candidate is the attribute itself. -/
theorem eq_of_suffix_broadening {a c : Attr} (h : [c] <:+ a.broadening) : c = a := by
  obtain ⟨pre, hpre⟩ := h
  have hlast := congrArg List.getLast? hpre
  simpa [Attr.broadening] using hlast

theorem Gave.weaken {rs : List Review} {g g' : ℕ} {attr : Attr} {hit : Hit}
    (h : Gave rs g attr hit) (hg : g' ≤ g) : Gave rs g' attr hit := by
  obtain ⟨r, reviewed, now, hr, hgen, hrest⟩ := h
  exact ⟨r, reviewed, now, hr, hg.trans hgen, hrest⟩

theorem Gave.review {rs : List Review} {g : ℕ} {attr : Attr} {hit : Hit} (h : Gave rs g attr hit) :
    ∃ r : Review, rs[hit.review]? = some r ∧ g ≤ r.generation := by
  obtain ⟨r, -, -, hr, hgen, -⟩ := h
  exact ⟨r, hr, hgen⟩

theorem Gave.output {rs : List Review} {g : ℕ} {attr : Attr} {hit : Hit} (h : Gave rs g attr hit) :
    ∃ r : Review, rs[hit.review]? = some r ∧ r.output hit.review = some (.ok hit) := by
  obtain ⟨r, reviewed, now, hr, -, -, -, hphase, hans⟩ := h
  exact ⟨r, hr, by rw [Review.output, hphase]; exact congrArg some hans⟩

/-- An allow for a candidate is one for the attribute. -/
theorem Gave.narrow {rs : List Review} {g : ℕ} {attr candidate : Attr} {hit : Hit}
    (h : Gave rs g candidate hit) (hc : candidate ∈ attr.broadening)
    (hallowed : hit.allowed = false → candidate = attr) : Gave rs g attr hit := by
  obtain ⟨r, reviewed, now, hr, hgen, hattr, hdenied, hrest⟩ := h
  exact ⟨r, reviewed, now, hr, hgen, broadening_trans hc hattr,
    fun hf => (hdenied hf).trans (hallowed hf), hrest⟩

/-- What a review yields is its own answer. -/
theorem gave_of_output {rs : List Review} {id : ℕ} {r : Review} {hit : Hit}
    (hr : rs[id]? = some r) (hout : r.output id = some (.ok hit)) :
    hit.review = id ∧ Gave rs r.generation r.attr hit := by
  cases hphase : r.phase with
  | finished reviewed now =>
    have hans : answerOf id reviewed now = .ok hit := by
      rw [Review.output, hphase] at hout
      exact Option.some.inj hout
    have hid : hit.review = id := by
      cases reviewed <;> simp only [answerOf, Except.ok.injEq, reduceCtorEq] at hans <;> rw [← hans]
    refine ⟨hid, r, reviewed, now, ?_, le_rfl, self_mem_broadening _, fun _ => rfl, hphase, ?_⟩
    · rw [hid, hr]
    · rw [hid, hans]
  | running => simp [Review.output, hphase] at hout
  | answered reviewed now => simp [Review.output, hphase] at hout
  | aborted => simp [Review.output, hphase] at hout

theorem Evolves.refl (rs : List Review) : Evolves rs rs :=
  fun _ r hr => ⟨r, hr, rfl, rfl, fun _ => rfl⟩

theorem Evolves.gave {rs rs' : List Review} (h : Evolves rs rs') {g : ℕ} {attr : Attr} {hit : Hit}
    (hg : Gave rs g attr hit) : Gave rs' g attr hit := by
  obtain ⟨r, reviewed, now, hr, hrest⟩ := hg
  obtain ⟨r', hr', -, -, hsame⟩ := h _ r hr
  have hout : r.output hit.review ≠ none := by
    simp [Review.output, hrest.2.2.2.1]
  rw [hsame hout] at hr'
  exact ⟨r, reviewed, now, hr', hrest⟩

theorem Evolves.failed {rs rs' : List Review} (h : Evolves rs rs') {g id : ℕ} {e : String}
    (hf : Failed rs g e id) : Failed rs' g e id := by
  obtain ⟨r, hr, hg, hout⟩ := hf
  obtain ⟨r', hr', -, -, hsame⟩ := h _ r hr
  rw [hsame (by simp [hout])] at hr'
  exact ⟨r, hr', hg, hout⟩

theorem Evolves.supported {rs rs' : List Review} (h : Evolves rs rs') {attr : Attr}
    {basis : List ℕ} {v : Verdict} (hs : Supported rs attr basis v) : Supported rs' attr basis v := by
  cases v with
  | allowed =>
    obtain ⟨hit, hmem, ha, hg⟩ := hs
    exact ⟨hit, hmem, ha, h.gave hg⟩
  | denied =>
    obtain ⟨hit, hmem, ha, hg⟩ := hs
    exact ⟨hit, hmem, ha, h.gave hg⟩
  | unknown e =>
    obtain ⟨id, hmem, hf⟩ := hs
    exact ⟨id, hmem, h.failed hf⟩

theorem Evolves.slotOk {rs rs' : List Review} (h : Evolves rs rs') {generation generation' g : ℕ}
    (hgen : generation ≤ generation') {slot : Slot} (hs : SlotOk rs generation g slot) :
    SlotOk rs' generation' g slot := by
  constructor
  · intro id hid
    obtain ⟨r, hr, hg⟩ := hs.basis id hid
    obtain ⟨r', hr', -, hgr, -⟩ := h _ r hr
    exact ⟨r', hr', hgr ▸ hg⟩
  · have hphase := hs.phase
    cases hp : slot.phase with
    | start => trivial
    | walking read rest =>
      rw [hp] at hphase
      exact ⟨hphase.1, hphase.2.1.trans hgen, hphase.2.2⟩
    | awaiting read candidate rest id =>
      rw [hp] at hphase
      obtain ⟨hread, hle, hsuffix, r, hr, hattr, hg⟩ := hphase
      obtain ⟨r', hr', har, hgr, -⟩ := h _ r hr
      exact ⟨hread, hle.trans hgen, hsuffix, r', hr', har.trans hattr, hgr ▸ hg⟩
    | granted read candidate hit =>
      rw [hp] at hphase
      obtain ⟨hread, hmem, hallowed, hgave, hbasis⟩ := hphase
      exact ⟨hread, hmem, hallowed, h.gave hgave, hbasis⟩
    | done v =>
      rw [hp] at hphase
      exact h.supported hphase

theorem fresh_gave {s : State} (h : Sound s) {attr : Attr} {hit : Hit}
    (hf : s.fresh attr = some hit) : Gave s.reviews s.generation attr hit := by
  unfold State.fresh State.entry at hf
  split_ifs at hf
  obtain ⟨hmap, -⟩ := Option.filter_eq_some_iff.mp hf
  obtain ⟨e, he, rfl⟩ := Option.map_eq_some_iff.mp hmap
  have hkey : e.1 = attr := by simpa using List.find?_some he
  rw [← hkey]
  exact h.entries e (List.mem_of_find?_eq_some he)

theorem sound_remember {s : State} (h : Sound s) {attr : Attr} {hit : Hit}
    (hg : Gave s.reviews s.generation attr hit) : Sound (s.remember attr hit) := by
  have hprune : s.prune.reviews = s.reviews ∧ s.prune.generation = s.generation ∧
      s.prune.flights = s.flights ∧ s.prune.unsupported = s.unsupported ∧
      ∀ e ∈ s.prune.entries, e ∈ s.entries := by
    unfold State.prune
    split_ifs
    · exact ⟨rfl, rfl, rfl, rfl, fun e he => List.mem_of_mem_filter he⟩
    · exact ⟨rfl, rfl, rfl, rfl, fun e he => he⟩
  obtain ⟨hreviews, hgen, hflights, huns, hentries⟩ := hprune
  have hfields : (s.remember attr hit).reviews = s.reviews ∧
      (s.remember attr hit).generation = s.generation ∧
      (s.remember attr hit).flights = s.flights ∧
      (s.remember attr hit).unsupported = s.unsupported := ⟨hreviews, hgen, hflights, huns⟩
  obtain ⟨hr, hge, hfl, hu⟩ := hfields
  refine ⟨?_, ?_, ?_, ?_, ?_⟩
  · rw [hr, hge]
    exact h.bounded
  · intro e he
    rw [hr, hge]
    rcases List.mem_cons.mp he with rfl | he
    · exact hg
    · exact h.entries e (hentries e (List.mem_of_mem_filter he))
  · rw [hr, hge, hfl]
    exact h.flights
  · rw [hr, hge, hu]
    exact h.unsupported
  · rw [hr, hge, hfl]
    exact h.live

theorem evolves_launch (s : State) (attr : Attr) : Evolves s.reviews (s.launch attr).reviews := by
  intro id r hr
  have hlt : id < s.reviews.length := (List.getElem?_eq_some_iff.mp hr).1
  refine ⟨r, ?_, rfl, rfl, fun _ => rfl⟩
  rw [State.launch, List.getElem?_append_left hlt, hr]

theorem sound_launch {s : State} (h : Sound s) {attr : Attr} (hnone : s.flights.lookup attr = none) :
    Sound (s.launch attr) := by
  have hev := evolves_launch s attr
  have hnew : ∀ (id : ℕ) (r : Review), (s.launch attr).reviews[id]? = some r →
      s.reviews[id]? = some r ∨ (id = s.reviews.length ∧ r = ⟨attr, s.generation, .running⟩) := by
    intro id r hr
    by_cases hlt : id < s.reviews.length
    · left
      rwa [State.launch, List.getElem?_append_left hlt] at hr
    · right
      rw [State.launch, List.getElem?_append_right (not_lt.mp hlt)] at hr
      have hzero : id - s.reviews.length = 0 := by
        by_contra hne
        rw [List.getElem?_eq_none (by simp; omega)] at hr
        cases hr
      rw [hzero] at hr
      exact ⟨by omega, (Option.some.inj hr).symm⟩
  refine ⟨?_, fun e he => hev.gave (h.entries e he), ?_, fun e id he => hev.failed (h.unsupported e id he), ?_⟩
  · intro id r hr
    rcases hnew id r hr with hold | ⟨-, rfl⟩
    · exact h.bounded id r hold
    · exact le_rfl
  · intro a id hlook
    by_cases ha : a = attr
    · subst ha
      have hid : id = s.reviews.length := by
        simpa [State.launch] using hlook.symm
      subst hid
      exact ⟨⟨a, s.generation, .running⟩, by simp [State.launch], rfl, le_rfl⟩
    · have hold : s.flights.lookup a = some id := by
        rwa [State.launch, Finmap.lookup_insert_of_ne _ ha] at hlook
      obtain ⟨r, hr, hattr, hg⟩ := h.flights a id hold
      obtain ⟨r', hr', har, hgr, -⟩ := hev id r hr
      exact ⟨r', hr', har.trans hattr, hgr ▸ hg⟩
  · intro id r hr hlive
    rcases hnew id r hr with hold | ⟨rfl, rfl⟩
    · have hlook := h.live id r hold hlive
      have hne : r.attr ≠ attr := by
        intro heq
        rw [heq, hnone] at hlook
        cases hlook
      rw [State.launch, Finmap.lookup_insert_of_ne _ hne]
      exact hlook
    · simp [State.launch]

theorem phaseOk_onAnswer {reviews : List Review} {generation g read : ℕ} {attr candidate : Attr}
    {rest : List Attr} {basis : List ℕ} {hit : Hit} (hg : g ≤ read) (hread : read ≤ generation)
    (hsuffix : candidate :: rest <:+ attr.broadening) (hgave : Gave reviews read candidate hit)
    (hbasis : hit.review ∈ basis) :
    PhaseOk reviews generation g attr basis (onAnswer read candidate rest (.ok hit)) := by
  have hmem : candidate ∈ attr.broadening := hsuffix.subset List.mem_cons_self
  unfold onAnswer
  by_cases hallowed : hit.allowed = true
  · simp only [hallowed, if_true]
    exact ⟨hg, hmem, hallowed, hgave, hbasis⟩
  · simp only [hallowed, Bool.false_eq_true, if_false]
    have hdenied : hit.allowed = false := by simpa using hallowed
    cases rest with
    | nil =>
      have heq := eq_of_suffix_broadening hsuffix
      subst heq
      exact ⟨hit, hbasis, hdenied, hgave.weaken (Nat.zero_le _)⟩
    | cons next rest =>
      exact ⟨hg, hread, List.cons_ne_nil _ _, (List.suffix_cons candidate _).trans hsuffix⟩

/-- What a step of a resolver leaves. -/
structure Advanced (s s' : State) (g : ℕ) (slot slot' : Slot) : Prop where
  sound : Sound s'
  evolves : Evolves s.reviews s'.reviews
  generation : s'.generation = s.generation
  checks : s'.checks = s.checks
  attr : slot'.attr = slot.attr
  slotOk : SlotOk s'.reviews s'.generation g slot'

theorem Advanced.still {s : State} (h : Sound s) {g : ℕ} {slot slot' : Slot}
    (hattr : slot'.attr = slot.attr) (hs : SlotOk s.reviews s.generation g slot') :
    Advanced s s g slot slot' :=
  ⟨h, Evolves.refl _, rfl, rfl, hattr, hs⟩

theorem basis_concat {reviews : List Review} {g id : ℕ} {basis : List ℕ}
    (h : ∀ i ∈ basis, ∃ r : Review, reviews[i]? = some r ∧ g ≤ r.generation)
    (hid : ∃ r : Review, reviews[id]? = some r ∧ g ≤ r.generation) :
    ∀ i ∈ basis ++ [id], ∃ r : Review, reviews[i]? = some r ∧ g ≤ r.generation := by
  intro i hi
  rcases List.mem_append.mp hi with hi | hi
  · exact h i hi
  · rw [List.mem_singleton.mp hi]
    exact hid

theorem review_of_gave {rs : List Review} {g g' : ℕ} {attr : Attr} {hit : Hit}
    (h : Gave rs g attr hit) (hg : g' ≤ g) :
    ∃ r : Review, rs[hit.review]? = some r ∧ g' ≤ r.generation := by
  obtain ⟨r, hr, hgr⟩ := h.review
  exact ⟨r, hr, hg.trans hgr⟩

theorem remember_fields (s : State) (attr : Attr) (hit : Hit) :
    (s.remember attr hit).reviews = s.reviews ∧ (s.remember attr hit).generation = s.generation ∧
      (s.remember attr hit).checks = s.checks := by
  simp only [State.remember, State.prune]
  split_ifs <;> exact ⟨rfl, rfl, rfl⟩

theorem supported_of_hit {rs : List Review} {g : ℕ} {attr : Attr} {basis : List ℕ} {hit : Hit}
    (hgave : Gave rs g attr hit) (hbasis : hit.review ∈ basis) :
    Supported rs attr basis (.of hit.allowed) := by
  have h0 := hgave.weaken (Nat.zero_le g)
  cases hallowed : hit.allowed with
  | true => exact ⟨hit, hbasis, hallowed, h0⟩
  | false => exact ⟨hit, hbasis, hallowed, h0⟩

theorem advanced_of_advance {s s' : State} {g : ℕ} {slot slot' : Slot} (h : Sound s)
    (hg : g ≤ s.generation) (hs : SlotOk s.reviews s.generation g slot)
    (ha : advance s slot = some (s', slot')) : Advanced s s' g slot slot' := by
  have hphase := hs.phase
  obtain ⟨attr, phase, basis⟩ := slot
  cases phase with
  | done v => simp [advance] at ha
  | start =>
    cases hf : s.fresh attr with
    | some hit =>
      simp only [advance, hf, Option.some.injEq, Prod.mk.injEq] at ha
      obtain ⟨rfl, rfl⟩ := ha
      have hgave := fresh_gave h hf
      refine Advanced.still h rfl ⟨basis_concat hs.basis (review_of_gave hgave hg), ?_⟩
      exact supported_of_hit hgave (by simp)
    | none =>
      simp only [advance, hf, Option.some.injEq, Prod.mk.injEq] at ha
      obtain ⟨rfl, rfl⟩ := ha
      exact Advanced.still h rfl
        ⟨hs.basis, hg, le_rfl, broadening_ne_nil attr, List.suffix_refl _⟩
  | walking read rest =>
    obtain ⟨hread, hle, hne, hsuffix⟩ := hphase
    cases rest with
    | nil => exact absurd rfl hne
    | cons candidate rest =>
      cases hu : s.unsupported with
      | some u =>
        obtain ⟨e, id⟩ := u
        simp only [advance, hu, Option.some.injEq, Prod.mk.injEq] at ha
        obtain ⟨rfl, rfl⟩ := ha
        obtain ⟨r, hr, hgr, hout⟩ := h.unsupported e id hu
        exact Advanced.still h rfl ⟨basis_concat hs.basis ⟨r, hr, hg.trans hgr⟩,
          id, by simp, r, hr, Nat.zero_le _, hout⟩
      | none =>
        cases hf : s.fresh candidate with
        | some hit =>
          simp only [advance, hu, hf, Option.some.injEq, Prod.mk.injEq] at ha
          obtain ⟨rfl, rfl⟩ := ha
          have hgave := fresh_gave h hf
          exact Advanced.still h rfl ⟨basis_concat hs.basis (review_of_gave hgave hg),
            phaseOk_onAnswer hread hle hsuffix (hgave.weaken hle) (by simp)⟩
        | none =>
          cases hl : s.flights.lookup candidate with
          | some id =>
            simp only [advance, hu, hf, hl, Option.some.injEq, Prod.mk.injEq] at ha
            obtain ⟨rfl, rfl⟩ := ha
            obtain ⟨r, hr, hattr, hgr⟩ := h.flights candidate id hl
            exact Advanced.still h rfl
              ⟨hs.basis, hread, hle, hsuffix, r, hr, hattr, hle.trans hgr⟩
          | none =>
            simp only [advance, hu, hf, hl, Option.some.injEq, Prod.mk.injEq] at ha
            obtain ⟨rfl, rfl⟩ := ha
            have hev := evolves_launch s candidate
            have hnew : SlotOk (s.launch candidate).reviews s.generation g
                ⟨attr, .walking read (candidate :: rest), basis⟩ := hev.slotOk le_rfl hs
            refine ⟨sound_launch h hl, hev, rfl, rfl, rfl, hnew.basis, hread, hle, hsuffix, ?_⟩
            exact ⟨⟨candidate, s.generation, .running⟩, by simp [State.launch], rfl, hle⟩
  | awaiting read candidate rest id =>
    obtain ⟨hread, hle, hsuffix, r, hr, hattr, hgr⟩ := hphase
    simp only [advance, hr, Option.bind_some, Option.map_eq_some_iff, Prod.mk.injEq] at ha
    obtain ⟨answer, hout, rfl, rfl⟩ := ha
    have hbasis := basis_concat hs.basis ⟨r, hr, hread.trans hgr⟩
    refine Advanced.still h rfl ⟨hbasis, ?_⟩
    cases answer with
    | error e => exact ⟨id, by simp, r, hr, Nat.zero_le _, hout⟩
    | ok hit =>
      obtain ⟨hid, hgave⟩ := gave_of_output hr hout
      rw [hattr] at hgave
      exact phaseOk_onAnswer hread hle hsuffix (hgave.weaken hgr) (by simp [hid])
  | granted read candidate hit =>
    obtain ⟨hread, hmem, hallowed, hgave, hbasis⟩ := hphase
    simp only [advance, Option.some.injEq, Prod.mk.injEq] at ha
    obtain ⟨rfl, rfl⟩ := ha
    have hnarrow : Gave s.reviews read attr hit :=
      hgave.narrow hmem fun hf => by rw [hallowed] at hf; cases hf
    have hdone : SlotOk s.reviews s.generation g ⟨attr, .done .allowed, basis⟩ :=
      ⟨hs.basis, hit, hbasis, hallowed, hnarrow.weaken (Nat.zero_le _)⟩
    split_ifs with hguard
    · obtain ⟨hr, hge, hc⟩ := remember_fields s attr hit
      refine ⟨sound_remember h (hguard.1 ▸ hnarrow), ?_, hge, hc, rfl, ?_⟩
      · rw [hr]
        exact Evolves.refl _
      · rw [hr, hge]
        exact hdone
    · exact Advanced.still h rfl hdone

theorem lookupSlot_ok {s : State} (h : Sound s) (attr : Attr) :
    SlotOk s.reviews s.generation s.generation (lookupSlot s attr) := by
  unfold lookupSlot
  cases hf : s.fresh attr with
  | none => exact ⟨by simp, trivial⟩
  | some hit =>
    have hgave := fresh_gave h hf
    refine ⟨?_, supported_of_hit hgave (by simp)⟩
    simpa using hgave.review

theorem getElem?_setPhase {s : State} {id i : ℕ} {phase : ReviewPhase} {r : Review}
    (hr : (s.setPhase id phase).reviews[i]? = some r) :
    ∃ r₀, s.reviews[i]? = some r₀ ∧ (i = id ∧ r = { r₀ with phase := phase } ∨ i ≠ id ∧ r = r₀) := by
  rw [State.setPhase, List.getElem?_modify] at hr
  by_cases hi : id = i
  · subst hi
    simp only [if_true] at hr
    obtain ⟨r₀, hr₀, rfl⟩ := Option.map_eq_some_iff.mp hr
    exact ⟨r₀, hr₀, .inl ⟨rfl, rfl⟩⟩
  · simp only [if_neg hi] at hr
    obtain ⟨r₀, hr₀, rfl⟩ := Option.map_eq_some_iff.mp hr
    exact ⟨r₀, hr₀, .inr ⟨fun h => hi h.symm, rfl⟩⟩

/-- A review without output may change its phase. -/
theorem evolves_setPhase {s : State} {id : ℕ} {r : Review} (hr : s.reviews[id]? = some r)
    (hout : r.output id = none) (phase : ReviewPhase) :
    Evolves s.reviews (s.setPhase id phase).reviews := by
  intro i r' hr'
  by_cases hi : id = i
  · subst hi
    obtain rfl := Option.some.inj (hr.symm.trans hr')
    refine ⟨{ r with phase := phase }, ?_, rfl, rfl, fun hne => absurd hout hne⟩
    simp [State.setPhase, hr]
  · refine ⟨r', ?_, rfl, rfl, fun _ => rfl⟩
    simp [State.setPhase, hi, hr']

theorem sound_setPhase {s : State} (h : Sound s) {id : ℕ} {r : Review}
    (hr : s.reviews[id]? = some r) (hout : r.output id = none) {phase : ReviewPhase}
    (hlive : ({ r with phase := phase } : Review).Live s.generation → r.Live s.generation) :
    Sound (s.setPhase id phase) := by
  have hev := evolves_setPhase hr hout phase
  refine ⟨fun i r' hr' => ?_, fun e he => hev.gave (h.entries e he), fun attr i hl => ?_,
    fun e i he => hev.failed (h.unsupported e i he), fun i r' hr' hl => ?_⟩
  · obtain ⟨r₀, hr₀, ⟨-, rfl⟩ | ⟨-, rfl⟩⟩ := getElem?_setPhase hr'
    · exact h.bounded i r₀ hr₀
    · exact h.bounded i r' hr₀
  · obtain ⟨r₀, hr₀, hattr, hg⟩ := h.flights attr i hl
    obtain ⟨r', hr', har, hgr, -⟩ := hev i r₀ hr₀
    exact ⟨r', hr', har.trans hattr, hgr ▸ hg⟩
  · obtain ⟨r₀, hr₀, ⟨rfl, rfl⟩ | ⟨-, rfl⟩⟩ := getElem?_setPhase hr'
    · obtain rfl := Option.some.inj (hr.symm.trans hr₀)
      exact h.live i r hr (hlive hl)
    · exact h.live i r' hr₀ hl

theorem sound_eraseFlight {s : State} (h : Sound s) {attr : Attr}
    (hdone : ∀ (id : ℕ) (r : Review), s.reviews[id]? = some r → r.attr = attr →
      ¬ r.Live s.generation) : Sound { s with flights := s.flights.erase attr } := by
  refine ⟨h.bounded, h.entries, fun a id hl => ?_, h.unsupported, fun id r hr hlive => ?_⟩
  · by_cases ha : a = attr
    · subst ha
      simp at hl
    · rw [Finmap.lookup_erase_ne ha] at hl
      exact h.flights a id hl
  · have hne : r.attr ≠ attr := fun heq => hdone id r hr heq hlive
    rw [Finmap.lookup_erase_ne hne]
    exact h.live id r hr hlive

/-- What a change of the cache leaves that is none of a resolver. -/
structure Kept (s s' : State) : Prop where
  sound : Sound s'
  evolves : Evolves s.reviews s'.reviews
  generation : s.generation ≤ s'.generation
  checks : s'.checks = s.checks

theorem kept_commit {s : State} (h : Sound s) {id : ℕ} {r : Review} {reviewed : Reviewed} {now : ℕ}
    (hr : s.reviews[id]? = some r) (hphase : r.phase = .answered reviewed now) :
    Kept s (s.commit id r reviewed now) := by
  have hout : r.output id = none := by simp [Review.output, hphase]
  have hev := evolves_setPhase hr hout (.finished reviewed now)
  have hsound : Sound (s.setPhase id (.finished reviewed now)) :=
    sound_setPhase h hr hout fun hl => by simp [Review.Live] at hl
  have hget : (s.setPhase id (.finished reviewed now)).reviews[id]? =
      some { r with phase := .finished reviewed now } := by
    simp [State.setPhase, hr]
  unfold State.commit
  generalize hs' : s.setPhase id (.finished reviewed now) = s' at hev hsound hget
  have hgen : s'.generation = s.generation := by rw [← hs']; rfl
  have hchecks : s'.checks = s.checks := by rw [← hs']; rfl
  have hflights : s'.flights = s.flights := by rw [← hs']; rfl
  dsimp only
  split_ifs with hsame
  · have hown : s.flights.lookup r.attr = some id :=
      h.live id r hr (.inr ⟨⟨reviewed, now, hphase⟩, hsame.symm⟩)
    have herased : Sound { s' with flights := s'.flights.erase r.attr } := by
      refine sound_eraseFlight hsound fun i r' hr' hattr hlive => ?_
      have hl := hsound.live i r' hr' hlive
      rw [hflights, hattr, hown] at hl
      obtain rfl := Option.some.inj hl
      obtain rfl := Option.some.inj (hget.symm.trans hr')
      simp [Review.Live] at hlive
    have hanswer : ∀ hit, answerOf id reviewed now = .ok hit →
        Gave s'.reviews s'.generation r.attr hit := by
      intro hit hans
      have hyield : Review.output ⟨r.attr, r.generation, .finished reviewed now⟩ id = some (.ok hit) := by
        simp [Review.output, hans]
      obtain ⟨-, hgave⟩ := gave_of_output hget hyield
      exact hgave.weaken (by rw [hgen, hsame])
    have hremember : ∀ hit, answerOf id reviewed now = .ok hit →
        Kept s (State.remember { s' with flights := s'.flights.erase r.attr } r.attr hit) := by
      intro hit hans
      obtain ⟨hr₁, hg₁, hc₁⟩ := remember_fields { s' with flights := s'.flights.erase r.attr } r.attr hit
      refine ⟨sound_remember herased (hanswer hit hans), ?_, ?_, hc₁.trans hchecks⟩
      · rw [hr₁]
        exact hev
      · rw [hg₁]
        exact hgen.ge
    cases reviewed with
    | allowed => exact hremember _ rfl
    | denied => exact hremember _ rfl
    | inconclusive => exact hremember _ rfl
    | failed e => exact ⟨herased, hev, hgen.ge, hchecks⟩
    | unsupported e =>
      refine ⟨⟨herased.bounded, herased.entries, herased.flights, fun e' i he => ?_, herased.live⟩,
        hev, hgen.ge, hchecks⟩
      simp only [Option.some.injEq, Prod.mk.injEq] at he
      obtain ⟨rfl, rfl⟩ := he
      exact ⟨_, hget, by rw [hgen, hsame], by simp [Review.output, answerOf]⟩
  · exact ⟨hsound, hev, hgen.ge, hchecks⟩

theorem getElem?_drainFlights {s : State} {id : ℕ} {r : Review}
    (hr : s.drainFlights[id]? = some r) :
    ∃ r₀, s.reviews[id]? = some r₀ ∧
      (s.flights.lookup r₀.attr = some id ∧ r₀.phase = .running ∧ r = { r₀ with phase := .aborted } ∨
        ¬ (s.flights.lookup r₀.attr = some id ∧ r₀.phase = .running) ∧ r = r₀) := by
  rw [State.drainFlights, List.getElem?_mapIdx] at hr
  obtain ⟨r₀, hr₀, rfl⟩ := Option.map_eq_some_iff.mp hr
  refine ⟨r₀, hr₀, ?_⟩
  split_ifs with hreg
  · exact .inl ⟨hreg.1, hreg.2, rfl⟩
  · exact .inr ⟨hreg, rfl⟩

theorem kept_invalidate {s : State} (h : Sound s) : Kept s s.invalidate := by
  have hgen : s.invalidate.generation = s.generation + 1 := rfl
  have hbounded : ∀ (id : ℕ) (r : Review), s.invalidate.reviews[id]? = some r →
      r.generation ≤ s.generation := by
    intro id r hr
    obtain ⟨r₀, hr₀, ⟨-, -, rfl⟩ | ⟨-, rfl⟩⟩ := getElem?_drainFlights hr
    · exact h.bounded id r₀ hr₀
    · exact h.bounded id r hr₀
  refine ⟨⟨?_, ?_, ?_, ?_, ?_⟩, ?_, Nat.le_succ _, rfl⟩
  · exact fun id r hr => (hbounded id r hr).trans (Nat.le_succ _)
  · intro e he
    simp [State.invalidate] at he
  · intro attr id hl
    simp [State.invalidate] at hl
  · intro e id he
    simp [State.invalidate] at he
  · rintro id r hr (hrunning | ⟨-, hg⟩)
    · obtain ⟨r₀, hr₀, ⟨-, -, rfl⟩ | ⟨hnot, rfl⟩⟩ := getElem?_drainFlights hr
      · cases hrunning
      · exact absurd ⟨h.live id r hr₀ (.inl hrunning), hrunning⟩ hnot
    · have hle := hbounded id r hr
      omega
  · intro id r hr
    by_cases hreg : s.flights.lookup r.attr = some id ∧ r.phase = .running
    · refine ⟨{ r with phase := .aborted }, ?_, rfl, rfl, fun hne => ?_⟩
      · simp [State.invalidate, State.drainFlights, hr, hreg]
      · exact absurd (by simp [Review.output, hreg.2]) hne
    · exact ⟨r, by simp [State.invalidate, State.drainFlights, hr, hreg], rfl, rfl, fun _ => rfl⟩

structure Invariant (s : State) : Prop where
  sound : Sound s
  checks : ∀ c ∈ s.checks, CheckOk s c

theorem CheckOk.evolve {s s' : State} {c : Check} (h : CheckOk s c)
    (hev : Evolves s.reviews s'.reviews) (hgen : s.generation ≤ s'.generation) : CheckOk s' c :=
  ⟨h.started.trans hgen, fun slot hslot => hev.slotOk hgen (h.slots slot hslot)⟩

theorem Invariant.kept {s s' : State} (h : Invariant s) (hk : Kept s s') : Invariant s' := by
  refine ⟨hk.sound, fun c hc => ?_⟩
  rw [hk.checks] at hc
  exact (h.checks c hc).evolve hk.evolves hk.generation

variable {Req : Type} {plan : Req → Except String Plan}

/-- What a step can do. -/
inductive Step (plan : Req → Except String Plan) (s : State) : Action Req → State → Prop
  | tick (elapsed) : Step plan s (.tick elapsed) { s with now := s.now + elapsed }
  | check (requests) : Step plan s (.check requests) { s with
      checks := s.checks ++ [⟨s.generation, requests.map plan, (uniqAttrs (requests.map plan)).map (lookupSlot s)⟩] }
  | advance {i j c slot t slot'} (hc : s.checks[i]? = some c) (hslot : c.slots[j]? = some slot)
      (hadv : PermissionReviews.advance s slot = some (t, slot')) :
      Step plan s (.advance i j) { t with checks := s.checks.set i { c with slots := c.slots.set j slot' } }
  | answer {id attr generation} (hr : s.reviews[id]? = some ⟨attr, generation, .running⟩) (reviewed) :
      Step plan s (.answer id reviewed) (s.setPhase id (.answered reviewed s.now))
  | commit {id attr generation reviewed now} (hr : s.reviews[id]? = some ⟨attr, generation, .answered reviewed now⟩) :
      Step plan s (.commit id) (s.commit id ⟨attr, generation, .answered reviewed now⟩ reviewed now)
  | abort {id attr generation} (hr : s.reviews[id]? = some ⟨attr, generation, .running⟩) :
      Step plan s (.abort id) (s.setPhase id .aborted)
  | invalidate : Step plan s .invalidate s.invalidate

theorem step_inv {s s' : State} {a : Action Req} (hs : step plan s a = some s') : Step plan s a s' := by
  cases a with
  | tick elapsed =>
    cases hs
    exact .tick elapsed
  | check requests =>
    cases hs
    exact .check requests
  | advance i j =>
    cases hc : s.checks[i]? with
    | none => simp [step, hc] at hs
    | some c =>
      cases hslot : c.slots[j]? with
      | none => simp [step, hc, hslot] at hs
      | some slot =>
        simp only [step, hc, hslot, Option.map_eq_some_iff] at hs
        obtain ⟨⟨t, slot'⟩, hadv, rfl⟩ := hs
        exact .advance hc hslot hadv
  | answer id reviewed =>
    simp only [step] at hs
    split at hs
    · next hr =>
      cases hs
      exact .answer hr reviewed
    · cases hs
  | commit id =>
    simp only [step] at hs
    split at hs
    · next hr =>
      cases hs
      exact .commit hr
    · cases hs
  | abort id =>
    simp only [step] at hs
    split at hs
    · next hr =>
      cases hs
      exact .abort hr
    · cases hs
  | invalidate =>
    cases hs
    exact .invalidate

theorem kept_setPhase {s : State} (h : Sound s) {id : ℕ} {attr : Attr} {generation : ℕ}
    (hr : s.reviews[id]? = some ⟨attr, generation, .running⟩) (phase : ReviewPhase) :
    Kept s (s.setPhase id phase) :=
  ⟨sound_setPhase h hr rfl fun _ => .inl rfl, evolves_setPhase hr rfl phase, le_rfl, rfl⟩

theorem invariant_step {s s' : State} {a : Action Req} (h : Invariant s)
    (hs : step plan s a = some s') : Invariant s' := by
  cases step_inv hs with
  | tick elapsed =>
    exact ⟨⟨h.sound.bounded, h.sound.entries, h.sound.flights, h.sound.unsupported, h.sound.live⟩,
      fun c hc => (h.checks c hc).evolve (Evolves.refl _) le_rfl⟩
  | check requests =>
    refine ⟨⟨h.sound.bounded, h.sound.entries, h.sound.flights, h.sound.unsupported, h.sound.live⟩,
      fun c hc => ?_⟩
    rcases List.mem_append.mp hc with hc | hc
    · exact (h.checks c hc).evolve (Evolves.refl _) le_rfl
    · obtain rfl := List.mem_singleton.mp hc
      refine ⟨le_rfl, fun slot hslot => ?_⟩
      obtain ⟨attr, -, rfl⟩ := List.mem_map.mp hslot
      exact lookupSlot_ok h.sound attr
  | @advance i j c slot t slot' hc hslot hadv =>
    have hok := h.checks c (List.mem_of_getElem? hc)
    have hadvanced := advanced_of_advance h.sound hok.started
      (hok.slots slot (List.mem_of_getElem? hslot)) hadv
    have hothers : ∀ d ∈ s.checks, CheckOk t d := fun d hd =>
      (h.checks d hd).evolve hadvanced.evolves hadvanced.generation.ge
    refine ⟨⟨hadvanced.sound.bounded, hadvanced.sound.entries, hadvanced.sound.flights,
      hadvanced.sound.unsupported, hadvanced.sound.live⟩, fun d hd => ?_⟩
    suffices hd : CheckOk t d from ⟨hd.started, hd.slots⟩
    rcases List.mem_or_eq_of_mem_set hd with hd | rfl
    · exact hothers d hd
    · have hold := hothers c (List.mem_of_getElem? hc)
      refine ⟨hold.started, fun sl hsl => ?_⟩
      rcases List.mem_or_eq_of_mem_set hsl with hsl | rfl
      · exact hold.slots sl hsl
      · exact hadvanced.slotOk
  | answer hr _ => exact h.kept (kept_setPhase h.sound hr _)
  | commit hr => exact h.kept (kept_commit h.sound hr rfl)
  | abort hr => exact h.kept (kept_setPhase h.sound hr _)
  | invalidate => exact h.kept (kept_invalidate h.sound)

theorem invariant_start : Invariant State.start := by
  refine ⟨⟨?_, ?_, ?_, ?_, ?_⟩, ?_⟩ <;> simp [State.start]

theorem invariant_run {s : State} {as : List (Action Req)}
    (h : run (step plan) State.start as = some s) : Invariant s :=
  run_invariant (fun _ _ _ hinv hst => invariant_step hinv hst) invariant_start h

theorem inconclusiveTtl_le : inconclusiveTtl ≤ ttl :=
  Nat.mul_le_mul_right _ (by decide)

theorem expires_le {id : ℕ} {reviewed : Reviewed} {now : ℕ} {hit : Hit}
    (h : answerOf id reviewed now = .ok hit) : hit.expires ≤ now + ttl := by
  cases reviewed <;> simp only [answerOf, Except.ok.injEq, reduceCtorEq] at h <;> rw [← h]
  exact Nat.add_le_add_left inconclusiveTtl_le now

/-- What the cache and its callers rest on in a state. Generations count the invalidations, so a
review of generation `g` was launched after the `g`-th. -/
structure Complete (s : State) : Prop where
  entries : ∀ attr hit, (attr, hit) ∈ s.entries → ∃ r : Review, s.reviews[hit.review]? = some r ∧
    r.generation = s.generation ∧ Gave s.reviews s.generation attr hit
  flights : ∀ attr id, s.flights.lookup attr = some id → ∃ r : Review, s.reviews[id]? = some r ∧
    r.generation = s.generation ∧ r.attr = attr
  unsupported : ∀ e id, s.unsupported = some (e, id) → ∃ r : Review, s.reviews[id]? = some r ∧
    r.generation = s.generation ∧ r.output id = some (.error e)
  oneFlight : ∀ (id id' : ℕ) (r r' : Review), s.reviews[id]? = some r → s.reviews[id']? = some r' →
    r.Live s.generation → r'.Live s.generation → r.attr = r'.attr → id = id'
  verdicts : ∀ c ∈ s.checks, ∀ slot ∈ c.slots, ∀ v, slot.verdict? = some v →
    Supported s.reviews slot.attr slot.basis v ∧
      ∀ id ∈ slot.basis, ∃ r : Review, s.reviews[id]? = some r ∧ c.generation ≤ r.generation
  served : ∀ attr hit, s.fresh attr = some hit → ∃ (r : Review) (reviewed : Reviewed) (now : ℕ),
    s.reviews[hit.review]? = some r ∧ r.attr ∈ attr.broadening ∧
      r.phase = .finished reviewed now ∧ s.now < now + ttl

def samplePlan (attrs : List Attr) : Except String Plan := .ok ⟨attrs, []⟩

def samplePods : Attr := ⟨"get", "", "pods", "", "prod", ""⟩

/-- An invalidation while the review of a first check is out, and a second check after it. -/
def invalidatedRun : List (Action (List Attr)) :=
  [.check [[samplePods]], .advance 0 0, .advance 0 0, .invalidate, .check [[samplePods]],
    .advance 1 0, .advance 1 0, .answer 1 .allowed, .advance 0 0, .commit 1, .advance 1 0,
    .advance 1 0]

end FerrisScope.PermissionReviews
