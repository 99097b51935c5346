import FerrisScope.SecretScan

/-!
# Triggers in the value of another trigger

A value is hidden unless its trigger lies in what an earlier piece hides. A trigger of secret characters is
hidden there together with its value. The trigger that ends with a blank is not: the value before it ends at
the blank, and the characters behind the blank are scanned as if nothing had come before them.
-/

namespace FerrisScope.SwallowedTriggers
open HostsFile (Text)
open AsciiCase ProviderErrors SecretScan ListCuts

/-- A value trigger at a word boundary of the text, with the run of secret characters behind it. -/
structure Triggered (input : Text) where
  pre : Text
  trigger : Text
  value : Text
  post : Text
  whole : input = pre ++ (trigger ++ (value ++ post))
  boundary : atBoundary pre = true
  isTrigger : IsTrigger trigger
  maximal : run (value ++ post) = value

/-- The character at this place is copied to the output. -/
def IsCopied (input : Text) (k : Nat) : Prop := ((pieces [] input).flatMap Piece.copied)[k]? = some true

/-- A piece of the scan begins behind `a`. -/
def Starts (input a : Text) (p : Piece) : Prop := Cut Piece.text (pieces [] input) a p

/-- What a word at this place comes to lie in, up to the end of its first run: the value of a trigger that is no
part of another value, or a token. -/
def Covered (pre : Text) : Prop :=
  ∃ (a w mid : Text) (_ : pre = a ++ (w ++ mid)), atBoundary a = true ∧ mid.all isSecretChar = true ∧
    ((∃ _ : IsTrigger w, IsBearer w → ¬ Covered a) ∨ w = [] ∧ IsKeyToken (mid ++ "bearer".toList))
termination_by pre.length
decreasing_by
  rename_i hpre hw _
  have hpos := List.length_pos_of_ne_nil hw.ne_nil
  rw [hpre, List.length_append, List.length_append]
  omega

/-! ## Where pieces begin -/

theorem pieceAt_of_span {before t : Text} {p : Piece} (hb : atBoundary before = true) (h : spanAt t = some p) :
    pieceAt before t = p := by rw [pieceAt, hb, if_pos rfl, h]

theorem pieces_split {before t : Text} {ps qs : List Piece} {p : Piece} (h : pieces before t = ps ++ p :: qs) :
    ∃ r, r ≠ [] ∧ t = ps.flatMap Piece.text ++ r ∧ p = pieceAt (before ++ ps.flatMap Piece.text) r ∧
      p :: qs = pieces (before ++ ps.flatMap Piece.text) r := by
  induction ps generalizing before t with
  | nil =>
    have ht : t ≠ [] := by
      rintro rfl
      rw [pieces_nil] at h
      cases h
    obtain ⟨r, -, hpieces⟩ := pieces_eq before ht
    rw [List.flatMap_nil, List.append_nil]
    refine ⟨t, ht, rfl, ?_, h.symm⟩
    exact (List.cons.inj (h.symm.trans hpieces)).1
  | cons q ps ih =>
    have ht : t ≠ [] := by
      rintro rfl
      rw [pieces_nil] at h
      cases h
    obtain ⟨r, hr, hpieces⟩ := pieces_eq before ht
    obtain ⟨hq, htail⟩ := List.cons.inj (hpieces.symm.trans h)
    rw [hq] at hr htail
    obtain ⟨s, hs, hrs, hp, hrest⟩ := ih htail
    refine ⟨s, hs, ?_, ?_, ?_⟩
    · rw [List.flatMap_cons, List.append_assoc, ← hrs, ← hr]
    · rwa [List.flatMap_cons, ← List.append_assoc]
    · rwa [List.flatMap_cons, ← List.append_assoc]

theorem Starts.spec {input a r : Text} {p : Piece} (h : Starts input a p) (hr : input = a ++ r) :
    r ≠ [] ∧ p = pieceAt a r := by
  obtain ⟨before, after, hpieces, rfl⟩ := h
  obtain ⟨s, hs, hwhole, hp, -⟩ := pieces_split hpieces
  rw [List.append_cancel_left (hwhole.symm.trans hr)] at hs hp
  exact ⟨hs, hp⟩

theorem Starts.next {input a r : Text} {p : Piece} (h : Starts input a p) (hwhole : input = a ++ (p.text ++ r))
    (hr : r ≠ []) : Starts input (a ++ p.text) (pieceAt (a ++ p.text) r) := by
  obtain ⟨before, after, hpieces, rfl⟩ := h
  obtain ⟨s, hs, hwhole', hp, hrest⟩ := pieces_split hpieces
  obtain ⟨s', hs', hpieces'⟩ := pieces_eq (before.flatMap Piece.text) hs
  rw [List.nil_append] at hp hrest
  rw [← hp] at hs' hpieces'
  have hsame : s' = r := by
    rw [List.append_cancel_left (hwhole'.symm.trans hwhole)] at hs'
    exact (List.append_cancel_left hs').symm
  have hafter : after = pieces (before.flatMap Piece.text ++ p.text) r := by
    rw [← hsame]
    exact (List.cons.inj (hrest.trans hpieces')).2
  obtain ⟨r', -, hpieces''⟩ := pieces_eq (before.flatMap Piece.text ++ p.text) hr
  refine ⟨before ++ [p], pieces (before.flatMap Piece.text ++ p.text ++ (pieceAt (before.flatMap Piece.text ++ p.text) r).text) r',
    ?_, ?_⟩
  · rw [hpieces, hafter, hpieces'', List.append_assoc before]
    rfl
  · rw [List.flatMap_append, List.flatMap_cons, List.flatMap_nil, List.append_nil]

theorem Starts.isCopied_iff {input a : Text} {p : Piece} (h : Starts input a p) {k : Nat} (hk : k < p.text.length) :
    IsCopied input (a.length + k) ↔ k < p.kept.length := by
  rw [IsCopied, Cut.label h Piece.length_copied hk, Piece.copied]
  by_cases hkept : k < p.kept.length
  · rw [List.getElem?_append_left (by rwa [List.length_replicate]), List.getElem?_replicate, if_pos hkept]
    exact iff_of_true rfl hkept
  · rw [Piece.text, List.length_append] at hk
    rw [List.getElem?_append_right (by rw [List.length_replicate]; omega), List.length_replicate,
      List.getElem?_replicate, if_pos (by omega)]
    exact iff_of_false (by decide) hkept

/-- A word that starts with a secret character lies within what a piece hides, unless a piece begins there. -/
theorem hidden_within {input pre rest : Text} (hwhole : input = pre ++ rest) (hb : atBoundary pre = true)
    (hrun : run rest ≠ []) (hnot : ∀ p, ¬ Starts input pre p) :
    ∃ a p mid, Starts input a p ∧ atBoundary a = true ∧ pre = a ++ (p.kept ++ mid) ∧ p.hidden = mid ++ run rest ∧
      p.hidden.all isSecretChar = true ∧ (IsTrigger p.kept ∨ p.kept = [] ∧ IsKeyToken p.hidden) := by
  have hrest : rest ≠ [] := by
    rintro rfl
    exact hrun rfl
  obtain ⟨a, p, v, w, hstart, hpre, htext, hw⟩ := exists_cut ((text_pieces [] input).trans hwhole) hrest
  have hv : v ≠ [] := by
    rintro rfl
    rw [List.append_nil] at hpre
    exact hnot p (hpre ▸ hstart)
  obtain ⟨hne, hp⟩ := Starts.spec hstart (r := v ++ rest) (by rw [hwhole, hpre, List.append_assoc])
  rcases pieceAt_cases a hne with ⟨c, r, hcr, hcopy, -⟩ | ⟨ha, hspan⟩
  · -- One character has no inside.
    rw [hp, hcopy] at htext
    have hone := congrArg List.length htext
    have hvpos := List.length_pos_of_ne_nil hv
    have hwpos := List.length_pos_of_ne_nil hw
    rw [List.length_append] at hone
    have hsingle : (Piece.text ⟨[c], []⟩).length = 1 := rfl
    omega
  · rw [← hp] at hspan
    obtain ⟨r, hr, hhidden, hkind⟩ := spanAt_spec hspan
    have hsecret : p.hidden.all isSecretChar = true := by
      rw [hhidden]
      exact run_all r
    rw [hpre, atBoundary_append a hv] at hb
    rw [Piece.text] at htext
    rcases List.append_eq_append_iff.mp htext with ⟨mid, hmid, hrest'⟩ | ⟨l, hl, hrest'⟩
    · refine ⟨a, p, mid, hstart, ha, by rw [hpre, hmid], ?_, hsecret, hkind⟩
      have hr' : r = mid ++ rest := by
        rw [hmid, List.append_assoc] at hr
        exact (List.append_cancel_left hr).symm
      rw [hrest', List.all_append, Bool.and_eq_true] at hsecret
      rw [hhidden, hr', run_append rest hsecret.1]
    · cases l with
      | nil =>
        rw [List.append_nil] at hl
        refine ⟨a, p, [], hstart, ha, by rw [hpre, hl, List.append_nil], ?_, hsecret, hkind⟩
        rw [hl] at hr
        rw [hhidden, List.append_cancel_left hr, List.nil_append]
      | cons c l =>
        rcases hkind with htrigger | ⟨hkept, -⟩
        · rw [hl] at htrigger
          rw [htrigger.no_boundary hv (List.cons_ne_nil c l)] at hb
          cases hb
        · rw [hkept] at hl
          exact absurd (List.append_eq_nil_iff.mp hl.symm).1 hv

/-! ## The trigger that ends with a blank -/

theorem isKeyToken_congr {v v' : Text} (h : toAsciiLowercase v = toAsciiLowercase v') : IsKeyToken v ↔ IsKeyToken v' := by
  have hlength : v.length = v'.length := by rw [← length_lower, h, length_lower]
  rw [IsKeyToken, IsKeyToken, h, hlength]

theorem bearer_split {w : Text} (h : IsBearer w) :
    ∃ v, w = v ++ [' '] ∧ v.all isSecretChar = true ∧ v ≠ [] ∧ toAsciiLowercase v = "bearer".toList := by
  have hsplit : w.map Char.toLower = "bearer".toList ++ [' '] := h.trans (by decide)
  obtain ⟨v, u, rfl, hv, hu⟩ := List.map_eq_append_iff.mp hsplit
  obtain ⟨c, rfl, hc⟩ := List.map_eq_singleton_iff.mp hu
  have hblank : c = ' ' := by
    rcases toLower_cases c with hsame | ⟨-, halnum⟩
    · rw [← hsame, hc]
    · rw [hc] at halnum
      exact absurd halnum (by decide)
  have hv' : toAsciiLowercase v = "bearer".toList := hv
  refine ⟨v, by rw [hblank], ?_, ?_, hv'⟩
  · rw [← all_secret_lower, hv']
    decide
  · rintro rfl
    exact absurd hv' (by decide)

theorem bearer_run {v : Text} (rest : Text) (h : v.all isSecretChar = true) : run (v ++ [' '] ++ rest) = v := by
  rw [List.append_assoc, run_append _ h, List.singleton_append, run_cons_of_not rest (by decide), List.append_nil]

/-- A trigger starts with a secret character. -/
theorem run_trigger_ne_nil {w : Text} (rest : Text) (h : IsTrigger w) : run (w ++ rest) ≠ [] := by
  by_cases hbearer : IsBearer w
  · obtain ⟨v, rfl, hv, hne, -⟩ := bearer_split hbearer
    rwa [bearer_run rest hv]
  · rw [run_append rest (h.secret hbearer)]
    exact List.append_ne_nil_of_left_ne_nil h.ne_nil _

/-- A bearer trigger here is not found exactly when it is covered. -/
def Decided (input pre : Text) : Prop :=
  ∀ w rest, input = pre ++ (w ++ rest) → atBoundary pre = true → IsBearer w → (Covered pre ↔ ∀ p, ¬ Starts input pre p)

theorem isKeyToken_bearer {v : Text} (mid : Text) (h : toAsciiLowercase v = "bearer".toList) :
    IsKeyToken (mid ++ v) ↔ IsKeyToken (mid ++ "bearer".toList) := by
  apply isKeyToken_congr
  rw [lower_append, lower_append, h]
  rfl

section Word

variable {input a w mid v rest : Text}

/-- The piece that begins at a word reaches into the secret characters behind it. -/
theorem Starts.reaches {q : Piece} (hq : Starts input a q) (hwhole : input = a ++ (w ++ (mid ++ (v ++ [' '] ++ rest))))
    (ha : atBoundary a = true) (hmid : mid.all isSecretChar = true) (hv : v.all isSecretChar = true) (hvne : v ≠ [])
    (hkind : IsTrigger w ∨ w = [] ∧ IsKeyToken (mid ++ v)) : w.length + mid.length < q.text.length := by
  have hvpos := List.length_pos_of_ne_nil hvne
  have hrun : run (mid ++ (v ++ [' '] ++ rest)) = mid ++ v := by rw [run_append _ hmid, bearer_run rest hv]
  have hp := (hq.spec hwhole).2
  rcases hkind with htrigger | ⟨rfl, hkey⟩
  · rw [pieceAt_of_span ha (spanAt_trigger _ htrigger), hrun] at hp
    have htext : q.text = w ++ (mid ++ v) := by rw [hp]; rfl
    rw [htext, List.length_append, List.length_append]
    omega
  · rw [List.nil_append, pieceAt_of_span ha (spanAt_token (by rwa [hrun])), hrun] at hp
    rw [hp, Piece.text, List.nil_append, List.length_append, List.length_nil]
    omega

/-- What hides a word of secret characters reaches over all of them. -/
theorem hidden_reaches (hwhole : input = a ++ (w ++ (mid ++ (v ++ [' '] ++ rest)))) (ha : atBoundary a = true)
    (hrun : run (w ++ (mid ++ (v ++ [' '] ++ rest))) = w ++ (mid ++ v)) (hvne : v ≠ [])
    (hnot : ∀ q, ¬ Starts input a q) :
    ∃ b q, Starts input b q ∧ b.length ≤ a.length ∧ a.length + (w.length + mid.length) < b.length + q.text.length := by
  have hvpos := List.length_pos_of_ne_nil hvne
  have hne : run (w ++ (mid ++ (v ++ [' '] ++ rest))) ≠ [] := by
    rw [hrun, ← List.append_assoc]
    exact List.append_ne_nil_of_right_ne_nil _ hvne
  obtain ⟨b, q, m, hq, -, hab, hhidden, -⟩ := hidden_within hwhole ha hne hnot
  rw [hrun] at hhidden
  refine ⟨b, q, hq, by rw [hab, List.length_append]; omega, ?_⟩
  rw [hab, Piece.text, hhidden]
  simp only [List.length_append]
  omega

end Word

section Bearer

variable {input pre v rest : Text} (hearlier : ∀ a : Text, a.length < pre.length → Decided input a)
  (hwhole : input = pre ++ (v ++ [' '] ++ rest)) (hv : v.all isSecretChar = true) (hvne : v ≠ [])
  (hlower : toAsciiLowercase v = "bearer".toList)
include hearlier hwhole hv hvne hlower

theorem unstarted_of_covered (h : Covered pre) (p : Piece) : ¬ Starts input pre p := by
  intro hstart
  rw [Covered] at h
  obtain ⟨a, w, mid, hpre, ha, hmid, hkind⟩ := h
  have hwhole' : input = a ++ (w ++ (mid ++ (v ++ [' '] ++ rest))) := by
    rw [hwhole, hpre, List.append_assoc, List.append_assoc]
  have hlength : pre.length = a.length + (w.length + mid.length) := by
    rw [hpre, List.length_append, List.length_append]
  have hshorter : a.length < pre.length := by
    rcases hkind with ⟨htrigger, -⟩ | ⟨-, k, -, -, hlong⟩
    · have hwpos := List.length_pos_of_ne_nil htrigger.ne_nil
      omega
    · rw [List.length_append] at hlong
      have hsix : "bearer".toList.length = 6 := by decide
      omega
  -- A piece that begins at `a` or earlier reaches over the start of the trigger.
  have hover : ∃ b q, Starts input b q ∧ b.length ≤ a.length ∧ pre.length < b.length + q.text.length := by
    by_cases hthere : ∃ q, Starts input a q
    · obtain ⟨q, hq⟩ := hthere
      refine ⟨a, q, hq, le_rfl, ?_⟩
      have hreach := hq.reaches hwhole' ha hmid hv hvne
        (hkind.imp (fun htrigger => htrigger.1) (And.imp_right (isKeyToken_bearer mid hlower).mpr))
      omega
    · have hnot : ∀ q, ¬ Starts input a q := fun q hq => hthere ⟨q, hq⟩
      rw [hlength]
      refine hidden_reaches hwhole' ha ?_ hvne hnot
      rcases hkind with ⟨htrigger, hfree⟩ | ⟨rfl, -⟩
      · by_cases hbearer : IsBearer w
        · exact absurd ((hearlier a hshorter w _ hwhole' ha hbearer).mpr hnot) (hfree hbearer)
        · rw [run_append _ (htrigger.secret hbearer), run_append _ hmid, bearer_run rest hv]
      · rw [List.nil_append, List.nil_append, run_append _ hmid, bearer_run rest hv]
  obtain ⟨b, q, hq, hle, hlt⟩ := hover
  obtain ⟨hne, hp⟩ := hstart.spec hwhole
  have hsame : b = pre := Cut.unique hq hstart (by omega) hlt (by rw [hp]; exact (pieceAt_text pre hne).1)
  rw [hsame] at hle
  omega

theorem covered_of_unstarted (hb : atBoundary pre = true) (hnot : ∀ p, ¬ Starts input pre p) : Covered pre := by
  obtain ⟨a, p, mid, hstart, ha, hpre, hhidden, hsecret, hkind⟩ :=
    hidden_within hwhole hb (by rwa [bearer_run rest hv]) hnot
  rw [bearer_run rest hv] at hhidden
  rw [hhidden, List.all_append, Bool.and_eq_true] at hsecret
  rw [Covered]
  refine ⟨a, p.kept, mid, hpre, ha, hsecret.1, ?_⟩
  rcases hkind with htrigger | ⟨hkept, hkey⟩
  · refine .inl ⟨htrigger, fun hbearer hcovered => ?_⟩
    have hpos := List.length_pos_of_ne_nil htrigger.ne_nil
    have hwhole' : input = a ++ (p.kept ++ (mid ++ (v ++ [' '] ++ rest))) := by
      rw [hwhole, hpre, List.append_assoc, List.append_assoc]
    have hshorter : a.length < pre.length := by
      rw [hpre, List.length_append, List.length_append]
      omega
    exact (hearlier a hshorter _ _ hwhole' ha hbearer).mp hcovered p hstart
  · exact .inr ⟨hkept, (isKeyToken_bearer mid hlower).mp (hhidden ▸ hkey)⟩

end Bearer

/-- This trigger is not found exactly when it is covered. -/
theorem covered_iff (input pre : Text) : Decided input pre := by
  induction hn : pre.length using Nat.strong_induction_on generalizing pre with
  | _ n ih =>
    subst hn
    have hearlier : ∀ a : Text, a.length < pre.length → Decided input a := fun a ha => ih a.length ha a rfl
    intro w rest hwhole hb hw
    obtain ⟨v, rfl, hv, hvne, hlower⟩ := bearer_split hw
    exact ⟨unstarted_of_covered hearlier hwhole hv hvne hlower,
      covered_of_unstarted hearlier hwhole hv hvne hlower hb⟩

/-! ## What becomes of a value -/

theorem Triggered.hidden_of_start {input : Text} (o : Triggered input) {p : Piece} (h : Starts input o.pre p) :
    ∀ k < o.value.length, ¬ IsCopied input (o.pre.length + o.trigger.length + k) := by
  have hp := (h.spec o.whole).2
  rw [pieceAt_of_span o.boundary (spanAt_trigger _ o.isTrigger), o.maximal] at hp
  have hkept : p.kept = o.trigger := by rw [hp]
  have hhidden : p.hidden = o.value := by rw [hp]
  intro k hk
  rw [Nat.add_assoc, h.isCopied_iff, hkept]
  · omega
  · rw [Piece.text, hkept, hhidden, List.length_append]
    omega

/-- A trigger of secret characters is hidden as a part of the value it lies in, and its own value with it. -/
theorem Triggered.hidden_of_secret {input : Text} (o : Triggered input) (h : o.trigger.all isSecretChar = true)
    (hnot : ∀ p, ¬ Starts input o.pre p) :
    ∀ k < o.value.length, ¬ IsCopied input (o.pre.length + o.trigger.length + k) := by
  have hrun : run (o.trigger ++ (o.value ++ o.post)) = o.trigger ++ o.value := by rw [run_append _ h, o.maximal]
  obtain ⟨a, p, mid, hstart, -, hpre, hhidden, -⟩ :=
    hidden_within o.whole o.boundary (run_trigger_ne_nil _ o.isTrigger) hnot
  rw [hrun] at hhidden
  intro k hk
  have hplace : o.pre.length + o.trigger.length + k = a.length + (p.kept.length + mid.length + o.trigger.length + k) := by
    rw [hpre, List.length_append, List.length_append]
    omega
  rw [hplace, hstart.isCopied_iff]
  · omega
  · rw [Piece.text, hhidden, List.length_append, List.length_append, List.length_append]
    omega

/-- Behind the blank of a trigger that is hidden the scan begins anew. -/
theorem Triggered.start_of_hidden {input : Text} (o : Triggered input) (h : IsBearer o.trigger)
    (hnot : ∀ p, ¬ Starts input o.pre p) (hvalue : o.value ≠ []) :
    Starts input (o.pre ++ o.trigger) (pieceAt (o.pre ++ o.trigger) (o.value ++ o.post)) := by
  obtain ⟨v, hv, hsecret, hne, -⟩ := bearer_split h
  have hwhole := o.whole
  obtain ⟨a, p, mid, hstart, -, hpre, hhidden, -⟩ :=
    hidden_within hwhole o.boundary (run_trigger_ne_nil _ o.isTrigger) hnot
  rw [hv] at hwhole hhidden ⊢
  rw [bearer_run _ hsecret] at hhidden
  have hrest : [' '] ++ (o.value ++ o.post) ≠ [] := List.cons_ne_nil _ _
  have hblank := hstart.next (r := [' '] ++ (o.value ++ o.post))
    (hwhole.trans (by rw [hpre, Piece.text, hhidden]; simp only [List.append_assoc])) hrest
  have hend : a ++ p.text = o.pre ++ v := by
    rw [hpre, Piece.text, hhidden]
    simp only [List.append_assoc]
  have hcopy : pieceAt (a ++ p.text) ([' '] ++ (o.value ++ o.post)) = ⟨[' '], []⟩ := by
    rcases pieceAt_cases (a ++ p.text) hrest with ⟨c, r, hcr, hp, -⟩ | ⟨-, hspan⟩
    · rw [hp, (List.cons.inj hcr).1]
    · rw [List.singleton_append, spanAt_of_not_secret _ (by decide)] at hspan
      cases hspan
  rw [hcopy, hend] at hblank
  have hnext := hblank.next (r := o.value ++ o.post)
    (hwhole.trans (by simp only [Piece.text, List.append_assoc, List.nil_append]))
    (List.append_ne_nil_of_left_ne_nil hvalue _)
  rwa [Piece.text, List.append_nil, List.append_assoc] at hnext

theorem Triggered.hidden_iff {input : Text} (o : Triggered input) :
    (∀ k < o.value.length, ¬ IsCopied input (o.pre.length + o.trigger.length + k)) ↔
      (IsBearer o.trigger → Covered o.pre → o.value = [] ∨ IsKeyToken o.value) := by
  by_cases hthere : ∃ p, Starts input o.pre p
  · obtain ⟨p, hp⟩ := hthere
    refine iff_of_true (o.hidden_of_start hp) fun hbearer hcovered => ?_
    exact absurd hp ((covered_iff input o.pre _ _ o.whole o.boundary hbearer).mp hcovered p)
  · have hnot : ∀ p, ¬ Starts input o.pre p := fun p hp => hthere ⟨p, hp⟩
    by_cases hbearer : IsBearer o.trigger
    · have hcovered := (covered_iff input o.pre _ _ o.whole o.boundary hbearer).mpr hnot
      by_cases hvalue : o.value = []
      · refine iff_of_true (fun k hk => ?_) fun _ _ => .inl hvalue
        rw [hvalue] at hk
        exact absurd hk (Nat.not_lt_zero k)
      · have hstart := o.start_of_hidden hbearer hnot hvalue
        have hne : o.value ++ o.post ≠ [] := List.append_ne_nil_of_left_ne_nil hvalue _
        have hb : atBoundary (o.pre ++ o.trigger) = true := by
          obtain ⟨v, hv, -⟩ := bearer_split hbearer
          rw [hv, ← List.append_assoc, atBoundary_append _ (List.cons_ne_nil _ _)]
          decide
        have hpos := List.length_pos_of_ne_nil hvalue
        rw [← List.length_append]
        constructor
        · intro hhidden _ _
          right
          have hfirst := hhidden 0 hpos
          have htext := (pieceAt_text (o.pre ++ o.trigger) hne).1
          rw [hstart.isCopied_iff (List.length_pos_of_ne_nil htext)] at hfirst
          rcases pieceAt_cases (o.pre ++ o.trigger) hne with ⟨c, r, -, hp, -⟩ | ⟨-, hspan⟩
          · rw [hp] at hfirst
            exact absurd Nat.one_pos hfirst
          · obtain ⟨r, hr, hrun, htrigger | ⟨hkept, hkey⟩⟩ := spanAt_spec hspan
            · exact absurd (List.length_pos_of_ne_nil htrigger.ne_nil) hfirst
            · rw [hkept, List.nil_append] at hr
              rwa [hrun, ← hr, o.maximal] at hkey
        · intro hkey k hk
          have hkey' := (hkey hbearer hcovered).resolve_left hvalue
          rw [pieceAt_of_span hb (spanAt_token (by rwa [o.maximal])), o.maximal] at hstart
          rw [hstart.isCopied_iff hk]
          exact Nat.not_lt_zero k
    · refine iff_of_true (o.hidden_of_secret (o.isTrigger.secret hbearer) hnot) fun h => absurd h hbearer

end FerrisScope.SwallowedTriggers
