import FerrisScope.CommonAffixes
import FerrisScope.HostsFile

/-!
# Short names of clusters shown together

The token front and back that all names share are left out. A name whose short form is not the only
one of its kind keeps its full form. Nothing checks a full form against the short forms of the
others.
-/

namespace FerrisScope.ClusterShortNames
open HostsFile CommonAffixes

/-- The characters of `\s` in a regular expression. -/
def isSpace (c : Char) : Bool :=
  (9 ≤ c.toNat && c.toNat ≤ 13) || c.toNat == 0x20 || c.toNat == 0xA0 || c.toNat == 0x1680 ||
    (0x2000 ≤ c.toNat && c.toNat ≤ 0x200A) || c.toNat == 0x2028 || c.toNat == 0x2029 ||
    c.toNat == 0x202F || c.toNat == 0x205F || c.toNat == 0x3000 || c.toNat == 0xFEFF

/-- `NAME_TOKEN_SEP` -/
def isNameTokenSep (c : Char) : Bool := "-_./:".toList.contains c || isSpace c

-- Dropping the empty parts makes a run of separators one separator.
def nameTokens (n : Text) : List Text := (n.splitOnP isNameTokenSep).filter fun t => !t.isEmpty

def minLen (tokens : List (List Text)) : ℕ := (tokens.map List.length).min?.getD 0

/-- All token lists have the same token at this place. -/
def sameAt (tokens : List (List Text)) (i : ℕ) : Bool :=
  tokens.all fun t => t[i]? == (tokens.headD [])[i]?

/-- The same, counted from the end. -/
def sameAtEnd (tokens : List (List Text)) (i : ℕ) : Bool :=
  tokens.all fun t => t[t.length - 1 - i]? == (tokens.headD [])[(tokens.headD []).length - 1 - i]?

def prefixCount (tokens : List (List Text)) : ℕ := countWhile (sameAt tokens) 0 (minLen tokens - 1)

def suffixCount (tokens : List (List Text)) : ℕ :=
  countWhile (sameAtEnd tokens) 0 (minLen tokens - 1 - prefixCount tokens)

def joinTokens (t : List Text) : Text := ['-'].intercalate t

def shortForm (tokens : List (List Text)) (t : List Text) : Text :=
  joinTokens ((t.take (t.length - suffixCount tokens)).drop (prefixCount tokens))

/-- What is assigned to a name of the list. -/
def shownName (names : List Text) (n : Text) : Text :=
  let tokens := names.map nameTokens
  if names.length < 2 then n
  else if tokens.any List.isEmpty then n
  else if prefixCount tokens = 0 ∧ suffixCount tokens = 0 then n
  else
    let s := shortForm tokens (nameTokens n)
    if s ≠ [] ∧ (tokens.map (shortForm tokens)).count s = 1 then s else n

def protoKey : Text := "__proto__".toList

local instance : LawfulBEq Text := inferInstanceAs (LawfulBEq (List Char))

/-- The record's own value under a name. An assignment of a text to `__proto__` does nothing. -/
def shortClusterNames (names : List Text) (n : Text) : Option Text :=
  if n ∈ names ∧ n ≠ protoKey then some (shownName names n) else none

/-! ## Tokens -/

def Clean (t : Text) : Prop := t ≠ [] ∧ ∀ c ∈ t, isNameTokenSep c = false

theorem mem_of_mem_splitOnP {n t : Text} (h : t ∈ n.splitOnP isNameTokenSep) :
    ∀ c ∈ t, c ∈ n ∧ isNameTokenSep c = false := by
  induction n generalizing t with
  | nil =>
    rw [List.splitOnP_nil, List.mem_singleton] at h
    simp [h]
  | cons c cs ih =>
    have hlift : ∀ {u : Text}, u ∈ cs.splitOnP isNameTokenSep →
        ∀ d ∈ u, d ∈ c :: cs ∧ isNameTokenSep d = false := fun hu d hd =>
      ⟨List.mem_cons_of_mem c (ih hu d hd).1, (ih hu d hd).2⟩
    rw [List.splitOnP_cons] at h
    split at h
    · rcases List.mem_cons.mp h with rfl | h
      · simp
      · exact hlift h
    · rename_i hc
      obtain ⟨first, rest, hsplit⟩ := List.exists_cons_of_ne_nil (List.splitOnP_ne_nil isNameTokenSep cs)
      rw [hsplit, List.modifyHead_cons] at h
      rw [hsplit] at hlift
      rcases List.mem_cons.mp h with rfl | h
      · intro d hd
        rcases List.mem_cons.mp hd with rfl | hd
        · exact ⟨List.mem_cons_self, by simpa using hc⟩
        · exact hlift List.mem_cons_self d hd
      · exact hlift (List.mem_cons_of_mem first h)

theorem clean_of_mem_nameTokens {n t : Text} (h : t ∈ nameTokens n) : Clean t := by
  obtain ⟨hsplit, hne⟩ := List.mem_filter.mp h
  exact ⟨by simpa using hne, fun c hc => (mem_of_mem_splitOnP hsplit c hc).2⟩

/-- Joined tokens are split into the tokens they were. -/
theorem nameTokens_joinTokens {ts : List Text} (h : ∀ t ∈ ts, Clean t) : nameTokens (joinTokens ts) = ts := by
  induction ts with
  | nil => rfl
  | cons t ts ih =>
    obtain ⟨hne, hclean⟩ := h t List.mem_cons_self
    have hkeep : (!t.isEmpty) = true := by simpa using hne
    cases ts with
    | nil =>
      rw [joinTokens, List.intercalate_singleton, nameTokens, List.splitOnP_eq_singleton hclean,
        List.filter_singleton, hkeep]
      rfl
    | cons u us =>
      have hrest := ih fun v hv => h v (List.mem_cons_of_mem t hv)
      have hsep : isNameTokenSep '-' = true := by decide
      rw [joinTokens, List.intercalate_cons_cons, List.append_assoc, List.singleton_append, nameTokens,
        List.splitOnP_append_cons_of_forall_mem hclean '-' hsep, List.filter_cons,
        if_pos hkeep]
      exact congrArg (List.cons t) hrest

/-- A short form has hyphens and letters of the name. -/
theorem mem_shortForm {tokens : List (List Text)} {n : Text} {c : Char}
    (h : c ∈ shortForm tokens (nameTokens n)) : c = '-' ∨ c ∈ n := by
  rcases ListCuts.mem_intercalate h with hdash | ⟨t, ht, hc⟩
  · exact Or.inl (List.mem_singleton.mp hdash)
  · have hsplit := (List.mem_filter.mp (List.mem_of_mem_take (List.mem_of_mem_drop ht))).1
    exact Or.inr (mem_of_mem_splitOnP hsplit c hc).1

theorem joinTokens_inj {ts us : List Text} (hts : ∀ t ∈ ts, Clean t) (hus : ∀ t ∈ us, Clean t)
    (h : joinTokens ts = joinTokens us) : ts = us := by
  rw [← nameTokens_joinTokens hts, ← nameTokens_joinTokens hus, h]

/-! ## The front and back that are left out -/

section Counts
variable {tokens : List (List Text)} {t : List Text}

theorem minLen_mem (hne : tokens ≠ []) :
    (∃ t ∈ tokens, t.length = minLen tokens) ∧ ∀ t ∈ tokens, minLen tokens ≤ t.length := by
  obtain ⟨k, hk⟩ : ∃ k, (tokens.map List.length).min? = some k := by
    cases tokens with
    | nil => exact absurd rfl hne
    | cons t ts => exact ⟨_, List.min?_cons'⟩
  obtain ⟨hmem, hle⟩ := List.min?_eq_some_iff.mp hk
  obtain ⟨t, ht, hlength⟩ := List.mem_map.mp hmem
  have hmin : minLen tokens = k := by rw [minLen, hk, Option.getD_some]
  exact ⟨⟨t, ht, by rw [hmin, hlength]⟩, fun u hu => by
    rw [hmin]
    exact hle _ (List.mem_map_of_mem hu)⟩

theorem counts_lt (hne : tokens ≠ []) (hpos : ∀ t ∈ tokens, t ≠ []) (ht : t ∈ tokens) :
    prefixCount tokens + suffixCount tokens < t.length := by
  obtain ⟨⟨u, hu, hlength⟩, hle⟩ := minLen_mem hne
  have hu_pos := List.length_pos_of_ne_nil (hpos u hu)
  have hfront := countWhile_le (sameAt tokens) 0 (minLen tokens - 1)
  have hback := countWhile_le (sameAtEnd tokens) 0 (minLen tokens - 1 - prefixCount tokens)
  have ht_le := hle t ht
  unfold suffixCount
  unfold prefixCount at hback ⊢
  omega

def front (tokens : List (List Text)) : List Text := (tokens.headD []).take (prefixCount tokens)

def back (tokens : List (List Text)) : List Text :=
  (tokens.headD []).drop ((tokens.headD []).length - suffixCount tokens)

/-- The tokens of a name that its short form has. -/
def middle (tokens : List (List Text)) (t : List Text) : List Text :=
  (t.take (t.length - suffixCount tokens)).drop (prefixCount tokens)

theorem headD_mem (hne : tokens ≠ []) : tokens.headD [] ∈ tokens := by
  cases tokens with
  | nil => exact absurd rfl hne
  | cons t ts => exact List.mem_cons_self

theorem take_eq_front (hne : tokens ≠ []) (hpos : ∀ t ∈ tokens, t ≠ []) (ht : t ∈ tokens) :
    t.take (prefixCount tokens) = front tokens := by
  have hlt := counts_lt hne hpos ht
  have hfirst := counts_lt hne hpos (headD_mem hne)
  have hprefix : front tokens <+: t := by
    refine prefix_of_agree (by omega) (by omega) fun j hj => ?_
    have hsame := countWhile_spec hj
    rw [Nat.zero_add, sameAt, List.all_eq_true] at hsame
    exact eq_of_beq (hsame t ht)
  have hlength : (front tokens).length = prefixCount tokens := by
    rw [front, List.length_take]
    omega
  rw [List.prefix_iff_eq_take.mp hprefix, hlength]

theorem drop_eq_back (hne : tokens ≠ []) (hpos : ∀ t ∈ tokens, t ≠ []) (ht : t ∈ tokens) :
    t.drop (t.length - suffixCount tokens) = back tokens := by
  have hlt := counts_lt hne hpos ht
  have hfirst := counts_lt hne hpos (headD_mem hne)
  have hprefix : (tokens.headD []).reverse.take (suffixCount tokens) <+: t.reverse := by
    refine prefix_of_agree (by rw [List.length_reverse]; omega) (by rw [List.length_reverse]; omega)
      fun j hj => ?_
    have hsame := countWhile_spec hj
    rw [Nat.zero_add, sameAtEnd, List.all_eq_true] at hsame
    rw [List.getElem?_reverse (by omega), List.getElem?_reverse (by omega)]
    exact eq_of_beq (hsame t ht)
  have htake := List.prefix_iff_eq_take.mp hprefix
  rw [List.length_take, List.length_reverse, Nat.min_eq_left (by omega), List.take_reverse,
    List.take_reverse] at htake
  exact (List.reverse_injective htake).symm

theorem eq_front_middle_back (hne : tokens ≠ []) (hpos : ∀ t ∈ tokens, t ≠ []) (ht : t ∈ tokens) :
    t = front tokens ++ middle tokens t ++ back tokens := by
  have hlt := counts_lt hne hpos ht
  have hfront : (t.take (t.length - suffixCount tokens)).take (prefixCount tokens) = front tokens := by
    rw [List.take_take, Nat.min_eq_left (by omega), take_eq_front hne hpos ht]
  rw [← hfront, middle, List.take_append_drop, ← drop_eq_back hne hpos ht, List.take_append_drop]

theorem middle_ne_nil (hne : tokens ≠ []) (hpos : ∀ t ∈ tokens, t ≠ []) (ht : t ∈ tokens) :
    middle tokens t ≠ [] := by
  have hlt := counts_lt hne hpos ht
  apply List.ne_nil_of_length_pos
  rw [middle, List.length_drop, List.length_take]
  omega

theorem middle_inj {u : List Text} (hne : tokens ≠ []) (hpos : ∀ t ∈ tokens, t ≠ []) (ht : t ∈ tokens)
    (hu : u ∈ tokens) (h : middle tokens t = middle tokens u) : t = u := by
  rw [eq_front_middle_back hne hpos ht, eq_front_middle_back hne hpos hu, h]

/-- The two loops find the longest front and the longest back behind it. -/
theorem longest_front_back (hne : tokens ≠ []) (hpos : ∀ t ∈ tokens, t ≠ []) :
    Longest tokens (front tokens) (back tokens) := by
  obtain ⟨⟨u, hu, hlength⟩, hle⟩ := minLen_mem hne
  have hfirst := headD_mem hne
  have hfront_length : (front tokens).length = prefixCount tokens := by
    have hlt := counts_lt hne hpos hfirst
    rw [front, List.length_take]
    omega
  have hback_length : (back tokens).length = suffixCount tokens := by
    have hlt := counts_lt hne hpos hfirst
    rw [back, List.length_drop]
    omega
  refine ⟨fun t ht => ⟨_, middle_ne_nil hne hpos ht, eq_front_middle_back hne hpos ht⟩, ?_, ?_⟩
  · intro front' back' h'
    have hlt := h'.lt_length hu
    rw [hfront_length]
    refine le_countWhile (by omega) fun j hj => ?_
    have hat : ∀ t ∈ tokens, t[j]? = front'[j]? := by
      intro t ht
      obtain ⟨m, -, rfl⟩ := h' t ht
      rw [List.append_assoc, List.getElem?_append_left hj]
    rw [Nat.zero_add, sameAt, List.all_eq_true]
    intro t ht
    rw [hat t ht, hat _ hfirst]
    exact beq_self_eq_true _
  · intro back' h'
    have hlt := h'.lt_length hu
    rw [hback_length]
    refine le_countWhile (by omega) fun j hj => ?_
    have hat : ∀ t ∈ tokens, t[t.length - 1 - j]? = back'[back'.length - 1 - j]? := by
      intro t ht
      obtain ⟨m, -, rfl⟩ := h' t ht
      rw [List.getElem?_append_right (by simp only [List.length_append]; omega)]
      congr 1
      simp only [List.length_append]
      omega
    rw [Nat.zero_add, sameAtEnd, List.all_eq_true]
    intro t ht
    rw [hat t ht, hat _ hfirst]
    exact beq_self_eq_true _

end Counts

/-! ## Which names have their own short form -/

/-- The names are shortened at all. -/
def Shortens (names : List Text) : Prop :=
  2 ≤ names.length ∧ (∀ n ∈ names, nameTokens n ≠ []) ∧
    front (names.map nameTokens) ++ back (names.map nameTokens) ≠ []

def OwnTokens (names : List Text) (n : Text) : Prop := ∀ m ∈ names, nameTokens m = nameTokens n → m = n

theorem count_map_eq_one_iff {α β : Type*} [BEq β] [LawfulBEq β] {f : α → β} {l : List α} {a : α}
    (hnodup : l.Nodup) (ha : a ∈ l) : (l.map f).count (f a) = 1 ↔ ∀ b ∈ l, f b = f a → b = a := by
  obtain ⟨before, after, rfl⟩ := List.append_of_mem ha
  have hmiddle := List.nodup_middle.mp hnodup
  have hfresh : a ∉ before ++ after := (List.nodup_cons.mp hmiddle).1
  rw [List.map_append, List.map_cons, List.count_append, List.count_cons_self]
  constructor
  · intro hcount b hb hfb
    have hbefore : f a ∉ before.map f := List.count_eq_zero.mp (by omega)
    have hafter : f a ∉ after.map f := List.count_eq_zero.mp (by omega)
    rcases List.mem_append.mp hb with hb | hb
    · exact absurd (hfb ▸ List.mem_map_of_mem hb) hbefore
    · rcases List.mem_cons.mp hb with rfl | hb
      · rfl
      · exact absurd (hfb ▸ List.mem_map_of_mem hb) hafter
  · intro honly
    have hnone : ∀ b ∈ before ++ after, f b ≠ f a := by
      intro b hb hfb
      have hba := honly b (by rcases List.mem_append.mp hb with hb | hb <;> simp [hb]) hfb
      exact hfresh (hba ▸ hb)
    have hbefore : (before.map f).count (f a) = 0 := List.count_eq_zero.mpr fun hmem => by
      obtain ⟨b, hb, hfb⟩ := List.mem_map.mp hmem
      exact hnone b (List.mem_append_left after hb) hfb
    have hafter : (after.map f).count (f a) = 0 := List.count_eq_zero.mpr fun hmem => by
      obtain ⟨b, hb, hfb⟩ := List.mem_map.mp hmem
      exact hnone b (List.mem_append_right before hb) hfb
    omega

section Shown
variable {names : List Text} {a b c : Text}

theorem tokens_ne_nil (h : Shortens names) : names.map nameTokens ≠ [] := by
  apply List.ne_nil_of_length_pos
  rw [List.length_map]
  exact Nat.lt_of_lt_of_le Nat.zero_lt_two h.1

theorem tokens_pos (h : Shortens names) : ∀ t ∈ names.map nameTokens, t ≠ [] := by
  intro t ht
  obtain ⟨n, hn, rfl⟩ := List.mem_map.mp ht
  exact h.2.1 n hn

theorem clean_middle {tokens : List (List Text)} {t : Text} (h : t ∈ middle tokens (nameTokens a)) :
    Clean t :=
  clean_of_mem_nameTokens (List.mem_of_mem_take (List.mem_of_mem_drop h))

theorem joinTokens_ne_nil {ts : List Text} (hne : ts ≠ []) (h : ∀ t ∈ ts, Clean t) : joinTokens ts ≠ [] := by
  intro hnil
  have htokens := nameTokens_joinTokens h
  rw [hnil] at htokens
  exact hne htokens.symm

theorem shortForm_eq_iff (h : Shortens names) (ha : a ∈ names) (hb : b ∈ names) :
    shortForm (names.map nameTokens) (nameTokens a) = shortForm (names.map nameTokens) (nameTokens b) ↔
      nameTokens a = nameTokens b := by
  refine ⟨fun heq => ?_, fun heq => by rw [heq]⟩
  have hmiddle := joinTokens_inj (fun t => clean_middle) (fun t => clean_middle) heq
  exact middle_inj (tokens_ne_nil h) (tokens_pos h) (List.mem_map_of_mem ha) (List.mem_map_of_mem hb) hmiddle

theorem no_counts_iff (hlength : 2 ≤ names.length) (hpos : ∀ n ∈ names, nameTokens n ≠ []) :
    prefixCount (names.map nameTokens) = 0 ∧ suffixCount (names.map nameTokens) = 0 ↔
      front (names.map nameTokens) ++ back (names.map nameTokens) = [] := by
  have hne : names.map nameTokens ≠ [] := by
    apply List.ne_nil_of_length_pos
    rw [List.length_map]
    omega
  have hlt := counts_lt hne (fun t ht => by
    obtain ⟨n, hn, rfl⟩ := List.mem_map.mp ht
    exact hpos n hn) (headD_mem hne)
  rw [List.append_eq_nil_iff, ← List.length_eq_zero_iff, ← List.length_eq_zero_iff, front, back,
    List.length_take, List.length_drop]
  omega

/-- A name is shown short when no other name has its tokens, and else in full. -/
theorem shownName_short (hnodup : names.Nodup) (h : Shortens names) (ha : a ∈ names)
    (hown : OwnTokens names a) : shownName names a = shortForm (names.map nameTokens) (nameTokens a) := by
  have hany : (names.map nameTokens).any List.isEmpty = false := by
    rw [List.any_eq_false]
    intro t ht
    simpa using tokens_pos h t ht
  have hcount : ((names.map nameTokens).map (shortForm (names.map nameTokens))).count
      (shortForm (names.map nameTokens) (nameTokens a)) = 1 := by
    rw [List.map_map]
    refine (count_map_eq_one_iff (f := shortForm (names.map nameTokens) ∘ nameTokens) hnodup ha).mpr
      fun b hb heq => ?_
    exact hown b hb ((shortForm_eq_iff h hb ha).mp heq)
  have hne : shortForm (names.map nameTokens) (nameTokens a) ≠ [] :=
    joinTokens_ne_nil (middle_ne_nil (tokens_ne_nil h) (tokens_pos h) (List.mem_map_of_mem ha))
      fun t => clean_middle
  unfold shownName
  dsimp only
  rw [if_neg (Nat.not_lt.mpr h.1), if_neg (by rw [hany]; exact Bool.false_ne_true),
    if_neg (fun hzero => h.2.2 ((no_counts_iff h.1 h.2.1).mp hzero)), if_pos ⟨hne, hcount⟩]

theorem shownName_full (hnodup : names.Nodup) (ha : a ∈ names)
    (h : ¬ (Shortens names ∧ OwnTokens names a)) : shownName names a = a := by
  unfold shownName
  dsimp only
  split
  · rfl
  split
  · rfl
  split
  · rfl
  rename_i hlength hany hzero
  split
  · rename_i hshort
    have hlength' : 2 ≤ names.length := Nat.not_lt.mp hlength
    have hpos : ∀ n ∈ names, nameTokens n ≠ [] := by
      intro n hn hnil
      apply hany
      rw [List.any_eq_true]
      exact ⟨nameTokens n, List.mem_map_of_mem hn, by rw [hnil]; rfl⟩
    have hshortens : Shortens names := ⟨hlength', hpos, fun hnil => hzero ((no_counts_iff hlength' hpos).mpr hnil)⟩
    refine absurd ⟨hshortens, fun b hb heq => ?_⟩ h
    have hcount := hshort.2
    rw [List.map_map] at hcount
    refine (count_map_eq_one_iff (f := shortForm (names.map nameTokens) ∘ nameTokens) hnodup ha).mp
      hcount b hb ?_
    exact (shortForm_eq_iff hshortens hb ha).mpr heq
  · rfl

theorem shortClusterNames_of_ne (ha : a ∈ names) (hkey : a ≠ protoKey) :
    shortClusterNames names a = some (shownName names a) := if_pos ⟨ha, hkey⟩

/-- A name of one token leaves nothing to strip. -/
theorem not_shortens_of_protoKey (h : protoKey ∈ names) : ¬ Shortens names := by
  intro hs
  have htokens : (nameTokens protoKey).length = 1 := by decide
  have hcover := (longest_front_back (tokens_ne_nil hs) (tokens_pos hs)).covers
  have hlt := hcover.lt_length (List.mem_map_of_mem h)
  have hsome := List.length_pos_of_ne_nil hs.2.2
  rw [List.length_append] at hsome
  omega

/-! ## When short names are distinct -/

/-- `a` is spelled as its tokens joined, and these are what shortening leaves of `c`. -/
def Spells (names : List Text) (a c : Text) : Prop :=
  ∃ front back, Longest (names.map nameTokens) front back ∧ front ++ back ≠ [] ∧
    nameTokens c = front ++ nameTokens a ++ back ∧ a = joinTokens (nameTokens a)

theorem spells_iff (h : Shortens names) (hc : c ∈ names) :
    Spells names a c ↔ a = shortForm (names.map nameTokens) (nameTokens c) := by
  have hne := tokens_ne_nil h
  have hpos := tokens_pos h
  have hcmem := List.mem_map_of_mem (f := nameTokens) hc
  constructor
  · rintro ⟨front', back', hlongest, -, htokens, hspelled⟩
    obtain ⟨rfl, rfl⟩ := hlongest.unique (longest_front_back hne hpos) hcmem
    have hsplit := eq_front_middle_back hne hpos hcmem
    rw [htokens] at hsplit
    have hmiddle : nameTokens a = middle (names.map nameTokens) (nameTokens c) := by
      rw [htokens]
      exact List.append_cancel_left (List.append_cancel_right hsplit)
    rw [hmiddle] at hspelled
    exact hspelled
  · intro hspelled
    have htokens : nameTokens a = middle (names.map nameTokens) (nameTokens c) := by
      rw [hspelled]
      exact nameTokens_joinTokens fun t => clean_middle
    refine ⟨_, _, longest_front_back hne hpos, h.2.2, ?_, ?_⟩
    · rw [htokens]
      exact eq_front_middle_back hne hpos hcmem
    · rw [htokens]
      exact hspelled

/-- A longest front and back that are not both empty are stripped. -/
theorem shortens_of_spells (ha : a ∈ names) (hb : b ∈ names) (hab : a ≠ b) (h : Spells names a c) :
    Shortens names := by
  obtain ⟨front', back', hlongest, hsome, -, -⟩ := h
  have hlength : 2 ≤ names.length := by
    obtain ⟨before, after, rfl⟩ := List.append_of_mem ha
    rcases List.mem_append.mp hb with hb | hb
    · have hpos := List.length_pos_of_mem hb
      simp only [List.length_append, List.length_cons]
      omega
    · have hpos := List.length_pos_of_mem ((List.mem_cons.mp hb).resolve_left (Ne.symm hab))
      simp only [List.length_append, List.length_cons]
      omega
  have hpos : ∀ n ∈ names, nameTokens n ≠ [] := by
    intro n hn hnil
    have hlt := hlongest.covers.lt_length (List.mem_map_of_mem hn)
    rw [hnil, List.length_nil] at hlt
    omega
  refine ⟨hlength, hpos, ?_⟩
  have hne : names.map nameTokens ≠ [] := List.ne_nil_of_mem (List.mem_map_of_mem ha)
  have hlongest' := longest_front_back hne fun t ht => by
    obtain ⟨n, hn, rfl⟩ := List.mem_map.mp ht
    exact hpos n hn
  obtain ⟨rfl, rfl⟩ := hlongest.unique hlongest' (List.mem_map_of_mem ha)
  exact hsome

/-- A name that shares its tokens with another one is spelled as the short form of no name whose
tokens are its own. -/
def FallbacksFree (names : List Text) : Prop :=
  ∀ a ∈ names, ∀ b ∈ names, a ≠ b → nameTokens a = nameTokens b →
    ∀ c ∈ names, OwnTokens names c → ¬ Spells names a c

theorem ne_shortForm_of_full (hfree : FallbacksFree names) (h : Shortens names) (ha : a ∈ names)
    (hfull : ¬ OwnTokens names a) (hc : c ∈ names) (hown : OwnTokens names c) :
    a ≠ shortForm (names.map nameTokens) (nameTokens c) := by
  intro heq
  obtain ⟨b, hb, htokens, hba⟩ : ∃ b ∈ names, nameTokens b = nameTokens a ∧ b ≠ a := by
    by_contra hnone
    exact hfull fun m hm hma => by_contra fun hne => hnone ⟨m, hm, hma, hne⟩
  exact hfree a ha b hb (Ne.symm hba) htokens.symm c hc hown ((spells_iff h hc).mpr heq)

theorem shownName_inj (hnodup : names.Nodup) (hfree : FallbacksFree names) (ha : a ∈ names) (hb : b ∈ names)
    (heq : shownName names a = shownName names b) : a = b := by
  by_cases hs : Shortens names
  · by_cases hoa : OwnTokens names a
    · by_cases hob : OwnTokens names b
      · rw [shownName_short hnodup hs ha hoa, shownName_short hnodup hs hb hob] at heq
        exact hob a ha ((shortForm_eq_iff hs ha hb).mp heq)
      · rw [shownName_short hnodup hs ha hoa, shownName_full hnodup hb fun h => hob h.2] at heq
        exact absurd heq.symm (ne_shortForm_of_full hfree hs hb hob ha hoa)
    · by_cases hob : OwnTokens names b
      · rw [shownName_full hnodup ha fun h => hoa h.2, shownName_short hnodup hs hb hob] at heq
        exact absurd heq (ne_shortForm_of_full hfree hs ha hoa hb hob)
      · rw [shownName_full hnodup ha fun h => hoa h.2, shownName_full hnodup hb fun h => hob h.2] at heq
        exact heq
  · rw [shownName_full hnodup ha fun h => hs h.1, shownName_full hnodup hb fun h => hs h.1] at heq
    exact heq

end Shown

/-- Distinct names are shown by distinct short names exactly when no name that falls back to its full
form is spelled as the short form of another one. -/
theorem shortClusterNames_injective_iff (names : List Text) (hnodup : names.Nodup) :
    (∀ a ∈ names, ∀ b ∈ names, shortClusterNames names a = shortClusterNames names b → a = b) ↔
      FallbacksFree names := by
  constructor
  · intro hinj a ha b hb hab htokens c hc hown hspells
    have hs := shortens_of_spells ha hb hab hspells
    have hfull : ¬ OwnTokens names a := fun h => hab (h b hb htokens.symm).symm
    have hkey : ∀ n ∈ names, n ≠ protoKey := by
      rintro n hn rfl
      exact not_shortens_of_protoKey hn hs
    have heq : shortClusterNames names a = shortClusterNames names c := by
      rw [shortClusterNames_of_ne ha (hkey a ha), shortClusterNames_of_ne hc (hkey c hc),
        shownName_full hnodup ha fun h => hfull h.2, shownName_short hnodup hs hc hown]
      exact congrArg some ((spells_iff hs hc).mp hspells)
    exact hfull (hinj a ha c hc heq ▸ hown)
  · intro hfree a ha b hb heq
    by_cases hka : a = protoKey
    · by_cases hkb : b = protoKey
      · rw [hka, hkb]
      · rw [shortClusterNames_of_ne hb hkb, shortClusterNames, if_neg fun h => h.2 hka] at heq
        cases heq
    · by_cases hkb : b = protoKey
      · rw [shortClusterNames_of_ne ha hka, shortClusterNames, if_neg fun h => h.2 hkb] at heq
        cases heq
      · rw [shortClusterNames_of_ne ha hka, shortClusterNames_of_ne hb hkb] at heq
        exact shownName_inj hnodup hfree ha hb (Option.some.inj heq)

/-- `p-q` and `p_q` have the same tokens and keep their full forms, and `p-p-q` is shortened to the
first of them. -/
theorem short_names_collide : let names := ["p-q".toList, "p_q".toList, "p-p-q".toList]
    names.Nodup ∧ shortClusterNames names "p-q".toList = shortClusterNames names "p-p-q".toList := by
  decide

theorem two_siblings_stay_distinct : let names := ["a-07".toList, "a-08".toList]
    ∀ a ∈ names, ∀ b ∈ names, shortClusterNames names a = shortClusterNames names b → a = b := by
  intro names
  have hnodup : names.Nodup := by decide
  refine (shortClusterNames_injective_iff names hnodup).mpr ?_
  intro a ha b hb hab htokens
  have hinj : ∀ a ∈ names, ∀ b ∈ names, nameTokens a = nameTokens b → a = b := by decide
  exact absurd (hinj a ha b hb htokens) hab

end FerrisScope.ClusterShortNames
