import FerrisScope.PanelHistories

/-!
# The order in which drawers are mounted

All drawers of a tab, shown or parked, are mounted under their instance ids. A mounted one must not move
among the others, or its scroll offset is lost, so a render keeps the order of the render before and adds
new ids at the end.
-/

namespace FerrisScope.DrawerOrder
open LabelledRuns PanelHistories PanelInvariants TabPanels

/-- New ids behind those kept. -/
def pushNew (kept : List String) : List String → List String
  | [] => kept
  | id :: ids => pushNew (if id ∈ kept then kept else kept ++ [id]) ids

/-- The ids in the order they are rendered; `order` is that of the render before. -/
def stableOrder (order items : List String) : List String :=
  pushNew (order.filter (· ∈ items)) items

/-- What a tab renders: its tray, then the drawer that is shown. -/
def live (s : Slice) : List String :=
  s.tray.map TrayItem.id ++ (s.drawer.map fun _ => s.drawerId.getD "drawer").toList

/-- The order after each action is rendered. -/
def rendered (order : List String) : Slice → List PanelAct → List String
  | _, [] => order
  | s, a :: as => rendered (stableOrder order (live (act s a))) (act s a) as

variable {kept ids order items : List String}

theorem mem_pushNew {x : String} : x ∈ pushNew kept ids ↔ x ∈ kept ∨ x ∈ ids := by
  induction ids generalizing kept with
  | nil => simp [pushNew]
  | cons id ids ih =>
    rw [pushNew, ih, List.mem_cons]
    split_ifs with hid
    · constructor
      · rintro (h | h)
        · exact .inl h
        · exact .inr (.inr h)
      · rintro (h | rfl | h)
        · exact .inl h
        · exact .inl hid
        · exact .inr h
    · rw [List.mem_append, List.mem_singleton, or_assoc]

theorem nodup_pushNew (h : kept.Nodup) : (pushNew kept ids).Nodup := by
  induction ids generalizing kept with
  | nil => exact h
  | cons id ids ih =>
    rw [pushNew]
    apply ih
    split_ifs with hid
    · exact h
    · exact (List.perm_append_singleton _ _).nodup_iff.mpr (List.nodup_cons.mpr ⟨hid, h⟩)

/-- Those kept stay in front, in their order. -/
theorem isPrefix_pushNew (kept ids : List String) : kept <+: pushNew kept ids := by
  induction ids generalizing kept with
  | nil => exact List.prefix_rfl
  | cons id ids ih =>
    rw [pushNew]
    split_ifs with hid
    · exact ih kept
    · exact (List.prefix_append _ _).trans (ih _)

theorem mem_stableOrder {x : String} : x ∈ stableOrder order items ↔ x ∈ items := by
  rw [stableOrder, mem_pushNew, List.mem_filter]
  constructor
  · rintro (⟨-, h⟩ | h)
    · simpa using h
    · exact h
  · exact .inr

theorem nodup_stableOrder (h : order.Nodup) : (stableOrder order items).Nodup := nodup_pushNew (h.filter _)

/-- Ids that were rendered before and are again keep their order. -/
theorem filter_stableOrder {p : String → Bool} (h : order.Nodup) (hp : ∀ x, p x → x ∈ order ∧ x ∈ items) :
    (stableOrder order items).filter p = order.filter p := by
  obtain ⟨new, hnew⟩ := isPrefix_pushNew (order.filter (· ∈ items)) items
  have hn : (order.filter (· ∈ items) ++ new).Nodup := hnew ▸ nodup_stableOrder h
  have hnone : new.filter p = [] := by
    refine List.filter_eq_nil_iff.mpr fun x hx hpx => ?_
    obtain ⟨ho, hi⟩ := hp x hpx
    have hkept : x ∈ order.filter (· ∈ items) := List.mem_filter.mpr ⟨ho, by simpa using hi⟩
    exact (List.nodup_append.mp hn).2.2 x hkept x hx rfl
  rw [stableOrder, ← hnew, List.filter_append, hnone, List.append_nil, List.filter_filter]
  refine List.filter_congr fun x hx => ?_
  by_cases hpx : p x = true
  · simp [hpx, (hp x hpx).2]
  · simp [hpx]

variable {s : Slice}

theorem mem_live (h : DrawersOk s) {x : String} : x ∈ live s ↔ x ∈ mountedIds s := by
  have hshown : ((s.drawer.map fun _ => s.drawerId.getD "drawer").toList : List String) = s.drawerId.toList := by
    have := h.shown
    cases hd : s.drawer with
    | none =>
      rw [hd] at this
      have hnone : s.drawerId = none := Option.not_isSome_iff_eq_none.mp (by rw [this]; simp)
      rw [hnone]
      rfl
    | some d =>
      rw [hd] at this
      obtain ⟨id, hid⟩ := Option.isSome_iff_exists.mp this
      rw [hid]
      rfl
  rw [live, hshown, mountedIds, List.mem_append, List.mem_append]
  exact Or.comm

/-- The tab renders each mounted instance once, and those that stay mounted from one render to the last are
never reordered. -/
theorem render_stable (order : List String) (s t : Slice) (as : List PanelAct) (p : String → Bool) (hs : PanelsOk s)
    (horder : order.Nodup) (hsame : ∀ x, x ∈ order ↔ x ∈ mountedIds s)
    (hp : Meets panelStep (fun s a => PanelPermitted s a ∧ ∀ x, p x → x ∈ mountedIds (act s a)) s as)
    (hmounted : ∀ x, p x → x ∈ mountedIds s) (hrun : run panelStep s as = some t) :
    (rendered order s as).Perm (mountedIds t) ∧ (rendered order s as).filter p = order.filter p := by
  induction as generalizing s order with
  | nil =>
    cases hrun
    exact ⟨(List.perm_ext_iff_of_nodup horder hs.drawers.instances).mpr hsame, rfl⟩
  | cons a as ih =>
    obtain ⟨u, hstep, hrest⟩ := run_cons_eq_some.mp hrun
    cases hstep
    have hok : PanelsOk (act s a) := panelsOk_act hs a hp.1.1
    obtain ⟨hperm, hfilter⟩ := ih (stableOrder order (live (act s a))) (act s a) hok (nodup_stableOrder horder)
      (fun x => mem_stableOrder.trans (mem_live hok.drawers)) (hp.2 _ rfl) hp.1.2 hrest
    refine ⟨hperm, ?_⟩
    rw [rendered, hfilter]
    exact filter_stableOrder horder fun x hx => ⟨(hsame x).mpr (hmounted x hx), (mem_live hok.drawers).mpr (hp.1.2 x hx)⟩

/-- Both panels stay mounted while one is hidden and brought back. -/
theorem mounted_hideAndRestore : Meets panelStep
    (fun s a => PanelPermitted s a ∧ ∀ x, (["i", "j"].contains x) → x ∈ mountedIds (act s a)) twoPanels hideAndRestore := by
  refine ⟨⟨trivial, by simp; decide⟩, ?_⟩
  rintro s ⟨⟩
  refine ⟨⟨trivial, by simp; decide⟩, ?_⟩
  rintro s ⟨⟩
  refine ⟨⟨trivial, by simp; decide⟩, ?_⟩
  rintro s ⟨⟩
  refine ⟨⟨trivial, by simp; decide⟩, ?_⟩
  rintro s ⟨⟩
  trivial

theorem render_stable_hideAndRestore :
    (rendered ["j", "i"] twoPanels hideAndRestore).filter (["i", "j"].contains ·) = ["j", "i"] :=
  (render_stable ["j", "i"] twoPanels _ hideAndRestore (["i", "j"].contains ·) panelsOk_twoPanels (by decide)
    (by simp [mountedIds, twoPanels, or_comm]) mounted_hideAndRestore (by simp [mountedIds, twoPanels]) rfl).2

end FerrisScope.DrawerOrder
