import FerrisScope.RepairedTranscripts
import Mathlib.Data.List.TakeWhile

/-!
# Repairs of a growing transcript

A transcript that is repaired now and grows afterwards, and one that grows unrepaired, have the same
repair, as long as no later result is for an earlier call. `Alike` is that relation. A batch of
results that is interleaved with other messages is put back together by the repair.
-/

namespace FerrisScope.GrowingTranscripts
open ChatMessages ToolPairs RepairedTranscripts

/-- No message of `later` is a result for a call of `ms`. -/
def Fresh (ms later : List ChatMessage) : Prop := ∀ x ∈ issued ms, ∀ r ∈ later, ¬answers x r = true

/-- The two transcripts have the same repair. -/
def Alike (xs ys : List ChatMessage) : Prop := ∃ out, Repaired xs out ∧ Repaired ys out

section Appending

variable {ms later : List ChatMessage} {m : ChatMessage} {x : String} {ids : List String}

theorem eraseP_append_of_not (h : ∀ r ∈ later, ¬answers x r = true) (ms : List ChatMessage) :
    (ms ++ later).eraseP (answers x) = ms.eraseP (answers x) ++ later := by
  by_cases hms : ∃ r ∈ ms, answers x r = true
  · obtain ⟨r, hr, hx⟩ := hms
    exact List.eraseP_append_left hx later hr
  · have hnot : ∀ r ∈ ms, ¬answers x r = true := fun r hr hx => hms ⟨r, hr, hx⟩
    rw [List.eraseP_append_right later hnot, List.eraseP_of_forall_not h, List.eraseP_of_forall_not hnot]

theorem withoutResults_append (h : ∀ x ∈ ids, ∀ r ∈ later, ¬answers x r = true) (ms : List ChatMessage) :
    withoutResults ids (ms ++ later) = withoutResults ids ms ++ later := by
  have hdups : ∀ x ∈ ids.eraseDups, ∀ r ∈ later, ¬answers x r = true := fun x hx => h x (List.mem_eraseDups.mp hx)
  clear h
  unfold withoutResults
  revert hdups
  generalize ids.eraseDups = ids
  intro h
  induction ids generalizing ms with
  | nil => rfl
  | cons x ids ih =>
    rw [List.foldl_cons, List.foldl_cons, eraseP_append_of_not (h x List.mem_cons_self)]
    exact ih _ fun y hy => h y (List.mem_cons_of_mem x hy)

theorem find?_append_of_not (h : ∀ r ∈ later, ¬answers x r = true) (ms : List ChatMessage) :
    (ms ++ later).find? (answers x) = ms.find? (answers x) := by
  rw [List.find?_append, List.find?_eq_none.mpr h, Option.or_none]

/-- Tool messages in front of a transcript are not in its repair. -/
theorem repaired_dropWhile {out : List ChatMessage} (h : Repaired ms out) : Repaired (ms.dropWhile isTool) out := by
  induction h with
  | nil => exact .nil
  | dropped hm _ ih =>
    rw [List.dropWhile_cons_of_pos hm]
    exact ih
  | plain hm htool hms _ =>
    rw [List.dropWhile_cons_of_neg (by simp [htool])]
    exact .plain hm htool hms
  | calls hm hms _ =>
    rw [List.dropWhile_cons_of_neg (by simp [not_isTool_of_callsTools hm])]
    exact .calls hm hms

/-- A transcript is all tool messages, or a run of them in front of another message. -/
theorem all_tools_or_run (ms : List ChatMessage) : (∀ r ∈ ms, isTool r = true) ∨
    ∃ run m rest, ms = run ++ m :: rest ∧ (∀ r ∈ run, isTool r = true) ∧ isTool m = false := by
  have hsplit := List.takeWhile_append_dropWhile (p := isTool) (l := ms)
  rcases dropWhile_isTool ms with hnil | ⟨m, rest, hcons, hm⟩
  · rw [hnil, List.append_nil] at hsplit
    exact .inl fun r hr => isTool_of_mem_run (by rwa [hsplit])
  · rw [hcons] at hsplit
    exact .inr ⟨_, m, rest, hsplit.symm, fun r hr => isTool_of_mem_run hr, hm⟩

/-- Where the run of a grown transcript ends. -/
theorem run_append (ms later : List ChatMessage) : ∃ run rest, (∀ r ∈ run, r ∈ later ∧ isTool r = true) ∧
    rest.Sublist later ∧ (ms ++ later).takeWhile isTool = ms.takeWhile isTool ++ run ∧
    (ms ++ later).dropWhile isTool = ms.dropWhile isTool ++ rest ∧
    (ms.dropWhile isTool = [] ∧ rest = later.dropWhile isTool ∨ rest = later) := by
  rcases all_tools_or_run ms with hall | ⟨front, m, rest, rfl, hfront, hm⟩
  · have htake : ms.takeWhile isTool = ms := List.takeWhile_eq_self_iff.mpr hall
    have hdrop : ms.dropWhile isTool = [] := List.dropWhile_eq_nil_iff.mpr hall
    refine ⟨later.takeWhile isTool, later.dropWhile isTool, fun r hr => ?_, List.dropWhile_sublist isTool, ?_, ?_, ?_⟩
    · exact ⟨(List.takeWhile_sublist isTool).subset hr, isTool_of_mem_run hr⟩
    · rw [List.takeWhile_append_of_pos hall, htake]
    · rw [List.dropWhile_append_of_pos hall, hdrop, List.nil_append]
    · exact .inl ⟨hdrop, rfl⟩
  · have hnot : ¬isTool m = true := by simp [hm]
    refine ⟨[], later, fun r hr => (by cases hr), List.Sublist.refl _, ?_, ?_, .inr rfl⟩
    · rw [List.append_assoc, List.takeWhile_append_of_pos hfront, List.takeWhile_append_of_pos hfront]
      simp [hnot]
    · rw [List.append_assoc, List.dropWhile_append_of_pos hfront, List.dropWhile_append_of_pos hfront]
      simp [hnot]

/-- Later messages that are not results of an assistant message leave its run as it is. -/
theorem keptRun_append (hnot : ∀ x ∈ callIds m, ∀ r ∈ later, ¬answers x r = true) (ms : List ChatMessage) :
    keptRun m (ms ++ later) = keptRun m ms := by
  obtain ⟨run, -, hrun, -, htake, -⟩ := run_append ms later
  rw [keptRun, keptRun, htake, List.filter_append]
  have hnone : run.filter (fun r => r.toolCallId.any ((callIds m).contains ·)) = [] := by
    rw [List.filter_eq_nil_iff]
    intro r hr hany
    obtain ⟨hmem, htool⟩ := hrun r hr
    cases hid : r.toolCallId with
    | none =>
      rw [hid] at hany
      cases hany
    | some x =>
      rw [hid] at hany
      exact hnot x (by simpa using hany) r hmem (answers_of_id htool hid)
  rw [hnone, List.append_nil]

theorem unanswered_append (hnot : ∀ x ∈ callIds m, ∀ r ∈ later, ¬answers x r = true) (ms : List ChatMessage) :
    unanswered m (ms ++ later) = unanswered m ms := by
  obtain ⟨run, -, hrun, -, htake, -⟩ := run_append ms later
  rw [unanswered, unanswered, htake]
  refine List.filter_congr fun tc htc => ?_
  have hsame : (List.filterMap (·.toolCallId) (ms.takeWhile isTool ++ run)).contains tc.id =
      (List.filterMap (·.toolCallId) (ms.takeWhile isTool)).contains tc.id := by
    rw [Bool.eq_iff_iff, List.contains_iff_mem, List.contains_iff_mem, List.filterMap_append, List.mem_append]
    refine or_iff_left fun hmem => ?_
    obtain ⟨r, hr, heq⟩ := List.mem_filterMap.mp hmem
    obtain ⟨hmem, htool⟩ := hrun r hr
    exact hnot tc.id (List.mem_map_of_mem htc) r hmem (answers_of_id htool heq)
  rw [hsame]

theorem resultOf_append {tc : ToolCall} (h : ∀ r ∈ later, ¬answers tc.id r = true) (ms : List ChatMessage) :
    resultOf (ms ++ later) tc = resultOf ms tc := by
  rw [resultOf, resultOf, find?_append_of_not h]

/-- Messages that bring no results for earlier calls are repaired on their own. -/
theorem repaired_append {out out' : List ChatMessage} (h : Repaired ms out) (hlater : Repaired later out')
    (hfresh : Fresh ms later) : Repaired (ms ++ later) (out ++ out') := by
  induction h with
  | nil => exact hlater
  | dropped hm _ ih =>
    refine .dropped hm (ih fun x hx => hfresh x ?_)
    rw [issued_cons]
    exact List.mem_append_right _ hx
  | plain hm htool _ ih =>
    refine .plain hm htool (ih fun x hx => hfresh x ?_)
    rw [issued_cons]
    exact List.mem_append_right _ hx
  | @calls m ms out hm hms ih =>
    have hown : ∀ x ∈ callIds m, ∀ r ∈ later, ¬answers x r = true := fun x hx => hfresh x (by
      rw [issued_cons, if_pos hm]
      exact List.mem_append_left _ hx)
    have hrest : Fresh (laterOf m ms) later := fun x hx => hfresh x (by
      rw [issued_laterOf] at hx
      rw [issued_cons]
      exact List.mem_append_right _ hx)
    obtain ⟨run, rest, hrun, hsub, -, hdrop, hcase⟩ := run_append ms later
    have hown' : ∀ x ∈ callIds m, ∀ r ∈ rest, ¬answers x r = true := fun x hx r hr => hown x hx r (hsub.subset hr)
    have hresults : (unanswered m ms).map (resultOf (ms.dropWhile isTool ++ rest)) =
        (unanswered m ms).map (resultOf (ms.dropWhile isTool)) := List.map_congr_left fun tc htc =>
      resultOf_append (hown' tc.id ((unanswered_ids_sublist m ms).subset (List.mem_map_of_mem htc))) _
    have hlaterOf : laterOf m (ms ++ later) = laterOf m ms ++ rest := by
      rw [laterOf, hdrop, unanswered_append hown, laterOf]
      exact withoutResults_append (fun x hx => hown' x ((unanswered_ids_sublist m ms).subset hx)) _
    have hnext : Repaired (laterOf m (ms ++ later)) (out ++ out') := by
      rw [hlaterOf]
      rcases hcase with ⟨hnil, rfl⟩ | rfl
      · have hempty : laterOf m ms = [] := by
          have hsub := withoutResults_sublist ((unanswered m ms).map (·.id)) (ms.dropWhile isTool)
          rw [hnil] at hsub
          rw [laterOf, hnil]
          exact List.sublist_nil.mp hsub
        rw [hempty] at hms ⊢
        cases hms
        exact repaired_dropWhile hlater
      · exact ih hrest
    have hcalls := Repaired.calls hm hnext
    rw [keptRun_append hown, unanswered_append hown, hdrop, hresults] at hcalls
    simpa using hcalls

end Appending

/-- Two repairs of one transcript are the same. -/
theorem repaired_unique {ms out out' : List ChatMessage} (h : Repaired ms out) (h' : Repaired ms out') :
    out = out' := by
  induction h generalizing out' with
  | nil =>
    cases h'
    rfl
  | dropped hm _ ih =>
    cases h' with
    | dropped _ hms => exact ih hms
    | plain _ htool _ =>
      rw [hm] at htool
      cases htool
    | calls hcalls _ =>
      rw [not_callsTools_of_isTool hm] at hcalls
      cases hcalls
  | plain hm htool _ ih =>
    cases h' with
    | dropped htool' _ =>
      rw [htool] at htool'
      cases htool'
    | plain _ _ hms => rw [ih hms]
    | calls hcalls _ =>
      rw [hm] at hcalls
      cases hcalls
  | calls hm _ ih =>
    cases h' with
    | dropped htool _ =>
      rw [not_callsTools_of_isTool htool] at hm
      cases hm
    | plain hm' _ _ =>
      rw [hm] at hm'
      cases hm'
    | calls _ hms => rw [ih hms]

/-- An assistant message with results of its calls only, one at least for each, in front of a
repaired transcript. -/
theorem repaired_settled {m : ChatMessage} {block out : List ChatMessage} (hm : callsTools m = true)
    (htools : ∀ r ∈ block, isTool r = true) (hown : ∀ r ∈ block, ∃ x ∈ callIds m, answers x r = true)
    (hall : ∀ x ∈ callIds m, ∃ r ∈ block, answers x r = true) (hout : Repaired out out) :
    Repaired (m :: (block ++ out)) (m :: (block ++ out)) := by
  have hrun : (block ++ out).takeWhile isTool = block := takeWhile_tools htools hout.head
  have hrest : (block ++ out).dropWhile isTool = out := by
    have hsplit := List.takeWhile_append_dropWhile (p := isTool) (l := block ++ out)
    rw [hrun] at hsplit
    exact List.append_cancel_left hsplit
  have hkept : keptRun m (block ++ out) = block := by
    rw [keptRun, hrun, List.filter_eq_self]
    intro r hr
    obtain ⟨x, hx, hanswers⟩ := hown r hr
    simp [id_of_answers hanswers, hx]
  have hnone : unanswered m (block ++ out) = [] := by
    rw [unanswered, hrun, List.filter_eq_nil_iff]
    intro tc htc
    obtain ⟨r, hr, hanswers⟩ := hall tc.id (List.mem_map_of_mem htc)
    simp only [Bool.not_eq_true', Bool.not_eq_false, List.contains_iff_mem]
    exact List.mem_filterMap.mpr ⟨r, hr, id_of_answers hanswers⟩
  have hlater : laterOf m (block ++ out) = out := by
    rw [laterOf, hnone, hrest]
    rfl
  have hcalls := Repaired.calls hm (hlater.symm ▸ hout : Repaired (laterOf m (block ++ out)) out)
  rw [hkept, hnone] at hcalls
  simpa using hcalls

/-- A repaired transcript needs no more repair. -/
theorem repaired_self {ms out : List ChatMessage} (h : Repaired ms out) : Repaired out out := by
  induction h with
  | nil => exact .nil
  | dropped _ _ ih => exact ih
  | plain hm htool _ ih => exact .plain hm htool ih
  | @calls m ms out hm _ ih =>
    refine repaired_settled hm (fun r hr => ?_) (fun r hr => ?_) (fun x hx => ?_) ih
    · rcases List.mem_append.mp hr with h | h
      · exact isTool_of_mem_keptRun h
      · exact isTool_of_mem_results h
    · rcases List.mem_append.mp hr with h | h
      · have hany := (List.mem_filter.mp h).2
        cases hid : r.toolCallId with
        | none =>
          rw [hid] at hany
          cases hany
        | some x =>
          rw [hid] at hany
          exact ⟨x, by simpa using hany, answers_of_id (isTool_of_mem_keptRun h) hid⟩
      · obtain ⟨tc, htc, rfl⟩ := List.mem_map.mp h
        exact ⟨tc.id, (unanswered_ids_sublist m ms).subset (List.mem_map_of_mem htc), answers_resultOf _ tc⟩
    · by_cases hmem : x ∈ (unanswered m ms).map (·.id)
      · obtain ⟨tc, htc, rfl⟩ := List.mem_map.mp hmem
        exact ⟨_, List.mem_append_right _ (List.mem_map_of_mem htc), answers_resultOf _ tc⟩
      · rw [mem_unanswered_iff hx, ← countP_keptRun hx] at hmem
        obtain ⟨r, hr, hanswers⟩ := List.countP_pos_iff.mp (Nat.pos_of_ne_zero hmem)
        exact ⟨r, List.mem_append_left _ hr, hanswers⟩

theorem repaired_spoken {ms out : List ChatMessage} (h : Repaired ms out) : spoken out = spoken ms := by
  have hcons (m : ChatMessage) (ms : List ChatMessage) : spoken (m :: ms) =
      spoken [m] ++ spoken ms := by rw [← spoken_append, List.singleton_append]
  induction h with
  | nil => rfl
  | dropped hm _ ih =>
    have hnone : spoken [_] = [] := spoken_eq_nil fun r hr => List.mem_singleton.mp hr ▸ hm
    rw [ih, hcons, hnone, List.nil_append]
  | plain _ _ _ ih => rw [hcons, ih, ← hcons]
  | @calls m ms out hm _ ih =>
    have hblock : spoken (keptRun m ms ++ (unanswered m ms).map (resultOf (ms.dropWhile isTool))) = [] := by
      refine spoken_eq_nil fun r hr => ?_
      rcases List.mem_append.mp hr with h | h
      · exact isTool_of_mem_keptRun h
      · exact isTool_of_mem_results h
    rw [hcons, spoken_append, hblock, List.nil_append, ih, laterOf, spoken_withoutResults, spoken_dropWhile, ← hcons]

theorem repaired_issued {ms out : List ChatMessage} (h : Repaired ms out) : issued out = issued ms :=
  issued_congr (repaired_spoken h)

theorem nodup_callIds {ms : List ChatMessage} (h : (issued ms).Nodup) :
    ∀ m ∈ ms, callsTools m = true → (callIds m).Nodup := by
  intro m hm hcalls
  obtain ⟨pre, post, rfl⟩ := List.append_of_mem hm
  rw [issued, List.flatMap_append, List.flatMap_cons, if_pos hcalls, List.nodup_append] at h
  exact (List.nodup_append.mp h.2.1).1

/-- Where no id is issued twice, the repair does not panic. -/
theorem exists_repaired {ms : List ChatMessage} (h : (issued ms).Nodup) :
    ∃ out fixed, repairToolPairs ms = .ok (out, fixed) ∧ Repaired ms out := by
  have hids := nodup_callIds h
  obtain ⟨out, n, hwalked⟩ := (roomy_iff_walked ms).mp (roomy_of_nodup hids)
  exact ⟨_, _, repairToolPairs_of_walked hwalked, repaired_of_walked hwalked hids⟩

theorem repaired_of_repairToolPairs {ms out : List ChatMessage} {fixed : Nat} (h : (issued ms).Nodup)
    (hrepair : repairToolPairs ms = .ok (out, fixed)) : Repaired ms out := by
  obtain ⟨out', fixed', hok, hrepaired⟩ := exists_repaired h
  cases hrepair.symm.trans hok
  exact hrepaired

section Alike

variable {xs ys : List ChatMessage}

theorem alike_self (h : (issued xs).Nodup) : Alike xs xs := by
  obtain ⟨out, -, -, hout⟩ := exists_repaired h
  exact ⟨out, hout, hout⟩

theorem alike_issued (h : Alike xs ys) : issued xs = issued ys := by
  obtain ⟨out, hx, hy⟩ := h
  exact (repaired_issued hx).symm.trans (repaired_issued hy)

theorem alike_append {later later' : List ChatMessage} (h : Alike xs ys) (hlater : Alike later later')
    (hx : Fresh xs later) (hy : Fresh ys later') : Alike (xs ++ later) (ys ++ later') := by
  obtain ⟨out, hxs, hys⟩ := h
  obtain ⟨out', hlater, hlater'⟩ := hlater
  exact ⟨out ++ out', repaired_append hxs hlater hx, repaired_append hys hlater' hy⟩

/-- A repair of one of the two transcripts makes no difference. -/
theorem alike_repaired {out : List ChatMessage} (h : Alike xs ys) (hrepair : Repaired ys out) : Alike xs out := by
  obtain ⟨out', hxs, hys⟩ := h
  obtain rfl := repaired_unique hys hrepair
  exact ⟨out', hxs, repaired_self hrepair⟩

/-- The repairs as the code computes them. -/
theorem alike_repairToolPairs (h : Alike xs ys) (hissued : (issued xs).Nodup) :
    (repairToolPairs xs).map Prod.fst = (repairToolPairs ys).map Prod.fst := by
  obtain ⟨out, fixed, hok, hout⟩ := exists_repaired hissued
  obtain ⟨out', fixed', hok', hout'⟩ := exists_repaired (alike_issued h ▸ hissued)
  obtain ⟨common, hxs, hys⟩ := h
  rw [hok, hok', Except.map, Except.map, repaired_unique hout hxs, repaired_unique hout' hys]

end Alike

section Batch

variable {ms : List ChatMessage} {tcs : List ToolCall}

theorem filter_eraseP (x : String) (ms : List ChatMessage) :
    (ms.eraseP (answers x)).filter isTool = (ms.filter isTool).eraseP (answers x) := by
  induction ms with
  | nil => rfl
  | cons m ms ih =>
    by_cases hm : answers x m = true
    · rw [List.eraseP_cons_of_pos hm, List.filter_cons_of_pos (isTool_of_answers hm), List.eraseP_cons_of_pos hm]
    · rw [List.eraseP_cons_of_neg hm]
      by_cases htool : isTool m = true
      · rw [List.filter_cons_of_pos htool, List.filter_cons_of_pos htool, List.eraseP_cons_of_neg hm, ih]
      · rw [List.filter_cons_of_neg htool, List.filter_cons_of_neg htool, ih]

theorem find?_filter_isTool (x : String) (ms : List ChatMessage) :
    (ms.filter isTool).find? (answers x) = ms.find? (answers x) := by
  rw [List.find?_filter]
  congr 1
  funext m
  cases hm : answers x m with
  | false => simp
  | true => simp [isTool_of_answers hm]

/-- The first results of calls whose results stand in this order. -/
theorem map_resultOf (hnodup : (tcs.map (·.id)).Nodup)
    (hids : (ms.filter isTool).map (·.toolCallId) = (tcs.map (·.id)).map some) :
    tcs.map (resultOf ms) = ms.filter isTool := by
  have hfind (tc : ToolCall) : resultOf ms tc = ((ms.filter isTool).find? (answers tc.id)).getD (interrupted tc) := by
    rw [find?_filter_isTool, resultOf]
  have htools : ∀ r ∈ ms.filter isTool, isTool r = true := fun r hr => (List.mem_filter.mp hr).2
  revert hids htools hfind
  generalize ms.filter isTool = tools
  intro hids hfind htools
  rw [List.map_congr_left fun tc _ => hfind tc]
  clear hfind
  induction tcs generalizing tools with
  | nil =>
    cases tools with
    | nil => rfl
    | cons r tools => cases hids
  | cons tc tcs ih =>
    cases tools with
    | nil => cases hids
    | cons r tools =>
      simp only [List.map_cons, List.cons.injEq, List.nodup_cons] at hids hnodup
      have hr : answers tc.id r = true := answers_of_id (htools r List.mem_cons_self) hids.1
      have hrest : tcs.map (fun tc => ((r :: tools).find? (answers tc.id)).getD (interrupted tc)) =
          tcs.map (fun tc => (tools.find? (answers tc.id)).getD (interrupted tc)) := by
        refine List.map_congr_left fun tc' htc' => ?_
        have hnot : ¬answers tc'.id r = true := fun h' => hnodup.1 (by
          rw [← eq_of_answers h' hr]
          exact List.mem_map_of_mem htc')
        rw [List.find?_cons_of_neg hnot]
      rw [List.map_cons, hrest, ih hnodup.2 tools hids.2 fun x hx => htools x (List.mem_cons_of_mem r hx),
        List.find?_cons_of_pos hr]
      rfl

/-- Without its results, such a transcript has no tool messages. -/
theorem withoutResults_all {ids : List String} (hnodup : ids.Nodup)
    (hids : (ms.filter isTool).map (·.toolCallId) = ids.map some) : withoutResults ids ms = spoken ms := by
  rw [withoutResults, eraseDups_of_nodup hnodup]
  clear hnodup
  induction ids generalizing ms with
  | nil =>
    have hnone : ms.filter isTool = [] := List.map_eq_nil_iff.mp hids
    rw [List.foldl_nil, spoken, List.filter_eq_self.mpr]
    intro r hr
    simpa using List.filter_eq_nil_iff.mp hnone r hr
  | cons x ids ih =>
    rw [List.foldl_cons, ← spoken_eraseP x ms]
    refine ih ?_
    rw [filter_eraseP]
    cases htools : ms.filter isTool with
    | nil =>
      rw [htools] at hids
      cases hids
    | cons r tools =>
      rw [htools] at hids
      simp only [List.map_cons, List.cons.injEq] at hids
      have htool : isTool r = true := (List.mem_filter.mp (htools ▸ List.mem_cons_self : r ∈ ms.filter isTool)).2
      rw [List.eraseP_cons_of_pos (answers_of_id htool hids.1)]
      exact hids.2

theorem repaired_plain (h : ∀ m ∈ ms, isTool m = false ∧ callsTools m = false) : Repaired ms ms := by
  induction ms with
  | nil => exact .nil
  | cons m ms ih =>
    obtain ⟨htool, hcalls⟩ := h m List.mem_cons_self
    exact .plain hcalls htool (ih fun m' hm' => h m' (List.mem_cons_of_mem m hm'))

/-- A batch of results that is interleaved with other messages: the repair puts the results next to
their calls. -/
theorem repaired_batch {m : ChatMessage} (hm : callsTools m = true) (hnodup : (callIds m).Nodup)
    (hids : (ms.filter isTool).map (·.toolCallId) = (callIds m).map some)
    (hplain : ∀ r ∈ ms, isTool r = false → callsTools r = false) :
    Repaired (m :: ms) (m :: (ms.filter isTool ++ spoken ms)) := by
  have hsplit : ms.filter isTool = ms.takeWhile isTool ++ (ms.dropWhile isTool).filter isTool := by
    conv_lhs => rw [← List.takeWhile_append_dropWhile (p := isTool) (l := ms)]
    rw [List.filter_append, List.filter_eq_self.mpr fun r hr => isTool_of_mem_run hr]
  have hkept : keptRun m ms = ms.takeWhile isTool := by
    rw [keptRun, List.filter_eq_self]
    intro r hr
    have hmem : r.toolCallId ∈ (ms.filter isTool).map (·.toolCallId) := by
      rw [hsplit]
      exact List.mem_map_of_mem (List.mem_append_left _ hr)
    rw [hids] at hmem
    obtain ⟨x, hx, hid⟩ := List.mem_map.mp hmem
    simp [← hid, hx]
  obtain ⟨front, back, hcalls, hfront, hback⟩ : ∃ front back, m.toolCalls = front ++ back ∧
      (ms.takeWhile isTool).map (·.toolCallId) = (front.map (·.id)).map some ∧
      ((ms.dropWhile isTool).filter isTool).map (·.toolCallId) = (back.map (·.id)).map some := by
    rw [hsplit, List.map_append, callIds] at hids
    obtain ⟨ids, ids', hsum, hfst, hsnd⟩ := List.append_eq_map_iff.mp hids
    obtain ⟨front, back, hcalls, rfl, rfl⟩ := List.map_eq_append_iff.mp hsum
    exact ⟨front, back, hcalls, hfst.symm, hsnd.symm⟩
  have hunanswered : unanswered m ms = back := by
    have hrun : (ms.takeWhile isTool).filterMap (·.toolCallId) = front.map (·.id) := by
      have hsome := congrArg (List.filterMap id) hfront
      rwa [List.filterMap_map, List.filterMap_map, Function.id_comp, Function.id_comp, List.filterMap_some] at hsome
    rw [callIds, hcalls, List.map_append, List.nodup_append] at hnodup
    have hfst : front.filter (fun tc => !(front.map (·.id)).contains tc.id) = [] := by
      rw [List.filter_eq_nil_iff]
      intro tc htc
      simpa using ⟨tc, htc, rfl⟩
    have hsnd : back.filter (fun tc => !(front.map (·.id)).contains tc.id) = back := by
      rw [List.filter_eq_self]
      intro tc htc
      rw [Bool.not_eq_true', ← Bool.not_eq_true, List.contains_iff_mem]
      exact fun hmem => hnodup.2.2 tc.id hmem tc.id (List.mem_map_of_mem htc) rfl
    rw [unanswered, hrun, hcalls, List.filter_append, hfst, hsnd, List.nil_append]
  have hresults : (unanswered m ms).map (resultOf (ms.dropWhile isTool)) = (ms.dropWhile isTool).filter isTool := by
    rw [hunanswered]
    refine map_resultOf ?_ hback
    rw [callIds, hcalls, List.map_append, List.nodup_append] at hnodup
    exact hnodup.2.1
  have hlater : laterOf m ms = spoken ms := by
    rw [laterOf, hunanswered, withoutResults_all ?_ hback, spoken_dropWhile]
    rw [callIds, hcalls, List.map_append, List.nodup_append] at hnodup
    exact hnodup.2.1
  have hspoken : Repaired (laterOf m ms) (spoken ms) := by
    rw [hlater]
    refine repaired_plain fun r hr => ?_
    obtain ⟨hr, htool⟩ := List.mem_filter.mp hr
    have htool : isTool r = false := by simpa using htool
    exact ⟨htool, hplain r hr htool⟩
  have hrepaired := Repaired.calls hm hspoken
  rwa [hkept, hresults, ← hsplit] at hrepaired

end Batch

end FerrisScope.GrowingTranscripts
