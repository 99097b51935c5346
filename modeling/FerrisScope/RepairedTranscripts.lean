import FerrisScope.ToolPairs
import Mathlib.Data.List.Count
import Mathlib.Data.List.Nodup
import Mathlib.Data.List.Perm.Subperm
import Mathlib.Data.Option.Basic

/-!
# What the repair makes of a transcript

Where no id is issued twice, the repaired transcript is read off the input message by message: an
assistant message with calls keeps the results of its own run, each call without one gets its first
later result or a made-up one, and every other tool message is gone. `Paired` is the shape providers
accept. The repair never removes a second result of one call from the run, so the shape is reached
exactly when the input has none.
-/

namespace FerrisScope.RepairedTranscripts
open ChatMessages ToolPairs

/-- The ids of all calls, in order. -/
def issued (ms : List ChatMessage) : List String :=
  ms.flatMap fun m => if callsTools m then callIds m else []

/-- Every assistant message with calls is followed by one result for each call, and there is no
other tool message. -/
inductive Paired : List ChatMessage → Prop
  | nil : Paired []
  | plain {m ms} (hm : callsTools m = false) (htool : isTool m = false) (hms : Paired ms) : Paired (m :: ms)
  | calls {m run ms} (hm : callsTools m = true) (hrun : ∀ r ∈ run, isTool r = true)
      (hids : (run.map (·.toolCallId)).Perm ((callIds m).map some)) (hms : Paired ms) : Paired (m :: (run ++ ms))

/-- A property of every assistant message with calls and the messages after it. -/
def AtCalls (P : ChatMessage → List ChatMessage → Prop) (ms : List ChatMessage) : Prop :=
  ∀ pre m post, ms = pre ++ m :: post → callsTools m = true → P m post

/-- No call has two results among the tool messages right after its assistant message. -/
def SinglyAnswered (ms : List ChatMessage) : Prop :=
  AtCalls (fun m post => ∀ id ∈ callIds m, (post.takeWhile isTool).countP (answers id) ≤ 1) ms

/-- A result that comes after its call, the first one, is the result of that call in `out`. -/
def KeepsResults (ms out : List ChatMessage) : Prop :=
  AtCalls (fun m post => ∀ id ∈ callIds m, ∀ r, post.find? (answers id) = some r → out.find? (answers id) = some r) ms

/-- The results of the run that the repair keeps. -/
def keptRun (m : ChatMessage) (ms : List ChatMessage) : List ChatMessage :=
  (ms.takeWhile isTool).filter fun r => r.toolCallId.any ((callIds m).contains ·)

/-- The first later result of a call, or a made-up one. -/
def resultOf (later : List ChatMessage) (tc : ToolCall) : ChatMessage :=
  (later.find? (answers tc.id)).getD (interrupted tc)

/-- The messages behind the run that stay there. -/
def laterOf (m : ChatMessage) (ms : List ChatMessage) : List ChatMessage :=
  withoutResults ((unanswered m ms).map (·.id)) (ms.dropWhile isTool)

/-- The input and the repaired transcript, message by message. -/
inductive Repaired : List ChatMessage → List ChatMessage → Prop
  | nil : Repaired [] []
  | dropped {m ms out} (hm : isTool m = true) (hms : Repaired ms out) : Repaired (m :: ms) out
  | plain {m ms out} (hm : callsTools m = false) (htool : isTool m = false) (hms : Repaired ms out) :
      Repaired (m :: ms) (m :: out)
  | calls {m ms out} (hm : callsTools m = true) (hms : Repaired (laterOf m ms) out) :
      Repaired (m :: ms)
        (m :: ((keptRun m ms ++ (unanswered m ms).map (resultOf (ms.dropWhile isTool))) ++ out))

section Erasing

variable {x y : String} {ids : List String}

theorem find?_eraseP_of_ne (h : x ≠ y) (ms : List ChatMessage) :
    (ms.eraseP (answers y)).find? (answers x) = ms.find? (answers x) := by
  rcases List.exists_or_eq_self_of_eraseP (answers y) ms with heq | ⟨m, pre, post, -, hm, hms, herase⟩
  · rw [heq]
  · have hnot : ¬answers x m = true := fun hx => h (eq_of_answers hx hm)
    rw [herase, hms, List.find?_append, List.find?_append, List.find?_cons_of_neg hnot]

/-- Taking out results keeps the first message when that is not one. -/
theorem head?_withoutResults {m : ChatMessage} (h : isTool m = false) (ids : List String) (ms : List ChatMessage) :
    ∃ ms', withoutResults ids (m :: ms) = m :: ms' := by
  unfold withoutResults
  generalize ids.eraseDups = ids
  induction ids generalizing ms with
  | nil => exact ⟨ms, rfl⟩
  | cons y ids ih =>
    have hnot : ¬answers y m = true := fun hy => by
      rw [isTool_of_answers hy] at h
      cases h
    rw [List.foldl_cons, List.eraseP_cons_of_neg hnot]
    exact ih _

end Erasing

/-- The gap at an assistant message that repeats no id. -/
theorem foldlM_settle_of_nodup {tcs : List ToolCall} (hnodup : (tcs.map (·.id)).Nodup) (block later : List ChatMessage)
    (hblock : ∀ tc ∈ tcs, block.find? (answers tc.id) = none) :
    tcs.foldlM Gap.settle ⟨block, later⟩ =
      .ok ⟨block ++ tcs.map (resultOf later), (tcs.map (·.id)).foldl (fun ms id => ms.eraseP (answers id)) later⟩ := by
  induction tcs generalizing block later with
  | nil => simp [pure, Except.pure]
  | cons tc tcs ih =>
    rw [List.map_cons, List.nodup_cons] at hnodup
    have hne {tc' : ToolCall} (h : tc' ∈ tcs) : tc'.id ≠ tc.id := fun heq =>
      hnodup.1 (heq ▸ List.mem_map_of_mem h)
    have hresult : answers tc.id (resultOf later tc) = true := by
      unfold resultOf
      cases hfind : later.find? (answers tc.id) with
      | none => exact answers_interrupted tc
      | some r => exact List.find?_some hfind
    have hone : Gap.settle ⟨block, later⟩ tc =
        .ok ⟨block ++ [resultOf later tc], later.eraseP (answers tc.id)⟩ := by
      unfold Gap.settle resultOf
      rw [hblock tc List.mem_cons_self]
      cases hfind : later.find? (answers tc.id) with
      | none =>
        rw [List.eraseP_of_forall_not fun m hm hx => List.find?_eq_none.mp hfind m hm hx]
        rfl
      | some r => rfl
    rw [List.foldlM_cons, hone]
    change tcs.foldlM Gap.settle _ = _
    rw [ih hnodup.2]
    · have hmap : tcs.map (resultOf (later.eraseP (answers tc.id))) = tcs.map (resultOf later) :=
        List.map_congr_left fun tc' h => by
          unfold resultOf
          rw [find?_eraseP_of_ne (hne h)]
      rw [hmap]
      simp
    · intro tc' h
      rw [List.find?_append, hblock tc' (List.mem_cons_of_mem tc h)]
      have hnot : ¬answers tc'.id (resultOf later tc) = true := fun hx => hne h (eq_of_answers hx hresult)
      simp [hnot]

theorem gapAfter_of_nodup {m : ChatMessage} (h : (callIds m).Nodup) (ms : List ChatMessage) :
    gapAfter m ms = .ok ⟨(unanswered m ms).map (resultOf (ms.dropWhile isTool)), laterOf m ms⟩ := by
  have hnodup := (unanswered_ids_sublist m ms).nodup h
  rw [gapAfter, foldlM_settle_of_nodup hnodup _ _ fun _ _ => rfl, laterOf, withoutResults, eraseDups_of_nodup hnodup]
  rfl

theorem dropWhile_isTool (ms : List ChatMessage) :
    ms.dropWhile isTool = [] ∨ ∃ m rest, ms.dropWhile isTool = m :: rest ∧ isTool m = false := by
  cases h : ms.dropWhile isTool with
  | nil => exact .inl rfl
  | cons m rest =>
    refine .inr ⟨m, rest, rfl, ?_⟩
    have hhead := List.head_dropWhile_not isTool (by rw [h]; exact List.cons_ne_nil m rest)
    simpa [h] using hhead

/-- The walk starts with the message it is given first. -/
theorem walked_head {m : ChatMessage} {ms out : List ChatMessage} {n : Nat} (h : Walked (m :: ms) out n) :
    ∃ out', out = m :: out' := by
  cases h with
  | pass _ _ => exact ⟨_, rfl⟩
  | calls _ _ _ => exact ⟨_, rfl⟩

section Retaining

variable {allowed : List String} {m : ChatMessage} {xs ys : List ChatMessage}

theorem retain_calls (h : callsTools m = true) (allowed : List String) (ms : List ChatMessage) :
    retain allowed (m :: ms) = m :: retain (callIds m) ms := by
  have hrole : m.role = .assistant := by
    simp only [callsTools, Bool.and_eq_true, decide_eq_true_eq] at h
    exact h.1
  rw [retain, hrole]

theorem retain_not_tool (h : isTool m = false) (allowed allowed' : List String) (ms : List ChatMessage) :
    retain allowed (m :: ms) = retain allowed' (m :: ms) := by
  rw [retain, retain]
  cases hrole : m.role with
  | tool =>
    rw [isTool, hrole] at h
    cases h
  | system => rfl
  | user => rfl
  | assistant => rfl

theorem retain_of_head (h : xs.takeWhile isTool = []) (allowed allowed' : List String) :
    retain allowed xs = retain allowed' xs := by
  cases xs with
  | nil => rfl
  | cons m xs =>
    refine retain_not_tool ?_ allowed allowed' xs
    by_contra hm
    rw [List.takeWhile_cons_of_pos (Bool.of_not_eq_false hm)] at h
    cases h

theorem retain_plain (hm : callsTools m = false) (h : isTool m = false) (ms : List ChatMessage) :
    retain [] (m :: ms) = m :: retain [] ms := by
  rw [retain]
  cases hrole : m.role with
  | tool =>
    rw [isTool, hrole] at h
    cases h
  | system => rfl
  | user => rfl
  | assistant =>
    have hcalls : m.toolCalls = [] := by
      rw [callsTools, hrole] at hm
      simpa using hm
    rw [callIds, hcalls]
    rfl

theorem retain_tool (h : isTool m = true) (ms : List ChatMessage) : retain [] (m :: ms) = retain [] ms := by
  have hrole : m.role = .tool := by simpa [isTool] using h
  rw [retain, hrole]
  cases m.toolCallId <;> simp

theorem retain_tools (hxs : ∀ r ∈ xs, isTool r = true) (ys : List ChatMessage) :
    retain allowed (xs ++ ys) = xs.filter (fun r => r.toolCallId.any (allowed.contains ·)) ++ retain allowed ys := by
  induction xs with
  | nil => rfl
  | cons r xs ih =>
    have hrole : r.role = .tool := by simpa [isTool] using hxs r List.mem_cons_self
    rw [List.cons_append, retain, hrole, ih fun x hx => hxs x (List.mem_cons_of_mem r hx)]
    dsimp only
    rw [List.filter_cons]
    split <;> rfl

end Retaining

theorem answers_resultOf (later : List ChatMessage) (tc : ToolCall) : answers tc.id (resultOf later tc) = true := by
  unfold resultOf
  cases hfind : later.find? (answers tc.id) with
  | none => exact answers_interrupted tc
  | some r => exact List.find?_some hfind

theorem isTool_of_mem_results {tcs : List ToolCall} {later : List ChatMessage} {r : ChatMessage}
    (h : r ∈ tcs.map (resultOf later)) : isTool r = true := by
  obtain ⟨tc, -, rfl⟩ := List.mem_map.mp h
  exact isTool_of_answers (answers_resultOf later tc)

theorem isTool_of_mem_run {ms : List ChatMessage} {r : ChatMessage} (h : r ∈ ms.takeWhile isTool) : isTool r = true :=
  List.all_eq_true.mp List.all_takeWhile r h

/-- The two walks together. -/
theorem repaired_of_walked {ms out : List ChatMessage} {n : Nat} (h : Walked ms out n)
    (hids : ∀ m ∈ ms, callsTools m = true → (callIds m).Nodup) : Repaired ms (retain [] out) := by
  induction h with
  | nil => exact .nil
  | @pass m ms out n hm _ ih =>
    have hms := ih fun m' h => hids m' (List.mem_cons_of_mem m h)
    cases htool : isTool m with
    | true =>
      rw [retain_tool htool]
      exact .dropped htool hms
    | false =>
      rw [retain_plain hm htool]
      exact .plain hm htool hms
  | @calls m ms out n g hm hg hms ih =>
    have hgap := gapAfter_of_nodup (hids m List.mem_cons_self hm) ms
    obtain rfl : _ = g := Except.ok.inj (hgap.symm.trans hg)
    have hsub : (laterOf m ms).Sublist ms := (withoutResults_sublist _ _).trans (List.dropWhile_sublist isTool)
    have hlater := ih fun m' h => hids m' (List.mem_cons_of_mem m (hsub.subset h))
    have hout : retain (callIds m) out = retain [] out := by
      rcases dropWhile_isTool ms with hnil | ⟨m', rest, hcons, hm'⟩
      · have hempty : laterOf m ms = [] := by
          have hsub := withoutResults_sublist ((unanswered m ms).map (·.id)) (ms.dropWhile isTool)
          rw [hnil] at hsub
          rw [laterOf, hnil]
          exact List.sublist_nil.mp hsub
        rw [hempty] at hms
        cases hms
        rfl
      · obtain ⟨rest', hrest⟩ := head?_withoutResults hm' ((unanswered m ms).map (·.id)) rest
        rw [laterOf, hcons, hrest] at hms
        obtain ⟨out', rfl⟩ := walked_head hms
        exact retain_not_tool hm' _ _ _
    have hresults : ((unanswered m ms).map (resultOf (ms.dropWhile isTool))).filter
        (fun r => r.toolCallId.any ((callIds m).contains ·)) = (unanswered m ms).map (resultOf (ms.dropWhile isTool)) := by
      rw [List.filter_eq_self]
      intro r hr
      obtain ⟨tc, htc, rfl⟩ := List.mem_map.mp hr
      have hid := id_of_answers (answers_resultOf (ms.dropWhile isTool) tc)
      have hmem : tc.id ∈ callIds m := (unanswered_ids_sublist m ms).subset (List.mem_map_of_mem htc)
      simp [hid, hmem]
    rw [List.cons_append, List.cons_append, retain_calls hm, List.append_assoc]
    rw [retain_tools fun r hr => isTool_of_mem_run hr, retain_tools fun r hr => isTool_of_mem_results hr]
    rw [hresults, hout, ← List.append_assoc]
    exact .calls hm hlater

section AtCalls

variable {P : ChatMessage → List ChatMessage → Prop}

theorem atCalls_nil : AtCalls P [] := by
  intro pre m post h
  simp at h

theorem atCalls_cons {m : ChatMessage} {ms : List ChatMessage} :
    AtCalls P (m :: ms) ↔ (callsTools m = true → P m ms) ∧ AtCalls P ms := by
  constructor
  · intro h
    refine ⟨h [] m ms rfl, fun pre m' post hms => ?_⟩
    exact h (m :: pre) m' post (by rw [hms, List.cons_append])
  · rintro ⟨hm, hms⟩ pre m' post h
    cases pre with
    | nil =>
      cases h
      exact hm
    | cons m'' pre =>
      cases h
      exact hms pre m' post rfl

theorem atCalls_cons_of_not {m : ChatMessage} (hm : callsTools m = false) {ms : List ChatMessage} :
    AtCalls P (m :: ms) ↔ AtCalls P ms := by
  rw [atCalls_cons, hm]
  simp

theorem atCalls_tools {run : List ChatMessage} (hrun : ∀ r ∈ run, isTool r = true) (ms : List ChatMessage) :
    AtCalls P (run ++ ms) ↔ AtCalls P ms := by
  induction run with
  | nil => rfl
  | cons r run ih =>
    have hr : callsTools r = false := not_callsTools_of_isTool (hrun r List.mem_cons_self)
    rw [List.cons_append, atCalls_cons_of_not hr]
    exact ih fun x hx => hrun x (List.mem_cons_of_mem r hx)

theorem issued_cons (m : ChatMessage) (ms : List ChatMessage) :
    issued (m :: ms) = (if callsTools m then callIds m else []) ++ issued ms := List.flatMap_cons

/-- A property that does not look at the results of other calls is the same without them. -/
theorem atCalls_eraseP (hP : ∀ m ms x, x ∉ callIds m → (P m (ms.eraseP (answers x)) ↔ P m ms)) {x : String}
    {ms : List ChatMessage} (hx : x ∉ issued ms) : AtCalls P (ms.eraseP (answers x)) ↔ AtCalls P ms := by
  induction ms with
  | nil => rfl
  | cons m ms ih =>
    rw [issued_cons, List.mem_append, not_or] at hx
    by_cases hm : answers x m = true
    · have hcalls : callsTools m = false := not_callsTools_of_isTool (isTool_of_answers hm)
      rw [List.eraseP_cons_of_pos hm, atCalls_cons_of_not hcalls]
    · rw [List.eraseP_cons_of_neg hm, atCalls_cons, atCalls_cons, ih hx.2]
      refine and_congr_left fun _ => imp_congr_right fun hcalls => hP m ms x ?_
      have := hx.1
      rwa [if_pos hcalls] at this

theorem issued_spoken (ms : List ChatMessage) : issued (spoken ms) = issued ms := by
  induction ms with
  | nil => rfl
  | cons m ms ih =>
    rw [issued_cons, ← ih, spoken, List.filter_cons]
    cases htool : isTool m with
    | false => rw [Bool.not_false, if_pos rfl, issued_cons, spoken]
    | true =>
      rw [Bool.not_true, if_neg Bool.false_ne_true, not_callsTools_of_isTool htool, if_neg Bool.false_ne_true, spoken]
      rfl

theorem issued_congr {xs ys : List ChatMessage} (h : spoken xs = spoken ys) : issued xs = issued ys := by
  rw [← issued_spoken xs, h, issued_spoken ys]

theorem spoken_withoutResults (ids : List String) (ms : List ChatMessage) : spoken (withoutResults ids ms) = spoken ms := by
  unfold withoutResults
  generalize ids.eraseDups = ids
  induction ids generalizing ms with
  | nil => rfl
  | cons x ids ih => rw [List.foldl_cons, ih, spoken_eraseP]

theorem spoken_dropWhile (ms : List ChatMessage) : spoken (ms.dropWhile isTool) = spoken ms := by
  have hrun : spoken (ms.takeWhile isTool) = [] := spoken_eq_nil fun r hr => isTool_of_mem_run hr
  have hms : spoken (ms.takeWhile isTool ++ ms.dropWhile isTool) = spoken ms := by
    rw [List.takeWhile_append_dropWhile]
  rw [← hms, spoken_append, hrun, List.nil_append]

theorem issued_laterOf (m : ChatMessage) (ms : List ChatMessage) : issued (laterOf m ms) = issued ms :=
  issued_congr (by rw [laterOf, spoken_withoutResults, spoken_dropWhile])

theorem atCalls_withoutResults (hP : ∀ m ms x, x ∉ callIds m → (P m (ms.eraseP (answers x)) ↔ P m ms))
    {ids : List String} {ms : List ChatMessage} (hids : ∀ x ∈ ids, x ∉ issued ms) :
    AtCalls P (withoutResults ids ms) ↔ AtCalls P ms := by
  have hdups : ∀ x ∈ ids.eraseDups, x ∉ issued ms := fun x hx => hids x (List.mem_eraseDups.mp hx)
  clear hids
  unfold withoutResults
  revert hdups
  generalize ids.eraseDups = ids
  intro hdups
  induction ids generalizing ms with
  | nil => rfl
  | cons x ids ih =>
    have hsame : issued (ms.eraseP (answers x)) = issued ms := issued_congr (spoken_eraseP x ms)
    have hrest : ∀ y ∈ ids, y ∉ issued (ms.eraseP (answers x)) := by
      rw [hsame]
      exact fun y hy => hdups y (List.mem_cons_of_mem x hy)
    exact (ih hrest).trans (atCalls_eraseP hP (hdups x List.mem_cons_self))

/-- The later messages, without the results that have been moved. -/
theorem atCalls_laterOf (hP : ∀ m ms x, x ∉ callIds m → (P m (ms.eraseP (answers x)) ↔ P m ms)) {m : ChatMessage}
    {ms : List ChatMessage} (hdisjoint : ∀ x ∈ callIds m, x ∉ issued ms) : AtCalls P (laterOf m ms) ↔ AtCalls P ms := by
  have hrest := atCalls_tools (P := P) (fun r (hr : r ∈ ms.takeWhile isTool) => isTool_of_mem_run hr) (ms.dropWhile isTool)
  rw [List.takeWhile_append_dropWhile] at hrest
  rw [hrest, laterOf]
  refine atCalls_withoutResults hP fun x hx => ?_
  rw [issued_congr (spoken_dropWhile ms)]
  exact hdisjoint x ((unanswered_ids_sublist m ms).subset hx)

end AtCalls

/-- The run of results in front of the first other message. -/
theorem takeWhile_eraseP (x : String) (ms : List ChatMessage) :
    (ms.eraseP (answers x)).takeWhile isTool = (ms.takeWhile isTool).eraseP (answers x) := by
  induction ms with
  | nil => rfl
  | cons m ms ih =>
    by_cases hm : answers x m = true
    · rw [List.eraseP_cons_of_pos hm, List.takeWhile_cons_of_pos (isTool_of_answers hm), List.eraseP_cons_of_pos hm]
    · rw [List.eraseP_cons_of_neg hm]
      cases htool : isTool m with
      | true =>
        rw [List.takeWhile_cons_of_pos htool, List.takeWhile_cons_of_pos htool, List.eraseP_cons_of_neg hm, ih]
      | false => rw [List.takeWhile_cons_of_neg (by simp [htool]), List.takeWhile_cons_of_neg (by simp [htool])]; rfl

theorem countP_eraseP_of_ne {x y : String} (h : x ≠ y) (ms : List ChatMessage) :
    (ms.eraseP (answers y)).countP (answers x) = ms.countP (answers x) := by
  rcases List.exists_or_eq_self_of_eraseP (answers y) ms with heq | ⟨m, pre, post, -, hm, hms, herase⟩
  · rw [heq]
  · have hnot : ¬answers x m = true := fun hx => h (eq_of_answers hx hm)
    rw [herase, hms, List.countP_append, List.countP_append, List.countP_cons_of_neg hnot]

theorem singlyAnswered_laterOf {m : ChatMessage} {ms : List ChatMessage} (h : ∀ x ∈ callIds m, x ∉ issued ms) :
    SinglyAnswered (laterOf m ms) ↔ SinglyAnswered ms := by
  refine atCalls_laterOf (fun m' post x hx => ?_) h
  refine forall₂_congr fun id hid => ?_
  have hne : id ≠ x := fun heq => hx (heq ▸ hid)
  rw [takeWhile_eraseP, countP_eraseP_of_ne hne]

theorem keepsResults_laterOf {m : ChatMessage} {ms : List ChatMessage} (h : ∀ x ∈ callIds m, x ∉ issued ms)
    (out : List ChatMessage) : KeepsResults (laterOf m ms) out ↔ KeepsResults ms out := by
  refine atCalls_laterOf (fun m' post x hx => ?_) h
  refine forall₂_congr fun id hid => ?_
  have hne : id ≠ x := fun heq => hx (heq ▸ hid)
  rw [find?_eraseP_of_ne hne]

/-- The repaired transcript starts with no tool message. -/
theorem Repaired.head {ms out : List ChatMessage} (h : Repaired ms out) : out.takeWhile isTool = [] := by
  induction h with
  | nil => rfl
  | dropped _ _ ih => exact ih
  | plain _ htool _ _ => exact List.takeWhile_cons_of_neg (by simp [htool])
  | calls hm _ _ => exact List.takeWhile_cons_of_neg (by simp [not_isTool_of_callsTools hm])

theorem Paired.head {out : List ChatMessage} (h : Paired out) : out.takeWhile isTool = [] := by
  cases h with
  | nil => rfl
  | plain _ htool _ => exact List.takeWhile_cons_of_neg (by simp [htool])
  | calls hm _ _ _ => exact List.takeWhile_cons_of_neg (by simp [not_isTool_of_callsTools hm])

theorem takeWhile_tools {run ms : List ChatMessage} (hrun : ∀ r ∈ run, isTool r = true) (hms : ms.takeWhile isTool = []) :
    (run ++ ms).takeWhile isTool = run := by
  rw [List.takeWhile_append_of_pos hrun, hms, List.append_nil]

/-- An assistant message with its results, at the front of a transcript in the right shape. -/
theorem paired_calls_iff {m : ChatMessage} {run ms : List ChatMessage} (hm : callsTools m = true)
    (hrun : ∀ r ∈ run, isTool r = true) (hms : ms.takeWhile isTool = []) :
    Paired (m :: (run ++ ms)) ↔ (run.map (·.toolCallId)).Perm ((callIds m).map some) ∧ Paired ms := by
  constructor
  · intro h
    generalize hall : m :: (run ++ ms) = all at h
    cases h with
    | nil => cases hall
    | plain hm' _ _ =>
      cases hall
      rw [hm] at hm'
      cases hm'
    | @calls m' run' ms' _ hrun' hids hms' =>
      obtain ⟨rfl, happend⟩ := List.cons.inj hall
      have hsame := congrArg (List.takeWhile isTool) happend
      rw [takeWhile_tools hrun hms, takeWhile_tools hrun' hms'.head] at hsame
      subst hsame
      rw [List.append_cancel_left happend]
      exact ⟨hids, hms'⟩
  · rintro ⟨hids, hpaired⟩
    exact .calls hm hrun hids hpaired

/-- Results counted by their ids. -/
theorem count_ids {xs : List ChatMessage} (h : ∀ r ∈ xs, isTool r = true) (x : String) :
    (xs.map (·.toolCallId)).count (some x) = xs.countP (answers x) := by
  rw [List.count, List.countP_map]
  refine List.countP_congr fun r hr => ?_
  rw [answers, h r hr]
  simp

section Block

variable {m : ChatMessage} {ms : List ChatMessage}

theorem ids_of_results (later : List ChatMessage) (tcs : List ToolCall) :
    (tcs.map (resultOf later)).map (·.toolCallId) = (tcs.map (·.id)).map some := by
  rw [List.map_map, List.map_map]
  exact List.map_congr_left fun tc _ => id_of_answers (answers_resultOf later tc)

theorem isTool_of_mem_keptRun {r : ChatMessage} (h : r ∈ keptRun m ms) : isTool r = true :=
  isTool_of_mem_run (List.mem_of_mem_filter h)

/-- The ids that the block behind an assistant message answers are its own. -/
theorem mem_callIds_of_mem_block {r : ChatMessage} {x : String}
    (h : r ∈ keptRun m ms ++ (unanswered m ms).map (resultOf (ms.dropWhile isTool))) (hx : answers x r = true) :
    x ∈ callIds m := by
  have hid := id_of_answers hx
  rcases List.mem_append.mp h with hkept | hresult
  · have hany := (List.mem_filter.mp hkept).2
    rw [hid] at hany
    simpa using hany
  · obtain ⟨tc, htc, rfl⟩ := List.mem_map.mp hresult
    rw [← eq_of_answers (answers_resultOf _ tc) hx]
    exact (unanswered_ids_sublist m ms).subset (List.mem_map_of_mem htc)

theorem countP_keptRun {x : String} (hx : x ∈ callIds m) :
    (keptRun m ms).countP (answers x) = (ms.takeWhile isTool).countP (answers x) := by
  rw [keptRun, List.countP_filter]
  refine List.countP_congr fun r _ => ?_
  rw [Bool.and_eq_true]
  refine and_iff_left_of_imp fun h => ?_
  rw [id_of_answers h]
  simpa using hx

/-- A call is settled behind the run when no message of the run answers it. -/
theorem mem_unanswered_iff {x : String} (hx : x ∈ callIds m) :
    x ∈ (unanswered m ms).map (·.id) ↔ (ms.takeWhile isTool).countP (answers x) = 0 := by
  have hids : x ∈ (ms.takeWhile isTool).filterMap (·.toolCallId) ↔ 0 < (ms.takeWhile isTool).countP (answers x) := by
    rw [List.countP_pos_iff, List.mem_filterMap]
    refine exists_congr fun r => and_congr_right fun hr => ?_
    exact ⟨answers_of_id (isTool_of_mem_run hr), id_of_answers⟩
  have hzero : (ms.takeWhile isTool).countP (answers x) = 0 ↔ x ∉ (ms.takeWhile isTool).filterMap (·.toolCallId) := by
    rw [hids]
    omega
  rw [hzero]
  constructor
  · intro hmem
    obtain ⟨tc, htc, rfl⟩ := List.mem_map.mp hmem
    simpa using (List.mem_filter.mp htc).2
  · intro hnot
    obtain ⟨tc, htc, rfl⟩ := List.mem_map.mp hx
    exact List.mem_map_of_mem (List.mem_filter.mpr ⟨htc, by simpa using hnot⟩)

/-- How often the block answers a call. -/
theorem countP_block (hnodup : (callIds m).Nodup) {x : String} (hx : x ∈ callIds m) :
    (keptRun m ms ++ (unanswered m ms).map (resultOf (ms.dropWhile isTool))).countP (answers x) =
      max 1 ((ms.takeWhile isTool).countP (answers x)) := by
  have hresults : ((unanswered m ms).map (resultOf (ms.dropWhile isTool))).countP (answers x) =
      if (ms.takeWhile isTool).countP (answers x) = 0 then 1 else 0 := by
    rw [← count_ids fun r hr => isTool_of_mem_results hr, ids_of_results, List.count_map_of_injective _ _ (Option.some_injective _)]
    have hsub := (unanswered_ids_sublist m ms).nodup hnodup
    split
    · rename_i hzero
      exact List.count_eq_one_of_mem hsub ((mem_unanswered_iff hx).mpr hzero)
    · rename_i hzero
      exact List.count_eq_zero_of_not_mem fun hmem => hzero ((mem_unanswered_iff hx).mp hmem)
  rw [List.countP_append, countP_keptRun hx, hresults]
  split <;> omega

theorem block_perm_iff (hnodup : (callIds m).Nodup) :
    ((keptRun m ms ++ (unanswered m ms).map (resultOf (ms.dropWhile isTool))).map (·.toolCallId)).Perm
        ((callIds m).map some) ↔
      ∀ id ∈ callIds m, (ms.takeWhile isTool).countP (answers id) ≤ 1 := by
  have htools : ∀ r ∈ keptRun m ms ++ (unanswered m ms).map (resultOf (ms.dropWhile isTool)), isTool r = true := by
    intro r hr
    rcases List.mem_append.mp hr with h | h
    · exact isTool_of_mem_keptRun h
    · exact isTool_of_mem_results h
  have hone {x : String} (hx : x ∈ callIds m) : ((callIds m).map some).count (some x) = 1 := by
    rw [List.count_map_of_injective _ _ (Option.some_injective _)]
    exact List.count_eq_one_of_mem hnodup hx
  rw [List.perm_iff_count]
  constructor
  · intro h x hx
    have hcount := h (some x)
    rw [count_ids htools, countP_block hnodup hx, hone hx] at hcount
    omega
  · intro h a
    cases a with
    | none =>
      have hleft : none ∉ (keptRun m ms ++ (unanswered m ms).map (resultOf (ms.dropWhile isTool))).map (·.toolCallId) := by
        rw [List.map_append, ids_of_results, List.mem_append, not_or]
        refine ⟨fun hnone => ?_, by simp⟩
        obtain ⟨r, hr, hid⟩ := List.mem_map.mp hnone
        have hany := (List.mem_filter.mp hr).2
        rw [hid] at hany
        cases hany
      rw [List.count_eq_zero_of_not_mem hleft, List.count_eq_zero_of_not_mem (by simp)]
    | some x =>
      rw [count_ids htools]
      by_cases hx : x ∈ callIds m
      · rw [countP_block hnodup hx, hone hx]
        have := h x hx
        omega
      · rw [List.count_eq_zero_of_not_mem (by simpa using hx), List.countP_eq_zero]
        exact fun r hr hxr => hx (mem_callIds_of_mem_block hr hxr)

end Block

/-- The ids of a message and those issued after it, where none is issued twice. -/
theorem issued_nodup_calls {m : ChatMessage} {ms : List ChatMessage} (hm : callsTools m = true)
    (h : (issued (m :: ms)).Nodup) :
    (callIds m).Nodup ∧ (issued ms).Nodup ∧ ∀ x ∈ callIds m, x ∉ issued ms := by
  rw [issued_cons, if_pos hm, List.nodup_append] at h
  exact ⟨h.1, h.2.1, fun x hx hx' => h.2.2 x hx x hx' rfl⟩

theorem issued_nodup_tail {m : ChatMessage} {ms : List ChatMessage} (h : (issued (m :: ms)).Nodup) :
    (issued ms).Nodup := by
  rw [issued_cons, List.nodup_append] at h
  exact h.2.1

/-- The repaired transcript has the right shape exactly when no call had two results in its run. -/
theorem Repaired.paired_iff {ms out : List ChatMessage} (h : Repaired ms out) (hissued : (issued ms).Nodup) :
    Paired out ↔ SinglyAnswered ms := by
  induction h with
  | nil => exact iff_of_true .nil atCalls_nil
  | dropped hm _ ih =>
    rw [ih (issued_nodup_tail hissued)]
    exact (atCalls_cons_of_not (not_callsTools_of_isTool hm)).symm
  | plain hm htool _ ih =>
    refine Iff.trans ?_ ((ih (issued_nodup_tail hissued)).trans (atCalls_cons_of_not hm).symm)
    constructor
    · intro h
      cases h with
      | plain _ _ hms => exact hms
      | calls hm' _ _ _ =>
        rw [hm] at hm'
        cases hm'
    · exact .plain hm htool
  | @calls m ms out hm hms ih =>
    obtain ⟨hnodup, htail, hdisjoint⟩ := issued_nodup_calls hm hissued
    have hih := ih (by rwa [issued_laterOf])
    rw [singlyAnswered_laterOf hdisjoint] at hih
    rw [paired_calls_iff hm ?_ hms.head, block_perm_iff hnodup, hih, SinglyAnswered, SinglyAnswered, atCalls_cons]
    · simp [hm]
    · intro r hr
      rcases List.mem_append.mp hr with h | h
      · exact isTool_of_mem_keptRun h
      · exact isTool_of_mem_results h

/-- The block behind an assistant message has, for each of its calls, the first result after it. -/
theorem find?_block {m : ChatMessage} {ms : List ChatMessage} {x : String}
    (hx : x ∈ callIds m) {r : ChatMessage} (hr : ms.find? (answers x) = some r) :
    (keptRun m ms ++ (unanswered m ms).map (resultOf (ms.dropWhile isTool))).find? (answers x) = some r := by
  have hkept : (keptRun m ms).find? (answers x) = (ms.takeWhile isTool).find? (answers x) := by
    rw [keptRun, List.find?_filter]
    congr 1
    funext r
    cases hanswers : answers x r with
    | false => simp
    | true => simp [id_of_answers hanswers, hx]
  have hsplit : ms.find? (answers x) =
      ((ms.takeWhile isTool).find? (answers x)).or ((ms.dropWhile isTool).find? (answers x)) := by
    rw [← List.find?_append, List.takeWhile_append_dropWhile]
  rw [List.find?_append, hkept]
  cases hrun : (ms.takeWhile isTool).find? (answers x) with
  | some r' =>
    rw [hsplit, hrun] at hr
    exact hr
  | none =>
    rw [hsplit, hrun, Option.none_or] at hr
    have hzero : (ms.takeWhile isTool).countP (answers x) = 0 :=
      List.countP_eq_zero.mpr (List.find?_eq_none.mp hrun)
    have heach : ∀ tc : ToolCall, tc.id = x → resultOf (ms.dropWhile isTool) tc = r := by
      intro tc htc
      rw [resultOf, htc, hr]
      rfl
    obtain ⟨tc, htc, hid⟩ := List.mem_map.mp ((mem_unanswered_iff hx).mpr hzero)
    rw [Option.none_or]
    cases hfind : ((unanswered m ms).map (resultOf (ms.dropWhile isTool))).find? (answers x) with
    | none =>
      have hnot := List.find?_eq_none.mp hfind _ (List.mem_map_of_mem htc)
      rw [← hid] at hnot
      exact absurd (answers_resultOf _ tc) hnot
    | some r' =>
      obtain ⟨tc', -, rfl⟩ := List.mem_map.mp (List.mem_of_find?_eq_some hfind)
      rw [heach tc' (eq_of_answers (answers_resultOf _ tc') (List.find?_some hfind))]

theorem Repaired.keepsResults {ms out : List ChatMessage} (h : Repaired ms out) (hissued : (issued ms).Nodup) :
    KeepsResults ms out := by
  induction h with
  | nil => exact atCalls_nil
  | dropped hm _ ih => exact (atCalls_cons_of_not (not_callsTools_of_isTool hm)).mpr (ih (issued_nodup_tail hissued))
  | @plain m ms out hm htool _ ih =>
    refine (atCalls_cons_of_not hm).mpr fun pre m' post hms hm' id hid r hr => ?_
    have hnot : ¬answers id m = true := fun h => by
      rw [isTool_of_answers h] at htool
      cases htool
    rw [List.find?_cons_of_neg hnot]
    exact ih (issued_nodup_tail hissued) pre m' post hms hm' id hid r hr
  | @calls m ms out hm hms ih =>
    obtain ⟨hnodup, htail, hdisjoint⟩ := issued_nodup_calls hm hissued
    have hkeeps := (keepsResults_laterOf hdisjoint out).mp (ih (by rwa [issued_laterOf]))
    have hself {x : String} : ¬answers x m = true := fun h => by
      have := not_isTool_of_callsTools hm
      rw [isTool_of_answers h] at this
      cases this
    rw [KeepsResults, atCalls_cons]
    refine ⟨fun _ x hx r hr => ?_, fun pre m' post hsplit hm' x hx r hr => ?_⟩
    · rw [List.find?_cons_of_neg hself, List.find?_append, find?_block hx hr]
      rfl
    · have hissuedx : x ∈ issued ms := by
        rw [hsplit, issued, List.flatMap_append, List.flatMap_cons, if_pos hm']
        exact List.mem_append_right _ (List.mem_append_left _ hx)
      have hblock : (keptRun m ms ++ (unanswered m ms).map (resultOf (ms.dropWhile isTool))).find? (answers x) = none := by
        rw [List.find?_eq_none]
        exact fun r' hr' hx' => hdisjoint x (mem_callIds_of_mem_block hr' hx') hissuedx
      rw [List.find?_cons_of_neg hself, List.find?_append, hblock]
      exact hkeeps pre m' post hsplit hm' x hx r hr

/-- A transcript in the right shape is left alone. -/
theorem Paired.walked {ms : List ChatMessage} (h : Paired ms) : Walked ms ms 0 ∧ retain [] ms = ms := by
  induction h with
  | nil => exact ⟨.nil, rfl⟩
  | plain hm htool _ ih => exact ⟨.pass hm ih.1, by rw [retain_plain hm htool, ih.2]⟩
  | @calls m run ms hm hrun hids hms ih =>
    have htake : (run ++ ms).takeWhile isTool = run := takeWhile_tools hrun hms.head
    have hdrop : (run ++ ms).dropWhile isTool = ms := by
      have := List.takeWhile_append_dropWhile (p := isTool) (l := run ++ ms)
      rw [htake] at this
      exact List.append_cancel_left this
    have hall : unanswered m (run ++ ms) = [] := by
      rw [unanswered, htake, List.filter_eq_nil_iff]
      intro tc htc
      have hmem : some tc.id ∈ run.map (·.toolCallId) := by
        rw [hids.mem_iff]
        exact List.mem_map_of_mem (List.mem_map_of_mem htc)
      obtain ⟨r, hr, hid⟩ := List.mem_map.mp hmem
      have : tc.id ∈ run.filterMap (·.toolCallId) := List.mem_filterMap.mpr ⟨r, hr, hid⟩
      simpa using this
    have hgap : gapAfter m (run ++ ms) = .ok ⟨[], ms⟩ := by
      rw [gapAfter, hall, hdrop]
      rfl
    have hkeep : run.filter (fun r => r.toolCallId.any ((callIds m).contains ·)) = run := by
      rw [List.filter_eq_self]
      intro r hr
      obtain ⟨x, hx, hid⟩ := List.mem_map.mp (hids.mem_iff.mp (List.mem_map_of_mem hr))
      rw [← hid]
      simpa using hx
    constructor
    · have hwalked := Walked.calls hm hgap ih.1
      rw [htake] at hwalked
      simpa using hwalked
    · rw [retain_calls hm, retain_tools hrun, hkeep, retain_of_head hms.head _ [], ih.2]

theorem repairToolPairs_of_paired {ms : List ChatMessage} (h : Paired ms) : repairToolPairs ms = .ok (ms, 0) := by
  obtain ⟨hwalked, hretain⟩ := h.walked
  rw [repairToolPairs_of_walked hwalked, hretain, Nat.sub_self]

/-- Where no id is issued twice, the repair reaches the shape providers accept, keeps every result
that comes after its call and is stable, exactly when no call has two results in its run. -/
theorem repair_valid_iff_singlyAnswered (messages : List ChatMessage) (hissued : (issued messages).Nodup) :
    (∃ repaired fixed, repairToolPairs messages = .ok (repaired, fixed) ∧ Paired repaired ∧
      KeepsResults messages repaired ∧ repairToolPairs repaired = .ok (repaired, 0)) ↔ SinglyAnswered messages := by
  have hids : ∀ m ∈ messages, callsTools m = true → (callIds m).Nodup := by
    intro m hm hcalls
    obtain ⟨pre, post, rfl⟩ := List.append_of_mem hm
    rw [issued, List.flatMap_append, List.flatMap_cons, if_pos hcalls, List.nodup_append] at hissued
    exact (List.nodup_append.mp hissued.2.1).1
  obtain ⟨out, n, hwalked⟩ := (roomy_iff_walked messages).mp (roomy_of_nodup hids)
  have hrepair := repairToolPairs_of_walked hwalked
  have hrepaired := repaired_of_walked hwalked hids
  constructor
  · rintro ⟨repaired, fixed, hok, hpaired, -⟩
    rw [hrepair] at hok
    cases hok
    exact (hrepaired.paired_iff hissued).mp hpaired
  · intro hsingle
    have hpaired := (hrepaired.paired_iff hissued).mpr hsingle
    exact ⟨_, _, hrepair, hpaired, hrepaired.keepsResults hissued, repairToolPairs_of_paired hpaired⟩

def toolResult (id : String) : ChatMessage where
  role := .tool
  content := "result " ++ id
  toolCallId := some id
  name := some "fs_pods_list"

/-- A result stranded behind a later message. -/
def stranded : List ChatMessage :=
  [assistantCalling "fs_pods_list" ["a"], { content := "never mind" }, toolResult "a"]

theorem stranded_repaired : (issued stranded).Nodup ∧
    ∃ repaired fixed, repairToolPairs stranded = .ok (repaired, fixed) ∧ Paired repaired ∧
      KeepsResults stranded repaired ∧ repairToolPairs repaired = .ok (repaired, 0) := by
  have hissued : (issued stranded).Nodup := by decide
  refine ⟨hissued, (repair_valid_iff_singlyAnswered stranded hissued).mpr ?_⟩
  refine atCalls_cons.mpr ⟨fun _ => by decide, ?_⟩
  refine (atCalls_cons_of_not (by decide)).mpr ((atCalls_cons_of_not (by decide)).mpr atCalls_nil)

/-- One call with two results right after it. -/
def doubled : List ChatMessage := [assistantCalling "fs_pods_list" ["a"], toolResult "a", toolResult "a"]

/-- The second result stays. -/
theorem doubled_stays : (issued doubled).Nodup ∧
    ¬∃ repaired fixed, repairToolPairs doubled = .ok (repaired, fixed) ∧ Paired repaired ∧
      KeepsResults doubled repaired ∧ repairToolPairs repaired = .ok (repaired, 0) := by
  refine ⟨by decide, ?_⟩
  rintro ⟨repaired, fixed, hrepair, hpaired, -⟩
  have hsame : repairToolPairs doubled = .ok (doubled, 0) := by decide
  rw [hsame] at hrepair
  cases hrepair
  have hshape : doubled = assistantCalling "fs_pods_list" ["a"] :: ([toolResult "a", toolResult "a"] ++ []) := rfl
  rw [hshape, paired_calls_iff (by decide) (by decide) rfl] at hpaired
  exact absurd hpaired.1.length_eq (by decide)

end FerrisScope.RepairedTranscripts
