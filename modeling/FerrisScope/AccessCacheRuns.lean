import FerrisScope.AccessCache

/-!
# Replies, epochs and keys in flight

The counters of a cluster, its resets first and then its epoch, only grow. A batch that is older
than them is never stored, and every key in flight is in a queued batch or in a
sent one that is not older. Each step is a chain of a few moves, and the invariants are kept
by each move.
-/

namespace FerrisScope.AccessCache
open LabelledRuns

/-- The keys of a batch are those of its requests. -/
def Batch.Keyed (b : Batch) : Prop := b.keys = b.requests.map fun r => accessKey (r.scoped b.clusterId)

/-- `d` is what the reply says on the request whose key is `k`. -/
def Settled.Answers (z : Settled) (k : String) (d : AccessDecision) : Prop :=
  ∃ i r, z.sent.batch.keys[i]? = some k ∧ z.sent.batch.requests[i]? = some r ∧
    k = accessKey (r.scoped z.sent.batch.clusterId) ∧ d = answer (decisionsOf z.sent.batch.keys z.reply) i

/-- The key is in a queued batch, or in one whose reply will be kept. -/
def Pending (s : State) (k : String) : Prop :=
  (∃ b ∈ s.batches, k ∈ b.keys) ∨ ∃ x ∈ s.sent, Current s x ∧ k ∈ x.batch.keys

/-- A batch sent before the present epoch of its cluster. -/
def Older (s : State) (x : Sent) : Prop :=
  x.asked.reset < s.resets ∨ x.asked.reset = s.resets ∧ x.asked.epoch < s.epochs x.batch.clusterId

structure Valid (s : State) : Prop where
  queued_keyed : ∀ b ∈ s.batches, b.Keyed
  sent_keyed : ∀ x ∈ s.sent, x.batch.Keyed
  sent_age : ∀ x ∈ s.sent, Current s x ∨ Older s x
  sent_id : ∀ x ∈ s.sent, x.id < s.nextId
  pending : ∀ k e, s.entries k = some e → e.inflight → Pending s k
  stored : ∀ k e d, s.entries k = some e → e.decision = some d → ∃ z ∈ s.settled, z.Answers k d
  scheduled : s.batches ≠ [] → s.scheduled
  microtasks : s.scheduled → 0 < s.microtasks

variable {s : State}

theorem not_current_of_older {x : Sent} (h : Older s x) : ¬Current s x := by
  rintro ⟨hreset, hepoch⟩
  rcases h with h | ⟨-, h⟩ <;> omega

theorem accessKey_eq (r : ScopedAccessRequest) :
    accessKey r = r.clusterId ++ "\x00" ++ r.kindId ++ "\x00" ++ r.action.text ++ "\x00" ++ r.ns.getD "" ++
      "\x00" ++ r.name.getD "" := rfl

theorem hasClusterPrefix_accessKey (r : ScopedAccessRequest) :
    hasClusterPrefix r.clusterId (accessKey r) = true := by
  rw [hasClusterPrefix, List.isPrefixOf_iff_prefix, accessKey_eq]
  simp only [String.toList_append, List.append_assoc]
  rw [← List.append_assoc]
  exact List.prefix_append _ _

theorem Batch.Keyed.hasClusterPrefix {b : Batch} (hb : b.Keyed) {k : String} (hk : k ∈ b.keys) :
    hasClusterPrefix b.clusterId k = true := by
  rw [hb, List.mem_map] at hk
  obtain ⟨r, -, rfl⟩ := hk
  exact hasClusterPrefix_accessKey (r.scoped b.clusterId)

/-! ### One call of `ask` -/

theorem mem_addRequest (c : ScopedAccessRequest) (key : String) (mine : List Batch) :
    ∃ b ∈ addRequest c key mine, key ∈ b.keys := by
  induction mine with
  | nil => exact ⟨_, List.mem_singleton_self _, List.mem_singleton_self _⟩
  | cons b mine ih =>
    rw [addRequest]
    split
    · exact ⟨_, List.mem_cons_self, by simp⟩
    · obtain ⟨b', hb', hkey⟩ := ih
      exact ⟨b', List.mem_cons_of_mem b hb', hkey⟩

theorem mem_addRequest_of_mem (c : ScopedAccessRequest) (key : String) {mine : List Batch} {k : String}
    (h : ∃ b ∈ mine, k ∈ b.keys) : ∃ b ∈ addRequest c key mine, k ∈ b.keys := by
  induction mine with
  | nil =>
    obtain ⟨b, hb, -⟩ := h
    cases hb
  | cons b₀ mine ih =>
    obtain ⟨b, hb, hk⟩ := h
    rw [addRequest]
    rcases List.mem_cons.mp hb with rfl | hb
    · split
      · exact ⟨_, List.mem_cons_self, List.mem_append_left _ hk⟩
      · exact ⟨b, List.mem_cons_self, hk⟩
    · split
      · exact ⟨b, List.mem_cons_of_mem _ hb, hk⟩
      · obtain ⟨b', hb', hk'⟩ := ih ⟨b, hb, hk⟩
        exact ⟨b', List.mem_cons_of_mem b₀ hb', hk'⟩

theorem keyed_addRequest (c : ScopedAccessRequest) {mine : List Batch} (h : ∀ b ∈ mine, b.Keyed) :
    ∀ b ∈ addRequest c (accessKey c) mine, b.Keyed := by
  induction mine with
  | nil =>
    intro b hb
    rw [addRequest, List.mem_singleton] at hb
    subst hb
    rfl
  | cons b₀ mine ih =>
    have hb₀ : b₀.Keyed := h b₀ List.mem_cons_self
    have hmine := fun b hb => h b (List.mem_cons_of_mem b₀ hb)
    rw [addRequest]
    split
    · rename_i hc
      refine List.forall_mem_cons.mpr ⟨?_, hmine⟩
      rw [Batch.Keyed, List.map_append, ← hb₀, hc]
      rfl
    · exact List.forall_mem_cons.mpr ⟨hb₀, ih hmine⟩

/-- What a call has done so far to the entries it started from. -/
structure Asking (es₀ es : String → Option Entry) (mine : List Batch) : Prop where
  inflight : ∀ k e, es k = some e → e.inflight →
    (∃ e₀, es₀ k = some e₀ ∧ e₀.inflight) ∨ ∃ b ∈ mine, k ∈ b.keys
  decision : ∀ k e d, es k = some e → e.decision = some d → ∃ e₀, es₀ k = some e₀ ∧ e₀.decision = some d
  kept : ∀ k e₀, es₀ k = some e₀ → ∃ e, es k = some e ∧ e.decision = e₀.decision
  keyed : ∀ b ∈ mine, b.Keyed

theorem asking_start (es : String → Option Entry) : Asking es es [] where
  inflight k e h hi := .inl ⟨e, h, hi⟩
  decision k e d h hd := ⟨e, h, hd⟩
  kept k e h := ⟨e, h, rfl⟩
  keyed b hb := by cases hb

theorem asking_askOne {es₀ es : String → Option Entry} {mine : List Batch} (h : Asking es₀ es mine)
    (now : Int) (c : ScopedAccessRequest) :
    Asking es₀ (askOne now (es, mine) (c, accessKey c)).1 (askOne now (es, mine) (c, accessKey c)).2 := by
  unfold askOne
  dsimp only
  split
  · refine ⟨fun k e he hi => ?_, fun k e d he hd => ?_, fun k e₀ he₀ => ?_, keyed_addRequest c h.keyed⟩
    · by_cases hk : k = accessKey c
      · subst hk
        exact .inr (mem_addRequest c _ mine)
      · dsimp only at he
        rw [Function.update_of_ne hk] at he
        rcases h.inflight k e he hi with hold | hmine
        · exact .inl hold
        · exact .inr (mem_addRequest_of_mem c _ hmine)
    · dsimp only at he
      by_cases hk : k = accessKey c
      · subst hk
        rw [Function.update_self] at he
        cases he
        obtain ⟨e, he, hd⟩ := Option.bind_eq_some_iff.mp hd
        exact h.decision _ e d he hd
      · rw [Function.update_of_ne hk] at he
        exact h.decision k e d he hd
    · obtain ⟨e, he, hd⟩ := h.kept k e₀ he₀
      dsimp only
      by_cases hk : k = accessKey c
      · subst hk
        exact ⟨_, Function.update_self _ _ _, by rw [he]; exact hd⟩
      · exact ⟨e, by rw [Function.update_of_ne hk, he], hd⟩
  · exact h

theorem asking_foldl {es₀ es : String → Option Entry} {mine : List Batch} (h : Asking es₀ es mine)
    (now : Int) (checks : List ScopedAccessRequest) :
    let acc := (checks.zip (checks.map accessKey)).foldl (askOne now) (es, mine)
    Asking es₀ acc.1 acc.2 := by
  induction checks generalizing es mine with
  | nil => exact h
  | cons c checks ih => exact ih (asking_askOne h now c)

/-- A call of `ask` changes entries, appends batches and makes sure that they will be sent. -/
theorem ask_spec (s : State) (checks : List ScopedAccessRequest) (now : Int) :
    ∃ es mine b n, ask s checks (checks.map accessKey) now =
        { s with entries := es, batches := s.batches ++ mine, scheduled := b, microtasks := n } ∧
      Asking s.entries es mine ∧ (s.batches ++ mine ≠ [] → b = true) ∧
      ((s.scheduled → 0 < s.microtasks) → b = true → 0 < n) := by
  have hask := asking_foldl (asking_start s.entries) now checks
  unfold ask schedule
  dsimp only at hask ⊢
  split
  · exact ⟨_, _, true, s.microtasks + 1, rfl, hask, fun _ => rfl, fun _ _ => Nat.succ_pos _⟩
  · rename_i hno
    refine ⟨_, _, s.scheduled, s.microtasks, rfl, hask, fun hne => ?_, fun hm hb => hm hb⟩
    by_contra hfalse
    exact hno ⟨hne, by simpa using hfalse⟩

/-! ### Sending and storing -/

theorem foldl_sendBatch_spec (bs : List Batch) (s : State) :
    ∃ new n, bs.foldl sendBatch s = { s with sent := s.sent ++ new, nextId := n } ∧
      new.map (·.batch) = bs ∧ s.nextId ≤ n ∧
      ∀ x ∈ new, Current s x ∧ s.nextId ≤ x.id ∧ x.id < n := by
  induction bs generalizing s with
  | nil => exact ⟨[], s.nextId, by simp, rfl, Nat.le_refl _, by simp⟩
  | cons b bs ih =>
    obtain ⟨new, n, heq, hmap, hle, hnew⟩ := ih (sendBatch s b)
    have hlt : s.nextId < n := hle
    rw [List.foldl_cons, heq]
    refine ⟨stamped s b :: new, n, by simp [sendBatch], congrArg (b :: ·) hmap, Nat.le_of_lt hlt, ?_⟩
    refine List.forall_mem_cons.mpr ⟨⟨⟨rfl, rfl⟩, Nat.le_refl _, hlt⟩, fun x hx => ?_⟩
    obtain ⟨hcur, hid, hxn⟩ := hnew x hx
    exact ⟨hcur, Nat.le_of_succ_le hid, hxn⟩

/-- Flushing sends each queued batch under the present counters. -/
theorem flush_spec (s : State) :
    ∃ new n, flush s = { s with
        scheduled := false
        batches := []
        microtasks := s.microtasks - 1
        sent := s.sent ++ new
        nextId := n } ∧
      new.map (·.batch) = s.batches ∧ s.nextId ≤ n ∧
      ∀ x ∈ new, Current s x ∧ s.nextId ≤ x.id ∧ x.id < n :=
  foldl_sendBatch_spec s.batches
    { s with scheduled := false, batches := [], microtasks := s.microtasks - 1 }

theorem storeAnswers_of_notMem (ds : Option (List AccessDecision)) (t : Int) (keys : List String) (i : Nat)
    (es : String → Option Entry) {k : String} (hk : k ∉ keys) :
    storeAnswers ds t i keys es k = es k := by
  induction keys generalizing i es with
  | nil => rfl
  | cons a keys ih =>
    have hne : k ≠ a := fun he => hk (he ▸ List.mem_cons_self)
    rw [storeAnswers, ih _ _ fun hmem => hk (List.mem_cons_of_mem a hmem), Function.update_of_ne hne]

/-- A key of the batch holds the answer at one of its positions. -/
theorem storeAnswers_of_mem (ds : Option (List AccessDecision)) (t : Int) (keys : List String) (i : Nat)
    (es : String → Option Entry) {k : String} (hk : k ∈ keys) :
    ∃ j, keys[j]? = some k ∧ storeAnswers ds t i keys es k =
      some { decision := some (answer ds (i + j)), storedAt := t, inflight := false } := by
  induction keys generalizing i es with
  | nil => cases hk
  | cons a keys ih =>
    rw [storeAnswers]
    by_cases hmem : k ∈ keys
    · obtain ⟨j, hj, hstore⟩ := ih (i + 1) (Function.update es a (some ⟨some (answer ds i), t, false⟩)) hmem
      exact ⟨j + 1, by simpa using hj, by rw [hstore, Nat.add_right_comm, Nat.add_assoc]⟩
    · obtain rfl : k = a := by simpa [hmem] using hk
      exact ⟨0, rfl, by rw [storeAnswers_of_notMem _ _ _ _ _ hmem, Function.update_self, Nat.add_zero]⟩

theorem answers_of_keyed {x : Sent} (hx : x.batch.Keyed) (reply : Reply) {k : String} {j : Nat}
    (hj : x.batch.keys[j]? = some k) :
    Settled.Answers ⟨x, reply⟩ k (answer (decisionsOf x.batch.keys reply) j) := by
  have hreq := hj
  rw [hx, List.getElem?_map, Option.map_eq_some_iff] at hreq
  obtain ⟨r, hr, hkey⟩ := hreq
  exact ⟨j, r, hj, hr, hkey.symm, rfl⟩

/-- After a reply is stored an entry is old or answers one of the batch's requests. -/
theorem entries_storeReply {x : Sent} (hx : x.batch.Keyed) (reply : Reply) (t : Int) {k : String} {e : Entry}
    (he : (storeReply s x reply t).entries k = some e) :
    (k ∉ x.batch.keys ∧ s.entries k = some e) ∨
      (k ∈ x.batch.keys ∧ e.inflight = false ∧ ∀ d, e.decision = some d → Settled.Answers ⟨x, reply⟩ k d) := by
  by_cases hk : k ∈ x.batch.keys
  · obtain ⟨j, hj, hstore⟩ := storeAnswers_of_mem (decisionsOf x.batch.keys reply) t x.batch.keys 0 s.entries hk
    cases hstore.symm.trans he
    refine .inr ⟨hk, rfl, fun d hd => ?_⟩
    cases hd
    rw [Nat.zero_add]
    exact answers_of_keyed hx reply hj
  · exact .inl ⟨hk, (storeAnswers_of_notMem _ _ _ _ _ hk).symm.trans he⟩

/-! ### The moves -/

/-- What a step can be made of. -/
structure Preserved (I : State → Prop) : Prop where
  ask : ∀ s checks now, I s → I (ask s checks (checks.map accessKey) now)
  listeners : ∀ s ls, I s → I { s with listeners := ls }
  flush : ∀ s, I s → I (flush s)
  issue : ∀ s id, I s → I (issue s id)
  discard : ∀ s id x, s.sent.find? (Sent.answers id) = some x → ¬Current s x → I s →
    I { s with sent := s.sent.eraseP (Sent.answers id) }
  store : ∀ s id x reply t, s.sent.find? (Sent.answers id) = some x → Current s x → I s →
    I (storeReply { s with sent := s.sent.eraseP (Sent.answers id) } x reply t)
  forget : ∀ s c, I s → I (forget s c)
  age : ∀ s c, I s → I (age s c)
  invalidated : ∀ s p c, I s → I (invalidated s p c)
  reset : ∀ s, I s → I (resetAccessCache s)

theorem step_preserved {I : State → Prop} (h : Preserved I) (hkeyed : ∀ s, I s → ∀ x ∈ s.sent, x.batch.Keyed)
    (s : State) (a : Action) (s' : State) (hs : I s) (hstep : step s a = some s') : I s' := by
  cases a with
  | requestAccess checks now =>
    cases hstep
    exact h.ask s checks now hs
  | listen checks =>
    cases hstep
    exact h.listeners s _ hs
  | unlisten i =>
    cases hstep
    exact h.listeners s _ hs
  | sweep now later =>
    cases hstep
    exact h.ask s _ later hs
  | flush =>
    simp only [step] at hstep
    split at hstep
    · cases hstep
    · cases hstep
      exact h.flush s hs
  | issue id =>
    cases hstep
    exact h.issue s id hs
  | reply id reply now =>
    simp only [step] at hstep
    split at hstep
    · cases hstep
    · rename_i x hx
      cases hstep
      have hmem := List.mem_of_find?_eq_some hx
      unfold settle
      split
      · rename_i hold
        exact h.discard s id x hx hold hs
      · rename_i hcur
        have hcur : Current s x := not_not.mp hcur
        split
        · have hstored := h.store s id x reply 0 hx hcur hs
          have hask := h.ask _ (x.batch.requests.map (·.scoped x.batch.clusterId)) now hstored
          have hkeys : (x.batch.requests.map (·.scoped x.batch.clusterId)).map accessKey = x.batch.keys := by
            rw [hkeyed s hs x hmem, List.map_map]
            rfl
          rwa [hkeys] at hask
        · exact h.store s id x reply now hx hcur hs
  | invalidateAccess c now later =>
    cases hstep
    exact h.ask _ _ later (h.forget s c hs)
  | invalidated p c =>
    simp only [step] at hstep
    split at hstep
    · cases hstep
      exact h.invalidated s p c hs
    · cases hstep
  | revalidateAccess c now later =>
    cases hstep
    exact h.ask _ _ later (h.age s c hs)
  | resetAccessCache =>
    cases hstep
    exact h.reset s hs

/-! ### Every key in flight is pending -/

theorem valid_initialState : Valid initialState where
  queued_keyed b hb := by cases hb
  sent_keyed x hx := by cases hx
  sent_age x hx := by cases hx
  sent_id x hx := by cases hx
  pending k e h := by cases h
  stored k e d h := by cases h
  scheduled h := absurd rfl h
  microtasks h := by cases h

theorem valid_ask (checks : List ScopedAccessRequest) (now : Int) (h : Valid s) :
    Valid (ask s checks (checks.map accessKey) now) := by
  obtain ⟨es, mine, b, n, heq, hask, hb, hn⟩ := ask_spec s checks now
  rw [heq]
  refine ⟨?_, h.sent_keyed, h.sent_age, h.sent_id, fun k e he hi => ?_, fun k e d he hd => ?_, hb, hn h.microtasks⟩
  · exact List.forall_mem_append.mpr ⟨h.queued_keyed, hask.keyed⟩
  · rcases hask.inflight k e he hi with ⟨e₀, he₀, hi₀⟩ | ⟨b, hb, hk⟩
    · rcases h.pending k e₀ he₀ hi₀ with ⟨b, hb, hk⟩ | hsent
      · exact .inl ⟨b, List.mem_append_left mine hb, hk⟩
      · exact .inr hsent
    · exact .inl ⟨b, List.mem_append_right s.batches hb, hk⟩
  · obtain ⟨e₀, he₀, hd₀⟩ := hask.decision k e d he hd
    exact h.stored k e₀ d he₀ hd₀

theorem valid_flush (h : Valid s) : Valid (flush s) := by
  obtain ⟨new, n, heq, hmap, hle, hnew⟩ := flush_spec s
  have hsent : ∀ b ∈ s.batches, ∃ x ∈ new, x.batch = b := by
    intro b hb
    rw [← hmap] at hb
    exact List.mem_map.mp hb
  rw [heq]
  refine ⟨fun b hb => ?_, ?_, ?_, ?_, fun k e he hi => ?_, h.stored, fun hne => absurd rfl hne, fun hf => ?_⟩
  · cases hb
  · refine List.forall_mem_append.mpr ⟨h.sent_keyed, fun x hx => h.queued_keyed x.batch ?_⟩
    rw [← hmap]
    exact List.mem_map_of_mem hx
  · exact List.forall_mem_append.mpr ⟨h.sent_age, fun x hx => .inl (hnew x hx).1⟩
  · exact List.forall_mem_append.mpr ⟨fun x hx => Nat.lt_of_lt_of_le (h.sent_id x hx) hle,
      fun x hx => (hnew x hx).2.2⟩
  · rcases h.pending k e he hi with ⟨b, hb, hk⟩ | ⟨x, hx, hcur, hk⟩
    · obtain ⟨x, hx, rfl⟩ := hsent b hb
      exact .inr ⟨x, List.mem_append_right s.sent hx, (hnew x hx).1, hk⟩
    · exact .inr ⟨x, List.mem_append_left new hx, hcur, hk⟩
  · cases hf

/-- Issuing a batch keeps its id, its content and what it was asked under. -/
theorem mem_issue {id : Nat} {x : Sent} (hx : x ∈ (issue s id).sent) :
    ∃ x₀ ∈ s.sent, x.id = x₀.id ∧ x.batch = x₀.batch ∧ x.asked = x₀.asked := by
  obtain ⟨x₀, hx₀, rfl⟩ := List.mem_map.mp hx
  refine ⟨x₀, hx₀, ?_⟩
  split <;> exact ⟨rfl, rfl, rfl⟩

theorem mem_issue_of_mem (id : Nat) {x₀ : Sent} (hx₀ : x₀ ∈ s.sent) :
    ∃ x ∈ (issue s id).sent, x.batch = x₀.batch ∧ x.asked = x₀.asked := by
  refine ⟨_, List.mem_map_of_mem hx₀, ?_⟩
  split <;> exact ⟨rfl, rfl⟩

theorem valid_issue (id : Nat) (h : Valid s) : Valid (issue s id) where
  queued_keyed := h.queued_keyed
  sent_keyed x hx := by
    obtain ⟨x₀, hx₀, -, hbatch, -⟩ := mem_issue hx
    exact hbatch ▸ h.sent_keyed x₀ hx₀
  sent_age x hx := by
    obtain ⟨x₀, hx₀, -, hbatch, hasked⟩ := mem_issue hx
    rw [Current, Older, hbatch, hasked]
    exact h.sent_age x₀ hx₀
  sent_id x hx := by
    obtain ⟨x₀, hx₀, hid, -, -⟩ := mem_issue hx
    exact hid ▸ h.sent_id x₀ hx₀
  pending k e he hi := by
    rcases h.pending k e he hi with hqueued | ⟨x₀, hx₀, hcur, hk⟩
    · exact .inl hqueued
    · obtain ⟨x, hx, hbatch, hasked⟩ := mem_issue_of_mem id hx₀
      refine .inr ⟨x, hx, ?_, hbatch ▸ hk⟩
      rw [Current, hbatch, hasked]
      exact hcur
  stored := h.stored
  scheduled := h.scheduled
  microtasks := h.microtasks

/-- A batch other than the answered one is still there. -/
theorem mem_eraseP_of_find {id : Nat} {x y : Sent} (hx : s.sent.find? (Sent.answers id) = some x)
    (hy : y ∈ s.sent) (hne : y ≠ x) : y ∈ s.sent.eraseP (Sent.answers id) := by
  obtain ⟨hp, as, bs, hsplit, has⟩ := List.find?_eq_some_iff_append.mp hx
  rw [hsplit] at hy ⊢
  rw [List.eraseP_append_right _ fun a ha => by simpa using has a ha, List.eraseP_cons_of_pos hp]
  simpa [hne] using hy

theorem valid_discard {id : Nat} {x : Sent} (hx : s.sent.find? (Sent.answers id) = some x)
    (hold : ¬Current s x) (h : Valid s) : Valid { s with sent := s.sent.eraseP (Sent.answers id) } where
  queued_keyed := h.queued_keyed
  sent_keyed y hy := h.sent_keyed y (List.mem_of_mem_eraseP hy)
  sent_age y hy := h.sent_age y (List.mem_of_mem_eraseP hy)
  sent_id y hy := h.sent_id y (List.mem_of_mem_eraseP hy)
  pending k e he hi := by
    rcases h.pending k e he hi with hqueued | ⟨y, hy, hcur, hk⟩
    · exact .inl hqueued
    · have hne : y ≠ x := fun heq => hold (heq ▸ hcur)
      exact .inr ⟨y, mem_eraseP_of_find hx hy hne, hcur, hk⟩
  stored := h.stored
  scheduled := h.scheduled
  microtasks := h.microtasks

theorem valid_store {id : Nat} {x : Sent} (reply : Reply) (t : Int)
    (hx : s.sent.find? (Sent.answers id) = some x) (h : Valid s) :
    Valid (storeReply { s with sent := s.sent.eraseP (Sent.answers id) } x reply t) where
  queued_keyed := h.queued_keyed
  sent_keyed y hy := h.sent_keyed y (List.mem_of_mem_eraseP hy)
  sent_age y hy := h.sent_age y (List.mem_of_mem_eraseP hy)
  sent_id y hy := h.sent_id y (List.mem_of_mem_eraseP hy)
  pending k e he hi := by
    rcases entries_storeReply (h.sent_keyed x (List.mem_of_find?_eq_some hx)) reply t he with
      ⟨hnot, hold⟩ | ⟨-, hdone, -⟩
    · rcases h.pending k e hold hi with hqueued | ⟨y, hy, hcur, hk⟩
      · exact .inl hqueued
      · have hne : y ≠ x := fun heq => hnot (heq ▸ hk)
        exact .inr ⟨y, mem_eraseP_of_find hx hy hne, hcur, hk⟩
    · rw [hdone] at hi
      cases hi
  stored k e d he hd := by
    rcases entries_storeReply (h.sent_keyed x (List.mem_of_find?_eq_some hx)) reply t he with
      ⟨-, hold⟩ | ⟨-, -, hanswers⟩
    · obtain ⟨z, hz, hzk⟩ := h.stored k e d hold hd
      exact ⟨z, List.mem_append_left _ hz, hzk⟩
    · exact ⟨_, List.mem_append_right _ (List.mem_singleton_self _), hanswers d hd⟩
  scheduled := h.scheduled
  microtasks := h.microtasks

/-- A new epoch of `c` leaves the batches of other clusters as they are. -/
theorem current_forget {c : String} {x : Sent} (hne : x.batch.clusterId ≠ c) (h : Current s x) :
    Current (forget s c) x :=
  ⟨h.1, h.2.trans (Function.update_of_ne hne _ _).symm⟩

theorem older_forget (c : String) {x : Sent} (h : Older s x) : Older (forget s c) x := by
  rcases h with h | ⟨hreset, hepoch⟩
  · exact .inl h
  · refine .inr ⟨hreset, ?_⟩
    by_cases hc : x.batch.clusterId = c
    · subst hc
      simp only [forget, Function.update_self]
      omega
    · simpa only [forget, Function.update_of_ne hc] using hepoch

theorem older_forget_of_current {x : Sent} (h : Current s x) : Older (forget s x.batch.clusterId) x := by
  refine .inr ⟨h.1, ?_⟩
  simp only [forget, Function.update_self, h.2]
  omega

theorem entries_forget {c k : String} {e : Entry} (he : (forget s c).entries k = some e) :
    hasClusterPrefix c k = false ∧ s.entries k = some e := by
  simp only [forget] at he
  split at he
  · cases he
  · rename_i hno
    exact ⟨by simpa using hno, he⟩

theorem valid_forget (c : String) (h : Valid s) : Valid (forget s c) where
  queued_keyed b hb := h.queued_keyed b (List.mem_of_mem_filter hb)
  sent_keyed := h.sent_keyed
  sent_age x hx := by
    rcases h.sent_age x hx with hcur | hold
    · by_cases hc : x.batch.clusterId = c
      · subst hc
        exact .inr (older_forget_of_current hcur)
      · exact .inl (current_forget hc hcur)
    · exact .inr (older_forget c hold)
  sent_id := h.sent_id
  pending k e he hi := by
    obtain ⟨hno, he⟩ := entries_forget he
    have hother : ∀ b : Batch, b.Keyed → k ∈ b.keys → b.clusterId ≠ c := by
      intro b hb hk hc
      subst hc
      rw [hb.hasClusterPrefix hk] at hno
      cases hno
    rcases h.pending k e he hi with ⟨b, hb, hk⟩ | ⟨x, hx, hcur, hk⟩
    · have hne := hother b (h.queued_keyed b hb) hk
      exact .inl ⟨b, List.mem_filter.mpr ⟨hb, by simpa using hne⟩, hk⟩
    · exact .inr ⟨x, hx, current_forget (hother x.batch (h.sent_keyed x hx) hk) hcur, hk⟩
  stored k e d he hd := h.stored k e d (entries_forget he).2 hd
  scheduled hne := h.scheduled fun hnil => hne (by simp [forget, hnil])
  microtasks := h.microtasks

/-- Ageing keeps what is in flight and every decision. -/
theorem entries_age {c k : String} {e : Entry} (he : (age s c).entries k = some e) :
    ∃ e₀, s.entries k = some e₀ ∧ e.inflight = e₀.inflight ∧ e.decision = e₀.decision := by
  simp only [age] at he
  split at he
  · obtain ⟨e₀, he₀, rfl⟩ := Option.map_eq_some_iff.mp he
    refine ⟨e₀, he₀, ?_⟩
    split <;> exact ⟨rfl, rfl⟩
  · exact ⟨e, he, rfl, rfl⟩

theorem valid_age (c : String) (h : Valid s) : Valid (age s c) where
  queued_keyed := h.queued_keyed
  sent_keyed := h.sent_keyed
  sent_age := h.sent_age
  sent_id := h.sent_id
  pending k e he hi := by
    obtain ⟨e₀, he₀, hinflight, -⟩ := entries_age he
    exact h.pending k e₀ he₀ (hinflight ▸ hi)
  stored k e d he hd := by
    obtain ⟨e₀, he₀, -, hdecision⟩ := entries_age he
    exact h.stored k e₀ d he₀ (hdecision ▸ hd)
  scheduled := h.scheduled
  microtasks := h.microtasks

theorem older_reset {x : Sent} (h : Current s x ∨ Older s x) : Older (resetAccessCache s) x := by
  refine .inl ?_
  simp only [resetAccessCache]
  rcases h with ⟨hreset, -⟩ | hreset | ⟨hreset, -⟩ <;> omega

theorem valid_reset (h : Valid s) : Valid (resetAccessCache s) where
  queued_keyed b hb := by cases hb
  sent_keyed := h.sent_keyed
  sent_age x hx := .inr (older_reset (h.sent_age x hx))
  sent_id := h.sent_id
  pending k e he := by cases he
  stored k e d he := by cases he
  scheduled hne := absurd rfl hne
  microtasks hf := by cases hf

theorem valid_preserved : Preserved Valid where
  ask _ checks now h := valid_ask checks now h
  listeners _ _ h := { h with }
  flush _ h := valid_flush h
  issue _ id h := valid_issue id h
  discard _ _ _ hx hold h := valid_discard hx hold h
  store _ _ _ reply t hx _ h := valid_store reply t hx h
  forget _ c h := valid_forget c h
  age _ c h := valid_age c h
  invalidated _ _ _ h := { h with }
  reset _ h := valid_reset h

/-! ### Nothing older than an invalidation is stored -/

/-- After an invalidation of `c`, when `N` batches had been sent and the replies `L` stored:
the older batches of `c` are ignored, and what the cache says on `c` was stored since. -/
structure Fenced (c : String) (N : Nat) (L : List Settled) (s : State) : Prop where
  valid : Valid s
  next : N ≤ s.nextId
  older : ∀ x ∈ s.sent, x.batch.clusterId = c → x.id < N → Older s x
  since : ∃ new, s.settled = L ++ new ∧ (∀ z ∈ new, z.sent.batch.clusterId = c → N ≤ z.sent.id) ∧
    ∀ k e d, hasClusterPrefix c k → s.entries k = some e → e.decision = some d → ∃ z ∈ new, z.Answers k d

variable {c : String} {N : Nat} {L : List Settled}

theorem fenced_forget_start (c : String) (h : Valid s) : Fenced c s.nextId s.settled (forget s c) where
  valid := valid_forget c h
  next := Nat.le_refl _
  older x hx hc _ := by
    subst hc
    rcases h.sent_age x hx with hcur | hold
    · exact older_forget_of_current hcur
    · exact older_forget _ hold
  since := by
    refine ⟨[], (List.append_nil _).symm, List.forall_mem_nil _, fun k e d hk he _ => ?_⟩
    rw [(entries_forget he).1] at hk
    cases hk

/-- Entries whose decisions were there before need no new reply. -/
theorem Fenced.of_entries {s' : State} (h : Fenced c N L s) (hv : Valid s') (hnext : s.nextId ≤ s'.nextId)
    (hold : ∀ x ∈ s'.sent, x.batch.clusterId = c → x.id < N → Older s' x) (hsettled : s'.settled = s.settled)
    (hentries : ∀ k e d, s'.entries k = some e → e.decision = some d →
      ∃ e₀, s.entries k = some e₀ ∧ e₀.decision = some d) : Fenced c N L s' where
  valid := hv
  next := Nat.le_trans h.next hnext
  older := hold
  since := by
    obtain ⟨new, hnew, hids, hsince⟩ := h.since
    refine ⟨new, hsettled.trans hnew, hids, fun k e d hk he hd => ?_⟩
    obtain ⟨e₀, he₀, hd₀⟩ := hentries k e d he hd
    exact hsince k e₀ d hk he₀ hd₀

theorem fenced_store {id : Nat} {x : Sent} (reply : Reply) (t : Int)
    (hx : s.sent.find? (Sent.answers id) = some x) (hcur : Current s x) (h : Fenced c N L s) :
    Fenced c N L (storeReply { s with sent := s.sent.eraseP (Sent.answers id) } x reply t) where
  valid := valid_store reply t hx h.valid
  next := h.next
  older y hy := h.older y (List.mem_of_mem_eraseP hy)
  since := by
    have hmem := List.mem_of_find?_eq_some hx
    obtain ⟨new, hnew, hids, hsince⟩ := h.since
    refine ⟨new ++ [⟨x, reply⟩], ?_, List.forall_mem_append.mpr ⟨hids, ?_⟩, fun k e d hk he hd => ?_⟩
    · simp only [storeReply, hnew, List.append_assoc]
    · refine List.forall_mem_singleton.mpr fun hc => ?_
      by_contra hlt
      exact not_current_of_older (h.older x hmem hc (Nat.lt_of_not_le hlt)) hcur
    · rcases entries_storeReply (h.valid.sent_keyed x hmem) reply t he with ⟨-, hold⟩ | ⟨-, -, hanswers⟩
      · obtain ⟨z, hz, hzk⟩ := hsince k e d hk hold hd
        exact ⟨z, List.mem_append_left _ hz, hzk⟩
      · exact ⟨_, List.mem_append_right _ (List.mem_singleton_self _), hanswers d hd⟩

theorem fenced_flush (h : Fenced c N L s) : Fenced c N L (flush s) := by
  have hv := valid_flush h.valid
  obtain ⟨new, n, heq, -, hle, hnew⟩ := flush_spec s
  rw [heq] at hv ⊢
  refine h.of_entries hv hle ?_ rfl fun k e d he hd => ⟨e, he, hd⟩
  refine List.forall_mem_append.mpr ⟨h.older, fun x hx _ hlt => ?_⟩
  exact absurd (Nat.lt_of_lt_of_le hlt h.next) (Nat.not_lt.mpr (hnew x hx).2.1)

theorem fenced_ask (checks : List ScopedAccessRequest) (now : Int) (h : Fenced c N L s) :
    Fenced c N L (ask s checks (checks.map accessKey) now) := by
  have hv := valid_ask checks now h.valid
  obtain ⟨es, mine, b, n, heq, hask, -, -⟩ := ask_spec s checks now
  rw [heq] at hv ⊢
  exact h.of_entries hv (Nat.le_refl _) h.older rfl hask.decision

theorem fenced_preserved (c : String) (N : Nat) (L : List Settled) : Preserved (Fenced c N L) where
  ask _ checks now h := fenced_ask checks now h
  listeners _ _ h := { h with valid := { h.valid with } }
  flush _ h := fenced_flush h
  issue s id h := by
    refine h.of_entries (valid_issue id h.valid) (Nat.le_refl _) (fun x hx hc hlt => ?_) rfl
      fun k e d he hd => ⟨e, he, hd⟩
    obtain ⟨x₀, hx₀, hid, hbatch, hasked⟩ := mem_issue hx
    rw [Older, hbatch, hasked]
    exact h.older x₀ hx₀ (hbatch ▸ hc) (hid ▸ hlt)
  discard s id x hx hold h :=
    h.of_entries (valid_discard hx hold h.valid) (Nat.le_refl _)
      (fun y hy => h.older y (List.mem_of_mem_eraseP hy)) rfl fun k e d he hd => ⟨e, he, hd⟩
  store _ _ _ reply t hx hcur h := fenced_store reply t hx hcur h
  forget s c' h :=
    h.of_entries (valid_forget c' h.valid) (Nat.le_refl _)
      (fun x hx hc hlt => older_forget c' (h.older x hx hc hlt)) rfl
      fun k e d he hd => ⟨e, (entries_forget he).2, hd⟩
  age s c' h := by
    refine h.of_entries (valid_age c' h.valid) (Nat.le_refl _) h.older rfl fun k e d he hd => ?_
    obtain ⟨e₀, he₀, -, hdecision⟩ := entries_age he
    exact ⟨e₀, he₀, hdecision ▸ hd⟩
  invalidated _ _ _ h := { h with valid := { h.valid with } }
  reset s h :=
    h.of_entries (valid_reset h.valid) (Nat.le_refl _)
      (fun x hx hc hlt => older_reset (.inr (h.older x hx hc hlt))) rfl fun k e d he => by cases he

/-- A reply to a current batch is stored at each of its keys, and unless a new round was begun
the key is no longer in flight. -/
theorem reply_stores (h : Valid s) {id : Nat} {x : Sent} (hx : s.sent.find? (Sent.answers id) = some x)
    (hcur : Current s x) (reply : Reply) (now : Int) :
    ∃ s', step s (.reply id reply now) = some s' ∧ ∀ k ∈ x.batch.keys, ∃ e d,
      s'.entries k = some e ∧ e.decision = some d ∧ Settled.Answers ⟨x, reply⟩ k d ∧
      (x.asked.round = s.rounds x.batch.clusterId → e.inflight = false) := by
  have hkeyed := h.sent_keyed x (List.mem_of_find?_eq_some hx)
  have hstored : ∀ t, ∀ k ∈ x.batch.keys, ∃ e d,
      (storeReply { s with sent := s.sent.eraseP (Sent.answers id) } x reply t).entries k = some e ∧
      e.decision = some d ∧ Settled.Answers ⟨x, reply⟩ k d ∧ e.inflight = false := by
    intro t k hk
    obtain ⟨j, hj, hstore⟩ := storeAnswers_of_mem (decisionsOf x.batch.keys reply) t x.batch.keys 0 s.entries hk
    rw [Nat.zero_add] at hstore
    exact ⟨_, _, hstore, rfl, answers_of_keyed hkeyed reply hj, rfl⟩
  refine ⟨settle { s with sent := s.sent.eraseP (Sent.answers id) } x reply now, by simp only [step, hx], ?_⟩
  intro k hk
  have hcur' : Current { s with sent := s.sent.eraseP (Sent.answers id) } x := hcur
  rw [settle, if_neg (not_not.mpr hcur')]
  split
  · rename_i hround
    obtain ⟨e₀, d, he₀, hd, hanswers, -⟩ := hstored 0 k hk
    have hkeys : x.batch.keys = (x.batch.requests.map (·.scoped x.batch.clusterId)).map accessKey := by
      rw [List.map_map]
      exact hkeyed
    obtain ⟨es, mine, b, n, heq, hask, -, -⟩ := ask_spec
      (storeReply { s with sent := s.sent.eraseP (Sent.answers id) } x reply 0)
      (x.batch.requests.map (·.scoped x.batch.clusterId)) now
    rw [← hkeys] at heq
    obtain ⟨e, he, hdecision⟩ := hask.kept k e₀ he₀
    exact ⟨e, d, by rw [heq]; exact he, hdecision.trans hd, hanswers, fun hsame => absurd hsame hround⟩
  · obtain ⟨e, d, he, hd, hanswers, hdone⟩ := hstored now k hk
    exact ⟨e, d, he, hd, hanswers, fun _ => hdone⟩

theorem valid_of_run {s t : State} {acts : List Action} (hs : Valid s) (hrun : run step s acts = some t) :
    Valid t :=
  run_invariant (step_preserved valid_preserved fun _ h => h.sent_keyed) hs hrun

/-- Over every run: after `invalidateAccess c` no reply to a batch of `c` sent before is stored and
what the cache holds on `c` was stored since; every key in flight is in a batch that is queued, with a
flush to come, or awaiting a reply that will be stored at its keys; and each stored
decision is the answer of a reply to the request with that key. -/
theorem cache_follows_replies (acts : List Action) (s : State) (hrun : run step initialState acts = some s) :
    (∀ pre c now later post, acts = pre ++ .invalidateAccess c now later :: post →
      ∃ s₁ new, run step initialState pre = some s₁ ∧ (∀ x ∈ s₁.sent, x.id < s₁.nextId) ∧
        s.settled = s₁.settled ++ new ∧
        (∀ z ∈ new, z.sent.batch.clusterId = c → s₁.nextId ≤ z.sent.id) ∧
        ∀ k e d, hasClusterPrefix c k → s.entries k = some e → e.decision = some d →
          ∃ z ∈ new, z.Answers k d) ∧
    (∀ k e, s.entries k = some e → e.inflight →
      (∃ b ∈ s.batches, k ∈ b.keys ∧ 0 < s.microtasks) ∨ ∃ x ∈ s.sent, Current s x ∧ k ∈ x.batch.keys) ∧
    (∀ id x reply now, s.sent.find? (Sent.answers id) = some x → Current s x →
      ∃ s', step s (.reply id reply now) = some s' ∧ ∀ k ∈ x.batch.keys, ∃ e d,
        s'.entries k = some e ∧ e.decision = some d ∧ Settled.Answers ⟨x, reply⟩ k d ∧
        (x.asked.round = s.rounds x.batch.clusterId → e.inflight = false)) ∧
    ∀ k e d, s.entries k = some e → e.decision = some d → ∃ z ∈ s.settled, z.Answers k d := by
  have hv : Valid s := valid_of_run valid_initialState hrun
  refine ⟨fun pre c now later post hacts => ?_, fun k e he hi => ?_, ?_, hv.stored⟩
  · subst hacts
    obtain ⟨s₁, hpre, hrest⟩ := run_append_eq_some.mp hrun
    obtain ⟨s₂, hinv, hpost⟩ := run_cons_eq_some.mp hrest
    have hv₁ : Valid s₁ := valid_of_run valid_initialState hpre
    have hf₂ : Fenced c s₁.nextId s₁.settled s₂ := by
      cases hinv
      exact fenced_ask _ later (fenced_forget_start c hv₁)
    have hf := run_invariant (step_preserved (fenced_preserved c _ _) fun _ h => h.valid.sent_keyed) hf₂ hpost
    obtain ⟨new, hnew, hids, hsince⟩ := hf.since
    exact ⟨s₁, new, hpre, hv₁.sent_id, hnew, hids, hsince⟩
  · rcases hv.pending k e he hi with ⟨b, hb, hk⟩ | hsent
    · exact .inl ⟨b, hb, hk, hv.microtasks (hv.scheduled (List.ne_nil_of_mem hb))⟩
    · exact .inr hsent
  · intro id x reply now hx hcur
    exact reply_stores hv hx hcur reply now

/-- May the pods of a cluster be listed? -/
def listPods : ScopedAccessRequest :=
  { clusterId := "prod", kindId := "pods", action := .list, ns := none, name := none }

/-- The cluster is invalidated while a check is out; its late reply and then the one to the check
made since arrive. -/
def lateReply : List Action :=
  [.listen [listPods], .requestAccess [listPods] 200000, .flush, .issue 0,
   .invalidateAccess "prod" 200001 200001, .flush, .reply 0 (.ok (some [.denied "no"])) 200002,
   .invalidated 0 "prod", .issue 1, .reply 1 (.ok (some [.allowed])) 200003]

def afterLateReply : State := ((run step initialState lateReply).get (by decide))

theorem cache_follows_replies_lateReply :
    afterLateReply.entries (accessKey listPods) = some ⟨some .allowed, 200003, false⟩ ∧
      ∃ z ∈ afterLateReply.settled, z.Answers (accessKey listPods) .allowed := by
  have h := cache_follows_replies lateReply afterLateReply (Option.some_get _).symm
  have he : afterLateReply.entries (accessKey listPods) = some ⟨some .allowed, 200003, false⟩ := by decide
  exact ⟨he, h.2.2.2 _ _ _ he rfl⟩

end FerrisScope.AccessCache
