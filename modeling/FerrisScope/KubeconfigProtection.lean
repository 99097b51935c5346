import FerrisScope.KubeconfigEdits

/-!
# What the edits keep of a kubeconfig file

A pin writes behind the links and carries the mode over. The two other edits write the path as it
is given, with the default mode, so they keep a file only when no link leads to it and its bits
are the default ones.
-/

namespace FerrisScope.KubeconfigEdits
open Json IdentityPin LinkFiles

variable {ν δ : Type} {env : Env ν δ} {st : State δ} {step : Step δ} {p q : Loc δ} {c : String} {m : Mode}

section Names

theorem tmpSibling_ne (pid seq : ℕ) (p : Loc δ) : tmpSibling pid seq p ≠ p := by
  intro h
  have hlength := congrArg (fun l : Loc δ => l.name.length) h
  simp only [tmpSibling, List.length_append, List.length_cons] at hlength
  omega

theorem tmpSibling_ne_backup (pid seq : ℕ) (p q : Loc δ) : tmpSibling pid seq p ≠ backupPath q := by
  intro h
  have hname : (tmpSibling pid seq p).name = (backupPath q).name := by rw [h]
  have htmp : ['m', 'p'] <:+ (tmpSibling pid seq p).name :=
    (show ['m', 'p'] <:+ ".tmp".toList by decide).trans (List.suffix_append _ _)
  have hbackup : ['u', 'p'] <:+ (backupPath q).name :=
    (show ['u', 'p'] <:+ backupSuffix by decide).trans (List.suffix_append _ _)
  rw [hname] at htmp
  exact absurd (List.suffix_of_suffix_length_le htmp hbackup (by simp)) (by decide)

theorem backupPath_ne (p : Loc δ) : backupPath p ≠ p := by
  intro h
  have hname : p.name ++ backupSuffix = p.name := congrArg Loc.name h
  exact absurd (List.append_right_eq_self.mp hname) (by decide)

theorem isOther_of_file {fs : Fs δ} (h : fs q = some (.file c m)) : isOther fs q = false := by
  simp [isOther, h]

theorem perm_perm (m : Mode) : m.perm.perm = m.perm := by
  rw [Mode.perm, Mode.perm, BitVec.and_assoc, BitVec.and_self]

end Names

/-- The temporary names that the process has still to use are free. -/
def Fresh (env : Env ν δ) (st : State δ) : Prop :=
  ∀ k, st.seq ≤ k → ∀ r, st.fs (tmpSibling env.pid k r) = none

/-- The edit changes the text of its file. -/
def Changes (env : Env ν δ) (step : Step δ) (q : Loc δ) (c : String) : Prop :=
  match step.edit with
  | .pin _ identity => (∃ u, validateIdentity (trimmed identity) = .ok u) ∧
      ∃ text, step.edit.apply env q c = .ok text ∧ text ≠ c
  | _ => ∃ text, step.edit.apply env step.path c = .ok text

theorem Fresh.ne_of_ne_none (hfresh : Fresh env st) (hp : st.fs p ≠ none) (k : ℕ) (r : Loc δ)
    (hk : st.seq ≤ k) : tmpSibling env.pid k r ≠ p := by
  rintro rfl
  exact hp (hfresh k hk r)

variable [DecidableEq δ]

/-- The path, its links and the file behind them after an edit: the links lead where they did, the
content is the new one or the old one, and the bits are the same. -/
structure Kept (env : Env ν δ) (st : State δ) (step : Step δ) (q : Loc δ) (c : String) (m : Mode) : Prop where
  link : ∀ t, st.fs step.path = some (.link t) → (applyStep env st step).1.fs step.path = some (.link t)
  ends : follow (applyStep env st step).1.fs maxLinks step.path = some q
  file : ∃ text m', (applyStep env st step).1.fs q = some (.file text m') ∧ m'.perm = m.perm ∧
    ((applyStep env st step).2 = .ok true → ∃ shown, step.edit.apply env shown c = .ok text) ∧
    ((applyStep env st step).2 ≠ .ok true → text = c)

def KeptStep (env : Env ν δ) (st : State δ) (step : Step δ) : Prop :=
  (readFile st.fs maxLinks step.path = none → (applyStep env st step).1.fs = st.fs) ∧
    ∀ q c m, follow st.fs maxLinks step.path = some q → st.fs q = some (.file c m) →
      Kept env st step q c m

/-- A pin finds no link to the file under the backup's name; for the other edits the path is itself
the file, with the default bits; or else nothing is written. -/
def Fits (env : Env ν δ) (st : State δ) (step : Step δ) : Prop :=
  ∀ q c m, follow st.fs maxLinks step.path = some q → st.fs q = some (.file c m) → Changes env step q c →
    if step.edit.isPin then step.backupFails = true ∨ backupPath q ∉ way st.fs maxLinks step.path
    else step.writeFails = true ∨ (step.path = q ∧ m.perm = (newMode env.umask none).perm)

section Steps

theorem Kept.of_frame (hq : follow st.fs maxLinks step.path = some q) (hfile : st.fs q = some (.file c m))
    (hway : ∀ r ∈ way st.fs maxLinks step.path, r ≠ q → (applyStep env st step).1.fs r = st.fs r)
    (text : String) (m' : Mode) (hafter : (applyStep env st step).1.fs q = some (.file text m'))
    (hperm : m'.perm = m.perm)
    (hnew : (applyStep env st step).2 = .ok true → ∃ shown, step.edit.apply env shown c = .ok text)
    (hold : (applyStep env st step).2 ≠ .ok true → text = c) : Kept env st step q c m := by
  refine ⟨fun t ht => ?_, follow_congr hway hafter hq, text, m', hafter, hperm, hnew, hold⟩
  have hne : step.path ≠ q := by
    rintro heq
    rw [heq, hfile] at ht
    cases ht
  rw [hway _ (self_mem_way _ _ _) hne, ht]

theorem Kept.of_same (hq : follow st.fs maxLinks step.path = some q) (hfile : st.fs q = some (.file c m))
    (hfs : (applyStep env st step).1.fs = st.fs) (hres : (applyStep env st step).2 ≠ .ok true) :
    Kept env st step q c m :=
  .of_frame hq hfile (fun _ _ _ => by rw [hfs]) c m (by rw [hfs, hfile]) rfl (fun h => absurd h hres) fun _ => rfl

theorem atomicWrite_eq (htmp : st.fs (tmpSibling env.pid st.seq p) = none) (content : String)
    (mode : Option Mode) (fails : Bool) :
    atomicWriteSyncMode env st p content mode fails =
      if fails || isOther st.fs p then (⟨st.fs, st.seq + 1⟩, false)
      else (⟨Function.update st.fs p (some (.file content (newMode env.umask mode))), st.seq + 1⟩, true) := by
  rw [atomicWriteSyncMode, replaceFile_eq htmp (tmpSibling_ne _ _ _)]
  split_ifs <;> rfl

/-- The backup of a pin changes its own place alone, or nothing. -/
theorem backup_cases (hfresh : Fresh env st) (q : Loc δ) (c : String) (mode : Option Mode) (fails : Bool) :
    ∃ b, atomicWriteSyncMode env st (backupPath q) c mode fails = b ∧ b.1.seq = st.seq + 1 ∧
      ((b.2 = false ∧ b.1.fs = st.fs ∧ (fails = true ∨ isOther st.fs (backupPath q) = true)) ∨
        (b.2 = true ∧ fails = false ∧
          b.1.fs = Function.update st.fs (backupPath q) (some (.file c (newMode env.umask mode))))) := by
  refine ⟨_, atomicWrite_eq (hfresh _ le_rfl _) c mode fails, ?_⟩
  cases fails with
  | true => simp
  | false => cases isOther st.fs (backupPath q) <;> simp

/-- A pin that changes the text writes the backup, and then the file unless one of them fails. -/
theorem pin_cases (hfresh : Fresh env st) (hq : follow st.fs maxLinks step.path = some q)
    (hfile : st.fs q = some (.file c m)) (hpin : step.edit.isPin = true) :
    ((applyStep env st step).1.fs = st.fs ∧ (applyStep env st step).2 ≠ .ok true ∧
        (Changes env step q c → step.backupFails = true ∨ isOther st.fs (backupPath q) = true)) ∨
      (Changes env step q c ∧ step.backupFails = false ∧
        let fs' := Function.update st.fs (backupPath q) (some (.file c m.perm))
        ((applyStep env st step).1.fs = fs' ∧ (applyStep env st step).2 ≠ .ok true) ∨
          ∃ text, step.edit.apply env q c = .ok text ∧ (applyStep env st step).2 = .ok true ∧
            (applyStep env st step).1.fs = Function.update fs' q (some (.file text m.perm))) := by
  obtain ⟨path, edit, backupFails, writeFails⟩ := step
  cases edit with
  | deleteContext _ => cases hpin
  | setCurrentContext _ => cases hpin
  | pin context identity =>
    have hread : readFile st.fs maxLinks q = some (c, m) := readFile_of_file hfile maxLinks
    have hmode : fileMode st.fs q = some m.perm := by simp [fileMode, hread]
    cases hvalid : validateIdentity (trimmed identity) with
    | error e =>
      refine .inl ⟨by simp [applyStep, hvalid], by simp [applyStep, hvalid], ?_⟩
      rintro ⟨⟨u, hu⟩, -⟩
      rw [hvalid] at hu
      cases hu
    | ok u =>
      have hstep : applyStep env st ⟨path, .pin context identity, backupFails, writeFails⟩ =
          pinInFile env st ⟨path, .pin context identity, backupFails, writeFails⟩ := by
        simp [applyStep, hvalid]
      dsimp only at hq
      simp only [pinInFile, hq, Option.getD_some, hread, hmode] at hstep
      cases happly : Edit.apply env q (.pin context identity) c with
      | error e =>
        simp only [happly] at hstep
        refine .inl ⟨by rw [hstep], by simp [hstep], ?_⟩
        rintro ⟨-, text, htext, -⟩
        rw [happly] at htext
        cases htext
      | ok text =>
        simp only [happly] at hstep
        by_cases hsame : text = c
        · rw [if_pos hsame] at hstep
          refine .inl ⟨by rw [hstep], by simp [hstep], ?_⟩
          rintro ⟨-, text', htext, hne⟩
          rw [happly] at htext
          cases htext
          exact absurd hsame hne
        rw [if_neg hsame] at hstep
        obtain ⟨b, hb, hseq, ⟨hfailed, hfs, hwhy⟩ | ⟨hdone, hbackup, hfs⟩⟩ :=
          backup_cases hfresh q c (some m.perm) backupFails
        · simp only [hb, hfailed, Bool.false_eq_true, if_false] at hstep
          exact .inl ⟨by rw [hstep, hfs], by simp [hstep], fun _ => hwhy⟩
        · have htmp : b.1.fs (tmpSibling env.pid b.1.seq q) = none := by
            rw [hfs, Function.update_of_ne (tmpSibling_ne_backup _ _ _ _)]
            exact hfresh _ (by omega) _
          have hend : b.1.fs q = some (.file c m) := by
            rw [hfs, Function.update_of_ne (backupPath_ne q).symm, hfile]
          simp only [hb, hdone, if_true, atomicWrite_eq htmp, isOther_of_file hend, Bool.or_false] at hstep
          refine .inr ⟨⟨⟨u, hvalid⟩, text, happly, hsame⟩, hbackup, ?_⟩
          cases writeFails with
          | true => exact .inl ⟨by rw [hstep, ← show newMode env.umask (some m.perm) = m.perm from rfl, ← hfs]; rfl,
              by simp [hstep]⟩
          | false => exact .inr ⟨text, rfl, by simp [hstep], by
              rw [hstep, ← show newMode env.umask (some m.perm) = m.perm from rfl, ← hfs]
              rfl⟩

/-- A pin keeps the file exactly when no link to it is overwritten by the backup. -/
theorem kept_pin_iff (hfresh : Fresh env st) (hq : follow st.fs maxLinks step.path = some q)
    (hfile : st.fs q = some (.file c m)) (hpin : step.edit.isPin = true) :
    Kept env st step q c m ↔
      (Changes env step q c → step.backupFails = true ∨ backupPath q ∉ way st.fs maxLinks step.path) := by
  have hne : backupPath q ≠ q := backupPath_ne q
  rcases pin_cases hfresh hq hfile hpin with ⟨hfs, hres, hwhy⟩ | ⟨hchanges, hbackup, hwritten⟩
  · refine ⟨fun _ hchanges => (hwhy hchanges).imp_right fun hother hmem => ?_,
      fun _ => .of_same hq hfile hfs hres⟩
    obtain ⟨t, ht⟩ := exists_link_of_mem_way hq hmem hne
    simp [isOther, ht] at hother
  · have hafter : ∀ r, r ≠ q → (applyStep env st step).1.fs r =
        Function.update st.fs (backupPath q) (some (.file c m.perm)) r := by
      intro r hr
      rcases hwritten with ⟨hfs, -⟩ | ⟨text, -, -, hfs⟩
      · rw [hfs]
      · rw [hfs, Function.update_of_ne hr]
    constructor
    · refine fun hkept _ => .inr fun hmem => hne ?_
      have hcut : follow (applyStep env st step).1.fs maxLinks step.path = some (backupPath q) := by
        refine follow_cut (c := c) (m := m.perm) hmem hne (fun r _ hr hrq => ?_) ?_ hq
        · rw [hafter r hrq, Function.update_of_ne hr]
        · rw [hafter _ hne, Function.update_self]
      exact Option.some.inj (hcut.symm.trans hkept.ends)
    · intro hfits
      have hmem : backupPath q ∉ way st.fs maxLinks step.path :=
        (hfits hchanges).resolve_left (by simp [hbackup])
      have hway : ∀ r ∈ way st.fs maxLinks step.path, r ≠ q →
          (applyStep env st step).1.fs r = st.fs r := by
        intro r hr hrq
        rw [hafter r hrq, Function.update_of_ne]
        rintro rfl
        exact hmem hr
      rcases hwritten with ⟨hfs, hres⟩ | ⟨text, happly, hres, hfs⟩
      · refine .of_frame hq hfile hway c m ?_ rfl (fun h => absurd h hres) fun _ => rfl
        rw [hfs, Function.update_of_ne hne.symm, hfile]
      · refine .of_frame hq hfile hway text m.perm ?_ (perm_perm m)
          (fun _ => ⟨q, happly⟩) fun h => absurd hres h
        rw [hfs, Function.update_self]

theorem applyStep_of_not_pin (env : Env ν δ) (st : State δ) (hpin : step.edit.isPin = false) :
    applyStep env st step = editInFile env st step ∧
      ∀ q c, Changes env step q c ↔ ∃ text, step.edit.apply env step.path c = .ok text := by
  obtain ⟨path, edit, backupFails, writeFails⟩ := step
  cases edit with
  | deleteContext _ => exact ⟨rfl, fun _ _ => Iff.rfl⟩
  | setCurrentContext _ => exact ⟨rfl, fun _ _ => Iff.rfl⟩
  | pin _ _ => cases hpin

/-- The other edits: the file is kept exactly when nothing is written, or no link leads to it and
its bits are the default ones. -/
theorem kept_iff_of_not_pin (hfresh : Fresh env st) (hq : follow st.fs maxLinks step.path = some q)
    (hfile : st.fs q = some (.file c m)) (hpin : step.edit.isPin = false) :
    Kept env st step q c m ↔ (Changes env step q c →
      step.writeFails = true ∨ (step.path = q ∧ m.perm = (newMode env.umask none).perm)) := by
  obtain ⟨hstep, hchanges⟩ := applyStep_of_not_pin env st hpin
  have hread : readFile st.fs maxLinks step.path = some (c, m) := readFile_of_follow hq hfile
  have htmp : st.fs (tmpSibling env.pid st.seq step.path) = none := hfresh _ le_rfl _
  rw [hchanges]
  cases happly : step.edit.apply env step.path c with
  | error e =>
    simp only [editInFile, hread, happly] at hstep
    refine ⟨fun _ h => ?_, fun _ => .of_same hq hfile (by rw [hstep]) (by simp [hstep])⟩
    obtain ⟨text, htext⟩ := h
    cases htext
  | ok text =>
    have hother : isOther st.fs step.path = false := by
      by_cases hne : step.path = q
      · exact isOther_of_file (hne ▸ hfile)
      · obtain ⟨t, ht⟩ := exists_link_of_ne hq hne
        simp [isOther, ht]
    simp only [editInFile, hread, happly, atomicWrite_eq htmp, hother, Bool.or_false] at hstep
    cases hfails : step.writeFails with
    | true =>
      simp only [hfails, if_true] at hstep
      exact ⟨fun _ _ => .inl rfl, fun _ => .of_same hq hfile (by rw [hstep]) (by simp [hstep])⟩
    | false =>
      simp only [hfails, Bool.false_eq_true, if_false, if_true] at hstep
      have hafter : (applyStep env st step).1.fs step.path = some (.file text (newMode env.umask none)) := by
        rw [hstep]
        exact Function.update_self _ _ _
      constructor
      · intro hkept _
        have hpath : step.path = q := by
          by_contra hne
          obtain ⟨t, ht⟩ := exists_link_of_ne hq hne
          have hlink := hkept.link t ht
          rw [hafter] at hlink
          cases hlink
        obtain ⟨text', m', hfile', hperm, -⟩ := hkept.file
        rw [← hpath, hafter] at hfile'
        cases hfile'
        exact .inr ⟨hpath, hperm.symm⟩
      · intro hfits
        obtain ⟨hpath, hperm⟩ := (hfits ⟨text, rfl⟩).resolve_left Bool.false_ne_true
        refine .of_frame hq hfile (fun r _ hne => ?_) text _ (hpath ▸ hafter) hperm.symm
          (fun _ => ⟨step.path, happly⟩) fun h => ?_
        · rw [hstep, hpath]
          exact Function.update_of_ne hne _ _
        · simp [hstep] at h

theorem applyStep_of_unreadable (h : readFile st.fs maxLinks step.path = none) :
    (applyStep env st step).1 = st := by
  have hreal : readFile st.fs maxLinks ((follow st.fs maxLinks step.path).getD step.path) = none := by
    cases hq : follow st.fs maxLinks step.path with
    | none => exact h
    | some q =>
      rcases follow_end hq with ⟨c, m, hfile⟩ | hother
      · rw [readFile_of_follow hq hfile] at h
        cases h
      · rw [Option.getD_some, readFile]
        split
        · rfl
        · next r hr =>
          have hrq : r = q := by
            by_contra hne
            obtain ⟨t, ht⟩ := exists_link_of_ne hr (Ne.symm hne)
            rw [hother] at ht
            cases ht
          rw [hrq, hother]
  unfold applyStep
  split
  · split
    · rfl
    · simp [pinInFile, hreal]
  · simp [editInFile, h]

/-- A step keeps the file exactly when it fits. -/
theorem keptStep_iff (hfresh : Fresh env st) : KeptStep env st step ↔ Fits env st step := by
  have hkept : ∀ q c m, follow st.fs maxLinks step.path = some q → st.fs q = some (.file c m) →
      (Kept env st step q c m ↔ (Changes env step q c →
        if step.edit.isPin then step.backupFails = true ∨ backupPath q ∉ way st.fs maxLinks step.path
        else step.writeFails = true ∨ (step.path = q ∧ m.perm = (newMode env.umask none).perm))) := by
    intro q c m hq hfile
    cases hpin : step.edit.isPin with
    | true => simpa using kept_pin_iff hfresh hq hfile hpin
    | false => simpa using kept_iff_of_not_pin hfresh hq hfile hpin
  constructor
  · rintro ⟨-, h⟩ q c m hq hfile
    exact (hkept q c m hq hfile).mp (h q c m hq hfile)
  · refine fun h => ⟨fun hnone => by rw [applyStep_of_unreadable hnone], fun q c m hq hfile => ?_⟩
    exact (hkept q c m hq hfile).mpr (h q c m hq hfile)

/-- A write uses one temporary name up, and makes no file but its target. -/
theorem fresh_write (hfresh : Fresh env st) (hnot : ∀ k r, st.seq ≤ k → tmpSibling env.pid k r ≠ p)
    (content : String) (mode : Option Mode) (fails : Bool) :
    Fresh env (atomicWriteSyncMode env st p content mode fails).1 := by
  rw [atomicWrite_eq (hfresh _ le_rfl _)]
  split_ifs
  · exact fun k hk r => hfresh k (Nat.le_of_succ_le hk) r
  · intro k hk r
    have hk' : st.seq ≤ k := Nat.le_of_succ_le hk
    exact (Function.update_of_ne (hnot k r hk') _ _).trans (hfresh k hk' r)

theorem fresh_applyStep (hfresh : Fresh env st) (step : Step δ) : Fresh env (applyStep env st step).1 := by
  have hedit : Fresh env (editInFile env st step).1 := by
    unfold editInFile
    split
    · exact hfresh
    · next raw _ hread =>
      split
      · exact hfresh
      · exact fresh_write hfresh (hfresh.ne_of_ne_none (ne_none_of_readFile hread)) _ _ _
  have hpin : Fresh env (pinInFile env st step).1 := by
    unfold pinInFile
    dsimp only
    split
    · exact hfresh
    · next original _ hread =>
      split
      · exact hfresh
      · next text _ =>
        generalize (follow st.fs maxLinks step.path).getD step.path = real at *
        obtain ⟨b, hb, -, hcases⟩ := backup_cases hfresh real original (fileMode st.fs real) step.backupFails
        have hfs : b.1.fs real = st.fs real := by
          rcases hcases with ⟨-, hfs, -⟩ | ⟨-, -, hfs⟩
          · rw [hfs]
          · rw [hfs, Function.update_of_ne (backupPath_ne real).symm]
        have hbackup : Fresh env b.1 :=
          hb ▸ fresh_write hfresh (fun k r _ => tmpSibling_ne_backup _ k r real) _ _ _
        have hwrite : Fresh env
            (atomicWriteSyncMode env b.1 real text (fileMode st.fs real) step.writeFails).1 :=
          fresh_write hbackup (hbackup.ne_of_ne_none (hfs ▸ ne_none_of_readFile hread)) _ _ _
        rw [hb]
        split_ifs
        · exact hfresh
        · exact hwrite
        · exact hwrite
        · exact hbackup
  unfold applyStep
  split
  · split
    · exact hfresh
    · exact hpin
  · exact hedit

theorem fresh_runSteps (hfresh : Fresh env st) (steps : List (Step δ)) : Fresh env (runSteps env st steps) := by
  induction steps generalizing st with
  | nil => exact hfresh
  | cons step steps ih => exact ih (fresh_applyStep hfresh step)

end Steps

/-- The edits of a run keep their files exactly when each of them fits the state it meets. -/
theorem edits_kept_iff (hfresh : Fresh env st) (steps : List (Step δ)) :
    (∀ before step after, steps = before ++ step :: after → KeptStep env (runSteps env st before) step) ↔
      ∀ before step after, steps = before ++ step :: after → Fits env (runSteps env st before) step :=
  forall_congr' fun before => forall_congr' fun _ => forall_congr' fun _ =>
    imp_congr_right fun _ => keptStep_iff (fresh_runSteps hfresh before)

/-- One document, and one text for what is printed. -/
def plainEnv : Env Unit Unit :=
  { parse := fun _ => some (.obj [("contexts", .arr [.obj [("name", .str "dev")]])])
    print := fun _ => some "new"
    display := fun _ => ""
    umask := 0o022
    pid := 7 }

def configLoc : Loc Unit := ⟨(), "config".toList⟩

def dotfileLoc : Loc Unit := ⟨(), "dotfile".toList⟩

def sharedLoc : Loc Unit := ⟨(), "shared".toList⟩

/-- A link to a file that only its owner reads, and a file with the default bits. -/
def linkedState : State Unit :=
  { fs := fun p => if p = configLoc then some (.link dotfileLoc)
      else if p = dotfileLoc then some (.file "old" 0o600)
      else if p = sharedLoc then some (.file "old" 0o644) else none
    seq := 0 }

def setDev (path : Loc Unit) : Step Unit := ⟨path, .setCurrentContext "dev", false, false⟩

theorem link_replaced : ¬ ∀ before step after, [setDev configLoc] = before ++ step :: after →
    KeptStep plainEnv (runSteps plainEnv linkedState before) step := by
  intro h
  have hkept := (h [] (setDev configLoc) [] rfl).2 dotfileLoc "old" 0o600 rfl rfl
  have hfile : (applyStep plainEnv linkedState (setDev configLoc)).1.fs configLoc =
      some (.file "new" 0o644) := rfl
  have hlink : (applyStep plainEnv linkedState (setDev configLoc)).1.fs configLoc =
      some (.link dotfileLoc) := hkept.link dotfileLoc rfl
  rw [hfile] at hlink
  cases hlink

theorem fresh_linkedState : Fresh plainEnv linkedState := by
  intro k _ r
  have hdot : ∀ p : Loc Unit, p.name.head? ≠ some '.' → tmpSibling plainEnv.pid k r ≠ p := by
    rintro p hp rfl
    exact hp rfl
  simp [linkedState, hdot configLoc (by decide), hdot dotfileLoc (by decide), hdot sharedLoc (by decide)]

theorem edits_kept_shared : Fresh plainEnv linkedState ∧
    ∀ before step after, [setDev sharedLoc] = before ++ step :: after →
      KeptStep plainEnv (runSteps plainEnv linkedState before) step := by
  refine ⟨fresh_linkedState, (edits_kept_iff fresh_linkedState _).mpr fun before step after h => ?_⟩
  obtain ⟨rfl, rfl⟩ : before = [] ∧ step = setDev sharedLoc := by
    cases before <;> simp_all
  intro q c m hq hfile _
  obtain rfl : sharedLoc = q := Option.some.inj hq
  obtain ⟨rfl, rfl⟩ : "old" = c ∧ (0o644 : Mode) = m := by
    have heq : Node.file "old" 0o644 = (Node.file c m : Node Unit) := Option.some.inj hfile
    simpa using heq
  exact .inr ⟨rfl, by decide⟩

end FerrisScope.KubeconfigEdits
