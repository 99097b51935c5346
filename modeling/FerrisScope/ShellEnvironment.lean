import FerrisScope.HostsFile
import FerrisScope.SplitOnce

/-!
# The environment of the login shell

A login shell prints its environment between two markers, a variable and its value after the other, each with a line
feed. A value may have line feeds of its own, and nothing marks the lines of a value that come after its first. They
are read as the others are.
-/

namespace FerrisScope.ShellEnvironment
open HostsFile SplitOnce

def pathStart : Text := "__FS_PATH_START__".toList
def pathEnd : Text := "__FS_PATH_END__".toList

/-- Where a reader of escape sequences stands: in the text, behind an escape, or in a control sequence. -/
inductive Ansi | text | escape | control

def stripFrom : Ansi → Text → Text
  | _, [] => []
  | .control, c :: rest => stripFrom (if '@' ≤ c ∧ c ≤ '~' then .text else .control) rest
  | .escape, c :: rest =>
    if c = '[' then stripFrom .control rest else if c = '\x1b' then stripFrom .escape rest else c :: stripFrom .text rest
  | .text, c :: rest => if c = '\x1b' then stripFrom .escape rest else c :: stripFrom .text rest

def stripAnsi (t : Text) : Text := stripFrom .text t

/-- What stands between the markers. -/
def captured (stdout : Text) : Option Text := do
  let rest ← splitOnce pathStart stdout
  let slice ← splitOnce pathEnd rest.2
  some (stripAnsi slice.1)

def pathFront : Text := "PATH=".toList

def components (value : Text) : List Text := (value.splitOn ':').filter fun s => !s.isEmpty

def parseShellPath (stdout : Text) : Option (List Text) := do
  let slice ← captured stdout
  let line ← (lines slice).find? fun l => pathFront.isPrefixOf l
  let dirs := components (line.drop pathFront.length)
  if dirs.isEmpty then none else some dirs

def isEnvKey : Text → Bool
  | [] => false
  | c :: rest => (c.isAlpha || c == '_') && rest.all fun d => d.isAlphanum || d == '_'

/-- The key and the value of a line. -/
def assignment (line : Text) : Option (Text × Text) := (splitOnce ['='] line).filter fun e => isEnvKey e.1

def parseShellEnv (stdout : Text) : Option (List (Text × Text)) := do
  let slice ← captured stdout
  let pairs := (lines slice).filterMap assignment
  if pairs.isEmpty then none else some pairs

def envExact : List Text :=
  ["HOME", "KUBECONFIG", "HTTP_PROXY", "HTTPS_PROXY", "NO_PROXY", "ALL_PROXY", "http_proxy", "https_proxy", "no_proxy",
    "all_proxy", "SSL_CERT_FILE", "SSL_CERT_DIR", "REQUESTS_CA_BUNDLE", "CURL_CA_BUNDLE"].map String.toList

def envFront : List Text := ["AWS_", "CLOUDSDK_", "GOOGLE_", "GCP_", "AZURE_", "KRB5"].map String.toList

def isWhitelistedEnv (key : Text) : Bool := envExact.any (fun k => decide (k = key)) || envFront.any fun p => p.isPrefixOf key

def selectEnvVars (pairs : List (Text × Text)) (isSet : Text → Bool) : List (Text × Text) :=
  pairs.filter fun e => decide (e.1 ≠ "PATH".toList) && isWhitelistedEnv e.1 && !isSet e.1

/-! ## The shell -/

structure Variable where
  name : Text
  value : Text
  name_plain : '=' ∉ name

/-- What is printed for a variable, without the line feed behind it. -/
def Variable.text (v : Variable) : Text := v.name ++ '=' :: v.value

/-- The variables, in the order in which they are printed. -/
structure Environment where
  printed : List Variable
  distinct : (printed.map Variable.name).Nodup
  unmarked : ∀ v ∈ printed, ¬ pathEnd <:+: v.text
  unescaped : ∀ v ∈ printed, '\x1b' ∉ v.text
  path_line : ∀ v ∈ printed, v.name = "PATH".toList → '\n' ∉ v.value

def Environment.dump (E : Environment) : Text := unlines (E.printed.map Variable.text)

/-- The output of the shell: what its start-up files print, the environment, and anything after it. -/
def stdout (banner : Text) (E : Environment) (rest : Text) : Text := banner ++ pathStart ++ (E.dump ++ pathEnd ++ rest)

def firstLine (t : Text) : Text := t.takeWhile fun c => c != '\n'

/-- The lines after the first, as they are read. -/
def continuation (t : Text) : List Text := ((t.splitOn '\n').tail).map stripCr

def Environment.pathComponents (E : Environment) : List Text :=
  match E.printed.find? fun v => v.name = "PATH".toList with
  | some v => components v.value
  | none => []

/-- A variable that is worth having and that the process does not have. -/
def Wanted (isSet : Text → Bool) (key : Text) : Prop := isWhitelistedEnv key = true ∧ isSet key = false

/-! ## Reading the dump -/

theorem stripAnsi_of_notMem {t : Text} (h : '\x1b' ∉ t) : stripAnsi t = t := by
  rw [stripAnsi]
  induction t with
  | nil => rfl
  | cons c t ih =>
    obtain ⟨hc, ht⟩ := not_or.mp (List.mem_cons.not.mp h)
    rw [stripFrom, if_neg (Ne.symm hc), ih ht]

theorem splitOn_eq_cons (t : Text) : t.splitOn '\n' = firstLine t :: (t.splitOn '\n').tail := by
  unfold firstLine
  induction t with
  | nil => rfl
  | cons c t ih =>
    rw [List.splitOn_cons_eq_if_modifyHead]
    by_cases hc : c = '\n'
    · simp [hc]
    · rw [if_neg (by simpa using hc), ih]
      simp [hc]

/-- A text with a line feed behind it is read line by line, and nothing is left of it for what comes after. -/
theorem lines_append (t rest : Text) : lines (t ++ '\n' :: rest) = (t.splitOn '\n').map stripCr ++ lines rest := by
  suffices h : ∀ line : Text, '\n' ∉ line →
      linesFrom line (t ++ '\n' :: rest) = ((line ++ t).splitOn '\n').map stripCr ++ lines rest from h [] List.not_mem_nil
  induction t with
  | nil =>
    intro line hline
    rw [List.nil_append, List.append_nil, List.splitOn_eq_singleton hline, linesFrom, if_pos rfl]
    rfl
  | cons c t ih =>
    intro line hline
    rw [List.cons_append, linesFrom]
    by_cases hc : c = '\n'
    · subst hc
      rw [if_pos rfl, ih [] List.not_mem_nil, List.splitOn_append_cons_self_of_not_mem hline]
      rfl
    · have hlonger : '\n' ∉ line ++ [c] := by simp [hline, Ne.symm hc]
      rw [if_neg hc, ih _ hlonger, List.append_assoc, List.singleton_append]

/-- The lines of a variable. -/
def Variable.lines (v : Variable) : List Text := stripCr (firstLine v.text) :: continuation v.text

theorem lines_unlines_text (vs : List Variable) : lines (unlines (vs.map Variable.text)) = vs.flatMap Variable.lines := by
  induction vs with
  | nil => rfl
  | cons v vs ih =>
    rw [List.map_cons, unlines, lines_append, ih, List.flatMap_cons, splitOn_eq_cons]
    rfl

theorem clear_dump (E : Environment) : Clear pathEnd E.dump := by
  have hlines : ∀ ts : List Text, (∀ t ∈ ts, ¬ pathEnd <:+: t) → Clear pathEnd (unlines ts) := by
    intro ts
    induction ts with
    | nil => exact fun _ => trivial
    | cons t ts ih =>
      intro h
      exact clear_append_cons (by decide) (h t List.mem_cons_self) (ih fun s hs => h s (List.mem_cons_of_mem t hs))
  apply hlines
  intro t ht
  obtain ⟨v, hv, rfl⟩ := List.mem_map.mp ht
  exact E.unmarked v hv

theorem notMem_dump (E : Environment) : '\x1b' ∉ E.dump := by
  have hlines : ∀ ts : List Text, (∀ t ∈ ts, '\x1b' ∉ t) → '\x1b' ∉ unlines ts := by
    intro ts
    induction ts with
    | nil => exact fun _ => List.not_mem_nil
    | cons t ts ih =>
      intro h
      have ht := h t List.mem_cons_self
      have hts := ih fun s hs => h s (List.mem_cons_of_mem t hs)
      simp [unlines, ht, hts]
  apply hlines
  intro t ht
  obtain ⟨v, hv, rfl⟩ := List.mem_map.mp ht
  exact E.unescaped v hv

/-- A banner in which no marker begins. -/
abbrev Banner := { banner : Text // Clear pathStart banner }

theorem captured_stdout (banner : Banner) (E : Environment) (rest : Text) :
    captured (stdout banner.1 E rest) = some E.dump := by
  have hstart : splitOnce pathStart (stdout banner.1 E rest) = some (banner.1, E.dump ++ pathEnd ++ rest) :=
    splitOnce_append_iff.mpr banner.2
  have hend : splitOnce pathEnd (E.dump ++ pathEnd ++ rest) = some (E.dump, rest) := splitOnce_append_iff.mpr (clear_dump E)
  unfold captured
  rw [hstart]
  change (splitOnce pathEnd (E.dump ++ pathEnd ++ rest)).bind _ = _
  rw [hend]
  exact congrArg some (stripAnsi_of_notMem (notMem_dump E))

/-! ## Assignments -/

theorem stripCr_append (a f : Text) : stripCr (a ++ '=' :: f) = a ++ '=' :: stripCr f := by
  cases hf : f with
  | nil => simp [stripCr]
  | cons c f =>
    have hlast : (a ++ '=' :: c :: f).getLast? = (c :: f).getLast? := by
      rw [List.getLast?_append_of_ne_nil _ (List.cons_ne_nil _ _), List.getLast?_cons_cons]
    unfold stripCr
    rw [hlast]
    split
    · rw [List.dropLast_append_of_ne_nil (List.cons_ne_nil _ _), List.dropLast_cons_of_ne_nil (List.cons_ne_nil _ _)]
    · rfl

/-- A text keeps its end unless it is a carriage return. -/
theorem stripCr_eq_self_iff {t : Text} : stripCr t = t ↔ t.getLast? ≠ some '\r' := by
  unfold stripCr
  split
  · next hlast =>
    refine iff_of_false (fun heq => ?_) (fun hne => hne hlast)
    have hlength := congrArg List.length heq
    have hne : t ≠ [] := by
      rintro rfl
      cases hlast
    have hpos := List.length_pos_of_ne_nil hne
    rw [List.length_dropLast] at hlength
    omega
  · next hlast => exact iff_of_true rfl hlast

theorem notMem_of_isEnvKey {key : Text} {c : Char} (hc : (c.isAlphanum || c == '_') = false) (h : isEnvKey key = true) :
    c ∉ key := by
  have hkey : ∀ d ∈ key, (d.isAlphanum || d == '_') = true := by
    cases key with
    | nil => exact fun d hd => absurd hd List.not_mem_nil
    | cons d rest =>
      rw [isEnvKey, Bool.and_eq_true, List.all_eq_true] at h
      intro e he
      rcases List.mem_cons.mp he with rfl | he
      · have hfirst := h.1
        rw [Bool.or_eq_true] at hfirst ⊢
        refine hfirst.imp_left fun halpha => ?_
        rw [Char.isAlphanum, halpha, Bool.true_or]
      · exact h.2 e he
  intro hmem
  rw [hkey c hmem] at hc
  cases hc

theorem firstLine_text {v : Variable} (h : '\n' ∉ v.name) : firstLine v.text = v.name ++ '=' :: firstLine v.value := by
  have hname : ∀ c ∈ v.name, (c != '\n') = true := by
    intro c hc
    simp only [bne_iff_ne]
    rintro rfl
    exact h hc
  rw [firstLine, Variable.text, List.takeWhile_append_of_pos hname, List.takeWhile_cons_of_pos (by decide)]
  rfl

theorem firstLine_text_of_mem {v : Variable} (h : '\n' ∈ v.name) : '=' ∉ firstLine v.text := by
  obtain ⟨a, b, hsplit, ha⟩ := List.eq_append_cons_of_mem h
  have hfirst : firstLine v.text = a := by
    have hall : ∀ c ∈ a, (c != '\n') = true := by
      intro c hc
      simp only [bne_iff_ne]
      rintro rfl
      exact ha hc
    rw [firstLine, Variable.text, hsplit, List.append_assoc, List.takeWhile_append_of_pos hall, List.cons_append,
      List.takeWhile_cons_of_neg (by decide), List.append_nil]
  rw [hfirst]
  exact fun hmem => v.name_plain (hsplit ▸ List.mem_append_left _ hmem)

theorem mem_of_mem_stripCr {c : Char} {t : Text} (h : c ∈ stripCr t) : c ∈ t := by
  unfold stripCr at h
  split at h
  · exact List.mem_of_mem_dropLast h
  · exact h

/-- The first line of a variable is read as the variable, if its name can be read. -/
theorem assignment_firstLine (v : Variable) : assignment (stripCr (firstLine v.text)) =
    if isEnvKey v.name then some (v.name, stripCr (firstLine v.value)) else none := by
  unfold assignment
  by_cases hline : '\n' ∈ v.name
  · have hkey : isEnvKey v.name = false := Bool.eq_false_iff.mpr fun hkey => notMem_of_isEnvKey (by decide) hkey hline
    have hnone : splitOnce ['='] (stripCr (firstLine v.text)) = none :=
      splitOnce_of_notMem fun hmem => firstLine_text_of_mem hline (mem_of_mem_stripCr hmem)
    rw [hnone, hkey]
    rfl
  · have hsplit : splitOnce ['='] (v.name ++ ['='] ++ stripCr (firstLine v.value)) =
        some (v.name, stripCr (firstLine v.value)) := splitOnce_append_iff.mpr (clear_singleton_iff.mpr v.name_plain)
    rw [List.append_assoc, List.singleton_append] at hsplit
    rw [firstLine_text hline, stripCr_append, hsplit, Option.filter_some]

theorem parseShellEnv_stdout (banner : Banner) (E : Environment) (rest : Text) :
    (parseShellEnv (stdout banner.1 E rest)).getD [] = (E.printed.flatMap Variable.lines).filterMap assignment := by
  have hlines : lines E.dump = E.printed.flatMap Variable.lines := lines_unlines_text E.printed
  unfold parseShellEnv
  rw [captured_stdout]
  change (if (((lines E.dump).filterMap assignment).isEmpty = true) then none else some _).getD [] = _
  rw [hlines]
  split
  · next hempty => exact (List.isEmpty_iff.mp hempty).symm
  · rfl

/-- What is read is read from the first line of a variable or from a later line of one. -/
theorem mem_parseShellEnv (banner : Banner) (E : Environment) (rest : Text) {key w : Text} :
    (key, w) ∈ (parseShellEnv (stdout banner.1 E rest)).getD [] ↔
      (∃ v ∈ E.printed, v.name = key ∧ isEnvKey key = true ∧ w = stripCr (firstLine v.value)) ∨
        ∃ v ∈ E.printed, ∃ l ∈ continuation v.text, assignment l = some (key, w) := by
  rw [parseShellEnv_stdout, List.mem_filterMap]
  constructor
  · rintro ⟨l, hl, hassign⟩
    obtain ⟨v, hv, hl⟩ := List.mem_flatMap.mp hl
    rcases List.mem_cons.mp hl with rfl | hl
    · rw [assignment_firstLine] at hassign
      split at hassign
      · next hkey =>
        cases hassign
        exact .inl ⟨v, hv, rfl, hkey, rfl⟩
      · cases hassign
    · exact .inr ⟨v, hv, l, hl, hassign⟩
  · rintro (⟨v, hv, rfl, hkey, rfl⟩ | ⟨v, hv, l, hl, hassign⟩)
    · refine ⟨_, List.mem_flatMap.mpr ⟨v, hv, List.mem_cons_self⟩, ?_⟩
      rw [assignment_firstLine, if_pos hkey]
    · exact ⟨l, List.mem_flatMap.mpr ⟨v, hv, List.mem_cons_of_mem _ hl⟩, hassign⟩

theorem mem_selectEnvVars {pairs : List (Text × Text)} {isSet : Text → Bool} {key w : Text} :
    (key, w) ∈ selectEnvVars pairs isSet ↔ (key, w) ∈ pairs ∧ Wanted isSet key := by
  have hpath : isWhitelistedEnv "PATH".toList = false := by decide
  unfold selectEnvVars Wanted
  rw [List.mem_filter]
  refine and_congr_right fun _ => ?_
  simp only [Bool.and_eq_true, decide_eq_true_eq, Bool.not_eq_true']
  constructor
  · rintro ⟨⟨-, hlisted⟩, hunset⟩
    exact ⟨hlisted, hunset⟩
  · rintro ⟨hlisted, hunset⟩
    refine ⟨⟨?_, hlisted⟩, hunset⟩
    rintro rfl
    rw [hpath] at hlisted
    cases hlisted

/-! ## The search path -/

/-- The lines that are printed before the search path and are not the first of a variable. -/
def straysBeforePath : List Variable → List Text
  | [] => []
  | v :: vs => if v.name = "PATH".toList then [] else continuation v.text ++ straysBeforePath vs

theorem name_of_pathLine {v : Variable} (h : pathFront <+: stripCr (firstLine v.text)) : v.name = "PATH".toList := by
  obtain ⟨s, hs⟩ := h
  have hline : '\n' ∉ v.name := by
    intro hmem
    apply firstLine_text_of_mem hmem
    apply mem_of_mem_stripCr
    rw [← hs]
    exact List.mem_append_left s (by decide)
  have hpath : splitOnce ['='] ("PATH".toList ++ ['='] ++ s) = some ("PATH".toList, s) :=
    splitOnce_append_iff.mpr (clear_singleton_iff.mpr (by decide))
  have hname : splitOnce ['='] (v.name ++ ['='] ++ stripCr (firstLine v.value)) =
      some (v.name, stripCr (firstLine v.value)) := splitOnce_append_iff.mpr (clear_singleton_iff.mpr v.name_plain)
  rw [firstLine_text hline, stripCr_append] at hs
  rw [List.append_assoc, List.singleton_append, ← hs] at hname
  exact (Prod.mk.inj (Option.some.inj (hname.symm.trans hpath))).1

/-- The search path is one line. -/
theorem lines_path {v : Variable} (hname : v.name = "PATH".toList) (hvalue : '\n' ∉ v.value) :
    v.lines = [pathFront ++ stripCr v.value] := by
  have htext : v.text = "PATH".toList ++ '=' :: v.value := by rw [Variable.text, hname]
  have hplain : '\n' ∉ v.text := by
    rw [htext]
    simp [hvalue]
  have hsplit := splitOn_eq_cons v.text
  rw [List.splitOn_eq_singleton hplain] at hsplit
  obtain ⟨hfirst, htail⟩ := List.cons.inj hsplit
  rw [Variable.lines, ← hfirst, continuation, List.splitOn_eq_singleton hplain, htext, stripCr_append]
  rfl

theorem find?_lines {vs : List Variable} (h : ∀ v ∈ vs, v.name = "PATH".toList → '\n' ∉ v.value) :
    (vs.flatMap Variable.lines).find? (fun l => pathFront.isPrefixOf l) =
      ((straysBeforePath vs).find? fun l => pathFront.isPrefixOf l).or
        ((vs.find? fun v => v.name = "PATH".toList).map fun v => pathFront ++ stripCr v.value) := by
  induction vs with
  | nil => rfl
  | cons v vs ih =>
    rw [List.flatMap_cons, List.find?_append]
    by_cases hname : v.name = "PATH".toList
    · have hfront : pathFront.isPrefixOf (pathFront ++ stripCr v.value) = true :=
        List.isPrefixOf_iff_prefix.mpr (List.prefix_append _ _)
      rw [lines_path hname (h v List.mem_cons_self hname), List.find?_cons_of_pos hfront, straysBeforePath, if_pos hname,
        List.find?_cons_of_pos (by simpa using hname)]
      rfl
    · have hfirst : ¬ pathFront.isPrefixOf (stripCr (firstLine v.text)) = true := fun hfront =>
        hname (name_of_pathLine (List.isPrefixOf_iff_prefix.mp hfront))
      rw [Variable.lines, List.find?_cons_of_neg hfirst, ih fun u hu => h u (List.mem_cons_of_mem v hu), straysBeforePath,
        if_neg hname, List.find?_append, List.find?_cons_of_neg (by simpa using hname), Option.or_assoc]

theorem flatten_components (t : Text) : (components t).flatten = t.filter fun c => c != ':' := by
  have hflatten : ∀ ls : List Text, (ls.filter fun s => !s.isEmpty).flatten = ls.flatten := by
    intro ls
    induction ls with
    | nil => rfl
    | cons l ls ih =>
      cases l with
      | nil => exact ih
      | cons c l => rw [List.filter_cons_of_pos (by simp), List.flatten_cons, List.flatten_cons, ih]
  rw [components, hflatten]
  induction t with
  | nil => rfl
  | cons c t ih =>
    rw [List.splitOn_cons_eq_if_modifyHead]
    by_cases hc : c = ':'
    · subst hc
      simp [ih]
    · rw [if_neg (by simpa using hc), List.filter_cons_of_pos (by simpa using hc), ← ih]
      cases hparts : t.splitOn ':' with
      | nil => exact absurd hparts (List.splitOn_ne_nil _ _)
      | cons p ps => rfl

/-- A carriage return at the end belongs to the last component. -/
theorem components_stripCr_iff {t : Text} : components (stripCr t) = components t ↔ t.getLast? ≠ some '\r' := by
  rw [← stripCr_eq_self_iff]
  refine ⟨fun heq => ?_, fun heq => by rw [heq]⟩
  by_contra hne
  have hlast : t.getLast? = some '\r' := not_not.mp (stripCr_eq_self_iff.not.mp hne)
  obtain ⟨s, rfl⟩ := List.getLast?_eq_some_iff.mp hlast
  have hstrip : stripCr (s ++ ['\r']) = s := by
    rw [stripCr, if_pos hlast, List.dropLast_concat]
  have hflatten := congrArg List.flatten heq
  rw [hstrip, flatten_components, flatten_components, List.filter_append] at hflatten
  have hlength := congrArg List.length hflatten
  simp at hlength

theorem parseShellPath_stdout (banner : Banner) (E : Environment) (rest : Text) :
    (parseShellPath (stdout banner.1 E rest)).getD [] =
      match (straysBeforePath E.printed).find? fun l => pathFront.isPrefixOf l with
      | some l => components (l.drop pathFront.length)
      | none => match E.printed.find? fun v => v.name = "PATH".toList with
        | some v => components (stripCr v.value)
        | none => [] := by
  have hlines : lines E.dump = E.printed.flatMap Variable.lines := lines_unlines_text E.printed
  have hread : parseShellPath (stdout banner.1 E rest) =
      ((lines E.dump).find? fun l => pathFront.isPrefixOf l).bind fun line =>
        if (components (line.drop pathFront.length)).isEmpty then none else some (components (line.drop pathFront.length)) := by
    unfold parseShellPath
    rw [captured_stdout]
    rfl
  have hdirs : ∀ dirs : List Text, (if dirs.isEmpty = true then none else some dirs).getD [] = dirs := by
    intro dirs
    cases dirs <;> rfl
  rw [hread, hlines, find?_lines E.path_line]
  cases (straysBeforePath E.printed).find? fun l => pathFront.isPrefixOf l with
  | some l => exact hdirs _
  | none =>
    cases E.printed.find? fun v => v.name = "PATH".toList with
    | none => rfl
    | some v =>
      rw [Option.none_or, Option.map_some, Option.bind_some, List.drop_left]
      exact hdirs _

/-! ## What is recovered -/

/-- Only variables of the shell are recovered, with the first lines of their values, every one that is wanted, and the
search path as it is. -/
structure Recovered (isSet : Text → Bool) (E : Environment) (pairs : List (Text × Text)) (path : List Text) : Prop where
  real : ∀ key w, (key, w) ∈ pairs → Wanted isSet key ∧ ∃ v ∈ E.printed, v.name = key ∧ w = firstLine v.value
  every : ∀ v ∈ E.printed, Wanted isSet v.name → ∃ w, (v.name, w) ∈ pairs
  path : path = E.pathComponents

/-- No later line of a value is read as something else, and no name and no end of a line is one that cannot be read. -/
structure Readable (isSet : Text → Bool) (E : Environment) : Prop where
  later_lines : ∀ u ∈ E.printed, ∀ l ∈ continuation u.text, ∀ key w, assignment l = some (key, w) → Wanted isSet key →
    ∃ v ∈ E.printed, v.name = key ∧ w = firstLine v.value
  names : ∀ v ∈ E.printed, Wanted isSet v.name → isEnvKey v.name = true
  line_ends : ∀ v ∈ E.printed, Wanted isSet v.name → (firstLine v.value).getLast? ≠ some '\r'
  path : match (straysBeforePath E.printed).find? fun l => pathFront.isPrefixOf l with
    | some l => components (l.drop pathFront.length) = E.pathComponents
    | none => ∀ v ∈ E.printed, v.name = "PATH".toList → v.value.getLast? ≠ some '\r'

theorem Environment.eq_of_name {E : Environment} {u v : Variable} (hu : u ∈ E.printed) (hv : v ∈ E.printed)
    (h : u.name = v.name) : u = v := List.inj_on_of_nodup_map E.distinct hu hv h

theorem Environment.find?_path {E : Environment} {v : Variable} (hv : v ∈ E.printed) (hname : v.name = "PATH".toList) :
    (E.printed.find? fun u => u.name = "PATH".toList) = some v := by
  cases hfind : E.printed.find? fun u => u.name = "PATH".toList with
  | none => exact absurd hname (by simpa using List.find?_eq_none.mp hfind v hv)
  | some u =>
    have hu : u.name = "PATH".toList := by simpa using List.find?_some hfind
    rw [E.eq_of_name (List.mem_of_find?_eq_some hfind) hv (hu.trans hname.symm)]

/-- When the search path is read as it is. -/
theorem path_iff (banner : Banner) (E : Environment) (rest : Text) :
    (parseShellPath (stdout banner.1 E rest)).getD [] = E.pathComponents ↔
      match (straysBeforePath E.printed).find? fun l => pathFront.isPrefixOf l with
      | some l => components (l.drop pathFront.length) = E.pathComponents
      | none => ∀ v ∈ E.printed, v.name = "PATH".toList → v.value.getLast? ≠ some '\r' := by
  rw [parseShellPath_stdout]
  cases (straysBeforePath E.printed).find? fun l => pathFront.isPrefixOf l with
  | some l => exact Iff.rfl
  | none =>
    unfold Environment.pathComponents
    cases hfind : E.printed.find? fun v => v.name = "PATH".toList with
    | none =>
      refine iff_of_true rfl fun v hv hname => ?_
      rw [E.find?_path hv hname] at hfind
      cases hfind
    | some v =>
      have hname : v.name = "PATH".toList := by simpa using List.find?_some hfind
      refine components_stripCr_iff.trans ⟨fun hlast u hu hu' => ?_, fun h => h v (List.mem_of_find?_eq_some hfind) hname⟩
      rw [E.eq_of_name hu (List.mem_of_find?_eq_some hfind) (hu'.trans hname.symm)]
      exact hlast

/-- When only real variables are recovered from the login shell. -/
theorem recovered_iff (isSet : Text → Bool) (banner : Banner) (E : Environment) (rest : Text) :
    Recovered isSet E (selectEnvVars ((parseShellEnv (stdout banner.1 E rest)).getD []) isSet)
      ((parseShellPath (stdout banner.1 E rest)).getD []) ↔ Readable isSet E := by
  constructor
  · intro h
    have hnames : ∀ v ∈ E.printed, Wanted isSet v.name → isEnvKey v.name = true := by
      intro v hv hwanted
      obtain ⟨w, hw⟩ := h.every v hv hwanted
      rcases (mem_parseShellEnv banner E rest).mp (mem_selectEnvVars.mp hw).1 with ⟨u, -, -, hkey, -⟩ | ⟨u, -, l, -, hassign⟩
      · exact hkey
      · exact (Option.filter_eq_some_iff.mp hassign).2
    constructor
    · intro u hu l hl key w hassign hwanted
      have hmem := mem_selectEnvVars.mpr ⟨(mem_parseShellEnv banner E rest).mpr (.inr ⟨u, hu, l, hl, hassign⟩), hwanted⟩
      exact (h.real key w hmem).2
    · exact hnames
    · intro v hv hwanted
      have hread := (mem_parseShellEnv banner E rest).mpr (.inl ⟨v, hv, rfl, hnames v hv hwanted, rfl⟩)
      obtain ⟨-, u, hu, hname, heq⟩ := h.real _ _ (mem_selectEnvVars.mpr ⟨hread, hwanted⟩)
      rw [E.eq_of_name hu hv hname] at heq
      exact stripCr_eq_self_iff.mp heq
    · exact (path_iff banner E rest).mp h.path
  · intro h
    constructor
    · intro key w hmem
      obtain ⟨hread, hwanted⟩ := mem_selectEnvVars.mp hmem
      refine ⟨hwanted, ?_⟩
      rcases (mem_parseShellEnv banner E rest).mp hread with ⟨v, hv, rfl, -, rfl⟩ | ⟨u, hu, l, hl, hassign⟩
      · exact ⟨v, hv, rfl, stripCr_eq_self_iff.mpr (h.line_ends v hv hwanted)⟩
      · exact h.later_lines u hu l hl key w hassign hwanted
    · intro v hv hwanted
      have hread := (mem_parseShellEnv banner E rest).mpr (.inl ⟨v, hv, rfl, h.names v hv hwanted, rfl⟩)
      exact ⟨_, mem_selectEnvVars.mpr ⟨hread, hwanted⟩⟩
    · exact (path_iff banner E rest).mpr h.path

/-- A note whose second line looks like the setting of a proxy. -/
def noteEnvironment : Environment where
  printed := [⟨"PATH".toList, "/usr/bin".toList, by decide⟩, ⟨"NOTE".toList, "to do\nHTTPS_PROXY=http://there".toList, by decide⟩]
  distinct := by decide
  unmarked := by
    intro v hv
    simp only [List.mem_cons, List.not_mem_nil, or_false] at hv
    rcases hv with rfl | rfl <;> decide
  unescaped := by
    intro v hv
    simp only [List.mem_cons, List.not_mem_nil, or_false] at hv
    rcases hv with rfl | rfl <;> decide
  path_line := by
    intro v hv hname
    simp only [List.mem_cons, List.not_mem_nil, or_false] at hv
    rcases hv with rfl | rfl
    · decide
    · exact absurd hname (by decide)

theorem note_sets_proxy : ¬ Recovered (fun _ => false) noteEnvironment
    (selectEnvVars ((parseShellEnv (stdout [] noteEnvironment [])).getD []) fun _ => false)
    ((parseShellPath (stdout [] noteEnvironment [])).getD []) := by
  intro h
  have hread : ("HTTPS_PROXY".toList, "http://there".toList) ∈
      selectEnvVars ((parseShellEnv (stdout [] noteEnvironment [])).getD []) fun _ => false := by decide +kernel
  obtain ⟨-, v, hv, hname, -⟩ := h.real _ _ hread
  have hnames : v.name ∈ noteEnvironment.printed.map Variable.name := List.mem_map_of_mem hv
  rw [hname] at hnames
  exact absurd hnames (by decide)

end FerrisScope.ShellEnvironment
