import FerrisScope.HostsLaws

/-!
# The bytes of the foreign lines

A hosts file with its line terminators, which the editor writes anew: each kept line gets a line feed,
whatever it ended with. The blank lines at the end, where the block goes, are not kept.
-/

namespace FerrisScope.HostsTerminators
open HelperProtocol HostsFile HostsLaws MarkedBlocks

/-- The lines of a text of which `line` is read, each with its terminator. -/
def rawLinesFrom (line : Text) : Text → List Text
  | [] => if line = [] then [] else [line]
  | c :: rest => if c = '\n' then (line ++ ['\n']) :: rawLinesFrom [] rest else rawLinesFrom (line ++ [c]) rest

def rawLines (t : Text) : List Text := rawLinesFrom [] t

/-- The line without its terminator. -/
def contentOf (raw : Text) : Text := if raw.getLast? = some '\n' then stripCr raw.dropLast else raw

/-- The line with a terminator, of its own or a line feed. -/
def terminated (raw : Text) : Text := if raw.getLast? = some '\n' then raw else raw ++ ['\n']

/-- The foreign lines of the file, without the blank ones at the end. -/
def keptRaw (t : Text) : List Text := (outside opensBlock closesBlock false (rawLines t)).rdropWhile isBlank

def keptBytes (t : Text) : Text := ((keptRaw t).map terminated).flatten

/-- The bytes of the kept lines, and behind them the block. -/
structure BytesKept (t : Text) (entries : List HostEntry) : Prop where
  strip : stripBlock t = keptBytes t
  upsert : upsertBlock t entries =
    keptBytes t ++ if renderBlock entries = [] then [] else unlines (separator t) ++ renderBlock entries

theorem contentOf_concat (line : Text) : contentOf (line ++ ['\n']) = stripCr line := by
  rw [contentOf, if_pos List.getLast?_concat, List.dropLast_concat]

theorem contentOf_of_notMem {line : Text} (h : '\n' ∉ line) : contentOf line = line :=
  if_neg fun hlast => h (List.mem_of_getLast? hlast)

theorem linesFrom_eq_map {line : Text} (h : '\n' ∉ line) (t : Text) :
    linesFrom line t = (rawLinesFrom line t).map contentOf := by
  induction t generalizing line with
  | nil =>
    rw [linesFrom, rawLinesFrom]
    split
    · rfl
    · rw [List.map_singleton, contentOf_of_notMem h]
  | cons c t ih =>
    rw [linesFrom, rawLinesFrom]
    split
    · rw [List.map_cons, contentOf_concat, ih List.not_mem_nil]
    · rename_i hc
      refine ih fun hmem => ?_
      rcases List.mem_append.mp hmem with hmem | hmem
      · exact h hmem
      · exact hc (List.mem_singleton.mp hmem).symm

theorem lines_eq_map (t : Text) : lines t = (rawLines t).map contentOf := linesFrom_eq_map List.not_mem_nil t

theorem trim_contentOf (raw : Text) : trim (contentOf raw) = trim raw := by
  unfold contentOf
  split
  · rename_i hlast
    conv_rhs => rw [← List.dropLast_append_getLast? '\n' hlast, trim_append_blank (by decide)]
    exact trim_stripCr _
  · rfl

/-- The scanner does not see terminators. -/
theorem keptLines_eq_map (t : Text) : keptLines t = (keptRaw t).map contentOf := by
  have hopens : (fun raw => opensBlock (contentOf raw)) = opensBlock :=
    funext fun raw => by rw [opensBlock, trim_contentOf, opensBlock]
  have hcloses : (fun raw => closesBlock (contentOf raw)) = closesBlock :=
    funext fun raw => by rw [closesBlock, trim_contentOf, closesBlock]
  have hblank : (isBlank ∘ contentOf) = isBlank :=
    funext fun raw => by rw [Function.comp_apply, isBlank, trim_contentOf, isBlank]
  rw [keptLines, lines_eq_map, outside_map, hopens, hcloses, List.rdropWhile, ← List.map_reverse,
    List.dropWhile_map, hblank, ← List.map_reverse, keptRaw, List.rdropWhile]

theorem unlines_eq_flatten (ls : List Text) : unlines ls = (ls.map (· ++ ['\n'])).flatten := by
  induction ls with
  | nil => rfl
  | cons l ls ih =>
    rw [unlines, ih, List.map_cons, List.flatten_cons, List.append_assoc, List.singleton_append]

/-- The line ends in a carriage return and a line feed. -/
def EndsCrlf (raw : Text) : Prop := raw.getLast? = some '\n' ∧ raw.dropLast.getLast? = some '\r'

instance (raw : Text) : Decidable (EndsCrlf raw) :=
  inferInstanceAs (Decidable (raw.getLast? = some '\n' ∧ raw.dropLast.getLast? = some '\r'))

theorem length_stripCr (l : Text) : (stripCr l).length ≤ l.length := by
  unfold stripCr
  split
  · rw [List.length_dropLast]
    omega
  · exact Nat.le_refl _

theorem length_rewritten (raw : Text) : (contentOf raw ++ ['\n']).length ≤ (terminated raw).length := by
  unfold contentOf terminated
  split
  · rename_i hlast
    conv_rhs => rw [← List.dropLast_append_getLast? '\n' hlast]
    rw [List.length_append, List.length_append]
    have := length_stripCr raw.dropLast
    omega
  · exact Nat.le_refl _

/-- A line is written as it was unless it loses its carriage return. -/
theorem rewritten_eq_iff (raw : Text) : contentOf raw ++ ['\n'] = terminated raw ↔ ¬EndsCrlf raw := by
  unfold contentOf terminated EndsCrlf
  split
  · rename_i hlast
    conv_lhs => rhs; rw [← List.dropLast_append_getLast? '\n' hlast]
    rw [List.append_cancel_right_eq, stripCr_eq_self_iff]
    simp [hlast]
  · rename_i hlast
    simp [hlast]

theorem flatten_map_eq_iff {α β : Type} {f g : α → List β} (h : ∀ a, (f a).length ≤ (g a).length) (l : List α) :
    (l.map f).flatten = (l.map g).flatten ↔ ∀ a ∈ l, f a = g a := by
  have hlength : ∀ l : List α, (l.map f).flatten.length ≤ (l.map g).flatten.length := by
    intro l
    induction l with
    | nil => exact Nat.le_refl 0
    | cons a l ih =>
      simp only [List.map_cons, List.flatten_cons, List.length_append]
      exact Nat.add_le_add (h a) ih
  induction l with
  | nil => simp
  | cons a l ih =>
    rw [List.map_cons, List.map_cons, List.flatten_cons, List.flatten_cons, List.forall_mem_cons]
    constructor
    · intro heq
      have hsum := congrArg List.length heq
      rw [List.length_append, List.length_append] at hsum
      have hhead : (f a).length = (g a).length := by
        have := h a
        have := hlength l
        omega
      obtain ⟨hfirst, hrest⟩ := List.append_inj heq hhead
      exact ⟨hfirst, ih.mp hrest⟩
    · rintro ⟨hhead, hrest⟩
      rw [hhead, ih.mpr hrest]

theorem stripBlock_eq_keptBytes_iff (t : Text) : stripBlock t = keptBytes t ↔ ∀ raw ∈ keptRaw t, ¬EndsCrlf raw := by
  rw [stripBlock_eq, keptLines_eq_map, unlines_eq_flatten, List.map_map, keptBytes]
  simp only [flatten_map_eq_iff length_rewritten, Function.comp_def, rewritten_eq_iff]

theorem upsertBlock_eq (t : Text) (entries : List HostEntry) :
    upsertBlock t entries =
      stripBlock t ++ if renderBlock entries = [] then [] else unlines (separator t) ++ renderBlock entries := by
  simp only [upsertBlock, separator, stripBlock_eq, unlines_eq_nil_iff]
  split
  · rw [List.append_nil]
  · split
    · rename_i hkept
      rw [hkept]
      rfl
    · rfl

theorem bytesKept_iff (t : Text) (entries : List HostEntry) :
    BytesKept t entries ↔ ∀ raw ∈ keptRaw t, ¬EndsCrlf raw := by
  rw [← stripBlock_eq_keptBytes_iff]
  refine ⟨fun h => h.strip, fun h => ⟨h, ?_⟩⟩
  rw [upsertBlock_eq, h]

theorem bytesKept_crlf : ¬∀ (t : Text) (entries : List HostEntry), BytesKept t entries := fun h =>
  absurd (h "10.0.0.5 a\r\n".toList []).strip (by decide)

end FerrisScope.HostsTerminators
