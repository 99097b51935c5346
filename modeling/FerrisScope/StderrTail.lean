import FerrisScope.LabelledRuns
import FerrisScope.TextSearch
import FerrisScope.HostsFile

/-!
# The last lines of a helper's error output

The lines that a server writes while it is tested are kept in a buffer. When the buffer gets too long, its front
is dropped up to the line that starts after the excess.
-/

namespace FerrisScope.StderrTail
open HostsFile (Text)
open LabelledRuns Utf8Slices CharacterBoundaries TextSearch

def mcpTestStderrCap : Nat := 8192

/-- What is kept from this place on: the line that starts after it, if there is one. -/
def trimFront (g : Text) (dropTo : Nat) : Option Text :=
  (sliceFrom g dropTo).bind fun rest => sliceFrom g (((find ['\n'] rest).map (dropTo + · + 1)).getD dropTo)

/-- The buffer after a line. There is none when a slice ends the program. -/
def drainLine (buffer line : Text) : Option Text :=
  let g := buffer ++ line
  if mcpTestStderrCap < byteLen g then trimFront g (byteLen g - mcpTestStderrCap) else some g

/-- The front that is too long ends between characters. -/
def CutsBetween (buffer line : Text) : Prop :=
  mcpTestStderrCap < byteLen (buffer ++ line) →
    isCharBoundary (buffer ++ line) (byteLen (buffer ++ line) - mcpTestStderrCap) = true

theorem byteLen_newline : byteLen ['\n'] = 1 := byteLen_cons '\n' []

theorem trimFront_append (u r : Text) : ∃ b, trimFront (u ++ r) (byteLen u) = some b ∧ b <:+ r := by
  rw [trimFront, sliceFrom_append, Option.bind_some]
  cases hfind : find ['\n'] r with
  | none =>
    rw [Option.map_none, Option.getD_none, sliceFrom_append]
    exact ⟨r, rfl, List.suffix_rfl⟩
  | some i =>
    have hfirst := find_spec ['\n'] r
    rw [hfind] at hfirst
    obtain ⟨-, v, w, rfl, rfl⟩ := hfirst.1
    have hcut : byteLen u + byteLen v + 1 = byteLen (u ++ (v ++ ['\n'])) := by
      rw [byteLen_append, byteLen_append, byteLen_newline, Nat.add_assoc]
    have hsplit : u ++ (v ++ (['\n'] ++ w)) = u ++ (v ++ ['\n']) ++ w := by simp only [List.append_assoc]
    rw [Option.map_some, Option.getD_some, hcut, hsplit, sliceFrom_append]
    exact ⟨w, rfl, v ++ ['\n'], List.append_assoc _ _ _⟩

theorem trimFront_isSome_iff {g : Text} {dropTo : Nat} :
    (trimFront g dropTo).isSome = true ↔ isCharBoundary g dropTo = true := by
  constructor
  · intro h
    obtain ⟨b, hb⟩ := Option.isSome_iff_exists.mp h
    obtain ⟨rest, hrest, -⟩ := Option.bind_eq_some_iff.mp hb
    exact Option.isSome_iff_exists.mpr ⟨rest, hrest⟩
  · intro h
    obtain ⟨u, r, rfl, rfl⟩ := isCharBoundary_iff.mp h
    obtain ⟨b, hb, -⟩ := trimFront_append u r
    rw [hb]
    rfl

theorem drainLine_isSome_iff (buffer line : Text) : (drainLine buffer line).isSome = true ↔ CutsBetween buffer line := by
  rw [drainLine, CutsBetween]
  split
  · next hlong => exact trimFront_isSome_iff.trans ⟨fun h _ => h, fun h => h hlong⟩
  · next hlong => exact iff_of_true rfl fun h => absurd h hlong

theorem drainLine_spec {buffer line b : Text} (h : drainLine buffer line = some b) :
    b <:+ buffer ++ line ∧ byteLen b ≤ mcpTestStderrCap := by
  have hcuts := (drainLine_isSome_iff buffer line).mp (by rw [h]; rfl)
  rw [drainLine] at h
  split at h
  · next hlong =>
    obtain ⟨u, r, hg, hu⟩ := isCharBoundary_iff.mp (hcuts hlong)
    obtain ⟨b', hb, hsuffix⟩ := trimFront_append u r
    rw [← hu, hg, hb] at h
    obtain rfl := Option.some_inj.mp h
    obtain ⟨front, rfl⟩ := hsuffix
    rw [hg, byteLen_append u, byteLen_append] at hu
    rw [hg]
    exact ⟨⟨u ++ front, List.append_assoc _ _ _⟩, by omega⟩
  · next hlong =>
    obtain rfl := Option.some_inj.mp h
    exact ⟨List.suffix_rfl, Nat.not_lt.mp hlong⟩

theorem run_suffix {lines : List Text} {start buffer : Text} (h : run drainLine start lines = some buffer) :
    buffer <:+ start ++ lines.flatten := by
  induction lines generalizing start with
  | nil =>
    obtain rfl := Option.some_inj.mp h
    rw [List.flatten_nil, List.append_nil]
  | cons line lines ih =>
    obtain ⟨b, hb, hrest⟩ := run_cons_eq_some.mp h
    obtain ⟨front, hfront⟩ := (drainLine_spec hb).1
    apply (ih hrest).trans
    rw [List.flatten_cons, ← List.append_assoc, ← hfront, List.append_assoc]
    exact List.suffix_append _ _

theorem run_byteLen_le {lines : List Text} {buffer : Text} (h : run drainLine [] lines = some buffer) :
    byteLen buffer ≤ mcpTestStderrCap := by
  have hstep : ∀ b line b', byteLen b ≤ mcpTestStderrCap → drainLine b line = some b' → byteLen b' ≤ mcpTestStderrCap :=
    fun _ _ _ _ h => (drainLine_spec h).2
  exact run_invariant hstep (Nat.zero_le _) h

/-- No slice ends the program, and the buffer is an end of what was read and not too long. -/
def Kept (lines : List Text) : Prop :=
  ∃ buffer, run drainLine [] lines = some buffer ∧ buffer <:+ lines.flatten ∧ byteLen buffer ≤ mcpTestStderrCap

theorem kept_iff_isSome {lines : List Text} : Kept lines ↔ (run drainLine [] lines).isSome = true := by
  rw [Option.isSome_iff_exists]
  constructor
  · rintro ⟨buffer, h, -⟩
    exact ⟨buffer, h⟩
  · rintro ⟨buffer, h⟩
    exact ⟨buffer, h, run_suffix h, run_byteLen_le h⟩

/-- The tail is kept after every line exactly when the front that is dropped always ends between characters. -/
theorem kept_iff_cutsBetween (lines : List Text) :
    (∀ pre post, lines = pre ++ post → Kept pre) ↔ Meets drainLine CutsBetween [] lines := by
  rw [← run_isSome_iff_meets drainLine_isSome_iff]
  constructor
  · intro h
    exact kept_iff_isSome.mp (h lines [] (List.append_nil lines).symm)
  · rintro h pre post rfl
    obtain ⟨buffer, hbuffer⟩ := Option.isSome_iff_exists.mp h
    obtain ⟨b, hb, -⟩ := run_append_eq_some.mp hbuffer
    rw [kept_iff_isSome, hb]
    rfl

/-- A line with one byte too many whose first character has two bytes. -/
theorem not_kept_wide {t : Text} (ht : byteLen t = 8191) : ¬ Kept ['é' :: t] := by
  intro h
  obtain ⟨buffer, hbuffer⟩ := Option.isSome_iff_exists.mp (kept_iff_isSome.mp h)
  obtain ⟨b, hb, -⟩ := run_cons_eq_some.mp hbuffer
  have hcuts := (drainLine_isSome_iff [] ('é' :: t)).mp (by rw [hb]; rfl)
  have hsize : ('é' : Char).utf8Size = 2 := rfl
  rw [CutsBetween, List.nil_append, byteLen_cons, ht, hsize, mcpTestStderrCap] at hcuts
  rcases boundary_le_or_ge (u := []) (hcuts (by omega)) with h | h
  · rw [byteLen_nil] at h
    omega
  · rw [byteLen_nil, hsize] at h
    omega

theorem not_kept_longLine :
    ¬ ∀ pre post, ['é' :: (List.replicate 8190 'a' ++ ['\n'])] = pre ++ post → Kept pre := by
  intro h
  have hascii : ∀ c ∈ List.replicate 8190 'a', c.toNat < 128 := by
    intro c hc
    rw [List.eq_of_mem_replicate hc]
    decide
  refine not_kept_wide ?_ (h _ [] (List.append_nil _).symm)
  rw [byteLen_append, byteLen_ascii hascii, List.length_replicate, byteLen_newline]

end FerrisScope.StderrTail
