import Mathlib.Tactic.Common
import Mathlib.Order.Lattice
import Mathlib.Data.Nat.Notation

/-!
# The window a compaction waits for

The limits of a model come from the catalogue or, on a miss, from a default of its provider. The window
that is shown to the operator is what the model takes as input, less the room for its answer. The trigger
of a compaction computes its own from the whole context. The two are equal when the catalogue does not
tell input and context apart.
-/

namespace FerrisScope.CompactionWindow

inductive ProviderKind where
  | opencodeZen | opencodeGo | openRouter | anthropic | google | openai | zai | minimax | groq | deepseek
  | mistral | together | moonshot | kimiCoding | ollama | customOpenAi | customAnthropic
  deriving DecidableEq, Repr

def defaultContextWindow : ProviderKind → ℕ
  | .google => 1048576
  | .groq | .mistral | .together | .moonshot | .customOpenAi => 131072
  | .deepseek => 128000
  | .ollama => 32768
  | .kimiCoding => 262144
  | _ => 200000

def modelsDevId : ProviderKind → Option String
  | .opencodeZen => some "opencode"
  | .opencodeGo => some "opencode-go"
  | .openRouter => some "openrouter"
  | .anthropic => some "anthropic"
  | .google => some "google"
  | .openai => some "openai"
  | .groq => some "groq"
  | .deepseek => some "deepseek"
  | .mistral => some "mistral"
  | .together => some "togetherai"
  | .zai => some "zai"
  | .minimax => some "minimax"
  | .moonshot => some "moonshotai"
  | .kimiCoding => some "kimi-for-coding"
  | .ollama | .customOpenAi | .customAnthropic => none

structure ModelLimits where
  context : ℕ
  input : ℕ
  output : ℕ
  deriving DecidableEq, Repr

structure Catalogue where
  byId : List ((String × String) × ModelLimits)
  /-- A refresh holds the lock. -/
  locked : Bool := false
  deriving DecidableEq, Repr

namespace Catalogue

variable (c : Catalogue) (kind : ProviderKind) (model : String)

def lookup : Option ModelLimits :=
  match modelsDevId kind with
  | none => none
  | some id => if c.locked then none else c.byId.lookup (id, model)

def contextWindow : ℕ := ((c.lookup kind model).map (·.context)).getD (defaultContextWindow kind)

def reservedTokens : ℕ :=
  let maxOutput := ((c.lookup kind model).map fun l => max l.output 1).getD 8192
  max (min 20000 maxOutput) 2048

/-- The context and the usable window, as they are shown. -/
def contextLimitsFor : ℕ × ℕ :=
  let limits := match c.lookup kind model with
    | some l => l
    | none => ⟨defaultContextWindow kind, defaultContextWindow kind, 8192⟩
  let reserved := max (min 20000 (max limits.output 1)) 2048
  (limits.context, limits.input - reserved)

/-- The usable window of `run_compaction_internal`. -/
def triggerWindow : ℕ := c.contextWindow kind model - c.reservedTokens kind model

end Catalogue

def compactionTailKeep : ℕ := 2

/-- Whether a compaction goes on. `fraction` is the part of the window that triggers it. -/
def proceeds (fraction : ℕ → ℕ) (c : Catalogue) (kind : ProviderKind) (model : String)
    (force inFlight : Bool) (lastTotal messageCount : ℕ) : Bool :=
  !inFlight && decide (compactionTailKeep + 2 < messageCount) &&
    (force || decide (lastTotal ≠ 0 ∧ fraction (c.triggerWindow kind model) ≤ lastTotal))

/-- The room for the answer. -/
def reservedFor (output : ℕ) : ℕ := max (min 20000 (max output 1)) 2048

variable (c : Catalogue) (kind : ProviderKind) (model : String)

theorem triggerWindow_of_hit {l : ModelLimits} (h : c.lookup kind model = some l) :
    c.triggerWindow kind model = l.context - reservedFor l.output := by
  simp only [Catalogue.triggerWindow, Catalogue.contextWindow, Catalogue.reservedTokens, h]
  rfl

theorem usable_of_hit {l : ModelLimits} (h : c.lookup kind model = some l) :
    (c.contextLimitsFor kind model).2 = l.input - reservedFor l.output := by
  simp only [Catalogue.contextLimitsFor, h]
  rfl

theorem windows_of_miss (h : c.lookup kind model = none) :
    c.triggerWindow kind model = (c.contextLimitsFor kind model).2 := by
  simp only [Catalogue.triggerWindow, Catalogue.contextWindow, Catalogue.reservedTokens,
    Catalogue.contextLimitsFor, h]
  rfl

theorem sub_eq_sub_iff {a b r : ℕ} : a - r = b - r ↔ a = b ∨ (a ≤ r ∧ b ≤ r) := by
  omega

/-- The trigger waits for the window that is shown, unless the catalogue has an input limit apart from
the context and one of them leaves room after the answer. -/
theorem triggerWindow_eq_usable_iff : c.triggerWindow kind model = (c.contextLimitsFor kind model).2 ↔
    ∀ l, c.lookup kind model = some l →
      l.context = l.input ∨ (l.context ≤ reservedFor l.output ∧ l.input ≤ reservedFor l.output) := by
  cases h : c.lookup kind model with
  | none => simp [windows_of_miss c kind model h]
  | some l =>
    rw [triggerWindow_of_hit c kind model h, usable_of_hit c kind model h, sub_eq_sub_iff]
    constructor
    · intro hl l' hl'
      cases hl'
      exact hl
    · intro hl
      exact hl l rfl

/-- The input limit of this model is below its context. -/
def splitBudget : Catalogue := ⟨[(("openai", "gpt-5.5"), ⟨1050000, 922000, 128000⟩)], false⟩

theorem splitBudget_windows_differ :
    splitBudget.triggerWindow .openai "gpt-5.5" ≠ (splitBudget.contextLimitsFor .openai "gpt-5.5").2 := by
  decide

end FerrisScope.CompactionWindow
