import FerrisScope.GeminiSources

/-!
# Declarations that Gemini accepts

The nodes of a declaration are the repaired schemas that feed it, and the plain items given to
arrays. A declaration is therefore in the dialect exactly when all the schemas that feed it are
well written.
-/

namespace FerrisScope.GeminiSchema
open Json

variable {ν : Type} {serde : Serde ν}

theorem nodeValid_typed : NodeValid ([("type", .str "string")] : Fields ν) := by
  constructor
  · simp [allowedKeys]
  · exact .inl ⟨"string", by decide, rfl⟩
  · intro harr
    exact absurd (Option.some.inj harr) (by decide)
  · intro e he
    cases he
  · intro r hr
    cases hr
  · intro f hf
    cases hf
  · exact fun _ _ => ⟨rfl, rfl⟩

theorem wellWritten_nil : WellWritten ([] : List (Fields ν)) := by
  constructor
  · exact .inl ⟨"string", by decide, rfl⟩
  · intro e he
    cases he
  · intro _ r hr
    cases hr

theorem childSources_nil : childSources ([] : List (Fields ν)) = [] := rfl

/-- What feeds a schema that is declared shows up below its node. -/
theorem reaches_of_feeds {schema source : Json ν} {v u : Fields ν}
    (h : nested serde schema = some (.obj v)) (hfeeds : Feeds serde schema source)
    (hu : nested serde source = some (.obj u)) :
    Reaches (repair serde (.obj v)) (repair serde (.obj u)) := by
  induction hfeeds generalizing u with
  | refl =>
    rw [h] at hu
    cases hu
    exact .refl
  | @tail parent child _ hchild ih =>
    rcases nested_cases serde parent with ⟨-, hlayers⟩ | ⟨p, hp⟩
    · rw [hlayers, childSources_nil] at hchild
      cases hchild
    · apply (ih hp).tail
      rw [childNodes_repair (copied hp)]
      apply List.mem_map_of_mem
      exact (mem_keptNodes hp).mpr (.inl ⟨child, hchild, hu⟩)

/-- Every node of a declaration is a repaired schema that feeds it, or a plain item. -/
theorem feeds_of_reaches {schema node : Json ν} {v : Fields ν}
    (h : nested serde schema = some (.obj v)) (hreach : Reaches (repair serde (.obj v)) node) :
    node = typed "string" ∨ ∃ source u, Feeds serde schema source ∧
      nested serde source = some (.obj u) ∧ node = repair serde (.obj u) := by
  induction hreach with
  | refl => exact .inr ⟨schema, v, .refl, h, rfl⟩
  | tail _ hchild ih =>
    rcases ih with rfl | ⟨parent, p, hfeeds, hp, rfl⟩
    · cases hchild
    · rw [childNodes_repair (copied hp)] at hchild
      obtain ⟨c, hc, rfl⟩ := List.mem_map.mp hchild
      rcases (mem_keptNodes hp).mp hc with ⟨child, hmem, hnested⟩ | ⟨rfl, -, -⟩
      · rcases nested_cases serde child with ⟨hnone, -⟩ | ⟨u, hu⟩
        · rw [hnone] at hnested
          cases hnested
        · rw [hu] at hnested
          cases hnested
          exact .inr ⟨child, u, hfeeds.tail hmem, hu, rfl⟩
      · exact .inl rfl

theorem inDialect_iff {schema : Json ν} {v : Fields ν} (h : nested serde schema = some (.obj v))
    (hroot : text (get? (repair serde (.obj v)) "type") = some "object") :
    InDialect (repair serde (.obj v)) ↔
      ∀ source, Feeds serde schema source → WellWritten (layers serde source) := by
  constructor
  · intro hv source hfeeds
    rcases nested_cases serde source with ⟨-, hlayers⟩ | ⟨u, hu⟩
    · rw [hlayers]
      exact wellWritten_nil
    · obtain ⟨o, ho, hvalid⟩ := hv.nodes _ (reaches_of_feeds h hfeeds hu)
      rw [repair_obj] at ho
      cases ho
      exact (repairable_nested hu).mp ((nodeValid_repairFields (copied hu)).mp hvalid)
  · intro hw
    refine ⟨hroot, fun node hreach => ?_⟩
    rcases feeds_of_reaches h hreach with rfl | ⟨source, u, hfeeds, hu, rfl⟩
    · exact ⟨_, rfl, nodeValid_typed⟩
    · refine ⟨_, repair_obj u, (nodeValid_repairFields (copied hu)).mpr ?_⟩
      exact (repairable_nested hu).mpr (hw source hfeeds)

theorem nested_of_root {schema out : Json ν} (h : toOpenapi serde schema true = some out) :
    nested serde schema = some out := by
  rw [nested_eq]
  cases schema with
  | obj o =>
    rw [toOpenapi, openapiBody] at h ⊢
    cases he : isEmptyObject serde o with
    | true =>
      rw [he] at h
      cases h
    | false =>
      rw [he] at h
      exact h
  | _ => exact h

/-- A declaration is the repaired conversion of the sanitized schema, and an object. -/
theorem convert_eq_some {schema out : Json ν} (h : convert serde schema = some out) :
    ∃ v, nested serde (sanitize serde (resolveRefs schema)) = some (.obj v) ∧
      out = repair serde (.obj v) ∧ text (get? out "type") = some "object" := by
  cases schema with
  | obj o =>
    unfold convert at h
    simp only at h
    split_ifs at h
    split at h
    · cases h
    · next w hw =>
      split_ifs at h with hroot
      cases h
      rcases nested_cases serde (sanitize serde (resolveRefs (.obj o))) with
        ⟨hnone, -⟩ | ⟨v, hv⟩
      · rw [nested_of_root hw] at hnone
        cases hnone
      · have heq := hv.symm.trans (nested_of_root hw)
        cases heq
        exact ⟨v, hv, rfl, hroot⟩
  | _ => cases h

/-- A declaration lands in the dialect exactly when all the schemas that feed it, among those of
the input with its references inlined and its keywords sanitized, are well written. -/
theorem convert_inDialect_iff {schema out : Json ν} (h : convert serde schema = some out) :
    InDialect out ↔ ∀ source, Feeds serde (sanitize serde (resolveRefs schema)) source →
      WellWritten (layers serde source) := by
  obtain ⟨v, hv, rfl, hroot⟩ := convert_eq_some h
  exact inDialect_iff hv hroot

/-- A tool whose only parameter gives the type `type`. -/
def queryTool (type : Json ℤ) : Json ℤ :=
  .obj [("properties", .obj [("query", .obj [("type", type)])]), ("type", .str "object")]

def integerSerde : Serde ℤ := ⟨fun _ => true, fun n => decide (n ≠ 0), fun _ => ""⟩

theorem convert_inDialect_iff_split :
    ∃ out, convert integerSerde (queryTool (.arr [.str "array", .str "null"])) = some out ∧
      (InDialect out ↔ ∀ source, Feeds integerSerde (sanitize integerSerde (resolveRefs
        (queryTool (.arr [.str "array", .str "null"])))) source →
          WellWritten (layers integerSerde source)) :=
  ⟨_, rfl, convert_inDialect_iff rfl⟩

/-- A type that JSON schema does not know stays as it is. -/
theorem unknown_type_kept :
    ¬ ∀ schema out, convert integerSerde schema = some out → InDialect out := by
  intro h
  have hout : convert integerSerde (queryTool (.str "any")) = some (queryTool (.str "any")) := rfl
  have hreach : Reaches (queryTool (.str "any")) (.obj [("type", .str "any")]) :=
    .single (List.mem_singleton_self _)
  obtain ⟨o, ho, hvalid⟩ := (h _ _ hout).nodes _ hreach
  cases ho
  rcases hvalid.type with ⟨t, ht, heq⟩ | hc
  · cases heq
    exact absurd ht (by decide)
  · exact absurd hc (by decide)

end FerrisScope.GeminiSchema
