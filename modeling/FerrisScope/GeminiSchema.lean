import FerrisScope.JsonValue
import FerrisScope.OpenRecursion

/-!
# Tool schemas for Gemini

`convert` turns the JSON schema of a tool into the dialect Gemini accepts. References are
inlined, the keywords are sanitized, the keys of the dialect are copied, and `repair` has the
last word. Each of the four passes is the run of a body that names its recursive calls; what
the passes ask of numbers, and how a value is printed, is a parameter.
-/

namespace FerrisScope.GeminiSchema
open Json OpenRecursion

variable {ν : Type}

structure Serde (ν : Type) where
  /-- The number fits a signed or an unsigned 64-bit integer. -/
  isInteger : ν → Bool
  nonzero : ν → Bool
  print : Json ν → String

/-! ## Objects -/

def remove (k : String) (o : Fields ν) : Fields ν := o.filter fun e => decide (e.1 ≠ k)

/-- Insertion of a value that may be missing. -/
def putSome (k : String) (v : Option (Json ν)) (o : Fields ν) : Fields ν :=
  match v with
  | some v => mapInsert k v o
  | none => o

def elements : Option (Json ν) → Option (List (Json ν))
  | some (.arr xs) => some xs
  | _ => none

def entries : Option (Json ν) → Option (Fields ν)
  | some (.obj fs) => some fs
  | _ => none

def text (v : Option (Json ν)) : Option String := v.bind asStr

def typeStr (o : Fields ν) : Option String := text (find "type" o)

def typed (t : String) : Json ν := .obj [("type", .str t)]

def isTrue : Option (Json ν) → Bool
  | some (.bool b) => b
  | _ => false

def intentKeys : List String :=
  ["type", "properties", "items", "prefixItems", "enum", "const", "$ref", "additionalProperties",
    "patternProperties", "required", "not", "if", "then", "else"]

def combinerKeys : List String := ["anyOf", "oneOf", "allOf"]

def hasCombiner (o : Fields ν) : Bool :=
  combinerKeys.any fun k => (elements (find k o)).isSome

def hasIntent (node : Json ν) : Bool :=
  match node with
  | .obj o => hasCombiner o || intentKeys.any fun k => (find k o).isSome
  | _ => false

variable (serde : Serde ν)

def enumMemberToString (v : Json ν) : Json ν :=
  match v with
  | .str s => .str s
  | .null => .str "null"
  | .num n => .str (serde.print (.num n))
  | .bool b => .str (if b then "true" else "false")
  | other => .str (serde.print other)

/-! ## Inlining references -/

def maxRefDepth : ℕ := 8

/-- The definitions of the root under the references that name them. -/
def definitions (root : Json ν) : Fields ν :=
  match root with
  | .obj o => ["$defs", "definitions"].foldl (fun defs key =>
      ((entries (find key o)).getD []).foldl
        (fun defs e => mapInsert ("#/" ++ key ++ "/" ++ e.1) e.2 defs) defs) []
  | _ => []

def generic (node : Fields ν) : Json ν :=
  .obj (putSome "description" (find "description" node) [("type", .str "object")])

def inlineRef (defs : Fields ν) (deref : List String × Json ν → Json ν) (stack : List String)
    (node : Fields ν) (target : String) : Json ν :=
  match find target defs with
  | none => generic node
  | some definition =>
      if maxRefDepth ≤ stack.length ∨ target ∈ stack then generic node
      else match deref (stack ++ [target], definition) with
        | .obj r => .obj (node.foldl (fun r e =>
            if e.1 = "$ref" then r else mapInsert e.1 (deref (stack, e.2)) r) r)
        | resolved => resolved

def derefBody (defs : Fields ν) (deref : List String × Json ν → Json ν) :
    List String × Json ν → Json ν
  | (stack, .arr items) => .arr (items.map fun n => deref (stack, n))
  | (stack, .obj o) =>
      match find "$ref" o with
      | some (.str target) => inlineRef defs deref stack o target
      | _ => .obj (o.map fun e => (e.1, deref (stack, e.2)))
  | (_, other) => other

/-- Following a reference leaves one place fewer on the stack, every other call a subvalue. -/
def derefMeasure (defs : Fields ν) (p : List String × Json ν) : ℕ :=
  (maxRefDepth - p.1.length) * (depth (.obj defs) + 1) + depth p.2

def deref (defs : Fields ν) : List String × Json ν → Json ν :=
  run (derefMeasure defs) (derefBody defs) Prod.snd

def resolveRefs (root : Json ν) : Json ν :=
  match deref (definitions root) ([], root) with
  | .obj o => .obj (remove "definitions" (remove "$defs" o))
  | out => out

/-! ## Sanitizing keywords -/

def inferType (o : Fields ν) : String :=
  let has (keys : List String) := keys.any fun k => (find k o).isSome
  if has ["properties", "required", "additionalProperties", "patternProperties"] then "object"
  else if has ["items", "prefixItems"] then "array"
  else if has ["minimum", "maximum", "exclusiveMinimum", "exclusiveMaximum", "multipleOf"] then
    "number"
  else match find "const" o with
    | some (.bool _) => "boolean"
    | some (.num n) => if serde.isInteger n then "integer" else "number"
    | some _ => "string"
    | none =>
        match text (find "format" o) with
        | some f =>
            if f ∈ ["int32", "int64"] then "integer"
            else if f ∈ ["float", "double"] then "number"
            else "string"
        | none => "string"

def schemaKeys : List String :=
  ["items", "additionalProperties", "not", "if", "then", "else", "contains", "propertyNames"]

def schemaListKeys : List String := ["anyOf", "oneOf", "allOf", "prefixItems"]

def schemaMapKeys : List String :=
  ["properties", "patternProperties", "$defs", "definitions", "dependentSchemas"]

def typeKeywords (ty : String) : List String :=
  if ty = "object" then ["properties", "required", "additionalProperties", "patternProperties"]
  else if ty = "array" then ["items", "prefixItems", "minItems", "maxItems"]
  else if ty = "string" then ["format", "minLength", "maxLength", "pattern"]
  else if ty ∈ ["integer", "number"] then ["format", "minimum", "maximum", "multipleOf"]
  else []

def sanitizeEntry (sanitize : Json ν → Json ν) (key : String) (v : Json ν) : Json ν :=
  if key ∈ schemaKeys then sanitize v
  else if key ∈ schemaListKeys then
    match v with
    | .arr a => .arr (a.map sanitize)
    | v => v
  else if key ∈ schemaMapKeys then
    match v with
    | .obj m => .obj (m.map fun e => (e.1, sanitize e.2))
    | v => v
  else v

/-- Enums become enums of strings, a `const` an enum of one member, and the type follows. -/
def stringEnum (result : Fields ν) : Fields ν :=
  let result := match find "enum" result with
    | some (.arr members) => mapInsert "enum" (.arr (members.map (enumMemberToString serde))) result
    | _ =>
        match find "const" result with
        | some c => mapInsert "enum" (.arr [enumMemberToString serde c]) (remove "const" result)
        | none => result
  if (elements (find "enum" result)).isSome ∧
      typeStr result ∈ [some "integer", some "number", some "boolean"] then
    mapInsert "type" (.str "string") result
  else result

/-- The keywords of a node that go to its member of one type. -/
def movedKeys (result : Fields ν) (t : String) : List String :=
  (typeKeywords t ++ if t = "string" then ["enum"] else []).filter fun k => (find k result).isSome

def typeMember (result : Fields ν) (t : String) : Json ν :=
  .obj ((movedKeys result t).foldl (fun m k => putSome k (find k result) m) [("type", .str t)])

def setNullable (hasNull : Bool) (result : Fields ν) : Fields ν :=
  if hasNull then mapInsert "nullable" (.bool true) result else result

/-- A list of types becomes an `anyOf` of one member each; `again` sanitizes the members. -/
def splitTypes (again : Json ν → Json ν) (result : Fields ν) : Fields ν :=
  match find "type" result with
  | some (.arr types) =>
      let hasNull := types.any fun t => decide (asStr t = some "null")
      let nonNull := (types.filterMap asStr).filter fun t => decide (t ≠ "null")
      if nonNull = [] then mapInsert "type" (.str "null") result
      else if (find "anyOf" result).isSome then setNullable hasNull (remove "type" result)
      else
        let result := remove "type" result
        let members := nonNull.map fun t => again (typeMember result t)
        let result := (nonNull.flatMap (movedKeys result)).foldl (fun r k => remove k r) result
        setNullable hasNull (mapInsert "anyOf" (.arr members) result)
  | _ => result

def declaredRequired (result : Fields ν) : Fields ν :=
  match find "properties" result, find "required" result with
  | some (.obj props), some (.arr required) =>
      mapInsert "required" (.arr (required.filter fun r =>
        (asStr r).any fun s => (find s props).isSome)) result
  | _, _ => result

/-- An `items` that says nothing about its values is one of strings. -/
def describedItems (items : Json ν) : Json ν :=
  match items with
  | .obj o => if hasIntent (.obj o) then .obj o else .obj (mapInsert "type" (.str "string") o)
  | other => other

def arrayItems (result : Fields ν) : Fields ν :=
  let items := match find "items" result with
    | none | some .null => .obj []
    | some other => other
  mapInsert "items" (describedItems items) (remove "items" result)

/-- Scalars without a combiner carry no `properties` and no `required`. -/
def bareScalar (ty : Option String) (combiner : Bool) (o : Fields ν) : Fields ν :=
  if ty ≠ none ∧ ty ≠ some "object" ∧ combiner = false then
    remove "required" (remove "properties" o)
  else o

/-- A node without a type and without a combiner gets the type its keywords imply. -/
def giveInferred (result : Fields ν) : Fields ν :=
  if typeStr result = none ∧ hasCombiner result = false then
    mapInsert "type" (.str (inferType serde result)) result
  else result

def settleKeys (ty : Option String) (combiner : Bool) (result : Fields ν) : Fields ν :=
  let result := if ty = some "object" then declaredRequired result else result
  let result := if ty = some "array" ∧ combiner = false then arrayItems result else result
  bareScalar ty combiner result

def sanitizeNode (again : Json ν → Json ν) (result : Fields ν) : Fields ν :=
  let result := splitTypes again (stringEnum serde result)
  let combiner := hasCombiner result
  let result := giveInferred serde result
  settleKeys (typeStr result) combiner result

/-- The members that a list of types gives rise to are sanitized by `again`. -/
def sanitizeBody (again sanitize : Json ν → Json ν) : Json ν → Json ν
  | .arr items => .arr (items.map sanitize)
  | .obj o => .obj (sanitizeNode serde again (o.map fun e => (e.1, sanitizeEntry sanitize e.1 e.2)))
  | other => other

def sanitizeOnce (again : Json ν → Json ν) : Json ν → Json ν :=
  run depth (sanitizeBody serde again) id

/-- A member of one type holds sanitized values alone, in which no list of types is left. -/
def sanitize : Json ν → Json ν := sanitizeOnce serde (sanitizeOnce serde id)

/-! ## Copying the keys of the dialect -/

def truthyStr (v : Option (Json ν)) : Option (Json ν) :=
  v.filter fun v => (asStr v).all fun s => decide (s ≠ "")

def truthy : Option (Json ν) → Bool
  | none | some .null => false
  | some (.bool b) => b
  | some (.str s) => decide (s ≠ "")
  | some (.num n) => serde.nonzero n
  | some _ => true

/-- An object schema that declares nothing. -/
def isEmptyObject (o : Fields ν) : Bool :=
  decide (typeStr o = some "object") &&
    ((entries (find "properties" o)).all fun p => p.isEmpty) &&
    !truthy serde (find "additionalProperties" o)

def formatAllowed (ty : Option String) (format : String) : Bool :=
  if ty = some "string" then decide (format ∈ ["enum", "date-time"])
  else if ty = some "integer" then decide (format ∈ ["int32", "int64"])
  else if ty = some "number" then decide (format ∈ ["float", "double"])
  else false

def notNull (v : Json ν) : Bool :=
  match v with
  | .null => false
  | _ => true

def nullableKey (o : Fields ν) : Option (Json ν) :=
  if isTrue (find "nullable" o) then some (.bool true) else none

def emptyObject (o : Fields ν) : Fields ν :=
  putSome "nullable" (nullableKey o)
    (putSome "description" (truthyStr (find "description" o)) [("type", .str "object")])

def convertAll (convert : Json ν → Option (Json ν)) (members : List (Json ν)) : Json ν :=
  .arr (members.filterMap convert)

def isNullSchema (v : Json ν) : Bool :=
  match v with
  | .obj o => decide (typeStr o = some "null")
  | _ => false

/-- The entries of an object override those that are there. -/
def extend (out converted : Fields ν) : Fields ν :=
  converted.foldr (fun e m => mapInsert e.1 e.2 m) out

def convertAnyOf (convert : Json ν → Option (Json ν)) (out : Fields ν) (members : List (Json ν)) :
    Fields ν :=
  if ¬ members.any isNullSchema then mapInsert "anyOf" (convertAll convert members) out
  else match members.filter fun m => !isNullSchema m with
    | [only] =>
        match convert only with
        | some (.obj converted) => extend (mapInsert "nullable" (.bool true) out) converted
        | _ => out
    | nonNull => mapInsert "nullable" (.bool true) (mapInsert "anyOf" (convertAll convert nonNull) out)

def convertProperties (convert : Json ν → Option (Json ν)) (o : Fields ν) : Option (Json ν) :=
  (entries (find "properties" o)).map fun props =>
    .obj (mapEntries (fun _ v => convert v) props)

def convertItems (convert : Json ν → Option (Json ν)) (o : Fields ν) : Option (Json ν) :=
  match find "items" o with
  | some (.arr items) => some (.arr (items.filterMap convert))
  | some .null | none => none
  | some items => convert items

/-- The keys that are written before the members of an `anyOf` are looked at. -/
def ownKeys (convert : Json ν → Option (Json ν)) (o : Fields ν) : Fields ν :=
  let out := putSome "description" (truthyStr (find "description" o)) []
  let out := putSome "required" ((find "required" o).filter notNull) out
  let ty := typeStr o
  let out := putSome "format" (((text (find "format" o)).filter (formatAllowed ty)).map .str) out
  let out := putSome "enum" ((find "const" o).map fun c => .arr [c]) out
  let out := putSome "type" (ty.map .str) out
  let out := putSome "enum" (find "enum" o) out
  let out := putSome "nullable" (nullableKey o) out
  let out := putSome "properties" (convertProperties convert o) out
  let out := putSome "items" (convertItems convert o) out
  putSome "allOf" ((elements (find "allOf" o)).map (convertAll convert)) out

def openapiNode (convert : Json ν → Option (Json ν)) (o : Fields ν) : Fields ν :=
  let out := ownKeys convert o
  let out := match find "anyOf" o with
    | some (.arr members) => convertAnyOf convert out members
    | _ => out
  let out := putSome "oneOf" ((elements (find "oneOf" o)).map (convertAll convert)) out
  putSome "minLength" (find "minLength" o) out

def openapiBody (isRoot : Bool) (convert : Json ν → Option (Json ν)) : Json ν → Option (Json ν)
  | .null => none
  | .bool allowed => if allowed then some (typed "string") else none
  | .obj o =>
      if isEmptyObject serde o then if isRoot then none else some (.obj (emptyObject o))
      else some (.obj (openapiNode convert o))
  | _ => none

/-- Below the root. -/
def nested : Json ν → Option (Json ν) := run depth (openapiBody serde false) fun _ => none

def toOpenapi (node : Json ν) (isRoot : Bool) : Option (Json ν) :=
  openapiBody serde isRoot (nested serde) node

/-! ## Repairing the declaration -/

def giveType (o : Fields ν) : Fields ν :=
  if find "type" o = none ∧ hasCombiner o = false then mapInsert "type" (.str "string") o else o

/-- Enums are string enums. -/
def fixEnum (o : Fields ν) : Fields ν :=
  match find "enum" o with
  | some (.arr members) =>
      mapInsert "type" (.str "string")
        (mapInsert "enum" (.arr (members.map (enumMemberToString serde))) o)
  | _ => o

def giveItems (ty : Option String) (o : Fields ν) : Fields ν :=
  if ty = some "array" ∧ ((find "items" o).all fun v => !notNull v) = true then
    mapInsert "items" (typed "string") o
  else o

def fixFormat (ty : Option String) (o : Fields ν) : Fields ν :=
  match find "format" o with
  | some (.str f) => if formatAllowed ty f then o else remove "format" o
  | _ => o

/-- What is set right at a node before its children are. -/
def fixNode (o : Fields ν) : Fields ν :=
  let combiner := hasCombiner o
  let o := fixEnum serde (giveType o)
  let ty := typeStr o
  fixFormat ty (bareScalar ty combiner (giveItems ty o))

/-- The children are repaired in place, each key by itself. -/
def repairEntry (repair : Json ν → Json ν) (key : String) (v : Json ν) : Json ν :=
  if key = "properties" then
    match v with
    | .obj props => .obj (props.map fun e => (e.1, repair e.2))
    | v => v
  else if key = "items" then
    match v with
    | .arr tuple => .arr (tuple.map repair)
    | items => repair items
  else if key ∈ combinerKeys then
    match v with
    | .arr members => .arr (members.map repair)
    | v => v
  else v

def repairChildren (repair : Json ν → Json ν) (o : Fields ν) : Fields ν :=
  o.map fun e => (e.1, repairEntry repair e.1 e.2)

/-- `required` is cut to what is left of `properties`. -/
def reconcile (o : Fields ν) : Fields ν :=
  let declared := (entries (find "properties" o)).map fun props => props.map Prod.fst
  let o := match find "required" o with
    | some (.arr req) =>
        mapInsert "required" (.arr (match declared with
          | some names => req.filter fun r => (asStr r).any fun s => decide (s ∈ names)
          | none => [])) o
    | _ => o
  if declared = none ∧ ((elements (find "required" o)).any fun req => req.isEmpty) = true then
    remove "required" o
  else o

def repairBody (repair : Json ν → Json ν) : Json ν → Json ν
  | .obj o => .obj (reconcile (repairChildren repair (fixNode serde o)))
  | other => other

/-- An array may be given items as deep as itself, but these are no array. -/
def repairMeasure : Json ν → ℕ
  | .obj o => 2 * depth (.obj o) + if typeStr o = some "array" then 1 else 0
  | other => 2 * depth other

def repair : Json ν → Json ν := run repairMeasure (repairBody serde) id

def convert (schema : Json ν) : Option (Json ν) :=
  match schema with
  | .obj o =>
      if hasIntent schema = false ∧ hasCombiner o = false then none
      else match toOpenapi serde (sanitize serde (resolveRefs schema)) true with
        | none => none
        | some out =>
            let out := repair serde out
            if text (get? out "type") = some "object" then some out else none
  | _ => none

end FerrisScope.GeminiSchema
