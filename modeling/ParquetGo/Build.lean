import Mathlib.Data.List.Sort
import ParquetGo.Traverse
import ParquetGo.Tag

/-!
# Building a schema from a Go type

`SchemaOf` reflects over a struct type: `structFieldsOf` flattens embedded structs, renames
fields after their tag and sorts them by name; `makeStructField` reads each field's options and
decorates its node; `nodeOf` maps a Go type to a node, and recurses through pointers, slices
and struct fields.  Nothing stops that recursion from coming back to a type it is already
inside, so `nodeOf` takes a `fuel` bound and returns `Abort.outOfFuel` where Go would recurse
for ever (`Proofs/Termination.lean`).  `appendStructFields` recurses only into embedded structs,
which Go does not let contain themselves: the environment's `depth` is enough fuel for it.
-/

namespace ParquetGo

open Reflect (TypeEnv TypeId StructField)

section

variable (env : TypeEnv)

/-! ## Fields -/

/-- `appendStructFields`: the exported fields of `t` after `fields`, each with its index path
from the outer struct, embedded structs contributing their own fields in place. -/
def appendStructFields : Nat → TypeId → List StructField → List Nat → Build (List StructField)
  | 0, _, _, _ => throw .outOfFuel
  | fuel + 1, t, fields, index =>
      if env.kind t = .struct then
        (env.desc t).fields.enum.foldlM (fun fields (i, f) =>
            if f.anonymous then appendStructFields fuel f.type fields (index ++ [i])
            else if f.exported then pure (fields ++ [{ f with index := index ++ [i] }])
            else pure fields) fields
      else throw (.panic ("reflect: NumField of non-struct type " ++ (env.desc t).string))

/-- The name a field resolves to: the first element of its `parquet` tag, unless empty. -/
def resolvedName (f : StructField) : String :=
  match f.tag.get "parquet" with
  | "" => f.name
  | tag => if (split tag).1 = "" then f.name else (split tag).1

/-- `structFieldsOf`: the flattened fields, renamed after their tags and sorted by name.
`sort.Slice` is not stable, but on distinct names every sort gives the same order; the model
uses insertion sort, which keeps fields of equal names in declaration order. -/
def structFieldsOf (t : TypeId) : Build (List StructField) := do
  let fields ← appendStructFields env (env.depth t + 1) t [] []
  pure ((fields.map fun f => { f with name := resolvedName f }).insertionSort
    fun a b => a.name.data ≤ b.name.data)

/-! ## Field options -/

/-- `structFieldString`. -/
def structFieldString (f : StructField) : String :=
  f.name ++ " " ++ (env.desc f.type).string ++ " " ++ f.tag.toString

/-- `throwInvalidFieldTag`. -/
def throwInvalidFieldTag {α : Type} (f : StructField) (tag : String) : Build α :=
  throw (.panic ("struct has invalid '" ++ tag ++ "' parquet tag: " ++ structFieldString env f))

/-- `throwUnknownFieldTag`. -/
def throwUnknownFieldTag {α : Type} (f : StructField) (tag : String) : Build α :=
  throw (.panic ("struct has unrecognized '" ++ tag ++ "' parquet tag: " ++
    structFieldString env f))

/-- `throwInvalidStructField`. -/
def throwInvalidStructField {α : Type} (msg : String) (f : StructField) : Build α :=
  throw (.panic (msg ++ ": " ++ structFieldString env f))

/-- The locals of `makeStructField` that its options set: `field.Node`, `optional`, `list`,
`encodings`, `codecs`. -/
structure FieldOptions where
  node : Option Node := none
  optional : Bool := false
  list : Bool := false
  encodings : List Encoding := []
  codecs : List Codec := []

/-- What the `set*` closures of `makeStructField` share: a second declaration panics with
`msg`, the first one makes its update. -/
def declareOnce (f : StructField) (declared : Bool) (msg : String) (update : FieldOptions) :
    Build FieldOptions :=
  if declared then throwInvalidStructField env msg f else pure update

/-- `setNode`. -/
def setNode (f : StructField) (node : Node) (s : FieldOptions) : Build FieldOptions :=
  declareOnce env f s.node.isSome "struct field has multiple logical parquet types declared"
    { s with node := some node }

/-- `setOptional`. -/
def setOptional (f : StructField) (s : FieldOptions) : Build FieldOptions :=
  declareOnce env f s.optional "struct field has multiple declaration of the optional tag"
    { s with optional := true }

/-- `setList`. -/
def setList (f : StructField) (s : FieldOptions) : Build FieldOptions :=
  declareOnce env f s.list "struct field has multiple declaration of the list tag"
    { s with list := true }

/-- `setEncoding`. -/
def setEncoding (f : StructField) (enc : Encoding) (s : FieldOptions) : Build FieldOptions :=
  declareOnce env f (enc ∈ s.encodings) "struct field has encoding declared multiple times"
    { s with encodings := s.encodings ++ [enc] }

/-- `setCompression`. -/
def setCompression (f : StructField) (codec : Codec) (s : FieldOptions) : Build FieldOptions :=
  declareOnce env f (codec ∈ s.codecs)
    "struct field has compression codecs declared multiple times"
    { s with codecs := s.codecs ++ [codec] }

/-- One iteration of the option loop of `makeStructField`: the `switch option`. -/
def applyOption (nodeOf : TypeId → Build Node) (f : StructField) (s : FieldOptions)
    (option args : String) : Build FieldOptions :=
  match option with
  | "optional" => setOptional env f s
  | "snappy" => setCompression env f .snappy s
  | "gzip" => setCompression env f .gzip s
  | "brotli" => setCompression env f .brotli s
  | "lz4" => setCompression env f .lz4Raw s
  | "zstd" => setCompression env f .zstd s
  | "plain" => setEncoding env f .plain s
  | "dict" => setEncoding env f .rleDictionary s
  | "delta" =>
      if env.kind f.type ∈ [.int, .int32, .int64, .uint, .uint32, .uint64] then
        setEncoding env f .deltaBinaryPacked s
      else throwInvalidFieldTag env f option
  | "list" =>
      if env.kind f.type = .slice then do
        let element ← nodeOf (env.elem f.type)
        setList env f (← setNode env f element s)
      else throwInvalidFieldTag env f option
  | "enum" =>
      if env.kind f.type = .string then setNode env f enum s
      else throwInvalidFieldTag env f option
  | "uuid" =>
      match env.kind f.type with
      | .string => setNode env f uuid s
      | .array =>
          if env.kind (env.elem f.type) ≠ .uint8 ∨ (env.desc f.type).len ≠ 16 then
            throwInvalidFieldTag env f option
          else pure s
      | _ => throwInvalidFieldTag env f option
  | "decimal" =>
      match parseDecimalArgs args with
      | .error _ => throwInvalidFieldTag env f (option ++ args)
      | .ok (scale, precision) =>
          match env.kind f.type with
          | .int32 => setNode env f (decimal scale precision .int32) s
          | .int64 => setNode env f (decimal scale precision .int64) s
          | _ => throwInvalidFieldTag env f option
  | _ => throwUnknownFieldTag env f option

/-- The loop over a field's options in `makeStructField`, and the field's node after it: the
node an option declared, or else the node of the field's type, compressed, encoded, wrapped in
`List` and in `Optional`. -/
def structFieldNode (nodeOf : TypeId → Build Node) (f : StructField)
    (options : List (String × String)) : Build Node := do
  let s ← options.foldlM (fun s option => applyOption env nodeOf f s option.1 option.2) {}
  let node ← match s.node with
    | some node => pure node
    | none => nodeOf f.type
  let node := encoded (compressed node s.codecs) s.encodings
  let node := if s.list then list node else node
  pure (if s.optional then optional node else node)

/-- `makeStructField`: the options of the field's tag, after its name, and the node they
lead to. -/
def makeStructField (nodeOf : TypeId → Build Node) (f : StructField) :
    Build (Node × List Nat) := do
  let options := match f.tag.get "parquet" with
    | "" => []
    | tag => tagOptions (split tag).2
  pure (← structFieldNode env nodeOf f options, f.index)

/-! ## Nodes -/

/-- `structNodeOf`, given `nodeOf` for the field types. -/
def structNodeOf (nodeOf : TypeId → Build Node) (t : TypeId) : Build Node := do
  let fields ← structFieldsOf env t
  pure (.structNode (← fields.mapM (makeStructField env nodeOf)) (fields.map (·.name)))

/-- The panic of `nodeOf` on a type it cannot map. -/
def cannotCreate {α : Type} (t : TypeId) : Build α :=
  throw (.panic ("cannot create parquet node from go value of type " ++ (env.desc t).string))

/-- `nodeOf`, with `fuel` bounding the depth of its recursion. -/
def nodeOf : Nat → TypeId → Build Node
  | 0, _ => throw .outOfFuel
  | fuel + 1, t =>
      if t = env.int96 then pure (leaf .int96)
      else match env.kind t with
        | .bool => pure (leaf .boolean)
        | .int | .int64 => pure (int 64)
        | .int8 | .int16 | .int32 => pure (int (env.kind t).bits)
        | .uint | .uintptr | .uint64 => pure (uint 64)
        | .uint8 | .uint16 | .uint32 => pure (uint (env.kind t).bits)
        | .float32 => pure (leaf .float)
        | .float64 => pure (leaf .double)
        | .string => pure string
        | .ptr => optional <$> nodeOf fuel (env.elem t)
        | .struct => structNodeOf env (nodeOf fuel) t
        | .slice => repeated <$> nodeOf fuel (env.elem t)
        | .array =>
            if env.kind (env.elem t) = .uint8 ∧ (env.desc t).len = 16 then pure uuid
            else cannotCreate env t
        | _ => cannotCreate env t

/-! ## Schemas -/

/-- `namedSchemaOf`, for a model value of type `t`: a struct, or a pointer to one. -/
def namedSchemaOf (fuel : Nat) (name : String) (t : TypeId) : Build Schema :=
  if env.kind t = .struct then do newSchema name (← structNodeOf env (nodeOf env fuel) t)
  else if env.kind t = .ptr ∧ env.kind (env.elem t) = .struct then do
    newSchema name (← structNodeOf env (nodeOf env fuel) (env.elem t))
  else throw (.panic ("cannot construct parquet schema from value of type " ++ (env.desc t).string))

/-- `SchemaOf`, for a model value of type `t`, named after the struct type. -/
def schemaOf (fuel : Nat) (t : TypeId) : Build Schema :=
  namedSchemaOf env fuel (env.desc (if env.kind t = .ptr then env.elem t else t)).name t

end

end ParquetGo
