import Mathlib.Data.List.Basic

/-!
# Go reflection, as far as `schema.go` reads it

`schema.go` never looks at Go types and values itself: it asks package `reflect`.  This file
models the answers it uses.

A Go type is a `TypeId` into a `TypeEnv`.  Named types may refer to themselves through
pointers and slices (`type T struct{ Next *T }`), so the environment is a graph rather than a
tree.  What Go does forbid is a type that contains itself *by value*; `TypeEnv.depth` records
that rule, and it is what makes the recursion over embedded fields terminate.

A Go value is a `Value`: the zero `reflect.Value{}` (`invalid`), or a type together with
`Data`, a finite tree.  Unexported fields are kept as data too, because `IsZero` reads them;
the traversal never dereferences them.

Where `reflect` panics the operations return `Except.error` with the panic's text.  They
dispatch on the shape of the data; for a value that is well typed (`HasType`) the shape is the
one its kind prescribes.
-/

namespace ParquetGo.Reflect

/-- `reflect.Kind`. -/
inductive Kind where
  | invalid | bool | int | int8 | int16 | int32 | int64
  | uint | uint8 | uint16 | uint32 | uint64 | uintptr
  | float32 | float64 | complex64 | complex128
  | array | chan | func | interface | map | ptr | slice | string | struct | unsafePointer
  deriving DecidableEq, Repr

/-- `Kind.String`. -/
def Kind.toString : Kind → String
  | .invalid => "invalid" | .bool => "bool" | .int => "int" | .int8 => "int8"
  | .int16 => "int16" | .int32 => "int32" | .int64 => "int64" | .uint => "uint"
  | .uint8 => "uint8" | .uint16 => "uint16" | .uint32 => "uint32" | .uint64 => "uint64"
  | .uintptr => "uintptr" | .float32 => "float32" | .float64 => "float64"
  | .complex64 => "complex64" | .complex128 => "complex128" | .array => "array"
  | .chan => "chan" | .func => "func" | .interface => "interface" | .map => "map"
  | .ptr => "ptr" | .slice => "slice" | .string => "string" | .struct => "struct"
  | .unsafePointer => "unsafe.Pointer"

/-- `Type.Bits`, on a 64-bit platform, for the sized kinds (the only ones it is called on). -/
def Kind.bits : Kind → Nat
  | .int8 | .uint8 => 8
  | .int16 | .uint16 => 16
  | .int32 | .uint32 | .float32 => 32
  | .complex128 => 128
  | _ => 64

/-- A type, by its position in the environment. -/
abbrev TypeId := Nat

/-- `reflect.StructTag`: the `key:"value"` pairs of a field's tag, in order. -/
structure StructTag where
  pairs : List (String × String)
  deriving DecidableEq, Repr

/-- `StructTag.Get`: the value of the first pair with this key, or `""`. -/
def StructTag.get (tag : StructTag) (key : String) : String :=
  match tag.pairs.find? (·.1 == key) with
  | some (_, value) => value
  | none => ""

/-- `string(tag)`: the conventional form `key:"value" key:"value"`. -/
def StructTag.toString (tag : StructTag) : String :=
  " ".intercalate (tag.pairs.map fun (key, value) => key ++ ":\"" ++ value ++ "\"")

/-- `reflect.StructField`: the parts of it that the schema code reads. -/
structure StructField where
  name : String
  type : TypeId
  tag : StructTag
  index : List Nat
  anonymous : Bool
  /-- `IsExported`: the field's `PkgPath` is empty. -/
  exported : Bool
  deriving DecidableEq, Repr

/-- What `reflect.Type` answers for one type.  `elem` is meaningful for arrays, maps,
pointers and slices, `key` for maps, `len` for arrays and `fields` for structs. -/
structure TypeDesc where
  kind : Kind
  name : String
  string : String
  elem : TypeId := 0
  key : TypeId := 0
  len : Nat := 0
  fields : List StructField := []
  deriving Repr

/-- The types of a Go program.  `int96` is `reflect.TypeOf(deprecated.Int96{})`.  `depth`
witnesses that no struct contains itself by value: every field's type is shallower than the
struct. -/
structure TypeEnv where
  desc : TypeId → TypeDesc
  int96 : TypeId
  depth : TypeId → Nat
  depth_field : ∀ t, ∀ f ∈ (desc t).fields, depth f.type < depth t

namespace TypeEnv

variable (env : TypeEnv)

/-- `Type.Kind`. -/
def kind (t : TypeId) : Kind := (env.desc t).kind

/-- `Type.Elem`. -/
def elem (t : TypeId) : TypeId := (env.desc t).elem

/-- `Type.NumField`. -/
def numField (t : TypeId) : Nat := (env.desc t).fields.length

/-- `Type.Field(i)`: the field, whose `Index` is `[i]`. -/
def field (t : TypeId) (i : Nat) : Option StructField :=
  ((env.desc t).fields[i]?).map fun f => { f with index := [i] }

end TypeEnv

/-! ## Values -/

/-- The contents of a Go value, for a value of every kind.  `ptr none`, `slice none` and
`map none` are nil; `nilable` stands for channels, functions, interfaces and unsafe pointers,
of which only nil-ness is observed. -/
inductive Data where
  | bool (b : Bool)
  | int (i : Int)
  | uint (n : Nat)
  | float (bits : Nat)
  | complex (re im : Nat)
  | string (s : String)
  | ptr (target : Option Data)
  | slice (elems : Option (List Data))
  | array (elems : List Data)
  | struct (fields : List Data)
  | map (entries : Option (List (Data × Data)))
  | nilable (isNil : Bool)
  deriving Repr

/-- `Value.IsZero` on a valid value.  Floats are zero when their bits are, so `-0.0` is not. -/
def Data.isZero : Data → Bool
  | .bool b => !b
  | .int i => i == 0
  | .uint n => n == 0
  | .float bits => bits == 0
  | .complex re im => re == 0 && im == 0
  | .string s => s.isEmpty
  | .ptr target => target.isNone
  | .slice elems => elems.isNone
  | .array elems => allZero elems
  | .struct fields => allZero fields
  | .map entries => entries.isNone
  | .nilable isNil => isNil
where
  /-- Every element is zero. -/
  allZero : List Data → Bool
    | [] => true
    | d :: ds => d.isZero && allZero ds

/-- `reflect.Value`: the zero `Value{}`, or a value of a type. -/
inductive Value where
  | invalid
  | valid (type : TypeId) (data : Data)
  deriving Repr

namespace Value

variable (env : TypeEnv)

/-- `Value.IsValid`. -/
def isValid : Value → Bool
  | invalid => false
  | valid _ _ => true

/-- `Value.Kind`. -/
def kind : Value → Kind
  | invalid => .invalid
  | valid t _ => env.kind t

/-- The text of `reflect`'s panic when `method` is called on a value of the wrong kind. -/
def misuse (method : String) (v : Value) : String :=
  "reflect: call of reflect.Value." ++ method ++ " on " ++
    (match v with | invalid => "zero" | valid t _ => (env.kind t).toString) ++ " Value"

/-- `Value.Elem` on a pointer: the pointee, or the zero `Value` for nil. -/
def elem : Value → Except String Value
  | valid _ (.ptr none) => .ok invalid
  | valid t (.ptr (some d)) => .ok (valid (env.elem t) d)
  | v => .error (misuse env "Elem" v)

/-- `Value.Len`. -/
def len : Value → Except String Nat
  | valid _ (.slice elems) => .ok ((elems.getD []).length)
  | valid _ (.array elems) => .ok elems.length
  | valid _ (.string s) => .ok s.utf8ByteSize
  | valid _ (.map entries) => .ok ((entries.getD []).length)
  | v => .error (misuse env "Len" v)

/-- `Value.IsNil`. -/
def isNil : Value → Except String Bool
  | valid _ (.ptr target) => .ok target.isNone
  | valid _ (.slice elems) => .ok elems.isNone
  | valid _ (.map entries) => .ok entries.isNone
  | valid _ (.nilable isNil) => .ok isNil
  | v => .error (misuse env "IsNil" v)

/-- `Value.Index(i)` on a slice or an array. -/
def index (i : Nat) : Value → Except String Value
  | valid t (.slice elems) =>
      match (elems.getD [])[i]? with
      | some d => .ok (valid (env.elem t) d)
      | none => .error "reflect: slice index out of range"
  | valid t (.array elems) =>
      match elems[i]? with
      | some d => .ok (valid (env.elem t) d)
      | none => .error "reflect: array index out of range"
  | v => .error (misuse env "Index" v)

/-- `Value.Field(i)`. -/
def field (i : Nat) : Value → Except String Value
  | valid t (.struct fields) =>
      match fields[i]?, env.field t i with
      | some d, some f => .ok (valid f.type d)
      | _, _ => .error "reflect: Field index out of range"
  | v => .error (misuse env "Field" v)

/-- The loop of `Value.FieldByIndex`: before every step but the first, a pointer to an
embedded struct is dereferenced. -/
def fieldByIndexLoop : List Nat → Value → Except String Value
  | [], v => .ok v
  | x :: xs, v => do
      let v ← match v with
        | valid t (.ptr target) =>
            if env.kind (env.elem t) = .struct then
              match target with
              | none => .error "reflect: indirection through nil pointer to embedded struct"
              | some d => .ok (valid (env.elem t) d)
            else .ok v
        | _ => .ok v
      fieldByIndexLoop xs (← v.field env x)

/-- `Value.FieldByIndex`. -/
def fieldByIndex (v : Value) : List Nat → Except String Value
  | [i] => v.field env i
  | [] => if v.kind env = .struct then .ok v else .error (misuse env "FieldByIndex" v)
  | i :: rest =>
      if v.kind env = .struct then do fieldByIndexLoop env rest (← v.field env i)
      else .error (misuse env "FieldByIndex" v)

/-- `Value.MapIndex` with a string key: the zero `Value` when the key is absent. -/
def mapIndex (key : String) : Value → Except String Value
  | valid t (.map entries) =>
      if env.kind (env.desc t).key ≠ .string then
        .error ("reflect.Value.MapIndex: value of type string is not assignable to type " ++
          (env.desc (env.desc t).key).string)
      else
        match (entries.getD []).find? (fun e => match e.1 with
            | .string k => k == key
            | _ => false) with
        | some (_, d) => .ok (valid (env.elem t) d)
        | none => .ok invalid
  | v => .error (misuse env "MapIndex" v)

@[simp] theorem isValid_invalid : isValid invalid = false := rfl
@[simp] theorem isValid_valid (t : TypeId) (d : Data) : isValid (valid t d) = true := rfl

end Value

/-! ## Typing -/

/-- `HasType env d t`: `d` is the contents of a value of Go type `t`. -/
inductive HasType (env : TypeEnv) : Data → TypeId → Prop
  | bool {t b} : env.kind t = .bool → HasType env (.bool b) t
  | int {t i} : env.kind t ∈ [.int, .int8, .int16, .int32, .int64] → HasType env (.int i) t
  | uint {t n} : env.kind t ∈ [.uint, .uint8, .uint16, .uint32, .uint64, .uintptr] →
      HasType env (.uint n) t
  | float {t bits} : env.kind t ∈ [.float32, .float64] → HasType env (.float bits) t
  | complex {t re im} : env.kind t ∈ [.complex64, .complex128] → HasType env (.complex re im) t
  | string {t s} : env.kind t = .string → HasType env (.string s) t
  | ptr {t target} : env.kind t = .ptr →
      (∀ d, target = some d → HasType env d (env.elem t)) → HasType env (.ptr target) t
  | slice {t elems} : env.kind t = .slice →
      (∀ d ∈ elems.getD [], HasType env d (env.elem t)) → HasType env (.slice elems) t
  | array {t elems} : env.kind t = .array → elems.length = (env.desc t).len →
      (∀ d ∈ elems, HasType env d (env.elem t)) → HasType env (.array elems) t
  | struct {t fields} : env.kind t = .struct → fields.length = env.numField t →
      (∀ p ∈ fields.zip (env.desc t).fields, HasType env p.1 p.2.type) →
      HasType env (.struct fields) t
  | map {t entries} : env.kind t = .map →
      (∀ e ∈ entries.getD [], HasType env e.1 (env.desc t).key) →
      (∀ e ∈ entries.getD [], HasType env e.2 (env.elem t)) → HasType env (.map entries) t
  | nilable {t isNil} : env.kind t ∈ [.chan, .func, .interface, .unsafePointer] →
      HasType env (.nilable isNil) t

end ParquetGo.Reflect
