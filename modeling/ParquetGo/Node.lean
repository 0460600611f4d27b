import Mathlib.Data.String.Basic
import ParquetGo.Reflect

/-!
# Parquet nodes

A schema is a tree of `Node`s.  `schema.go` defines one kind of node itself, `*structNode`, with
its by-name and by-index lookups (`ChildByName`, `indexOf`, `ValueByName`, `ValueByIndex`); the
interface and every other node (leaves, `Group`, the `List` node, and the decorations
`Optional`, `Repeated`, `Required`, `Encoded`, `Compressed`) live in files that are not in
`src/`.  Those are modelled from the spec: "a small closed set of variants (Leaf, Group,
Decorated{inner, decoration})", each decoration wrapping an inner node.

A decoration answers the queries of its own class and passes every other query to the node it
wraps, as Go's struct embedding does.  So a cardinality decoration (`optionalNode`,
`repeatedNode`, `requiredNode`) decides `optional`, `repeated` and `required` for the whole
stack beneath it, and whatever cardinality the wrapped node had is no longer visible through
the interface.  The traversal compiler asks `required node` for "the inner required node" of
an optional or repeated node; the proofs of `Proofs/Shapes.lean` show what this hides.
-/

namespace ParquetGo

/-- Modelled from the spec: the physical kinds of parquet values (`Kind`). -/
inductive Kind where
  | boolean | int32 | int64 | int96 | float | double | byteArray | fixedLenByteArray
  deriving DecidableEq, Repr

/-- Modelled from the spec: the logical type annotations a node can carry. -/
inductive LogicalType where
  | string
  | enum
  | uuid
  | decimal (scale precision : Int)
  | integer (bitWidth : Nat) (isSigned : Bool)
  | list
  deriving DecidableEq, Repr

/-- Modelled from the spec: a node's `Type` — a physical kind with an optional logical type,
or the type of a group, or the type of a `LIST` group. -/
inductive ParquetType where
  | leaf (kind : Kind) (logicalType : Option LogicalType)
  | group
  | list
  deriving DecidableEq, Repr

/-- Modelled from the spec: `Type.Kind`.  A group has no physical kind; asking for it panics. -/
def ParquetType.kind : ParquetType → Except String Kind
  | .leaf kind _ => .ok kind
  | .group => .error "cannot call Kind on parquet group"
  | .list => .error "cannot call Kind on parquet LIST type"

/-- Modelled from the spec: `Type.LogicalType`. -/
def ParquetType.logicalType : ParquetType → Option LogicalType
  | .leaf _ logicalType => logicalType
  | .group => none
  | .list => some .list

/-- Modelled from the spec: the encodings a tag can declare (`Plain`, `RLEDictionary`,
`DeltaBinaryPacked`), told apart by their `Encoding()` code. -/
inductive Encoding where
  | plain | rleDictionary | deltaBinaryPacked
  deriving DecidableEq, Repr

/-- Modelled from the spec: the compression codecs a tag can declare (`Snappy`, `Gzip`,
`Brotli`, `Lz4Raw`, `Zstd`), told apart by their `CompressionCodec()` code. -/
inductive Codec where
  | snappy | gzip | brotli | lz4Raw | zstd
  deriving DecidableEq, Repr

/-- A schema node.  `structNode` is `*structNode` of `schema.go`: its fields, each a node with
the index path that `FieldByIndex` follows, and their names, which the builder sorts.  The
other constructors are modelled from the spec: `leaf` (`Leaf` and the typed leaves), `group`
(`Group`, a map kept as a list sorted by name), `listNode` (the group `List` builds, whose type
carries the `LIST` logical type) and the five decorations. -/
inductive Node where
  | leaf (kind : Kind) (logicalType : Option LogicalType)
  | group (children : List (String × Node))
  | structNode (fields : List (Node × List Nat)) (names : List String)
  | listNode (group : Node)
  | optionalNode (node : Node)
  | repeatedNode (node : Node)
  | requiredNode (node : Node)
  | encodedNode (node : Node) (encodings : List Encoding)
  | compressedNode (node : Node) (codecs : List Codec)
  deriving Repr

/-! ## Constructors -/

/-- Modelled from the spec: `Leaf(typ)`. -/
def leaf (kind : Kind) : Node := .leaf kind none

/-- Modelled from the spec: `Int(bitWidth)`, a signed integer leaf, physically `INT64` for
64 bits and `INT32` below. -/
def int (bitWidth : Nat) : Node :=
  .leaf (if bitWidth = 64 then .int64 else .int32) (some (.integer bitWidth true))

/-- Modelled from the spec: `Uint(bitWidth)`. -/
def uint (bitWidth : Nat) : Node :=
  .leaf (if bitWidth = 64 then .int64 else .int32) (some (.integer bitWidth false))

/-- Modelled from the spec: `String()`. -/
def string : Node := .leaf .byteArray (some .string)

/-- Modelled from the spec: `Enum()`. -/
def enum : Node := .leaf .byteArray (some .enum)

/-- Modelled from the spec: `UUID()`, a 16-byte fixed-length leaf. -/
def uuid : Node := .leaf .fixedLenByteArray (some .uuid)

/-- Modelled from the spec: `Decimal(scale, precision, typ)` on the physical kind of `typ`. -/
def decimal (scale precision : Int) (baseType : Kind) : Node :=
  .leaf baseType (some (.decimal scale precision))

/-- Modelled from the spec: `Optional(node)`.  It never fails, also on a node that is already
optional, where the spec's constructor fails; the model accepts those schemas too. -/
def optional (node : Node) : Node := .optionalNode node

/-- Modelled from the spec: `Repeated(node)`.  Like `optional`, it never fails, also on a node
that is already repeated. -/
def repeated (node : Node) : Node := .repeatedNode node

/-- Modelled from the spec: `Required(node)`. -/
def required (node : Node) : Node := .requiredNode node

/-- Modelled from the spec: `Encoded(node, encodings...)`. -/
def encoded (node : Node) (encodings : List Encoding) : Node := .encodedNode node encodings

/-- Modelled from the spec: `Compressed(node, codecs...)`. -/
def compressed (node : Node) (codecs : List Codec) : Node := .compressedNode node codecs

/-- Modelled from the spec: `List(of)`, the three-level `LIST` shape: a group whose only child
`list` is a repeated group whose only child `element` is `of`. -/
def list (of : Node) : Node :=
  .listNode (.group [("list", .repeatedNode (.group [("element", of)]))])

/-! ## `*structNode` lookups -/

/-- The loop of `sort.Search`: `fuel` bounds its iterations, and `sortSearch` gives it as
many as the range is wide, which is enough (`search_fuel` below). -/
def search (f : Nat → Bool) : Nat → Nat → Nat → Nat
  | 0, i, _ => i
  | fuel + 1, i, j =>
      if i < j then
        if !f ((i + j) / 2) then search f fuel ((i + j) / 2 + 1) j else search f fuel i ((i + j) / 2)
      else i

/-- `sort.Search(n, f)`: the binary search for the first index in `[0, n)` where `f` holds. -/
def sortSearch (n : Nat) (f : Nat → Bool) : Nat := search f n 0 n

/-- `(*structNode).indexOf`: the position of `name` among the sorted `names`, or `-1`.
Go compares strings byte by byte; for valid UTF-8 that is the lexicographic order of their
characters, `String.data`. -/
def indexOf (names : List String) (name : String) : Int :=
  let i := sortSearch names.length fun i => !decide ((names.getD i "").data < name.data)
  if i = names.length ∨ names.getD i "" ≠ name then -1 else i

/-- Indexing a Go slice with an `int`: out of range, including `-1`, panics. -/
def sliceAt {α : Type} (xs : List α) (index : Int) : Except String α :=
  match if 0 ≤ index then xs[index.toNat]? else none with
  | some x => .ok x
  | none => .error ("runtime error: index out of range [" ++ toString index ++ "]")

/-- `(*structNode).ChildByIndex`. -/
def childByIndex (fields : List (Node × List Nat)) (index : Int) : Except String Node :=
  (sliceAt fields index).map (·.1)

/-- `(*structNode).ValueByIndex`: a map is indexed by the field's name, anything else by the
field's index path (and `FieldByIndex` panics unless it is a struct). -/
def valueByIndex (env : Reflect.TypeEnv) (fields : List (Node × List Nat)) (names : List String)
    (base : Reflect.Value) (index : Int) : Except String Reflect.Value :=
  match base.kind env with
  | .map => do base.mapIndex env (← sliceAt names index)
  | _ => do base.fieldByIndex env (← sliceAt fields index).2

/-! ## The `Node` interface -/

namespace Node

/-- Modelled from the spec: `Optional()`. -/
def optional : Node → Bool
  | optionalNode _ => true
  | repeatedNode _ | requiredNode _ => false
  | encodedNode node _ | compressedNode node _ => node.optional
  | _ => false

/-- Modelled from the spec: `Repeated()`. -/
def repeated : Node → Bool
  | repeatedNode _ => true
  | optionalNode _ | requiredNode _ => false
  | encodedNode node _ | compressedNode node _ => node.repeated
  | _ => false

/-- Modelled from the spec: `Required()`. -/
def required : Node → Bool
  | requiredNode _ => true
  | optionalNode _ | repeatedNode _ => false
  | encodedNode node _ | compressedNode node _ => node.required
  | _ => true

/-- Modelled from the spec: `Type()`; a `*structNode` and a `Group` are groups. -/
def type : Node → ParquetType
  | leaf kind logicalType => .leaf kind logicalType
  | group _ | structNode _ _ => .group
  | listNode _ => .list
  | optionalNode node | repeatedNode node | requiredNode node | encodedNode node _
  | compressedNode node _ => node.type

/-- `NumChildren()`. -/
def numChildren : Node → Nat
  | leaf _ _ => 0
  | group children => children.length
  | structNode fields _ => fields.length
  | listNode node | optionalNode node | repeatedNode node | requiredNode node
  | encodedNode node _ | compressedNode node _ => node.numChildren

/-- `ChildNames()`. -/
def childNames : Node → List String
  | leaf _ _ => []
  | group children => children.map (·.1)
  | structNode _ names => names
  | listNode node | optionalNode node | repeatedNode node | requiredNode node
  | encodedNode node _ | compressedNode node _ => node.childNames

/-- `ChildByName(name)`.  A leaf has no children (Go returns a nil node); a `*structNode`
indexes its fields with `indexOf`, and panics on `-1`. -/
def childByName (name : String) : Node → Except String Node
  | leaf _ _ => .error "runtime error: invalid memory address or nil pointer dereference"
  | group children =>
      match children.find? (·.1 == name) with
      | some (_, child) => .ok child
      | none => .error "runtime error: invalid memory address or nil pointer dereference"
  | structNode fields names => childByIndex fields (indexOf names name)
  | listNode node | optionalNode node | repeatedNode node | requiredNode node
  | encodedNode node _ | compressedNode node _ => node.childByName name

/-- `ValueByName(base, name)`: a `*structNode` goes through `ValueByIndex(indexOf(name))`, a
`Group` indexes a map. -/
def valueByName (env : Reflect.TypeEnv) (base : Reflect.Value) (name : String) :
    Node → Except String Reflect.Value
  | leaf _ _ => .error "cannot call ValueByName on leaf parquet node"
  | group _ => base.mapIndex env name
  | structNode fields names => valueByIndex env fields names base (indexOf names name)
  | listNode node | optionalNode node | repeatedNode node | requiredNode node
  | encodedNode node _ | compressedNode node _ => node.valueByName env base name

/-- Modelled from the spec: `unwrap`, which removes every decoration. -/
def unwrap : Node → Node
  | optionalNode node | repeatedNode node | requiredNode node | encodedNode node _
  | compressedNode node _ => node.unwrap
  | node => node

end Node

/-- Modelled from the spec: `isLeaf`, a node without children. -/
def isLeaf (node : Node) : Bool := node.numChildren == 0

end ParquetGo
