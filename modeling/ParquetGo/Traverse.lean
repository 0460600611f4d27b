import ParquetGo.Node

/-!
# Compiling and running a traversal

`traverseFuncOf` compiles a node into a closure once per schema; the closure walks a Go value
and calls the sink once per leaf value.  Here every closure the Go code can build is a
constructor of `TraverseFunc` (the optional, repeated, group and leaf closures, and the no-op
of `makeTraverseFunc`), and `TraverseFunc.call` runs it: each case is the body of the Go
closure, with the inner closures it captured as the constructor's arguments.

A run is a `TraverseM` computation.  Its state is the list of sink calls made so far, so the
sink may answer according to everything it has been given; its result is the Go `error` (none
for nil); `Except.error` is a panic.  The levels are `int8`, as in Go, and wrap at 128.

`traverseFuncOf` carries a `fuel` bound on its recursion.  `makeTraverseFunc` passes enough
for every node (`Proofs/Compile.lean`), so the model compiles exactly what Go compiles.
-/

namespace ParquetGo

/-- How building a schema ends without a result: a Go panic, with its text, or the model's
recursion budget running out where Go would keep recursing. -/
inductive Abort where
  | panic (message : String)
  | outOfFuel
  deriving DecidableEq, Repr

/-- Schema construction: a result, or an `Abort`. -/
abbrev Build := Except Abort

/-- A panic of Go code, as a failure of schema construction. -/
def orPanic {α : Type} : Except String α → Build α
  | .ok a => .ok a
  | .error message => .error (.panic message)

/-- `levels`. -/
structure Levels where
  repetitionDepth : Int8 := 0
  repetitionLevel : Int8 := 0
  definitionLevel : Int8 := 0
  deriving DecidableEq

/-- A parquet `Value` as a leaf hands it to the sink: a physical kind (none for the null
value) with what it was read from, and the two levels. -/
structure Value where
  kind : Option Kind
  source : Reflect.Value
  repetitionLevel : Int8
  definitionLevel : Int8

/-- `var v Value`, the null value. -/
def Value.null : Value := ⟨none, .invalid, 0, 0⟩

/-- `Value.IsNull`. -/
def Value.isNull (v : Value) : Bool := v.kind.isNone

/-- Modelled from the spec: `makeValue(kind, value)`, which "reads the physical value" of a Go
value.  The model keeps the Go value it reads, so what a leaf closure received stays visible
in what it emits. -/
def makeValue (kind : Kind) (value : Reflect.Value) : Value := ⟨some kind, value, 0, 0⟩

/-- A call of the sink: a column index and a value. -/
abbrev Call := Nat × Value

/-- `Traversal`, the sink.  Its answer to a call may depend on all calls made before it;
`none` is a nil error. -/
def Traversal := List Call → Call → Option String

/-- A traversal in progress: the calls made so far are the state, a panic is an exception. -/
abbrev TraverseM := ExceptT String (StateM (List Call))

/-- Runs a traversal from the calls made before it. -/
def TraverseM.run {α : Type} (x : TraverseM α) (calls : List Call) :
    Except String α × List Call :=
  (ExceptT.run x).run calls

/-- A `reflect` call inside a running closure: its panic is the traversal's. -/
def liftReflect {α : Type} : Except String α → TraverseM α
  | .ok a => pure a
  | .error message => throw message

/-- `traversal.Traverse(columnIndex, value)`: the call is made, and the sink answers. -/
def emit (traversal : Traversal) (call : Call) : TraverseM (Option String) := do
  let calls ← get
  set (calls ++ [call])
  pure (traversal calls call)

/-! ## The closures -/

section Closures

variable (env : Reflect.TypeEnv)

/-- The closure of `traverseFuncOfOptional`: a valid non-zero value is present; a pointer is
dereferenced and the definition level rises.  Anything else goes on as the zero `Value`. -/
def optionalFunc (traverse : Levels → Reflect.Value → TraverseM (Option String))
    (levels : Levels) : Reflect.Value → TraverseM (Option String)
  | .invalid => traverse levels .invalid
  | .valid t d =>
      if d.isZero then traverse levels .invalid
      else do
        let value ← if env.kind t = .ptr then liftReflect ((Reflect.Value.valid t d).elem env)
          else pure (.valid t d)
        traverse { levels with definitionLevel := levels.definitionLevel + 1 } value

/-- The loop `for i := 0; i < numValues && err == nil; i++` of the closure of
`traverseFuncOfRepeated`; `remaining` counts the iterations left. -/
def repeatedLoop (traverse : Levels → Reflect.Value → TraverseM (Option String))
    (value : Reflect.Value) : Nat → Nat → Levels → Option String → TraverseM (Option String)
  | 0, _, _, err => pure err
  | _ + 1, _, _, some err => pure (some err)
  | remaining + 1, i, levels, none => do
      let err ← traverse levels (← liftReflect (value.index env i))
      repeatedLoop traverse value remaining (i + 1)
        { levels with repetitionLevel := levels.repetitionDepth } err

/-- The closure of `traverseFuncOfRepeated`: a valid sequence deepens the repetition, and the
definition level rises unless it is nil; each element is traversed, or the zero `Value` once
when there is none. -/
def repeatedFunc (traverse : Levels → Reflect.Value → TraverseM (Option String))
    (levels : Levels) (value : Reflect.Value) : TraverseM (Option String) := do
  let (numValues, levels) ← match value with
    | .invalid => pure (0, levels)
    | value => do
        let numValues ← liftReflect (value.len env)
        let levels := { levels with repetitionDepth := levels.repetitionDepth + 1 }
        if ← liftReflect (value.isNil env) then pure (numValues, levels)
        else pure (numValues, { levels with definitionLevel := levels.definitionLevel + 1 })
  if numValues = 0 then traverse levels .invalid
  else repeatedLoop env traverse value numValues 0 levels none

/-- The closure of `traverseFuncOfLeaf`: the value, or null for the zero `Value`, with the
levels, goes to the sink. -/
def leafFunc (columnIndex : Nat) (kind : Kind) (traversal : Traversal) (levels : Levels)
    (value : Reflect.Value) : TraverseM (Option String) :=
  let v := if value.isValid then makeValue kind value else Value.null
  emit traversal (columnIndex,
    { v with repetitionLevel := levels.repetitionLevel, definitionLevel := levels.definitionLevel })

end Closures

/-- The child accessor `traverseFuncOfGroup` chooses: by name through the node, or the
`ValueByIndex` of the `*structNode` under the node's decorations. -/
inductive ChildValue where
  | byName (node : Node) (names : List String)
  | byIndex (fields : List (Node × List Nat)) (names : List String)
  deriving Repr

/-- Calls the accessor on a base value and a child position. -/
def ChildValue.apply (env : Reflect.TypeEnv) :
    ChildValue → Reflect.Value → Nat → Except String Reflect.Value
  | .byName node names, base, index => do node.valueByName env base (← sliceAt names index)
  | .byIndex fields names, base, index => valueByIndex env fields names base index

/-- The closures `traverseFuncOf` builds, each holding what it captured. -/
inductive TraverseFunc where
  | noop
  | optional (traverse : TraverseFunc)
  | repeated (traverse : TraverseFunc)
  | group (valueByIndex : ChildValue) (funcs : List TraverseFunc)
  | leaf (columnIndex : Nat) (kind : Kind)
  deriving Repr

/-- Calling a closure.  The group closure runs its children in order on the children of the
value (on the zero `Value` itself when it is not valid) and returns the first error. -/
def TraverseFunc.call (env : Reflect.TypeEnv) (traversal : Traversal) :
    TraverseFunc → Levels → Reflect.Value → TraverseM (Option String)
  | noop, _, _ => pure none
  | optional traverse, levels, value =>
      optionalFunc env (fun levels value => traverse.call env traversal levels value) levels value
  | repeated traverse, levels, value =>
      repeatedFunc env (fun levels value => traverse.call env traversal levels value) levels value
  | group valueByIndex funcs, levels, value =>
      callGroup funcs 0 levels value
        (fun i => if value.isValid then valueByIndex.apply env value i else .ok value)
  | leaf columnIndex kind, levels, value => leafFunc columnIndex kind traversal levels value
where
  /-- `for i, f := range funcs { if err := f(levels, valueAt(value, i), traversal); ... }`. -/
  callGroup : List TraverseFunc → Nat → Levels → Reflect.Value →
      (Nat → Except String Reflect.Value) → TraverseM (Option String)
    | [], _, _, _, _ => pure none
    | f :: funcs, i, levels, value, valueAt => do
        match ← f.call env traversal levels (← liftReflect (valueAt i)) with
        | some err => pure (some err)
        | none => callGroup funcs (i + 1) levels value valueAt

/-! ## The compiler -/

/-- The size of a node, not counting `requiredNode`s: with `Node.weight` it bounds the
recursion of `traverseFuncOf`. -/
def Node.size : Node → Nat
  | .leaf _ _ => 1
  | .group children => sizeChildren children + 1
  | .structNode fields _ => sizeFields fields + 1
  | .listNode node | .optionalNode node | .repeatedNode node | .encodedNode node _
  | .compressedNode node _ => node.size + 1
  | .requiredNode node => node.size
where
  /-- The sizes of a group's children. -/
  sizeChildren : List (String × Node) → Nat
    | [] => 0
    | (_, child) :: children => child.size + sizeChildren children
  /-- The sizes of a struct's field nodes. -/
  sizeFields : List (Node × List Nat) → Nat
    | [] => 0
    | (child, _) :: fields => child.size + sizeFields fields

section Compile

variable (traverseFuncOf : Nat → Node → Build (Nat × TraverseFunc))

/-- `traverseFuncOfOptional`, given the compiler for its recursive call. -/
def traverseFuncOfOptional (columnIndex : Nat) (node : Node) : Build (Nat × TraverseFunc) := do
  let (columnIndex, traverse) ← traverseFuncOf columnIndex (required node)
  pure (columnIndex, .optional traverse)

/-- `traverseFuncOfRepeated`, given the compiler for its recursive call. -/
def traverseFuncOfRepeated (columnIndex : Nat) (node : Node) : Build (Nat × TraverseFunc) := do
  let (columnIndex, traverse) ← traverseFuncOf columnIndex (required node)
  pure (columnIndex, .repeated traverse)

/-- `traverseFuncOfLeaf`: the leaf takes the next column.  Its kind is read at compile time. -/
def traverseFuncOfLeaf (columnIndex : Nat) (node : Node) : Build (Nat × TraverseFunc) := do
  let kind ← orPanic node.type.kind
  pure (columnIndex + 1, .leaf columnIndex kind)

/-- The loop of `traverseFuncOfGroup`: each child, looked up by name, is compiled from the
column where the previous one stopped. -/
def compileChildren (node : Node) : List String → Nat → Build (Nat × List TraverseFunc)
  | [], columnIndex => pure (columnIndex, [])
  | name :: names, columnIndex => do
      let (columnIndex, f) ← traverseFuncOf columnIndex (← orPanic (node.childByName name))
      let (columnIndex, funcs) ← compileChildren node names columnIndex
      pure (columnIndex, f :: funcs)

/-- `traverseFuncOfGroup`. -/
def traverseFuncOfGroup (columnIndex : Nat) (node : Node) : Build (Nat × TraverseFunc) := do
  let names := node.childNames
  let (columnIndex, funcs) ← compileChildren traverseFuncOf node names columnIndex
  let valueByIndex := match node.unwrap with
    | .structNode fields structNames => ChildValue.byIndex fields structNames
    | _ => .byName node names
  pure (columnIndex, .group valueByIndex funcs)

/-- `traverseFuncOfRequired`. -/
def traverseFuncOfRequired (columnIndex : Nat) (node : Node) : Build (Nat × TraverseFunc) :=
  if isLeaf node then traverseFuncOfLeaf columnIndex node
  else traverseFuncOfGroup traverseFuncOf columnIndex node

end Compile

/-- `traverseFuncOf`: optional first, then the `LIST` rewrite to a repeated `list.element`,
then repeated, then required.  `fuel` bounds the depth of the recursion. -/
def traverseFuncOf : Nat → Nat → Node → Build (Nat × TraverseFunc)
  | 0, _, _ => throw .outOfFuel
  | fuel + 1, columnIndex, node =>
      if node.optional then traverseFuncOfOptional (traverseFuncOf fuel) columnIndex node
      else if node.type.logicalType = some .list then do
        let elem ← orPanic (node.childByName "list" >>= Node.childByName "element")
        traverseFuncOf fuel columnIndex (repeated elem)
      else if node.repeated then traverseFuncOfRepeated (traverseFuncOf fuel) columnIndex node
      else traverseFuncOfRequired (traverseFuncOf fuel) columnIndex node

/-- `makeTraverseFunc`: a node without children (`message{}`) traverses nothing; any other is
compiled from column 0, with fuel for its whole depth. -/
def makeTraverseFunc (node : Node) : Build TraverseFunc :=
  if node.numChildren = 0 then pure .noop
  else (·.2) <$> traverseFuncOf (2 * node.size + 2) 0 node

/-- `Schema`: a named root node and its compiled traversal. -/
structure Schema where
  name : String
  root : Node
  traverse : TraverseFunc
  deriving Repr

/-- `newSchema`. -/
def newSchema (name : String) (root : Node) : Build Schema := do
  pure { name, root, traverse := ← makeTraverseFunc root }

/-- `(*Schema).Traverse`: a pointer is dereferenced (a nil one is traversed as the zero
`Value`), and the compiled traversal starts at zero levels. -/
def Schema.traverseValue (env : Reflect.TypeEnv) (s : Schema) (value : Reflect.Value)
    (traversal : Traversal) : TraverseM (Option String) := do
  let v ← if value.kind env = .ptr then do
      if ← liftReflect (value.isNil env) then pure .invalid else liftReflect (value.elem env)
    else pure value
  s.traverse.call env traversal {} v

end ParquetGo
