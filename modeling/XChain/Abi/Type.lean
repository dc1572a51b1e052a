import XChain.Lib.Text

/-!
# Argument types and Go values

`accounts/abi/type.go`, `reflect.go` and `error.go`: the types of contract arguments, the Go values
they are packed from, and the checks made before. A tuple is a Go struct. `NewType` gives its fields
the camel-case names of the components, with a number behind a name that is taken already; `pack`
looks a field up by the name of the component.
-/

namespace XChain.Abi

open GoText (Bytes decimal)

/-- A `Type`; a tuple has the names and the types of its components. -/
inductive AbiType
  | int (size : ℕ)
  | uint (size : ℕ)
  | bool
  | string
  | slice (elem : AbiType)
  | array (size : ℕ) (elem : AbiType)
  | tuple (rawNames : List Bytes) (elems : List AbiType)
  | address
  | fixedBytes (size : ℕ)
  | bytes
  | function

/-- A `reflect.Kind`; the only pointers are those to `big.Int`. -/
inductive Kind
  | uint (bits : ℕ)
  | int (bits : ℕ)
  | ptr
  | bool
  | string
  | slice
  | array
  | struct
deriving DecidableEq

structure Field where
  name : Bytes
  tag : Option Bytes
deriving DecidableEq

/-- A Go value. Slices and arrays know the kind of their elements. -/
inductive Value
  | uint (bits : ℕ) (n : ℕ)
  | int (bits : ℕ) (z : ℤ)
  | big (z : ℤ)
  | bool (b : Bool)
  | string (s : Bytes)
  | slice (elem : Kind) (vs : List Value)
  | array (elem : Kind) (vs : List Value)
  | struct (fields : List Field) (vs : List Value)

/-- What can go wrong, `panic` being a panic of package `reflect`. -/
inductive AbiError
  | emptyTag (field : Bytes)
  | alreadyMapped (field : Bytes)
  | tagNotFound (tag : Bytes)
  | underscored
  | multipleVariables (arg : Bytes)
  | multipleOutputs (field : Bytes)
  | fieldNotFound (arg : Bytes)
  | cannotUse
  | countMismatch (got want : ℕ)
  | lengthInsufficient (length required : ℕ)
  | overBoundary (offset length : ℕ)
  | offsetTooLarge (offset : ℕ)
  | lengthTooLarge (size : ℕ)
  | badBool
  | badFunction (word : Bytes)
  | panic
deriving DecidableEq

namespace Value

def kind : Value → Kind
  | uint bits _ => .uint bits
  | int bits _ => .int bits
  | big _ => .ptr
  | bool _ => .bool
  | string _ => .string
  | slice _ _ => .slice
  | array _ _ => .array
  | struct _ _ => .struct

def elements : Value → Option (Kind × List Value)
  | slice elem vs | array elem vs => some (elem, vs)
  | _ => none

def byte (b : UInt8) : Value := uint 8 b.toNat

/-- `Bytes`, which panics unless the elements are bytes. -/
def toBytes : List Value → Except AbiError Bytes
  | [] => .ok []
  | uint 8 n :: vs => (toBytes vs).map (UInt8.ofNat n :: ·)
  | _ :: _ => .error .panic

end Value

/-! ## Layout -/

def machineSizes : List ℕ := [8, 16, 32, 64]

def reflectIntType (unsigned : Bool) (size : ℕ) : Kind :=
  if size ∈ machineSizes then if unsigned then .uint size else .int size else .ptr

namespace AbiType

def kind : AbiType → Kind
  | int size => reflectIntType false size
  | uint size => reflectIntType true size
  | bool => .bool
  | string => .string
  | slice _ => .slice
  | array _ _ => .array
  | tuple _ _ => .struct
  | address => .array
  | fixedBytes _ => .array
  | bytes => .slice
  | function => .array

mutual

def isDynamicType : AbiType → Bool
  | tuple _ elems => anyDynamic elems
  | string | bytes | slice _ => true
  | array _ elem => elem.isDynamicType
  | _ => false

def anyDynamic : List AbiType → Bool
  | [] => false
  | elem :: elems => elem.isDynamicType || anyDynamic elems

end

def isNested : AbiType → Bool
  | array _ _ | tuple _ _ => true
  | _ => false

def isSequence : AbiType → Bool
  | slice _ | array _ _ => true
  | _ => false

mutual

def getTypeSize : AbiType → ℕ
  | array size elem =>
    if elem.isDynamicType then 32
    else if elem.isNested then size * elem.getTypeSize else size * 32
  | tuple _ elems => if anyDynamic elems then 32 else getTypeSizes elems
  | _ => 32

def getTypeSizes : List AbiType → ℕ
  | [] => 0
  | elem :: elems => elem.getTypeSize + getTypeSizes elems

end

end AbiType

/-! ## Names -/

/-- `strings.ToUpper` of a string of one byte. -/
def toUpper (b : UInt8) : Bytes :=
  if 97 ≤ b ∧ b ≤ 122 then [b - 32] else if b < 128 then [b] else [0xEF, 0xBF, 0xBD]

def capitalize : Bytes → Bytes
  | [] => []
  | b :: s => toUpper b ++ s

def toCamelCase (input : Bytes) : Bytes := (input.splitOn 95).flatMap capitalize

/-- `overloadedArgName`: the first number that makes the name a new one. -/
def overloadedArgName (rawName : Bytes) (names : List Bytes) : Bytes :=
  let fieldName := toCamelCase rawName
  if fieldName ∈ names then
    (((List.range (names.length + 1)).map fun idx => fieldName ++ decimal idx).find?
      (· ∉ names)).getD fieldName
  else fieldName

def fieldNames (rawNames : List Bytes) : List Bytes :=
  rawNames.foldl (fun names rawName => names ++ [overloadedArgName rawName names]) []

/-- The fields of `TupleType`; they have a `json` tag only. -/
def tupleFields (rawNames : List Bytes) : List Field := (fieldNames rawNames).map (⟨·, none⟩)

def fieldByName (fields : List Field) (vs : List Value) (name : Bytes) : Option Value :=
  vs[(fields.map Field.name).idxOf name]?

structure Pairing where
  abi2struct : Bytes → Bytes
  struct2abi : Bytes → Bytes

def Pairing.pair (p : Pairing) (arg field : Bytes) : Pairing :=
  ⟨Function.update p.abi2struct arg field, Function.update p.struct2abi field arg⟩

/-- The first round of `mapArgNamesToStructFields` at a field: it pairs the field with the argument
of its tag. -/
def pairTag (argNames : List Bytes) (p : Pairing) (field : Field) : Except AbiError Pairing :=
  match field.tag with
  | none => .ok p
  | some tag =>
    if (field.name.take 1).flatMap toUpper ≠ field.name.take 1 then .ok p
    else if tag = [] then .error (.emptyTag field.name)
    else if tag ∉ argNames then .error (.tagNotFound tag)
    else (argNames.filter (· = tag)).foldlM (fun p arg =>
      if p.abi2struct arg ≠ [] then .error (.alreadyMapped field.name)
      else .ok (p.pair arg field.name)) p

/-- The second round at an argument: it pairs the argument with the field of its name. -/
def pairName (fields : List Field) (p : Pairing) (argName : Bytes) : Except AbiError Pairing :=
  let structFieldName := toCamelCase argName
  let valid := structFieldName ∈ fields.map Field.name
  if structFieldName = [] then .error .underscored
  else if p.abi2struct argName ≠ [] then
    if p.abi2struct argName ≠ structFieldName ∧ p.struct2abi structFieldName = [] ∧ valid then
      .error (.multipleVariables argName)
    else .ok p
  else if p.struct2abi structFieldName ≠ [] then .error (.multipleOutputs structFieldName)
  else if valid then .ok (p.pair argName structFieldName)
  else .ok { p with struct2abi := Function.update p.struct2abi structFieldName argName }

def mapArgNamesToStructFields (argNames : List Bytes) (fields : List Field) :
    Except AbiError (Bytes → Bytes) := do
  let p ← fields.foldlM (pairTag argNames) ⟨fun _ => [], fun _ => []⟩
  let p ← argNames.foldlM (pairName fields) p
  return p.abi2struct

/-! ## Checks -/

/-- The body of `sliceTypeCheck`: the length of an array, then the first element or the kind of all
elements. -/
def checkElements (elem : AbiType) (check : Value → Except AbiError Unit) (size : Option ℕ)
    (v : Value) : Except AbiError Unit :=
  match v.elements with
  | none => .error .cannotUse
  | some (k, vs) =>
    if size.any (· ≠ vs.length) then .error .cannotUse
    else match elem.isSequence, vs with
      | true, x :: _ => check x
      | _, _ => if k ≠ elem.kind then .error .cannotUse else .ok ()

def sliceTypeCheck : AbiType → Value → Except AbiError Unit
  | .slice elem => checkElements elem (sliceTypeCheck elem) none
  | .array size elem => checkElements elem (sliceTypeCheck elem) (some size)
  | _ => fun _ => .error .cannotUse

def typeCheck (t : AbiType) (v : Value) : Except AbiError Unit :=
  match t with
  | .slice _ | .array _ _ => sliceTypeCheck t v
  | .fixedBytes size =>
    match v with
    | .array _ vs => if vs.length ≠ size then .error .cannotUse else .ok ()
    | _ => .error .cannotUse
  | _ => if t.kind ≠ v.kind then .error .cannotUse else .ok ()

end XChain.Abi
