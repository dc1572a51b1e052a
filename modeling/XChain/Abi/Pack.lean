import XChain.Abi.Type
import XChain.Lib.BigEndian
import XChain.Lib.HeadTail

/-!
# Packing and unpacking

`accounts/abi/pack.go`, `type.go`, `unpack.go` and `argument.go`. Arguments, tuples and elements are
written as heads and tails (`HeadTail.Layout`), with positions in words of 32 bytes. Lengths and
positions are natural numbers here: those of a byte slice fit in an `int`.

* `pack`, `Arguments.pack`: the encoder; `toGoType`, `Arguments.unpackValues`: the decoder.
-/

namespace XChain.Abi

open GoText (Bytes)
open HeadTail (Layout Piece)

/-! ## The encoder -/

def u256 (z : ℤ) : Bytes := BigEndian.toBytes 32 (z % 2 ^ 256).toNat

def packLen (n : ℕ) : Bytes := u256 n

def packNum : Value → Bytes
  | .uint _ n => u256 n
  | .int _ z => u256 z
  | .big z => u256 z
  | _ => []

def leftPad (bs : Bytes) : Bytes := List.replicate (32 - bs.length) 0 ++ bs

def rightPad (bs : Bytes) (l : ℕ) : Bytes := bs ++ List.replicate (l - bs.length) 0

def packBytesSlice (bs : Bytes) : Bytes :=
  packLen bs.length ++ rightPad bs ((bs.length + 31) / 32 * 32)

def packElement : AbiType → Value → Except AbiError Bytes
  | .int _, v | .uint _, v => .ok (packNum v)
  | .string, .string s => .ok (packBytesSlice s)
  | .address, .array _ vs => (Value.toBytes vs).map leftPad
  | .bool, .bool b => .ok (u256 b.toNat)
  | .bytes, .slice _ vs => (Value.toBytes vs).map packBytesSlice
  | .fixedBytes _, .array _ vs | .function, .array _ vs => (Value.toBytes vs).map (rightPad · 32)
  | _, _ => .error .panic

/-- Appends an encoding to the head, or to the tail with its offset in the head. -/
def pushPart (dynamic : Bool) (l : Layout UInt8) (val : Bytes) : Layout UInt8 :=
  l.push packLen ⟨dynamic, val⟩

def pushElements (dynamic : Bool) :
    List (Except AbiError Bytes) → Layout UInt8 → Except AbiError (Layout UInt8)
  | [], l => .ok l
  | packed :: rest, l => do
    let val ← packed
    pushElements dynamic rest (pushPart dynamic l val)

def packElements (dynamic : Bool) (size : ℕ) (head : Bytes)
    (packed : List (Except AbiError Bytes)) :
    Except AbiError Bytes := do
  let offset := if dynamic then size * packed.length else 0
  let l ← pushElements dynamic packed ⟨head, [], offset⟩
  return l.bytes

def readField (fields : List Field) (vs : List Value) (fieldmap : Bytes → Bytes) (rawName : Bytes) :
    Except AbiError Value :=
  match fieldByName fields vs (fieldmap rawName) with
  | some x => .ok x
  | none => .error (.fieldNotFound rawName)

mutual

def pack (t : AbiType) (v : Value) : Except AbiError Bytes := do
  typeCheck t v
  match t, v with
  | .slice elem, .slice _ vs | .slice elem, .array _ vs =>
    packElements elem.isDynamicType elem.getTypeSize (packLen vs.length) (vs.map (pack elem))
  | .array _ elem, .slice _ vs | .array _ elem, .array _ vs =>
    packElements elem.isDynamicType elem.getTypeSize [] (vs.map (pack elem))
  | .tuple rawNames elems, .struct fields vs =>
    let fieldmap ← mapArgNamesToStructFields rawNames fields
    let l ← packFields elems (rawNames.map (readField fields vs fieldmap))
      ⟨[], [], AbiType.getTypeSizes elems⟩
    return l.bytes
  | t, v => packElement t v

/-- The loop over the components of a tuple, or over the arguments: the values are read and packed
in turn. -/
def packFields : List AbiType → List (Except AbiError Value) → Layout UInt8 →
    Except AbiError (Layout UInt8)
  | elem :: elems, read :: reads, l => do
    let x ← read
    let val ← pack elem x
    packFields elems reads (pushPart elem.isDynamicType l val)
  | [], _, l => .ok l
  | _ :: _, [], _ => .error .panic

end

structure Argument where
  name : Bytes
  type : AbiType
  indexed : Bool

def Arguments.pack (arguments : List Argument) (args : List Value) : Except AbiError Bytes := do
  if args.length ≠ arguments.length then .error (.countMismatch args.length arguments.length)
  let types := arguments.map Argument.type
  let l ← packFields types (args.map .ok) ⟨[], [], AbiType.getTypeSizes types⟩
  return l.bytes

/-! ## The decoder -/

/-- `output[index:index+32]`. -/
def wordAt (output : Bytes) (index : ℕ) : Bytes := (output.drop index).take 32

def lengthPrefixPointsTo (index : ℕ) (output : Bytes) : Except AbiError (ℕ × ℕ) :=
  let offsetEnd := BigEndian.toNat (wordAt output index) + 32
  if offsetEnd > output.length then .error (.overBoundary offsetEnd output.length)
  else if offsetEnd ≥ 2 ^ 63 then .error (.offsetTooLarge offsetEnd)
  else
    let length := BigEndian.toNat (wordAt output (offsetEnd - 32))
    let totalSize := offsetEnd + length
    if totalSize ≥ 2 ^ 63 then .error (.lengthTooLarge totalSize)
    else if totalSize > output.length then .error (.lengthInsufficient output.length totalSize)
    else .ok (offsetEnd, length)

def tuplePointsTo (index : ℕ) (output : Bytes) : Except AbiError ℕ :=
  let offset := BigEndian.toNat (wordAt output index)
  if offset > output.length then .error (.overBoundary offset output.length)
  else if offset ≥ 2 ^ 63 then .error (.offsetTooLarge offset)
  else .ok offset

def tupleStart (dynamic : Bool) (index : ℕ) (output : Bytes) : Except AbiError ℕ :=
  if dynamic then tuplePointsTo index output else .ok index

def signed (bits n : ℕ) : ℤ := if n < 2 ^ (bits - 1) then n else n - 2 ^ bits

def readInteger (unsigned : Bool) (size : ℕ) (b : Bytes) : Value :=
  if size ∈ machineSizes then
    let n := BigEndian.toNat (b.drop (b.length - size / 8))
    if unsigned then .uint size n else .int size (signed size n)
  else
    let n := BigEndian.toNat b
    if unsigned then .big n else .big (signed 256 n)

def readBool (word : Bytes) : Except AbiError Value :=
  if (word.take 31).any (· ≠ 0) then .error .badBool
  else match word.drop 31 with
    | [0] => .ok (.bool false)
    | [1] => .ok (.bool true)
    | _ => .error .badBool

def byteArray (bs : Bytes) : Value := .array (.uint 8) (bs.map .byte)

def readFunctionType (word : Bytes) : Except AbiError Value :=
  if BigEndian.toNat (word.drop 24) ≠ 0 then .error (.badFunction word)
  else .ok (byteArray (word.take 24))

def readElements (read : ℕ → Except AbiError Value) (elemSize : ℕ) :
    ℕ → ℕ → Except AbiError (List Value)
  | 0, _ => .ok []
  | size + 1, i => do
    let v ← read i
    let vs ← readElements read elemSize size (i + elemSize)
    return v :: vs

/-- `forEachUnpack`, from the first byte of `output` on. -/
def forEachUnpack (read : ℕ → Except AbiError Value) (elemSize size : ℕ) (output : Bytes) :
    Except AbiError (List Value) :=
  if 32 * size > output.length then .error (.overBoundary output.length (32 * size))
  else readElements read elemSize size 0

/-- How many words a component takes in the heads beyond one. -/
def AbiType.virtualArgs (t : AbiType) : ℤ :=
  if t.isNested ∧ ¬ t.isDynamicType then t.getTypeSize / 32 - 1 else 0

mutual

def toGoType (t : AbiType) (index : ℕ) (output : Bytes) : Except AbiError Value :=
  if index + 32 > output.length then .error (.lengthInsufficient output.length (index + 32))
  else
    let returnOutput := wordAt output index
    match t with
    | .tuple rawNames elems => do
      let start ← tupleStart (AbiType.anyDynamic elems) index output
      let vs ← unpackFields elems (output.drop start) 0 0
      return .struct (tupleFields rawNames) vs
    | .slice elem => do
      let (start, length) ← lengthPrefixPointsTo index output
      let vs ← forEachUnpack (fun i => toGoType elem i (output.drop start)) elem.getTypeSize length
        (output.drop start)
      return .slice elem.kind vs
    | .array size elem => do
      let offset := BigEndian.toNat (returnOutput.drop 24)
      if elem.isDynamicType ∧ offset > output.length then
        .error (.overBoundary offset output.length)
      let start := if elem.isDynamicType then offset else index
      let vs ← forEachUnpack (fun i => toGoType elem i (output.drop start)) elem.getTypeSize size
        (output.drop start)
      return .array elem.kind vs
    | .string => do
      let (start, length) ← lengthPrefixPointsTo index output
      return .string ((output.drop start).take length)
    | .int size => .ok (readInteger false size returnOutput)
    | .uint size => .ok (readInteger true size returnOutput)
    | .bool => readBool returnOutput
    | .address => .ok (byteArray (returnOutput.drop 12))
    | .bytes => do
      let (start, length) ← lengthPrefixPointsTo index output
      return .slice (.uint 8) (((output.drop start).take length).map .byte)
    | .fixedBytes size => .ok (byteArray (returnOutput.take size))
    | .function => readFunctionType returnOutput

def unpackFields : List AbiType → Bytes → ℕ → ℤ → Except AbiError (List Value)
  | [], _, _, _ => .ok []
  | elem :: elems, output, index, virtualArgs => do
    let v ← toGoType elem ((index + virtualArgs) * 32).toNat output
    let vs ← unpackFields elems output (index + 1) (virtualArgs + elem.virtualArgs)
    return v :: vs

end

def Arguments.nonIndexed (arguments : List Argument) : List Argument :=
  arguments.filter fun arg => !arg.indexed

def Arguments.unpackValues (arguments : List Argument) (data : Bytes) :
    Except AbiError (List Value) :=
  unpackFields ((nonIndexed arguments).map Argument.type) data 0 0

end XChain.Abi
