import Ed2kServer.Lib.ByteReader
import Ed2kServer.Search.Tree
import Ed2kServer.Text.Utf8

namespace Ed2kServer.Search.TreeParser

open Ed2kServer.Lib.LittleEndian Ed2kServer.Lib.ByteReader
open Ed2kServer.Text.Chars Ed2kServer.Text.Utf8 Ed2kServer.Search.Tree

def NODE_BOOL : UInt8 := 0x00
def NODE_STRING : UInt8 := 0x01
def NODE_META : UInt8 := 0x02
def NODE_NUMERIC32 : UInt8 := 0x03
def NODE_NUMERIC64 : UInt8 := 0x08

def MAX_DEPTH : Nat := 24

inductive ParseError
  | tooDeep
  | emptyBuffer
  | missingBoolOp
  | unknownBoolOp (op : UInt8)
  | numeric32Truncated
  | numeric64Truncated
  | unknownNodeType (kind : UInt8)
  | lengthPrefixMissing
  | bodyTruncated (left len : Nat)
  | cmpOpMissing
  | unknownCmpOp (op : UInt8)
  deriving DecidableEq

def readByte (underrun : ParseError) : Reader ParseError UInt8
  | [] => (.error underrun, [])
  | b :: rest => (.ok b, rest)

def takeBody (len : Nat) : Reader ParseError (List UInt8) := fun buf =>
  take (.bodyTruncated buf.length len) len buf

def readShortBytes : Reader ParseError (List UInt8) := do
  let len ← number .lengthPrefixMissing 2
  takeBody len

def readShortString : Reader ParseError Str := do
  let bytes ← readShortBytes
  return fromUtf8Lossy bytes

/-- A name of one byte is an id, whatever its value. -/
def tagFromBytes : List UInt8 → SearchTag
  | [id] => .id id
  | bytes => .name (fromUtf8Lossy bytes)

def readTagName : Reader ParseError SearchTag := do
  let bytes ← readShortBytes
  return tagFromBytes bytes

def boolOp (op : UInt8) : Option BoolOp :=
  if op = 0x00 then some .and
  else if op = 0x01 then some .or
  else if op = 0x02 then some .not
  else none

def cmpOp (op : UInt8) : Option CmpOp :=
  if op = 0x00 then some .eq
  else if op = 0x01 then some .gt
  else if op = 0x02 then some .lt
  else if op = 0x03 then some .ge
  else if op = 0x04 then some .le
  else if op = 0x05 then some .ne
  else none

def readBoolOp : Reader ParseError BoolOp := do
  let op ← readByte .missingBoolOp
  match boolOp op with
  | some op => return op
  | none => fail (.unknownBoolOp op)

/-- An unknown operator stays in the buffer. -/
def readCmpOp : Reader ParseError CmpOp
  | [] => (.error .cmpOpMissing, [])
  | b :: rest =>
    match cmpOp b with
    | some op => (.ok op, rest)
    | none => (.error (.unknownCmpOp b), b :: rest)

/-- A node with room for `levels` levels, its own among them: `MAX_DEPTH + 1` less its depth. -/
def parseNode : Nat → Reader ParseError SearchNode
  | 0 => fail .tooDeep
  | levels + 1 => do
    let kind ← readByte .emptyBuffer
    if kind = NODE_BOOL then do
      let op ← readBoolOp
      let left ← parseNode levels
      let right ← parseNode levels
      return .bool op left right
    else if kind = NODE_STRING then do
      let s ← readShortString
      return .term s
    else if kind = NODE_META then do
      let value ← readShortString
      let tagName ← readTagName
      return .metaTag tagName value
    else if kind = NODE_NUMERIC32 then do
      let value ← number .numeric32Truncated 4
      let op ← readCmpOp
      let tagName ← readTagName
      return .numeric tagName op (UInt64.ofNat value)
    else if kind = NODE_NUMERIC64 then do
      let value ← number .numeric64Truncated 8
      let op ← readCmpOp
      let tagName ← readTagName
      return .numeric tagName op (UInt64.ofNat value)
    else fail (.unknownNodeType kind)

/-- What follows the tree is ignored. -/
def parse (payload : List UInt8) : Except ParseError SearchNode :=
  (parseNode (MAX_DEPTH + 1) payload).1

end Ed2kServer.Search.TreeParser
