import Ed2kServer.Search.TreeParser

namespace Ed2kServer.Search.TreeGrammar

open Ed2kServer.Lib.LittleEndian Ed2kServer.Lib.ByteReader
open Ed2kServer.Text.Chars Ed2kServer.Text.Utf8 Ed2kServer.Search.Tree
open Ed2kServer.Search.TreeParser

/-- A string as it stands in a frame, after two bytes of length. -/
structure ShortBytes where
  bytes : List UInt8
  fits : bytes.length < 256 ^ 2

/-- A tree as it stands in a frame: a number in four bytes or in eight. -/
inductive WireNode
  | bool (op : BoolOp) (l r : WireNode)
  | term (s : ShortBytes)
  | metaTag (value tagName : ShortBytes)
  | numeric32 (value : UInt32) (op : CmpOp) (tagName : ShortBytes)
  | numeric64 (value : UInt64) (op : CmpOp) (tagName : ShortBytes)

/-- The tree that the bytes mean. -/
def WireNode.node : WireNode → SearchNode
  | .bool op l r => .bool op l.node r.node
  | .term s => .term (fromUtf8Lossy s.bytes)
  | .metaTag value tagName => .metaTag (tagFromBytes tagName.bytes) (fromUtf8Lossy value.bytes)
  | .numeric32 value op tagName => .numeric (tagFromBytes tagName.bytes) op value.toUInt64
  | .numeric64 value op tagName => .numeric (tagFromBytes tagName.bytes) op value

/-- How deep operands are nested. -/
def WireNode.depth : WireNode → Nat
  | .bool _ l r => max l.depth r.depth + 1
  | .term _ | .metaTag .. | .numeric32 .. | .numeric64 .. => 0

/-- A tag name as a frame gives it back: one of one byte is an id. -/
def normaliseTag : SearchTag → SearchTag
  | .id id => .id id
  | .name name => tagFromBytes (utf8 name)

def normalise : SearchNode → SearchNode
  | .bool op l r => .bool op (normalise l) (normalise r)
  | .term s => .term s
  | .metaTag tagName value => .metaTag (normaliseTag tagName) value
  | .numeric tagName op value => .numeric (normaliseTag tagName) op value

/-- Tag names as written fit their length field. -/
def TagFits : SearchTag → Prop
  | .id _ => True
  | .name name => (utf8 name).length < 256 ^ 2

/-- No string of the tree is longer than 65535 bytes. -/
def Fits : SearchNode → Prop
  | .bool _ l r => Fits l ∧ Fits r
  | .term s => (utf8 s).length < 256 ^ 2
  | .metaTag tagName value => TagFits tagName ∧ (utf8 value).length < 256 ^ 2
  | .numeric tagName _ _ => TagFits tagName

def depth : SearchNode → Nat
  | .bool _ l r => max (depth l) (depth r) + 1
  | .term _ | .metaTag .. | .numeric .. => 0

end Ed2kServer.Search.TreeGrammar
