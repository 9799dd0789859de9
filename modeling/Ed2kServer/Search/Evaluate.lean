import Ed2kServer.Keyword.Tokenizer
import Ed2kServer.Search.Tree
import Ed2kServer.Slab.MediaFields

namespace Ed2kServer.Search.Evaluate

open Ed2kServer.Text.Chars Ed2kServer.Keyword.Tokenizer Ed2kServer.Search.Tree
open Ed2kServer.Slab.Record Ed2kServer.Slab.MediaFields

def AUDIO_EXT : List String :=
  ["mp3", "mp2", "m4a", "wav", "wma", "ogg", "flac", "aac", "ac3", "aif", "aiff", "ape", "mpc",
    "mid", "midi", "ra", "wv", "opus"]

def VIDEO_EXT : List String :=
  ["avi", "mpg", "mpeg", "mp4", "mkv", "wmv", "mov", "flv", "ogm", "m4v", "rm", "rmvb", "vob",
    "asf", "divx", "xvid", "3gp", "ts", "m2ts", "webm", "mpe", "ifo"]

def IMAGE_EXT : List String :=
  ["jpg", "jpeg", "png", "gif", "bmp", "tif", "tiff", "webp", "psd", "ico", "svg", "raw", "cr2",
    "nef"]

def PROGRAM_EXT : List String :=
  ["exe", "msi", "bat", "com", "dll", "deb", "rpm", "dmg", "apk", "jar", "app", "bin", "run"]

def DOCUMENT_EXT : List String :=
  ["doc", "docx", "pdf", "txt", "rtf", "odt", "xls", "xlsx", "ppt", "pptx", "epub", "mobi",
    "djvu", "chm", "tex", "ods", "odp"]

def ARCHIVE_EXT : List String :=
  ["zip", "rar", "7z", "tar", "gz", "bz2", "xz", "ace", "arj", "cab", "lzh", "z", "tgz", "zst"]

def CDIMAGE_EXT : List String := ["iso", "nrg", "cue", "img", "bin", "mdf", "ccd", "cdi"]

/-- What follows the last dot, the whole name when it has none. -/
def afterLastDot (name : Str) : Str := (name.reverse.takeWhile (· ≠ '.')).reverse

def fileTypeMatches (nameLower typeValue : Str) : Bool :=
  let ext := afterLastDot nameLower
  let among := fun (set : List String) => (set.map String.toList).contains ext
  if ext = nameLower then false
  else if typeValue = "audio".toList then among AUDIO_EXT
  else if typeValue = "video".toList then among VIDEO_EXT
  else if typeValue = "image".toList then among IMAGE_EXT
  else if typeValue = "pro".toList then among PROGRAM_EXT
  else if typeValue = "doc".toList then among DOCUMENT_EXT
  else if typeValue = "arc".toList then among ARCHIVE_EXT
  else if typeValue = "iso".toList then among CDIMAGE_EXT
  else true

/-- `str::contains`. -/
def contains (s sub : Str) : Bool := sub <:+: s

def startsWith (s sub : Str) : Bool := sub <+: s

variable (U : Unicode)

/-- A folded query word against a folded name. -/
def wordMatches (w nameLower : Str) : Bool :=
  if w = ['*'] ∨ w = ['*', '*'] then true
  else
    let m := parseMarkers w
    if m.core = [] then true
    else if m.anchored then
      startsWith nameLower m.core ||
        (nameLower.splitOnP (fun c => !U.isAlphanumeric c)).any (startsWith · m.core)
    else if m.starred then contains nameLower m.core
    else contains nameLower w

/-- What the post-filter knows of a file besides its name; `none` is unknown. -/
structure FileFacts where
  size : UInt64
  sources : Option UInt32
  completeSources : Option UInt32
  media : Option Media

def prepare : SearchNode → SearchNode
  | .term t => .term (foldForMatch U t)
  | .metaTag tagName value => .metaTag tagName (foldForMatch U value)
  | .numeric tagName op value => .numeric tagName op value
  | .bool op l r => .bool op (prepare l) (prepare r)

def LENGTH_NAMES : List String := ["length"]

def BITRATE_NAMES : List String := ["bitrate"]

def CODEC_NAMES : List String := ["codec"]

def SOURCES_NAMES : List String := ["sources", "availability"]

def COMPLETE_SOURCES_NAMES : List String := ["completesources", "complete_sources"]

/-- The prefix of a codec value that `resolveCodecs` has replaced by its index. -/
def CODEC_INDEX_MARK : Char := '\x00'

def usesMedia : SearchNode → Bool
  | .numeric tagName _ _ => tagName.is 0xD3 LENGTH_NAMES || tagName.is 0xD4 BITRATE_NAMES
  | .metaTag tagName _ => tagName.is 0xD5 CODEC_NAMES || tagName.is 0xD3 LENGTH_NAMES
  | .bool _ l r => usesMedia l || usesMedia r
  | .term _ => false

def resolveCodecs (lookup : Str → Option UInt8) : SearchNode → SearchNode
  | .metaTag tagName value =>
    if tagName.is 0xD5 CODEC_NAMES then
      .metaTag tagName (CODEC_INDEX_MARK :: (toString ((lookup value).getD 0)).toList)
    else .metaTag tagName value
  | .bool op l r => .bool op (resolveCodecs lookup l) (resolveCodecs lookup r)
  | node => node

def usesCompleteSources : SearchNode → Bool
  | .numeric tagName _ _ => tagName.is 0x30 COMPLETE_SOURCES_NAMES
  | .bool _ l r => usesCompleteSources l || usesCompleteSources r
  | .term _ | .metaTag .. => false

/-- `str::parse::<u8>`. -/
def parseU8 (s : Str) : Option UInt8 :=
  let digits := match s with
    | '+' :: rest => rest
    | _ => s
  if digits = [] ∨ !digits.all Char.isDigit then none
  else
    let n := digits.foldl (fun n c => n * 10 + (c.toNat - '0'.toNat)) 0
    if n < 256 then some (UInt8.ofNat n) else none

/-- A codec value resolved to its index, against the file's. -/
def codecMatches (media : Option Media) (value : Str) : Option Bool := do
  let m ← media
  match value with
  | c :: rest =>
    if c = CODEC_INDEX_MARK then
      let idx ← parseU8 rest
      return idx != 0 && codec m == idx
    else none
  | [] => none

/-- The verdict of two operands; one that cannot be judged is left out. -/
def combine (op : BoolOp) (lv rv : Option Bool) : Option Bool :=
  match op, lv with
  | .and, some false | .not, some false => some false
  | .or, some true => some true
  | _, _ =>
    match op, lv, rv with
    | _, none, none => none
    | .not, none, some r => some (!r)
    | .not, some l, none => some l
    | .not, some l, some r => some (l && !r)
    | _, some x, none => some x
    | _, none, some x => some x
    | .and, some l, some r => some (l && r)
    | .or, some l, some r => some (l || r)

/-- `some` verdict for a node the server can judge, `none` for one it cannot. -/
def evalNode (nameLower : Str) (facts : FileFacts) (fold : Bool) : SearchNode → Option Bool
  | .term t =>
    let tl := if fold then foldForMatch U t else t
    some ((U.splitWhitespace tl).all (wordMatches U · nameLower))
  | .metaTag tagName value =>
    let val := if fold then foldForMatch U value else value
    if tagName.is 0x03 ["type"] then some (fileTypeMatches nameLower val)
    else if tagName.is 0x04 ["format"] then some (afterLastDot nameLower == val)
    else if tagName.is 0xD5 CODEC_NAMES then codecMatches facts.media val
    else if tagName.is 0xD3 LENGTH_NAMES then
      facts.media.map (fun m => length m == parseLengthText U val)
    else if tagName = .id 0xD0 ∨ tagName = .id 0xD1 ∨ tagName = .id 0xD2 then
      some ((U.splitWhitespace val).all (wordMatches U · nameLower))
    else none
  | .numeric tagName op value =>
    if tagName.is 0x02 ["size", "filesize"] then some (op.matchesU64 facts.size value)
    else if tagName.is 0x15 SOURCES_NAMES then
      facts.sources.map (fun n => op.matchesU64 n.toUInt64 value)
    else if tagName.is 0x30 COMPLETE_SOURCES_NAMES then
      facts.completeSources.map (fun n => op.matchesU64 n.toUInt64 value)
    else if tagName.is 0xD3 LENGTH_NAMES then
      facts.media.map (fun m => op.matchesU64 (length m).toUInt64 value)
    else if tagName.is 0xD4 BITRATE_NAMES then
      facts.media.map (fun m => op.matchesU64 (bitrate m).toUInt64 value)
    else none
  | .bool op l r => combine op (evalNode nameLower facts fold l) (evalNode nameLower facts fold r)

/-- A tree the server cannot judge at all accepts every file. -/
def evaluatePrepared (prepared : SearchNode) (nameLower : Str) (facts : FileFacts) : Bool :=
  (evalNode U nameLower facts false prepared).getD true

/-- The verdict on a tree as sent, its terms folded on the way. -/
def evaluateFacts (node : SearchNode) (nameLower : Str) (facts : FileFacts) : Bool :=
  (evalNode U nameLower facts true node).getD true

section Verdicts

variable {U} {nameLower : Str} {facts : FileFacts}

theorem evaluatePrepared_eq_true {node : SearchNode} :
    evaluatePrepared U node nameLower facts = true ↔
      evalNode U nameLower facts false node ≠ some false := by
  rw [evaluatePrepared]
  cases evalNode U nameLower facts false node with
  | none => simp
  | some b => cases b <;> simp

theorem evaluateFacts_eq_true {node : SearchNode} :
    evaluateFacts U node nameLower facts = true ↔
      evalNode U nameLower facts true node ≠ some false := by
  rw [evaluateFacts]
  cases evalNode U nameLower facts true node with
  | none => simp
  | some b => cases b <;> simp

theorem combine_and_ne_false {lv rv : Option Bool} (h : combine .and lv rv ≠ some false) :
    lv ≠ some false ∧ rv ≠ some false := by
  revert lv rv
  decide

theorem combine_and_of_ne_false {lv rv : Option Bool} (hl : lv ≠ some false)
    (hr : rv ≠ some false) : combine .and lv rv ≠ some false := by
  revert lv rv
  decide

theorem combine_not_ne_false {lv rv : Option Bool} (h : combine .not lv rv ≠ some false) :
    lv ≠ some false := by
  revert lv rv
  decide

theorem combine_and_eq_true {lv rv : Option Bool} (h : combine .and lv rv = some true) :
    (lv ≠ none → lv = some true) ∧ (rv ≠ none → rv = some true) := by
  revert lv rv
  decide

theorem combine_or_eq_true {lv rv : Option Bool} (h : combine .or lv rv = some true) :
    lv = some true ∨ rv = some true := by
  revert lv rv
  decide

theorem combine_not_eq_true {lv rv : Option Bool} (h : combine .not lv rv = some true)
    (hl : lv ≠ none) : lv = some true := by
  revert lv rv
  decide

theorem combine_eq_none {op : BoolOp} {lv rv : Option Bool} (h : combine op lv rv = none) :
    lv = none ∧ rv = none := by
  revert lv rv
  cases op <;> decide

end Verdicts

end Ed2kServer.Search.Evaluate
