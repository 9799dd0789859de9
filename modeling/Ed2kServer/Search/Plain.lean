import Ed2kServer.Search.Handle
import Ed2kServer.Slab.Codecs

namespace Ed2kServer.Search.Plain

open Ed2kServer.Text.Chars Ed2kServer.Keyword.Tokenizer
open Ed2kServer.Slab.Record Ed2kServer.Slab.MediaFields Ed2kServer.Slab.Codecs
open Ed2kServer.Search.Tree Ed2kServer.Search.Evaluate Ed2kServer.Search.Handle

/-- A query in two-valued logic over leaves that the server can judge. -/
inductive TwoValued
  | leaf (node : SearchNode)
  | and (l r : TwoValued)
  | or (l r : TwoValued)
  | andNot (l r : TwoValued)
  | complement (r : TwoValued)

/-- Whether the server knows the leaf's tag. -/
def judges : SearchNode → Bool
  | .term _ => true
  | .metaTag tag _ => tag.is 0x03 ["type"] || tag.is 0x04 ["format"] || tag.is 0xD5 CODEC_NAMES ||
      tag.is 0xD3 LENGTH_NAMES || tag = .id 0xD0 || tag = .id 0xD1 || tag = .id 0xD2
  | .numeric tag _ _ => tag.is 0x02 ["size", "filesize"] || tag.is 0x15 SOURCES_NAMES ||
      tag.is 0x30 COMPLETE_SOURCES_NAMES || tag.is 0xD3 LENGTH_NAMES ||
      tag.is 0xD4 BITRATE_NAMES
  | .bool .. => false

/-- What is left of a node once both its sides have been gone through. -/
def join : BoolOp → Option TwoValued → Option TwoValued → Option TwoValued
  | _, none, none => none
  | .not, none, some b => some (.complement b)
  | .and, none, some b | .or, none, some b => some b
  | _, some a, none => some a
  | .and, some a, some b => some (.and a b)
  | .or, some a, some b => some (.or a b)
  | .not, some a, some b => some (.andNot a b)

/-- The query without the leaves that cannot be judged; `none` when nothing is left. -/
def delete : SearchNode → Option TwoValued
  | .bool op l r => join op (delete l) (delete r)
  | node => if judges node then some (.leaf node) else none

variable (U : Unicode) (codecs : CodecInner) (entry : FileRecord) (media : Media)

/-- Every word of a folded text in the folded name. -/
def allWords (text : Str) : Bool :=
  (U.splitWhitespace (foldForMatch U text)).all
    (wordMatches U · (foldForMatch U entry.name))

/-- The meaning of a leaf, read off the whole record. -/
def leafHolds : SearchNode → Bool
  | .term t => allWords U entry t
  | .metaTag tag value =>
    if tag.is 0x03 ["type"] then
      fileTypeMatches (foldForMatch U entry.name) (foldForMatch U value)
    else if tag.is 0x04 ["format"] then
      afterLastDot (foldForMatch U entry.name) == foldForMatch U value
    else if tag.is 0xD5 CODEC_NAMES then
      (normalise U (foldForMatch U value)).any (fun n => codecs.name (codec media) == some n)
    else if tag.is 0xD3 LENGTH_NAMES then
      length media == parseLengthText U (foldForMatch U value)
    else allWords U entry value
  | .numeric tag op value =>
    if tag.is 0x02 ["size", "filesize"] then op.matchesU64 entry.size value
    else if tag.is 0x15 SOURCES_NAMES then
      op.matchesU64 (UInt32.ofNat entry.sources.length).toUInt64 value
    else if tag.is 0x30 COMPLETE_SOURCES_NAMES then
      op.matchesU64 (completeSourceCount entry).toUInt64 value
    else if tag.is 0xD3 LENGTH_NAMES then op.matchesU64 (length media).toUInt64 value
    else op.matchesU64 (bitrate media).toUInt64 value
  | .bool .. => true

def TwoValued.holds : TwoValued → Bool
  | .leaf node => leafHolds U codecs entry media node
  | .and l r => l.holds && r.holds
  | .or l r => l.holds || r.holds
  | .andNot l r => l.holds && !r.holds
  | .complement r => !r.holds

/-- A query of which nothing is left matches every file. -/
def plainVerdict (tree : SearchNode) : Bool :=
  ((delete tree).map (TwoValued.holds U codecs entry media)).getD true

section Lazy

variable {U} {nameLower : Str} {facts facts' : FileFacts}

/-- The verdict reads the complete count and the media fields only where the two walks of the
tree say so. -/
theorem evalNode_congr (hsize : facts.size = facts'.size) (hsrc : facts.sources = facts'.sources)
    (fold : Bool) (node : SearchNode)
    (hcomplete : usesCompleteSources node → facts.completeSources = facts'.completeSources)
    (hmedia : usesMedia node → facts.media = facts'.media) :
    evalNode U nameLower facts fold node = evalNode U nameLower facts' fold node := by
  induction node with
  | bool op l r ihl ihr =>
    simp only [usesCompleteSources, usesMedia, Bool.or_eq_true] at hcomplete hmedia
    rw [evalNode, evalNode, ihl (fun h => hcomplete (Or.inl h)) (fun h => hmedia (Or.inl h)),
      ihr (fun h => hcomplete (Or.inr h)) (fun h => hmedia (Or.inr h))]
  | term t => rfl
  | metaTag tag value =>
    simp only [usesMedia, Bool.or_eq_true] at hmedia
    simp only [evalNode]
    by_cases hcodec : tag.is 0xD5 CODEC_NAMES
    · rw [hmedia (Or.inl hcodec)]
    · by_cases hlength : tag.is 0xD3 LENGTH_NAMES
      · rw [hmedia (Or.inr hlength)]
      · simp only [if_neg hcodec, if_neg hlength]
  | numeric tag op value =>
    simp only [usesCompleteSources, usesMedia, Bool.or_eq_true] at hcomplete hmedia
    simp only [evalNode, hsize, hsrc]
    by_cases hc : tag.is 0x30 COMPLETE_SOURCES_NAMES
    · simp only [if_pos hc, hcomplete hc]
    · simp only [if_neg hc]
      by_cases hl : tag.is 0xD3 LENGTH_NAMES
      · simp only [if_pos hl, hmedia (Or.inl hl)]
      · simp only [if_neg hl]
        by_cases hb : tag.is 0xD4 BITRATE_NAMES
        · simp only [if_pos hb, hmedia (Or.inr hb)]
        · simp only [if_neg hb]

end Lazy

/-- All facts of a record. -/
def allFacts : FileFacts := fileFacts entry true (some media)

theorem parseU8_toString (i : UInt8) : parseU8 (toString i).toList = some i := by
  have h : ∀ n : Fin 256, parseU8 (toString (UInt8.ofFin n)).toList = some (UInt8.ofFin n) := by
    decide +kernel
  exact h i.toFin

/-- A codec resolved to its index is the file's just when the names agree. -/
theorem codecMatches_resolved (value : Str) :
    codecMatches (some media)
        (CODEC_INDEX_MARK :: (toString ((codecs.table.lookup U value).getD 0)).toList) =
      some ((normalise U value).any (fun n => codecs.name (codec media) == some n)) := by
  have hrun : ∀ i : UInt8, codecMatches (some media) (CODEC_INDEX_MARK :: (toString i).toList) =
      some (i != 0 && codec media == i) := by
    intro i
    simp [codecMatches, parseU8_toString]
  have htable : codecs.table.index = codecs.indexOf := rfl
  rw [hrun, CodecTable.lookup, htable]
  congr 1
  cases hn : normalise U value with
  | none => rfl
  | some n =>
    rw [Option.bind_some, Option.any_some]
    cases hi : codecs.indexOf n with
    | none =>
      have hne : codecs.name (codec media) ≠ some n := by
        intro h
        rw [(indexOf_eq_some_iff codecs n (codec media)).mpr h] at hi
        cases hi
      simp [hne]
    | some i =>
      have hname := (indexOf_eq_some_iff codecs n i).mp hi
      have hi0 : i ≠ 0 := by
        intro h0
        rw [h0, CodecInner.name, if_pos rfl] at hname
        cases hname
      have hsame : codec media = i ↔ codecs.name (codec media) = some n := by
        constructor
        · intro h
          rw [h, hname]
        · intro h
          have hm := (indexOf_eq_some_iff codecs n (codec media)).mpr h
          rw [hi, Option.some.injEq] at hm
          exact hm.symm
      rw [Option.getD_some, Bool.eq_iff_iff]
      simp [hi0, hsame]

theorem combine_join (op : BoolOp) (l r : Option TwoValued) :
    combine op (l.map (TwoValued.holds U codecs entry media))
        (r.map (TwoValued.holds U codecs entry media)) =
      (join op l r).map (TwoValued.holds U codecs entry media) := by
  cases l with
  | none => cases r <;> cases op <;> rfl
  | some a =>
    cases ha : a.holds U codecs entry media <;> cases r <;> cases op <;>
      simp [combine, join, ha, TwoValued.holds]

theorem not_type_of_codec {tag : SearchTag} (h : tag.is 0xD5 CODEC_NAMES = true) :
    tag.is 0x03 ["type"] = false ∧ tag.is 0x04 ["format"] = false := by
  cases tag with
  | id i =>
    have hi : i = 0xD5 := by simpa [SearchTag.is] using h
    rw [hi]
    decide
  | name n =>
    have hn : toAsciiLowercase n = toAsciiLowercase "codec".toList := by
      simpa [SearchTag.is, CODEC_NAMES] using h
    simp only [SearchTag.is, List.any_cons, List.any_nil, Bool.or_false, hn]
    decide

theorem evalNode_metaTag (tag : SearchTag) (value : Str) :
    evalNode U (foldForMatch U entry.name) (allFacts entry media) false
        (resolveCodecs (codecs.table.lookup U) (.metaTag tag (foldForMatch U value))) =
      (if judges (.metaTag tag value) then some (TwoValued.leaf (.metaTag tag value))
        else none).map (TwoValued.holds U codecs entry media) := by
  by_cases hcodec : tag.is 0xD5 CODEC_NAMES = true
  · obtain ⟨htype, hformat⟩ := not_type_of_codec hcodec
    simp only [resolveCodecs, evalNode, htype, hformat, judges, leafHolds,
      TwoValued.holds, hcodec, Bool.false_eq_true, if_false, Bool.false_or, Bool.true_or,
      if_true, Option.map_some]
    exact codecMatches_resolved U codecs media (foldForMatch U value)
  · simp only [resolveCodecs, if_neg hcodec, evalNode, judges]
    by_cases htype : tag.is 0x03 ["type"] = true
    · simp [htype, TwoValued.holds, leafHolds]
    · by_cases hformat : tag.is 0x04 ["format"] = true
      · simp [htype, hformat, TwoValued.holds, leafHolds]
      · by_cases hlength : tag.is 0xD3 LENGTH_NAMES = true
        · simp [htype, hformat, hcodec, hlength, allFacts, fileFacts, TwoValued.holds, leafHolds]
        · by_cases hwords : tag = .id 0xD0 ∨ tag = .id 0xD1 ∨ tag = .id 0xD2
          · simp [htype, hformat, hcodec, hlength, hwords, or_assoc, allWords, TwoValued.holds,
              leafHolds]
          · simp [htype, hformat, hcodec, hlength, hwords, or_assoc]

theorem evalNode_numeric (tag : SearchTag) (op : CmpOp) (value : UInt64) :
    evalNode U (foldForMatch U entry.name) (allFacts entry media) false (.numeric tag op value) =
      (if judges (.numeric tag op value) then some (TwoValued.leaf (.numeric tag op value))
        else none).map (TwoValued.holds U codecs entry media) := by
  simp only [evalNode, judges, allFacts, fileFacts]
  by_cases hsize : tag.is 0x02 ["size", "filesize"] = true
  · simp [hsize, TwoValued.holds, leafHolds]
  · by_cases hsources : tag.is 0x15 SOURCES_NAMES = true
    · simp [hsize, hsources, TwoValued.holds, leafHolds]
    · by_cases hcomplete : tag.is 0x30 COMPLETE_SOURCES_NAMES = true
      · simp [hsize, hsources, hcomplete, TwoValued.holds, leafHolds]
      · by_cases hlength : tag.is 0xD3 LENGTH_NAMES = true
        · simp [hsize, hsources, hcomplete, hlength, TwoValued.holds, leafHolds]
        · by_cases hbitrate : tag.is 0xD4 BITRATE_NAMES = true
          · simp [hsize, hsources, hcomplete, hlength, hbitrate, TwoValued.holds, leafHolds]
          · simp [hsize, hsources, hcomplete, hlength, hbitrate]

/-- With all facts at hand the rewritten tree is judged as the plain query. -/
theorem evalNode_rewritten (tree : SearchNode) :
    evalNode U (foldForMatch U entry.name) (allFacts entry media) false
        (resolveCodecs (codecs.table.lookup U) (prepare U tree)) =
      (delete tree).map (TwoValued.holds U codecs entry media) := by
  induction tree with
  | term t => rfl
  | metaTag tag value => exact evalNode_metaTag U codecs entry media tag value
  | numeric tag op value => exact evalNode_numeric U codecs entry media tag op value
  | bool op l r ihl ihr =>
    rw [prepare, resolveCodecs, evalNode, ihl, ihr, delete, combine_join]

/-- The verdict of the searches, which fold once, compare codecs as indices and look a file's
media fields up only when the tree asks for them. -/
theorem accepts_eq_plainVerdict (st : Server) (tree : SearchNode) (groups : List (List Str))
    (id : FileId) (stored : Option Media) :
    let q := query U { st with codecs := codecs.table } tree groups
    q.accepts U ⟨id, entry, if q.wantMedia then stored else none⟩ =
      plainVerdict U codecs entry (stored.getD 0) tree := by
  intro q
  rw [plainVerdict, ← evalNode_rewritten, Query.accepts, evaluatePrepared]
  congr 1
  apply evalNode_congr
  · rfl
  · rfl
  · intro h
    have hw : q.wantComplete = true := h
    simp only [fileFacts, allFacts, hw]
  · intro h
    have hw : q.wantMedia = true := h
    simp only [fileFacts, allFacts, hw, if_true]

end Ed2kServer.Search.Plain
