import Ed2kServer.Keyword.Refinement

namespace Ed2kServer.Keyword.FileStep

open Ed2kServer.Text.Chars
open Ed2kServer.Keyword.Tokenizer Ed2kServer.Keyword.Index Ed2kServer.Keyword.Lookup
open Ed2kServer.Keyword.Compact Ed2kServer.Keyword.Abstract Ed2kServer.Keyword.TokenStep
open Ed2kServer.Keyword.Refinement

/-- The tiers agree with some sets of files. -/
def Consistent (ix : KeywordIndex) : Prop := ∃ p files, Agrees ix p files

/-- A lookup of the token hash yields the file. -/
def Findable (ix : KeywordIndex) (th : TokenHash) (id : FileId) : Prop :=
  id ∈ (ix.materialize th).getD []

variable {U : Unicode} {ix : KeywordIndex} {p : Tier} {files : TokenHash → Set FileId}

theorem findable_iff (h : Agrees ix p files) (th : TokenHash) (id : FileId) :
    Findable ix th id ↔ id ∈ files th := by
  rw [Findable, KeywordIndex.materialize, h.sound.mergeTiersLocked_max, mem_posting_iff h]

theorem agrees_foldl (op : Op) (id : FileId) (h : Agrees ix p files) (ths : List TokenHash) :
    Agrees ((ths.map (fun th => (⟨op, id, th⟩ : TokenOp))).foldl perform ix) p
      ((ths.map (fun th => (⟨op, id, th⟩ : TokenOp))).foldl applyOp files) := by
  induction ths generalizing ix files with
  | nil => exact h
  | cons th ths ih => exact ih (agrees_perform h ⟨op, id, th⟩)

theorem addFile_eq (ix : KeywordIndex) (id : FileId) (name : Str) : ix.addFile U id name =
    ((ix.tokenHashes U name).map (fun th => (⟨.add, id, th⟩ : TokenOp))).foldl perform ix := by
  rw [KeywordIndex.addFile, List.foldl_map]
  rfl

theorem removeFile_eq (ix : KeywordIndex) (id : FileId) (name : Str) : ix.removeFile U id name =
    ((ix.tokenHashes U name).map (fun th => (⟨.remove, id, th⟩ : TokenOp))).foldl perform ix := by
  rw [KeywordIndex.removeFile, List.foldl_map]
  rfl

theorem agrees_addFile (h : Agrees ix p files) (id : FileId) (name : Str) :
    Agrees (ix.addFile U id name) p
      (((ix.tokenHashes U name).map (fun th => (⟨.add, id, th⟩ : TokenOp))).foldl applyOp files) := by
  rw [addFile_eq]
  exact agrees_foldl .add id h _

theorem agrees_removeFile (h : Agrees ix p files) (id : FileId) (name : Str) :
    Agrees (ix.removeFile U id name) p (((ix.tokenHashes U name).map
      (fun th => (⟨.remove, id, th⟩ : TokenOp))).foldl applyOp files) := by
  rw [removeFile_eq]
  exact agrees_foldl .remove id h _

theorem foldl_perform_subtokens (os : List TokenOp) (ix : KeywordIndex) :
    (os.foldl perform ix).subtokens = ix.subtokens := by
  induction os generalizing ix with
  | nil => rfl
  | cons o os ih =>
    rw [List.foldl_cons, ih]
    obtain ⟨op, id, th⟩ := o
    cases op <;> rfl

@[simp] theorem addFile_subtokens (ix : KeywordIndex) (id : FileId) (name : Str) :
    (ix.addFile U id name).subtokens = ix.subtokens := by
  rw [addFile_eq, foldl_perform_subtokens]

@[simp] theorem removeFile_subtokens (ix : KeywordIndex) (id : FileId) (name : Str) :
    (ix.removeFile U id name).subtokens = ix.subtokens := by
  rw [removeFile_eq, foldl_perform_subtokens]

theorem consistent_withSubtokens (subtokens : Bool) :
    Consistent (.withSubtokens subtokens) := by
  have hsim : Simulates subtokens (.init subtokens) .init := simulates_init
  obtain ⟨p, hag, -⟩ := hsim.tiers
  exact ⟨p, _, hag⟩

theorem not_findable_withSubtokens (subtokens : Bool) (th : TokenHash) (id : FileId) :
    ¬ Findable (.withSubtokens subtokens) th id := by
  have hsim : Simulates subtokens (.init subtokens) .init := simulates_init
  obtain ⟨p, hag, -⟩ := hsim.tiers
  rw [show KeywordIndex.withSubtokens subtokens = (State.init subtokens).index from rfl,
    findable_iff hag]
  exact Set.notMem_empty id

/-- `add_file` makes the file findable under the tokens of the name. -/
theorem findable_addFile (h : Consistent ix) (id : FileId) (name : Str) :
    Consistent (ix.addFile U id name) ∧ ∀ th j, Findable (ix.addFile U id name) th j ↔
      Findable ix th j ∨ (j = id ∧ th ∈ ix.tokenHashes U name) := by
  obtain ⟨p, files, hag⟩ := h
  have hadd := agrees_addFile (U := U) hag id name
  refine ⟨⟨p, _, hadd⟩, fun th j => ?_⟩
  rw [findable_iff hadd, findable_iff hag, foldl_applyOp]
  split <;> simp [*, or_comm]

/-- `remove_file` takes it away from there. -/
theorem findable_removeFile (h : Consistent ix) (id : FileId) (name : Str) :
    Consistent (ix.removeFile U id name) ∧ ∀ th j, Findable (ix.removeFile U id name) th j ↔
      Findable ix th j ∧ ¬ (j = id ∧ th ∈ ix.tokenHashes U name) := by
  obtain ⟨p, files, hag⟩ := h
  have hrem := agrees_removeFile (U := U) hag id name
  refine ⟨⟨p, _, hrem⟩, fun th j => ?_⟩
  rw [findable_iff hrem, findable_iff hag, foldl_applyOp]
  split <;> simp [*]

end Ed2kServer.Keyword.FileStep
