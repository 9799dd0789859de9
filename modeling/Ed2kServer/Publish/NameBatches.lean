import Ed2kServer.Publish.NameDb

namespace Ed2kServer.Publish.NameBatches

open Ed2kServer.Lib.Assoc Ed2kServer.Slab.Record Ed2kServer.Publish.NameDb

/-- What a change makes of the row of its key. -/
def applyChange (c : Str × Change) (row : Option Row) : Option Row :=
  match c.2 with
  | .new size layer rule whitelisted pubs firstSeen =>
    row.or (some (insertRow c.1 size layer rule whitelisted pubs firstSeen))
  | .update pubs added verdict => row.map (applyUpdate pubs added verdict)

/-- The rows as they would be if all that waits were written. -/
def view (w : Writer) (k : Key) : Option Row :=
  (w.pending.lookup k).elim (w.names.lookup k) fun c => applyChange c (w.names.lookup k)

/-- Does a change fit the row of its key? -/
def Fits (row : Option Row) : Change → Prop
  | .new _ _ _ _ _ _ => row = none
  | .update pubs added verdict =>
    (∃ r, row = some r ∧ pubs.length = r.pubs.length + added ∧ (added = 0 → pubs = r.pubs)) ∧
      ∀ v, verdict = some v → v.1 ≠ 0

/-- What the rows say of themselves and of their number. -/
def countsOf (names : List (Key × Row)) : Counts :=
  ⟨(names.map fun e => e.1.hash).dedup.length, names.length,
    (names.map fun e => e.2.pubs.length).sum⟩

structure Counted (row : Row) : Prop where
  npubs : row.npubs = row.pubs.length
  nnets : row.nnets = distinctNets row.pubs

def isNew (c : Str × Change) : Bool :=
  match c.2 with
  | .new _ _ _ _ _ _ => true
  | .update _ _ _ => false

/-- The stored rows and the counters of a writer agree with each other. -/
structure Consistent (w : Writer) : Prop where
  keys : (w.names.map Prod.fst).Nodup
  counted : ∀ k row, w.names.lookup k = some row → Counted row
  metaCounts : w.metaCounts = countsOf w.names
  stats : w.stats = countsOf w.names

/-- What waits fits the stored rows. -/
structure Inv (w : Writer) : Prop extends Consistent w where
  pendingKeys : (w.pending.map Prod.fst).Nodup
  fits : ∀ k c, w.pending.lookup k = some c → Fits (w.names.lookup k) c.2
  waiting : ∀ h, w.newPerHash h =
    (w.pending.filter fun e => isNew e.2 && decide (e.1.hash = h)).length

section Write

theorem pubs_updateVerdict (verdict : UInt8 × Option Str × Bool) (row : Row) :
    (updateVerdict verdict row).pubs = row.pubs := by
  rw [updateVerdict]
  split
  · rfl
  · rfl

theorem pubs_applyUpdate {pubs : List Publisher} {added : Nat} {row : Row}
    (hsame : added = 0 → pubs = row.pubs) (verdict : Option (UInt8 × Option Str × Bool)) :
    (applyUpdate pubs added verdict row).pubs = pubs := by
  have hpubs : (if 0 < added then updatePubs pubs row else row).pubs = pubs := by
    by_cases hadded : 0 < added
    · rw [if_pos hadded]
      rfl
    · rw [if_neg hadded, hsame (Nat.eq_zero_of_not_pos hadded)]
  rw [applyUpdate]
  cases verdict with
  | none => exact hpubs
  | some v => exact (pubs_updateVerdict v _).trans hpubs

theorem lookup_writeOne (t : List (Key × Row) × Counts) (c : Key × Str × Change) (k : Key) :
    (writeOne t c).1.lookup k =
      if k = c.1 then applyChange c.2 (t.1.lookup k) else t.1.lookup k := by
  obtain ⟨key, name, change⟩ := c
  cases change with
  | update pubs added verdict =>
    exact lookup_alter t.1 key (applyUpdate pubs added verdict) k
  | new size layer rule whitelisted pubs firstSeen =>
    simp only [writeOne, applyChange]
    cases hrow : t.1.lookup key with
    | some row =>
      rw [if_pos (by rfl)]
      by_cases hk : k = key
      · rw [if_pos hk, hk, hrow, Option.some_or]
      · rw [if_neg hk]
    | none =>
      rw [if_neg (by simp), lookup_concat]
      by_cases hk : k = key
      · rw [if_pos hk, if_pos hk, hk, hrow]
      · rw [if_neg hk, if_neg hk, Option.or_none]

/-- A batch changes each row by the change of its key. -/
theorem lookup_batch {batch : List (Key × Str × Change)} (hkeys : (batch.map Prod.fst).Nodup)
    (t : List (Key × Row) × Counts) (k : Key) :
    (batch.foldl writeOne t).1.lookup k =
      (batch.lookup k).elim (t.1.lookup k) fun c => applyChange c (t.1.lookup k) := by
  induction batch generalizing t with
  | nil => rfl
  | cons c batch ih =>
    obtain ⟨hnot, hkeys⟩ := List.nodup_cons.mp hkeys
    rw [List.foldl_cons, ih hkeys, lookup_writeOne, List.lookup_cons]
    by_cases hk : k = c.1
    · subst hk
      rw [lookup_eq_none_iff_notMem.mpr hnot, beq_self_eq_true, if_pos rfl]
      rfl
    · rw [beq_false_of_ne hk, if_neg hk]

theorem keys_writeOne {t : List (Key × Row) × Counts} (c : Key × Str × Change)
    (hkeys : (t.1.map Prod.fst).Nodup) : ((writeOne t c).1.map Prod.fst).Nodup := by
  obtain ⟨key, name, change⟩ := c
  cases change with
  | update pubs added verdict => rwa [writeOne, keys_alter]
  | new size layer rule whitelisted pubs firstSeen =>
    simp only [writeOne]
    split
    · exact hkeys
    · rename_i hnone
      rw [Bool.not_eq_true, Option.isSome_eq_false_iff, Option.isNone_iff_eq_none,
        lookup_eq_none_iff_notMem] at hnone
      rw [List.map_append, List.map_singleton, ← List.concat_eq_append]
      exact hkeys.concat hnone

theorem length_dedup_concat (hs : List FileHash) (h : FileHash) :
    (hs ++ [h]).dedup.length = if h ∈ hs then hs.dedup.length else hs.dedup.length + 1 := by
  have hset : (hs ++ [h]).toFinset = insert h hs.toFinset := by
    ext x
    rw [List.mem_toFinset, List.mem_append, List.mem_singleton, Finset.mem_insert,
      List.mem_toFinset, or_comm]
  rw [← List.card_toFinset, ← List.card_toFinset, hset]
  by_cases hmem : h ∈ hs
  · rw [if_pos hmem, Finset.insert_eq_of_mem (List.mem_toFinset.mpr hmem)]
  · rw [if_neg hmem, Finset.card_insert_of_notMem (mt List.mem_toFinset.mp hmem)]

/-- What is added to the counts of a table. -/
theorem counts_writeOne {base : Counts} {t : List (Key × Row) × Counts} {c : Key × Str × Change}
    (hkeys : (t.1.map Prod.fst).Nodup) (hfits : Fits (t.1.lookup c.1) c.2.2)
    (h : base.add t.2 = countsOf t.1) : base.add (writeOne t c).2 = countsOf (writeOne t c).1 := by
  obtain ⟨key, name, change⟩ := c
  obtain ⟨hfiles, hnames, hpubs⟩ := Counts.mk.inj h
  cases change with
  | update pubs added verdict =>
    obtain ⟨⟨row, hrow, hlength, hsame⟩, -⟩ := hfits
    change t.1.lookup key = some row at hrow
    have hhashes : (alter t.1 key (applyUpdate pubs added verdict)).map (fun e => e.1.hash) =
        t.1.map fun e => e.1.hash := by
      rw [alter, List.map_map]
      rfl
    have hrowPubs := pubs_applyUpdate hsame verdict
    have hsum := sum_alter hkeys hrow (applyUpdate pubs added verdict) fun r => r.pubs.length
    rw [hrowPubs] at hsum
    refine Counts.mk.injEq .. ▸ ⟨?_, ?_, ?_⟩
    · exact hfiles.trans (congrArg (fun l => l.dedup.length) hhashes.symm)
    · exact hnames.trans (length_alter t.1 key _).symm
    · change base.publishers + (t.2.publishers + added) =
        ((alter t.1 key (applyUpdate pubs added verdict)).map fun e => e.2.pubs.length).sum
      change base.publishers + t.2.publishers = (t.1.map fun e => e.2.pubs.length).sum at hpubs
      omega
  | new size layer rule whitelisted pubs firstSeen =>
    have hnone : ¬(t.1.lookup key).isSome = true := by
      rw [hfits]
      exact Bool.false_ne_true
    have hmem : (t.1.any fun e => decide (e.1.hash = key.hash)) = true ↔
        key.hash ∈ t.1.map fun e => e.1.hash := by
      simp only [List.any_eq_true, decide_eq_true_eq, List.mem_map]
    simp only [writeOne]
    rw [if_neg hnone]
    refine Counts.mk.injEq .. ▸ ⟨?_, ?_, ?_⟩
    · rw [List.map_append, List.map_singleton, length_dedup_concat, ← hfiles]
      by_cases hknown : key.hash ∈ t.1.map fun e => e.1.hash
      · rw [if_pos hknown, if_pos (hmem.mpr hknown)]
      · rw [if_neg hknown, if_neg (mt hmem.mp hknown)]
        exact (Nat.add_assoc _ _ _).symm
    · rw [List.length_append, List.length_singleton, ← hnames]
      exact (Nat.add_assoc _ _ _).symm
    · rw [List.map_append, List.sum_append, ← hpubs]
      exact (Nat.add_assoc _ _ _).symm

theorem counted_updateVerdict (verdict : UInt8 × Option Str × Bool) {row : Row}
    (hrow : Counted row) : Counted (updateVerdict verdict row) := by
  rw [updateVerdict]
  split
  · exact ⟨hrow.npubs, hrow.nnets⟩
  · exact hrow

theorem counted_applyUpdate {pubs : List Publisher} {added : Nat} {row : Row}
    (verdict : Option (UInt8 × Option Str × Bool)) (hrow : Counted row) :
    Counted (applyUpdate pubs added verdict row) := by
  have hpubs : Counted (if 0 < added then updatePubs pubs row else row) := by
    split
    · exact ⟨rfl, rfl⟩
    · exact hrow
  rw [applyUpdate]
  cases verdict with
  | none => exact hpubs
  | some v => exact counted_updateVerdict v hpubs

theorem counted_applyChange {c : Str × Change} {row : Option Row} {r : Row}
    (hrow : ∀ r, row = some r → Counted r) (h : applyChange c row = some r) : Counted r := by
  obtain ⟨name, change⟩ := c
  cases change with
  | new size layer rule whitelisted pubs firstSeen =>
    cases row with
    | none =>
      rw [← Option.some.inj h]
      exact ⟨rfl, rfl⟩
    | some r' => exact hrow r h
  | update pubs added verdict =>
    obtain ⟨r', hr', rfl⟩ := Option.map_eq_some_iff.mp h
    exact counted_applyUpdate verdict (hrow r' hr')

/-- A batch adds to the counts of a table what it adds to the table. -/
theorem counts_batch {base : Counts} {batch : List (Key × Str × Change)}
    (hkeys : (batch.map Prod.fst).Nodup) {t : List (Key × Row) × Counts}
    (hnames : (t.1.map Prod.fst).Nodup)
    (hfits : ∀ k c, batch.lookup k = some c → Fits (t.1.lookup k) c.2)
    (h : base.add t.2 = countsOf t.1) :
    ((batch.foldl writeOne t).1.map Prod.fst).Nodup ∧
      base.add (batch.foldl writeOne t).2 = countsOf (batch.foldl writeOne t).1 := by
  induction batch generalizing t with
  | nil => exact ⟨hnames, h⟩
  | cons c batch ih =>
    obtain ⟨hnot, hrest⟩ := List.nodup_cons.mp hkeys
    have hc : Fits (t.1.lookup c.1) c.2.2 :=
      hfits c.1 c.2 (lookup_of_mem hkeys List.mem_cons_self)
    refine ih hrest (keys_writeOne c hnames) (fun k d hd => ?_) (counts_writeOne hnames hc h)
    have hk : k ≠ c.1 := fun heq => hnot (heq ▸ List.mem_map_of_mem (mem_of_lookup hd))
    rw [lookup_writeOne, if_neg hk]
    refine hfits k d ?_
    rw [List.lookup_cons, beq_false_of_ne hk]
    exact hd

end Write

section Flush

variable {w : Writer}

theorem flush_nil (h : w.pending = []) : w.flush = { w with newPerHash := fun _ => 0 } := by
  rw [Writer.flush, if_pos h]

/-- The batch of a flush. -/
def batchOf (w : Writer) : List (Key × Str × Change) := w.pending.mergeSort fun a b => keyLe a.1 b.1

def written (w : Writer) : List (Key × Row) × Counts :=
  (batchOf w).foldl writeOne (w.names, ⟨0, 0, 0⟩)

theorem flush_ne_nil (h : w.pending ≠ []) :
    w.flush = ⟨(written w).1, w.stats.add (written w).2, w.stats.add (written w).2, [],
      fun _ => 0⟩ := by
  rw [Writer.flush, if_neg h]
  rfl

theorem lookup_written (hw : Inv w) (k : Key) : (written w).1.lookup k = view w k := by
  have hperm := (List.mergeSort_perm w.pending fun a b => keyLe a.1 b.1).symm
  have hkeys := (hperm.map Prod.fst).nodup_iff.mp hw.pendingKeys
  rw [written, batchOf, lookup_batch hkeys, lookup_perm hperm hw.pendingKeys, view]

theorem consistent_written (hw : Inv w) : ((written w).1.map Prod.fst).Nodup ∧
    w.stats.add (written w).2 = countsOf (written w).1 := by
  have hperm := (List.mergeSort_perm w.pending fun a b => keyLe a.1 b.1).symm
  have hkeys := (hperm.map Prod.fst).nodup_iff.mp hw.pendingKeys
  refine counts_batch hkeys hw.keys (fun k c hc => ?_) hw.stats
  rw [lookup_perm hperm hw.pendingKeys] at hc
  exact hw.fits k c hc

theorem pending_flush (w : Writer) : w.flush.pending = [] := by
  by_cases h : w.pending = []
  · rw [flush_nil h]
    exact h
  · rw [flush_ne_nil h]

/-- A flush writes what was to be written. -/
theorem lookup_flush (hw : Inv w) (k : Key) : w.flush.names.lookup k = view w k := by
  by_cases h : w.pending = []
  · rw [flush_nil h, view, h]
    rfl
  · rw [flush_ne_nil h]
    exact lookup_written hw k

theorem view_flush (hw : Inv w) (k : Key) : view w.flush k = view w k := by
  rw [view, pending_flush]
  exact lookup_flush hw k

theorem inv_flush (hw : Inv w) : Inv w.flush := by
  by_cases h : w.pending = []
  · rw [flush_nil h]
    refine ⟨⟨hw.keys, hw.counted, hw.metaCounts, hw.stats⟩, hw.pendingKeys, hw.fits, fun hash => ?_⟩
    change 0 = (w.pending.filter _).length
    rw [h]
    rfl
  · rw [flush_ne_nil h]
    obtain ⟨hkeys, hcounts⟩ := consistent_written hw
    refine ⟨⟨hkeys, fun k row hrow => ?_, hcounts, hcounts⟩, List.nodup_nil,
      fun k c hc => absurd hc.symm (Option.some_ne_none c), fun hash => rfl⟩
    change (written w).1.lookup k = some row at hrow
    rw [lookup_written hw, view] at hrow
    cases hc : w.pending.lookup k with
    | none =>
      rw [hc] at hrow
      exact hw.counted k row hrow
    | some c =>
      rw [hc] at hrow
      exact counted_applyChange (hw.counted k) hrow

end Flush

/-- How many rows of a hash there are, with those that wait. -/
def held (w : Writer) (h : FileHash) : Nat := w.stored h + w.newPerHash h

section Stored

def storedIn (names : List (Key × Row)) (h : FileHash) : Nat :=
  (names.filter fun e => decide (e.1.hash = h)).length

theorem storedIn_alter (names : List (Key × Row)) (k : Key) (f : Row → Row) (h : FileHash) :
    storedIn (alter names k f) h = storedIn names h :=
  length_filter_alter names k fun _ _ => rfl

theorem storedIn_writeOne {t : List (Key × Row) × Counts} {c : Key × Str × Change}
    (hfits : Fits (t.1.lookup c.1) c.2.2) (h : FileHash) :
    storedIn (writeOne t c).1 h =
      storedIn t.1 h + if isNew c.2 && decide (c.1.hash = h) then 1 else 0 := by
  obtain ⟨key, name, change⟩ := c
  cases change with
  | update pubs added verdict => exact storedIn_alter t.1 key _ h
  | new size layer rule whitelisted pubs firstSeen =>
    have hnone : ¬(t.1.lookup key).isSome = true := by
      rw [hfits]
      exact Bool.false_ne_true
    simp only [writeOne, isNew, Bool.true_and]
    rw [if_neg hnone, storedIn, List.filter_append, List.length_append, List.filter_singleton]
    by_cases hh : key.hash = h
    · simp [hh, storedIn]
    · simp [hh, storedIn]

theorem storedIn_batch {batch : List (Key × Str × Change)} (hkeys : (batch.map Prod.fst).Nodup)
    {t : List (Key × Row) × Counts}
    (hfits : ∀ k c, batch.lookup k = some c → Fits (t.1.lookup k) c.2) (h : FileHash) :
    storedIn (batch.foldl writeOne t).1 h =
      storedIn t.1 h + (batch.filter fun e => isNew e.2 && decide (e.1.hash = h)).length := by
  induction batch generalizing t with
  | nil => rfl
  | cons c batch ih =>
    obtain ⟨hnot, hrest⟩ := List.nodup_cons.mp hkeys
    have hc : Fits (t.1.lookup c.1) c.2.2 :=
      hfits c.1 c.2 (lookup_of_mem hkeys List.mem_cons_self)
    rw [List.foldl_cons, ih hrest (fun k d hd => ?_), storedIn_writeOne hc, List.filter_cons]
    · split
      · rw [List.length_cons]
        omega
      · omega
    · have hk : k ≠ c.1 := fun heq => hnot (heq ▸ List.mem_map_of_mem (mem_of_lookup hd))
      rw [lookup_writeOne, if_neg hk]
      refine hfits k d ?_
      rw [List.lookup_cons, beq_false_of_ne hk]
      exact hd

/-- What waits for a hash counts as stored, before the flush and after it. -/
theorem held_flush {w : Writer} (hw : Inv w) (h : FileHash) : held w.flush h = held w h := by
  by_cases hnil : w.pending = []
  · have hwaiting := hw.waiting h
    rw [hnil] at hwaiting
    rw [flush_nil hnil, held, held, hwaiting]
    rfl
  · have hperm := (List.mergeSort_perm w.pending fun a b => keyLe a.1 b.1).symm
    have hkeys := (hperm.map Prod.fst).nodup_iff.mp hw.pendingKeys
    have hbatch := storedIn_batch hkeys (t := (w.names, ⟨0, 0, 0⟩)) (fun k c hc => by
      rw [lookup_perm hperm hw.pendingKeys] at hc
      exact hw.fits k c hc) h
    rw [← (hperm.filter _).length_eq, ← hw.waiting h] at hbatch
    rw [flush_ne_nil hnil]
    exact hbatch

end Stored

end Ed2kServer.Publish.NameBatches
