import Ed2kServer.Publish.NameBatches

namespace Ed2kServer.Publish.NameAdd

open Ed2kServer.Lib.Assoc Ed2kServer.Slab.Record Ed2kServer.Publish.NameDb
open Ed2kServer.Publish.NameBatches

/-- A stored row that takes an offer at once. -/
def absorb (cap : Nat) (row : Row) (o : Offer) : Row :=
  { row with
    layer := if isFlagging row.layer o then o.layer else row.layer
    rule := if isFlagging row.layer o then o.rule else row.rule
    whitelisted := if isFlagging row.layer o then o.whitelisted else row.whitelisted
    npubs := (addPub cap row.pubs o.publisher).length
    nnets := distinctNets (addPub cap row.pubs o.publisher)
    pubs := addPub cap row.pubs o.publisher }

def start (o : Offer) (now : Int) : Row :=
  insertRow o.name o.size o.layer o.rule o.whitelisted [o.publisher] now

/-- Does the row of a key wait to be inserted? -/
def fresh (w : Writer) (k : Key) : Bool := (w.pending.lookup k).any isNew

/-- A row that waits to be inserted keeps a mark. -/
def keepMark (row row' : Row) (o : Offer) : Row :=
  { row' with whitelisted := row.whitelisted || o.whitelisted }

section Changes

variable {cap : Nat} {o : Offer}

theorem isNew_foldIn (c : Str × Change) : isNew (c.1, foldIn cap o c.2) = isNew c := by
  obtain ⟨name, change⟩ := c
  cases change with
  | new size layer rule whitelisted pubs firstSeen => rfl
  | update pubs added verdict => rfl

theorem length_addPub (pubs : List Publisher) (p : Publisher) :
    (addPub cap pubs p).length = pubs.length + if isAdded cap pubs p then 1 else 0 := by
  rw [addPub]
  split
  · rw [List.length_append, List.length_singleton]
  · rfl

theorem addPub_of_not {pubs : List Publisher} {p : Publisher} (h : isAdded cap pubs p = false) :
    addPub cap pubs p = pubs := by
  rw [addPub, h]
  rfl

theorem updatePubs_self {row : Row} (hrow : Counted row) : updatePubs row.pubs row = row := by
  rw [updatePubs, ← hrow.npubs, ← hrow.nnets]

/-- An update writes its publishers, whether some are new or none. -/
theorem applyUpdate_eq {pubs : List Publisher} {added : Nat} {row : Row} (hrow : Counted row)
    (hsame : added = 0 → pubs = row.pubs) (verdict : Option (UInt8 × Option Str × Bool)) :
    applyUpdate pubs added verdict row =
      verdict.elim (updatePubs pubs row) fun v => updateVerdict v (updatePubs pubs row) := by
  have hpubs : (if 0 < added then updatePubs pubs row else row) = updatePubs pubs row := by
    by_cases hadded : 0 < added
    · rw [if_pos hadded]
    · rw [if_neg hadded, hsame (Nat.eq_zero_of_not_pos hadded), updatePubs_self hrow]
  rw [applyUpdate, hpubs]

/-- A stored row and an offer. -/
theorem applyUpdate_stored (cap : Nat) (o : Offer) {row : Row} (hrow : Counted row) :
    applyUpdate (addPub cap row.pubs o.publisher)
        (if isAdded cap row.pubs o.publisher then 1 else 0)
        (if isFlagging row.layer o then some (o.layer, o.rule, o.whitelisted) else none) row =
      absorb cap row o := by
  rw [applyUpdate_eq hrow]
  · by_cases hflag : isFlagging row.layer o = true
    · have hclean : row.layer = 0 := eq_of_beq (Bool.and_eq_true _ _ ▸ hflag).1
      rw [if_pos hflag, Option.elim_some, updateVerdict, absorb]
      simp only [updatePubs, hclean, if_true]
      rw [hclean] at hflag
      simp only [hflag, if_true]
    · rw [if_neg hflag, Option.elim_none, absorb]
      simp only [hflag]
      rfl
  · intro hadded
    refine addPub_of_not (Bool.eq_false_iff.mpr fun h => ?_)
    rw [if_pos h] at hadded
    cases hadded

/-- A row whose change waits, and an offer. -/
theorem applyUpdate_foldIn {pubs : List Publisher} {added : Nat} {row : Row} (hrow : Counted row)
    (hsame : added = 0 → pubs = row.pubs) {verdict : Option (UInt8 × Option Str × Bool)}
    (hverdict : ∀ v, verdict = some v → v.1 ≠ 0) :
    applyUpdate (addPub cap pubs o.publisher)
        (if isAdded cap pubs o.publisher then added + 1 else added)
        (if o.layer != 0 && verdict.isNone then some (o.layer, o.rule, o.whitelisted) else verdict)
        row =
      absorb cap (applyUpdate pubs added verdict row) o := by
  rw [applyUpdate_eq hrow hsame, applyUpdate_eq hrow]
  · cases verdict with
    | none =>
      rw [Option.isNone_none, Bool.and_true, Option.elim_none, absorb]
      by_cases hlayer : (o.layer != 0) = true
      · rw [if_pos hlayer, Option.elim_some, updateVerdict]
        by_cases hclean : row.layer = 0
        · have hflag : isFlagging row.layer o = true := by
            rw [isFlagging, hclean, hlayer]
            rfl
          simp only [updatePubs, hclean, if_true]
          rw [hclean] at hflag
          simp only [hflag, if_true]
        · have hflag : isFlagging row.layer o = false := by
            rw [isFlagging, beq_false_of_ne hclean]
            rfl
          simp only [updatePubs, hclean, if_false, hflag, Bool.false_eq_true]
      · have hflag : isFlagging row.layer o = false := by
          rw [isFlagging, Bool.eq_false_iff.mpr hlayer, Bool.and_false]
        rw [if_neg hlayer, Option.elim_none]
        simp only [updatePubs, hflag, Bool.false_eq_true, if_false]
    | some v =>
      have hnone : (o.layer != 0 && (some v).isNone) = false := Bool.and_false _
      rw [hnone, if_neg Bool.false_ne_true, Option.elim_some, Option.elim_some, absorb]
      by_cases hclean : row.layer = 0
      · have hflag : isFlagging v.1 o = false := by
          rw [isFlagging, beq_false_of_ne (hverdict v rfl)]
          rfl
        simp only [updateVerdict, updatePubs, hclean, if_true, hflag, Bool.false_eq_true, if_false]
      · have hflag : isFlagging row.layer o = false := by
          rw [isFlagging, beq_false_of_ne hclean]
          rfl
        simp only [updateVerdict, updatePubs, hclean, if_false, hflag, Bool.false_eq_true]
  · intro hadded
    by_cases h : isAdded cap pubs o.publisher = true
    · rw [if_pos h] at hadded
      cases hadded
    · rw [if_neg h] at hadded
      rw [addPub_of_not (Bool.eq_false_iff.mpr h), hsame hadded]

/-- A row that waits to be inserted, and an offer. -/
theorem applyChange_foldIn_new (cap : Nat) (o : Offer) {c : Str × Change} (hc : isNew c = true) :
    ∃ row, applyChange c none = some row ∧
      applyChange (c.1, foldIn cap o c.2) none = some (keepMark row (absorb cap row o) o) := by
  obtain ⟨name, change⟩ := c
  cases change with
  | new size layer rule whitelisted pubs firstSeen => exact ⟨_, rfl, rfl⟩
  | update pubs added verdict => cases hc

end Changes

section Add

variable {s : Settings} {w : Writer} {o : Offer} {now : Int}

theorem add_pending {c : Str × Change} (hc : w.pending.lookup o.key = some c) :
    w.add s o now = { w with
      pending := alter w.pending o.key fun e => (e.1, foldIn s.publishersPerName o e.2) } := by
  rw [Writer.add, hc]

theorem add_stored {row : Row} (hc : w.pending.lookup o.key = none)
    (hrow : w.names.lookup o.key = some row) :
    w.add s o now =
      if !isAdded s.publishersPerName row.pubs o.publisher && !isFlagging row.layer o then w
      else { w with
        pending := w.pending ++ [(o.key, [], .update
          (addPub s.publishersPerName row.pubs o.publisher)
          (if isAdded s.publishersPerName row.pubs o.publisher then 1 else 0)
          (if isFlagging row.layer o then some (o.layer, o.rule, o.whitelisted) else none))] } := by
  simp only [Writer.add, hc, hrow]
  cases isFlagging row.layer o with
  | true => rfl
  | false => rfl

theorem add_new (hc : w.pending.lookup o.key = none) (hrow : w.names.lookup o.key = none) :
    w.add s o now =
      if s.namesPerHash ≤ held w o.key.hash then w
      else { w with
        newPerHash := Function.update w.newPerHash o.key.hash (w.newPerHash o.key.hash + 1)
        pending := w.pending ++ [(o.key, o.name,
          .new o.size o.layer o.rule o.whitelisted [o.publisher] now)] } := by
  simp only [Writer.add, hc, hrow]
  rfl

/-- An offer is of its own key. -/
theorem add_frame {k : Key} (hk : k ≠ o.key) :
    (w.add s o now).names = w.names ∧
      (w.add s o now).pending.lookup k = w.pending.lookup k := by
  have hconcat : ∀ c, (w.pending ++ [(o.key, c)]).lookup k = w.pending.lookup k := fun c => by
    rw [lookup_concat, if_neg hk, Option.or_none]
  cases hc : w.pending.lookup o.key with
  | some c =>
    have hother := lookup_alter w.pending o.key
      (fun e => (e.1, foldIn s.publishersPerName o e.2)) k
    rw [if_neg hk] at hother
    rw [add_pending hc]
    exact ⟨rfl, hother⟩
  | none =>
    cases hrow : w.names.lookup o.key with
    | some row =>
      rw [add_stored hc hrow]
      split
      · exact ⟨rfl, rfl⟩
      · exact ⟨rfl, hconcat _⟩
    | none =>
      rw [add_new hc hrow]
      split
      · exact ⟨rfl, rfl⟩
      · exact ⟨rfl, hconcat _⟩

theorem view_add_of_ne {k : Key} (hk : k ≠ o.key) : view (w.add s o now) k = view w k := by
  obtain ⟨hnames, hpending⟩ : (w.add s o now).names = w.names ∧ _ := add_frame hk
  rw [view, hnames, hpending, view]

theorem fresh_add_of_ne {k : Key} (hk : k ≠ o.key) : fresh (w.add s o now) k = fresh w k := by
  rw [fresh, (add_frame hk).2, fresh]

/-- What an offer of a known name does: its row takes it, and one that waits to be inserted keeps
its mark. -/
theorem add_known (s : Settings) (now : Int) (hw : Inv w) {row : Row}
    (hrow : view w o.key = some row) :
    view (w.add s o now) o.key = some (if fresh w o.key
        then keepMark row (absorb s.publishersPerName row o) o
        else absorb s.publishersPerName row o) ∧
      fresh (w.add s o now) o.key = fresh w o.key ∧
      ∀ h, held (w.add s o now) h = held w h := by
  cases hc : w.pending.lookup o.key with
  | some c =>
    have hlookup : ((w.add s o now).pending).lookup o.key =
        some (c.1, foldIn s.publishersPerName o c.2) := by
      rw [add_pending hc, lookup_alter, if_pos rfl, hc]
      rfl
    have hnames : (w.add s o now).names = w.names := by rw [add_pending hc]
    have hfits := hw.fits o.key c hc
    rw [view, hc, Option.elim_some] at hrow
    refine ⟨?_, ?_, fun h => by rw [add_pending hc]; rfl⟩
    · rw [view, hlookup, hnames, Option.elim_some, fresh, hc, Option.any_some]
      obtain ⟨name, change⟩ := c
      cases change with
      | new size layer rule whitelisted pubs firstSeen =>
        obtain ⟨row', hrow', hfold⟩ := applyChange_foldIn_new s.publishersPerName o
          (c := (name, .new size layer rule whitelisted pubs firstSeen)) rfl
        have hnone : w.names.lookup o.key = none := hfits
        rw [hnone] at hrow ⊢
        rw [hfold, ← Option.some.inj (hrow'.symm.trans hrow)]
        rfl
      | update pubs added verdict =>
        obtain ⟨⟨r, hr, -, hsame⟩, hverdict⟩ := hfits
        rw [hr] at hrow ⊢
        rw [← Option.some.inj hrow]
        exact congrArg some (applyUpdate_foldIn (hw.counted _ r hr) hsame hverdict)
    · rw [fresh, hlookup, fresh, hc, Option.any_some, Option.any_some, isNew_foldIn]
  | none =>
    have hfresh : fresh w o.key = false := by
      rw [fresh, hc]
      rfl
    rw [view, hc, Option.elim_none] at hrow
    have hcounted := hw.counted _ row hrow
    rw [hfresh, add_stored hc hrow, if_neg Bool.false_ne_true]
    have hstored := applyUpdate_stored s.publishersPerName o hcounted
    split
    · rename_i hnothing
      rw [Bool.and_eq_true, Bool.not_eq_true', Bool.not_eq_true'] at hnothing
      refine ⟨?_, hfresh, fun h => rfl⟩
      rw [view, hc, Option.elim_none, hrow, ← hstored, hnothing.1, hnothing.2,
        addPub_of_not hnothing.1]
      rfl
    · refine ⟨?_, ?_, fun h => rfl⟩
      · rw [view, lookup_concat, hc, if_pos rfl, Option.none_or, Option.elim_some]
        change (w.names.lookup o.key).map _ = _
        rw [hrow, Option.map_some, hstored]
      · rw [fresh, lookup_concat, hc, if_pos rfl]
        rfl

/-- What an offer of an unknown name does. -/
theorem add_unknown (s : Settings) (now : Int) (hw : Inv w) (hrow : view w o.key = none) :
    if s.namesPerHash ≤ held w o.key.hash then w.add s o now = w
    else view (w.add s o now) o.key = some (start o now) ∧
      fresh (w.add s o now) o.key = true ∧
      ∀ h, held (w.add s o now) h = held w h + if o.key.hash = h then 1 else 0 := by
  have hnone : w.pending.lookup o.key = none ∧ w.names.lookup o.key = none := by
    cases hc : w.pending.lookup o.key with
    | none =>
      rw [view, hc] at hrow
      exact ⟨rfl, hrow⟩
    | some c =>
      have hfits := hw.fits o.key c hc
      rw [view, hc, Option.elim_some] at hrow
      obtain ⟨name, change⟩ := c
      cases change with
      | new size layer rule whitelisted pubs firstSeen =>
        have hnames : w.names.lookup o.key = none := hfits
        rw [hnames] at hrow
        cases hrow
      | update pubs added verdict =>
        obtain ⟨⟨r, hr, -⟩, -⟩ := hfits
        rw [hr] at hrow
        cases hrow
  obtain ⟨hc, hnames⟩ := hnone
  rw [add_new hc hnames]
  by_cases hcap : s.namesPerHash ≤ held w o.key.hash
  · rw [if_pos hcap, if_pos hcap]
  · rw [if_neg hcap, if_neg hcap]
    refine ⟨?_, ?_, fun h => ?_⟩
    · rw [view, lookup_concat, hc, if_pos rfl, Option.none_or, Option.elim_some]
      change (w.names.lookup o.key).or _ = _
      rw [hnames]
      rfl
    · rw [fresh, lookup_concat, hc, if_pos rfl]
      rfl
    · change w.stored h + Function.update w.newPerHash o.key.hash _ h = _
      by_cases hh : o.key.hash = h
      · rw [hh, Function.update_self, if_pos rfl]
        rfl
      · rw [Function.update_of_ne (Ne.symm hh), if_neg hh]
        rfl

theorem fits_foldIn {row : Option Row} {cap : Nat} {c : Change} (h : Fits row c) :
    Fits row (foldIn cap o c) := by
  cases c with
  | new size layer rule whitelisted pubs firstSeen => exact h
  | update pubs added verdict =>
    obtain ⟨⟨r, hr, hlength, hsame⟩, hverdict⟩ := h
    refine ⟨⟨r, hr, ?_, fun hadded => ?_⟩, fun v hv => ?_⟩
    · rw [length_addPub]
      split
      · omega
      · omega
    · by_cases h : isAdded cap pubs o.publisher = true
      · rw [if_pos h] at hadded
        cases hadded
      · rw [if_neg h] at hadded
        rw [addPub_of_not (Bool.eq_false_iff.mpr h), hsame hadded]
    · split at hv
      · rename_i hlayer
        rw [← Option.some.inj hv]
        exact bne_iff_ne.mp (Bool.and_eq_true _ _ ▸ hlayer).1
      · exact hverdict v hv

theorem fits_stored {row : Row} {cap : Nat} :
    Fits (some row) (.update (addPub cap row.pubs o.publisher)
      (if isAdded cap row.pubs o.publisher then 1 else 0)
      (if isFlagging row.layer o then some (o.layer, o.rule, o.whitelisted) else none)) := by
  refine ⟨⟨row, rfl, length_addPub row.pubs o.publisher, fun hadded => ?_⟩, fun v hv => ?_⟩
  · by_cases h : isAdded cap row.pubs o.publisher = true
    · rw [if_pos h] at hadded
      cases hadded
    · exact addPub_of_not (Bool.eq_false_iff.mpr h)
  · split at hv
    · rename_i hflag
      rw [← Option.some.inj hv]
      exact bne_iff_ne.mp (Bool.and_eq_true _ _ ▸ hflag).2
    · cases hv

/-- A change put behind the others, of a key that none waits for. -/
theorem inv_concat (hw : Inv w) {k : Key} {c : Str × Change} (hk : w.pending.lookup k = none)
    (hfits : Fits (w.names.lookup k) c.2) :
    Inv { w with
      newPerHash := if isNew c then Function.update w.newPerHash k.hash (w.newPerHash k.hash + 1)
        else w.newPerHash
      pending := w.pending ++ [(k, c)] } := by
  refine ⟨⟨hw.keys, hw.counted, hw.metaCounts, hw.stats⟩, ?_, fun j d hd => ?_, fun h => ?_⟩
  · rw [List.map_append, List.map_singleton, ← List.concat_eq_append]
    exact hw.pendingKeys.concat (lookup_eq_none_iff_notMem.mp hk)
  · rw [lookup_concat] at hd
    cases hj : w.pending.lookup j with
    | some e =>
      rw [hj, Option.some_or] at hd
      exact hw.fits j d (hj.trans hd)
    | none =>
      rw [hj, Option.none_or] at hd
      split at hd
      · rename_i heq
        rw [← Option.some.inj hd, heq]
        exact hfits
      · cases hd
  · rw [List.filter_append, List.length_append, ← hw.waiting h, List.filter_singleton]
    cases hc : isNew c with
    | false => rfl
    | true =>
      by_cases hh : k.hash = h
      · simp [hh]
      · simp [hh, Function.update_of_ne (Ne.symm hh)]

theorem inv_add (hw : Inv w) : Inv (w.add s o now) := by
  cases hc : w.pending.lookup o.key with
  | some c =>
    rw [add_pending hc]
    refine ⟨⟨hw.keys, hw.counted, hw.metaCounts, hw.stats⟩, ?_, fun k d hd => ?_, fun h => ?_⟩
    · rw [keys_alter]
      exact hw.pendingKeys
    · rw [lookup_alter] at hd
      split at hd
      · obtain ⟨e, he, rfl⟩ := Option.map_eq_some_iff.mp hd
        exact fits_foldIn (hw.fits k e he)
      · exact hw.fits k d hd
    · have hsame := length_filter_alter w.pending o.key
        (f := fun e => (e.1, foldIn s.publishersPerName o e.2))
        (q := fun e => isNew e.2 && decide (e.1.hash = h))
        fun key c => congrArg (· && decide (key.hash = h)) (isNew_foldIn c)
      exact (hw.waiting h).trans hsame.symm
  | none =>
    cases hrow : w.names.lookup o.key with
    | some row =>
      rw [add_stored hc hrow]
      split
      · exact hw
      · refine inv_concat hw (c := ([], _)) hc ?_
        rw [hrow]
        exact fits_stored
    | none =>
      rw [add_new hc hrow]
      split
      · exact hw
      · exact inv_concat hw (c := (o.name, .new _ _ _ _ _ _)) hc hrow

end Add

end Ed2kServer.Publish.NameAdd
