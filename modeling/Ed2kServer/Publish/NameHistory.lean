import Ed2kServer.Publish.NameAdd

namespace Ed2kServer.Publish.NameHistory

open Ed2kServer.Lib.Assoc Ed2kServer.Slab.Record Ed2kServer.Publish.NameDb
open Ed2kServer.Publish.NameBatches Ed2kServer.Publish.NameAdd

/-- What is known of a name: its row when the writer began, and the offers of it since then. -/
structure Record where
  base : Option Row
  offers : List Offer

abbrev History := List (Key × Record)

def heldIn (hist : History) (h : FileHash) : Nat :=
  (hist.filter fun e => decide (e.1.hash = h)).length

def Record.push (r : Record) (o : Offer) : Record := { r with offers := r.offers ++ [o] }

/-- Every offer of a known name is kept, and of an unknown one where its hash has room. -/
def note (cap : Nat) (hist : History) (o : Offer) : History :=
  if (hist.lookup o.key).isSome then alter hist o.key fun r => r.push o
  else if cap ≤ heldIn hist o.key.hash then hist
  else hist ++ [(o.key, ⟨none, [o]⟩)]

def opening (names : List (Key × Row)) : History := names.map fun e => (e.1, ⟨some e.2, []⟩)

/-- The row if each offer is taken at once. -/
def Record.row (cap : Nat) : Record → Option Row
  | ⟨some row, offers⟩ => some (offers.foldl (absorb cap) row)
  | ⟨none, o :: rest⟩ => some (rest.foldl (absorb cap) (start o 0))
  | ⟨none, []⟩ => none

/-- A row but for its mark and its time. -/
def core (row : Row) : Row := { row with whitelisted := false, firstSeen := 0 }

section Core

variable {cap : Nat}

theorem row_push {r : Record} {row : Row} (h : r.row cap = some row) (o : Offer) :
    (r.push o).row cap = some (absorb cap row o) := by
  obtain ⟨base, offers⟩ := r
  cases base with
  | some first =>
    rw [← Option.some.inj h]
    exact congrArg some (List.foldl_concat _ _ _ _)
  | none =>
    cases offers with
    | nil => cases h
    | cons o' rest =>
      rw [← Option.some.inj h]
      exact congrArg some (List.foldl_concat _ _ _ _)

theorem core_absorb {row row' : Row} (h : core row = core row') (o : Offer) :
    core (absorb cap row o) = core (absorb cap row' o) := by
  obtain ⟨name, size, layer, rule, whitelisted, firstSeen, npubs, nnets, pubs⟩ := row
  obtain ⟨name', size', layer', rule', whitelisted', firstSeen', npubs', nnets', pubs'⟩ := row'
  simp only [core, Row.mk.injEq] at h
  obtain ⟨rfl, rfl, rfl, rfl, -, -, rfl, rfl, rfl⟩ := h
  rfl

theorem layer_of_core {row row' : Row} (h : core row = core row') : row.layer = row'.layer := by
  have hlayer := congrArg Row.layer h
  exact hlayer

end Core

/-- The writer's rows are those of the history but for the marks, of which `P` holds: of a record,
whether it waits to be inserted, its mark and the mark if each offer were taken at once. -/
structure Follows (P : Record → Bool → Bool → Bool → Prop) (cap : Nat) (w : Writer)
    (hist : History) : Prop where
  inv : Inv w
  held : ∀ h, held w h = heldIn hist h
  rows : ∀ k, (hist.lookup k = none ∧ view w k = none) ∨
    ∃ r row decided, hist.lookup k = some r ∧ view w k = some row ∧ r.row cap = some decided ∧
      core row = core decided ∧ P r (fresh w k) row.whitelisted decided.whitelisted

section Steps

variable {P : Record → Bool → Bool → Bool → Prop} {s : Settings} {w : Writer} {hist : History}

theorem follows_flush (hflush : ∀ r f m d, P r f m d → P r false m d)
    (h : Follows P s.publishersPerName w hist) : Follows P s.publishersPerName w.flush hist := by
  refine ⟨inv_flush h.inv, fun k => (held_flush h.inv k).trans (h.held k), fun k => ?_⟩
  have hfresh : fresh w.flush k = false := by
    rw [fresh, pending_flush]
    rfl
  rw [view_flush h.inv, hfresh]
  obtain hnone | ⟨r, row, decided, hr, hrow, hdecided, hcore, hmark⟩ := h.rows k
  · exact Or.inl hnone
  · exact Or.inr ⟨r, row, decided, hr, hrow, hdecided, hcore, hflush _ _ _ _ hmark⟩

/-- An offer, where `P` is kept by those that wait as `Q` tells. -/
theorem follows_add {Q : Bool → Prop}
    (hstart : ∀ o, P ⟨none, [o]⟩ true o.whitelisted o.whitelisted)
    (hknown : ∀ r (f m d flag : Bool) o, Q f → P r f m d → P (r.push o) f
      (if f then m || o.whitelisted else if flag then o.whitelisted else m)
      (if flag then o.whitelisted else d))
    (hQ : ∀ k, Q (fresh w k)) (h : Follows P s.publishersPerName w hist) (o : Offer) (now : Int) :
    Follows P s.publishersPerName (w.add s o now) (note s.namesPerHash hist o) := by
  rw [note]
  have hother : ∀ {hist' : History} {k : Key}, k ≠ o.key → hist'.lookup k = hist.lookup k →
      (hist'.lookup k = none ∧ view (w.add s o now) k = none) ∨
        ∃ r row decided, hist'.lookup k = some r ∧ view (w.add s o now) k = some row ∧
          r.row s.publishersPerName = some decided ∧ core row = core decided ∧
          P r (fresh (w.add s o now) k) row.whitelisted decided.whitelisted := by
    intro hist' k hk hsame
    rw [view_add_of_ne hk, fresh_add_of_ne hk, hsame]
    exact h.rows k
  obtain ⟨hnone, hview⟩ | ⟨r, row, decided, hr, hrow, hdecided, hcore, hmark⟩ := h.rows o.key
  · have hunknown := add_unknown s now h.inv hview
    rw [hnone, Option.isSome_none, if_neg Bool.false_ne_true, ← h.held]
    by_cases hcap : s.namesPerHash ≤ held w o.key.hash
    · rw [if_pos hcap] at hunknown ⊢
      rw [hunknown]
      exact h
    · rw [if_neg hcap] at hunknown ⊢
      obtain ⟨hview', hfresh, hheld⟩ := hunknown
      refine ⟨inv_add h.inv, fun hash => ?_, fun k => ?_⟩
      · rw [hheld, h.held, heldIn, heldIn, List.filter_append, List.length_append,
          List.filter_singleton]
        by_cases hh : o.key.hash = hash
        · simp [hh]
        · simp [hh]
      · by_cases hk : k = o.key
        · subst hk
          rw [lookup_concat, hnone, if_pos rfl, Option.none_or, hview', hfresh]
          exact Or.inr ⟨_, _, _, rfl, rfl, rfl, rfl, hstart o⟩
        · refine hother hk ?_
          rw [lookup_concat, if_neg hk, Option.or_none]
  · obtain ⟨hview', hfresh, hheld⟩ := add_known s now h.inv hrow
    rw [hr, Option.isSome_some, if_pos rfl]
    refine ⟨inv_add h.inv, fun hash => ?_, fun k => ?_⟩
    · rw [hheld, h.held]
      exact (length_filter_alter hist o.key (f := fun r => r.push o)
        (q := fun e => decide (e.1.hash = hash)) fun _ _ => rfl).symm
    · by_cases hk : k = o.key
      · subst hk
        have hlayer : isFlagging row.layer o = isFlagging decided.layer o := by
          rw [layer_of_core hcore]
        have hstep := hknown r (fresh w o.key) _ _ (isFlagging row.layer o) o (hQ o.key) hmark
        rw [lookup_alter, if_pos rfl, hr, hview', hfresh]
        refine Or.inr ⟨_, _, _, rfl, rfl, row_push hdecided o, ?_, ?_⟩
        · rw [← core_absorb hcore]
          split
          · rfl
          · rfl
        · rw [hlayer] at hstep
          cases hfresh : fresh w o.key with
          | true =>
            rw [hfresh] at hstep
            exact hstep
          | false =>
            have hmark' : (absorb s.publishersPerName row o).whitelisted =
                if isFlagging decided.layer o then o.whitelisted else row.whitelisted := by
              rw [← hlayer]
              rfl
            rw [hfresh] at hstep
            rw [if_neg Bool.false_ne_true, hmark']
            exact hstep
      · refine hother hk ?_
        rw [lookup_alter, if_neg hk]

end Steps

section Runs

variable {P : Record → Bool → Bool → Bool → Prop} {s : Settings} {w : Writer} {hist : History}
variable {md5 : List UInt8 → Vector UInt8 16} {salt : List UInt8}

/-- The history after some offers. -/
def notes (md5 : List UInt8 → Vector UInt8 16) (salt : List UInt8) (cap : Nat) (hist : History)
    (es : List NameEvent) : History :=
  es.foldl (fun hist e => note cap hist (e.offer md5 salt)) hist

/-- A writer that has just read its table. -/
structure Opened (w : Writer) : Prop extends Consistent w where
  pending : w.pending = []
  newPerHash : w.newPerHash = fun _ => 0

theorem lookup_opening (names : List (Key × Row)) (k : Key) :
    (opening names).lookup k = (names.lookup k).map fun row => ⟨some row, []⟩ := by
  induction names with
  | nil => rfl
  | cons e names ih =>
    rw [opening, List.map_cons, List.lookup_cons, List.lookup_cons]
    rw [opening] at ih
    rw [ih]
    split
    · rfl
    · rfl

theorem follows_opening (hstart : ∀ row m, P ⟨some row, []⟩ false m m) (hw : Opened w) :
    Follows P s.publishersPerName w (opening w.names) := by
  have hfresh : ∀ k, fresh w k = false := fun k => by
    rw [fresh, hw.pending]
    rfl
  refine ⟨⟨hw.toConsistent, ?_, fun k c hc => ?_, fun h => ?_⟩, fun h => ?_, fun k => ?_⟩
  · rw [hw.pending]
    exact List.nodup_nil
  · rw [hw.pending] at hc
    cases hc
  · rw [hw.pending, hw.newPerHash]
    rfl
  · rw [held, hw.newPerHash, heldIn, opening, List.filter_map, List.length_map]
    rfl
  · rw [lookup_opening, view, hw.pending, hfresh]
    cases w.names.lookup k with
    | none => exact Or.inl ⟨rfl, rfl⟩
    | some row => exact Or.inr ⟨_, row, row, rfl, rfl, rfl, rfl, hstart row _⟩

theorem length_add (w : Writer) (o : Offer) (now : Int) :
    (w.add s o now).pending.length ≤ w.pending.length + 1 := by
  cases hc : w.pending.lookup o.key with
  | some c =>
    rw [add_pending hc, length_alter]
    exact Nat.le_succ _
  | none =>
    cases hrow : w.names.lookup o.key with
    | some row =>
      rw [add_stored hc hrow]
      split
      · exact Nat.le_succ _
      · exact List.length_append.le
    | none =>
      rw [add_new hc hrow]
      split
      · exact Nat.le_succ _
      · exact List.length_append.le

end Runs

section Marks

def isFlagged (o : Offer) : Bool := o.layer != 0

/-- The first offer with a verdict, or else the first. -/
def Record.decider (r : Record) : Option Offer :=
  (r.offers.find? isFlagged).or r.offers.head?

theorem mark_foldl (cap : Nat) (row : Row) (offers : List Offer) :
    (offers.foldl (absorb cap) row).whitelisted =
      if row.layer = 0 then
        (offers.find? isFlagged).elim row.whitelisted Offer.whitelisted
      else row.whitelisted := by
  induction offers generalizing row with
  | nil =>
    rw [List.find?_nil, Option.elim_none, ite_self]
    rfl
  | cons o offers ih =>
    rw [List.foldl_cons, ih]
    by_cases hclean : row.layer = 0
    · rw [if_pos hclean]
      by_cases hlayer : isFlagged o = true
      · have hflag : isFlagging row.layer o = true := by
          rw [isFlagging, hclean]
          exact hlayer
        rw [List.find?_cons_of_pos hlayer, Option.elim_some, absorb]
        simp only [hflag, if_true]
        rw [if_neg (bne_iff_ne.mp hlayer)]
      · have hflag : isFlagging row.layer o = false := by
          rw [isFlagging, hclean]
          exact Bool.eq_false_iff.mpr hlayer
        rw [List.find?_cons_of_neg hlayer, absorb]
        simp only [hflag, Bool.false_eq_true, if_false]
        rw [if_pos hclean]
    · have hflag : isFlagging row.layer o = false := by
        rw [isFlagging, beq_false_of_ne hclean]
        rfl
      rw [if_neg hclean, absorb]
      simp only [hflag, Bool.false_eq_true, if_false]
      rw [if_neg hclean]

/-- The mark of a name that is new, if each offer is taken at once. -/
theorem mark_row {cap : Nat} {r : Record} {row : Row} (hbase : r.base = none)
    (h : r.row cap = some row) : row.whitelisted = r.decider.any Offer.whitelisted := by
  obtain ⟨base, offers⟩ := r
  change base = none at hbase
  subst hbase
  cases offers with
  | nil => cases h
  | cons o rest =>
    rw [← Option.some.inj h, mark_foldl, Record.decider]
    change (if o.layer = 0 then _ else o.whitelisted) = _
    by_cases hlayer : isFlagged o = true
    · rw [if_neg (bne_iff_ne.mp hlayer), List.find?_cons_of_pos hlayer]
      rfl
    · rw [List.find?_cons_of_neg hlayer, if_pos (not_not.mp (mt bne_iff_ne.mpr hlayer))]
      cases rest.find? isFlagged with
      | none => rfl
      | some d => rfl

end Marks

end Ed2kServer.Publish.NameHistory
