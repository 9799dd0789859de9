import Ed2kServer.Publish.NameHistory

namespace Ed2kServer.Publish.NameRuns

open Ed2kServer.Lib.Assoc Ed2kServer.Slab.Record Ed2kServer.Publish.NameDb
open Ed2kServer.Publish.NameBatches Ed2kServer.Publish.NameAdd Ed2kServer.Publish.NameHistory

variable {md5 : List UInt8 → Vector UInt8 16} {salt : List UInt8} {s : Settings}
variable {w : Writer} {hist : History}

/-- In any batches. -/
def Loose (r : Record) (f m d : Bool) : Prop :=
  (r.base.isSome = true → f = false ∧ m = d) ∧ (d = true → m = true) ∧
    (r.base = none → m = true → r.offers.any Offer.whitelisted = true)

/-- In batches of one offer. -/
def Alone (_ : Record) (_ m d : Bool) : Prop := m = d

/-- In one batch. -/
def Together (r : Record) (f m _ : Bool) : Prop :=
  r.base = none → f = true ∧ m = r.offers.any Offer.whitelisted

section Loose

theorem loose_start (o : Offer) : Loose ⟨none, [o]⟩ true o.whitelisted o.whitelisted := by
  refine ⟨fun hbase => absurd hbase Bool.false_ne_true, id, fun _ hm => ?_⟩
  rw [List.any_cons, hm, Bool.true_or]

theorem loose_known (r : Record) (f m d flag : Bool) (o : Offer) (h : Loose r f m d) :
    Loose (r.push o) f (if f then m || o.whitelisted else if flag then o.whitelisted else m)
      (if flag then o.whitelisted else d) := by
  obtain ⟨hbase, hle, hany⟩ := h
  have hpush : (r.push o).offers.any Offer.whitelisted =
      (r.offers.any Offer.whitelisted || o.whitelisted) := by
    rw [Record.push, List.any_append, List.any_cons, List.any_nil, Bool.or_false]
  refine ⟨fun hsome => ?_, fun hd => ?_, fun hnone hm => ?_⟩
  · obtain ⟨rfl, rfl⟩ := hbase hsome
    exact ⟨rfl, rfl⟩
  · cases f with
    | true =>
      cases flag with
      | true => exact (congrArg (m || ·) hd).trans (Bool.or_true m)
      | false => exact (congrArg (· || o.whitelisted) (hle hd)).trans (Bool.true_or _)
    | false =>
      cases flag with
      | true => exact hd
      | false => exact hle hd
  · rw [hpush, Bool.or_eq_true]
    cases f with
    | true => exact ((Bool.or_eq_true _ _).mp hm).imp_left (hany hnone)
    | false =>
      cases flag with
      | true => exact Or.inr hm
      | false => exact Or.inl (hany hnone hm)

/-- The rows after some messages, however they are batched. -/
theorem follows_msgs (h : Follows Loose s.publishersPerName w hist) (n : Nat) (msgs : List Msg) :
    Follows Loose s.publishersPerName
      (msgs.foldl (handle md5 salt { s with maxPending := n }) w)
      (notes md5 salt s.namesPerHash hist (eventsOf msgs)) := by
  have hflush : ∀ {w hist}, Follows Loose s.publishersPerName w hist →
      Follows Loose s.publishersPerName w.flush hist :=
    follows_flush fun r f m d h => ⟨fun hsome => ⟨rfl, (h.1 hsome).2⟩, h.2⟩
  induction msgs generalizing w hist with
  | nil => exact h
  | cons msg msgs ih =>
    cases msg with
    | flush => exact ih (hflush h)
    | event e now =>
      have hadd := follows_add (s := { s with maxPending := n }) (Q := fun _ => True) loose_start
        (fun r f m d flag o _ => loose_known r f m d flag o) (fun _ => trivial) h
        (e.offer md5 salt) now
      refine ih ?_
      rw [handle]
      split
      · exact hflush hadd
      · exact hadd

end Loose

section Alone

/-- Each offer, and a flush after it. -/
def apart (es : List NameEvent) : List Msg := es.flatMap fun e => [.event e 0, .flush]

theorem eventsOf_apart (es : List NameEvent) : eventsOf (apart es) = es := by
  induction es with
  | nil => rfl
  | cons e es ih => exact congrArg (e :: ·) ih

theorem follows_apart (md5 : List UInt8 → Vector UInt8 16) (salt : List UInt8)
    (hpending : w.pending = []) (h : Follows Alone s.publishersPerName w hist)
    (es : List NameEvent) :
    Follows Alone s.publishersPerName ((apart es).foldl (handle md5 salt s) w)
      (notes md5 salt s.namesPerHash hist es) := by
  induction es generalizing w hist with
  | nil => exact h
  | cons e es ih =>
    have hfresh : ∀ k, fresh w k = false := fun k => by
      rw [fresh, hpending]
      rfl
    have hadd := follows_add (Q := fun f => f = false) (fun o => rfl)
      (fun r f m d flag o hf hm => by
        rw [hf, if_neg Bool.false_ne_true, hm]
        rfl) hfresh h (e.offer md5 salt) 0
    have hflush := follows_flush (fun _ _ _ _ h => h) hadd
    refine ih (pending_flush _) ?_
    change Follows Alone s.publishersPerName (handle md5 salt s w (.event e 0)).flush _
    rw [handle]
    split
    · exact follows_flush (fun _ _ _ _ h => h) hflush
    · exact hflush

end Alone

section Together

/-- All offers, and no flush. -/
def together (es : List NameEvent) : List Msg := es.map fun e => .event e 0

theorem eventsOf_together (es : List NameEvent) : eventsOf (together es) = es := by
  induction es with
  | nil => rfl
  | cons e es ih => exact congrArg (e :: ·) ih

theorem together_known (r : Record) (f m d flag : Bool) (o : Offer) (h : Together r f m d) :
    Together (r.push o) f (if f then m || o.whitelisted else if flag then o.whitelisted else m)
      (if flag then o.whitelisted else d) := by
  intro hbase
  obtain ⟨rfl, rfl⟩ := h hbase
  refine ⟨rfl, ?_⟩
  rw [if_pos rfl, Record.push, List.any_append, List.any_cons, List.any_nil, Bool.or_false]

theorem follows_together (md5 : List UInt8 → Vector UInt8 16) (salt : List UInt8) {n : Nat}
    {es : List NameEvent} (hroom : w.pending.length + es.length < n)
    (h : Follows Together s.publishersPerName w hist) :
    Follows Together s.publishersPerName
      ((together es).foldl (handle md5 salt { s with maxPending := n }) w)
      (notes md5 salt s.namesPerHash hist es) := by
  induction es generalizing w hist with
  | nil => exact h
  | cons e es ih =>
    have hadd := follows_add (s := { s with maxPending := n }) (Q := fun _ => True)
      (fun o _ => ⟨rfl, (Bool.or_false _).symm⟩)
      (fun r f m d flag o _ => together_known r f m d flag o) (fun _ => trivial) h
      (e.offer md5 salt) 0
    have hlength := length_add (s := { s with maxPending := n }) w (e.offer md5 salt) 0
    rw [List.length_cons] at hroom
    have hhandle : handle md5 salt { s with maxPending := n } w (.event e 0) =
        w.add { s with maxPending := n } (e.offer md5 salt) 0 := by
      rw [handle]
      refine if_neg (Nat.not_le.mpr (Nat.lt_of_le_of_lt hlength ?_))
      change w.pending.length + 1 < n
      omega
    change Follows Together s.publishersPerName ((together es).foldl _ (handle _ _ _ w _)) _
    rw [hhandle]
    exact ih (by omega) hadd

end Together

section Agreement

/-- What is shown of a row: all but its time. -/
def shown (row : Row) : Row := { row with firstSeen := 0 }

/-- The rows stored at the end, for a bound on what waits and messages. -/
def stored (md5 : List UInt8 → Vector UInt8 16) (salt : List UInt8) (s : Settings) (w : Writer)
    (n : Nat) (msgs : List Msg) (k : Key) : Option Row :=
  ((run md5 salt { s with maxPending := n } w msgs).names.lookup k).map shown

theorem shown_eq {row row' : Row} (hcore : core row = core row')
    (hmark : row.whitelisted = row'.whitelisted) : shown row = shown row' := by
  obtain ⟨name, size, layer, rule, whitelisted, firstSeen, npubs, nnets, pubs⟩ := row
  obtain ⟨name', size', layer', rule', whitelisted', firstSeen', npubs', nnets', pubs'⟩ := row'
  simp only [core, Row.mk.injEq] at hcore
  obtain ⟨rfl, rfl, rfl, rfl, -, -, rfl, rfl, rfl⟩ := hcore
  change whitelisted = whitelisted' at hmark
  rw [hmark]
  rfl

/-- The end of a run whose rows follow a history. -/
theorem stored_of_follows {P : Record → Bool → Bool → Bool → Prop} {n : Nat} {msgs : List Msg}
    (h : Follows P s.publishersPerName
      (msgs.foldl (handle md5 salt { s with maxPending := n }) w) hist) (k : Key) :
    (hist.lookup k = none ∧ stored md5 salt s w n msgs k = none) ∨
      ∃ r f row decided, hist.lookup k = some r ∧
        stored md5 salt s w n msgs k = some (shown row) ∧
        r.row s.publishersPerName = some decided ∧ core row = core decided ∧
        P r f row.whitelisted decided.whitelisted := by
  have hstored : stored md5 salt s w n msgs k =
      (view (msgs.foldl (handle md5 salt { s with maxPending := n }) w) k).map shown :=
    congrArg (Option.map shown) (lookup_flush h.inv k)
  rw [hstored]
  obtain ⟨hnone, hview⟩ | ⟨r, row, decided, hr, hrow, hdecided, hcore, hmark⟩ := h.rows k
  · exact Or.inl ⟨hnone, congrArg (Option.map shown) hview⟩
  · exact Or.inr ⟨r, _, row, decided, hr, congrArg (Option.map shown) hrow, hdecided, hcore, hmark⟩

theorem follows_opened (hw : Opened w) (n : Nat) (msgs : List Msg) :
    Follows Loose s.publishersPerName
      (msgs.foldl (handle md5 salt { s with maxPending := n }) w)
      (notes md5 salt s.namesPerHash (opening w.names) (eventsOf msgs)) := by
  refine follows_msgs (follows_opening (fun row m => ?_) hw) n msgs
  exact ⟨fun _ => ⟨rfl, rfl⟩, id, fun hbase => absurd hbase (Option.some_ne_none row)⟩

/-- The counts of a table are those of its rows, however the offers are batched. -/
theorem consistent_run (hw : Opened w) (n : Nat) (msgs : List Msg) :
    Consistent (run md5 salt { s with maxPending := n } w msgs) :=
  (inv_flush (follows_opened hw n msgs).inv).toConsistent

/-- All but the marks is the same in any batches. -/
theorem cores_agree (hw : Opened w) (n : Nat) (msgs : List Msg) (k : Key) :
    (stored md5 salt s w n msgs k).map core =
      ((notes md5 salt s.namesPerHash (opening w.names) (eventsOf msgs)).lookup k).bind
        fun r => (r.row s.publishersPerName).map core := by
  obtain ⟨hnone, hstored⟩ | ⟨r, f, row, decided, hr, hstored, hdecided, hcore, -⟩ :=
    stored_of_follows (follows_opened hw n msgs) k
  · rw [hnone, hstored]
    rfl
  · rw [hr, hstored, Option.bind_some, hdecided]
    exact congrArg some hcore

theorem stored_apart (hw : Opened w) {es : List NameEvent} {k : Key} {r : Record}
    (hr : (notes md5 salt s.namesPerHash (opening w.names) es).lookup k = some r)
    (hbase : r.base = none) :
    ∃ row, stored md5 salt s w s.maxPending (apart es) k = some row ∧
      row.whitelisted = r.decider.any Offer.whitelisted := by
  have hfollows := follows_apart md5 salt hw.pending
    (follows_opening (s := s) (fun _ _ => rfl) hw) es
  obtain ⟨hnone, -⟩ | ⟨r', f, row, decided, hr', hstored, hdecided, -, hmark⟩ :=
    stored_of_follows hfollows k
  · rw [hr] at hnone
    cases hnone
  · obtain rfl := Option.some.inj (hr.symm.trans hr')
    exact ⟨_, hstored, hmark.trans (mark_row hbase hdecided)⟩

theorem stored_together (hw : Opened w) {es : List NameEvent} {k : Key} {r : Record}
    (hr : (notes md5 salt s.namesPerHash (opening w.names) es).lookup k = some r)
    (hbase : r.base = none) :
    ∃ row, stored md5 salt s w (es.length + 1) (together es) k = some row ∧
      row.whitelisted = r.offers.any Offer.whitelisted := by
  have hroom : w.pending.length + es.length < es.length + 1 := by
    rw [hw.pending, List.length_nil]
    omega
  have hfollows := follows_together md5 salt hroom
    (follows_opening (s := s) (P := Together)
      (fun row _ hnone => absurd hnone (Option.some_ne_none row)) hw)
  obtain ⟨hnone, -⟩ | ⟨r', f, row, decided, hr', hstored, -, -, hmark⟩ :=
    stored_of_follows hfollows k
  · rw [hr] at hnone
    cases hnone
  · obtain rfl := Option.some.inj (hr.symm.trans hr')
    exact ⟨_, hstored, (hmark hbase).2⟩

/-- Where a mark is the decider's in one batch, it is so in any. -/
theorem stored_eq (hw : Opened w) {n : Nat} {msgs : List Msg}
    (hmarks : ∀ k r, (notes md5 salt s.namesPerHash (opening w.names) (eventsOf msgs)).lookup k =
      some r → r.base = none → r.offers.any Offer.whitelisted = true →
        r.decider.any Offer.whitelisted = true) (k : Key) :
    stored md5 salt s w n msgs k =
      ((notes md5 salt s.namesPerHash (opening w.names) (eventsOf msgs)).lookup k).bind
        fun r => (r.row s.publishersPerName).map shown := by
  obtain ⟨hnone, hstored⟩ | ⟨r, f, row, decided, hr, hstored, hdecided, hcore, hmark⟩ :=
    stored_of_follows (follows_opened hw n msgs) k
  · rw [hnone, hstored]
    rfl
  · rw [hr, hstored, Option.bind_some, hdecided]
    refine congrArg some (shown_eq hcore ?_)
    obtain ⟨hsome, hle, hany⟩ := hmark
    cases hbase : r.base with
    | some first => exact (hsome (hbase ▸ rfl)).2
    | none =>
      rw [Bool.eq_iff_iff]
      refine ⟨fun hm => ?_, hle⟩
      rw [mark_row hbase hdecided]
      exact hmarks k r hr hbase (hany hbase hm)

/-- Any two ways to batch the offers end with the same rows, and each with counts that are those of
its rows. -/
def BatchesAgree (md5 : List UInt8 → Vector UInt8 16) (salt : List UInt8) (s : Settings)
    (w : Writer) (es : List NameEvent) : Prop :=
  ∀ n msgs n' msgs', eventsOf msgs = es → eventsOf msgs' = es →
    Consistent (run md5 salt { s with maxPending := n } w msgs) ∧
      ∀ k, stored md5 salt s w n msgs k = stored md5 salt s w n' msgs' k

/-- The rows do not depend on the batches where each new name with a marked offer has a marked
decider. -/
theorem batches_agree_iff (md5 : List UInt8 → Vector UInt8 16) (salt : List UInt8) (s : Settings)
    {w : Writer} (hw : Opened w) (es : List NameEvent) :
    BatchesAgree md5 salt s w es ↔
      ∀ k r, (notes md5 salt s.namesPerHash (opening w.names) es).lookup k = some r →
        r.base = none → r.offers.any Offer.whitelisted = true →
          r.decider.any Offer.whitelisted = true := by
  constructor
  · intro hagree k r hr hbase hany
    obtain ⟨row, hrow, hdecider⟩ := stored_apart hw hr hbase
    obtain ⟨row', hrow', hoffers⟩ := stored_together hw hr hbase
    have hsame := (hagree s.maxPending (apart es) (es.length + 1) (together es)
      (eventsOf_apart es) (eventsOf_together es)).2 k
    rw [hrow, hrow'] at hsame
    rw [← hdecider, Option.some.inj hsame, hoffers]
    exact hany
  · intro hmarks n msgs n' msgs' hmsgs hmsgs'
    refine ⟨consistent_run hw n msgs, fun k => ?_⟩
    rw [stored_eq hw (hmsgs ▸ hmarks), stored_eq hw (hmsgs' ▸ hmarks), hmsgs, hmsgs']

end Agreement

section Inputs

def opened : Writer := ⟨[], ⟨0, 0, 0⟩, ⟨0, 0, 0⟩, [], fun _ => 0⟩

theorem opened_opened : Opened opened :=
  ⟨⟨List.nodup_nil, fun _ _ hrow => absurd hrow.symm (Option.some_ne_none _), rfl, rfl⟩, rfl, rfl⟩

/-- An offer of one name by one publisher. -/
def offered (layer : UInt8) (whitelisted : Bool) : NameEvent :=
  ⟨Vector.replicate 16 1, 700, ['f', 'i', 'l', 'm'], layer, none, whitelisted,
    Vector.replicate 16 2, 3⟩

def ordinary : Settings := ⟨1000, 16, 8⟩

def noDigest (_ : List UInt8) : Vector UInt8 16 := Vector.replicate 16 0

/-- One name, marked by its first offer and not by its second. -/
theorem marked_first_agree : Opened opened ∧
    BatchesAgree noDigest [] ordinary opened [offered 2 true, offered 2 false] := by
  refine ⟨opened_opened,
    (batches_agree_iff noDigest [] ordinary opened_opened _).mpr fun k r hr _ _ => ?_⟩
  have hnotes : notes noDigest [] ordinary.namesPerHash (NameHistory.opening opened.names)
      [offered 2 true, offered 2 false] = [(((offered 2 true).offer noDigest []).key,
        ⟨none, [(offered 2 true).offer noDigest [], (offered 2 false).offer noDigest []]⟩)] := by
    rfl
  rw [hnotes] at hr
  rw [(Prod.mk.inj (List.mem_singleton.mp (mem_of_lookup hr))).2]
  rfl

/-- One name, marked by its second offer and not by its first, in two batches and in one. -/
theorem marked_later_differ :
    ¬BatchesAgree noDigest [] ordinary opened [offered 2 false, offered 2 true] := by
  intro hagree
  have hnotes : (notes noDigest [] ordinary.namesPerHash (NameHistory.opening opened.names)
      [offered 2 false, offered 2 true]).lookup ((offered 2 true).offer noDigest []).key =
        some ⟨none, [(offered 2 false).offer noDigest [], (offered 2 true).offer noDigest []]⟩ := by
    rfl
  obtain ⟨row, hrow, hdecider⟩ := stored_apart opened_opened hnotes rfl
  obtain ⟨row', hrow', hoffers⟩ := stored_together opened_opened hnotes rfl
  have hsame := (hagree ordinary.maxPending _ 3 _ (eventsOf_apart _) (eventsOf_together _)).2
    ((offered 2 true).offer noDigest []).key
  have hsame := hrow.symm.trans (hsame.trans hrow')
  rw [Option.some.inj hsame, hoffers] at hdecider
  cases hdecider

end Inputs

end Ed2kServer.Publish.NameRuns
