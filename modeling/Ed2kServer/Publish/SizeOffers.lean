import Ed2kServer.Lib.Transition
import Ed2kServer.Publish.Files

namespace Ed2kServer.Publish.SizeOffers

open Ed2kServer.Lib.Transition Ed2kServer.Text.Chars
open Ed2kServer.Slab.Record Ed2kServer.Slab.Store Ed2kServer.Slab.StoreSpec
open Ed2kServer.Slab.Sources Ed2kServer.Publish.Files

/-- What `add_file_with_source` does to the slab. -/
def publish (s : FileSlab) (now : UInt32) (hash : FileHash) (size : UInt64) (name : Str)
    (src : Source) : Option (FileSlab × SizedMerge) := do
  let (slab, _, newlyAdded) ← s.getOrInsert now hash size name src
  if newlyAdded then return (slab, .merged none)
  else addOrRefreshSourceSized slab hash size src name

def refused : SizedMerge → Bool
  | .sizeMismatch _ => true
  | .merged _ | .unknown => false

/-- An offer with its outcome, and the size stored after it. -/
structure Offered where
  size : UInt64
  refused : Bool
  stored : UInt64
  deriving DecidableEq

structure State where
  slab : FileSlab
  /-- The offers of the hash, the latest last. -/
  log : List Offered

inductive Event
  | offer (now : UInt32) (size : UInt64) (name : Str) (src : Source)
  | leave (user : UserHash)

variable (hash : FileHash)

/-- `none` is a panic, a walk that does not end, or an offer that leaves no record. -/
def step (s : State) : Event → Option State
  | .offer now size name src => do
    let (slab, result) ← publish s.slab now hash size name src
    let r ← ← recordByHash slab hash
    return ⟨slab, s.log ++ [⟨size, refused result, r.size⟩]⟩
  | .leave user => do
    match ← s.slab.idOf hash with
    | none => return s
    | some id => return { s with slab := (removeUserSource s.slab id user).1 }

/-- The record keeps a source. -/
def Keeps (s : State) : Event → Prop
  | .offer _ _ _ _ => True
  | .leave user => ∀ r, recordByHash s.slab hash = some (some r) →
      ∃ src ∈ r.sources, src.userHash ≠ user

/-- The sizes offered. -/
def sizes (es : List Event) : List UInt64 :=
  es.filterMap fun
    | .offer _ size _ _ => some size
    | .leave _ => none

/-- What an offer meets that finds a record with a source. -/
def meet (stored size : UInt64) : Offered :=
  if sizesAgree stored size then ⟨size, false, if stored < size then size else stored⟩
  else ⟨size, true, stored⟩

def trace (stored : UInt64) : List UInt64 → List Offered
  | [] => []
  | size :: rest => meet stored size :: trace (meet stored size).stored rest

/-- The live record of the hash, with a source. -/
structure Holds (s : State) (id : FileId) (r : FileRecord) : Prop where
  inv : SlabInv s.slab
  live : s.slab.get id = some r
  hash : r.hash = hash
  sourced : r.sources ≠ []

variable {hash} {s : State} {id : FileId} {r : FileRecord}

theorem addFileWithSource_publish {U : Unicode} {f g : FileStore} {now : UInt32} {size : UInt64}
    {name : Str} {src : Source} (h : f.addFileWithSource U now hash size name src = some g) :
    ∃ result, publish f.fileSlab now hash size name src = some (g.fileSlab, result) := by
  obtain ⟨⟨slab, id, new⟩, hget, h⟩ := Option.bind_eq_some_iff.mp h
  cases new with
  | true =>
    obtain rfl := Option.some.inj h
    exact ⟨.merged none, by simp [publish, hget]⟩
  | false =>
    obtain ⟨⟨slab', result⟩, hmerge, h⟩ := Option.bind_eq_some_iff.mp h
    have hslab : g.fileSlab = slab' := by
      cases result <;> obtain rfl := Option.some.inj h <;> rfl
    exact ⟨result, by simp [publish, hget, hmerge, hslab]⟩

theorem recordByHash_of_live {slab : FileSlab} (h : SlabInv slab) (hr : slab.get id = some r) :
    recordByHash slab r.hash = some (some r) := by
  obtain ⟨o, ho, hspec⟩ := recordByHash_spec h r.hash
  rw [ho, (hspec r).mpr ⟨id, hr, rfl⟩]

theorem idOf_of_live {slab : FileSlab} (h : SlabInv slab) (hr : slab.get id = some r) :
    slab.idOf r.hash = some (some id) := by
  obtain ⟨o, ho, hspec⟩ := idOf_spec h r.hash
  rw [ho, (hspec id).mpr ⟨r, hr, rfl⟩]

theorem refreshSource_ne_nil (src : Source) (sources : List Source) :
    refreshSource src sources ≠ [] := by
  cases sources with
  | nil => exact List.cons_ne_nil _ _
  | cons x xs =>
    rw [refreshSource]
    split <;> exact List.cons_ne_nil _ _

/-- An offer that finds a record with a source. -/
theorem step_offer (h : Holds hash s id r) (now : UInt32) (size : UInt64) (name : Str)
    (src : Source) : ∃ t r', step hash s (.offer now size name src) = some t ∧
      Holds hash t id r' ∧ r'.size = (meet r.size size).stored ∧
      t.log = s.log ++ [meet r.size size] := by
  obtain ⟨hinv, hlive, rfl, hsourced⟩ := h
  have hroom : Room s.slab now r.hash := Or.inr (Or.inr ⟨id, r, hlive, rfl⟩)
  have hget : s.slab.getOrInsert now r.hash size name src = some (s.slab, id, false) := by
    obtain ⟨s', id', new, hins, -, ⟨rfl, rfl, -⟩ | ⟨-, hnone, -⟩⟩ :=
      searchOrInsert_spec hinv (r := .new r.hash size name [src]) rfl hroom
    · obtain rfl := getOrInsert_of_idOf (idOf_of_live hinv hlive) hins
      exact hins
    · exact absurd rfl (hnone id r hlive)
  have hpublish : publish s.slab now r.hash size name src =
      some (mergeSource s.slab id size src name) := by
    rw [publish, hget]
    simp only [Option.bind_eq_bind, Option.bind_some, Bool.false_eq_true, if_false,
      addOrRefreshSourceSized, idOf_of_live hinv hlive, Option.pure_def]
  by_cases hagree : sizesAgree r.size size = true
  · set r' : FileRecord := { r with
      size := if r.size < size then size else r.size
      sources := refreshSource src r.sources } with hr'
    have hmerge : mergeSource s.slab id size src name = (setRecord s.slab id r',
        .merged (if r.name = name then none else some r.name)) := by
      simp [mergeSource, hlive, hagree, hr']
    have halive : r'.alive = true := (get_eq_some.mp hlive).2
    obtain ⟨hinv', hget'⟩ := setRecord_spec hinv hlive (rfl : r'.hash = r.hash) halive
    have hlive' : (setRecord s.slab id r').get id = some r' := by
      rw [hget', Function.update_self]
    have hmeet : meet r.size size = ⟨size, false, r'.size⟩ := if_pos hagree
    refine ⟨⟨setRecord s.slab id r', s.log ++ [meet r.size size]⟩, r', ?_,
      ⟨hinv', hlive', rfl, refreshSource_ne_nil _ _⟩, by rw [hmeet], rfl⟩
    have hfound : recordByHash (setRecord s.slab id r') r.hash = some (some r') :=
      recordByHash_of_live hinv' hlive'
    simp [step, hpublish, hmerge, hfound, hmeet, refused]
  · have hmerge : mergeSource s.slab id size src name = (s.slab, .sizeMismatch r.size) := by
      simp [mergeSource, hlive, hagree, hsourced]
    have hmeet : meet r.size size = ⟨size, true, r.size⟩ := if_neg hagree
    refine ⟨⟨s.slab, s.log ++ [meet r.size size]⟩, r, ?_, ⟨hinv, hlive, rfl, hsourced⟩,
      by rw [hmeet], rfl⟩
    have hfound := recordByHash_of_live hinv hlive
    simp [step, hpublish, hmerge, hfound, hmeet, refused]

theorem step_leave (h : Holds hash s id r) {user : UserHash}
    (hkeep : Keeps hash s (.leave user)) : ∃ t r', step hash s (.leave user) = some t ∧
      Holds hash t id r' ∧ r'.size = r.size ∧ t.log = s.log := by
  obtain ⟨hinv, hlive, rfl, -⟩ := h
  set r' : FileRecord := { r with sources := r.sources.filter (·.userHash ≠ user) } with hr'
  have hremove : (removeUserSource s.slab id user).1 = setRecord s.slab id r' := by
    simp [removeUserSource, hlive, hr']
  have halive : r'.alive = true := (get_eq_some.mp hlive).2
  obtain ⟨hinv', hget'⟩ := setRecord_spec hinv hlive (rfl : r'.hash = r.hash) halive
  have hlive' : (setRecord s.slab id r').get id = some r' := by rw [hget', Function.update_self]
  obtain ⟨src, hsrc, hne⟩ := hkeep r (recordByHash_of_live hinv hlive)
  have hsourced : r'.sources ≠ [] :=
    List.ne_nil_of_mem (List.mem_filter.mpr ⟨hsrc, decide_eq_true hne⟩)
  refine ⟨⟨setRecord s.slab id r', s.log⟩, r', ?_, ⟨hinv', hlive', rfl, hsourced⟩, rfl, rfl⟩
  simp [step, idOf_of_live hinv hlive, hremove]

/-- The log of a run is the trace of the sizes offered. -/
theorem run_trace {es : List Event} (h : Holds hash s id r)
    (hc : Along (step hash) (Keeps hash) s es) :
    ∃ t r', exec (step hash) s es = some t ∧ Holds hash t id r' ∧
      t.log = s.log ++ trace r.size (sizes es) := by
  induction es generalizing s r with
  | nil => exact ⟨s, r, rfl, h, (List.append_nil _).symm⟩
  | cons e es ih =>
    cases e with
    | offer now size name src =>
      obtain ⟨u, q, hu, hq, hsize, hlog⟩ := step_offer h now size name src
      obtain ⟨t, r', ht, hr', htrace⟩ := ih hq (hc.2 u hu)
      refine ⟨t, r', exec_cons_eq_some.mpr ⟨u, hu, ht⟩, hr', ?_⟩
      rw [htrace, hlog, hsize, List.append_assoc]
      rfl
    | leave user =>
      obtain ⟨u, q, hu, hq, hsize, hlog⟩ := step_leave h hc.1
      obtain ⟨t, r', ht, hr', htrace⟩ := ih hq (hc.2 u hu)
      refine ⟨t, r', exec_cons_eq_some.mpr ⟨u, hu, ht⟩, hr', ?_⟩
      rw [htrace, hlog, hsize]
      rfl

/-- The first offer of a hash sets the size. -/
theorem first_offer {s : FileSlab} (hs : SlabInv s) (hnew : s.idOf hash = some none)
    {now : UInt32} (hroom : Room s now hash) (size : UInt64) (name : Str) (src : Source) :
    ∃ t id r, step hash ⟨s, []⟩ (.offer now size name src) = some t ∧ Holds hash t id r ∧
      r.size = size ∧ t.log = [⟨size, false, size⟩] := by
  obtain ⟨s', id, new, hins, hinv, ⟨-, -, q, hq, hhash⟩ | ⟨rfl, -, -, hget, -⟩⟩ :=
    searchOrInsert_spec hs (r := .new hash size name [src]) rfl hroom
  · have hfound := idOf_of_live hs hq
    rw [hhash] at hfound
    cases hnew.symm.trans hfound
  · have hlive : s'.get id = some (.new hash size name [src]) := by rw [hget, Function.update_self]
    have hhash : (FileRecord.new hash size name [src]).hash = hash := rfl
    have hfound := recordByHash_of_live hinv hlive
    rw [hhash] at hfound
    have hinsert : s.getOrInsert now hash size name src = some (s', id, true) := hins
    have hsourced : (FileRecord.new hash size name [src]).sources ≠ [] := List.cons_ne_nil _ _
    have hstep : step hash ⟨s, []⟩ (.offer now size name src) =
        some ⟨s', [⟨size, false, size⟩]⟩ := by
      simp [step, publish, hinsert, hfound, refused, FileRecord.new]
    exact ⟨_, id, _, hstep, ⟨hinv, hlive, rfl, hsourced⟩, rfl, rfl⟩

section Trace

variable {a b stored size S : UInt64} {xs : List UInt64}

theorem min_max_of_lt (h : a < b) :
    (min a b = a ∧ max a b = b) ∧ min b a = a ∧ max b a = b := by
  have hle : a ≤ b := UInt64.le_of_lt h
  have hnot : ¬ b ≤ a := UInt64.not_le.mpr h
  exact ⟨⟨if_pos hle, if_pos hle⟩, if_neg hnot, if_neg hnot⟩

theorem sizesAgree_self (a : UInt64) : sizesAgree a a = true := by
  simp [sizesAgree]

theorem sizesAgree_comm (a b : UInt64) : sizesAgree a b = sizesAgree b a := by
  have hlt : ∀ {x y : UInt64}, x < y → sizesAgree x y = sizesAgree y x := by
    intro x y h
    obtain ⟨⟨hmin, hmax⟩, hmin', hmax'⟩ := min_max_of_lt h
    simp only [sizesAgree, hmin, hmax, hmin', hmax']
    rw [Bool.or_comm (x == 0) (y == 0), Bool.beq_comm (a := x) (b := y)]
  rcases Nat.lt_trichotomy a.toNat b.toNat with h | h | h
  · exact hlt (UInt64.lt_iff_toNat_lt.mpr h)
  · rw [UInt64.toNat_inj.mp h]
  · exact (hlt (UInt64.lt_iff_toNat_lt.mpr h)).symm

/-- A size that agrees with a larger one is unknown, or the larger one cut to 32 bits, or what a
client guesses from its part hashes. -/
theorem partial_of_lt (h : a < b) (hagree : sizesAgree a b = true) :
    a = 0 ∨ a = b &&& 0xFFFFFFFF ∨ a = b / PARTSIZE * PARTSIZE := by
  have hb : b ≠ 0 := by
    rintro rfl
    exact absurd h (by simp)
  obtain ⟨⟨hmin, hmax⟩, -⟩ := min_max_of_lt h
  simp only [sizesAgree, hmin, hmax, Bool.or_eq_true, beq_iff_eq, Bool.and_eq_true,
    isPartEstimate] at hagree
  obtain (((rfl | rfl) | rfl) | ⟨-, hcut⟩) | ⟨-, hestimate⟩ := hagree
  · exact Or.inl rfl
  · exact absurd rfl hb
  · exact absurd h (UInt64.lt_irrefl a)
  · exact Or.inr (Or.inl hcut.symm)
  · exact Or.inr (Or.inr hestimate)

theorem sizesAgree_zero (b : UInt64) : sizesAgree 0 b = true := by
  simp [sizesAgree]

/-- The low 32 bits of a size. -/
def cut (S : UInt64) : UInt64 := S &&& 0xFFFFFFFF

/-- The size a client guesses from the part hashes. -/
def estimate (S : UInt64) : UInt64 := S / PARTSIZE * PARTSIZE

/-- Two sizes of one file that do not agree are its cut and its estimate. -/
theorem disagree_partial (ha : a ≤ S) (hb : b ≤ S) (haS : sizesAgree a S = true)
    (hbS : sizesAgree b S = true) (h : sizesAgree a b = false) :
    (a = cut S ∧ b = estimate S) ∨ (a = estimate S ∧ b = cut S) := by
  have hne : a ≠ b := by
    rintro rfl
    rw [sizesAgree_self] at h
    cases h
  have haS' : a ≠ S := by
    rintro rfl
    rw [sizesAgree_comm, hbS] at h
    cases h
  have hbS' : b ≠ S := by
    rintro rfl
    rw [haS] at h
    cases h
  have hcases : ∀ x, x ≤ S → x ≠ S → sizesAgree x S = true →
      x = 0 ∨ x = cut S ∨ x = estimate S :=
    fun x hx hne hagree => partial_of_lt (UInt64.lt_of_le_of_ne hx hne) hagree
  obtain rfl | hcut | hest := hcases a ha haS' haS
  · rw [sizesAgree_zero] at h
    cases h
  · obtain rfl | hcut' | hest' := hcases b hb hbS' hbS
    · rw [sizesAgree_comm, sizesAgree_zero] at h
      cases h
    · exact absurd (hcut.trans hcut'.symm) hne
    · exact Or.inl ⟨hcut, hest'⟩
  · obtain rfl | hcut' | hest' := hcases b hb hbS' hbS
    · rw [sizesAgree_comm, sizesAgree_zero] at h
      cases h
    · exact Or.inr ⟨hest, hcut'⟩
    · exact absurd (hest.trans hest'.symm) hne

@[simp] theorem meet_size (stored size : UInt64) : (meet stored size).size = size := by
  rw [meet]
  split <;> rfl

theorem trace_sizes (stored : UInt64) (xs : List UInt64) :
    (trace stored xs).map (·.size) = xs := by
  induction xs generalizing stored with
  | nil => rfl
  | cons x xs ih => rw [trace, List.map_cons, ih, meet_size]

theorem le_meet (stored size : UInt64) : stored ≤ (meet stored size).stored := by
  rw [meet]
  split
  · dsimp only
    split
    · exact UInt64.le_of_lt ‹_›
    · exact UInt64.le_refl _
  · exact UInt64.le_refl _

/-- The stored size never decreases. -/
theorem trace_sorted (stored : UInt64) (xs : List UInt64) :
    (stored :: (trace stored xs).map (·.stored)).Pairwise (· ≤ ·) := by
  induction xs generalizing stored with
  | nil => exact List.pairwise_singleton _ _
  | cons x xs ih =>
    have hrest := ih (meet stored x).stored
    have hle := le_meet stored x
    rw [trace, List.map_cons]
    refine List.pairwise_cons.mpr ⟨fun y hy => ?_, hrest⟩
    obtain rfl | hy := List.mem_cons.mp hy
    · exact hle
    · exact UInt64.le_trans hle ((List.pairwise_cons.mp hrest).1 y hy)

/-- One offer of a size of the file, on a stored size of the file. -/
theorem meet_spec (hs : stored ≤ S) (hsS : sizesAgree stored S = true) (hx : size ≤ S)
    (hxS : sizesAgree size S = true) :
    ((meet stored size).stored = stored ∨ (meet stored size).stored = size) ∧
      (stored = S ∨ size = S → (meet stored size).refused = false ∧
        (meet stored size).stored = S) ∧
      ((meet stored size).refused = true → sizesAgree stored size = false) := by
  rw [meet]
  by_cases hagree : sizesAgree stored size = true
  · rw [if_pos hagree]
    refine ⟨?_, fun hS => ⟨rfl, ?_⟩, fun h => by cases h⟩
    · dsimp only
      split
      · exact Or.inr rfl
      · exact Or.inl rfl
    · dsimp only
      rcases hS with rfl | rfl
      · exact if_neg (UInt64.not_lt.mpr hx)
      · split
        · rfl
        · rename_i hlt
          exact UInt64.le_antisymm hs (UInt64.not_lt.mp hlt)
  · rw [if_neg hagree]
    refine ⟨Or.inl rfl, fun hS => ?_, fun _ => eq_false_of_ne_true hagree⟩
    rcases hS with rfl | rfl
    · exact absurd ((sizesAgree_comm stored size).trans hxS) hagree
    · exact absurd hsS hagree

/-- Offers of sizes of one file, each with what came before it. -/
theorem trace_spec {pre post : List Offered} {e : Offered} (hs : stored ≤ S)
    (hsS : sizesAgree stored S = true) (hxs : ∀ x ∈ xs, x ≤ S ∧ sizesAgree x S = true)
    (h : trace stored xs = pre ++ e :: post) :
    (stored = S ∨ e.size = S ∨ S ∈ pre.map (·.size) → e.refused = false ∧ e.stored = S) ∧
      (e.refused = true → sizesAgree (cut S) (estimate S) = false ∧ cut S ∈ stored :: xs ∧
        estimate S ∈ stored :: xs) := by
  induction pre generalizing stored xs with
  | nil =>
    cases xs with
    | nil => cases h
    | cons x xs =>
      obtain ⟨⟨hx, hxS⟩, -⟩ := List.forall_mem_cons.mp hxs
      obtain ⟨rfl, -⟩ := List.cons.inj h
      obtain ⟨-, hS, hrefused⟩ := meet_spec hs hsS hx hxS
      rw [meet_size]
      refine ⟨fun hseen => hS ?_, fun hr => ?_⟩
      · exact hseen.imp_right (fun h => h.resolve_right List.not_mem_nil)
      · have hno := hrefused hr
        obtain ⟨rfl, rfl⟩ | ⟨rfl, rfl⟩ := disagree_partial hs hx hsS hxS hno
        · exact ⟨hno, List.mem_cons_self, List.mem_cons_of_mem _ List.mem_cons_self⟩
        · rw [sizesAgree_comm] at hno
          exact ⟨hno, List.mem_cons_of_mem _ List.mem_cons_self, List.mem_cons_self⟩
  | cons p pre ih =>
    cases xs with
    | nil => cases h
    | cons x xs =>
      obtain ⟨⟨hx, hxS⟩, hxs'⟩ := List.forall_mem_cons.mp hxs
      obtain ⟨rfl, htail⟩ := List.cons.inj h
      obtain ⟨hstored, hS, -⟩ := meet_spec hs hsS hx hxS
      have hnext : (meet stored x).stored ≤ S ∧ sizesAgree (meet stored x).stored S = true := by
        obtain he | he := hstored
        · rw [he]
          exact ⟨hs, hsS⟩
        · rw [he]
          exact ⟨hx, hxS⟩
      have hsub : (meet stored x).stored :: xs ⊆ stored :: x :: xs := by
        refine List.cons_subset.mpr ⟨?_, fun y hy => ?_⟩
        · obtain he | he := hstored <;> simp [he]
        · exact List.mem_cons_of_mem _ (List.mem_cons_of_mem _ hy)
      obtain ⟨hseen, hrefused⟩ := ih hnext.1 hnext.2 hxs' htail
      refine ⟨fun hsaw => hseen ?_, fun hr => ?_⟩
      · rw [List.map_cons, List.mem_cons, meet_size] at hsaw
        obtain hsaw | hsaw | hsaw | hsaw := hsaw
        · exact Or.inl (hS (Or.inl hsaw)).2
        · exact Or.inr (Or.inl hsaw)
        · exact Or.inl (hS (Or.inr hsaw.symm)).2
        · exact Or.inr (Or.inr hsaw)
      · obtain ⟨hno, hcut, hest⟩ := hrefused hr
        exact ⟨hno, hsub hcut, hsub hest⟩

end Trace

/-- The sizes offered of one file, whose record keeps a source, in any order: the stored size never
decreases; the true size is never refused, and from its offer on it is the size stored and nothing
is refused; and an offer is refused only if both the cut of the true size and its estimate are
offered and do not agree. -/
theorem sizes_in_order {s : FileSlab} (hs : SlabInv s) (hnew : s.idOf hash = some none)
    {now : UInt32} (hroom : Room s now hash) {x : UInt64} {name : Str} {src : Source}
    {es : List Event}
    (hkeep : Along (step hash) (Keeps hash) ⟨s, []⟩ (.offer now x name src :: es)) :
    ∃ t, exec (step hash) ⟨s, []⟩ (.offer now x name src :: es) = some t ∧
      t.log.map (·.size) = x :: sizes es ∧ (t.log.map (·.stored)).Pairwise (· ≤ ·) ∧
      ∀ S, (∀ y ∈ x :: sizes es, y ≤ S ∧ sizesAgree y S = true) →
        ∀ pre e post, t.log = pre ++ e :: post →
          (e.size = S ∨ S ∈ pre.map (·.size) → e.refused = false ∧ e.stored = S) ∧
            (e.refused = true → sizesAgree (cut S) (estimate S) = false ∧
              cut S ∈ x :: sizes es ∧ estimate S ∈ x :: sizes es) := by
  obtain ⟨u, id, r, hu, hr, rfl, hlog⟩ := first_offer hs hnew hroom x name src
  obtain ⟨t, r', ht, -, htrace⟩ := run_trace hr (hkeep.2 u hu)
  rw [hlog, List.singleton_append] at htrace
  refine ⟨t, exec_cons_eq_some.mpr ⟨u, hu, ht⟩, ?_, ?_, ?_⟩
  · rw [htrace, List.map_cons, trace_sizes]
  · rw [htrace, List.map_cons]
    exact trace_sorted _ _
  · intro S hS pre e post hsplit
    obtain ⟨⟨hx, hxS⟩, hrest⟩ := List.forall_mem_cons.mp hS
    rw [htrace] at hsplit
    cases pre with
    | nil =>
      obtain ⟨rfl, -⟩ := List.cons.inj hsplit
      refine ⟨fun hseen => ⟨rfl, hseen.resolve_right List.not_mem_nil⟩, fun h => by cases h⟩
    | cons p pre =>
      obtain ⟨rfl, htail⟩ := List.cons.inj hsplit
      obtain ⟨hseen, hrefused⟩ := trace_spec hx hxS hrest htail
      refine ⟨fun hsaw => hseen ?_, hrefused⟩
      rw [List.map_cons, List.mem_cons] at hsaw
      obtain hsaw | hsaw | hsaw := hsaw
      · exact Or.inr (Or.inl hsaw)
      · exact Or.inl hsaw.symm
      · exact Or.inr (Or.inr hsaw)

/-- Two users offer a hash nobody has offered, at size `x` and then at size `y`. -/
def twoOffers (x y : UInt64) : List Event :=
  [.offer 0 x [] ⟨Vector.replicate 16 1, 0x01020304, 4662, true⟩,
    .offer 0 y [] ⟨Vector.replicate 16 2, 0x01020305, 4662, true⟩]

def newHash : FileHash := Vector.replicate 16 9

theorem newHash_unknown :
    (FileSlab.new SLOT_QUARANTINE_SECS).idOf newHash = some none := by
  obtain ⟨o, ho, hspec⟩ := idOf_spec (slabInv_new SLOT_QUARANTINE_SECS) newHash
  cases o with
  | none => exact ho
  | some id =>
    obtain ⟨r, hr, -⟩ := (hspec id).mp rfl
    cases hr

theorem newHash_room : Room (FileSlab.new SLOT_QUARANTINE_SECS) 0 newHash :=
  Or.inl (Nat.pow_pos (by decide))

theorem twoOffers_keep (x y : UInt64) : Along (step newHash) (Keeps newHash)
    ⟨.new SLOT_QUARANTINE_SECS, []⟩ (twoOffers x y) :=
  ⟨trivial, fun _ _ => ⟨trivial, fun _ _ => trivial⟩⟩

theorem twoOffers_log (x y : UInt64) : ∃ t,
    exec (step newHash) ⟨.new SLOT_QUARANTINE_SECS, []⟩ (twoOffers x y) = some t ∧
      t.log = [⟨x, false, x⟩, meet x y] := by
  obtain ⟨u, id, r, hu, hr, rfl, hlog⟩ := first_offer (slabInv_new SLOT_QUARANTINE_SECS)
    newHash_unknown newHash_room x [] ⟨Vector.replicate 16 1, 0x01020304, 4662, true⟩
  obtain ⟨t, r', ht, -, htrace⟩ := run_trace hr ((twoOffers_keep r.size y).2 u hu)
  refine ⟨t, exec_cons_eq_some.mpr ⟨u, hu, ht⟩, ?_⟩
  rw [htrace, hlog]
  rfl

def sixGiB : UInt64 := 6442451067

/-- Of a file of about 6 GiB, the estimate is refused behind the cut; of a file of 5 bytes, the size
stored behind 4 GiB and 5 bytes is not 5. Both sizes agree with the true one in each case. -/
theorem partial_sizes_conflict :
    (sizesAgree (cut sixGiB) sixGiB = true ∧ sizesAgree (estimate sixGiB) sixGiB = true ∧
        ∃ t, exec (step newHash) ⟨.new SLOT_QUARANTINE_SECS, []⟩
            (twoOffers (cut sixGiB) (estimate sixGiB)) = some t ∧
          t.log = [⟨cut sixGiB, false, cut sixGiB⟩, ⟨estimate sixGiB, true, cut sixGiB⟩]) ∧
      sizesAgree 4294967301 5 = true ∧ sizesAgree 5 5 = true ∧
        ∃ t, exec (step newHash) ⟨.new SLOT_QUARANTINE_SECS, []⟩ (twoOffers 4294967301 5) =
            some t ∧
          t.log = [⟨4294967301, false, 4294967301⟩, ⟨5, false, 4294967301⟩] := by
  have hrefused : meet (cut sixGiB) (estimate sixGiB) = ⟨estimate sixGiB, true, cut sixGiB⟩ := by
    decide
  have hkept : meet 4294967301 5 = ⟨5, false, 4294967301⟩ := by decide
  obtain ⟨t, ht, hlog⟩ := twoOffers_log (cut sixGiB) (estimate sixGiB)
  obtain ⟨u, hu, hlog'⟩ := twoOffers_log 4294967301 5
  rw [hrefused] at hlog
  rw [hkept] at hlog'
  exact ⟨⟨by decide, by decide, t, ht, hlog⟩, by decide, by decide, u, hu, hlog'⟩

/-- The true size behind its cut. -/
theorem cut_then_full : ∃ t,
    exec (step newHash) ⟨.new SLOT_QUARANTINE_SECS, []⟩ (twoOffers (cut sixGiB) sixGiB) = some t ∧
      ∀ pre e post, t.log = pre ++ e :: post → e.size = sixGiB →
        e.refused = false ∧ e.stored = sixGiB := by
  obtain ⟨t, ht, -, -, hspec⟩ := sizes_in_order (slabInv_new SLOT_QUARANTINE_SECS) newHash_unknown
    newHash_room (twoOffers_keep (cut sixGiB) sixGiB)
  have hpartial : ∀ y ∈ [cut sixGiB, sixGiB], y ≤ sixGiB ∧ sizesAgree y sixGiB = true := by
    intro y hy
    rw [List.mem_cons, List.mem_singleton] at hy
    obtain rfl | rfl := hy
    · exact ⟨by decide, by decide⟩
    · exact ⟨UInt64.le_refl _, sizesAgree_self _⟩
  exact ⟨t, ht, fun pre e post hsplit he => (hspec sixGiB hpartial pre e post hsplit).1 (Or.inl he)⟩

end Ed2kServer.Publish.SizeOffers
