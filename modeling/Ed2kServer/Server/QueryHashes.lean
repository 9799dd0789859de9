import Ed2kServer.Lib.LittleEndian
import Ed2kServer.Slab.Record

namespace Ed2kServer.Server.QueryHashes

open Ed2kServer.Lib.LittleEndian Ed2kServer.Slab.Record

def OP_GLOB_GETSOURCES : UInt8 := 0x9A

def OP_GLOB_GETSOURCES2 : UInt8 := 0x94

def MAX_ED2K_FILE_SIZE : UInt64 := 256 * 2 ^ 30

/-- The hash at the start of the bytes. -/
def readHash (bytes : List UInt8) : FileHash := Vector.ofFn fun i => bytes.getD i 0

/-- `slice::chunks_exact`. -/
def chunksExact (k : Nat) (bytes : List UInt8) : List (List UInt8) :=
  (List.range (bytes.length / k)).map fun i => (bytes.drop (k * i)).take k

/-- The records of a 0x94 payload as the bot rules walk them, at most `n`. -/
def queryRecords : Nat → List UInt8 → List FileHash
  | 0, _ => []
  | n + 1, payload =>
    if payload.length < 20 then []
    else
      let lo := (payload.drop 16).take 4
      let rest := payload.drop 20
      readHash payload ::
        if lo = [0, 0, 0, 0] then
          if rest.length < 8 then [] else queryRecords n (rest.drop 8)
        else queryRecords n rest

/-- The hashes of a UDP source request that are counted for its sender. -/
def queryHashes (opcode : UInt8) (payload : List UInt8) : List FileHash :=
  if opcode = OP_GLOB_GETSOURCES then ((chunksExact 16 payload).take 64).map readHash
  else if opcode = OP_GLOB_GETSOURCES2 then queryRecords 64 payload
  else []

/-- The records of a 0x94 payload as the handler walks them, at most `n`; a size above the limit
is none. -/
def getsourcesRecords : Nat → List UInt8 → List (FileHash × Option UInt64)
  | 0, _ => []
  | n + 1, payload =>
    if payload.length < 20 then []
    else
      let sizeLo := UInt32.ofNat (ofLeBytes ((payload.drop 16).take 4))
      let rest := payload.drop 20
      if sizeLo = 0 then
        if rest.length < 8 then []
        else
          let size := UInt64.ofNat (ofLeBytes (rest.take 8))
          (readHash payload, if MAX_ED2K_FILE_SIZE < size then none else some size) ::
            getsourcesRecords n (rest.drop 8)
      else (readHash payload, some sizeLo.toUInt64) :: getsourcesRecords n rest

def handleGetsourcesSingle (payload : List UInt8) : List FileHash :=
  if payload.length < 16 then [] else ((chunksExact 16 payload).take 32).map readHash

/-- The hashes looked up, each with the size it was asked with. -/
def handleGetsourcesMulti (payload : List UInt8) : List (FileHash × Option UInt64) :=
  let hashes := getsourcesRecords 64 payload
  if hashes = [] ∧ 16 ≤ payload.length then [(readHash payload, none)] else hashes

def lookups (opcode : UInt8) (payload : List UInt8) : List FileHash :=
  if opcode = OP_GLOB_GETSOURCES then handleGetsourcesSingle payload
  else if opcode = OP_GLOB_GETSOURCES2 then (handleGetsourcesMulti payload).map Prod.fst
  else []

/-- A whole record: a hash and a size, or a hash, no size and the size of a large file. -/
def IsRecord (bytes : List UInt8) : Prop :=
  bytes.length = 20 ∧ bytes.drop 16 ≠ [0, 0, 0, 0] ∨
    bytes.length = 28 ∧ (bytes.drop 16).take 4 = [0, 0, 0, 0]

/-- A record of a large file that ends within its size. -/
def IsCut (bytes : List UInt8) : Prop :=
  20 ≤ bytes.length ∧ bytes.length < 28 ∧ (bytes.drop 16).take 4 = [0, 0, 0, 0]

/-- After fewer than `n` whole records, of which `records` are the bytes, one is cut off. -/
structure CutAfter (n : Nat) (records : List (List UInt8)) (payload : List UInt8) : Prop where
  whole : ∀ r ∈ records, IsRecord r
  fewer : records.length < n
  cut : ∃ last, IsCut last ∧ payload = records.flatten ++ last

/-- At most 32 hashes; more than a bare hash, and no record after the first cut off. -/
def Counted (opcode : UInt8) (payload : List UInt8) : Prop :=
  if opcode = OP_GLOB_GETSOURCES then payload.length < 33 * 16
  else ¬(16 ≤ payload.length ∧ payload.length < 20) ∧
    ∀ records, records ≠ [] → ¬CutAfter 64 records payload

variable {n : Nat} {bytes rest payload : List UInt8}

theorem readHash_append (h : 16 ≤ bytes.length) : readHash (bytes ++ rest) = readHash bytes := by
  ext i hi
  simp [readHash, List.getElem?_append_left (by omega : i < bytes.length)]

theorem sizeLo_eq_zero_iff (h : 20 ≤ bytes.length) :
    UInt32.ofNat (ofLeBytes ((bytes.drop 16).take 4)) = 0 ↔
      (bytes.drop 16).take 4 = [0, 0, 0, 0] := by
  have hlen : ((bytes.drop 16).take 4).length = 4 := by
    rw [List.length_take, List.length_drop]
    omega
  obtain ⟨a, b, c, d, hbytes⟩ : ∃ a b c d, (bytes.drop 16).take 4 = [a, b, c, d] :=
    List.length_eq_four.mp hlen
  have ha := a.toNat_lt
  have hb := b.toNat_lt
  have hc := c.toNat_lt
  have hd := d.toNat_lt
  rw [hbytes, ← UInt32.toNat_inj, UInt32.toNat_ofNat']
  simp only [ofLeBytes, List.cons.injEq, and_true, ← UInt8.toNat_inj, UInt32.toNat_zero,
    UInt8.toNat_zero]
  omega

theorem getsourcesRecords_step (hlen : 20 ≤ payload.length) :
    (getsourcesRecords (n + 1) payload).map Prod.fst =
      if (payload.drop 16).take 4 = [0, 0, 0, 0] then
        if payload.length < 28 then []
        else readHash payload :: (getsourcesRecords n (payload.drop 28)).map Prod.fst
      else readHash payload :: (getsourcesRecords n (payload.drop 20)).map Prod.fst := by
  rw [getsourcesRecords, if_neg (by omega)]
  simp only [sizeLo_eq_zero_iff hlen, List.length_drop, List.drop_drop]
  by_cases hlarge : (payload.drop 16).take 4 = [0, 0, 0, 0]
  · by_cases h28 : payload.length < 28
    · rw [if_pos hlarge, if_pos (by omega), if_pos hlarge, if_pos h28, List.map_nil]
    · rw [if_pos hlarge, if_neg (by omega), if_pos hlarge, if_neg h28, List.map_cons]
  · rw [if_neg hlarge, if_neg hlarge, List.map_cons]

theorem queryRecords_step (hlen : 20 ≤ payload.length) :
    queryRecords (n + 1) payload =
      readHash payload ::
        if (payload.drop 16).take 4 = [0, 0, 0, 0] then
          if payload.length < 28 then [] else queryRecords n (payload.drop 28)
        else queryRecords n (payload.drop 20) := by
  rw [queryRecords, if_neg (by omega)]
  simp only [List.length_drop, List.drop_drop]
  split_ifs with hlarge h8 h28 h28
  · rfl
  · omega
  · omega
  · rfl
  · rfl

theorem take_four_of_isRecord {r : List UInt8} (h : IsRecord r) :
    20 ≤ (r ++ rest).length ∧ readHash (r ++ rest) = readHash r ∧
      if ((r ++ rest).drop 16).take 4 = [0, 0, 0, 0] then
        28 ≤ (r ++ rest).length ∧ (r ++ rest).drop 28 = rest
      else (r ++ rest).drop 20 = rest := by
  have hlen : 20 ≤ r.length := h.elim (fun h => by omega) fun h => by omega
  have hfour : ((r ++ rest).drop 16).take 4 = (r.drop 16).take 4 := by
    rw [List.drop_append_of_le_length (by omega),
      List.take_append_of_le_length (by rw [List.length_drop]; omega)]
  refine ⟨by rw [List.length_append]; omega, readHash_append (by omega), ?_⟩
  rw [hfour]
  rcases h with ⟨h20, hne⟩ | ⟨h28, hzero⟩
  · have htake : (r.drop 16).take 4 = r.drop 16 := by
      rw [List.take_of_length_le]
      rw [List.length_drop, h20]
    rw [htake, if_neg hne, List.drop_left' h20]
  · rw [if_pos hzero, List.drop_left' h28, List.length_append]
    exact ⟨by omega, rfl⟩

/-- Over whole records both walks go alike, to a record that is cut off. -/
theorem records_of_whole {records : List (List UInt8)} (h : ∀ r ∈ records, IsRecord r) :
    queryRecords (records.length + n) (records.flatten ++ rest) =
        records.map readHash ++ queryRecords n rest ∧
      (getsourcesRecords (records.length + n) (records.flatten ++ rest)).map Prod.fst =
        records.map readHash ++ (getsourcesRecords n rest).map Prod.fst := by
  induction records with
  | nil => simp
  | cons r records ih =>
    obtain ⟨hr, hrecords⟩ := List.forall_mem_cons.mp h
    obtain ⟨hquery, hgetsources⟩ := ih hrecords
    obtain ⟨hlen, hhash, hdrop⟩ := @take_four_of_isRecord (records.flatten ++ rest) _ hr
    rw [List.length_cons, Nat.succ_add, List.flatten_cons, List.append_assoc,
      queryRecords_step hlen, getsourcesRecords_step hlen, hhash, List.map_cons]
    split_ifs at hdrop ⊢ with hlarge hshort
    · omega
    · rw [hdrop.2, hquery, hgetsources]
      exact ⟨rfl, rfl⟩
    · rw [hdrop, hquery, hgetsources]
      exact ⟨rfl, rfl⟩

theorem records_of_cut {last : List UInt8} (h : IsCut last) :
    queryRecords (n + 1) last = [readHash last] ∧ getsourcesRecords (n + 1) last = [] := by
  obtain ⟨hlen, hshort, hzero⟩ := h
  have hmap := getsourcesRecords_step (n := n) hlen
  rw [if_pos hzero, if_pos hshort, List.map_eq_nil_iff] at hmap
  exact ⟨by rw [queryRecords_step hlen, if_pos hzero, if_pos hshort], hmap⟩

/-- A cut record is counted and not looked up. -/
theorem records_of_cutAfter {records : List (List UInt8)} (h : CutAfter n records payload) :
    ∃ last, queryRecords n payload = records.map readHash ++ [readHash last] ∧
      (getsourcesRecords n payload).map Prod.fst = records.map readHash ∧
      (records = [] → last = payload) := by
  obtain ⟨hwhole, hfewer, last, hcut, rfl⟩ := h
  obtain ⟨k, rfl⟩ : ∃ k, n = records.length + (k + 1) := ⟨n - records.length - 1, by omega⟩
  obtain ⟨hquery, hgetsources⟩ := @records_of_whole (k + 1) last _ hwhole
  obtain ⟨hone, hnone⟩ := records_of_cut (n := k) hcut
  refine ⟨last, by rw [hquery, hone], by rw [hgetsources, hnone]; simp, ?_⟩
  rintro rfl
  rfl

theorem CutAfter.cons {r : List UInt8} {records : List (List UInt8)} (hr : IsRecord r)
    (h : CutAfter n records rest) : CutAfter (n + 1) (r :: records) (r ++ rest) := by
  obtain ⟨last, hcut, rfl⟩ := h.cut
  exact ⟨List.forall_mem_cons.mpr ⟨hr, h.whole⟩, Nat.succ_lt_succ h.fewer, last, hcut,
    by rw [List.flatten_cons, List.append_assoc]⟩

/-- Where no record is cut off, the walks go alike to the end. -/
theorem records_of_not_cut (h : ∀ records, ¬CutAfter n records payload) :
    queryRecords n payload = (getsourcesRecords n payload).map Prod.fst := by
  induction n generalizing payload with
  | zero => rfl
  | succ n ih =>
    by_cases hlen : payload.length < 20
    · rw [queryRecords, getsourcesRecords, if_pos hlen, if_pos hlen, List.map_nil]
    rw [queryRecords_step (by omega), getsourcesRecords_step (by omega)]
    split_ifs with hzero hshort
    · exact absurd ⟨by simp, Nat.succ_pos n, payload, ⟨by omega, hshort, hzero⟩, rfl⟩ (h [])
    · have hr : IsRecord (payload.take 28) := by
        refine .inr ⟨List.length_take_of_le (by omega), ?_⟩
        rw [List.drop_take, List.take_take, Nat.min_eq_left (by omega), hzero]
      rw [ih fun records hcut => h (payload.take 28 :: records) ?_]
      have hcons := hcut.cons hr
      rwa [List.take_append_drop] at hcons
    · have hr : IsRecord (payload.take 20) := by
        refine .inl ⟨List.length_take_of_le (by omega), ?_⟩
        rw [List.drop_take]
        exact hzero
      rw [ih fun records hcut => h (payload.take 20 :: records) ?_]
      have hcons := hcut.cons hr
      rwa [List.take_append_drop] at hcons

theorem length_chunksExact (k : Nat) (bytes : List UInt8) :
    (chunksExact k bytes).length = bytes.length / k := by
  rw [chunksExact, List.length_map, List.length_range]

/-- A batch of bare hashes is counted as it is looked up just when it is no longer than 32. -/
theorem single_iff (payload : List UInt8) :
    ((chunksExact 16 payload).take 64).map readHash = handleGetsourcesSingle payload ↔
      payload.length < 33 * 16 := by
  have hchunks := length_chunksExact 16 payload
  rw [handleGetsourcesSingle]
  constructor
  · intro h
    by_contra hlong
    rw [if_neg (by omega)] at h
    have hlen := congrArg List.length h
    rw [List.length_map, List.length_map, List.length_take, List.length_take, hchunks] at hlen
    omega
  · intro h
    split_ifs with hshort
    · rw [List.eq_nil_of_length_eq_zero (by omega : (chunksExact 16 payload).length = 0)]
      rfl
    · rw [List.take_of_length_le (by omega), List.take_of_length_le (by omega)]

theorem multi_iff (payload : List UInt8) :
    queryRecords 64 payload = (handleGetsourcesMulti payload).map Prod.fst ↔
      ¬(16 ≤ payload.length ∧ payload.length < 20) ∧
        ∀ records, records ≠ [] → ¬CutAfter 64 records payload := by
  rw [handleGetsourcesMulti]
  constructor
  · intro h
    constructor
    · rintro ⟨h16, h20⟩
      rw [queryRecords, getsourcesRecords, if_pos h20, if_pos h20, if_pos ⟨rfl, h16⟩] at h
      cases h
    · intro records hne hcut
      obtain ⟨last, hquery, hgetsources, -⟩ := records_of_cutAfter hcut
      have hsome : getsourcesRecords 64 payload ≠ [] := by
        intro hnil
        rw [hnil, List.map_nil, eq_comm, List.map_eq_nil_iff] at hgetsources
        exact hne hgetsources
      rw [if_neg fun hnil => hsome hnil.1, hquery, hgetsources, List.append_right_eq_self] at h
      cases h
  · rintro ⟨hbare, hcut⟩
    by_cases hfirst : CutAfter 64 [] payload
    · obtain ⟨last, hquery, hgetsources, hlast⟩ := records_of_cutAfter hfirst
      obtain ⟨cut, ⟨hlen, -⟩, hpayload⟩ := hfirst.cut
      have h16 : 16 ≤ payload.length := by
        rw [hpayload, List.flatten_nil, List.nil_append]
        omega
      rw [List.map_nil, List.map_eq_nil_iff] at hgetsources
      rw [if_pos ⟨hgetsources, h16⟩, hquery, hlast rfl]
      rfl
    · have hnot : ∀ records, ¬CutAfter 64 records payload := by
        intro records
        by_cases hnil : records = []
        · rw [hnil]
          exact hfirst
        · exact hcut records hnil
      rw [records_of_not_cut hnot]
      split_ifs with hempty
      · obtain ⟨hnil, h16⟩ := hempty
        have hwalk := records_of_not_cut hnot
        rw [hnil, queryRecords_step (by omega)] at hwalk
        cases hwalk
      · rfl

/-- The hashes counted for a source request are those looked up, but for batches over 32, a bare
hash under the second opcode and a record cut off after another. -/
theorem queryHashes_eq_lookups_iff {opcode : UInt8}
    (h : opcode = OP_GLOB_GETSOURCES ∨ opcode = OP_GLOB_GETSOURCES2) (payload : List UInt8) :
    queryHashes opcode payload = lookups opcode payload ↔ Counted opcode payload := by
  rcases h with rfl | rfl
  · rw [queryHashes, lookups, Counted, if_pos rfl, if_pos rfl, if_pos rfl]
    exact single_iff payload
  · have hne : OP_GLOB_GETSOURCES2 ≠ OP_GLOB_GETSOURCES := by decide
    rw [queryHashes, lookups, Counted, if_neg hne, if_pos rfl, if_neg hne, if_pos rfl, if_neg hne]
    exact multi_iff payload

theorem normal_record_counted :
    queryHashes OP_GLOB_GETSOURCES2 (List.replicate 20 1) =
      lookups OP_GLOB_GETSOURCES2 (List.replicate 20 1) := by
  refine (queryHashes_eq_lookups_iff (.inr rfl) _).mpr ⟨by decide, fun records hne hcut => ?_⟩
  obtain ⟨hwhole, -, last, ⟨hlen, -⟩, hpayload⟩ := hcut
  obtain ⟨r, records, rfl⟩ := List.exists_cons_of_ne_nil hne
  have hr : 20 ≤ r.length := (hwhole r (by simp)).elim (fun h => by omega) fun h => by omega
  have htotal := congrArg List.length hpayload
  rw [List.length_replicate, List.flatten_cons, List.length_append, List.length_append] at htotal
  omega

/-- A bare hash is answered and not counted. -/
theorem bare_hash_not_counted :
    ¬∀ opcode payload, opcode = OP_GLOB_GETSOURCES ∨ opcode = OP_GLOB_GETSOURCES2 →
      queryHashes opcode payload = lookups opcode payload := by
  intro h
  have hbare := h OP_GLOB_GETSOURCES2 (List.replicate 16 1) (.inr rfl)
  have hlen := congrArg List.length hbare
  revert hlen
  decide

end Ed2kServer.Server.QueryHashes
