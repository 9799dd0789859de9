import Ed2kServer.Sources.GetSources

namespace Ed2kServer.Sources.Records

open Ed2kServer.Lib.LittleEndian
open Ed2kServer.Slab.Record
open Ed2kServer.Sources.GetSources

/-- A record of a payload and its owner key. -/
abbrev Owned := UInt64 × List UInt8

/-- The length of a record can be told from its first seven bytes. -/
def IsRecord (obfu : Bool) (bytes : List UInt8) : Prop :=
  if obfu then ∃ c, bytes[6]? = some c ∧ bytes.length = if c &&& 0x80 != 0 then 23 else 7
  else bytes.length = 6

def flatten (rs : List Owned) : List UInt8 := (rs.map (·.2)).flatten

/-- Where the records lie in a payload. -/
def spans : Nat → List Owned → List (Nat × Nat)
  | _, [] => []
  | start, r :: rs => (start, start + r.2.length) :: spans (start + r.2.length) rs

/-- Is the record for this requester? -/
def served (me : UInt64) (reach : Reach) (r : Owned) : Bool :=
  r.1 &&& ~~~OWNER_NATT ≠ me && !(ofLeBytes (r.2.take 4) < 0x01000000 && !reach.keepsLow r.1)

variable {obfu : Bool}

theorem flatten_cons (r : Owned) (rs : List Owned) : flatten (r :: rs) = r.2 ++ flatten rs := rfl

theorem IsRecord.four_le {bytes : List UInt8} (h : IsRecord obfu bytes) : 4 ≤ bytes.length := by
  rw [IsRecord] at h
  split at h
  · obtain ⟨c, -, hl⟩ := h
    split at hl <;> omega
  · omega

theorem recordLen_append (before after : List UInt8) {bytes : List UInt8}
    (h : IsRecord obfu bytes) :
    recordLen (before ++ (bytes ++ after)) obfu before.length = some bytes.length := by
  rw [IsRecord] at h
  rw [recordLen]
  split at h
  · obtain ⟨c, hc, hl⟩ := h
    have hlt := (List.getElem?_eq_some_iff.mp hc).1
    rw [if_pos ‹_›, List.getElem?_append_right (Nat.le_add_right _ _), Nat.add_sub_cancel_left,
      List.getElem?_append_left hlt, hc, hl]
    rfl
  · rw [if_neg ‹_›, h]

theorem recordBounds_flatten (before : List UInt8) {rs : List Owned}
    (h : ∀ r ∈ rs, IsRecord obfu r.2) :
    recordBounds (before ++ flatten rs) obfu before.length (rs.map (·.1)) =
      some (spans before.length rs) := by
  induction rs generalizing before with
  | nil => simp [recordBounds, flatten, spans]
  | cons r rs ih =>
    obtain ⟨hr, hrs⟩ := List.forall_mem_cons.mp h
    have hrest := ih (before ++ r.2) hrs
    rw [List.append_assoc, List.length_append] at hrest
    have hfits : ¬ (before ++ (r.2 ++ flatten rs)).length < before.length + r.2.length := by
      simp only [List.length_append]
      omega
    rw [List.map_cons, flatten_cons, recordBounds, recordLen_append before _ hr, spans]
    simp only [Option.bind_eq_bind, Option.bind_some, if_neg hfits, hrest]
    rfl

theorem cutRecords_flatten (me : UInt64) (reach : Reach) (before : List UInt8) {rs : List Owned}
    {n : Nat} (h : ∀ r ∈ rs, IsRecord obfu r.2) (hn : n ≤ MAX_SOURCES_PER_REPLY) :
    let kept := (rs.filter (served me reach)).take (MAX_SOURCES_PER_REPLY - n)
    cutRecords (before ++ flatten rs) me reach n ((rs.map (·.1)).zip (spans before.length rs)) =
      (flatten kept, n + kept.length) := by
  induction rs generalizing before n with
  | nil => simp [cutRecords, flatten]
  | cons r rs ih =>
    obtain ⟨hr, hrs⟩ := List.forall_mem_cons.mp h
    have hdrop : (before ++ (r.2 ++ flatten rs)).drop before.length = r.2 ++ flatten rs := by
      simp
    have hid : (r.2 ++ flatten rs).take 4 = r.2.take 4 :=
      List.take_append_of_le_length hr.four_le
    have hbytes : (r.2 ++ flatten rs).take (before.length + r.2.length - before.length) = r.2 := by
      simp
    have hrest := fun n hn => ih (before ++ r.2) (n := n) hrs hn
    simp only [List.append_assoc, List.length_append] at hrest
    simp only [List.map_cons, flatten_cons, spans, List.zip_cons_cons, cutRecords, hdrop, hid,
      hbytes]
    split
    · rename_i hown
      rw [List.filter_cons_of_neg (by simp [served, hown])]
      exact hrest n hn
    · rename_i hown
      split
      · rename_i hlow
        rw [List.filter_cons_of_neg (by simp [served, hlow])]
        exact hrest n hn
      · rename_i hlow
        have hserved : served me reach r = true := by
          rw [served, Bool.and_eq_true]
          exact ⟨decide_eq_true hown, by rwa [Bool.not_eq_true', Bool.eq_false_iff]⟩
        rw [List.filter_cons_of_pos hserved]
        split
        · rename_i hfull
          simp [hfull, flatten]
        · rename_i hroom
          have hsucc : MAX_SOURCES_PER_REPLY - n = MAX_SOURCES_PER_REPLY - (n + 1) + 1 := by omega
          rw [hrest (n + 1) (by omega), hsucc, List.take_succ_cons, flatten_cons,
            List.length_cons]
          exact Prod.ext rfl (by simp only; omega)

/-- Cutting a payload is filtering its records. -/
theorem withoutOwner_flatten (me : UInt64) (reach : Reach) {hash : List UInt8} (hhash : hash.length = 16)
    (count : UInt8) {rs : List Owned} (h : ∀ r ∈ rs, IsRecord obfu r.2) :
    let kept := (rs.filter (served me reach)).take MAX_SOURCES_PER_REPLY
    withoutOwner (hash ++ [count] ++ flatten rs) (rs.map (·.1)) me obfu reach =
      hash ++ [UInt8.ofNat kept.length] ++ flatten kept := by
  have hhead : (hash ++ [count]).length = 17 := by simp [hhash]
  have hlen : ¬ (hash ++ [count] ++ flatten rs).length < 17 := by
    rw [List.length_append, hhead]
    omega
  have hbounds := recordBounds_flatten (hash ++ [count]) h
  have hcut := cutRecords_flatten me reach (hash ++ [count]) h
    (Nat.zero_le MAX_SOURCES_PER_REPLY)
  rw [hhead] at hbounds hcut
  have htake : (hash ++ [count] ++ flatten rs).take 16 = hash := by
    rw [List.append_assoc]
    exact List.take_left' hhash
  rw [withoutOwner, if_neg hlen, hbounds]
  simp only [hcut, htake, Nat.sub_zero, Nat.zero_add]

end Ed2kServer.Sources.Records
