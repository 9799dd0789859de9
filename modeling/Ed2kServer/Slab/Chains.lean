import Ed2kServer.Lib.Intrusive
import Ed2kServer.Slab.Shard

namespace Ed2kServer.Slab.Chains

open Ed2kServer.Lib.Intrusive Ed2kServer.Slab.Record Ed2kServer.Slab.Shard

def slots : Links UInt32 := ⟨UInt32.toNat, fun _ _ => UInt32.toNat_inj.mp, NIL⟩

def InBucket (sh : SlabShard) (b : Nat) (i : UInt32) : Prop :=
  ∃ r, sh.records[i.toNat]? = some r ∧ bucketOf (hashU64 r.hash) sh.bucketMask = b

/-- The bucket chains hold exactly the slots of `P`, each in the bucket of its record's hash. -/
def Linked (sh : SlabShard) (P : UInt32 → Prop) : Prop :=
  ∀ b head, sh.buckets[b]? = some head →
    ∃ l, Chain slots sh.next head l ∧ ∀ i, i ∈ l ↔ P i ∧ InBucket sh b i

/-- The parallel arrays fit each other, and every slot has an index of its own. -/
structure Shape (sh : SlabShard) : Prop where
  next_length : sh.next.length = sh.records.length
  mask : sh.bucketMask.toNat + 1 = sh.buckets.length
  room : sh.records.length ≤ 2 ^ 30

/-- Everything but the links is as before. -/
structure SameRecords (sh sh' : SlabShard) : Prop where
  records : sh'.records = sh.records
  free : sh'.free = sh.free
  media : sh'.media = sh.media

theorem SameRecords.trans {a b c : SlabShard} (h : SameRecords a b) (h' : SameRecords b c) :
    SameRecords a c :=
  ⟨h'.records.trans h.records, h'.free.trans h.free, h'.media.trans h.media⟩

variable {sh : SlabShard} {P : UInt32 → Prop} {i : UInt32}

theorem ne_nil_of_lt (h : i.toNat < 2 ^ 30) : i ≠ NIL := by
  rintro rfl
  exact absurd h (by decide)

theorem Shape.bucket_lt (h : Shape sh) (hash : FileHash) :
    bucketOf (hashU64 hash) sh.bucketMask < sh.buckets.length := by
  have hb := bucketOf_le (hashU64 hash) sh.bucketMask
  have hm := h.mask
  omega

theorem Shape.slot_lt (h : Shape sh) {r : FileRecord} (hr : sh.records[i.toNat]? = some r) :
    i.toNat < sh.next.length := by
  rw [h.next_length]
  exact (List.getElem?_eq_some_iff.mp hr).1

theorem Shape.slot_ne_nil (h : Shape sh) {r : FileRecord}
    (hr : sh.records[i.toNat]? = some r) : i ≠ NIL := by
  have hlt := h.slot_lt hr
  rw [h.next_length] at hlt
  exact ne_nil_of_lt (Nat.lt_of_lt_of_le hlt h.room)

theorem Linked.congr {Q : UInt32 → Prop} (h : Linked sh P) (hpq : ∀ i, P i ↔ Q i) :
    Linked sh Q := by
  intro b head hb
  obtain ⟨l, hl, hm⟩ := h b head hb
  exact ⟨l, hl, fun i => by rw [hm, hpq]⟩

theorem inBucket_eq {b c : Nat} (hb : InBucket sh b i) (hc : InBucket sh c i) : b = c := by
  obtain ⟨r, hr, rfl⟩ := hb
  obtain ⟨r', hr', rfl⟩ := hc
  rw [Option.some.inj (hr.symm.trans hr')]

theorem store_of_lt {links : List UInt32} {n : Nat} (h : n < links.length) (v : UInt32) :
    store links n v = some (links.set n v) := if_pos h

/-- Chaining a slot that is on no chain. -/
theorem link_spec (hs : Shape sh) (hl : Linked sh P) (hi : ¬ P i) {r : FileRecord}
    (hr : sh.records[i.toNat]? = some r) :
    ∃ sh', sh.link i = some sh' ∧ Shape sh' ∧ SameRecords sh sh' ∧
      Linked sh' (fun j => P j ∨ j = i) := by
  set b := bucketOf (hashU64 r.hash) sh.bucketMask with hbdef
  have hb := hs.bucket_lt r.hash
  obtain ⟨head, hhead⟩ : ∃ head, sh.buckets[b]? = some head :=
    ⟨_, List.getElem?_eq_getElem hb⟩
  refine ⟨{ sh with next := sh.next.set i.toNat head, buckets := sh.buckets.set b i }, ?_, ?_, ?_,
    ?_⟩
  · simp [SlabShard.link, hr, ← hbdef, hhead, store_of_lt (hs.slot_lt hr)]
  · exact ⟨by simpa using hs.next_length, by simpa using hs.mask, hs.room⟩
  · exact ⟨rfl, rfl, rfl⟩
  · intro c hd hc
    have hib : InBucket sh b i := ⟨r, hr, rfl⟩
    by_cases hcb : c = b
    · subst hcb
      obtain rfl : i = hd := by
        rw [List.getElem?_set_self hb] at hc
        exact Option.some.inj hc
      obtain ⟨l, hch, hm⟩ := hl b head hhead
      have hil : i ∉ l := fun hmem => hi ((hm i).mp hmem).1
      refine ⟨i :: l, hch.link hil (hs.slot_ne_nil hr) (hs.slot_lt hr), fun j => ?_⟩
      rw [List.mem_cons, hm]
      change _ ↔ (P j ∨ j = i) ∧ InBucket sh b j
      by_cases hji : j = i
      · subst hji
        simp [hib]
      · simp [hji]
    · obtain ⟨l, hch, hm⟩ := hl c hd (by simpa [Ne.symm hcb] using hc)
      have hil : i ∉ l := fun hmem => hi ((hm i).mp hmem).1
      refine ⟨l, hch.set_of_notMem hil, fun j => ?_⟩
      rw [hm]
      change _ ↔ (P j ∨ j = i) ∧ InBucket sh c j
      by_cases hji : j = i
      · subst hji
        have hnc : ¬ InBucket sh c j := fun h => hcb (inBucket_eq h hib)
        simp [hnc]
      · simp [hji]

/-- What the walk of `unlink` does to a chain that holds `i`: the head of the bucket, or the slot
before `i`, gets the link of `i`. -/
inductive Unlinked (sh : SlabShard) (b : Nat) (i after : UInt32) (l : List UInt32) :
    SlabShard → Prop
  | head (post : List UInt32) (h : l = i :: post) :
    Unlinked sh b i after l
      { sh with buckets := sh.buckets.set b after, next := sh.next.set i.toNat NIL }
  | after (pre post : List UInt32) (p : UInt32) (h : l = pre ++ p :: i :: post) :
    Unlinked sh b i after l
      { sh with next := (sh.next.set p.toNat after).set i.toNat NIL }

theorem unlinkFrom_spec {b : Nat} {head : UInt32} (hb : sh.buckets[b]? = some head)
    (pre : List UInt32) {rest : List UInt32} (hch : Chain slots sh.next head (pre ++ rest))
    {cur : UInt32} (hcur : Chain slots sh.next cur rest) (hi : i ∈ rest) (fuel : Nat)
    (hf : rest.length ≤ fuel) :
    ∃ after sh', sh.next[i.toNat]? = some after ∧
      sh.unlinkFrom b i fuel (pre.getLast?.getD NIL) cur = some sh' ∧
      Unlinked sh b i after (pre ++ rest) sh' := by
  induction rest generalizing pre cur fuel with
  | nil => cases hi
  | cons j rest ih =>
    obtain ⟨fuel, rfl⟩ := Nat.exists_eq_add_of_le' (show 1 ≤ fuel by simp at hf; omega)
    have hnull : cur ≠ NIL := by
      obtain ⟨rfl, hne, -⟩ := hcur
      exact hne
    obtain ⟨rfl, -, n, hn, hrest⟩ := hcur
    change sh.next[cur.toNat]? = some n at hn
    have hlt : cur.toNat < sh.next.length := (List.getElem?_eq_some_iff.mp hn).1
    rw [SlabShard.unlinkFrom, if_neg hnull]
    simp only [hn, Option.bind_eq_bind, Option.bind_some]
    by_cases hci : cur = i
    · subst hci
      rw [if_pos rfl]
      refine ⟨n, ?_⟩
      cases pre using List.reverseRecOn with
      | nil =>
        have hblt := (List.getElem?_eq_some_iff.mp hb).1
        exact ⟨_, hn, by simp [store_of_lt hblt, store_of_lt hlt], .head rest rfl⟩
      | append_singleton pre p =>
        have hp : p ≠ NIL := hch.ne_null (by simp)
        have hplt : p.toNat < sh.next.length := hch.lt_length (i := p) (by simp)
        exact ⟨_, hn, by simp [hp, store_of_lt hplt, store_of_lt, hlt],
          .after pre rest p (by simp)⟩
    · rw [if_neg hci]
      have hir : i ∈ rest := (List.mem_cons.mp hi).resolve_left (Ne.symm hci)
      have h := ih (pre ++ [cur]) (by simpa using hch) hrest hir fuel (by simp at hf; omega)
      simpa using h

/-- Unchaining a slot leaves every other one where it was. -/
theorem unlink_spec (hs : Shape sh) (hl : Linked sh P) (hi : P i) {r : FileRecord}
    (hr : sh.records[i.toNat]? = some r) :
    ∃ sh', sh.unlink i r.hash = some sh' ∧ Shape sh' ∧ SameRecords sh sh' ∧
      Linked sh' (fun j => P j ∧ j ≠ i) := by
  set b := bucketOf (hashU64 r.hash) sh.bucketMask with hbdef
  obtain ⟨head, hhead⟩ : ∃ head, sh.buckets[b]? = some head :=
    ⟨_, List.getElem?_eq_getElem (hs.bucket_lt r.hash)⟩
  obtain ⟨l, hch, hm⟩ := hl b head hhead
  have hib : InBucket sh b i := ⟨r, hr, rfl⟩
  have hil : i ∈ l := (hm i).mpr ⟨hi, hib⟩
  obtain ⟨after, sh', hafter, hrun, hun⟩ := unlinkFrom_spec hhead [] hch hch hil
    (sh.next.length + 1) (Nat.le_trans hch.length_le (Nat.le_succ _))
  refine ⟨sh', by simpa [SlabShard.unlink, ← hbdef, hhead] using hrun, ?_, ?_, ?_⟩
  · cases hun with
    | head post h => exact ⟨by simpa using hs.next_length, by simpa using hs.mask, hs.room⟩
    | after pre post p h => exact ⟨by simpa using hs.next_length, hs.mask, hs.room⟩
  · cases hun <;> exact ⟨rfl, rfl, rfl⟩
  · have hother : ∀ c hd, c ≠ b → sh.buckets[c]? = some hd → ∃ m, Chain slots sh.next hd m ∧
        (∀ j, j ∈ m ↔ (P j ∧ j ≠ i) ∧ InBucket sh c j) ∧ ∀ j ∈ l, j ∉ m := by
      intro c hd hcb hc
      obtain ⟨m, hcm, hmm⟩ := hl c hd hc
      have hdisj : ∀ j ∈ l, j ∉ m := fun j hjl hj =>
        hcb (inBucket_eq ((hmm j).mp hj).2 ((hm j).mp hjl).2)
      refine ⟨m, hcm, fun j => ?_, hdisj⟩
      have hji : j ∈ m → j ≠ i := fun hj he => hdisj i hil (he ▸ hj)
      rw [hmm] at hji ⊢
      tauto
    have hself : ∀ m : List UInt32, (∀ j, j ∈ m ↔ j ∈ l ∧ j ≠ i) →
        ∀ j, j ∈ m ↔ (P j ∧ j ≠ i) ∧ InBucket sh b j := by
      intro m hml j
      rw [hml, hm]
      tauto
    have hnd := hch.nodup
    intro c hd hc
    cases hun with
    | head post h =>
      rw [List.nil_append] at h
      subst h
      by_cases hcb : c = b
      · subst hcb
        obtain rfl : after = hd := by
          rw [List.getElem?_set_self (List.getElem?_eq_some_iff.mp hhead).1] at hc
          exact Option.some.inj hc
        obtain rfl : head = i := hch.1
        obtain ⟨n, hn, hpost⟩ := hch.unlink_head (v := NIL)
        obtain rfl : n = after := Option.some.inj (hn.symm.trans hafter)
        refine ⟨post, hpost, hself post (fun j => ?_)⟩
        have hni := (List.nodup_cons.mp hnd).1
        grind
      · obtain ⟨m, hcm, hmm, hdisj⟩ := hother c hd hcb (by
          rwa [List.getElem?_set_ne (Ne.symm hcb)] at hc)
        exact ⟨m, hcm.set_of_notMem (hdisj i hil), hmm⟩
    | after pre post p h =>
      rw [List.nil_append] at h
      subst h
      by_cases hcb : c = b
      · subst hcb
        obtain rfl : head = hd := Option.some.inj (hhead.symm.trans hc)
        refine ⟨pre ++ p :: post, hch.unlink_after hafter, hself _ (fun j => ?_)⟩
        rw [List.nodup_append] at hnd
        grind
      · obtain ⟨m, hcm, hmm, hdisj⟩ := hother c hd hcb hc
        exact ⟨m, (hcm.set_of_notMem (hdisj p (by simp))).set_of_notMem (hdisj i hil), hmm⟩

end Ed2kServer.Slab.Chains
