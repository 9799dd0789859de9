import Ed2kServer.Basic
import Ed2kServer.Lib.Ascending
import Ed2kServer.Lib.SortedMap

namespace Ed2kServer.Keyword.ColdShard

open Ed2kServer.Lib

/-- Three flat arrays: the sorted keys, where each blob ends (in 32 bits), the blobs themselves. -/
structure Shard where
  keys : List TokenHash
  ends : List UInt32
  arena : List UInt8
  deriving DecidableEq, Repr

def Shard.empty : Shard := ⟨[], [], []⟩

def Shard.find (s : Shard) (th : TokenHash) : Option Nat :=
  match Ascending.binarySearch s.keys th with
  | .ok i => some i
  | .error _ => none

def Shard.span (s : Shard) (i : Nat) : Nat × Nat :=
  (if i = 0 then 0 else (s.ends.getD (i - 1) 0).toNat, (s.ends.getD i 0).toNat)

def Shard.blob (s : Shard) (i : Nat) : List UInt8 :=
  (s.arena.take (s.span i).2).drop (s.span i).1

def Shard.push (s : Shard) (k : TokenHash) (blob : List UInt8) : Shard :=
  ⟨s.keys ++ [k], s.ends ++ [UInt32.ofNat (s.arena ++ blob).length], s.arena ++ blob⟩

/-- The old shard's keys, from position `i`, walked alongside the batch of replacements; the
second result counts the keywords removed. -/
def Shard.rebuildLoop (old : Shard) :
    Nat → List TokenHash → List (TokenHash × Option (List UInt8)) → Shard → Nat → Shard × Nat
  | _, [], [], new, removed => (new, removed)
  | i, k :: keys, [], new, removed =>
    old.rebuildLoop (i + 1) keys [] (new.push k (old.blob i)) removed
  | i, [], (u, some b) :: rest, new, removed => old.rebuildLoop i [] rest (new.push u b) removed
  | i, [], (_, none) :: rest, new, removed => old.rebuildLoop i [] rest new removed
  | i, k :: keys, (u, blob) :: rest, new, removed =>
    if k < u then
      old.rebuildLoop (i + 1) keys ((u, blob) :: rest) (new.push k (old.blob i)) removed
    else if k = u then
      match blob with
      | some b => old.rebuildLoop (i + 1) keys rest (new.push u b) removed
      | none => old.rebuildLoop (i + 1) keys rest new (removed + 1)
    else
      match blob with
      | some b => old.rebuildLoop i (k :: keys) rest (new.push u b) removed
      | none => old.rebuildLoop i (k :: keys) rest new removed
termination_by _ keys updates => keys.length + updates.length

def Shard.rebuild (old : Shard) (updates : List (TokenHash × Option (List UInt8))) : Shard × Nat :=
  old.rebuildLoop 0 old.keys updates .empty 0

/-- The shard that holds a sorted map from keys to blobs. -/
def Shard.ofEntries (es : List (TokenHash × List UInt8)) : Shard :=
  es.foldl (fun s e => s.push e.1 e.2) .empty

@[simp] theorem push_keys (s : Shard) (k : TokenHash) (b : List UInt8) :
    (s.push k b).keys = s.keys ++ [k] := rfl

@[simp] theorem push_arena (s : Shard) (k : TokenHash) (b : List UInt8) :
    (s.push k b).arena = s.arena ++ b := rfl

theorem ofEntries_append_one (es : List (TokenHash × List UInt8)) (e : TokenHash × List UInt8) :
    Shard.ofEntries (es ++ [e]) = (Shard.ofEntries es).push e.1 e.2 := by
  simp [Shard.ofEntries]

theorem ofEntries_keys (es : List (TokenHash × List UInt8)) :
    (Shard.ofEntries es).keys = es.map Prod.fst := by
  induction es using List.reverseRecOn with
  | nil => rfl
  | append_singleton es e ih => simp [ofEntries_append_one, ih]

theorem ofEntries_arena (es : List (TokenHash × List UInt8)) :
    (Shard.ofEntries es).arena = es.flatMap Prod.snd := by
  induction es using List.reverseRecOn with
  | nil => rfl
  | append_singleton es e ih => simp [ofEntries_append_one, ih]

theorem ofEntries_ends_length (es : List (TokenHash × List UInt8)) :
    (Shard.ofEntries es).ends.length = es.length := by
  induction es using List.reverseRecOn with
  | nil => rfl
  | append_singleton es e ih => simp [ofEntries_append_one, Shard.push, ih]

/-- An end is the length of the blobs up to it, as long as the arena is addressable. -/
theorem ofEntries_end {es : List (TokenHash × List UInt8)} {i : Nat} (hi : i < es.length)
    (ha : (es.flatMap Prod.snd).length < 2 ^ 32) :
    ((Shard.ofEntries es).ends.getD i 0).toNat =
      ((es.take (i + 1)).flatMap Prod.snd).length := by
  induction es using List.reverseRecOn with
  | nil => simp at hi
  | append_singleton es e ih =>
    obtain ⟨k, b⟩ := e
    have hlen := ofEntries_ends_length es
    rw [List.flatMap_append, List.flatMap_singleton] at ha
    rw [List.length_append, List.length_singleton] at hi
    rw [ofEntries_append_one, Shard.push]
    by_cases hlast : i = es.length
    · subst hlast
      rw [List.getD_append_right _ _ _ _ hlen.le, hlen, Nat.sub_self, List.getD_cons_zero,
        List.take_of_length_le (by simp), List.flatMap_append, List.flatMap_singleton,
        ofEntries_arena, UInt32.toNat_ofNat', Nat.mod_eq_of_lt ha]
    · have ha' : (es.flatMap Prod.snd).length < 2 ^ 32 := by
        rw [List.length_append] at ha
        omega
      rw [List.getD_append _ _ _ _ (by omega), ih (by omega) ha',
        List.take_append_of_le_length (by omega)]

theorem ofEntries_span (done : List (TokenHash × List UInt8))
    {rest : List (TokenHash × List UInt8)} {k : TokenHash}
    {b : List UInt8} (ha : ((done ++ (k, b) :: rest).flatMap Prod.snd).length < 2 ^ 32) :
    (Shard.ofEntries (done ++ (k, b) :: rest)).span done.length =
      ((done.flatMap Prod.snd).length, (done.flatMap Prod.snd ++ b).length) := by
  refine Prod.ext ?_ ?_
  · cases done using List.reverseRecOn with
    | nil => simp [Shard.span]
    | append_singleton done e =>
      rw [Shard.span, if_neg (by simp), List.length_append, List.length_singleton,
        Nat.add_sub_cancel, ofEntries_end (by simp) ha, List.take_left' (by simp)]
  · have hcons : done ++ (k, b) :: rest = done ++ [(k, b)] ++ rest := by simp
    change ((Shard.ofEntries (done ++ (k, b) :: rest)).ends.getD done.length 0).toNat = _
    rw [ofEntries_end (by simp) ha, hcons, List.take_left' (by simp),
      List.flatMap_append, List.flatMap_singleton]

theorem ofEntries_blob (done : List (TokenHash × List UInt8))
    {rest : List (TokenHash × List UInt8)} {k : TokenHash}
    {b : List UInt8} (ha : ((done ++ (k, b) :: rest).flatMap Prod.snd).length < 2 ^ 32) :
    (Shard.ofEntries (done ++ (k, b) :: rest)).blob done.length = b := by
  rw [Shard.blob, ofEntries_span done ha, ofEntries_arena, List.flatMap_append,
    List.flatMap_cons, ← List.append_assoc, List.take_left, List.drop_left]

theorem rebuildLoop_of_lt (old : Shard) (i : Nat) {k u : TokenHash} (h : k < u)
    (keys : List TokenHash) (w : Option (List UInt8))
    (us : List (TokenHash × Option (List UInt8))) (new : Shard) (removed : Nat) :
    old.rebuildLoop i (k :: keys) ((u, w) :: us) new removed =
      old.rebuildLoop (i + 1) keys ((u, w) :: us) (new.push k (old.blob i)) removed := by
  cases w <;> rw [Shard.rebuildLoop, if_pos h]

/-- A shard's blobs as a sorted map merged with the batch: what a rebuild installs. -/
theorem rebuildLoop_ofEntries {es : List (TokenHash × List UInt8)}
    (done : List (TokenHash × List UInt8)) {rest : List (TokenHash × List UInt8)}
    (he : es = done ++ rest) (ha : (es.flatMap Prod.snd).length < 2 ^ 32)
    (ups : List (TokenHash × Option (List UInt8))) (acc : List (TokenHash × List UInt8))
    (removed : Nat) :
    ((Shard.ofEntries es).rebuildLoop done.length (rest.map Prod.fst) ups
      (Shard.ofEntries acc) removed).1 = Shard.ofEntries (acc ++ SortedMap.update rest ups) := by
  have hcopy : ∀ done' k b rest', es = done' ++ (k, b) :: rest' →
      (Shard.ofEntries es).blob done'.length = b := by
    rintro done' k b rest' rfl
    exact ofEntries_blob done' ha
  fun_induction SortedMap.update rest ups generalizing done acc removed with
  | case1 rest =>
    induction rest generalizing done acc with
    | nil => simp [Shard.rebuildLoop]
    | cons e rest ih =>
      obtain ⟨k, b⟩ := e
      rw [List.map_cons, Shard.rebuildLoop, hcopy done k b rest he,
        ← ofEntries_append_one acc (k, b)]
      simpa using ih (done ++ [(k, b)]) (by simp [he]) (acc ++ [(k, b)])
  | case2 u w us ih =>
    rw [List.map_nil, Shard.rebuildLoop, ← ofEntries_append_one acc (u, w)]
    simpa using ih done he (acc ++ [(u, w)]) removed
  | case3 u us ih =>
    rw [List.map_nil, Shard.rebuildLoop]
    exact ih done he acc removed
  | case4 k v rest u w us hlt ih =>
    rw [List.map_cons, rebuildLoop_of_lt _ _ hlt, hcopy done k v rest he,
      ← ofEntries_append_one acc (k, v)]
    simpa using ih (done ++ [(k, v)]) (by simp [he]) (acc ++ [(k, v)]) removed
  | case5 v rest u us w hlt ih =>
    rw [List.map_cons, Shard.rebuildLoop, if_neg hlt, if_pos rfl, ← ofEntries_append_one acc (u, w)]
    simpa using ih (done ++ [(u, v)]) (by simp [he]) (acc ++ [(u, w)]) removed
  | case6 v rest u us hlt ih =>
    rw [List.map_cons, Shard.rebuildLoop, if_neg hlt, if_pos rfl]
    simpa using ih (done ++ [(u, v)]) (by simp [he]) acc (removed + 1)
  | case7 k v rest u us hlt hne w ih =>
    rw [List.map_cons, Shard.rebuildLoop, if_neg hlt, if_neg hne, ← ofEntries_append_one acc (u, w)]
    simpa using ih done he (acc ++ [(u, w)]) removed
  | case8 k v rest u us hlt hne ih =>
    rw [List.map_cons, Shard.rebuildLoop, if_neg hlt, if_neg hne]
    exact ih done he acc removed

theorem rebuild_ofEntries {es : List (TokenHash × List UInt8)}
    (ha : (es.flatMap Prod.snd).length < 2 ^ 32)
    (ups : List (TokenHash × Option (List UInt8))) :
    ((Shard.ofEntries es).rebuild ups).1 = Shard.ofEntries (SortedMap.update es ups) := by
  have h := rebuildLoop_ofEntries [] (List.nil_append es).symm ha ups [] 0
  rw [Shard.rebuild, ofEntries_keys]
  exact h

end Ed2kServer.Keyword.ColdShard
