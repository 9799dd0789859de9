import Mathlib.Algebra.GroupWithZero.Nat
import Mathlib.Data.List.Nodup

namespace Ed2kServer.Lib.Assoc

variable {K V : Type} [DecidableEq K] {l : List (K × V)} {k : K} {v w : V}

theorem mem_of_lookup (h : l.lookup k = some v) : (k, v) ∈ l := by
  induction l with
  | nil => cases h
  | cons e l ih =>
    rw [List.lookup_cons] at h
    split at h
    · rename_i heq
      obtain rfl := Option.some.inj h
      rw [eq_of_beq heq]
      exact List.mem_cons_self
    · exact List.mem_cons_of_mem _ (ih h)

omit [DecidableEq K] in
theorem eq_of_mem (hkeys : (l.map Prod.fst).Nodup) (hv : (k, v) ∈ l) (hw : (k, w) ∈ l) : v = w :=
  (Prod.mk.inj (List.inj_on_of_nodup_map hkeys hv hw rfl)).2

theorem lookup_of_mem (hkeys : (l.map Prod.fst).Nodup) (hv : (k, v) ∈ l) :
    l.lookup k = some v := by
  cases hlook : l.lookup k with
  | none => exact absurd hv (by simpa using List.lookup_eq_none_iff.mp hlook (k, v))
  | some w => rw [eq_of_mem hkeys (mem_of_lookup hlook) hv]

theorem lookup_eq_some_iff (hkeys : (l.map Prod.fst).Nodup) :
    l.lookup k = some v ↔ (k, v) ∈ l :=
  ⟨mem_of_lookup, lookup_of_mem hkeys⟩

omit [DecidableEq K] in
theorem nodup_keys_filter (hkeys : (l.map Prod.fst).Nodup) (p : K × V → Bool) :
    ((l.filter p).map Prod.fst).Nodup :=
  hkeys.sublist (List.filter_sublist.map _)

theorem lookup_filter (hkeys : (l.map Prod.fst).Nodup) (p : K × V → Bool) (k : K) :
    (l.filter p).lookup k = (l.lookup k).filter fun v => p (k, v) := by
  ext v
  rw [lookup_eq_some_iff (nodup_keys_filter hkeys p), List.mem_filter, Option.filter_eq_some_iff,
    lookup_eq_some_iff hkeys]

theorem lookup_eq_none_iff_notMem : l.lookup k = none ↔ k ∉ l.map Prod.fst := by
  rw [List.lookup_eq_none_iff]
  simp only [List.mem_map, Prod.exists, not_exists, not_and, bne_iff_ne]
  grind

theorem lookup_perm {l' : List (K × V)} (h : l.Perm l') (hkeys : (l.map Prod.fst).Nodup) (k : K) :
    l'.lookup k = l.lookup k := by
  ext v
  rw [lookup_eq_some_iff hkeys, lookup_eq_some_iff ((h.map Prod.fst).nodup_iff.mp hkeys),
    h.mem_iff]

theorem lookup_map (l : List (K × V)) (f : K → V → V) (k : K) :
    (l.map fun e => (e.1, f e.1 e.2)).lookup k = (l.lookup k).map (f k) := by
  induction l with
  | nil => rfl
  | cons e l ih =>
    rw [List.map_cons, List.lookup_cons, List.lookup_cons, ih]
    split
    · rename_i heq
      rw [eq_of_beq heq, Option.map_some]
    · rfl

/-- The value of a key changed in place. -/
def alter (l : List (K × V)) (k : K) (f : V → V) : List (K × V) :=
  l.map fun e => (e.1, if e.1 = k then f e.2 else e.2)

@[simp] theorem keys_alter (l : List (K × V)) (k : K) (f : V → V) :
    (alter l k f).map Prod.fst = l.map Prod.fst := by
  rw [alter, List.map_map]
  rfl

@[simp] theorem length_alter (l : List (K × V)) (k : K) (f : V → V) :
    (alter l k f).length = l.length := List.length_map _

theorem lookup_alter (l : List (K × V)) (k : K) (f : V → V) (j : K) :
    (alter l k f).lookup j = if j = k then (l.lookup j).map f else l.lookup j := by
  rw [alter, lookup_map l (fun key v => if key = k then f v else v)]
  by_cases hj : j = k
  · simp only [hj, if_true]
  · simp only [hj, if_false]
    exact Option.map_id'

theorem length_filter_alter (l : List (K × V)) (k : K) {f : V → V} {q : K × V → Bool}
    (hq : ∀ key value, q (key, f value) = q (key, value)) :
    ((alter l k f).filter q).length = (l.filter q).length := by
  have hsame : (q ∘ fun e : K × V => (e.1, if e.1 = k then f e.2 else e.2)) = q := by
    funext e
    change q (e.1, if e.1 = k then f e.2 else e.2) = q e
    split
    · exact hq e.1 e.2
    · rfl
  rw [alter, List.filter_map, hsame, List.length_map]

theorem lookup_concat (l : List (K × V)) (k : K) (v : V) (j : K) :
    (l ++ [(k, v)]).lookup j = (l.lookup j).or (if j = k then some v else none) := by
  rw [List.lookup_append, List.lookup_cons, List.lookup_nil]
  by_cases hj : j = k
  · rw [hj, beq_self_eq_true, if_pos rfl]
  · rw [beq_false_of_ne hj, if_neg hj]

/-- What a sum over the values becomes when one of them is changed. -/
theorem sum_alter (hkeys : (l.map Prod.fst).Nodup) (h : l.lookup k = some v) (f : V → V)
    (g : V → Nat) :
    ((alter l k f).map fun e => g e.2).sum + g v = (l.map fun e => g e.2).sum + g (f v) := by
  induction l with
  | nil => cases h
  | cons e l ih =>
    obtain ⟨hnot, hkeys⟩ := List.nodup_cons.mp hkeys
    have hcons : ((alter (e :: l) k f).map fun e => g e.2).sum =
        g (if e.1 = k then f e.2 else e.2) + ((alter l k f).map fun e => g e.2).sum := rfl
    rw [List.lookup_cons] at h
    rw [hcons, List.map_cons, List.sum_cons]
    by_cases hk : k = e.1
    · subst hk
      rw [beq_self_eq_true] at h
      obtain rfl := Option.some.inj h
      have hrest : alter l e.1 f = l := by
        refine (List.map_congr_left fun x hx => ?_).trans (List.map_id l)
        have hne : x.1 ≠ e.1 := fun heq => hnot (heq ▸ List.mem_map_of_mem hx)
        rw [if_neg hne]
        rfl
      rw [hrest, if_pos rfl]
      omega
    · rw [beq_false_of_ne hk] at h
      have hsum := ih hkeys h
      rw [if_neg (Ne.symm hk)]
      omega

end Ed2kServer.Lib.Assoc
