import Mathlib

namespace Ed2kServer.Lib.SortedMap

variable {K V : Type} [LinearOrder K]

def Sorted (es : List (K × V)) : Prop := (es.map Prod.fst).SortedLT

/-- Merge a sorted batch into a sorted map: `some` sets a key's value, `none` removes the key. -/
def update : List (K × V) → List (K × Option V) → List (K × V)
  | es, [] => es
  | [], (u, some w) :: us => (u, w) :: update [] us
  | [], (_, none) :: us => update [] us
  | (k, v) :: es, (u, w) :: us =>
    if k < u then (k, v) :: update es ((u, w) :: us)
    else if k = u then
      match w with
      | some w => (u, w) :: update es us
      | none => update es us
    else
      match w with
      | some w => (u, w) :: update ((k, v) :: es) us
      | none => update ((k, v) :: es) us
termination_by es us => es.length + us.length

theorem sorted_cons {k : K} {v : V} {es : List (K × V)} :
    Sorted ((k, v) :: es) ↔ (∀ j ∈ es.map Prod.fst, k < j) ∧ Sorted es := by
  simp only [Sorted, List.map_cons, List.sortedLT_iff_pairwise, List.pairwise_cons]

theorem mem_keys_update {es : List (K × V)} {us : List (K × Option V)} {j : K}
    (h : j ∈ (update es us).map Prod.fst) : j ∈ es.map Prod.fst ∨ j ∈ us.map Prod.fst := by
  fun_induction update es us <;> grind

theorem sorted_update {es : List (K × V)} {us : List (K × Option V)} (hs : Sorted es)
    (hu : Sorted us) : Sorted (update es us) := by
  fun_induction update es us with
  | case1 es => exact hs
  | case2 u w us ih =>
    obtain ⟨hlt, hus⟩ := sorted_cons.mp hu
    refine sorted_cons.mpr ⟨fun j hj => ?_, ih hs hus⟩
    exact hlt j ((mem_keys_update hj).resolve_left (by simp))
  | case3 u us ih => exact ih hs (sorted_cons.mp hu).2
  | case4 k v es u w us hku ih =>
    obtain ⟨hk, hes⟩ := sorted_cons.mp hs
    refine sorted_cons.mpr ⟨fun j hj => ?_, ih hes hu⟩
    rcases mem_keys_update hj with hj | hj
    · exact hk j hj
    · rcases List.mem_cons.mp hj with rfl | hj
      · exact hku
      · exact hku.trans ((sorted_cons.mp hu).1 j hj)
  | case5 v es u us w hnlt ih =>
    obtain ⟨hk, hes⟩ := sorted_cons.mp hs
    obtain ⟨hu', hus⟩ := sorted_cons.mp hu
    refine sorted_cons.mpr ⟨fun j hj => ?_, ih hes hus⟩
    exact (mem_keys_update hj).elim (hk j) (hu' j)
  | case6 v es u us hnlt ih => exact ih (sorted_cons.mp hs).2 (sorted_cons.mp hu).2
  | case7 k v es u us hnlt hne w ih =>
    obtain ⟨hk, hes⟩ := sorted_cons.mp hs
    obtain ⟨hu', hus⟩ := sorted_cons.mp hu
    have huk : u < k := lt_of_le_of_ne (not_lt.mp hnlt) (Ne.symm hne)
    refine sorted_cons.mpr ⟨fun j hj => ?_, ih hs hus⟩
    rcases mem_keys_update hj with hj | hj
    · rcases List.mem_cons.mp hj with rfl | hj
      · exact huk
      · exact huk.trans (hk j hj)
    · exact hu' j hj
  | case8 k v es u us hnlt hne ih => exact ih hs (sorted_cons.mp hu).2

omit [LinearOrder K] in
theorem lookup_cons_eq [DecidableEq K] (k j : K) (v : V) (es : List (K × V)) :
    ((j, v) :: es).lookup k = if k = j then some v else es.lookup k := by
  by_cases h : k = j
  · simp [h]
  · simp [List.lookup_cons, beq_eq_false_iff_ne.mpr h, h]

theorem lookup_eq_none {es : List (K × V)} {k : K} (h : k ∉ es.map Prod.fst) :
    es.lookup k = none := by
  rw [List.lookup_eq_none_iff]
  intro p hp
  simp only [bne_iff_ne]
  rintro rfl
  exact h (List.mem_map_of_mem hp)

theorem lookup_of_lt {k u : K} {es : List (K × V)} (hlt : ∀ j ∈ es.map Prod.fst, u < j)
    (hk : k ≤ u) : es.lookup k = none :=
  lookup_eq_none (fun hm => absurd (hlt k hm) (not_lt.mpr hk))

/-- A key of the batch reads the batch, any other key the old map. -/
theorem lookup_update {es : List (K × V)} {us : List (K × Option V)} (hs : Sorted es)
    (hu : Sorted us) (k : K) :
    (update es us).lookup k = (us.lookup k).getD (es.lookup k) := by
  fun_induction update es us with
  | case1 es => rfl
  | case2 u w us ih =>
    obtain ⟨hlt, hus⟩ := sorted_cons.mp hu
    simp only [lookup_cons_eq, ih hs hus]
    split <;> rfl
  | case3 u us ih =>
    obtain ⟨hlt, hus⟩ := sorted_cons.mp hu
    rw [ih hs hus, lookup_cons_eq]
    by_cases hk : k = u
    · subst hk
      simp [lookup_of_lt hlt le_rfl]
    · simp [hk]
  | case4 j v es u w us hju ih =>
    obtain ⟨hj, hes⟩ := sorted_cons.mp hs
    obtain ⟨hlt, hus⟩ := sorted_cons.mp hu
    by_cases hk : k = j
    · subst hk
      have hn : us.lookup k = none := lookup_of_lt (u := u) hlt hju.le
      simp [lookup_cons_eq, hn, hju.ne]
    · simp [lookup_cons_eq, ih hes hu, hk]
  | case5 v es j us w hnlt ih =>
    obtain ⟨hj, hes⟩ := sorted_cons.mp hs
    obtain ⟨hlt, hus⟩ := sorted_cons.mp hu
    by_cases hk : k = j
    · simp [hk]
    · simp [lookup_cons_eq, ih hes hus, hk]
  | case6 v es j us hnlt ih =>
    obtain ⟨hj, hes⟩ := sorted_cons.mp hs
    obtain ⟨hlt, hus⟩ := sorted_cons.mp hu
    rw [ih hes hus]
    by_cases hk : k = j
    · subst hk
      simp [lookup_of_lt hlt le_rfl, lookup_of_lt hj le_rfl]
    · simp [lookup_cons_eq, hk]
  | case7 j v es u us hnlt hne w ih =>
    obtain ⟨hlt, hus⟩ := sorted_cons.mp hu
    by_cases hk : k = u
    · simp [lookup_cons_eq, hk]
    · simp [lookup_cons_eq, ih hs hus, hk]
  | case8 j v es u us hnlt hne ih =>
    obtain ⟨hj, hes⟩ := sorted_cons.mp hs
    obtain ⟨hlt, hus⟩ := sorted_cons.mp hu
    have huj : u < j := lt_of_le_of_ne (not_lt.mp hnlt) (Ne.symm hne)
    rw [ih hs hus]
    by_cases hk : k = u
    · subst hk
      simp [lookup_cons_eq, lookup_of_lt hlt le_rfl, lookup_of_lt hj huj.le, huj.ne]
    · simp [lookup_cons_eq, hk]

theorem lookup_of_getElem? {es : List (K × V)} (hs : Sorted es) {i : Nat} {k : K} {v : V}
    (h : es[i]? = some (k, v)) : es.lookup k = some v := by
  induction es generalizing i with
  | nil => simp at h
  | cons e es ih =>
    obtain ⟨j, w⟩ := e
    obtain ⟨hlt, hes⟩ := sorted_cons.mp hs
    cases i with
    | zero =>
      obtain ⟨rfl, rfl⟩ : j = k ∧ w = v := by simpa using h
      simp
    | succ i =>
      have hi : es[i]? = some (k, v) := by simpa using h
      have hk : k ∈ es.map Prod.fst := List.mem_map_of_mem (List.mem_of_getElem? hi)
      rw [lookup_cons_eq, if_neg (hlt k hk).ne']
      exact ih hes hi

theorem lookup_eq_some_iff {es : List (K × V)} (hs : Sorted es) {k : K} {v : V} :
    es.lookup k = some v ↔ (k, v) ∈ es := by
  constructor
  · intro h
    obtain ⟨l₁, l₂, rfl, -⟩ := List.lookup_eq_some_iff.mp h
    simp
  · intro h
    obtain ⟨i, hi⟩ := List.getElem?_of_mem h
    exact lookup_of_getElem? hs hi

/-- Apply `f` to every value. -/
def mapValues {W : Type} (f : V → W) (es : List (K × V)) : List (K × W) :=
  es.map (fun e => (e.1, f e.2))

omit [LinearOrder K] in
@[simp] theorem mapValues_keys {W : Type} (f : V → W) (es : List (K × V)) :
    (mapValues f es).map Prod.fst = es.map Prod.fst := by
  simp [mapValues]

theorem sorted_mapValues {W : Type} {f : V → W} {es : List (K × V)} :
    Sorted (mapValues f es) ↔ Sorted es := by
  rw [Sorted, mapValues_keys, Sorted]

theorem lookup_mapValues {W : Type} (f : V → W) (es : List (K × V)) (k : K) :
    (mapValues f es).lookup k = (es.lookup k).map f := by
  induction es with
  | nil => rfl
  | cons e es ih =>
    obtain ⟨j, v⟩ := e
    have hc : mapValues f ((j, v) :: es) = (j, f v) :: mapValues f es := rfl
    rw [hc, lookup_cons_eq, lookup_cons_eq, ih]
    split <;> rfl

theorem mapValues_update {W : Type} (f : V → W) (es : List (K × V)) (us : List (K × Option V)) :
    mapValues f (update es us) = update (mapValues f es) (mapValues (Option.map f) us) := by
  fun_induction update es us with
  | case4 k v es u w us hlt ih => cases w <;> simp_all [mapValues, update]
  | _ => simp_all [mapValues, update]

theorem lookup_of_lt_head {k u : K} {v : V} {es : List (K × V)} (hs : Sorted ((k, v) :: es))
    (huk : u < k) : ((k, v) :: es).lookup u = none := by
  refine lookup_of_lt (u := u) (fun j hj => ?_) le_rfl
  rcases List.mem_cons.mp hj with rfl | hj
  · exact huk
  · exact huk.trans ((sorted_cons.mp hs).1 j hj)

/-- What a batch takes out of a map and puts into it, weighed value by value. -/
theorem sum_update (w : V → Nat) {es : List (K × V)} {us : List (K × Option V)} (hs : Sorted es)
    (hu : Sorted us) :
    ((update es us).map (fun e => w e.2)).sum +
        (us.filterMap (fun u => (es.lookup u.1).map w)).sum =
      (es.map (fun e => w e.2)).sum + (us.filterMap (fun u => u.2.map w)).sum := by
  have hskip : ∀ {k : K} {v : V} {es : List (K × V)} {us : List (K × Option V)},
      (∀ j ∈ us.map Prod.fst, k < j) →
      us.filterMap (fun u => (((k, v) :: es).lookup u.1).map w) =
        us.filterMap (fun u => (es.lookup u.1).map w) := by
    intro k v es us hlt
    refine List.filterMap_congr (fun u hm => ?_)
    rw [lookup_cons_eq, if_neg (hlt u.1 (List.mem_map_of_mem hm)).ne']
  fun_induction update es us with
  | case1 es => simp
  | case2 u x us ih =>
    have h := ih hs (sorted_cons.mp hu).2
    simp only [List.map_cons, List.sum_cons, List.filterMap_cons, List.lookup_nil,
      Option.map_none, Option.map_some] at h ⊢
    omega
  | case3 u us ih => simpa using ih hs (sorted_cons.mp hu).2
  | case4 k v es u x us hlt ih =>
    have h := ih (sorted_cons.mp hs).2 hu
    have hk : ∀ j ∈ ((u, x) :: us).map Prod.fst, k < j := by
      intro j hj
      rcases List.mem_cons.mp hj with rfl | hj
      · exact hlt
      · exact hlt.trans ((sorted_cons.mp hu).1 j hj)
    rw [hskip hk, List.map_cons, List.sum_cons, List.map_cons, List.sum_cons]
    omega
  | case5 v es u us x hnlt ih =>
    obtain ⟨hlt, hus⟩ := sorted_cons.mp hu
    have h := ih (sorted_cons.mp hs).2 hus
    simp only [List.filterMap_cons, List.lookup_cons_self, Option.map_some, List.map_cons,
      List.sum_cons, hskip hlt]
    omega
  | case6 v es u us hnlt ih =>
    obtain ⟨hlt, hus⟩ := sorted_cons.mp hu
    have h := ih (sorted_cons.mp hs).2 hus
    simp only [List.filterMap_cons, List.lookup_cons_self, Option.map_some, Option.map_none,
      List.map_cons, List.sum_cons, hskip hlt]
    omega
  | case7 k v es u us hnlt hne x ih =>
    have h := ih hs (sorted_cons.mp hu).2
    have huk : u < k := lt_of_le_of_ne (not_lt.mp hnlt) (Ne.symm hne)
    have hn := lookup_of_lt_head hs huk
    simp only [List.filterMap_cons, hn, Option.map_some, Option.map_none, List.map_cons,
      List.sum_cons] at h ⊢
    omega
  | case8 k v es u us hnlt hne ih =>
    have h := ih hs (sorted_cons.mp hu).2
    have huk : u < k := lt_of_le_of_ne (not_lt.mp hnlt) (Ne.symm hne)
    have hn := lookup_of_lt_head hs huk
    simp only [List.filterMap_cons, hn, Option.map_none] at h ⊢
    exact h

/-- What a batch finds in a map is no more than the map. -/
theorem sum_found_le (w : V → Nat) {es : List (K × V)} {us : List (K × Option V)} (hs : Sorted es)
    (hu : Sorted us) :
    (us.filterMap (fun u => (es.lookup u.1).map w)).sum ≤ (es.map (fun e => w e.2)).sum := by
  have hu' : Sorted (us.map (fun u => (u.1, (none : Option V)))) := by
    simpa [Sorted, Function.comp_def] using hu
  have h := sum_update w hs hu'
  simp only [List.filterMap_map, Function.comp_def, Option.map_none, List.filterMap_none,
    List.sum_nil, Nat.add_zero] at h
  omega

end Ed2kServer.Lib.SortedMap
