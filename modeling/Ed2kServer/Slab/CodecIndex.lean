import Ed2kServer.Slab.Codecs
import Ed2kServer.Text.Trim

namespace Ed2kServer.Slab.CodecIndex

open Ed2kServer.Text.Chars Ed2kServer.Text.Trim
open Ed2kServer.Slab.MediaFields Ed2kServer.Slab.Codecs

/-- The map from names to indexes, and the names in the order of their indexes. -/
structure CodecMaps where
  index : Str → Option UInt8
  names : List Str

namespace CodecMaps

def empty : CodecMaps := ⟨fun _ => none, []⟩

def intern (t : CodecMaps) (name : Str) : CodecMaps × UInt8 :=
  match t.index name with
  | some i => (t, i)
  | none =>
    if MAX ≤ t.names.length then (t, 0)
    else
      let names := t.names ++ [name]
      let i := UInt8.ofNat names.length
      (⟨Function.update t.index name (some i), names⟩, i)

def lookup (U : Unicode) (t : CodecMaps) (raw : Str) : Option UInt8 :=
  (normalise U raw).bind t.index

def name (t : CodecMaps) (i : UInt8) : Option Str :=
  if i = 0 then none else t.names[i.toNat - 1]?

/-- The map says what the names say. -/
def Refines (t : CodecMaps) (a : CodecInner) : Prop := t.names = a.names ∧ t.index = a.indexOf

end CodecMaps

variable {U : Unicode} {t : CodecMaps} {a : CodecInner} {n : Str} {i : UInt8}

theorem refines_empty : CodecMaps.empty.Refines .empty :=
  ⟨rfl, funext fun _ => rfl⟩

theorem intern_refines (h : t.Refines a) (n : Str) :
    (t.intern n).1.Refines (a.intern n).1 ∧ (t.intern n).2 = (a.intern n).2 := by
  obtain ⟨hnames, hindex⟩ := h
  rw [CodecMaps.intern, CodecInner.intern, hindex, hnames]
  by_cases hm : n ∈ a.names
  · rw [dif_pos hm, CodecInner.indexOf, if_pos hm]
    exact ⟨⟨hnames, hindex⟩, rfl⟩
  · rw [dif_neg hm, CodecInner.indexOf, if_neg hm]
    dsimp only
    split_ifs with hfull
    · exact ⟨⟨hnames, hindex⟩, rfl⟩
    · have hlen : (a.names ++ [n]).length = a.names.length + 1 := List.length_append
      refine ⟨⟨rfl, funext fun m => ?_⟩, by rw [hlen]⟩
      rw [hlen, CodecInner.indexOf]
      dsimp only
      by_cases hmn : m = n
      · subst hmn
        rw [Function.update_self, if_pos (List.mem_append_right _ (List.mem_singleton_self m)),
          List.idxOf_append_of_notMem hm, List.idxOf_cons_self, Nat.add_zero]
      · rw [Function.update_of_ne hmn, CodecInner.indexOf]
        by_cases hma : m ∈ a.names
        · rw [if_pos hma, if_pos (List.mem_append_left _ hma), List.idxOf_append_of_mem hma]
        · rw [if_neg hma, if_neg]
          rw [List.mem_append, List.mem_singleton]
          exact not_or.mpr ⟨hma, hmn⟩

/-- The map and the names are inverse to each other. -/
theorem index_eq_some_iff (h : t.Refines a) : t.index n = some i ↔ t.name i = some n := by
  rw [h.2, indexOf_eq_some_iff, CodecMaps.name, h.1]
  rfl

/-- No name gets another index. -/
theorem intern_index (m : Str) (hn : t.index n = some i) :
    (t.intern m).1.index n = some i := by
  rw [CodecMaps.intern]
  split
  · exact hn
  · rename_i hm
    split_ifs
    · exact hn
    · have hne : n ≠ m := by
        rintro rfl
        cases hm.symm.trans hn
      exact (Function.update_of_ne hne _ _).trans hn

theorem mem_intern (t : CodecMaps) (m : Str) (hn : n ∈ (t.intern m).1.names) :
    n ∈ t.names ∨ n = m := by
  rw [CodecMaps.intern] at hn
  split at hn
  · exact .inl hn
  · split_ifs at hn
    · exact .inl hn
    · exact (List.mem_append.mp hn).imp_right List.mem_singleton.mp

/-- Which codec strings are cut behind a space. -/
def CutAtSpace (U : Unicode) (raw : Str) : Prop :=
  (U.trim raw)[CodecTable.MAX_LEN - 1]? = some ' '

instance (U : Unicode) (raw : Str) : Decidable (CutAtSpace U raw) :=
  inferInstanceAs (Decidable (_ = _))

/-- The codes that a stored name is made of. -/
def Printable (c : Char) : Prop := 0x20 ≤ c.toNat ∧ c.toNat < 0x7F

theorem printable_iff {s : Str} :
    (utf8 s).all (fun b => 0x20 ≤ b && b < 0x7F) = true ↔ ∀ c ∈ s, Printable c := by
  rw [utf8_all_iff]
  · refine forall₂_congr fun c _ => ?_
    rw [Bool.and_eq_true, decide_eq_true_iff, decide_eq_true_iff, UInt8.le_iff_toNat_le,
      UInt8.lt_iff_toNat_lt, UInt8.toNat_ofNat', Printable]
    have h20 : (0x20 : UInt8).toNat = 32 := rfl
    have h7f : (0x7F : UInt8).toNat = 127 := rfl
    omega
  · intro b hb
    rw [← Bool.not_eq_true, Bool.and_eq_true, decide_eq_true_iff, decide_eq_true_iff,
      UInt8.lt_iff_toNat_lt]
    have h7f : (0x7F : UInt8).toNat = 127 := rfl
    omega

theorem toLower_printable {c : Char} (h : Printable c) :
    Printable c.toLower ∧ c.toLower.toLower = c.toLower ∧ (c.toLower = ' ' ↔ c = ' ') := by
  have hall : ∀ n < 127, 0x20 ≤ n →
      (0x20 ≤ (Char.ofNat n).toLower.toNat ∧ (Char.ofNat n).toLower.toNat < 0x7F) ∧
        (Char.ofNat n).toLower.toLower = (Char.ofNat n).toLower ∧
        ((Char.ofNat n).toLower = ' ' ↔ Char.ofNat n = ' ') := by
    decide
  have hc := hall c.toNat h.2 h.1
  rwa [Char.ofNat_toNat] at hc

/-- A stored form: the lower case of what is left between the ends, cut to 19 characters. -/
theorem normalise_eq_some {s n : Str} :
    normalise U s = some n ↔ U.trim s ≠ [] ∧ (∀ c ∈ U.trim s, Printable c) ∧
      n = (toAsciiLowercase (U.trim s)).take CodecTable.MAX_LEN := by
  have hall := printable_iff (s := U.trim s)
  rw [normalise]
  split_ifs with h
  · refine ⟨fun h => (nomatch h), fun hn => ?_⟩
    rcases h with h | h
    · exact absurd h hn.1
    · rw [hall.mpr hn.2.1] at h
      cases h
  · rw [not_or, Bool.not_eq_true', Bool.not_eq_false, hall] at h
    rw [and_iff_right h.1, and_iff_right h.2, Option.some.injEq, eq_comm]

/-- No printable character is white space, the space apart. -/
def SpaceOnly (U : Unicode) : Prop :=
  ∀ c : Char, 0x20 < c.toNat → c.toNat < 0x7F → U.isWhitespace c = false

theorem getLast?_stored {s n : Str} (h : normalise U s = some n) :
    n ≠ [] ∧ n.getLast? =
      ((U.trim s)[min (U.trim s).length CodecTable.MAX_LEN - 1]?).map Char.toLower := by
  obtain ⟨hne, -, rfl⟩ := normalise_eq_some.mp h
  have hpos := List.length_pos_iff.mpr hne
  have hmax : CodecTable.MAX_LEN = 19 := rfl
  have hlen : ((toAsciiLowercase (U.trim s)).take CodecTable.MAX_LEN).length =
      min (U.trim s).length CodecTable.MAX_LEN := by
    rw [List.length_take, toAsciiLowercase, List.length_map, Nat.min_comm]
  refine ⟨List.length_pos_iff.mp (by omega), ?_⟩
  rw [List.getLast?_eq_getElem?, hlen, List.getElem?_take_of_lt (by omega), toAsciiLowercase,
    List.getElem?_map]

/-- A stored name ends with a space when it was cut behind one. -/
theorem getLast?_eq_space_iff {s n : Str} (h : normalise U s = some n) :
    n.getLast? = some ' ' ↔ CutAtSpace U s := by
  obtain ⟨-, hlast⟩ := getLast?_stored h
  obtain ⟨hne, hprint, -⟩ := normalise_eq_some.mp h
  have hpos := List.length_pos_iff.mpr hne
  have hmax : CodecTable.MAX_LEN = 19 := rfl
  have hspace : ∀ k : Nat, ((U.trim s)[k]?).map Char.toLower = some ' ' ↔
      (U.trim s)[k]? = some ' ' := by
    intro k
    rw [Option.map_eq_some_iff]
    constructor
    · rintro ⟨c, hc, heq⟩
      rw [hc, (toLower_printable (hprint c (List.mem_of_getElem? hc))).2.2.mp heq]
    · exact fun hk => ⟨' ', hk, rfl⟩
  rw [hlast, hspace, CutAtSpace]
  rcases Nat.lt_or_ge CodecTable.MAX_LEN (U.trim s).length with hlt | hle
  · rw [Nat.min_eq_right hlt.le]
  · rw [Nat.min_eq_left hle, ← List.getLast?_eq_getElem?]
    have hno : (U.trim s).getLast? ≠ some ' ' := by
      intro heq
      have hws := getLast?_trim heq
      rw [U.isWhitespace_space] at hws
      cases hws
    refine iff_of_false hno fun hcut => ?_
    have hlt := (List.getElem?_eq_some_iff.mp hcut).1
    refine hno ?_
    rwa [List.getLast?_eq_getElem?, show (U.trim s).length - 1 = CodecTable.MAX_LEN - 1 by omega]

/-- A stored name is its own stored form, unless it ends with a space. -/
theorem normalise_self_iff (hU : SpaceOnly U) {s n : Str} (h : normalise U s = some n) :
    normalise U n = some n ↔ ¬CutAtSpace U s := by
  rw [← getLast?_eq_space_iff h]
  obtain ⟨hne, hlast⟩ := getLast?_stored h
  obtain ⟨-, hprint, hn⟩ := normalise_eq_some.mp h
  have hmem : ∀ c ∈ n, ∃ d, Printable d ∧ c = d.toLower := by
    intro c hc
    rw [hn] at hc
    obtain ⟨d, hd, rfl⟩ := List.mem_map.mp (List.mem_of_mem_take hc)
    exact ⟨d, hprint d hd, rfl⟩
  constructor
  · intro hself hspace
    obtain ⟨-, -, hcut⟩ := normalise_eq_some.mp hself
    have hlen := congrArg List.length hcut
    have hsub := trim_sublist U n
    rw [List.length_take, toAsciiLowercase, List.length_map] at hlen
    have heq : U.trim n = n := hsub.eq_of_length (by
      have := hsub.length_le
      omega)
    rw [← heq] at hspace
    have hws := getLast?_trim hspace
    rw [U.isWhitespace_space] at hws
    cases hws
  · intro hspace
    have hvisible : ∀ c ∈ n, c ≠ ' ' → U.isWhitespace c = false := by
      intro c hc hne
      obtain ⟨d, hd, rfl⟩ := hmem c hc
      obtain ⟨⟨hlo, hhi⟩, -, -⟩ := toLower_printable hd
      refine hU _ (lt_of_le_of_ne hlo fun heq => hne ?_) hhi
      exact Char.toNat_inj.mp heq.symm
    have hhead : ∀ c, n.head? = some c → U.isWhitespace c = false := by
      intro c hc
      have hfirst : (U.trim s).head?.map Char.toLower = some c := by
        rw [← hc, hn, List.head?_take, if_neg (by decide), toAsciiLowercase, List.head?_map]
      obtain ⟨d, hd, rfl⟩ := Option.map_eq_some_iff.mp hfirst
      have hdmem := List.mem_of_mem_head? hd
      refine hvisible _ (List.mem_of_mem_head? hc) fun heq => ?_
      have hws := head?_trim hd
      rw [(toLower_printable (hprint d hdmem)).2.2.mp heq, U.isWhitespace_space] at hws
      cases hws
    have htrim : U.trim n = n := by
      refine trim_eq_self hhead fun c hc => hvisible c (List.mem_of_getLast? hc) ?_
      rintro rfl
      exact hspace hc
    refine normalise_eq_some.mpr ⟨by rwa [htrim], ?_, ?_⟩
    · rw [htrim]
      intro c hc
      obtain ⟨d, hd, rfl⟩ := hmem c hc
      exact (toLower_printable hd).1
    · have hlower : toAsciiLowercase n = n := by
        refine (List.map_congr_left fun c hc => ?_).trans (List.map_id n)
        obtain ⟨d, hd, rfl⟩ := hmem c hc
        exact (toLower_printable hd).2.1
      have hlen : n.length ≤ CodecTable.MAX_LEN := by
        rw [hn, List.length_take]
        exact Nat.min_le_left _ _
      rw [htrim, hlower, List.take_of_length_le hlen]

end Ed2kServer.Slab.CodecIndex
