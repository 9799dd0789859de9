import Ed2kServer.Filter.MaxMind

namespace Ed2kServer.Filter.MaxMind

open Ed2kServer.Filter.Check (fromUtf8)
open Ed2kServer.Filter.IpFilter (decimal)

/-- A value of the format, without its pointers. -/
inductive Value
  | scalar (typ : Nat) (payload : List UInt8)
  | bool (b : Bool)
  | array (items : List Value)
  | map (entries : List (Str × Value))

namespace Value

def text (s : Str) : Value := .scalar tString (utf8 s)

def typ : Value → Nat
  | .scalar typ _ => typ
  | .bool _ => tBool
  | .array _ => tArray
  | .map _ => tMap

/-- The size field. -/
def count : Value → Nat
  | .scalar _ payload => payload.length
  | .bool b => b.toNat
  | .array items => items.length
  | .map entries => entries.length

def isContainer : Value → Bool
  | .array _ | .map _ => true
  | _ => false

/-- What stands behind the control bytes of an array or a map, one value after the other. -/
def items : Value → List Value
  | .array items => items
  | .map entries => entries.flatMap fun e => [text e.1, e.2]
  | _ => []

mutual

/-- How many values there are in all, the keys of maps included. -/
def size : Value → Nat
  | .scalar _ _ => 1
  | .bool _ => 1
  | .array items => 1 + sizeItems items
  | .map entries => 1 + sizeEntries entries

def sizeItems : List Value → Nat
  | [] => 0
  | v :: items => v.size + sizeItems items

def sizeEntries : List (Str × Value) → Nat
  | [] => 0
  | (_, v) :: entries => 1 + v.size + sizeEntries entries

end

mutual

/-- How deep arrays and maps are nested. -/
def depth : Value → Nat
  | .scalar _ _ => 0
  | .bool _ => 0
  | .array items => 1 + depthItems items
  | .map entries => 1 + depthEntries entries

def depthItems : List Value → Nat
  | [] => 0
  | v :: items => max v.depth (depthItems items)

def depthEntries : List (Str × Value) → Nat
  | [] => 0
  | (_, v) :: entries => max v.depth (depthEntries entries)

end

/-- The value of the first entry with that key. -/
def get : Value → Str → Option Value
  | .map entries, key => entries.lookup key
  | _, _ => none

def str : Value → Option Str
  | .scalar typ payload => if typ = tString then fromUtf8 payload else none
  | _ => none

def uint : Value → Option Nat
  | .scalar typ payload =>
    if (typ = tU16 ∨ typ = tU32 ∨ typ = tU64 ∨ typ = tU128) ∧ payload.length ≤ 8 then
      some (ofBeBytes payload)
    else none
  | _ => none

def getStr (v : Value) (key : Str) : Option Str := (v.get key).bind str

def getUint (v : Value) (key : Str) : Option Nat := (v.get key).bind uint

def country (v : Value) : Option Str × Option Str :=
  match v.getStr "country_code".toList with
  | some code => (some (toAsciiUppercase code), v.getStr "country".toList)
  | none =>
    let c := (v.get "country".toList).or (v.get "registered_country".toList)
    ((c.bind fun c => c.getStr "iso_code".toList).map toAsciiUppercase,
      (c.bind fun c => c.get "names".toList).bind fun names => names.getStr "en".toList)

def provider (v : Value) : Option Str × Option Str :=
  match v.getStr "asn".toList with
  | some asn => (some asn, v.getStr "as_name".toList)
  | none =>
    ((v.getUint "autonomous_system_number".toList).map fun n => "AS".toList ++ decimal n,
      (v.getStr "as_name".toList).or (v.getStr "autonomous_system_organization".toList))

/-- What a record says of the addresses of its network. -/
def geo (v : Value) : GeoRecord :=
  ⟨v.country.1.filter fun c => (utf8 c).length = 2, v.country.2, v.provider.1, v.provider.2⟩

theorem size_pos (v : Value) : 0 < v.size := by
  cases v <;> rw [size] <;> omega

theorem sizeItems_append (vs ws : List Value) :
    sizeItems (vs ++ ws) = sizeItems vs + sizeItems ws := by
  induction vs with
  | nil => simp [sizeItems]
  | cons v vs ih => rw [List.cons_append, sizeItems, sizeItems, ih, Nat.add_assoc]

theorem size_eq (v : Value) : v.size = 1 + sizeItems v.items := by
  cases v with
  | scalar typ payload => rfl
  | bool b => rfl
  | array items => rfl
  | map entries =>
    rw [size]
    refine congrArg (1 + ·) ?_
    change sizeEntries entries = sizeItems (entries.flatMap fun e => [text e.1, e.2])
    induction entries with
    | nil => rfl
    | cons e entries ih =>
      rw [sizeEntries, List.flatMap_cons, sizeItems_append, ← ih, sizeItems, sizeItems,
        sizeItems, text, size, Nat.add_zero]

theorem depth_le_items {v : Value} {vs : List Value} (h : v ∈ vs) : v.depth ≤ depthItems vs := by
  induction vs with
  | nil => exact absurd h List.not_mem_nil
  | cons w vs ih =>
    rw [depthItems]
    obtain rfl | h := List.mem_cons.mp h
    · exact Nat.le_max_left _ _
    · exact (ih h).trans (Nat.le_max_right _ _)

theorem depth_le_entries {e : Str × Value} {entries : List (Str × Value)} (h : e ∈ entries) :
    e.2.depth ≤ depthEntries entries := by
  induction entries with
  | nil => exact absurd h List.not_mem_nil
  | cons d entries ih =>
    rw [depthEntries]
    obtain rfl | h := List.mem_cons.mp h
    · exact Nat.le_max_left _ _
    · exact (ih h).trans (Nat.le_max_right _ _)

theorem depth_lt {v w : Value} (h : w ∈ v.items) : w.depth < v.depth := by
  cases v with
  | scalar typ payload => exact absurd h List.not_mem_nil
  | bool b => exact absurd h List.not_mem_nil
  | array items =>
    rw [depth]
    exact Nat.lt_one_add_iff.mpr (depth_le_items h)
  | map entries =>
    obtain ⟨e, he, hw⟩ := List.mem_flatMap.mp h
    rw [depth]
    refine Nat.lt_one_add_iff.mpr ?_
    obtain rfl | hw := List.mem_cons.mp hw
    · exact Nat.zero_le _
    · rw [List.mem_singleton.mp hw]
      exact depth_le_entries he

theorem length_flat (entries : List (Str × Value)) :
    (entries.flatMap fun e => [text e.1, e.2]).length = entries.length * 2 := by
  induction entries with
  | nil => rfl
  | cons e entries ih =>
    rw [List.flatMap_cons, List.length_append, ih, List.length_cons]
    simp only [List.length_cons, List.length_nil]
    omega

theorem size_lt {v w : Value} (h : w ∈ v.items) : w.size < v.size := by
  have hle : ∀ vs : List Value, w ∈ vs → w.size ≤ sizeItems vs := by
    intro vs hmem
    induction vs with
    | nil => exact absurd hmem List.not_mem_nil
    | cons u vs ih =>
      rw [sizeItems]
      obtain rfl | hmem := List.mem_cons.mp hmem
      · exact Nat.le_add_right _ _
      · exact (ih hmem).trans (Nat.le_add_left _ _)
  rw [v.size_eq]
  exact Nat.lt_one_add_iff.mpr (hle v.items h)

theorem mem_items_of_get {v w : Value} {key : Str} (h : v.get key = some w) : w ∈ v.items := by
  cases v with
  | scalar typ payload => cases h
  | bool b => cases h
  | array items => cases h
  | map entries =>
    rw [get] at h
    obtain ⟨before, after, rfl, -⟩ := List.lookup_eq_some_iff.mp h
    exact List.mem_flatMap.mpr ⟨(key, w), List.mem_append_right _ List.mem_cons_self,
      List.mem_cons_of_mem _ (List.mem_singleton_self w)⟩

end Value

end Ed2kServer.Filter.MaxMind
