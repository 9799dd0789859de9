import Mathlib

namespace Ed2kServer.Lib.BitTrie

variable {α : Type}

/-- Values under prefixes of which none begins another. -/
inductive Trie (α : Type)
  | empty
  | leaf (a : α)
  | node (zero one : Trie α)

namespace Trie

def find : Trie α → List Bool → Option α
  | .empty, _ => none
  | .leaf a, _ => some a
  | .node _ _, [] => none
  | .node zero one, bit :: bits => bif bit then one.find bits else zero.find bits

/-- The prefixes with their values. -/
def networks : Trie α → List (List Bool × α)
  | .empty => []
  | .leaf a => [([], a)]
  | .node zero one =>
    zero.networks.map (fun n => (false :: n.1, n.2)) ++
      one.networks.map (fun n => (true :: n.1, n.2))

theorem cons_mem_networks {zero one : Trie α} {bit : Bool} {p : List Bool} {a : α} :
    (bit :: p, a) ∈ (node zero one).networks ↔
      (p, a) ∈ (bif bit then one else zero).networks := by
  rw [networks, List.mem_append, List.mem_map, List.mem_map]
  cases bit with
  | false =>
    constructor
    · rintro (⟨n, hn, heq⟩ | ⟨n, -, heq⟩)
      · cases heq
        exact hn
      · cases heq
    · exact fun h => Or.inl ⟨(p, a), h, rfl⟩
  | true =>
    constructor
    · rintro (⟨n, -, heq⟩ | ⟨n, hn, heq⟩)
      · cases heq
      · cases heq
        exact hn
    · exact fun h => Or.inr ⟨(p, a), h, rfl⟩

theorem nil_not_mem_networks {zero one : Trie α} {a : α} :
    ([], a) ∉ (node zero one).networks := by
  rw [networks, List.mem_append, List.mem_map, List.mem_map]
  rintro (⟨n, -, heq⟩ | ⟨n, -, heq⟩) <;> cases heq

/-- The value found is that of the prefix the bits begin with. -/
theorem find_eq_some_iff {t : Trie α} {bits : List Bool} {a : α} :
    t.find bits = some a ↔ ∃ p, (p, a) ∈ t.networks ∧ p <+: bits := by
  induction t generalizing bits with
  | empty => simp [find, networks]
  | leaf b =>
    rw [find, networks, Option.some.injEq]
    constructor
    · rintro rfl
      exact ⟨[], List.mem_singleton_self _, List.nil_prefix⟩
    · rintro ⟨p, hp, -⟩
      cases List.mem_singleton.mp hp
      rfl
  | node zero one ihzero ihone =>
    cases bits with
    | nil =>
      refine iff_of_false (fun h => Option.some_ne_none a h.symm) ?_
      rintro ⟨p, hp, hprefix⟩
      rw [List.prefix_nil.mp hprefix] at hp
      exact nil_not_mem_networks hp
    | cons bit bits =>
      have hchild : (node zero one).find (bit :: bits) =
          (bif bit then one else zero).find bits := by cases bit <;> rfl
      have hih : (bif bit then one else zero).find bits = some a ↔
          ∃ p, (p, a) ∈ (bif bit then one else zero).networks ∧ p <+: bits := by
        cases bit with
        | false => exact ihzero
        | true => exact ihone
      rw [hchild, hih]
      constructor
      · rintro ⟨p, hp, hprefix⟩
        exact ⟨bit :: p, cons_mem_networks.mpr hp, List.cons_prefix_cons.mpr ⟨rfl, hprefix⟩⟩
      · rintro ⟨p, hp, hprefix⟩
        cases p with
        | nil => exact absurd hp nil_not_mem_networks
        | cons b p =>
          obtain ⟨rfl, hrest⟩ := List.cons_prefix_cons.mp hprefix
          exact ⟨p, cons_mem_networks.mp hp, hrest⟩

end Trie

/-- The low `k` bits of a number, the highest first. -/
def bitsOf : Nat → Nat → List Bool
  | 0, _ => []
  | k + 1, n => n.testBit k :: bitsOf k n

theorem bitsOf_zero (k : Nat) : bitsOf k 0 = List.replicate k false := by
  induction k with
  | zero => rfl
  | succ k ih => rw [bitsOf, ih, Nat.zero_testBit, List.replicate_succ]

/-- Going down a table of nodes by the low `k` bits of a number; a record that is no node ends the
way. -/
def descend (record : Nat → Bool → Option Nat) (count bits : Nat) : Nat → Nat → Option Nat
  | 0, node => some node
  | k + 1, node =>
    if count ≤ node then some node
    else (record node (bits.testBit k)).bind (descend record count bits k)

variable {record : Nat → Bool → Option Nat} {count : Nat} {holds : Nat → α → Prop}

/-- A record leads to a trie: one below `count` is a node, `count` stands for nothing, and one
above it for a value. -/
inductive Represents (record : Nat → Bool → Option Nat) (count : Nat) (holds : Nat → α → Prop) :
    Nat → Trie α → Prop
  | empty : Represents record count holds count .empty
  | leaf (off : Nat) {a : α} : 0 < off → holds off a →
      Represents record count holds (count + off) (.leaf a)
  | node {n : Nat} (side : Bool → Nat) {zero one : Trie α} : n < count →
      (∀ bit, record n bit = some (side bit)) → Represents record count holds (side false) zero →
      Represents record count holds (side true) one →
      Represents record count holds n (.node zero one)

theorem represents_congr {record' : Nat → Bool → Option Nat} {n : Nat} {t : Trie α}
    (hrecord : ∀ n < count, ∀ bit, record n bit = record' n bit)
    (h : Represents record count holds n t) : Represents record' count holds n t := by
  induction h with
  | empty => exact .empty
  | leaf off hoff ha => exact .leaf off hoff ha
  | node side hn hside hzero hone ihzero ihone =>
    exact .node side hn (fun bit => (hrecord _ hn bit).symm.trans (hside bit)) ihzero ihone

theorem descend_represents (bits k : Nat) {n : Nat} {t : Trie α}
    (h : Represents record count holds n t) :
    ∃ m rest, descend record count bits k n = some m ∧ Represents record count holds m rest ∧
      ∀ more, t.find (bitsOf k bits ++ more) = rest.find more := by
  induction k generalizing n t with
  | zero => exact ⟨n, t, rfl, h, fun _ => rfl⟩
  | succ k ih =>
    cases h with
    | empty => exact ⟨count, .empty, if_pos (le_refl _), .empty, fun _ => rfl⟩
    | leaf off hoff ha =>
      exact ⟨_, _, if_pos (Nat.le_add_right _ _), .leaf off hoff ha, fun _ => rfl⟩
    | @node _ side zero one hn hside hzero hone =>
      have hchild : Represents record count holds (side (bits.testBit k))
          (bif bits.testBit k then one else zero) := by
        cases bits.testBit k with
        | false => exact hzero
        | true => exact hone
      obtain ⟨m, rest, hm, hrest, hfind⟩ := ih hchild
      refine ⟨m, rest, ?_, hrest, fun more => ?_⟩
      · rw [descend, if_neg (Nat.not_le.mpr hn), hside, Option.bind_some, hm]
      · rw [← hfind more, bitsOf, List.cons_append]
        cases bits.testBit k <;> rfl

/-- Where the way ends, the trie says what is found. -/
theorem find_of_represents {n : Nat} {t : Trie α} (h : Represents record count holds n t) :
    (n ≤ count ∧ t.find [] = none) ∨
      ∃ off a, 0 < off ∧ n = count + off ∧ holds off a ∧ t.find [] = some a := by
  cases h with
  | empty => exact Or.inl ⟨le_refl _, rfl⟩
  | leaf off hoff ha => exact Or.inr ⟨off, _, hoff, rfl, ha, rfl⟩
  | node side hn => exact Or.inl ⟨hn.le, rfl⟩

end Ed2kServer.Lib.BitTrie
