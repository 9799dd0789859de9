import Mathlib.Logic.Basic

namespace Ed2kServer.Lib.SlotReads

variable {Slot α : Type} {Value : Slot → Type}

/-- A computation that looks at shared slots one at a time. -/
inductive Reading (Value : Slot → Type) (α : Type)
  | done (a : α)
  | load (slot : Slot) (next : Value slot → Reading Value α)

/-- The answer when no slot changes meanwhile. -/
def Reading.runAt (values : (slot : Slot) → Value slot) : Reading Value α → α
  | .done a => a
  | .load slot next => (next (values slot)).runAt values

@[simp] theorem Reading.runAt_done (values : (slot : Slot) → Value slot) (a : α) :
    (Reading.done a : Reading Value α).runAt values = a := rfl

@[simp] theorem Reading.runAt_load (values : (slot : Slot) → Value slot) (slot : Slot)
    (next : Value slot → Reading Value α) :
    (Reading.load slot next).runAt values = (next (values slot)).runAt values := rfl

/-- What is left of a reading after some loads, each of a value that was `Seen`. -/
inductive Loaded (Seen : (slot : Slot) → Value slot → Prop) :
    Reading Value α → Reading Value α → Prop
  | refl (q : Reading Value α) : Loaded Seen q q
  | load {q : Reading Value α} {slot : Slot} {next : Value slot → Reading Value α}
      {v : Value slot} (h : Loaded Seen q (.load slot next)) (hv : Seen slot v) :
      Loaded Seen q (next v)

variable {Seen Seen' : (slot : Slot) → Value slot → Prop} {q r : Reading Value α} {a : α}

theorem Loaded.mono (h : Loaded Seen q r) (hseen : ∀ slot v, Seen slot v → Seen' slot v) :
    Loaded Seen' q r := by
  induction h with
  | refl => exact .refl q
  | load _ hv ih => exact .load ih (hseen _ _ hv)

theorem Loaded.trans {p : Reading Value α} (hpq : Loaded Seen p q) (hqr : Loaded Seen q r) :
    Loaded Seen p r := by
  induction hqr with
  | refl => exact hpq
  | load _ hv ih => exact .load ih hv

/-- A reading that is not done has a first load. -/
theorem Loaded.head (h : Loaded Seen q r) :
    r = q ∨ ∃ slot next v, q = .load slot next ∧ Seen slot v ∧ Loaded Seen (next v) r := by
  induction h with
  | refl => exact .inl rfl
  | load _ hv ih =>
    right
    obtain rfl | ⟨slot, next, v, rfl, hseen, hrest⟩ := ih
    · exact ⟨_, _, _, rfl, hv, .refl _⟩
    · exact ⟨slot, next, v, rfl, hseen, .load hrest hv⟩

theorem loaded_done_iff : Loaded Seen (.done a) r ↔ r = .done a := by
  refine ⟨fun h => ?_, fun h => h ▸ .refl _⟩
  obtain rfl | ⟨slot, next, v, hload, -⟩ := h.head
  · rfl
  · cases hload

theorem loaded_load_done_iff {slot : Slot} {next : Value slot → Reading Value α} :
    Loaded Seen (.load slot next) (.done a) ↔
      ∃ v, Seen slot v ∧ Loaded Seen (next v) (.done a) := by
  constructor
  · intro h
    obtain hdone | ⟨slot', next', v, hload, hv, hrest⟩ := h.head
    · cases hdone
    · cases hload
      exact ⟨v, hv, hrest⟩
  · rintro ⟨v, hv, hrest⟩
    exact (Loaded.load (.refl _) hv).trans hrest

end Ed2kServer.Lib.SlotReads
