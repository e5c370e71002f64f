/-!
Small dictionaries, kept as lists of pairs with at most one pair for a key. A new key goes to the
end and a known key keeps its place.
-/

set_option autoImplicit false

namespace ToyUnix

abbrev Assoc (α β : Type) := List (α × β)

namespace Assoc

variable {α β : Type} [DecidableEq α]

def get? (d : Assoc α β) (key : α) : Option β :=
  match d with
  | [] => none
  | (k, v) :: rest => if k = key then some v else get? rest key

def set (d : Assoc α β) (key : α) (value : β) : Assoc α β :=
  match d with
  | [] => [(key, value)]
  | (k, v) :: rest => if k = key then (k, value) :: rest else (k, v) :: set rest key value

def erase (d : Assoc α β) (key : α) : Assoc α β := d.filter fun entry => entry.1 ≠ key

def has (d : Assoc α β) (key : α) : Bool := (d.get? key).isSome

def keys (d : Assoc α β) : List α := d.map (·.1)

theorem get?_set (d : Assoc α β) (key other : α) (value : β) :
    (d.set key value).get? other = if key = other then some value else d.get? other := by
  induction d with
  | nil => simp [set, get?]
  | cons entry rest ih =>
    obtain ⟨k, v⟩ := entry
    by_cases hk : k = key
    · subst hk
      by_cases ho : k = other <;> simp [set, get?, ho]
    · by_cases ho : k = other
      · subst ho
        simp [set, get?, hk, Ne.symm hk]
      · simp [set, get?, hk, ho, ih]

theorem get?_erase (d : Assoc α β) (key other : α) :
    (d.erase key).get? other = if key = other then none else d.get? other := by
  induction d with
  | nil => simp [erase, get?]
  | cons entry rest ih =>
    obtain ⟨k, v⟩ := entry
    unfold erase at ih ⊢
    by_cases hk : k = key
    · subst hk
      by_cases ho : k = other <;> simp_all [get?]
    · by_cases ho : k = other
      · subst ho
        simp [get?, hk, Ne.symm hk]
      · simpa [get?, hk, ho] using ih

end Assoc

def sortTexts (texts : List String) : List String := texts.mergeSort fun a b => decide (a ≤ b)

end ToyUnix
