/-!
# Entries — entries under keys, in the order the keys came

A list of pairs with one entry for each key.  What makes two keys one is given (`same`), since keys can be one without
being identical.  Writing under a known key keeps its place and the key as it was first written; a new key goes to the
end.  `get?_put_self`, `get?_put_of_ne` and `keys_put` say what a write does to the entries and to the order.
-/
namespace Retention

/-- Entries under keys, in the order in which the keys were first written. -/
abbrev Entries (κ α : Type) := List (κ × α)

namespace Entries
variable {κ α : Type} (same : κ → κ → Bool)

/-- The entry under a key. -/
def get? (xs : Entries κ α) (k : κ) : Option α := (xs.find? fun x => same k x.1).map (·.2)

/-- Writes an entry: in place under a known key, at the end under a new one. -/
def put (k : κ) (a : α) : Entries κ α → Entries κ α
  | [] => [(k, a)]
  | x :: xs => if same k x.1 then (x.1, a) :: xs else x :: put k a xs

/-- Removes the entry under a key. -/
def erase (k : κ) (xs : Entries κ α) : Entries κ α := xs.filter fun x => !same k x.1

/-- The keys, in order. -/
def keys (xs : Entries κ α) : List κ := xs.map (·.1)

variable {same}

theorem get?_put_self (xs : Entries κ α) {k : κ} (a : α) (h : same k k = true) : get? same (put same k a xs) k = some a := by
  induction xs with
  | nil => simp [put, get?, h]
  | cons x xs ih =>
    unfold put
    split
    · next hx => simp [get?, hx]
    · next hx =>
      simp only [get?, List.find?_cons, hx] at ih ⊢
      exact ih

/-- A write leaves the entries under other keys alone, where no key is one with both. -/
theorem get?_put_of_ne (xs : Entries κ α) {k j : κ} (a : α) (h : ∀ i, same k i = true → same j i = false)
    (hk : same k k = true) : get? same (put same k a xs) j = get? same xs j := by
  induction xs with
  | nil => simp [put, get?, h k hk]
  | cons x xs ih =>
    unfold put
    split
    · next hx => simp [get?, h x.1 hx]
    · simp only [get?, List.find?_cons] at ih ⊢
      split
      · rfl
      · exact ih

theorem keys_cons (x : κ × α) (xs : Entries κ α) : keys (x :: xs) = x.1 :: keys xs := rfl

/-- **A write keeps the order of the keys: a known key stays as and where it is, a new one comes last.** -/
theorem keys_put (xs : Entries κ α) (k : κ) (a : α) :
    keys (put same k a xs) = if (keys xs).any (same k) then keys xs else keys xs ++ [k] := by
  induction xs with
  | nil => rfl
  | cons x xs ih =>
    unfold put
    split
    · next h => simp [keys_cons, h]
    · next h =>
      rw [keys_cons, keys_cons, ih, List.any_cons, Bool.eq_false_iff.2 h, Bool.false_or]
      by_cases hk : (keys xs).any (same k) = true
      · rw [if_pos hk, if_pos hk]
      · rw [if_neg hk, if_neg hk]; rfl

theorem get?_erase_self (xs : Entries κ α) (k : κ) : get? same (erase same k xs) k = none := by
  simp [get?, erase, List.find?_eq_none]

end Entries
end Retention
