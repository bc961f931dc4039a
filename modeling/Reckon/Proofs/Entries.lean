/-!
Entries that are found by their keys.

Files by their names and formulas by their slots are kept alike: an entry is taken out, or put in front
of those that are left when its key is taken out. Either way all other keys are found as before.
-/

namespace Reckon.Entries

variable {α β : Type} [DecidableEq α]

/-- Where entries are kept for their keys, the keys that are kept are found as before. -/
theorem lookup_filter (keep : α → Bool) (l : List (α × β)) (key : α) :
    (l.filter fun entry => keep entry.1).lookup key = if keep key then l.lookup key else none := by
  induction l with
  | nil => simp
  | cons entry l ih =>
    obtain ⟨k, b⟩ := entry
    by_cases hkey : key = k
    · subst hkey
      cases hkeep : keep key with
      | true => simp [hkeep]
      | false => simpa [hkeep] using ih
    · have hne : (key == k) = false := beq_eq_false_iff_ne.2 hkey
      cases hkeep : keep k with
      | true => simpa [hkeep, List.lookup_cons, hne] using ih
      | false => simpa [hkeep, List.lookup_cons, hne] using ih

theorem lookup_without (l : List (α × β)) (key other : α) :
    (l.filter fun entry => entry.1 != key).lookup other =
      if other = key then none else l.lookup other := by
  rw [lookup_filter (· != key)]
  by_cases h : other = key
  · rw [if_pos h, if_neg (by simp [h])]
  · rw [if_neg h, if_pos (bne_iff_ne.2 h)]

theorem lookup_renewed (l : List (α × β)) (key other : α) (b : β) :
    ((key, b) :: l.filter fun entry => entry.1 != key).lookup other =
      if other = key then some b else l.lookup other := by
  rw [List.lookup_cons, lookup_without]
  by_cases h : other = key
  · simp [h]
  · rw [if_neg h, if_neg h, beq_eq_false_iff_ne.2 h]

end Reckon.Entries
