import Mathlib.Data.List.Induction
import Reckon.Proofs.Formula.Text

/-!
Several assignments at once, and one after another.

Merged assignments name each variable once, so none of them undoes another and their order does not
matter. Whether an assignment is refused depends on the names of the table, not on its values; a value
that cannot be written is the only thing that comes to light no sooner than the whole table is written,
and it makes the table unwritable by itself. So a list of assignments is refused as a whole exactly
where one of them is, and otherwise comes to the same table in whatever order it is carried out.

    x = 1, y = 2, x = 3     merged     x = 3, y = 2
                            at once    ──▶  x = 3, y = 2
                            y, x       ──▶  x = 3, y = 2
                            z          ──▶  refused
-/

namespace Reckon

/-! ### Merging -/

namespace Assignments

variable {α : Type}

theorem merge_concat (l : List (String × α)) (a : String × α) :
    merge (l ++ [a]) = insert (merge l) a := by
  rw [merge, merge, List.foldl_append]
  rfl

theorem fst_insert (l : List (String × α)) (a : String × α) :
    (insert l a).map Prod.fst =
      if a.1 ∈ l.map Prod.fst then l.map Prod.fst else l.map Prod.fst ++ [a.1] := by
  have hany : (l.any fun entry => entry.1 = a.1) ↔ a.1 ∈ l.map Prod.fst := by
    rw [List.any_eq_true, List.mem_map]
    exact exists_congr fun entry => and_congr_right fun _ => decide_eq_true_iff
  rw [insert]
  by_cases h : a.1 ∈ l.map Prod.fst
  · rw [if_pos (hany.2 h), if_pos h, List.map_map]
    refine List.map_congr_left fun entry _ => ?_
    rw [Function.comp]
    dsimp only
    split
    · next heq => exact heq.symm
    · rfl
  · rw [if_neg (mt hany.1 h), if_neg h, List.map_append, List.map_singleton]

/-- Each name is assigned once, where it stands first. -/
theorem fst_merge (l : List (String × α)) :
    (merge l).map Prod.fst = (l.map Prod.fst).eraseDups := by
  induction l using List.reverseRecOn with
  | nil => rfl
  | append_singleton l a ih =>
    rw [merge_concat, fst_insert, ih, List.map_append, List.eraseDups_append, List.map_singleton]
    by_cases h : a.1 ∈ l.map Prod.fst
    · rw [if_pos (List.mem_eraseDups.2 h)]
      simp [List.removeAll, h]
    · have hone : [a.1].eraseDups = [a.1] := rfl
      rw [if_neg (mt List.mem_eraseDups.1 h)]
      simp [List.removeAll, h, hone]

theorem nodup_merge (l : List (String × α)) : ((merge l).map Prod.fst).Nodup := by
  rw [fst_merge]
  exact nodup_eraseDups _

theorem lookup_replace (l : List (String × α)) (a : String × α) (name : String) :
    (l.map fun (key, old) => if key = a.1 then a else (key, old)).lookup name =
      if name = a.1 then (l.lookup name).map fun _ => a.2 else l.lookup name := by
  induction l with
  | nil => simp
  | cons entry l ih =>
    obtain ⟨key, old⟩ := entry
    obtain ⟨target, new⟩ := a
    dsimp only at ih ⊢
    rw [List.map_cons]
    by_cases hkey : key = target
    · subst hkey
      rw [if_pos rfl, List.lookup_cons, List.lookup_cons, ih]
      by_cases hname : name = key
      · simp [hname]
      · simp [hname, beq_eq_false_iff_ne.2 hname]
    · rw [if_neg hkey, List.lookup_cons, List.lookup_cons, ih]
      by_cases hname : name = key
      · simp [hname, hkey]
      · simp [beq_eq_false_iff_ne.2 hname]

/-- The latest assignment to a name counts. -/
theorem lookup_insert (l : List (String × α)) (a : String × α) (name : String) :
    (insert l a).lookup name = if name = a.1 then some a.2 else l.lookup name := by
  rw [insert]
  by_cases h : l.any fun (name, _) => name = a.1
  · rw [if_pos h, lookup_replace]
    by_cases hname : name = a.1
    · obtain ⟨entry, hentry, heq⟩ := List.any_eq_true.1 h
      have hsome : (l.lookup name).isSome := by
        rw [Option.isSome_iff_ne_none, Ne, List.lookup_eq_none_iff]
        intro hnone
        exact bne_iff_ne.1 (hnone entry hentry) (hname.trans (of_decide_eq_true heq).symm)
      obtain ⟨value, hvalue⟩ := Option.isSome_iff_exists.1 hsome
      rw [if_pos hname, if_pos hname, hvalue]
      rfl
    · rw [if_neg hname, if_neg hname]
  · rw [if_neg h, List.lookup_append]
    by_cases hname : name = a.1
    · have hnone : l.lookup name = none := by
        rw [List.lookup_eq_none_iff]
        intro entry hentry
        refine bne_iff_ne.2 fun heq => h (List.any_eq_true.2 ⟨entry, hentry, ?_⟩)
        exact decide_eq_true (heq.symm.trans hname)
      rw [hnone, if_pos hname, List.lookup_cons, hname, beq_self_eq_true]
      rfl
    · rw [if_neg hname, List.lookup_cons, beq_eq_false_iff_ne.2 hname]
      simp

/-- The last value of each name counts. -/
theorem lookup_merge (l : List (String × α)) (name : String) :
    (merge l).lookup name = l.reverse.lookup name := by
  induction l using List.reverseRecOn with
  | nil => rfl
  | append_singleton l a ih =>
    rw [merge_concat, lookup_insert, ih, List.reverse_append, List.reverse_singleton,
      List.singleton_append, List.lookup_cons]
    by_cases h : name = a.1
    · rw [if_pos h, h, beq_self_eq_true]
    · rw [if_neg h, beq_eq_false_iff_ne.2 h]

end Assignments

/-! ### Setting values -/

/-- The value that a variable takes from an offer that is not refused. -/
def Offer.accepted (offer : Offer) : Option Number :=
  match offer.accept with
  | .ok value => value
  | .error _ => none

namespace Table

variable {t : Table} {name other : String} {value : Option Number}
  {entry : String × Offer} {entries : List (String × Offer)}

/-- The table with what is offered for a name taken over. -/
def settle (t : Table) (entry : String × Offer) : Table := t.set entry.1 entry.2.accepted

@[simp] theorem names_settle (t : Table) (entry : String × Offer) :
    (t.settle entry).names = t.names :=
  names_set ..

theorem value?_set : (t.set name value).value? other =
    if other = name ∧ name ∈ t.names then value else t.value? other := by
  induction t with
  | nil => simp [set, value?, names]
  | cons first t ih =>
    obtain ⟨key, old⟩ := first
    rw [set, value?] at ih
    rw [set, value?, value?, List.map_cons]
    dsimp only
    by_cases hkey : key = name
    · subst hkey
      rw [if_pos rfl, List.lookup_cons, List.lookup_cons]
      by_cases hother : other = key
      · simp [hother, names]
      · simp only [beq_eq_false_iff_ne.2 hother, ih, value?, hother, false_and, if_false]
    · rw [if_neg hkey, List.lookup_cons, List.lookup_cons]
      by_cases hother : other = key
      · simp [hother, hkey]
      · have hmem : name ∈ names ((key, old) :: t) ↔ name ∈ names t := by
          simp [names, Ne.symm hkey]
        simp only [beq_eq_false_iff_ne.2 hother, ih, value?, hmem]

theorem set_comm {value' : Option Number} (h : name ≠ other) :
    (t.set name value).set other value' = (t.set other value').set name value := by
  rw [set, set, set, set, List.map_map, List.map_map]
  refine List.map_congr_left fun entry _ => ?_
  obtain ⟨key, old⟩ := entry
  simp only [Function.comp]
  by_cases hname : key = name
  · simp [hname, h]
  · by_cases hother : key = other <;> simp [hname, hother, Ne.symm h]

theorem foldl_settle_perm {entries' : List (String × Offer)} (h : entries'.Perm entries)
    (hnodup : (entries.map Prod.fst).Nodup) :
    entries'.foldl settle t = entries.foldl settle t := by
  refine h.foldl_eq' (fun a ha b hb t' => ?_) t
  by_cases heq : a = b
  · rw [heq]
  · have hne : a.1 ≠ b.1 := fun hname =>
      heq (List.inj_on_of_nodup_map hnodup (h.mem_iff.1 ha) (h.mem_iff.1 hb) hname)
    exact set_comm hne

theorem value?_foldl_of_not_mem (h : name ∉ entries.map Prod.fst) :
    (entries.foldl settle t).value? name = t.value? name := by
  induction entries generalizing t with
  | nil => rfl
  | cons entry entries ih =>
    rw [List.map_cons, List.mem_cons, not_or] at h
    rw [List.foldl_cons, ih h.2, settle, value?_set, if_neg fun hname => h.1 hname.1]

/-- A name among the entries has the value that is offered for it. -/
theorem value?_foldl (hnodup : (entries.map Prod.fst).Nodup)
    (hnames : ∀ entry ∈ entries, entry.1 ∈ t.names) (h : entry ∈ entries) :
    (entries.foldl settle t).value? entry.1 = entry.2.accepted := by
  induction entries generalizing t with
  | nil => cases h
  | cons first entries ih =>
    obtain ⟨hnot, hnodup⟩ := List.nodup_cons.1 hnodup
    obtain ⟨hfirst, hnames⟩ := List.forall_mem_cons.1 hnames
    rw [List.foldl_cons]
    rcases List.mem_cons.1 h with rfl | h
    · rw [value?_foldl_of_not_mem hnot, settle, value?_set, if_pos ⟨rfl, hfirst⟩]
    · exact ih hnodup (fun entry hentry => by rw [names_settle]; exact hnames entry hentry) h

theorem isWritable_settle (ht : t.isWritable) (h : entry.2.accepted.all Number.isWritable) :
    (t.settle entry).isWritable := by
  rw [isWritable, List.all_eq_true] at ht ⊢
  intro changed hchanged
  obtain ⟨⟨key, old⟩, hmem, rfl⟩ := List.mem_map.1 hchanged
  dsimp only
  split
  · exact h
  · exact ht _ hmem

/-- The table that entries are settled in can be written exactly where each entry can. -/
theorem isWritable_foldl (ht : t.isWritable) (hnodup : (entries.map Prod.fst).Nodup)
    (hnames : ∀ entry ∈ entries, entry.1 ∈ t.names) :
    (entries.foldl settle t).isWritable ↔
      ∀ entry ∈ entries, entry.2.accepted.all Number.isWritable := by
  constructor
  · intro h entry hentry
    have hvalue := value?_foldl hnodup hnames hentry
    cases haccepted : entry.2.accepted with
    | none => rfl
    | some n =>
      rw [haccepted] at hvalue
      exact isWritable_of_mem h (mem_of_value? hvalue)
  · intro h
    clear hnodup hnames
    induction entries generalizing t with
    | nil => exact ht
    | cons entry entries ih =>
      obtain ⟨hentry, h⟩ := List.forall_mem_cons.1 h
      exact ih (isWritable_settle ht hentry) h

end Table

/-! ### Refusals -/

namespace Formula

variable {f f' : Formula} {t : Table} {entry : String × Offer} {entries : List (String × Offer)}

/-- Why an assignment to a variable of some names is refused before its value is put into a table. -/
def fault? (names : List String) (entry : String × Offer) : Option Error :=
  if names.contains entry.1 then
    match entry.2.accept with
    | .ok _ => none
    | .error e => some (.offer e)
  else some (.unknownVariable entry.1)

/-- Why an assignment is refused: for its name, for its value, or because its value cannot be
written. -/
def refusal? (names : List String) (entry : String × Offer) : Option Error :=
  (fault? names entry).or
    (if entry.2.accepted.all Number.isWritable then none else some .unwritable)

theorem assignEntry_eq (t : Table) (entry : String × Offer) :
    assignEntry t entry =
      match fault? t.names entry with
      | none => .ok (t.settle entry)
      | some e => .error e := by
  rw [assignEntry, fault?, Table.settle, Offer.accepted]
  split
  · cases entry.2.accept <;> rfl
  · rfl

/-- A list of assignments is refused for the first of them that is at fault. -/
theorem foldlM_assignEntry (t : Table) (entries : List (String × Offer)) :
    entries.foldlM assignEntry t =
      match entries.findSome? (fault? t.names) with
      | none => .ok (entries.foldl Table.settle t)
      | some e => .error e := by
  induction entries generalizing t with
  | nil => rfl
  | cons entry entries ih =>
    rw [List.foldlM_cons, assignEntry_eq, List.findSome?_cons]
    cases fault? t.names entry with
    | some e => rfl
    | none =>
      show entries.foldlM assignEntry (t.settle entry) = _
      rw [ih, Table.names_settle]
      rfl

theorem refusal?_eq_none {names : List String} : refusal? names entry = none ↔
    fault? names entry = none ∧ entry.2.accepted.all Number.isWritable := by
  rw [refusal?, Option.or_eq_none_iff]
  refine and_congr_right fun _ => ?_
  split
  · next h => exact iff_of_true rfl h
  · next h => exact iff_of_false nofun h

theorem mem_names_of_fault? {names : List String} (h : fault? names entry = none) :
    entry.1 ∈ names := by
  rw [fault?] at h
  split at h
  · next hmem => exact List.contains_iff_mem.1 hmem
  · cases h

/-! ### At once, alone, and one after another -/

/-- A coherent formula takes another table exactly where the table can be written. -/
theorem Coherent.withTable_eq (hf : f.Coherent) : f.withTable t =
    if t.isWritable then .ok ⟨f.source, f.program, f.parsed, t,
      Digest.fingerprint (fingerprintSource f.program t)⟩ else .error .unwritable := by
  rw [Formula.withTable, make, fingerprintOf, hf.program, Bool.true_and]
  split <;> rfl

/-- Assignments are carried out at once exactly where none of them is refused. -/
theorem Coherent.bind_eq_ok {assignments : List (String × Offer)} (hf : f.Coherent) :
    f.bind assignments = .ok f' ↔
      (∀ entry ∈ Assignments.merge assignments, refusal? f.table.names entry = none) ∧
        f.withTable ((Assignments.merge assignments).foldl Table.settle f.table) = .ok f' := by
  have hnodup := Assignments.nodup_merge assignments
  rw [bind_eq, assignAll, foldlM_assignEntry]
  cases hfault : (Assignments.merge assignments).findSome? (fault? f.table.names) with
  | some e =>
    obtain ⟨entry, hentry, he⟩ := List.exists_of_findSome?_eq_some hfault
    refine iff_of_false (fun h => by cases h) fun h => ?_
    have hnone := (refusal?_eq_none.1 (h.1 entry hentry)).1
    rw [he] at hnone
    cases hnone
  | none =>
    rw [List.findSome?_eq_none_iff] at hfault
    have hnames := fun entry hentry => mem_names_of_fault? (hfault entry hentry)
    show f.withTable _ = .ok f' ↔ _
    refine (and_iff_right_of_imp fun h entry hentry => ?_).symm
    rw [hf.withTable_eq] at h
    split at h
    · next hwritable =>
      have hall := (Table.isWritable_foldl hf.table hnodup hnames).1 hwritable
      exact refusal?_eq_none.2 ⟨hfault entry hentry, hall entry hentry⟩
    · cases h

/-- What is told of assignments that are not carried out is told of one of them. -/
theorem Coherent.bind_eq_error {assignments : List (String × Offer)} {e : Error} (hf : f.Coherent)
    (h : f.bind assignments = .error e) :
    ∃ entry ∈ Assignments.merge assignments, refusal? f.table.names entry = some e := by
  have hnodup := Assignments.nodup_merge assignments
  rw [bind_eq, assignAll, foldlM_assignEntry] at h
  cases hfault : (Assignments.merge assignments).findSome? (fault? f.table.names) with
  | some e' =>
    rw [hfault] at h
    obtain rfl : e' = e := Except.error.inj h
    obtain ⟨entry, hentry, he⟩ := List.exists_of_findSome?_eq_some hfault
    exact ⟨entry, hentry, by rw [refusal?, he]; rfl⟩
  | none =>
    rw [hfault] at h
    change f.withTable _ = .error e at h
    rw [List.findSome?_eq_none_iff] at hfault
    have hnames := fun entry hentry => mem_names_of_fault? (hfault entry hentry)
    rw [hf.withTable_eq] at h
    split at h
    · cases h
    · next hwritable =>
      obtain rfl := Except.error.inj h
      rw [Table.isWritable_foldl hf.table hnodup hnames] at hwritable
      push Not at hwritable
      obtain ⟨entry, hentry, hvalue⟩ := hwritable
      exact ⟨entry, hentry, by rw [refusal?, hfault entry hentry, if_neg hvalue]; rfl⟩

/-- An assignment alone is refused for its own reason. -/
theorem Coherent.assign_eq_error {name : String} {offer : Offer} {e : Error} (hf : f.Coherent) :
    f.assign name offer = .error e ↔ refusal? f.table.names (name, offer) = some e := by
  have hmerge : Assignments.merge [(name, offer)] = [(name, offer)] := rfl
  have herror : ∀ e, f.assign name offer = .error e →
      refusal? f.table.names (name, offer) = some e := by
    intro e h
    obtain ⟨entry, hentry, he⟩ := hf.bind_eq_error h
    rw [hmerge, List.mem_singleton] at hentry
    exact hentry ▸ he
  refine ⟨herror e, fun h => ?_⟩
  cases hassign : f.assign name offer with
  | error e' => exact congrArg _ (Option.some.inj ((herror e' hassign).symm.trans h))
  | ok f' =>
    have hnone := (hf.bind_eq_ok.1 hassign).1 (name, offer) (List.mem_singleton_self _)
    rw [hnone] at h
    cases h

/-- Assignments that are not refused come to the table they are settled in, one after another. -/
theorem Coherent.foldlM_assign (hf : f.Coherent)
    (h : ∀ entry ∈ entries, refusal? f.table.names entry = none) :
    entries.foldlM (fun f entry => f.assign entry.1 entry.2) f =
      f.withTable (entries.foldl Table.settle f.table) := by
  induction entries generalizing f with
  | nil => exact hf.withTable.symm
  | cons entry entries ih =>
    obtain ⟨hentry, hrest⟩ := List.forall_mem_cons.1 h
    cases hassign : f.assign entry.1 entry.2 with
    | error e =>
      have hsome := hf.assign_eq_error.1 hassign
      rw [hentry] at hsome
      cases hsome
    | ok f₁ =>
      have hmade : f.withTable (f.table.settle entry) = .ok f₁ := (hf.bind_eq_ok.1 hassign).2
      obtain ⟨_, _, hf₁⟩ := make_eq_ok.1 hmade
      have htable : f₁.table = f.table.settle entry := by rw [hf₁]
      have hwith : ∀ t, f₁.withTable t = f.withTable t := by
        intro t
        rw [hf₁]
        rfl
      rw [List.foldlM_cons, hassign]
      show entries.foldlM _ f₁ = _
      rw [ih (hf.bind hassign) ?_, htable, hwith, List.foldl_cons]
      intro other hother
      rw [htable, Table.names_settle]
      exact hrest other hother

/-- Assignments that are carried out at once can be carried out one after another, in any order, and
come to the same formula. -/
theorem Coherent.foldlM_assign_perm {assignments order : List (String × Offer)} (hf : f.Coherent)
    (hperm : order.Perm (Assignments.merge assignments)) (h : f.bind assignments = .ok f') :
    order.foldlM (fun f entry => f.assign entry.1 entry.2) f = .ok f' := by
  obtain ⟨hnone, hmade⟩ := hf.bind_eq_ok.1 h
  rw [hf.foldlM_assign fun entry hentry => hnone entry (hperm.mem_iff.1 hentry),
    Table.foldl_settle_perm hperm (Assignments.nodup_merge assignments), hmade]

end Formula

end Reckon
