/-!
Groups: text between an opening and a closing delimiter, with groups of the same kind inside.

The scan counts the groups that are open inside the outermost one. Each opening delimiter is held
against the nesting limit when it is met, so a group that nests too deep is refused at the first
opening that does, even where its end is missing.

    {  a  {  b  }  c  }  rest        found "a{b}c", rest
    0     1     0     end
-/

namespace Reckon

/-- The outcome of looking for something at the front of a text. -/
inductive Search (α : Type) where
  /-- It is not there. -/
  | absent
  /-- Groups nest too deep; `site` is the text from the opening delimiter that is one too many. -/
  | tooDeep (site : List Char)
  | found (a : α)
  deriving Repr

/-- The outcome with what was found mapped to something else. -/
def Search.map {α β : Type} (f : α → β) : Search α → Search β
  | .absent => .absent
  | .tooDeep site => .tooDeep site
  | .found a => .found (f a)

@[simp] theorem Search.map_eq_found {α β : Type} {f : α → β} {s : Search α} {b : β} :
    s.map f = .found b ↔ ∃ a, s = .found a ∧ f a = b := by
  cases s <;> simp [Search.map]

@[simp] theorem Search.map_eq_tooDeep {α β : Type} {f : α → β} {s : Search α} {site : List Char} :
    s.map f = .tooDeep site ↔ s = .tooDeep site := by
  cases s <;> simp [Search.map]

namespace Group

/-- Reads on inside a group with `inner` groups open in it: the content up to the delimiter that
closes the outermost group, and the rest. -/
def close (opening closing : Char) (limit : Int) : Nat → List Char → Search (List Char × List Char)
  | _, [] => .absent
  | inner, c :: cs =>
    if c = opening then
      if limit < inner + 2 then .tooDeep (c :: cs)
      else (close opening closing limit (inner + 1) cs).map fun (content, rest) =>
        (c :: content, rest)
    else if c = closing then
      match inner with
      | 0 => .found ([], cs)
      | inner + 1 => (close opening closing limit inner cs).map fun (content, rest) =>
        (c :: content, rest)
    else (close opening closing limit inner cs).map fun (content, rest) => (c :: content, rest)

/-- The content of the group at the front of a text, and the rest. -/
def scan (opening closing : Char) (limit : Int) : List Char → Search (List Char × List Char)
  | [] => .absent
  | c :: cs =>
    if c = opening then
      if limit < 1 then .tooDeep (c :: cs) else close opening closing limit 0 cs
    else .absent

/-! ### A group is the text between its delimiters -/

theorem close_eq_found {opening closing : Char} {limit : Int} {inner : Nat}
    {cs content rest : List Char} (h : close opening closing limit inner cs = .found (content, rest)) :
    cs = content ++ closing :: rest := by
  induction cs generalizing inner content with
  | nil => simp [close] at h
  | cons c cs ih =>
    simp only [close] at h
    split at h
    · split at h
      · simp at h
      · obtain ⟨⟨content', rest'⟩, hfound, heq⟩ := Search.map_eq_found.1 h
        simp only [Prod.mk.injEq] at heq
        obtain ⟨rfl, rfl⟩ := heq
        rw [ih hfound, List.cons_append]
    · split at h
      · next hclose =>
        cases inner with
        | zero =>
          simp only [Search.found.injEq, Prod.mk.injEq] at h
          obtain ⟨rfl, rfl⟩ := h
          rw [hclose, List.nil_append]
        | succ inner =>
          obtain ⟨⟨content', rest'⟩, hfound, heq⟩ := Search.map_eq_found.1 h
          simp only [Prod.mk.injEq] at heq
          obtain ⟨rfl, rfl⟩ := heq
          rw [ih hfound, List.cons_append]
      · obtain ⟨⟨content', rest'⟩, hfound, heq⟩ := Search.map_eq_found.1 h
        simp only [Prod.mk.injEq] at heq
        obtain ⟨rfl, rfl⟩ := heq
        rw [ih hfound, List.cons_append]

theorem scan_eq_found {opening closing : Char} {limit : Int} {cs content rest : List Char}
    (h : scan opening closing limit cs = .found (content, rest)) :
    cs = opening :: content ++ closing :: rest := by
  cases cs with
  | nil => simp [scan] at h
  | cons c cs =>
    simp only [scan] at h
    split at h
    · next hopen =>
      split at h
      · simp at h
      · rw [hopen, close_eq_found h, List.cons_append]
    · simp at h

end Group

end Reckon
