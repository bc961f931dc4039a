import Mathlib.Data.Char
import Reckon.Text.Json

/-!
What is written in JSON is written for one value only.

An escaped character can be taken off the front of a text again, whatever follows it, so two strings
with the same text are the same. A value is told apart from others where its text can be: behind it
stands the end, a comma or a bracket, and no value starts with the bracket that ends an array. Arrays
of such values are such values again.

    "a\u0130" │ , 2]        the string aİ, rest , 2]
    [1, "x"]  │ ]           two values, rest ]
-/

namespace Reckon

/-! ### Hexadecimal digits -/

namespace Text

/-- What a hexadecimal digit in lower case is worth. -/
def hexDigit (c : Char) : Nat := if c.isDigit then c.toNat - 48 else c.toNat - 87

/-- The number that hexadecimal digits denote. -/
def hexValue (ds : List Char) : Nat := ds.foldl (fun n d => 16 * n + hexDigit d) 0

theorem hexDigit_digitChar : ∀ k < 16, hexDigit (Nat.digitChar k) = k := by decide

theorem hexValue_hex (width n : Nat) : hexValue (hex width n) = n % Nat.pow 16 width := by
  induction width generalizing n with
  | zero => simp [hex, hexValue, Nat.mod_one]
  | succ width ih =>
    have hlast := hexDigit_digitChar (n % 16) (Nat.mod_lt n (by decide))
    have hfront : (hex width (n / 16)).foldl (fun n d => 16 * n + hexDigit d) 0 = _ := ih (n / 16)
    have hpow : Nat.pow 16 (width + 1) = 16 * Nat.pow 16 width := Nat.pow_succ'
    rw [hex, hexValue, List.foldl_append, hfront, List.foldl_cons, List.foldl_nil, hlast, hpow,
      Nat.mod_mul]
    omega

theorem hexValue_hex_of_lt {n : Nat} (hn : n < 0x10000) : hexValue (hex 4 n) = n :=
  (hexValue_hex 4 n).trans (Nat.mod_eq_of_lt hn)

end Text

namespace Json

/-! ### Strings -/

/-- The character whose escape stands at the front of a text, and the rest. -/
def unescape : List Char → Char × List Char
  | '\\' :: 'u' :: cs =>
    let unit := Text.hexValue (cs.take 4)
    if 0xD800 ≤ unit ∧ unit < 0xDC00 then
      let low := Text.hexValue ((cs.drop 6).take 4)
      (Char.ofNat (0x10000 + (unit - 0xD800) * 0x400 + (low - 0xDC00)), cs.drop 10)
    else (Char.ofNat unit, cs.drop 4)
  | '\\' :: 'n' :: cs => ('\n', cs)
  | '\\' :: 'r' :: cs => ('\r', cs)
  | '\\' :: 't' :: cs => ('\t', cs)
  | '\\' :: 'f' :: cs => ('\x0c', cs)
  | '\\' :: 'b' :: cs => ('\x08', cs)
  | '\\' :: c :: cs => (c, cs)
  | c :: cs => (c, cs)
  | [] => (' ', [])

theorem take_hex (n : Nat) (rest : List Char) :
    (Text.hex 4 n ++ rest).take 4 = Text.hex 4 n ∧ (Text.hex 4 n ++ rest).drop 4 = rest := by
  have hlength := Text.length_hex 4 n
  exact ⟨List.take_left' hlength, List.drop_left' hlength⟩

theorem not_surrogate (c : Char) : ¬ (0xD800 ≤ c.toNat ∧ c.toNat < 0xE000) := by
  have hvalid : c.toNat < 0xD800 ∨ 0xDFFF < c.toNat ∧ c.toNat < 0x110000 := c.valid
  omega

theorem unescape_unit {n : Nat} (hn : n < 0x10000) (hhigh : ¬ (0xD800 ≤ n ∧ n < 0xDC00))
    (rest : List Char) : unescape (escapeUnit n ++ rest) = (Char.ofNat n, rest) := by
  obtain ⟨htake, hdrop⟩ := take_hex n rest
  rw [escapeUnit, List.cons_append, List.cons_append, unescape, htake, hdrop,
    Text.hexValue_hex_of_lt hn, if_neg hhigh]

theorem unescape_pair {n : Nat} (hn : n < 0x100000) (rest : List Char) :
    unescape (escapeUnit (0xD800 + n / 0x400) ++ escapeUnit (0xDC00 + n % 0x400) ++ rest) =
      (Char.ofNat (0x10000 + n), rest) := by
  have hhigh : 0xD800 ≤ 0xD800 + n / 0x400 ∧ 0xD800 + n / 0x400 < 0xDC00 := by omega
  have hvalue := Text.hexValue_hex_of_lt (show 0xD800 + n / 0x400 < 0x10000 by omega)
  have hvalue' := Text.hexValue_hex_of_lt (show 0xDC00 + n % 0x400 < 0x10000 by omega)
  obtain ⟨htake, hdrop⟩ := take_hex (0xD800 + n / 0x400) (escapeUnit (0xDC00 + n % 0x400) ++ rest)
  obtain ⟨htake', hdrop'⟩ := take_hex (0xDC00 + n % 0x400) rest
  generalize hcs : Text.hex 4 (0xD800 + n / 0x400) ++ (escapeUnit (0xDC00 + n % 0x400) ++ rest) = cs
    at htake hdrop
  have hsix : cs.drop 6 = Text.hex 4 (0xDC00 + n % 0x400) ++ rest := by
    rw [← List.drop_drop (i := 2) (j := 4), hdrop]
    rfl
  have hten : cs.drop 10 = rest := by
    rw [← List.drop_drop (i := 4) (j := 6), hsix, hdrop']
  have hsum : 0x10000 + (0xD800 + n / 0x400 - 0xD800) * 0x400 + (0xDC00 + n % 0x400 - 0xDC00) =
      0x10000 + n := by
    omega
  rw [List.append_assoc, escapeUnit, List.cons_append, List.cons_append, hcs, unescape, htake, hvalue,
    if_pos hhigh, hsix, htake', hvalue', hten]
  dsimp only
  rw [hsum]

/-- A character is read back from its escape, whatever follows. -/
theorem unescape_escapeChar (c : Char) (rest : List Char) :
    unescape (escapeChar c ++ rest) = (c, rest) := by
  rw [escapeChar]
  split
  · next hquote =>
    rw [Bool.or_eq_true, decide_eq_true_iff, decide_eq_true_iff] at hquote
    rcases hquote with rfl | rfl <;> rfl
  split
  · next heq => rw [heq]; rfl
  split
  · next heq => rw [heq]; rfl
  split
  · next heq => rw [heq]; rfl
  split
  · next heq => rw [heq]; rfl
  split
  · next heq => rw [heq]; rfl
  next hquote _ _ _ _ _ =>
  split
  · have hslash : c ≠ '\\' := by
      rintro rfl
      exact hquote rfl
    rw [List.singleton_append, unescape] <;> simp [hslash]
  split
  · next hbasic =>
    rw [unescape_unit hbasic, Char.ofNat_toNat]
    have := not_surrogate c
    omega
  · next hbeyond =>
    have hvalid : c.toNat < 0xD800 ∨ 0xDFFF < c.toNat ∧ c.toNat < 0x110000 := c.valid
    have hsum : 0x10000 + (c.toNat - 0x10000) = c.toNat := by omega
    dsimp only
    rw [unescape_pair (by omega), hsum, Char.ofNat_toNat]

/-- No escape starts like the end of a string: read back, it would be the escape of a quote. -/
theorem head_escapeChar (c : Char) : ∃ d ds, escapeChar c = d :: ds ∧ d ≠ '"' := by
  have hread := unescape_escapeChar c []
  cases hescape : escapeChar c with
  | nil =>
    rw [hescape] at hread
    obtain rfl : ' ' = c := (Prod.mk.inj hread).1
    exact absurd hescape (by decide)
  | cons d ds =>
    refine ⟨d, ds, rfl, ?_⟩
    rintro rfl
    rw [hescape, List.cons_append, unescape] at hread
    · obtain rfl : '"' = c := (Prod.mk.inj hread).1
      exact absurd (List.cons.inj hescape).1 (by decide)
    all_goals simp

/-- Escaped characters are told apart up to the end of the string. -/
theorem flatMap_escapeChar_inj {cs ds rest rest' : List Char}
    (h : cs.flatMap escapeChar ++ '"' :: rest = ds.flatMap escapeChar ++ '"' :: rest') :
    cs = ds ∧ rest = rest' := by
  induction cs generalizing ds with
  | nil =>
    cases ds with
    | nil => exact ⟨rfl, (List.cons.inj h).2⟩
    | cons d ds =>
      obtain ⟨e, es, hescape, hne⟩ := head_escapeChar d
      rw [List.flatMap_cons, hescape] at h
      exact absurd (List.cons.inj h).1.symm hne
  | cons c cs ih =>
    cases ds with
    | nil =>
      obtain ⟨e, es, hescape, hne⟩ := head_escapeChar c
      rw [List.flatMap_cons, hescape] at h
      exact absurd (List.cons.inj h).1 hne
    | cons d ds =>
      rw [List.flatMap_cons, List.flatMap_cons, List.append_assoc, List.append_assoc] at h
      have hread := congrArg unescape h
      rw [unescape_escapeChar, unescape_escapeChar] at hread
      obtain ⟨rfl, hrest⟩ := Prod.mk.inj hread
      obtain ⟨rfl, rfl⟩ := ih hrest
      exact ⟨rfl, rfl⟩

/-! ### Values -/

/-- The end of a value: the end of the text, a comma or a bracket. -/
def Ends (rest : List Char) : Prop := ∀ c ∈ rest.head?, c = ',' ∨ c = ']'

theorem Ends.comma (cs : List Char) : Ends (',' :: cs) := by
  intro c hc
  exact .inl (by simpa using hc.symm)

theorem Ends.bracket (cs : List Char) : Ends (']' :: cs) := by
  intro c hc
  exact .inr (by simpa using hc.symm)

/-- What is written for a value tells it apart, whatever is written behind it. -/
structure Code {α : Type} (write : α → String) : Prop where
  head : ∀ a, ∃ c cs, (write a).toList = c :: cs ∧ c ≠ ']'
  inj : ∀ {a b rest rest'}, Ends rest → Ends rest' →
    (write a).toList ++ rest = (write b).toList ++ rest' → a = b ∧ rest = rest'

namespace Code

variable {α β : Type} {write : α → String}

theorem eq_of_write_eq (hw : Code write) {a b : α} (h : write a = write b) : a = b := by
  have hend : Ends [] := nofun
  exact (hw.inj hend hend (by rw [h])).1

theorem string : Code Json.string where
  head s := by
    refine ⟨'"', s.toList.flatMap escapeChar ++ ['"'], ?_, by decide⟩
    rw [Json.string, String.toList_ofList, List.cons_append]
  inj {s t rest rest'} _ _ h := by
    have hwritten (s : String) (rest : List Char) : (Json.string s).toList ++ rest =
        '"' :: (s.toList.flatMap escapeChar ++ '"' :: rest) := by
      rw [Json.string, String.toList_ofList]
      simp
    rw [hwritten, hwritten] at h
    obtain ⟨hs, hrest⟩ := flatMap_escapeChar_inj (List.cons.inj h).2
    exact ⟨String.toList_injective hs, hrest⟩

/-- The values of an array behind the first one, each behind a comma. -/
def later (write : α → String) (xs : List α) : List Char :=
  xs.flatMap fun x => ',' :: ' ' :: (write x).toList

theorem toList_array_cons (x : α) (xs : List α) :
    (Json.array ((x :: xs).map write)).toList =
      '[' :: ((write x).toList ++ (later write xs ++ [']'])) := by
  have hlater (x : α) (xs : List α) : (", ".intercalate ((x :: xs).map write)).toList =
      (write x).toList ++ later write xs := by
    induction xs generalizing x with
    | nil => simp [later]
    | cons y xs ih =>
      rw [List.map_cons, List.map_cons, String.intercalate_cons_cons, ← List.map_cons,
        String.toList_append, String.toList_append, ih]
      simp [later]
  rw [Json.array, String.toList_append, String.toList_append, hlater]
  simp

theorem ends_later (xs : List α) (rest : List Char) : Ends (later write xs ++ ']' :: rest) := by
  cases xs with
  | nil => exact .bracket rest
  | cons x xs => exact .comma _

theorem later_inj (hw : Code write) {xs ys : List α} {rest rest' : List Char}
    (h : later write xs ++ ']' :: rest = later write ys ++ ']' :: rest') : xs = ys ∧ rest = rest' := by
  induction xs generalizing ys with
  | nil =>
    cases ys with
    | nil => exact ⟨rfl, (List.cons.inj h).2⟩
    | cons y ys => cases (List.cons.inj h).1
  | cons x xs ih =>
    cases ys with
    | nil => cases (List.cons.inj h).1
    | cons y ys =>
      have hvalue : (write x).toList ++ (later write xs ++ ']' :: rest) =
          (write y).toList ++ (later write ys ++ ']' :: rest') := by
        simpa [later] using h
      obtain ⟨rfl, hrest⟩ := hw.inj (ends_later xs rest) (ends_later ys rest') hvalue
      obtain ⟨rfl, rfl⟩ := ih hrest
      exact ⟨rfl, rfl⟩

/-- An array is told apart where its values are. -/
theorem array (hw : Code write) : Code fun xs : List α => Json.array (xs.map write) where
  head xs := ⟨'[', _, by rw [Json.array, String.toList_append, String.toList_append]; rfl, by decide⟩
  inj {xs ys rest rest'} _ _ h := by
    have hnil (rest : List Char) :
        (Json.array (([] : List α).map write)).toList ++ rest = '[' :: ']' :: rest := by
      rw [List.map_nil, Json.array, String.toList_append, String.toList_append]
      rfl
    have hwritten (x : α) (xs : List α) (rest : List Char) :
        (Json.array ((x :: xs).map write)).toList ++ rest =
          '[' :: ((write x).toList ++ (later write xs ++ ']' :: rest)) := by
      rw [toList_array_cons]
      simp
    -- an array without values is closed where a value would start
    have hfirst (x : α) (xs : List α) (rest rest' : List Char) :
        ']' :: rest ≠ (write x).toList ++ (later write xs ++ ']' :: rest') := by
      obtain ⟨c, cs, hc, hne⟩ := hw.head x
      rw [hc]
      exact fun heq => hne (List.cons.inj heq).1.symm
    cases xs with
    | nil =>
      cases ys with
      | nil => exact ⟨rfl, List.append_cancel_left h⟩
      | cons y ys =>
        rw [hnil, hwritten] at h
        exact absurd (List.cons.inj h).2 (hfirst y ys rest rest')
    | cons x xs =>
      cases ys with
      | nil =>
        rw [hnil, hwritten] at h
        exact absurd (List.cons.inj h).2.symm (hfirst x xs rest' rest)
      | cons y ys =>
        rw [hwritten, hwritten] at h
        obtain ⟨rfl, hrest⟩ := hw.inj (ends_later xs rest) (ends_later ys rest') (List.cons.inj h).2
        obtain ⟨rfl, rfl⟩ := hw.later_inj hrest
        exact ⟨rfl, rfl⟩

/-- A pair in an array is told apart where its two values are. -/
theorem pair {write' : β → String} (hw : Code write) (hw' : Code write') :
    Code fun p : α × β => Json.array [write p.1, write' p.2] where
  head p := ⟨'[', _, by rw [Json.array, String.toList_append, String.toList_append]; rfl, by decide⟩
  inj {p q rest rest'} _ _ h := by
    have hwritten (p : α × β) (rest : List Char) :
        (Json.array [write p.1, write' p.2]).toList ++ rest =
          '[' :: ((write p.1).toList ++ ',' :: ' ' :: ((write' p.2).toList ++ ']' :: rest)) := by
      rw [Json.array, String.intercalate_cons_cons, String.intercalate_singleton]
      simp
    rw [hwritten, hwritten] at h
    obtain ⟨hfirst, hmore⟩ := hw.inj (.comma _) (.comma _) (List.cons.inj h).2
    obtain ⟨hsecond, hrest⟩ :=
      hw'.inj (.bracket _) (.bracket _) (List.cons.inj (List.cons.inj hmore).2).2
    exact ⟨Prod.ext hfirst hsecond, (List.cons.inj hrest).2⟩

end Code

end Json

end Reckon
