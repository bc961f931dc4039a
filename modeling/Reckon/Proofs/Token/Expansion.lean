import Reckon.Proofs.Token.Lexing

/-!
An abbreviation is exactly what it stands for, wherever it is written.

The text before it is read as if nothing followed, because a backslash and a parenthesis are both
seams; the groups that are found are the ones that nest; and from there on the text with the
abbreviation and the text with its expansion are the same.

    P \frac{A}{B} S        ──┐
                             ├──▶  the same tokens, or the same error at the same place
    P (A) / (B)  S         ──┘
-/

namespace Reckon

namespace Abbreviation

variable {limit : Int} {cs text : List Char}

theorem exists_parenthesis (h : expand limit cs = .found text) : ∃ rest, text = '(' :: rest := by
  rcases expand_eq_found_iff.1 h with h | h
  · obtain ⟨_, _, _, _, _, _, _, _, _, _, rfl⟩ := fraction_eq_found_iff.1 h
    exact ⟨_, rfl⟩
  · obtain ⟨_, _, _, _, rfl, _⟩ := root_eq_found_iff.1 h
    exact ⟨_, rfl⟩

/-- An expansion takes a backslash away, and puts in no character but those of the plain text. -/
theorem count_expand (h : expand limit cs = .found text) {d : Char}
    (hd : d ∉ ['(', ')', ' ', '/', 's', 'q', 'r', 't', '2']) :
    text.count d + ['\\'].count d ≤ cs.count d := by
  simp only [List.mem_cons, List.not_mem_nil, or_false, not_or, @eq_comm _ d] at hd
  rcases expand_eq_found_iff.1 h with h | h
  · obtain ⟨u, num, v, den, rest, rfl, rfl⟩ := fraction_eq_found h
    simp [fractionText, List.count_cons, hd]
    omega
  · obtain ⟨degree, radicand, rest, rfl, ⟨u, rfl, rfl⟩ | ⟨u, v, rfl⟩⟩ := root_eq_found h <;>
      simp [rootText, List.count_cons, hd] <;> omega

end Abbreviation

/-- Behind a text that is read to its end, an abbreviation reads like its expansion. -/
theorem Lexing.ofText_append_expand {limit : Int} {front cs text : List Char} {ts : List Token}
    (hfront : Reads limit front ts) (h : Abbreviation.expand limit cs = .found text) :
    Lexing.ofText limit (front ++ cs) = Lexing.ofText limit (front ++ text) := by
  obtain ⟨behind, hrest⟩ := ofCursor_append_seam hfront []
  obtain ⟨rest, rfl⟩ := Abbreviation.exists_backslash h
  obtain ⟨rest', rfl⟩ := Abbreviation.exists_parenthesis h
  have hcs : Lexing.ofText limit (front ++ '\\' :: rest) =
      (ofCursor limit ⟨behind, '\\' :: rest⟩).prepend ts := hrest _ (Seam.cons (by decide))
  have htext : Lexing.ofText limit (front ++ '(' :: rest') =
      (ofCursor limit ⟨behind, '(' :: rest'⟩).prepend ts := hrest _ (Seam.cons (by decide))
  have hskip : Cursor.skipBlanks ⟨behind, '\\' :: rest⟩ = ⟨behind, '\\' :: rest⟩ := by
    have hblank : Text.isBlank '\\' = false := by decide
    simp [Cursor.skipBlanks, Cursor.pass, hblank]
  rw [hcs, htext, ofCursor_expanded (c := ⟨behind, '\\' :: rest⟩)
    (by rw [hskip]; exact Front.expanded_iff.2 h), hskip]

/-- Behind a text that has tokens, each abbreviation has the same outcome as the text it stands for:
the same tokens, or the same error at the same place. -/
theorem tokenize_expansion {limit : Int} {P A B D S u v : String} {ts : List Token}
    (hP : tokenize limit P = .ok ts)
    (hu : ∀ c ∈ u.toList, Text.isBlank c) (hv : ∀ c ∈ v.toList, Text.isBlank c)
    (hA : Group.Nested '\x7b' '\x7d' limit A.toList)
    (hB : Group.Nested '\x7b' '\x7d' limit B.toList)
    (hD : Group.Nested '[' ']' limit D.toList) :
    tokenize limit (P ++ "\\frac" ++ u ++ "\x7b" ++ A ++ "\x7d" ++ v ++ "\x7b" ++ B ++ "\x7d" ++ S) =
      tokenize limit (P ++ "(" ++ A ++ ") / (" ++ B ++ ") " ++ S) ∧
    tokenize limit (P ++ "\\sqrt" ++ u ++ "[" ++ D ++ "]" ++ v ++ "\x7b" ++ A ++ "\x7d" ++ S) =
      tokenize limit (P ++ "(" ++ A ++ ") sqrt (" ++ D ++ ") " ++ S) ∧
    tokenize limit (P ++ "\\sqrt" ++ u ++ "\x7b" ++ A ++ "\x7d" ++ S) =
      tokenize limit (P ++ "(" ++ A ++ ") sqrt (2) " ++ S) := by
  have hreads := tokenize_eq_ok_iff_reads.1 hP
  -- outcomes are equal where the texts behind `P` are an abbreviation and its expansion
  have hsame {cs text : List Char} {s s' : String} (hs : s.toList = P.toList ++ cs)
      (hs' : s'.toList = P.toList ++ text) (h : Abbreviation.expand limit cs = .found text) :
      tokenize limit s = tokenize limit s' := by
    rw [tokenize, tokenize, hs, hs', Lexing.ofText_append_expand hreads h]
  refine ⟨?_, ?_, ?_⟩
  · have hfraction := Abbreviation.fraction_eq_found_iff.2
      ⟨u.toList, A.toList, v.toList, B.toList, S.toList, hu, hv, hA, hB, rfl, rfl⟩
    refine hsame ?_ ?_ (Abbreviation.expand_eq_found_iff.2 (.inl hfraction))
    · simp
    · simp [Abbreviation.fractionText]
  · have hroot := Abbreviation.root_eq_found_iff.2 ⟨D.toList, A.toList, S.toList, hA, rfl,
      .inr ⟨u.toList, v.toList, hu, hv, hD, rfl⟩⟩
    refine hsame ?_ ?_ (Abbreviation.expand_eq_found_iff.2 (.inr hroot))
    · simp
    · simp [Abbreviation.rootText]
  · have hroot := Abbreviation.root_eq_found_iff.2 ⟨['2'], A.toList, S.toList, hA, rfl,
      .inl ⟨u.toList, hu, rfl, rfl⟩⟩
    refine hsame ?_ ?_ (Abbreviation.expand_eq_found_iff.2 (.inr hroot))
    · simp
    · simp [Abbreviation.rootText]

set_option maxRecDepth 100000 in
/-- A fraction over a root behind a product, and roots of its numerator. -/
theorem tokenize_expansion_product :
    tokenize 2 "2 *" = .ok [.operand (.number (.int 2)), .operator .multiply] ∧
      (∀ c ∈ " ".toList, Text.isBlank c) ∧ (∀ c ∈ "".toList, Text.isBlank c) ∧
      Group.Nested '\x7b' '\x7d' 2 "x - 1".toList ∧
      Group.Nested '\x7b' '\x7d' 2 "\\sqrt\x7by\x7d".toList ∧
      Group.Nested '[' ']' 2 "3".toList ∧
      tokenize 2 "2 *\\frac \x7bx - 1\x7d\x7b\\sqrt\x7by\x7d\x7d ^ 2" =
        tokenize 2 "2 *(x - 1) / (\\sqrt\x7by\x7d)  ^ 2" ∧
      tokenize 2 "2 *\\sqrt [3]\x7bx - 1\x7d ^ 2" = tokenize 2 "2 *(x - 1) sqrt (3)  ^ 2" ∧
      tokenize 2 "2 *\\sqrt \x7bx - 1\x7d ^ 2" = tokenize 2 "2 *(x - 1) sqrt (2)  ^ 2" := by
  have hP : tokenize 2 "2 *" = .ok [.operand (.number (.int 2)), .operator .multiply] := by
    decide +kernel
  have hu : ∀ c ∈ " ".toList, Text.isBlank c := by
    intro c hc
    rw [List.mem_singleton.1 hc]
    decide
  have hv : ∀ c ∈ "".toList, Text.isBlank c := by simp
  have hA : Group.Nested '\x7b' '\x7d' 2 "x - 1".toList := by decide +kernel
  have hB : Group.Nested '\x7b' '\x7d' 2 "\\sqrt\x7by\x7d".toList := by decide +kernel
  have hD : Group.Nested '[' ']' 2 "3".toList := by decide +kernel
  have hsame := tokenize_expansion (S := " ^ 2") hP hu hv hA hB hD
  simp only [String.reduceAppend] at hsame
  exact ⟨hP, hu, hv, hA, hB, hD, hsame⟩

end Reckon
