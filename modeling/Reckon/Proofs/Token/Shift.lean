import Reckon.Proofs.Token.Passing

/-!
Where reading starts.

A cursor keeps the characters behind it only to count them: they give the place of an error and nothing
else. So a text behind a token is read as it is alone, and its errors lie further on by what stands
before it.

    2 $           2, then foreign at 2
    \right)2 $    ), 2, then foreign at 2 + 7
-/

namespace Reckon

/-- The error met so many characters further on. -/
def LexicalError.shift (n : Nat) : LexicalError → LexicalError
  | .foreign position context => .foreign (position + n) context
  | .tooDeep limit position context => .tooDeep limit (position + n) context
  | .longNumeral digits => .longNumeral digits

namespace Lexing

/-- The outcome so many characters further on. -/
def shift (n : Nat) (l : Lexing) : Lexing := ⟨l.tokens, l.error.map (LexicalError.shift n)⟩

/-- Where reading starts moves the place of an error and nothing else. -/
theorem ofCursor_shift {limit : Int} {n : Nat} {behind behind' : List Char}
    (h : behind.length = behind'.length + n) (cs : List Char) :
    ofCursor limit ⟨behind, cs⟩ = (ofCursor limit ⟨behind', cs⟩).shift n := by
  have hposition {behind behind' : List Char} (h : behind.length = behind'.length + n)
      (cs front : List Char) : (front ++ (Cursor.skipBlanks ⟨behind, cs⟩).behind).length =
        (front ++ (Cursor.skipBlanks ⟨behind', cs⟩).behind).length + n := by
    simp [Cursor.skipBlanks, Cursor.pass, h, Nat.add_assoc]
  -- both places see the same text, so they take the same steps
  induction hc : Cursor.mk behind cs using ofCursor_induction limit
    generalizing behind behind' cs with
  | done c hnil =>
    subst hc
    rw [ofCursor_done hnil, ofCursor_done (c := ⟨behind', cs⟩) hnil]
    rfl
  | token c token written rest hfront ih =>
    subst hc
    rw [ofCursor_token hfront, ofCursor_token (c := ⟨behind', cs⟩) hfront,
      ih (hposition h cs written.reverse) rest rfl]
    rfl
  | expanded c text hfront ih =>
    subst hc
    rw [ofCursor_expanded hfront, ofCursor_expanded (c := ⟨behind', cs⟩) hfront]
    exact ih (hposition h cs []) text rfl
  | longNumeral c digits written rest hne hfront =>
    subst hc
    rw [ofCursor_longNumeral hne hfront, ofCursor_longNumeral (c := ⟨behind', cs⟩) hne hfront]
    rfl
  | tooDeep c site hne hfront =>
    subst hc
    have hsite : Cursor.positionOf (Cursor.skipBlanks ⟨behind, cs⟩) site =
        Cursor.positionOf (Cursor.skipBlanks ⟨behind', cs⟩) site + n := by
      have hmore := hposition h cs []
      rw [List.nil_append, List.nil_append] at hmore
      rw [Cursor.positionOf, Cursor.positionOf, Cursor.position, Cursor.position, hmore,
        Nat.add_right_comm]
      rfl
    rw [ofCursor_tooDeep hne hfront, ofCursor_tooDeep (c := ⟨behind', cs⟩) hne hfront, hsite]
    rfl
  | foreign c hne hfront =>
    subst hc
    have hmore := hposition h cs []
    rw [List.nil_append, List.nil_append] at hmore
    rw [ofCursor_foreign hne hfront, ofCursor_foreign (c := ⟨behind', cs⟩) hne hfront,
      Cursor.position, hmore]
    rfl

end Lexing

/-- A token in front is read behind blanks, and moves what follows. -/
theorem Lexing.ofText_spelling {limit : Int} {u cs : List Char} {s : String} {token : Token}
    (hu : ∀ c ∈ u, Text.isBlank c) (hs : (s, token) ∈ Token.spellings) :
    Lexing.ofText limit (u ++ (s.toList ++ cs)) =
      ((Lexing.ofText limit cs).shift (u ++ s.toList).length).prepend [token] := by
  have hfront : Front.ofText limit (s.toList ++ cs) = .lexeme token s.toList cs :=
    Front.ofText_spelling hs cs
  have hfetch := Cursor.fetch_token hu hfront []
  have hall : Lexing.ofText limit (u ++ (s.toList ++ cs)) =
      (ofCursor limit ⟨s.toList.reverse ++ (u.reverse ++ []), cs⟩).prepend [token] := by
    show ofCursor limit ⟨[], u ++ (s.toList ++ cs)⟩ = _
    rw [ofCursor, fetches_eq, hfetch]
    rfl
  have hlength : (s.toList.reverse ++ (u.reverse ++ [])).length =
      ([] : List Char).length + (u ++ s.toList).length := by
    simp [Nat.add_comm]
  rw [hall, ofCursor_shift hlength]
  rfl

end Reckon
