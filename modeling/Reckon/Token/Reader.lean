import Reckon.Token.Cursor

/-!
A reader: a text together with the place that reading it has reached.

The text that the reader was made for is kept as it was given. What is read moves the cursor alone,
and a call that fails leaves the reader where the failure was met, so that it may be called again.

    source    \frac{a}{b} + c
    buffer    (a) / (b)  + c          read │ still to be read
-/

namespace Reckon

/-- The place of an error in the text, and what is shown of the text from there on. -/
def LexicalError.place? : LexicalError → Option (Nat × String)
  | .foreign position context | .tooDeep _ position context => some (position, context)
  | .longNumeral _ => none

/-- A text, the nesting limit of its groups, and the place that was reached in it. -/
structure Reader where
  source : String
  limit : Int
  cursor : Cursor

namespace Reader

/-- A reader before the first character of a text. -/
def ofText (limit : Int) (source : String) : Reader := ⟨source, limit, Cursor.ofText source.toList⟩

/-- How many characters were read. -/
def position (r : Reader) : Nat := r.cursor.position

/-- The whole text, its abbreviations expanded as far as they were met. -/
def buffer (r : Reader) : List Char := r.cursor.buffer

/-- The part of the text that was read. -/
def passed (r : Reader) : List Char := r.buffer.take r.position

/-- Reads the next token: what comes of it, and the reader afterwards. -/
def fetch (r : Reader) : Cursor.Fetch × Reader :=
  (r.cursor.fetch r.limit, { r with cursor := (r.cursor.fetch r.limit).after })

/-- All calls up to the first one that yields no token, each with the reader afterwards. -/
def fetches (r : Reader) : List (Cursor.Fetch × Reader) :=
  (r.cursor.fetches r.limit).map fun f => (f, { r with cursor := f.after })

end Reader

end Reckon
