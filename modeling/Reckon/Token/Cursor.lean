import Reckon.Token.Front

/-!
Reading tokens one after another.

A cursor stands in a text: behind it lies what was read, ahead of it what is still to be read. The
text ahead changes where an abbreviation is replaced by what it stands for; the text behind never
does. Fetching skips blanks, expands abbreviations in place and stops at the first token.

      behind          ahead
    (a) / │ (\sqrt{b}) + c        fetch  ──▶  token, cursor behind it
                                         ──▶  end of the text
                                         ──▶  error, cursor in front of the offence

Positions and lengths count characters, and refer to the text with its abbreviations expanded as far
as they are.
-/

namespace Reckon

/-- Why a text is not a list of tokens. -/
inductive LexicalError where
  /-- A character that begins no token, with the text from it on. -/
  | foreign (position : Nat) (context : String)
  /-- Groups nested deeper than the limit, with the text from the offending delimiter on. -/
  | tooDeep (limit : Int) (position : Nat) (context : String)
  /-- An integer with more digits than the limit. -/
  | longNumeral (digits : Nat)
  deriving DecidableEq, Repr

/-- The text of a lexical error. -/
def LexicalError.message : LexicalError → String
  | .foreign position context =>
    s!"Invalid character at position {position} near \"{context}\""
  | .tooDeep limit position _ =>
    s!"Macro arguments nested deeper than {limit} levels at position {position}"
  | .longNumeral digits =>
    s!"Exceeds the limit ({Number.digitLimit} digits) for integer string conversion: value has " ++
      s!"{digits} digits; use sys.set_int_max_str_digits() to increase the limit"

/-- A place in a text: what lies behind it, the nearest character first, and what lies ahead. -/
structure Cursor where
  behind : List Char
  ahead : List Char
  deriving DecidableEq, Repr

namespace Cursor

/-- The place before the first character. -/
def ofText (cs : List Char) : Cursor := ⟨[], cs⟩

/-- The number of characters behind. -/
def position (c : Cursor) : Nat := c.behind.length

/-- The whole text. -/
def buffer (c : Cursor) : List Char := c.behind.reverse ++ c.ahead

/-- The place behind `passed`, which the text ahead starts with; `rest` lies ahead of it. -/
def pass (c : Cursor) (passed rest : List Char) : Cursor := ⟨passed.reverse ++ c.behind, rest⟩

/-- The place behind the blanks. -/
def skipBlanks (c : Cursor) : Cursor :=
  c.pass (c.ahead.takeWhile Text.isBlank) (Text.skipBlanks c.ahead)

/-- The position of a suffix of the text ahead. -/
def positionOf (c : Cursor) (site : List Char) : Nat :=
  c.position + (c.ahead.length - site.length)

/-- What a lexical error shows of a text. -/
def context (site : List Char) : String := String.ofList (site.take 20)

/-! ### Fetching a token -/

/-- The outcome of fetching a token. -/
inductive Fetch where
  /-- A token was read; the cursor stands behind it. -/
  | token (token : Token) (after : Cursor)
  /-- Nothing but blanks was left; the cursor stands at the end. -/
  | done (after : Cursor)
  /-- No token could be read; the cursor stands in front of the offence, behind a numeral that is
  too long. -/
  | failed (error : LexicalError) (after : Cursor)
  deriving Repr

/-- Reads the next token, expanding abbreviations on the way. -/
def fetch (limit : Int) (c : Cursor) : Fetch :=
  if c.skipBlanks.ahead = [] then .done c.skipBlanks
  else
    match _h : Front.ofText limit c.skipBlanks.ahead with
    | .lexeme token written rest => .token token (c.skipBlanks.pass written rest)
    | .longNumeral digits written rest =>
      .failed (.longNumeral digits) (c.skipBlanks.pass written rest)
    | .expanded text => fetch limit ⟨c.skipBlanks.behind, text⟩
    | .tooDeep site =>
      .failed (.tooDeep limit (c.skipBlanks.positionOf site) (context site)) c.skipBlanks
    | .foreign =>
      .failed (.foreign c.skipBlanks.position (context c.skipBlanks.ahead)) c.skipBlanks
termination_by Abbreviation.weight c.ahead
decreasing_by
  exact Nat.lt_of_lt_of_le (Front.expanded_weight _h)
    (Abbreviation.weight_le_of_suffix (Text.skipBlanks_suffix c.ahead))

/-- A fetched token leaves a lighter text ahead. -/
theorem weight_of_fetch {limit : Int} {c after : Cursor} {token : Token}
    (h : c.fetch limit = .token token after) :
    Abbreviation.weight after.ahead < Abbreviation.weight c.ahead := by
  have hblank : Abbreviation.weight c.skipBlanks.ahead ≤ Abbreviation.weight c.ahead :=
    Abbreviation.weight_le_of_suffix (Text.skipBlanks_suffix c.ahead)
  fun_induction fetch limit c with
  | case1 => simp at h
  | case2 c _ token' written rest hfront =>
    simp only [Fetch.token.injEq] at h
    obtain ⟨_, rfl⟩ := h
    exact Nat.lt_of_lt_of_le (Front.lexeme_weight hfront) hblank
  | case3 => simp at h
  | case4 c _ text hfront ih =>
    have hlt := ih h (Abbreviation.weight_le_of_suffix (Text.skipBlanks_suffix text))
    exact Nat.lt_of_lt_of_le (Nat.lt_trans hlt (Front.expanded_weight hfront)) hblank
  | case5 => simp at h
  | case6 => simp at h

/-- All that is fetched from a place on; the last fetch yields no token. -/
def fetches (limit : Int) (c : Cursor) : List Fetch :=
  match _h : c.fetch limit with
  | .token token after => .token token after :: after.fetches limit
  | last => [last]
termination_by Abbreviation.weight c.ahead
decreasing_by exact weight_of_fetch _h

end Cursor

/-! ### The tokens of a text -/

/-- The tokens of a text up to its end or to the first error. -/
structure Lexing where
  tokens : List Token
  error : Option LexicalError
  deriving Repr

/-- The token of a fetch that yields one. -/
def Cursor.Fetch.token? : Cursor.Fetch → Option Token
  | .token t _ => some t
  | _ => none

/-- The error of a fetch that fails. -/
def Cursor.Fetch.error? : Cursor.Fetch → Option LexicalError
  | .failed e _ => some e
  | _ => none

/-- The cursor after a fetch. -/
def Cursor.Fetch.after : Cursor.Fetch → Cursor
  | .token _ c | .done c | .failed _ c => c

/-- Reads a text into tokens as far as it goes. -/
def Lexing.ofText (limit : Int) (cs : List Char) : Lexing :=
  let fetches := (Cursor.ofText cs).fetches limit
  ⟨fetches.filterMap Cursor.Fetch.token?, fetches.findSome? Cursor.Fetch.error?⟩

/-- How deep groups may nest where nothing else is said. -/
def defaultLimit : Int := 64

/-- Reads a text into tokens. -/
def tokenize (limit : Int) (source : String) : Except LexicalError (List Token) :=
  let lexing := Lexing.ofText limit source.toList
  match lexing.error with
  | some e => .error e
  | none => .ok lexing.tokens

end Reckon
