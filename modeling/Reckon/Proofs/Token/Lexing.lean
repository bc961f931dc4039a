import Reckon.Proofs.Token.Seam
import Reckon.Token.Cursor

/-!
Reading a text to its end, as a relation and from any place in it.

A text is read in one of three ways: nothing but blanks is left; a token stands behind the blanks and
the rest is read; an abbreviation stands there and the expanded text is read. Reading a whole text is
exactly a derivation from these rules, so what holds of each rule holds of every text that is read.

    blanks             ──▶  []
    blanks token rest  ──▶  token :: tokens of rest
    blanks \frac…      ──▶  tokens of the expanded text

What is written behind a seam is read from the place where the text before it ends, with all its
tokens and errors.
-/

namespace Reckon

/-- The text is read to its end and yields the tokens. -/
inductive Reads (limit : Int) : List Char → List Token → Prop
  | done {cs : List Char} : Text.skipBlanks cs = [] → Reads limit cs []
  | token {cs written rest : List Char} {token : Token} {ts : List Token} :
      Front.ofText limit (Text.skipBlanks cs) = .lexeme token written rest →
      Reads limit rest ts → Reads limit cs (token :: ts)
  | expanded {cs text : List Char} {ts : List Token} :
      Front.ofText limit (Text.skipBlanks cs) = .expanded text →
      Reads limit text ts → Reads limit cs ts

namespace Lexing

variable {limit : Int}

/-- The tokens from a place on, up to the end or to the first error. -/
def ofCursor (limit : Int) (c : Cursor) : Lexing :=
  ⟨(c.fetches limit).filterMap Cursor.Fetch.token?, (c.fetches limit).findSome? Cursor.Fetch.error?⟩

/-- The outcome with tokens before it. -/
def prepend (ts : List Token) (l : Lexing) : Lexing := ⟨ts ++ l.tokens, l.error⟩

theorem prepend_append (ts us : List Token) (l : Lexing) :
    l.prepend (ts ++ us) = (l.prepend us).prepend ts := by
  simp [prepend]

/-- What is fetched from a place on starts with one fetch from there. -/
theorem fetches_eq (c : Cursor) :
    c.fetches limit =
      match c.fetch limit with
      | .token token after => .token token after :: after.fetches limit
      | last => [last] := by
  rw [Cursor.fetches]
  split <;> simp_all

/-- What is fetched where something is left. -/
theorem fetch_eq {c : Cursor} (hne : c.skipBlanks.ahead ≠ []) :
    c.fetch limit =
      match Front.ofText limit c.skipBlanks.ahead with
      | .lexeme token written rest => .token token (c.skipBlanks.pass written rest)
      | .longNumeral digits written rest =>
        .failed (.longNumeral digits) (c.skipBlanks.pass written rest)
      | .expanded text => Cursor.fetch limit ⟨c.skipBlanks.behind, text⟩
      | .tooDeep site =>
        .failed (.tooDeep limit (c.skipBlanks.positionOf site) (Cursor.context site)) c.skipBlanks
      | .foreign =>
        .failed (.foreign c.skipBlanks.position (Cursor.context c.skipBlanks.ahead))
          c.skipBlanks := by
  rw [Cursor.fetch, if_neg hne]
  split <;> simp_all

theorem ne_nil_of_lexeme {cs written rest : List Char} {token : Token}
    (h : Front.ofText limit cs = .lexeme token written rest) : cs ≠ [] := by
  rintro rfl
  cases h

theorem ne_nil_of_expanded {cs text : List Char} (h : Front.ofText limit cs = .expanded text) :
    cs ≠ [] := by
  rintro rfl
  cases h

theorem ofCursor_done {c : Cursor} (h : c.skipBlanks.ahead = []) :
    ofCursor limit c = ⟨[], none⟩ := by
  have hfetch : c.fetch limit = .done c.skipBlanks := by
    rw [Cursor.fetch, if_pos h]
  rw [ofCursor, fetches_eq, hfetch]
  rfl

theorem ofCursor_token {c : Cursor} {token : Token} {written rest : List Char}
    (h : Front.ofText limit c.skipBlanks.ahead = .lexeme token written rest) :
    ofCursor limit c = (ofCursor limit (c.skipBlanks.pass written rest)).prepend [token] := by
  have hfetch : c.fetch limit = .token token (c.skipBlanks.pass written rest) := by
    rw [fetch_eq (ne_nil_of_lexeme h), h]
  rw [ofCursor, fetches_eq, hfetch]
  rfl

/-- An abbreviation reads like its expansion in its place. -/
theorem ofCursor_expanded {c : Cursor} {text : List Char}
    (h : Front.ofText limit c.skipBlanks.ahead = .expanded text) :
    ofCursor limit c = ofCursor limit ⟨c.skipBlanks.behind, text⟩ := by
  have hfetch : c.fetch limit = Cursor.fetch limit ⟨c.skipBlanks.behind, text⟩ := by
    rw [fetch_eq (ne_nil_of_expanded h), h]
  rw [ofCursor, ofCursor, fetches_eq, hfetch, ← fetches_eq]

theorem ofCursor_longNumeral {c : Cursor} {digits : Nat} {written rest : List Char}
    (hne : c.skipBlanks.ahead ≠ [])
    (h : Front.ofText limit c.skipBlanks.ahead = .longNumeral digits written rest) :
    ofCursor limit c = ⟨[], some (.longNumeral digits)⟩ := by
  rw [ofCursor, fetches_eq, fetch_eq hne, h]
  rfl

theorem ofCursor_tooDeep {c : Cursor} {site : List Char} (hne : c.skipBlanks.ahead ≠ [])
    (h : Front.ofText limit c.skipBlanks.ahead = .tooDeep site) : ofCursor limit c =
      ⟨[], some (.tooDeep limit (c.skipBlanks.positionOf site) (Cursor.context site))⟩ := by
  rw [ofCursor, fetches_eq, fetch_eq hne, h]
  rfl

theorem ofCursor_foreign {c : Cursor} (hne : c.skipBlanks.ahead ≠ [])
    (h : Front.ofText limit c.skipBlanks.ahead = .foreign) : ofCursor limit c =
      ⟨[], some (.foreign c.skipBlanks.position (Cursor.context c.skipBlanks.ahead))⟩ := by
  rw [ofCursor, fetches_eq, fetch_eq hne, h]
  rfl

theorem ofCursor_congr {c d : Cursor} (h : c.skipBlanks = d.skipBlanks) :
    ofCursor limit c = ofCursor limit d := by
  have hfetch : c.fetch limit = d.fetch limit := by
    by_cases hd : d.skipBlanks.ahead = []
    · rw [Cursor.fetch, Cursor.fetch, if_pos hd, h, if_pos hd]
    · rw [fetch_eq hd, fetch_eq (by rw [h]; exact hd), h]
  rw [ofCursor, ofCursor, fetches_eq, hfetch, ← fetches_eq]

theorem ofCursor_blanks {u : List Char} (hu : ∀ c ∈ u, Text.isBlank c) (behind cs : List Char) :
    ofCursor limit ⟨behind, u ++ cs⟩ = ofCursor limit ⟨u.reverse ++ behind, cs⟩ := by
  refine ofCursor_congr ?_
  simp only [Cursor.skipBlanks, Cursor.pass, Text.skipBlanks_append hu,
    List.takeWhile_append_of_pos hu, List.reverse_append, List.append_assoc]

/-- What holds where reading ends, and at a place if it does where reading goes on from there, holds
everywhere. -/
@[elab_as_elim]
theorem ofCursor_induction (limit : Int) {motive : Cursor → Prop}
    (done : ∀ c, c.skipBlanks.ahead = [] → motive c)
    (token : ∀ c token written rest,
      Front.ofText limit c.skipBlanks.ahead = .lexeme token written rest →
      motive (c.skipBlanks.pass written rest) → motive c)
    (expanded : ∀ c text, Front.ofText limit c.skipBlanks.ahead = .expanded text →
      motive ⟨c.skipBlanks.behind, text⟩ → motive c)
    (longNumeral : ∀ c digits written rest, c.skipBlanks.ahead ≠ [] →
      Front.ofText limit c.skipBlanks.ahead = .longNumeral digits written rest → motive c)
    (tooDeep : ∀ c site, c.skipBlanks.ahead ≠ [] →
      Front.ofText limit c.skipBlanks.ahead = .tooDeep site → motive c)
    (foreign : ∀ c, c.skipBlanks.ahead ≠ [] →
      Front.ofText limit c.skipBlanks.ahead = .foreign → motive c) (c : Cursor) : motive c := by
  -- every step makes the text ahead lighter, expansions included
  induction hweight : Abbreviation.weight c.ahead using Nat.strong_induction_on generalizing c with
  | _ n ih =>
    subst hweight
    have hskip : Abbreviation.weight c.skipBlanks.ahead ≤ Abbreviation.weight c.ahead :=
      Abbreviation.weight_le_of_suffix (Text.skipBlanks_suffix c.ahead)
    by_cases hnil : c.skipBlanks.ahead = []
    · exact done c hnil
    cases hfront : Front.ofText limit c.skipBlanks.ahead with
    | lexeme token' written rest =>
      exact token c _ _ _ hfront (ih _ (Nat.lt_of_lt_of_le (Front.lexeme_weight hfront) hskip) _ rfl)
    | expanded text =>
      exact expanded c _ hfront
        (ih _ (Nat.lt_of_lt_of_le (Front.expanded_weight hfront) hskip) _ rfl)
    | longNumeral digits written rest => exact longNumeral c _ _ _ hnil hfront
    | tooDeep site => exact tooDeep c _ hnil hfront
    | foreign => exact foreign c hnil hfront

/-! ### Reading to the end -/

/-- A text is read to its end exactly where the rules derive its tokens. -/
theorem ofCursor_eq_iff_reads {c : Cursor} {ts : List Token} :
    ofCursor limit c = ⟨ts, none⟩ ↔ Reads limit c.ahead ts := by
  constructor
  · intro h
    induction c using ofCursor_induction limit generalizing ts with
    | done c hnil =>
      rw [ofCursor_done hnil] at h
      obtain rfl := (Lexing.mk.inj h).1
      exact .done hnil
    | token c token written rest hfront ih =>
      rw [ofCursor_token hfront] at h
      obtain ⟨htokens, herror⟩ := Lexing.mk.inj h
      rw [← htokens]
      exact .token hfront (ih (congrArg (Lexing.mk _) herror))
    | expanded c text hfront ih =>
      rw [ofCursor_expanded hfront] at h
      exact .expanded hfront (ih h)
    | longNumeral c digits written rest hne hfront =>
      rw [ofCursor_longNumeral hne hfront] at h
      cases h
    | tooDeep c site hne hfront =>
      rw [ofCursor_tooDeep hne hfront] at h
      cases h
    | foreign c hne hfront =>
      rw [ofCursor_foreign hne hfront] at h
      cases h
  · intro h
    obtain ⟨behind, cs⟩ := c
    change Reads limit cs ts at h
    induction h generalizing behind with
    | done hnil => exact ofCursor_done hnil
    | token hfront _ ih =>
      rw [ofCursor_token hfront, Cursor.pass, ih]
      rfl
    | expanded hfront _ ih => rw [ofCursor_expanded hfront, ih]

/-! ### Reading on behind a seam -/

/-- Reading starts at the first character that is no blank. -/
theorem exists_ofCursor_skip (cs behind : List Char) (hne : Text.skipBlanks cs ≠ []) :
    ∃ behind', ∀ ds, ofCursor limit ⟨behind, cs ++ ds⟩ =
        ofCursor limit ⟨behind', Text.skipBlanks cs ++ ds⟩ ∧
      Cursor.skipBlanks ⟨behind', Text.skipBlanks cs ++ ds⟩ =
        ⟨behind', Text.skipBlanks cs ++ ds⟩ := by
  obtain ⟨u, hu, hcs⟩ := Text.exists_blanks cs
  refine ⟨u.reverse ++ behind, fun ds => ⟨?_, ?_⟩⟩
  · conv => lhs; rw [hcs, List.append_assoc]
    exact ofCursor_blanks hu behind _
  · cases hskip : Text.skipBlanks cs with
    | nil => exact absurd hskip hne
    | cons c rest =>
      have hc : Text.isBlank c = false := Text.isBlank_head_skipBlanks hskip
      simp [Cursor.skipBlanks, Cursor.pass, hc]

/-- The text before a seam is read as if it stood alone, and reading goes on at the seam. -/
theorem ofCursor_append_seam {cs : List Char} {ts : List Token} (h : Reads limit cs ts)
    (behind : List Char) :
    ∃ behind', ∀ ds, Seam ds →
      ofCursor limit ⟨behind, cs ++ ds⟩ = (ofCursor limit ⟨behind', ds⟩).prepend ts := by
  induction h generalizing behind with
  | @done cs hnil =>
    obtain ⟨u, hu, hcs⟩ := Text.exists_blanks cs
    rw [hnil, List.append_nil] at hcs
    subst hcs
    exact ⟨cs.reverse ++ behind, fun ds _ => ofCursor_blanks hu behind ds⟩
  | @token cs written rest token ts hfront _ ih =>
    -- where reading goes on must not depend on the text behind the seam, so it is chosen first
    obtain ⟨start, hstart⟩ := exists_ofCursor_skip cs behind (ne_nil_of_lexeme hfront)
    obtain ⟨behind', hrest⟩ := ih (written.reverse ++ start)
    refine ⟨behind', fun ds hds => ?_⟩
    obtain ⟨heq, hskip⟩ := hstart ds
    have hfront' := Front.lexeme_append_seam hds hfront
    rw [heq, ofCursor_token (c := ⟨start, Text.skipBlanks cs ++ ds⟩) (by rw [hskip]; exact hfront'),
      hskip, Cursor.pass, hrest ds hds, ← prepend_append]
    rfl
  | @expanded cs text ts hfront _ ih =>
    obtain ⟨start, hstart⟩ := exists_ofCursor_skip cs behind (ne_nil_of_expanded hfront)
    obtain ⟨behind', hrest⟩ := ih start
    refine ⟨behind', fun ds hds => ?_⟩
    obtain ⟨heq, hskip⟩ := hstart ds
    have hfront' := Front.expanded_append hfront ds
    rw [heq,
      ofCursor_expanded (c := ⟨start, Text.skipBlanks cs ++ ds⟩) (by rw [hskip]; exact hfront'),
      hskip, hrest ds hds]

end Lexing

theorem tokenize_eq_ok {limit : Int} {source : String} {ts : List Token} :
    tokenize limit source = .ok ts ↔ Lexing.ofText limit source.toList = ⟨ts, none⟩ := by
  rw [tokenize]
  obtain ⟨tokens, error⟩ := Lexing.ofText limit source.toList
  cases error <;> simp

theorem tokenize_eq_error {limit : Int} {source : String} {e : LexicalError} :
    tokenize limit source = .error e ↔ (Lexing.ofText limit source.toList).error = some e := by
  rw [tokenize]
  obtain ⟨tokens, error⟩ := Lexing.ofText limit source.toList
  cases error <;> simp

/-- A text is read to its end exactly where it has tokens. -/
theorem tokenize_eq_ok_iff_reads {limit : Int} {source : String} {ts : List Token} :
    tokenize limit source = .ok ts ↔ Reads limit source.toList ts := by
  rw [tokenize_eq_ok]
  exact Lexing.ofCursor_eq_iff_reads (c := Cursor.ofText source.toList)

end Reckon
