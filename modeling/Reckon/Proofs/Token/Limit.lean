import Reckon.Proofs.Token.Expansion

/-!
What the nesting limit decides.

A limit is held against the groups that are open when one more is opened. Under a higher limit the
same groups are looked for in the same order, so everything goes on as before up to the first group
that nested too deep, and differs from there on only. Behind the front of a text no group can nest
deeper than the text has opening delimiters, and an expansion puts in none, so under a limit of that
many no group ever nests too deep.

    limit           tokens ── too deep
    higher limit    tokens ── more tokens ── end, or any error
-/

namespace Reckon

/-- A search under a limit, and the same search under a higher one: it comes to the same unless a
group nested too deep. -/
inductive Search.Raised {α : Type} : Search α → Search α → Prop
  | tooDeep (site : List Char) (s : Search α) : Raised (.tooDeep site) s
  | same (s : Search α) : Raised s s

namespace Search.Raised

variable {α β : Type} {s s' : Search α}

theorem map (h : Raised s s') (f : α → β) : Raised (s.map f) (s'.map f) := by
  cases h with
  | tooDeep site => exact .tooDeep site _
  | same => exact .same _

theorem bind (h : Raised s s') {f g : α → Search β} (hfg : ∀ a, Raised (f a) (g a)) :
    Raised (s.bind f) (s'.bind g) := by
  cases h with
  | tooDeep site => exact .tooDeep site _
  | same =>
    cases s with
    | absent => exact .same _
    | tooDeep site => exact .tooDeep site _
    | found a => exact hfg a

end Search.Raised

/-! ### Groups and abbreviations under a higher limit -/

namespace Group

variable {opening closing : Char} {limit limit' : Int}

theorem close_raised (h : limit ≤ limit') (inner : Nat) (cs : List Char) :
    (close opening closing limit inner cs).Raised (close opening closing limit' inner cs) := by
  induction cs generalizing inner with
  | nil => exact .same _
  | cons c cs ih =>
    rw [close.eq_def, close.eq_def]
    dsimp only
    split
    · by_cases hdeep : limit < inner + 2
      · rw [if_pos hdeep]
        exact .tooDeep _ _
      · have hdeep' : ¬ limit' < inner + 2 := by omega
        rw [if_neg hdeep, if_neg hdeep']
        exact (ih (inner + 1)).map _
    · split
      · cases inner with
        | zero => exact .same _
        | succ inner => exact (ih inner).map _
      · exact (ih inner).map _

theorem scan_raised (h : limit ≤ limit') (cs : List Char) :
    (scan opening closing limit cs).Raised (scan opening closing limit' cs) := by
  cases cs with
  | nil => exact .same _
  | cons c cs =>
    rw [scan, scan]
    split
    · by_cases hdeep : limit < 1
      · rw [if_pos hdeep]
        exact .tooDeep _ _
      · have hdeep' : ¬ limit' < 1 := by omega
        rw [if_neg hdeep, if_neg hdeep']
        exact close_raised h 0 cs
    · exact .same _

end Group

namespace Abbreviation

variable {limit limit' : Int}

theorem argument_raised (h : limit ≤ limit') (cs : List Char) :
    (argument limit cs).Raised (argument limit' cs) :=
  Group.scan_raised h _

theorem degree_raised (h : limit ≤ limit') (cs : List Char) :
    (degree limit cs).Raised (degree limit' cs) := by
  have hscan := @Group.scan_raised '[' ']' limit limit' h (Text.skipBlanks cs)
  rw [degree, degree]
  generalize Group.scan '[' ']' limit (Text.skipBlanks cs) = s at hscan
  generalize Group.scan '[' ']' limit' (Text.skipBlanks cs) = s' at hscan
  cases hscan with
  | tooDeep site => exact .tooDeep site _
  | same => exact .same _

theorem fraction_raised (h : limit ≤ limit') (cs : List Char) :
    (fraction limit cs).Raised (fraction limit' cs) := by
  rw [fraction, fraction]
  split
  · exact .same _
  · exact (argument_raised h _).bind fun a => (argument_raised h a.2).map _

theorem root_raised (h : limit ≤ limit') (cs : List Char) :
    (root limit cs).Raised (root limit' cs) := by
  rw [root, root]
  split
  · exact .same _
  · exact (degree_raised h _).bind fun a => (argument_raised h a.2).map _

theorem expand_raised (h : limit ≤ limit') (cs : List Char) :
    (expand limit cs).Raised (expand limit' cs) := by
  have hfraction := fraction_raised h cs
  rw [expand, expand]
  generalize fraction limit cs = s at hfraction
  generalize fraction limit' cs = s' at hfraction
  cases hfraction with
  | tooDeep site => exact .tooDeep site _
  | same =>
    cases s with
    | absent => exact root_raised h cs
    | tooDeep site => exact .same _
    | found text => exact .same _

end Abbreviation

/-- What stands at the front of a text is the same under a higher limit, unless a group nested too
deep. -/
theorem Front.ofText_raise {limit limit' : Int} {cs : List Char} {front : Front}
    (h : limit ≤ limit') (hfront : ofText limit cs = front) (hne : ∀ site, front ≠ .tooDeep site) :
    ofText limit' cs = front := by
  subst hfront
  have hexpand := Abbreviation.expand_raised h cs
  rw [ofText] at hne ⊢
  rw [ofText]
  split at hne
  · rfl
  · generalize Abbreviation.expand limit cs = s at hexpand hne
    generalize Abbreviation.expand limit' cs = s' at hexpand
    cases hexpand with
    | tooDeep site => exact absurd rfl (hne site)
    | same => rfl

/-! ### Opening delimiters -/

namespace Group

variable {opening closing : Char} {limit : Int} {cs site : List Char}

theorem count_of_scan (hne : opening ≠ closing) (h : scan opening closing limit cs = .tooDeep site) :
    limit < cs.count opening := by
  obtain ⟨front, rest, rfl, rfl, hlevel⟩ := exists_of_scan_tooDeep hne h
  rw [level] at hlevel
  rw [List.count_append, List.count_cons_self]
  omega

end Group

namespace Abbreviation

variable {limit : Int} {cs ds text : List Char}

/-- A text with no more opening delimiters of either kind than the limit allows. -/
structure Fits (limit : Int) (cs : List Char) : Prop where
  braces : cs.count '\x7b' ≤ limit
  brackets : cs.count '[' ≤ limit

theorem Fits.of_suffix (h : Fits limit cs) (hsuffix : ds <:+ cs) : Fits limit ds := by
  have hbraces := hsuffix.sublist.count_le '\x7b'
  have hbrackets := hsuffix.sublist.count_le '['
  obtain ⟨_, _⟩ := h
  constructor <;> omega

theorem Fits.expand (h : Fits limit cs) (hexpand : expand limit cs = .found text) :
    Fits limit text := by
  have hbraces := @count_expand _ _ _ hexpand '\x7b' (by decide)
  have hbrackets := @count_expand _ _ _ hexpand '[' (by decide)
  obtain ⟨_, _⟩ := h
  constructor <;> omega

theorem Fits.argument_ne (h : Fits limit cs) (site : List Char) :
    argument limit cs ≠ .tooDeep site := by
  intro hdeep
  have hlt := Group.count_of_scan (by decide) hdeep
  have hle := (h.of_suffix (Text.skipBlanks_suffix cs)).braces
  omega

theorem Fits.degree_ne (h : Fits limit cs) (site : List Char) : degree limit cs ≠ .tooDeep site := by
  intro hdeep
  rw [degree] at hdeep
  split at hdeep
  · cases hdeep
  · have hlt := Group.count_of_scan (by decide) hdeep
    have hle := (h.of_suffix (Text.skipBlanks_suffix cs)).brackets
    omega

theorem Fits.fraction_ne (h : Fits limit cs) (site : List Char) :
    fraction limit cs ≠ .tooDeep site := by
  intro hdeep
  rw [fraction] at hdeep
  split at hdeep
  · cases hdeep
  · next rest hfrac =>
    have hrest : Fits limit rest := h.of_suffix ⟨_, (Text.behind?_eq_some.1 hfrac).symm⟩
    rcases Search.bind_eq_tooDeep.1 hdeep with hnum | ⟨a, hnum, hden⟩
    · exact hrest.argument_ne site hnum
    · exact (hrest.of_suffix (argument_suffix hnum)).argument_ne site (Search.map_eq_tooDeep.1 hden)

theorem Fits.root_ne (h : Fits limit cs) (site : List Char) : root limit cs ≠ .tooDeep site := by
  intro hdeep
  rw [root] at hdeep
  split at hdeep
  · cases hdeep
  · next rest hroot =>
    have hrest : Fits limit rest := h.of_suffix ⟨_, (Text.behind?_eq_some.1 hroot).symm⟩
    rcases Search.bind_eq_tooDeep.1 hdeep with hdegree | ⟨a, hdegree, hrad⟩
    · exact hrest.degree_ne site hdegree
    · exact (hrest.of_suffix (degree_suffix hdegree)).argument_ne site
        (Search.map_eq_tooDeep.1 hrad)

end Abbreviation

/-- Nothing at the front of a text nests too deep where its delimiters are no more than the limit. -/
theorem Front.ofText_ne_tooDeep {limit : Int} {cs : List Char} (h : Abbreviation.Fits limit cs)
    (site : List Char) : ofText limit cs ≠ .tooDeep site := by
  intro hdeep
  have hexpand := Front.expand_of_tooDeep hdeep
  rw [Abbreviation.expand] at hexpand
  split at hexpand
  · exact h.root_ne site hexpand
  · exact h.fraction_ne site hexpand

/-! ### Reading under a higher limit -/

/-- An error about groups that nest too deep. -/
def LexicalError.isTooDeep : LexicalError → Bool
  | .tooDeep .. => true
  | _ => false

namespace Lexing

variable {limit limit' : Int}

/-- A text read under a limit, and the same text read under a higher one: they come to the same unless
a group nested too deep; then reading goes on behind the tokens before it. -/
inductive Raised : Lexing → Lexing → Prop
  | tooDeep {e : LexicalError} (h : e.isTooDeep) (ts us : List Token) (error : Option LexicalError) :
      Raised ⟨ts, some e⟩ ⟨ts ++ us, error⟩
  | same (l : Lexing) : Raised l l

theorem Raised.prepend {l l' : Lexing} (h : Raised l l') (ts : List Token) :
    Raised (l.prepend ts) (l'.prepend ts) := by
  cases h with
  | tooDeep h us vs error =>
    have hraised := Raised.tooDeep h (ts ++ us) vs error
    rw [List.append_assoc] at hraised
    exact hraised
  | same => exact .same _

theorem ofCursor_raised (h : limit ≤ limit') (c : Cursor) :
    Raised (ofCursor limit c) (ofCursor limit' c) := by
  induction c using ofCursor_induction limit with
  | done c hnil =>
    rw [ofCursor_done hnil, ofCursor_done hnil]
    exact .same _
  | token c token written rest hfront ih =>
    rw [ofCursor_token hfront, ofCursor_token (Front.ofText_raise h hfront nofun)]
    exact ih.prepend [token]
  | expanded c text hfront ih =>
    rw [ofCursor_expanded hfront, ofCursor_expanded (Front.ofText_raise h hfront nofun)]
    exact ih
  | longNumeral c digits written rest hne hfront =>
    rw [ofCursor_longNumeral hne hfront,
      ofCursor_longNumeral hne (Front.ofText_raise h hfront nofun)]
    exact .same _
  | tooDeep c site hne hfront =>
    rw [ofCursor_tooDeep hne hfront]
    exact .tooDeep rfl [] _ _
  | foreign c hne hfront =>
    rw [ofCursor_foreign hne hfront, ofCursor_foreign hne (Front.ofText_raise h hfront nofun)]
    exact .same _

/-- No group nests too deep where the delimiters ahead are no more than the limit. -/
theorem ofCursor_fits {c : Cursor} (h : Abbreviation.Fits limit c.ahead) :
    ∀ e ∈ (ofCursor limit c).error, ¬ e.isTooDeep := by
  induction c using ofCursor_induction limit with
  | done c hnil =>
    rw [ofCursor_done hnil]
    exact nofun
  | token c token written rest hfront ih =>
    rw [ofCursor_token hfront]
    have hsuffix : rest <:+ Text.skipBlanks c.ahead := ⟨written, (Front.lexeme_append hfront).1⟩
    exact ih (h.of_suffix (hsuffix.trans (Text.skipBlanks_suffix c.ahead)))
  | expanded c text hfront ih =>
    rw [ofCursor_expanded hfront]
    exact ih ((h.of_suffix (Text.skipBlanks_suffix c.ahead)).expand (Front.expanded_iff.1 hfront))
  | longNumeral c digits written rest hne hfront =>
    rw [ofCursor_longNumeral hne hfront]
    rintro _ ⟨⟩
    exact nofun
  | tooDeep c site hne hfront =>
    exact absurd hfront
      (Front.ofText_ne_tooDeep (h.of_suffix (Text.skipBlanks_suffix c.ahead)) site)
  | foreign c hne hfront =>
    rw [ofCursor_foreign hne hfront]
    rintro _ ⟨⟩
    exact nofun

theorem ofText_raised (h : limit ≤ limit') (cs : List Char) :
    Raised (ofText limit cs) (ofText limit' cs) :=
  ofCursor_raised h (Cursor.ofText cs)

theorem ofText_fits {cs : List Char} (h : Abbreviation.Fits limit cs) :
    ∀ e ∈ (ofText limit cs).error, ¬ e.isTooDeep :=
  @ofCursor_fits limit (Cursor.ofText cs) h

end Lexing

end Reckon
