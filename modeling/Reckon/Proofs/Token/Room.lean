import Reckon.Proofs.Token.Balance
import Reckon.Proofs.Token.Expansion

/-!
How long reading takes, and how many tokens there can be.

An expansion may put in more characters than it takes away: the plain text of a root is longer than
the root. What makes it longer is the root spelled out, which is four characters and one token, and
always stands behind a space. So a text has room for as many tokens as it has characters that are no
blanks, where a root spelled out behind a space counts as one. Then no expansion makes room, and every
token takes some. Besides, an expansion takes a backslash away and puts none in.

    \sqrt{A}             room  7 + A        backslashes  1 + A
    (A) sqrt (2)         room  6 + A        backslashes      A
-/

namespace Reckon

/-- The number of tokens that a text has room for. -/
def room : List Char → Nat
  | [] => 0
  | ' ' :: 's' :: 'q' :: 'r' :: 't' :: cs => room cs + 1
  | c :: cs => room cs + if Text.isBlank c then 0 else 1

variable {c opening closing : Char} {cs xs ys zs u w content rest : List Char}

theorem room_cons (h : ∀ rest, c = ' ' → cs ≠ 's' :: 'q' :: 'r' :: 't' :: rest) :
    room (c :: cs) = room cs + if Text.isBlank c then 0 else 1 :=
  room.eq_3 c cs h

theorem room_append_of_not_blank (hw : w.all (!Text.isBlank ·)) (cs : List Char) :
    room (w ++ cs) = room cs + w.length := by
  induction w with
  | nil => rfl
  | cons c w ih =>
    rw [List.all_cons, Bool.and_eq_true, Bool.not_eq_true'] at hw
    obtain ⟨hc, hw⟩ := hw
    have hspace : c ≠ ' ' := by
      rintro rfl
      cases hc
    rw [List.cons_append, room_cons fun _ heq => absurd heq hspace, if_neg (Bool.eq_false_iff.1 hc),
      ih hw, List.length_cons, Nat.add_assoc]

theorem room_cons_le (c : Char) (cs : List Char) :
    room (c :: cs) ≤ room cs + if Text.isBlank c then 0 else 1 := by
  by_cases h : ∃ rest, c = ' ' ∧ cs = 's' :: 'q' :: 'r' :: 't' :: rest
  · obtain ⟨rest, rfl, rfl⟩ := h
    have hroot : room ('s' :: 'q' :: 'r' :: 't' :: rest) = room rest + 4 :=
      room_append_of_not_blank (w := ['s', 'q', 'r', 't']) (by decide) rest
    rw [room, hroot]
    omega
  · exact Nat.le_of_eq (room_cons fun rest hc hcs => h ⟨rest, hc, hcs⟩)

theorem room_le_length (cs : List Char) : room cs ≤ cs.length := by
  induction cs with
  | nil => exact Nat.le_refl 0
  | cons c cs ih =>
    refine (room_cons_le c cs).trans ?_
    rw [List.length_cons]
    split <;> omega

theorem room_append_le (xs ys : List Char) : room (xs ++ ys) ≤ room xs + room ys := by
  fun_induction room xs with
  | case1 => simp
  | case2 xs ih =>
    show room (xs ++ ys) + 1 ≤ _
    omega
  | case3 c xs _ ih =>
    refine (room_cons_le c (xs ++ ys)).trans ?_
    omega

/-! ### Delimiters and blanks -/

theorem Text.isBlank_of_isDelimiter (h : isDelimiter c) : isBlank c = false := by
  rcases isDelimiter_cases h with rfl | rfl | rfl | rfl <;> decide

theorem Text.not_mem_root_of_isDelimiter (h : isDelimiter c) : c ∉ ['s', 'q', 'r', 't'] := by
  rcases isDelimiter_cases h with rfl | rfl | rfl | rfl <;> decide

/-- A delimiter stands between two texts that have their room each for itself. -/
theorem room_append_delimiter (hc : Text.isDelimiter c) (xs ys : List Char) :
    room (xs ++ c :: ys) = room xs + room ys + 1 := by
  have hdelimiter : room (c :: ys) = room ys + 1 :=
    room_append_of_not_blank (w := [c]) (by simp [Text.isBlank_of_isDelimiter hc]) ys
  fun_induction room xs with
  | case1 => rw [List.nil_append, hdelimiter, Nat.zero_add]
  | case2 xs ih =>
    show room (xs ++ c :: ys) + 1 = _
    omega
  | case3 d xs hroot ih =>
    rw [List.cons_append, room_cons]
    · omega
    rintro rest hd heq
    have happ : ['s', 'q', 'r', 't'] ++ rest = xs ++ c :: ys := heq.symm
    rcases List.append_eq_append_iff.1 happ with ⟨more, hxs, _⟩ | ⟨more, hmore, hrest⟩
    · exact hroot more hd hxs
    · cases more with
      | nil => exact hroot [] hd (by rw [← List.append_nil xs, ← hmore])
      | cons e more =>
        obtain ⟨rfl, _⟩ := List.cons.inj hrest
        refine Text.not_mem_root_of_isDelimiter hc ?_
        rw [hmore]
        exact List.mem_append_right xs (List.mem_cons_self ..)

/-- Blanks in front take no room, but they may make one token of a root that is spelled out. -/
theorem room_blanks (hu : ∀ c ∈ u, Text.isBlank c) (cs : List Char) :
    room (u ++ cs) = room cs ∨
      ∃ rest, cs = 's' :: 'q' :: 'r' :: 't' :: rest ∧ room (u ++ cs) = room rest + 1 := by
  induction u with
  | nil => exact .inl rfl
  | cons b u ih =>
    obtain ⟨hb, hblanks⟩ := List.forall_mem_cons.1 hu
    by_cases h : ∃ rest, b = ' ' ∧ u ++ cs = 's' :: 'q' :: 'r' :: 't' :: rest
    · obtain ⟨rest, rfl, hroot⟩ := h
      cases u with
      | nil => exact .inr ⟨rest, hroot, by rw [List.cons_append, hroot, room]⟩
      | cons d u =>
        obtain ⟨rfl, _⟩ := List.cons.inj hroot
        exact absurd (hblanks 's' (List.mem_cons_self ..)) (by decide)
    · have hskip : room (b :: (u ++ cs)) = room (u ++ cs) := by
        rw [room_cons fun rest hc hcs => h ⟨rest, hc, hcs⟩, if_pos hb, Nat.add_zero]
      rw [List.cons_append, hskip]
      exact ih hblanks

theorem room_blanks_cons (hu : ∀ c ∈ u, Text.isBlank c) (hc : c ≠ 's') (cs : List Char) :
    room (u ++ c :: cs) = room (c :: cs) := by
  rcases room_blanks hu (c :: cs) with hsame | ⟨rest, heq, _⟩
  · exact hsame
  · exact absurd (List.cons.inj heq).1 hc

/-- A group makes room for what it holds and for its delimiters. -/
theorem room_group (ho : Text.isDelimiter opening) (hc : Text.isDelimiter closing)
    (hu : ∀ c ∈ u, Text.isBlank c) (content rest : List Char) :
    room (u ++ opening :: (content ++ closing :: rest)) = room content + room rest + 2 := by
  have hs : opening ≠ 's' := by
    rintro rfl
    cases ho
  have hgroup : room (opening :: (content ++ closing :: rest)) = _ :=
    room_append_delimiter ho [] (content ++ closing :: rest)
  rw [room_blanks_cons hu hs, hgroup, room_append_delimiter hc, room]
  omega

/-- Two operands in parentheses, and an operator between them. -/
theorem room_operands_le (s : List Char) :
    room (['('] ++ (xs ++ (s ++ (ys ++ ([')', ' '] ++ zs))))) ≤
      room xs + room s + room ys + room zs + 2 := by
  have hopen : room ['('] = 1 := rfl
  have hclose : room [')', ' '] = 1 := rfl
  have h₁ := room_append_le ['('] (xs ++ (s ++ (ys ++ ([')', ' '] ++ zs))))
  have h₂ := room_append_le xs (s ++ (ys ++ ([')', ' '] ++ zs)))
  have h₃ := room_append_le s (ys ++ ([')', ' '] ++ zs))
  have h₄ := room_append_le ys ([')', ' '] ++ zs)
  have h₅ := room_append_le [')', ' '] zs
  omega

/-! ### Expansions and tokens -/

namespace Abbreviation

variable {limit : Int} {text : List Char}

/-- No expansion makes room. -/
theorem room_expand_le (h : expand limit cs = .found text) : room text ≤ room cs := by
  rcases expand_eq_found_iff.1 h with h | h
  · obtain ⟨u, num, v, den, rest, hu, hv, _, _, rfl, rfl⟩ := fraction_eq_found_iff.1 h
    have hcs : "\\frac".toList ++ u ++ '\x7b' :: num ++ '\x7d' :: v ++ '\x7b' :: den ++
          '\x7d' :: rest =
        "\\frac".toList ++ (u ++ '\x7b' :: (num ++ '\x7d' :: (v ++ '\x7b' :: (den ++
          '\x7d' :: rest)))) := by simp
    have htext : fractionText num den ++ rest =
        ['('] ++ (num ++ ([')', ' ', '/', ' ', '('] ++ (den ++ ([')', ' '] ++ rest)))) := by
      simp [fractionText]
    -- beside its operands the plain text needs room for five, and the command's name alone has it
    have hover : room [')', ' ', '/', ' ', '('] = 3 := by decide
    have hle := @room_operands_le num den rest [')', ' ', '/', ' ', '(']
    rw [htext]
    refine hle.trans ?_
    rw [hcs, room_append_of_not_blank (by decide), room_group rfl rfl hu,
      room_group rfl rfl hv, hover]
    show _ ≤ _ + 5
    omega
  · obtain ⟨deg, radicand, rest, _, rfl, hshape⟩ := root_eq_found_iff.1 h
    have htext : rootText deg radicand ++ rest =
        ['('] ++ (radicand ++ ([')', ' ', 's', 'q', 'r', 't', ' ', '('] ++
          (deg ++ ([')', ' '] ++ rest)))) := by
      simp [rootText]
    have hover : room [')', ' ', 's', 'q', 'r', 't', ' ', '('] = 3 := by decide
    have hle := @room_operands_le radicand deg rest [')', ' ', 's', 'q', 'r', 't', ' ', '(']
    rw [htext]
    refine hle.trans ?_
    rw [hover]
    rcases hshape with ⟨u, hu, rfl, rfl⟩ | ⟨u, v, hu, hv, _, rfl⟩
    · have hcs : "\\sqrt".toList ++ u ++ '\x7b' :: radicand ++ '\x7d' :: rest =
          "\\sqrt".toList ++ (u ++ '\x7b' :: (radicand ++ '\x7d' :: rest)) := by simp
      have htwo : room ['2'] = 1 := by decide
      rw [hcs, room_append_of_not_blank (by decide), room_group rfl rfl hu, htwo]
      show _ ≤ _ + 5
      omega
    · have hcs : "\\sqrt".toList ++ u ++ '[' :: deg ++ ']' :: v ++ '\x7b' :: radicand ++
            '\x7d' :: rest =
          "\\sqrt".toList ++ (u ++ '[' :: (deg ++ ']' :: (v ++ '\x7b' :: (radicand ++
            '\x7d' :: rest)))) := by simp
      rw [hcs, room_append_of_not_blank (by decide), room_group rfl rfl hu,
        room_group rfl rfl hv]
      show _ ≤ _ + 5
      omega

theorem backslashes_expand_lt (h : expand limit cs = .found text) :
    backslashes text < backslashes cs :=
  @count_expand _ _ _ h '\\' (by decide)

end Abbreviation

theorem Front.not_isBlank {limit : Int} {written : List Char} {token : Token}
    (h : ofText limit cs = .lexeme token written rest) : ∀ c ∈ written, !Text.isBlank c :=
  written_not (by decide +kernel) (fun _ => Text.not_isWordChar_of_isBlank) (by decide) h

/-- A token takes room. -/
theorem Front.room_lt {limit : Int} {written : List Char} {token : Token}
    (h : ofText limit (Text.skipBlanks cs) = .lexeme token written rest) : room rest < room cs := by
  obtain ⟨u, hu, hcs⟩ := Text.exists_blanks cs
  obtain ⟨happ, hne⟩ := lexeme_append h
  have hpos := List.length_pos_iff.2 hne
  rcases room_blanks hu (Text.skipBlanks cs) with hsame | ⟨behind, hroot, hone⟩
  · have hwritten := room_append_of_not_blank (List.all_eq_true.2 (not_isBlank h)) rest
    rw [happ] at hwritten
    rw [hcs, hsame]
    omega
  · -- the token is the root that the blanks stand before
    have hspelled : ofText limit ('s' :: 'q' :: 'r' :: 't' :: behind) = .lexeme _ _ behind :=
      ofText_spelling Token.root_mem behind
    rw [hroot, hspelled] at h
    obtain ⟨_, _, rfl⟩ := Front.lexeme.inj h
    rw [hcs, hone]
    exact Nat.lt_succ_self _

/-! ### Turns of the reading loop -/

namespace Cursor

variable {limit : Int} {c d e : Cursor} {n m : Nat} {ts us : List Token} {token : Token}

/-- One turn of the loop that reads: an abbreviation behind the blanks is expanded in its place, or a
token there is taken. -/
inductive Turn (limit : Int) (c : Cursor) : Option Token → Cursor → Prop
  | expand {text : List Char} : Front.ofText limit c.skipBlanks.ahead = .expanded text →
      Turn limit c none ⟨c.skipBlanks.behind, text⟩
  | take {token : Token} {written rest : List Char} :
      Front.ofText limit c.skipBlanks.ahead = .lexeme token written rest →
      Turn limit c (some token) (c.skipBlanks.pass written rest)

/-- Turns one after another, with the number of expansions and the tokens that are taken. -/
inductive Turns (limit : Int) : Cursor → Nat → List Token → Cursor → Prop
  | none (c : Cursor) : Turns limit c 0 [] c
  | expand {c d e : Cursor} {n : Nat} {ts : List Token} :
      Turn limit c none d → Turns limit d n ts e → Turns limit c (n + 1) ts e
  | take {c d e : Cursor} {n : Nat} {ts : List Token} {token : Token} :
      Turn limit c (some token) d → Turns limit d n ts e → Turns limit c n (token :: ts) e

/-- An expansion uses up a backslash, and makes no room. -/
theorem Turn.le_of_expand (h : Turn limit c none d) :
    Abbreviation.backslashes d.ahead < Abbreviation.backslashes c.ahead ∧
      room d.ahead ≤ room c.ahead := by
  cases h with
  | expand hfront =>
    obtain ⟨u, hu, hcs⟩ := Text.exists_blanks c.ahead
    have hexpand := Front.expanded_iff.1 hfront
    have hskip : Abbreviation.backslashes (Text.skipBlanks c.ahead) ≤
        Abbreviation.backslashes c.ahead :=
      (Text.skipBlanks_suffix c.ahead).sublist.count_le _
    obtain ⟨rest, hslash⟩ := Abbreviation.exists_backslash hexpand
    have hroom : room c.ahead = room (Text.skipBlanks c.ahead) := by
      have hskip : Text.skipBlanks c.ahead = '\\' :: rest := hslash
      rw [hskip] at hcs ⊢
      rw [hcs]
      exact room_blanks_cons hu (by decide) rest
    exact ⟨Nat.lt_of_lt_of_le (Abbreviation.backslashes_expand_lt hexpand) hskip,
      hroom ▸ Abbreviation.room_expand_le hexpand⟩

/-- A token takes room, and no backslash is put in for it. -/
theorem Turn.le_of_take (h : Turn limit c (some token) d) :
    Abbreviation.backslashes d.ahead ≤ Abbreviation.backslashes c.ahead ∧
      room d.ahead < room c.ahead := by
  cases h with
  | @take _ written rest hfront =>
    have hsuffix : rest <:+ c.ahead :=
      List.IsSuffix.trans ⟨written, (Front.lexeme_append hfront).1⟩ (Text.skipBlanks_suffix c.ahead)
    exact ⟨hsuffix.sublist.count_le _, Front.room_lt hfront⟩

/-- Every expansion uses up a backslash, and every token some room. -/
theorem Turns.le (h : Turns limit c n ts d) :
    n + Abbreviation.backslashes d.ahead ≤ Abbreviation.backslashes c.ahead ∧
      ts.length + room d.ahead ≤ room c.ahead := by
  induction h with
  | none c => simp
  | expand hturn _ ih =>
    have hle := hturn.le_of_expand
    omega
  | take hturn _ ih =>
    have hle := hturn.le_of_take
    rw [List.length_cons]
    omega

theorem Turns.append (h : Turns limit c n ts d) (h' : Turns limit d m us e) :
    Turns limit c (n + m) (ts ++ us) e := by
  induction h with
  | none c => simpa using h'
  | expand hturn _ ih =>
    rw [Nat.add_right_comm]
    exact .expand hturn (ih h')
  | take hturn _ ih => exact .take hturn (ih h')

theorem fetch_of_expand (h : Turn limit c none d) : c.fetch limit = d.fetch limit := by
  cases h with
  | expand hfront => rw [Lexing.fetch_eq (Lexing.ne_nil_of_expanded hfront), hfront]

theorem fetch_of_take (h : Turn limit c (some token) d) : c.fetch limit = .token token d := by
  cases h with
  | take hfront => rw [Lexing.fetch_eq (Lexing.ne_nil_of_lexeme hfront), hfront]

/-- Where nothing is expanded, a token is returned by the turn that takes it. -/
theorem turn_of_fetch (hend : ∀ e, ¬ Turn limit c none e) (h : c.fetch limit = .token token d) :
    Turn limit c (some token) d := by
  by_cases hnil : c.skipBlanks.ahead = []
  · rw [fetch, if_pos hnil] at h
    cases h
  rw [Lexing.fetch_eq hnil] at h
  cases hfront : Front.ofText limit c.skipBlanks.ahead with
  | lexeme token' written rest =>
    rw [hfront] at h
    obtain ⟨rfl, rfl⟩ := Fetch.token.inj h
    exact .take hfront
  | expanded text => exact absurd (.expand hfront) (hend _)
  | longNumeral digits written rest =>
    rw [hfront] at h
    cases h
  | tooDeep site =>
    rw [hfront] at h
    cases h
  | foreign =>
    rw [hfront] at h
    cases h

/-- A call expands as long as there is something to expand; then it returns from where it stands. -/
theorem exists_turns_fetch (limit : Int) (c : Cursor) :
    ∃ n d, Turns limit c n [] d ∧ (∀ e, ¬ Turn limit d none e) ∧ c.fetch limit = d.fetch limit := by
  induction hcount : Abbreviation.backslashes c.ahead using Nat.strong_induction_on generalizing c with
  | _ k ih =>
    subst hcount
    by_cases h : ∃ d, Turn limit c none d
    · obtain ⟨d, hturn⟩ := h
      obtain ⟨n, e, hturns, hend, hfetch⟩ := ih _ hturn.le_of_expand.1 d rfl
      exact ⟨n + 1, e, .expand hturn hturns, hend, (fetch_of_expand hturn).trans hfetch⟩
    · exact ⟨0, c, .none c, fun e he => h ⟨e, he⟩, rfl⟩

/-- All calls together take the turns up to a place where no turn is left. -/
theorem exists_turns (limit : Int) (c : Cursor) :
    ∃ n d, Turns limit c n (Lexing.ofCursor limit c).tokens d ∧ (∀ token? e, ¬ Turn limit d token? e) ∧
      (d.fetch limit).error? = (Lexing.ofCursor limit c).error := by
  -- expansions make no room and a token takes some, so the calls come to an end
  induction hroom : room c.ahead using Nat.strong_induction_on generalizing c with
  | _ k ih =>
    subst hroom
    obtain ⟨n, d, hturns, hend, hfetch⟩ := exists_turns_fetch limit c
    rw [Lexing.ofCursor, Lexing.fetches_eq, hfetch]
    cases hlast : d.fetch limit with
    | token token after =>
      have htake := turn_of_fetch hend hlast
      have hlt : room after.ahead < room c.ahead := by
        have hle := hturns.le
        have htaken := htake.le_of_take
        omega
      obtain ⟨m, e, hmore, hstuck, herror⟩ := ih _ hlt after rfl
      exact ⟨n + m, e, hturns.append (.take htake hmore), hstuck, herror⟩
    | done after =>
      refine ⟨n, d, hturns, ?_, by rw [hlast]; rfl⟩
      rintro (_ | token) e hturn
      · exact hend e hturn
      · rw [fetch_of_take hturn] at hlast
        cases hlast
    | failed error after =>
      refine ⟨n, d, hturns, ?_, by rw [hlast]; rfl⟩
      rintro (_ | token) e hturn
      · exact hend e hturn
      · rw [fetch_of_take hturn] at hlast
        cases hlast

end Cursor

/-- Every call ends, after no more expansions than there are backslashes ahead. However far a text is
read, no more abbreviations are expanded than it has backslashes, and no more tokens are returned than
it has characters; and it is read to its end or to its first error. -/
theorem Lexing.turns_le (limit : Int) (source : String) :
    (∀ c : Cursor, ∃ n d, c.Turns limit n [] d ∧ n ≤ c.ahead.count '\\' ∧
      (∀ e, ¬ d.Turn limit none e) ∧ c.fetch limit = d.fetch limit) ∧
    (∀ n ts d, (Cursor.ofText source.toList).Turns limit n ts d →
      n ≤ source.toList.count '\\' ∧ ts.length ≤ source.length) ∧
    ∃ n d, (Cursor.ofText source.toList).Turns limit n (ofText limit source.toList).tokens d ∧
      (∀ token? e, ¬ d.Turn limit token? e) ∧
      (d.fetch limit).error? = (ofText limit source.toList).error := by
  refine ⟨fun c => ?_, fun n ts d h => ?_, Cursor.exists_turns limit _⟩
  · obtain ⟨n, d, hturns, hend, hfetch⟩ := Cursor.exists_turns_fetch limit c
    exact ⟨n, d, hturns, (Nat.le_add_right _ _).trans hturns.le.1, hend, hfetch⟩
  · obtain ⟨hexpansions, htokens⟩ := h.le
    have hroom := room_le_length source.toList
    rw [String.length_toList] at hroom
    exact ⟨(Nat.le_add_right _ _).trans hexpansions,
      (Nat.le_add_right _ _).trans (htokens.trans hroom)⟩

set_option maxRecDepth 100000 in
/-- A root in a root has thirteen tokens in its fifteen characters. -/
theorem Lexing.turns_le_roots :
    let source := "\\sqrt\x7b\\sqrt\x7bx\x7d\x7d"
    let ts : List Token := [.opening, .opening, .operand (.name "x"), .closing, .operator .root,
      .opening, .operand (.number (.int 2)), .closing, .closing, .operator .root, .opening,
      .operand (.number (.int 2)), .closing]
    ∃ n d, (Cursor.ofText source.toList).Turns 2 n ts d ∧ n ≤ 2 ∧ ts.length ≤ 15 := by
  intro source ts
  have htokens : tokenize 2 source = .ok ts := by decide +kernel
  obtain ⟨_, hle, n, d, hturns, _, _⟩ := turns_le 2 source
  rw [tokenize_eq_ok.1 htokens] at hturns
  have hbounds := hle n ts d hturns
  have hcount : source.toList.count '\\' = 2 := by decide +kernel
  have hlength : source.length = 15 := by decide +kernel
  rw [hcount, hlength] at hbounds
  exact ⟨n, d, hturns, hbounds⟩

end Reckon
