import Reckon.Proofs.Formula.Text
import Reckon.Proofs.Program.Operands

/-!
The places of a text where values are put in.

A text is made of places, each a name that has a value, and of stretches that are kept. A name has a
place for each of its instructions, but for one kind: where a name is written directly behind an
operator that is spelled in letters, the reader cuts between the two and the word they form together
is kept.

    2 \cdot x + \cdotx      x = 4      ──▶     2 \cdot 4 + \cdotx
            place    kept

To count the places of a name, marks are put in for it: one digit seven more than the name has itself.
Each place then adds one seven to the text. An abbreviation has as many sevens as its plain text,
before the marks are put in and after it, so to expand it changes nothing about the count.
-/

namespace Reckon

/-! ### Names behind operators in letters -/

/-- The name that is read at the front of a text, if one is. -/
def Front.name? : Front → Option String
  | .lexeme (.operand (.name s)) _ _ => some s
  | _ => none

/-- The names that are written directly behind an operator that is spelled in letters, in the order in
which the text is read. -/
def gluedNames (limit : Int) (cs : List Char) : List String :=
  match _h : Front.ofText limit (Text.skipBlanks cs) with
  | .lexeme _ written rest =>
    (if written ∈ ["sqrt".toList, "\\times".toList, "\\cdot".toList] then
      (Front.ofText limit rest).name?.toList else []) ++ gluedNames limit rest
  | .expanded text => gluedNames limit text
  | _ => []
termination_by Abbreviation.weight cs
decreasing_by
  · exact Nat.lt_of_lt_of_le (Front.lexeme_weight _h)
      (Abbreviation.weight_le_of_suffix (Text.skipBlanks_suffix cs))
  · exact Nat.lt_of_lt_of_le (Front.expanded_weight _h)
      (Abbreviation.weight_le_of_suffix (Text.skipBlanks_suffix cs))

section GluedNames

variable {limit : Int} {cs written rest text : List Char} {token : Token}

theorem Front.name?_eq_some {front : Front} {s : String} :
    front.name? = some s ↔ ∃ written rest, front = .lexeme (.operand (.name s)) written rest := by
  constructor
  · intro h
    match front, h with
    | .lexeme (.operand (.name _)) written rest, h =>
      obtain rfl := Option.some.inj h
      exact ⟨written, rest, rfl⟩
  · rintro ⟨written, rest, rfl⟩
    rfl

theorem Front.not_lettered {a : Operand} (h : ofText limit cs = .lexeme (.operand a) written rest) :
    written ∉ ["sqrt".toList, "\\times".toList, "\\cdot".toList] := by
  obtain ⟨rfl, _⟩ := lexeme_append h
  have hclash : ∀ s op, (s, Token.operator op) ∈ Token.spellings → written ≠ s.toList := by
    rintro s op hs rfl
    rw [ofText_spelling hs] at h
    cases h
  simp only [List.mem_cons, List.not_mem_nil, or_false, not_or]
  exact ⟨hclash "sqrt" .root (by simp [Token.spellings]),
    hclash "\\times" .multiply (by simp [Token.spellings]),
    hclash "\\cdot" .multiply (by simp [Token.spellings])⟩

theorem gluedNames_lexeme (h : Front.ofText limit (Text.skipBlanks cs) = .lexeme token written rest) :
    gluedNames limit cs =
      (if written ∈ ["sqrt".toList, "\\times".toList, "\\cdot".toList] then
        (Front.ofText limit rest).name?.toList else []) ++ gluedNames limit rest := by
  rw [gluedNames]
  split
  · next heq =>
    rw [h] at heq
    obtain ⟨_, rfl, rfl⟩ := Front.lexeme.inj heq
    rfl
  · next heq =>
    rw [h] at heq
    cases heq
  · next hnot _ => exact absurd h (hnot _ _ _)

theorem gluedNames_expanded (h : Front.ofText limit (Text.skipBlanks cs) = .expanded text) :
    gluedNames limit cs = gluedNames limit text := by
  rw [gluedNames]
  split
  · next heq =>
    rw [h] at heq
    cases heq
  · next heq =>
    rw [h] at heq
    obtain rfl := Front.expanded.inj heq
    rfl
  · next hnot => exact absurd h (hnot _)

theorem gluedNames_blank (h : Text.skipBlanks cs = []) : gluedNames limit cs = [] := by
  rw [gluedNames, h]
  rfl

/-- There are such names exactly where a name is glued to an operator. -/
theorem gluedNames_eq_nil : gluedNames limit cs = [] ↔ ¬ Glued limit cs := by
  constructor
  -- a glued name stands in the list at its own step, and no later step takes it out
  · intro h hglued
    induction hglued with
    | here hfront hletters hname =>
      rw [gluedNames_lexeme hfront, if_pos hletters, hname] at h
      cases h
    | token hfront _ ih =>
      rw [gluedNames_lexeme hfront] at h
      exact ih (List.append_eq_nil_iff.1 h).2
    | expanded hfront _ ih =>
      rw [gluedNames_expanded hfront] at h
      exact ih h
  · intro hglued
    fun_induction gluedNames limit cs with
    | case1 cs token written rest hfront ih =>
      rw [ih fun hmore => hglued (.token hfront hmore), List.append_nil]
      split
      · next hletters =>
        cases hname : (Front.ofText limit rest).name? with
        | none => rfl
        | some s =>
          obtain ⟨_, _, hfront'⟩ := Front.name?_eq_some.1 hname
          exact absurd (.here hfront hletters hfront') hglued
      · rfl
    | case2 cs text hfront ih => exact ih fun hmore => hglued (.expanded hfront hmore)
    | case3 => rfl

end GluedNames

namespace Substitution

/-! ### Places and stretches -/

/-- A part of a text: a stretch that is kept, or a name in the place of which its value is put. -/
inductive Piece where
  | kept (cs : List Char)
  | place (s : String)
  deriving DecidableEq, Repr

namespace Piece

/-- The part as it stands in the text. -/
def source : Piece → List Char
  | .kept cs => cs
  | .place s => s.toList

/-- The part with the value in its place. -/
def filled (v : Valuation) : Piece → List Char
  | .kept cs => cs
  | .place s => (((v s).bind Number.substituteText?).getD "").toList

end Piece

/-- The parts of a text where some names have values; `command` tells whether a backslash stands before
the text. -/
def pieces (isBound : String → Bool) (command : Bool) : List Char → List Piece
  | [] => []
  | c :: cs =>
    if Text.isWordChar c then
      let word := c :: cs.takeWhile Text.isWordChar
      (if !command && isBound (String.ofList word) then .place (String.ofList word)
        else .kept word) :: pieces isBound false (cs.dropWhile Text.isWordChar)
    else .kept [c] :: pieces isBound (c == '\\') cs
termination_by cs => cs.length
decreasing_by
  · exact Nat.lt_succ_of_le (List.dropWhile_suffix _).length_le
  · simp

variable {isBound : String → Bool} {command : Bool} {cs : List Char}

theorem flatMap_source_pieces (isBound : String → Bool) (command : Bool) (cs : List Char) :
    (pieces isBound command cs).flatMap Piece.source = cs := by
  fun_induction pieces isBound command cs with
  | case1 command => rfl
  | case2 command c cs hc word ih =>
    have hsplit : word ++ cs.dropWhile Text.isWordChar = c :: cs :=
      congrArg (c :: ·) List.takeWhile_append_dropWhile
    rw [List.flatMap_cons, ih, ← hsplit]
    split
    · rw [Piece.source, String.toList_ofList]
    · rfl
  | case3 command c cs hc ih => rw [List.flatMap_cons, ih, Piece.source, List.singleton_append]

/-- With the values in their places they make up the text with the values put in. -/
theorem flatMap_filled_pieces (v : Valuation) (command : Bool) (cs : List Char) :
    (pieces (fun s => (v s).isSome) command cs).flatMap (Piece.filled v) =
      replaceWords (valueOf v) command cs := by
  fun_induction pieces (fun s => (v s).isSome) command cs with
  | case1 command => rw [replaceWords]; rfl
  | case2 command c cs hc word ih =>
    rw [List.flatMap_cons, ih, replaceWords_word hc]
    congr 1
    cases command with
    | true => rfl
    | false =>
      rw [valueOf]
      cases hv : v (String.ofList word) with
      | none => rfl
      | some n => exact congrArg (fun o => ((o.bind Number.substituteText?).getD "").toList) hv
  | case3 command c cs hc ih =>
    rw [List.flatMap_cons, ih, replaceWords_cons_of_not hc, Piece.filled, List.singleton_append]

/-- Each place is a name that has a value. -/
theorem isBound_of_place {s : String} (h : .place s ∈ pieces isBound command cs) : isBound s := by
  fun_induction pieces isBound command cs with
  | case1 command => cases h
  | case2 command c cs hc word ih =>
    rcases List.mem_cons.1 h with heq | hmem
    · split at heq
      · next hbound =>
        obtain rfl := Piece.place.inj heq
        exact (Bool.and_eq_true_iff.1 hbound).2
      · cases heq
    · exact ih hmem
  | case3 command c cs hc ih =>
    rcases List.mem_cons.1 h with heq | hmem
    · cases heq
    · exact ih hmem

/-! ### Counting places by marks -/

/-- What is put in for a name to count its places. -/
def mark (s : String) (w : List Char) : Option (List Char) :=
  if w = s.toList then some (List.replicate (s.toList.count '7' + 1) '7') else none

theorem proper_mark {s : String} (hs : IsName s.toList) : Proper (mark s) := by
  constructor
  · intro w t h
    rw [mark] at h
    split at h
    · next heq => exact heq ▸ hs
    · cases h
  · intro w t h
    rw [mark] at h
    split at h
    · obtain rfl := Option.some.inj h
      have hplain : Numeral.Plain ⟨List.replicate (s.toList.count '7' + 1) '7', [], none⟩ :=
        ⟨nofun, fun c hc => List.eq_of_mem_replicate hc ▸ rfl, nofun, nofun⟩
      refine ⟨false, _, hplain, ?_⟩
      simp [Number.signedText, Numeral.text, Numeral.decimalsText, Numeral.exponentText]
    · cases h

theorem count_mark (s : String) (w : List Char) :
    ((mark s w).getD w).count '7' = w.count '7' + if w = s.toList then 1 else 0 := by
  rw [mark]
  split
  · next heq =>
    subst heq
    exact List.count_replicate_self
  · rfl

theorem count_word {s : String} (hs : isBound s) (command : Bool) (word : List Char) :
    (if command then word else (mark s word).getD word).count '7' = word.count '7' +
      if (if !command && isBound (String.ofList word) then Piece.place (String.ofList word)
        else .kept word) == .place s then 1 else 0 := by
  cases command with
  | true => rfl
  | false =>
    have hword : word = s.toList ↔ String.ofList word = s := by
      rw [← String.toList_inj, String.toList_ofList]
    rw [if_neg Bool.false_ne_true, count_mark]
    by_cases hbound : isBound (String.ofList word)
    · simp [hbound, hword]
    · have hne : String.ofList word ≠ s := fun heq => hbound (heq ▸ hs)
      simp [hbound, hword, hne]

/-- Marks add one seven to the text for each place of the name. -/
theorem count_replaceWords_mark {s : String} (hs : isBound s) (command : Bool) (cs : List Char) :
    (replaceWords (mark s) command cs).count '7' =
      cs.count '7' + (pieces isBound command cs).count (.place s) := by
  fun_induction pieces isBound command cs with
  | case1 command => rw [replaceWords]; rfl
  | case2 command c cs hc word ih =>
    have hsplit : (c :: cs).count '7' =
        word.count '7' + (cs.dropWhile Text.isWordChar).count '7' := by
      rw [← List.count_append]
      exact congrArg (List.count '7') (congrArg (c :: ·) List.takeWhile_append_dropWhile.symm)
    have hword := count_word hs command word
    rw [replaceWords_word hc]
    change List.count '7' ((if command then word else (mark s word).getD word) ++ _) = _
    rw [List.count_append, hword, ih, hsplit, List.count_cons (a := Piece.place s)]
    omega
  | case3 command c cs hc ih =>
    have hkept : (Piece.kept [c] :: pieces isBound (c == '\\') cs).count (.place s) =
        (pieces isBound (c == '\\') cs).count (.place s) :=
      List.count_cons_of_ne fun heq => Piece.noConfusion heq
    rw [replaceWords_cons_of_not hc, List.count_cons, List.count_cons, ih, hkept]
    omega

/-- What goes on an operator in letters stays with it. -/
theorem replaceWords_lettered {value : List Char → Option (List Char)} {written rest : List Char}
    (h : Proper value) (hletters : written ∈ ["sqrt".toList, "\\times".toList, "\\cdot".toList]) :
    replaceWords value false (written ++ rest) =
      written ++ rest.takeWhile Text.isWordChar ++
        replaceWords value false (rest.dropWhile Text.isWordChar) := by
  have hcommand : ∀ w : List Char, (∀ c ∈ w, Text.isWordChar c) →
      replaceWords value false ('\\' :: (w ++ rest)) =
        '\\' :: (w ++ rest.takeWhile Text.isWordChar) ++
          replaceWords value false (rest.dropWhile Text.isWordChar) := by
    intro w hw
    have hslash : ¬ Text.isWordChar '\\' := by decide
    rw [replaceWords_cons_of_not hslash, beq_self_eq_true, replaceWords_eq (.inl rfl),
      List.takeWhile_append_of_pos hw, List.dropWhile_append_of_pos hw, List.cons_append]
  simp only [List.mem_cons, List.not_mem_nil, or_false] at hletters
  rcases hletters with rfl | rfl | rfl
  · have hroot : ∀ c ∈ "sqrt".toList, Text.isWordChar c := by
      simp [Text.isWordChar, Text.isNameChar]
    have htake : value (("sqrt".toList ++ rest).takeWhile Text.isWordChar) = none := by
      rw [List.takeWhile_append_of_pos hroot]
      exact h.value_root
    rw [replaceWords_eq (.inr htake), List.takeWhile_append_of_pos hroot,
      List.dropWhile_append_of_pos hroot]
  · exact hcommand "times".toList (by simp [Text.isWordChar, Text.isNameChar])
  · exact hcommand "cdot".toList (by simp [Text.isWordChar, Text.isNameChar])

/-- The first word of a text has one seven more where it is the name that the marks are for. -/
theorem count_firstWord {s : String} (hs : IsName s.toList) (cs : List Char) :
    (replaceWords (mark s) false cs).count '7' =
      (cs.takeWhile Text.isWordChar).count '7' +
        (if cs.takeWhile Text.isWordChar = s.toList then 1 else 0) +
        (replaceWords (mark s) false (cs.dropWhile Text.isWordChar)).count '7' := by
  have hnil : [] ≠ s.toList := by
    intro hnil
    rw [← hnil] at hs
    obtain ⟨_, _, hcons, _⟩ := hs.exists_head
    cases hcons
  cases cs with
  | nil => simp [replaceWords, hnil]
  | cons c cs =>
    by_cases hc : Text.isWordChar c
    · rw [replaceWords_word hc, List.takeWhile_cons_of_pos hc, List.dropWhile_cons_of_pos hc,
        if_neg Bool.false_ne_true, List.count_append, count_mark]
    · rw [List.takeWhile_cons_of_neg hc, List.dropWhile_cons_of_neg hc, if_neg hnil]
      simp

variable {limit : Int} {rest written text : List Char} {ts : List Token} {token : Token} {s : String}

/-- Where a text is read, a name is read at its front exactly where it is the first word. -/
theorem count_name?_front (hs : IsName s.toList) (h : Reads limit cs ts) :
    (Front.ofText limit cs).name?.toList.count s =
      if cs.takeWhile Text.isWordChar = s.toList then 1 else 0 := by
  have hiff : (Front.ofText limit cs).name? = some s ↔ cs.takeWhile Text.isWordChar = s.toList := by
    constructor
    · intro hname
      obtain ⟨written, rest, hfront⟩ := Front.name?_eq_some.1 hname
      obtain ⟨_, _, hrest⟩ := h.exists_cons hfront
      rcases Front.lexeme_cases hfront with hspelled | ⟨_, _, _, _, heq, _, _⟩ | ⟨hw, heq, rfl, hhead⟩
      · exact absurd rfl (Token.ne_operand_of_spelled? hspelled _)
      · cases heq
      · obtain rfl := Operand.name.inj (Token.operand.inj heq)
        rw [List.takeWhile_append_of_pos hw.isWordChar,
          takeWhile_eq_nil (hrest.not_isWordChar hhead), List.append_nil, String.toList_ofList]
    · intro htake
      have hhead : ∀ c ∈ (cs.dropWhile Text.isWordChar).head?, ¬ Text.isWordChar c := by
        intro c hc
        have hnot := List.head?_dropWhile_not Text.isWordChar cs
        rw [Option.mem_def.1 hc] at hnot
        simpa using hnot
      have hfront : Front.ofText limit (s.toList ++ cs.dropWhile Text.isWordChar) = _ :=
        Front.ofText_name hs hhead
      rw [← htake, List.takeWhile_append_dropWhile, htake, String.ofList_toList] at hfront
      rw [hfront]
      rfl
  split
  · next htake =>
    rw [hiff.2 htake]
    simp
  · next htake =>
    cases hname : (Front.ofText limit cs).name? with
    | none => rfl
    | some t =>
      have hne : t ≠ s := by
        rintro rfl
        exact htake (hiff.1 hname)
      simp [hne]

/-- An abbreviation has as many sevens as its plain text. -/
theorem count_expand (h : Abbreviation.expand limit cs = .found text) :
    text.count '7' = cs.count '7' := by
  have hblank : ∀ u : List Char, (∀ c ∈ u, Text.isBlank c) → u.count '7' = 0 := by
    intro u hu
    refine List.count_eq_zero.2 fun hmem => ?_
    exact absurd (hu _ hmem) (by decide)
  rcases Abbreviation.expand_eq_found_iff.1 h with h | h
  · obtain ⟨u, num, v, den, rest, hu, hv, _, _, rfl, rfl⟩ := Abbreviation.fraction_eq_found_iff.1 h
    simp [Abbreviation.fractionText, hblank u hu, hblank v hv]
  · obtain ⟨deg, radicand, rest, _, rfl, hcs⟩ := Abbreviation.root_eq_found_iff.1 h
    rcases hcs with ⟨u, hu, rfl, rfl⟩ | ⟨u, v, hu, hv, _, rfl⟩
    · simp [Abbreviation.rootText, hblank u hu]
    · simp [Abbreviation.rootText, hblank u hu, hblank v hv]
      omega

/-- A token adds its own sevens to a text with marks, and one more where it is the name. A name behind
an operator in letters loses the seven of its mark. -/
theorem count_lexeme (hs : IsName s.toList)
    (hfront : Front.ofText limit cs = .lexeme token written rest)
    (hrest : Reads limit rest ts) (hapart : Token.Apart (token :: ts)) :
    (replaceWords (mark s) false cs).count '7' +
        (if written ∈ ["sqrt".toList, "\\times".toList, "\\cdot".toList] then
          (Front.ofText limit rest).name?.toList else []).count s =
      written.count '7' + (replaceWords (mark s) false rest).count '7' +
        token.operand?.toList.count (.name s) := by
  -- a mark writes one seven in each place of the name, so counting sevens counts its places
  have hproper := proper_mark hs
  obtain ⟨rfl, _⟩ := Front.lexeme_append hfront
  rcases Front.lexeme_cases hfront with
    hspelled | ⟨n, w, hn, hvalue, rfl, rfl, _⟩ | ⟨hname, rfl, _, hhead⟩
  · have hoperand : token.operand?.toList = [] := by
      cases token with
      | operand a => exact absurd rfl (Token.ne_operand_of_spelled? hspelled a)
      | _ => rfl
    rw [hoperand, List.count_nil]
    by_cases hletters : written ∈ ["sqrt".toList, "\\times".toList, "\\cdot".toList]
    · have hfirst := count_firstWord hs rest
      rw [if_pos hletters, count_name?_front hs hrest, replaceWords_lettered hproper hletters,
        List.count_append, List.count_append]
      omega
    · rw [if_neg hletters, List.count_nil,
        replaceWords_spelled hproper hspelled fun h => absurd h hletters, List.count_append]
  · have hkeep : mark s (rest.takeWhile Text.isWordChar) = none := by
      refine value_takeWhile hproper hrest fun t written' rest' hname => ?_
      obtain ⟨ts', hts, _⟩ := hrest.exists_cons hname
      exact hapart.ne_operand _ ts' hts
    have hnumber : (Token.operand (.number w)).operand?.toList.count (.name s) = 0 :=
      List.count_eq_zero.2 fun hmem => by simp [Token.operand?] at hmem
    rw [if_neg (Front.not_lettered hfront), List.count_nil, hnumber,
      replaceWords_numeral hproper hn hkeep, List.count_append]
  · have hcount : (Token.operand (.name (String.ofList written))).operand?.toList.count (.name s) =
        if written = s.toList then 1 else 0 := by
      simp [Token.operand?, List.count_singleton, ← String.toList_inj]
    rw [if_neg (Front.not_lettered hfront), List.count_nil, hcount,
      replaceWords_name hname (hrest.not_isWordChar hhead), List.count_append, count_mark]
    omega

/-- In a text that is read, the places of a name and its occurrences directly behind an operator in
letters are together as many as its tokens. -/
theorem count_reads (hs : IsName s.toList) (h : Reads limit cs ts) (hapart : Token.Apart ts) :
    (replaceWords (mark s) false cs).count '7' + (gluedNames limit cs).count s =
      cs.count '7' + (ts.filterMap Token.operand?).count (.name s) := by
  induction h with
  | @done cs hnil =>
    obtain ⟨u, hu, hcs⟩ := Text.exists_blanks cs
    have hblanks : replaceWords (mark s) false (u ++ []) = u ++ _ := replaceWords_blanks hu
    rw [gluedNames_blank hnil]
    rw [hnil] at hcs
    rw [hcs, hblanks, replaceWords]
    rfl
  | @token cs written rest token ts hfront hrest ih =>
    have hmore := ih hapart.of_cons
    have hfirst := count_lexeme hs hfront hrest hapart
    obtain ⟨u, hu, hcs⟩ := Text.exists_blanks cs
    obtain ⟨happ, _⟩ := Front.lexeme_append hfront
    have hall : cs.count '7' = u.count '7' + (written.count '7' + rest.count '7') := by
      rw [← List.count_append, ← List.count_append, happ, ← hcs]
    have hplaces : (replaceWords (mark s) false cs).count '7' =
        u.count '7' + (replaceWords (mark s) false (Text.skipBlanks cs)).count '7' := by
      rw [← List.count_append, ← replaceWords_blanks hu, ← hcs]
    have hoperands : (token :: ts).filterMap Token.operand? =
        token.operand?.toList ++ ts.filterMap Token.operand? := by
      cases token <;> rfl
    rw [gluedNames_lexeme hfront, hoperands, List.count_append, List.count_append]
    omega
  | @expanded cs text ts hfront htext ih =>
    have hmore := ih hapart
    have hexpand := Front.expanded_iff.1 hfront
    -- the marked text expands as well, to the marked plain text: neither expansion moves a seven
    have hbefore := count_expand hexpand
    have hafter := count_expand (expand_replaceWords (proper_mark hs) hexpand)
    obtain ⟨u, hu, hcs⟩ := Text.exists_blanks cs
    rw [gluedNames_expanded hfront, hcs, replaceWords_blanks hu, List.count_append,
      List.count_append]
    omega

end Substitution

namespace Formula

variable {limit : Int} {f : Formula}

/-- The parts of the text of a formula: a place for each name that is put in for, and what is kept. -/
def pieces (f : Formula) : List Substitution.Piece :=
  Substitution.pieces (fun s => (f.table.value? s).isSome) false f.source.toList

/-- The text of a formula is its source with the value in each place and all else kept in order. Only
names of the program that have values have places. Such a name has as many places as instructions,
less those that are written directly behind an operator in letters. -/
theorem text_places (h : FromText limit f) :
    String.ofList (f.pieces.flatMap Substitution.Piece.source) = f.source ∧
    f.text = .ok (String.ofList (f.pieces.flatMap (Substitution.Piece.filled f.table.value?))) ∧
    (∀ s, .place s ∈ f.pieces → (f.table.value? s).isSome ∧ s ∈ f.program.names) ∧
    (∀ s, (f.table.value? s).isSome →
      f.pieces.count (.place s) + (gluedNames limit f.source.toList).count s =
        f.program.count (.operand (.name s))) ∧
    (¬ Glued limit f.source.toList → ∀ s, (f.table.value? s).isSome →
      f.pieces.count (.place s) = f.program.count (.operand (.name s))) := by
  obtain ⟨hcoherent, n, hparse⟩ := h.invariant
  have hnodup : f.table.names.Nodup := hcoherent.names ▸ Program.nodup_names _
  have hname : ∀ s, (f.table.value? s).isSome → s ∈ f.program.names := by
    intro s hs
    obtain ⟨m, hm⟩ := Option.isSome_iff_exists.1 hs
    exact hcoherent.names ▸ Table.mem_names_of_value? hm
  have hcount : ∀ s, (f.table.value? s).isSome →
      f.pieces.count (.place s) + (gluedNames limit f.source.toList).count s =
        f.program.count (.operand (.name s)) := by
    intro s hs
    obtain ⟨ts, y, hreads, hrun, hfinish, _⟩ := parse_eq_iff.1 hparse
    have hmarks := Substitution.count_reads (isName_of_parse hparse (hname s hs)) hreads
      (Yard.apart_of_run hrun)
    have hplaces : _ = f.source.toList.count '7' + f.pieces.count (.place s) :=
      Substitution.count_replaceWords_mark hs false f.source.toList
    rw [← operands_of_run hrun hfinish, Program.count_operands, hplaces] at hmarks
    omega
  refine ⟨?_, ?_, ?_, hcount, ?_⟩
  · rw [pieces, Substitution.flatMap_source_pieces, String.ofList_toList]
  · rw [text_eq_ok hcoherent.table, Table.apply_bound hnodup, pieces,
      Substitution.flatMap_filled_pieces]
  · intro s hs
    have hbound : (f.table.value? s).isSome := Substitution.isBound_of_place hs
    exact ⟨hbound, hname s hbound⟩
  · intro hglued s hs
    have hall := hcount s hs
    rw [gluedNames_eq_nil.2 hglued] at hall
    exact hall

set_option maxRecDepth 100000 in
/-- The numerator is a place; the name behind the product is none. -/
theorem text_places_fraction :
    ∃ f, (parse 64 "\\frac{x}{2}\\cdotx" [("x", .number (.int 4))]).result = .ok f ∧
      f.pieces.count (.place "x") = 1 ∧ gluedNames 64 f.source.toList = ["x"] ∧
      f.program.count (.operand (.name "x")) = 2 ∧ f.text = .ok "\\frac{4}{2}\\cdotx" := by
  have hmade : (parse 64 "\\frac{x}{2}\\cdotx" [("x", .number (.int 4))]).result.toOption.map
      (fun f => (f.source, f.program, f.table)) =
        some ("\\frac{x}{2}\\cdotx", [.operand (.name "x"), .operand (.number (.int 2)),
          .operator (.binary .divide), .operand (.name "x"), .operator (.binary .multiply)],
          [("x", some (.int 4))]) := by
    decide +kernel
  obtain ⟨f, hf, hparts⟩ := exists_of_parts hmade
  obtain ⟨hsource, hparts⟩ := Prod.mk.inj hparts
  obtain ⟨hprogram, htable⟩ := Prod.mk.inj hparts
  obtain ⟨_, htext, _, hcount, _⟩ := text_places (.parse hf)
  have hpieces : f.pieces.count (.place "x") = 1 := by
    rw [pieces, hsource, htable]
    decide +kernel
  have hglued : gluedNames 64 f.source.toList = ["x"] := by
    rw [hsource]
    decide +kernel
  refine ⟨f, hf, hpieces, hglued, ?_, ?_⟩
  · rw [← hcount "x" (by rw [htable]; rfl), hpieces, hglued]
    rfl
  · rw [htext, pieces, hsource, htable]
    refine congrArg Except.ok ?_
    decide +kernel

set_option maxRecDepth 100000 in
/-- Directly behind the product a name has no place, although it is in the program. -/
theorem text_keeps_glued :
    ∃ f, (parse 64 "2\\cdotx" [("x", .number (.int 4))]).result = .ok f ∧
      f.text = .ok "2\\cdotx" ∧ f.pieces.count (.place "x") = 0 ∧
      f.program.count (.operand (.name "x")) = 1 := by
  have hmade : (parse 64 "2\\cdotx" [("x", .number (.int 4))]).result.toOption.map
      (fun f => (f.text.toOption, f.pieces.count (.place "x"),
        f.program.count (.operand (.name "x")))) = some (some "2\\cdotx", 0, 1) := by
    decide +kernel
  obtain ⟨f, hf, hparts⟩ := exists_of_parts hmade
  obtain ⟨htext, hparts⟩ := Prod.mk.inj hparts
  obtain ⟨hplaces, hcount⟩ := Prod.mk.inj hparts
  refine ⟨f, hf, ?_, hplaces, hcount⟩
  cases hresult : f.text with
  | error e =>
    rw [hresult] at htext
    cases htext
  | ok text =>
    rw [hresult] at htext
    exact congrArg Except.ok (Option.some.inj htext)

end Formula

end Reckon
