import Reckon.Proofs.Token.Passing
import Reckon.Token.Reader

/-!
What holds of a reader after any number of calls.

One call skips blanks, expands what it meets and passes one token. Each of these keeps the text behind
the cursor as it is and leaves a text that was passed with all the tokens so far; a call that fails
does no more than the first two. By induction on the calls, the text that was read is free of
abbreviations and is read on its own, at any limit, as the tokens that were returned.

    calls    1    2    3   …            tokens   t₁   t₂   t₃  …
    buffer   t₁ ──▶ t₁ t₂ ──▶ t₁ t₂ t₃      read on its own: the same tokens
-/

namespace Reckon

namespace Cursor

variable {limit : Int} {ts : List Token}

theorem passes_skipBlanks {c : Cursor} (h : Passes c.behind.reverse ts c.ahead) :
    Passes c.skipBlanks.behind.reverse ts c.skipBlanks.ahead := by
  have hblanks : Passes (c.ahead.takeWhile Text.isBlank) [] (Text.skipBlanks c.ahead) :=
    .blanks fun _ hc => List.mem_takeWhile_imp hc
  have happ : c.ahead.takeWhile Text.isBlank ++ Text.skipBlanks c.ahead = c.ahead :=
    List.takeWhile_append_dropWhile
  rw [← happ] at h
  simpa [skipBlanks, pass] using h.append hblanks

/-- One call passes the token that it returns. -/
theorem passes_fetch (c : Cursor) (h : Passes c.behind.reverse ts c.ahead)
    (hlong : ∀ digits, (c.fetch limit).error? ≠ some (.longNumeral digits)) :
    Passes (c.fetch limit).after.behind.reverse (ts ++ (c.fetch limit).token?.toList)
      (c.fetch limit).after.ahead := by
  fun_induction fetch limit c with
  | case1 c hnil => simpa [Fetch.token?, Fetch.after] using passes_skipBlanks h
  | case2 c hne token written rest hfront =>
    obtain ⟨happ, _⟩ := Front.lexeme_append hfront
    have hskip := passes_skipBlanks h
    rw [← happ] at hskip
    simpa [Fetch.token?, Fetch.after, pass] using hskip.append (.of_front hfront)
  | case3 c hne digits written rest hfront => exact absurd rfl (hlong digits)
  | case4 c hne text hfront ih =>
    obtain ⟨rest, rfl⟩ := Abbreviation.exists_parenthesis (Front.expanded_iff.1 hfront)
    have hparenthesis : Text.continues '(' = false := by decide
    exact ih ((passes_skipBlanks h).seam (Seam.cons hparenthesis)) hlong
  | case5 c hne site hfront => simpa [Fetch.token?, Fetch.after] using passes_skipBlanks h
  | case6 c hne hfront => simpa [Fetch.token?, Fetch.after] using passes_skipBlanks h

/-- No call changes what lies behind the cursor, but adds to it. -/
theorem behind_fetch (limit : Int) (c : Cursor) : c.behind <:+ (c.fetch limit).after.behind := by
  have hskip (c : Cursor) : c.behind <:+ c.skipBlanks.behind := List.suffix_append ..
  fun_induction fetch limit c with
  | case1 c hnil => exact hskip c
  | case2 c hne token written rest hfront => exact (hskip c).trans (List.suffix_append ..)
  | case3 c hne digits written rest hfront => exact (hskip c).trans (List.suffix_append ..)
  | case4 c hne text hfront ih => exact (hskip c).trans ih
  | case5 c hne site hfront => exact hskip c
  | case6 c hne hfront => exact hskip c

/-- Where nothing is left to return, the cursor stands at the end. -/
theorem ahead_of_done {c after : Cursor} (h : c.fetch limit = .done after) : after.ahead = [] := by
  fun_induction fetch limit c with
  | case1 c hnil =>
    obtain rfl := Fetch.done.inj h
    exact hnil
  | case2 => cases h
  | case3 => cases h
  | case4 c hne text hfront ih => exact ih h
  | case5 => cases h
  | case6 => cases h

theorem place_of_suffix (c : Cursor) {site : List Char} (h : site <:+ c.ahead) (hne : site ≠ []) :
    c.position ≤ c.positionOf site ∧ c.positionOf site < c.buffer.length ∧
      context site = String.ofList ((c.buffer.drop (c.positionOf site)).take 20) := by
  obtain ⟨behind, ahead⟩ := c
  obtain ⟨between, rfl⟩ := h
  have hpos := List.length_pos_iff.2 hne
  have hposition : positionOf ⟨behind, between ++ site⟩ site = (behind.reverse ++ between).length := by
    simp [positionOf, position]
  have hbuffer : buffer ⟨behind, between ++ site⟩ = behind.reverse ++ between ++ site := by
    simp [buffer]
  rw [hposition, hbuffer, List.drop_left]
  refine ⟨by simp [position], ?_, rfl⟩
  simp only [List.length_append]
  omega

/-- The place of an error lies ahead of the cursor, and the text from there on is shown. -/
theorem place_of_fetch (c : Cursor) {e : LexicalError} {k : Nat} {shown : String}
    (he : (c.fetch limit).error? = some e) (hplace : e.place? = some (k, shown)) :
    (c.fetch limit).after.position ≤ k ∧ k < (c.fetch limit).after.buffer.length ∧
      shown = String.ofList (((c.fetch limit).after.buffer.drop k).take 20) := by
  fun_induction fetch limit c with
  | case1 c hnil => cases he
  | case2 c hne token written rest hfront => cases he
  | case3 c hne digits written rest hfront =>
    obtain rfl := Option.some.inj he
    cases hplace
  | case4 c hne text hfront ih => exact ih he
  | case5 c hne site hfront =>
    obtain rfl := Option.some.inj he
    obtain ⟨rfl, rfl⟩ := Prod.mk.inj (Option.some.inj hplace)
    obtain ⟨hsuffix, hne⟩ := Abbreviation.expand_eq_tooDeep (Front.expand_of_tooDeep hfront)
    exact place_of_suffix c.skipBlanks hsuffix hne
  | case6 c hne hfront =>
    obtain rfl := Option.some.inj he
    obtain ⟨rfl, rfl⟩ := Prod.mk.inj (Option.some.inj hplace)
    have hplace := place_of_suffix c.skipBlanks (List.suffix_refl _) hne
    rwa [positionOf, Nat.sub_self, Nat.add_zero] at hplace

end Cursor

namespace Reader

/-- The reader after any number of calls that each return, or that meet a character or a group that
cannot be read, with the tokens that were returned. -/
inductive Run (start : Reader) : List Token → Reader → Prop
  | start : Run start [] start
  | call {ts : List Token} {r : Reader} : Run start ts r →
      (∀ digits, r.fetch.1.error? ≠ some (.longNumeral digits)) →
      Run start (ts ++ r.fetch.1.token?.toList) r.fetch.2

/-- A reader for a text whose calls have returned the tokens. -/
structure Invariant (source : String) (ts : List Token) (r : Reader) : Prop where
  source_eq : r.source = source
  position_le : r.position ≤ r.buffer.length
  /-- No abbreviation stands in what was read. -/
  not_infix : ∀ s ∈ ["\\frac", "\\sqrt"], ¬ s.toList <:+: r.passed
  /-- What was read has the same tokens on its own, at any limit. -/
  tokenize_passed : ∀ limit, tokenize limit (String.ofList r.passed) = .ok ts
  /-- Nothing is expanded when it is read again. -/
  buffer_eq : ∀ limit, ∀ call ∈ (ofText limit (String.ofList r.passed)).fetches,
    call.2.buffer = r.passed

/-- What the next call leaves as it is, and where it may fail. -/
structure Advance (r : Reader) : Prop where
  position_le : r.position ≤ r.fetch.2.position
  take_position : r.fetch.2.buffer.take r.position = r.passed
  /-- An error is met behind what was read, and shows the text from its place on. -/
  place : ∀ e k shown, r.fetch.1.error? = some e → e.place? = some (k, shown) →
    r.fetch.2.position ≤ k ∧ k < r.fetch.2.buffer.length ∧
      shown = String.ofList ((r.fetch.2.buffer.drop k).take 20)

theorem passed_eq (r : Reader) : r.passed = r.cursor.behind.reverse := by
  simp [passed, buffer, position, Cursor.buffer, Cursor.position]

/-- Every call goes on behind what was read. -/
theorem advance (r : Reader) : r.Advance := by
  obtain ⟨more, hmore⟩ := Cursor.behind_fetch r.limit r.cursor
  have hposition : r.position = r.cursor.behind.reverse.length := List.length_reverse.symm
  have hbuffer : r.fetch.2.buffer =
      r.cursor.behind.reverse ++ (more.reverse ++ r.fetch.2.cursor.ahead) := by
    rw [buffer, Cursor.buffer, fetch, ← hmore]
    simp
  refine ⟨?_, ?_, fun e k shown he hplace => r.cursor.place_of_fetch he hplace⟩
  · rw [position, position, Cursor.position, Cursor.position, fetch, ← hmore, List.length_append]
    omega
  · rw [hbuffer, hposition, List.take_left, passed_eq]

namespace Run

variable {start r : Reader} {ts : List Token}

theorem call_token {token : Token} (h : Run start ts r) (htoken : r.fetch.1.token? = some token) :
    Run start (ts ++ [token]) r.fetch.2 := by
  have hcall := h.call fun digits herror => by
    cases hfetch : r.fetch.1 with
    | token _ _ => simp [hfetch, Cursor.Fetch.error?] at herror
    | done _ => simp [hfetch, Cursor.Fetch.token?] at htoken
    | failed _ _ => simp [hfetch, Cursor.Fetch.token?] at htoken
  rwa [htoken] at hcall

theorem source_eq (h : Run start ts r) : r.source = start.source := by
  induction h with
  | start => rfl
  | call _ _ ih => exact ih

theorem passes (h : Run start ts r) (hstart : start.cursor.behind = []) :
    Passes r.passed ts r.cursor.ahead := by
  rw [passed_eq]
  induction h with
  | start =>
    rw [hstart]
    exact .blanks nofun
  | call _ hlong ih => exact Cursor.passes_fetch _ ih hlong

/-- From the front of a text, every run keeps the invariant. -/
theorem invariant {limit : Int} {source : String} (h : Run (ofText limit source) ts r) :
    Invariant source ts r := by
  have hpasses : Passes r.passed ts [] := (h.passes rfl).seam nofun
  refine ⟨h.source_eq, ?_, hpasses.unabbreviated.not_infix, fun limit' => ?_, fun limit' => ?_⟩
  · simp [position, buffer, Cursor.position, Cursor.buffer]
  · rw [tokenize_eq_ok_iff_reads, String.toList_ofList]
    exact hpasses.reads
  · intro call hcall
    obtain ⟨f, hf, rfl⟩ := List.mem_map.1 hcall
    simp only [ofText, Cursor.ofText, String.toList_ofList] at hf
    exact hpasses.buffer_fetches [] f hf

/-- Where nothing stands in the way, the calls go on to the end of the text. -/
theorem to_end {us : List Token} (h : Run start ts r)
    (hend : Lexing.ofCursor r.limit r.cursor = ⟨us, none⟩) :
    ∃ r', Run start (ts ++ us) r' ∧ r'.cursor.ahead = [] := by
  -- a call that returns a token leaves a lighter text
  induction hweight : Abbreviation.weight r.cursor.ahead using Nat.strong_induction_on
    generalizing ts us r with
  | _ n ih =>
    subst hweight
    rw [Lexing.ofCursor, Lexing.fetches_eq] at hend
    cases hfetch : r.cursor.fetch r.limit with
    | token token after =>
      rw [hfetch] at hend
      obtain ⟨htokens, herror⟩ := Lexing.mk.inj hend
      obtain rfl : token :: (Lexing.ofCursor r.limit after).tokens = us := htokens
      have hcall := h.call_token (by rw [fetch, hfetch]; rfl)
      simp only [fetch, hfetch, Cursor.Fetch.after] at hcall
      have hafter : Lexing.ofCursor r.limit after = ⟨_, none⟩ := congrArg (Lexing.mk _) herror
      obtain ⟨r', hrun, hnil⟩ := ih _ (Cursor.weight_of_fetch hfetch) hcall hafter rfl
      rw [List.append_assoc] at hrun
      exact ⟨r', hrun, hnil⟩
    | done after =>
      rw [hfetch] at hend
      obtain rfl : [] = us := (Lexing.mk.inj hend).1
      have hcall := h.call (by simp [fetch, hfetch, Cursor.Fetch.error?])
      simp only [fetch, hfetch, Cursor.Fetch.token?, Cursor.Fetch.after, Option.toList_none] at hcall
      exact ⟨_, hcall, Cursor.ahead_of_done hfetch⟩
    | failed e after =>
      rw [hfetch] at hend
      cases (Lexing.mk.inj hend).2

end Run

/-- Every run keeps the invariant, and goes on behind what was read. A text that has tokens is read to
its end, and leaves a text that has the same tokens at any limit. -/
theorem run_invariant (limit : Int) (source : String) :
    (∀ ts r, Run (ofText limit source) ts r → Invariant source ts r ∧ Advance r) ∧
    ∀ ts, tokenize limit source = .ok ts →
      ∃ r, Run (ofText limit source) ts r ∧ r.position = r.buffer.length ∧
        ∀ limit', tokenize limit' (String.ofList r.buffer) = .ok ts := by
  refine ⟨fun ts r hrun => ⟨hrun.invariant, r.advance⟩, fun ts htokens => ?_⟩
  have hstart : Lexing.ofCursor (ofText limit source).limit (ofText limit source).cursor = ⟨ts, none⟩ :=
    tokenize_eq_ok.1 htokens
  obtain ⟨r, hrun, hnil⟩ := Run.start.to_end hstart
  rw [List.nil_append] at hrun
  have hbuffer : r.buffer = r.passed := by
    rw [passed_eq, buffer, Cursor.buffer, hnil, List.append_nil]
  refine ⟨r, hrun, ?_, fun limit' => ?_⟩
  · rw [hbuffer, passed_eq, List.length_reverse]
    rfl
  · rw [hbuffer]
    exact hrun.invariant.tokenize_passed limit'

set_option maxRecDepth 100000 in
/-- A root in the denominator of a fraction is still to be read behind five tokens; then it is read
too. -/
theorem run_invariant_fraction :
    let source := "\\frac\x7b1\x7d\x7b\\sqrt\x7bx\x7d\x7d"
    let ts : List Token :=
      [.opening, .operand (.number (.int 1)), .closing, .operator .divide, .opening]
    (∃ r, Run (ofText 2 source) ts r ∧ r.passed = "(1) / (".toList ∧
      r.buffer = "(1) / (\\sqrt\x7bx\x7d) ".toList ∧ Invariant source ts r ∧ Advance r) ∧
    ∃ us, tokenize 2 source = .ok us ∧ ∃ r, Run (ofText 2 source) us r ∧
      r.position = r.buffer.length ∧ ∀ limit', tokenize limit' (String.ofList r.buffer) = .ok us := by
  intro source ts
  obtain ⟨hruns, hend⟩ := run_invariant 2 source
  constructor
  · have hstart : Run (ofText 2 source) [] (ofText 2 source) := .start
    have hone : Run _ (ts.take 1) _ := hstart.call_token (by decide +kernel)
    have htwo : Run _ (ts.take 2) _ := hone.call_token (by decide +kernel)
    have hthree : Run _ (ts.take 3) _ := htwo.call_token (by decide +kernel)
    have hfour : Run _ (ts.take 4) _ := hthree.call_token (by decide +kernel)
    have hrun : Run _ ts _ := hfour.call_token (by decide +kernel)
    obtain ⟨hinvariant, hadvance⟩ := hruns _ _ hrun
    exact ⟨_, hrun, by decide +kernel, by decide +kernel, hinvariant, hadvance⟩
  · have htokens : tokenize 2 source = .ok (ts ++
        [.opening, .operand (.name "x"), .closing, .operator .root, .opening,
          .operand (.number (.int 2)), .closing, .closing]) := by
      decide +kernel
    exact ⟨_, htokens, hend _ htokens⟩

end Reader

end Reckon
