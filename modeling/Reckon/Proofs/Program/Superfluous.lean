import Reckon.Proofs.Program.Frame
import Reckon.Proofs.Token.Shift

/-!
A closing parenthesis too many.

It acts as if the parenthesis that opens it stood at the very beginning. With as many groups opened
there as will be closed without being opened, the yard is at each token the same but for the groups
that wait at the bottom. The two part in one place only: where a parenthesis is ignored that no operand
stands before, the one yard goes on as before an operand and the other as behind one. What was emitted
up to there lacks an operand already, no accepted program begins with it, and both runs fail.

    2 + 3 ) * 4         waiting  *               2 + ) 3         emitted  2 plus
    ( 2 + 3 ) * 4       waiting  *               ( 2 + ) 3       emitted  2 plus

A closing parenthesis at the very beginning is ignored before anything was emitted, and nothing comes
of it but that it is counted.
-/

namespace Reckon

namespace Spine

theorem of_replicate (k : Nat) :
    Spine (List.replicate k .group) [] (List.replicate k .opening) := by
  induction k with
  | zero => exact .bottom
  | succ k ih =>
    rw [List.replicate_succ, List.replicate_succ']
    exact .group ih

theorem eq_nil_of_groups {w : List Pending} {p : Program} {ts : List Token} (h : Spine w p ts)
    (hw : ∀ x ∈ w, x = .group) : p = [] := by
  induction h with
  | bottom => rfl
  | group _ ih => exact ih fun x hx => hw x (List.mem_cons_of_mem _ hx)
  | negate _ _ => cases hw _ (List.mem_cons_self ..)
  | binary _ _ _ _ => cases hw _ (List.mem_cons_self ..)

end Spine

namespace Yard

variable {y y' : Yard} {token : Token} {ts ds : List Token} {p : Program} {ops : List Operator}

/-- The tokens are taken to their end, and the program is let go. -/
def Accepts (y : Yard) (ts : List Token) (p : Program) : Prop :=
  ∃ y', y.run ts = (y', none) ∧ y'.finish = .ok p

theorem accepts_cons_iff :
    y.Accepts (token :: ts) p ↔ ∃ y₁, y.step token = .ok y₁ ∧ y₁.Accepts ts p := by
  constructor
  · rintro ⟨y', hrun, hfinish⟩
    obtain ⟨y₁, hstep, hrest⟩ := exists_step_of_run hrun
    exact ⟨y₁, hstep, y', hrest, hfinish⟩
  · rintro ⟨y₁, hstep, y', hrest, hfinish⟩
    exact ⟨y', by rw [run_cons_ok hstep, hrest], hfinish⟩

/-! ### What was emitted stays -/

theorem emitted_suffix_step (h : y.step token = .ok y') : y.emitted <:+ y'.emitted := by
  cases takes_of_step h with
  | opening _ => exact List.suffix_refl _
  | operand a _ => exact List.suffix_cons _ _
  | binary op _ => exact List.suffix_append _ _
  | negate _ => exact List.suffix_refl _
  | close _ => exact List.suffix_append _ _
  | ignore _ => exact List.suffix_append _ _

/-- An accepted program begins with what was emitted. -/
theorem Accepts.prefix_emitted (h : y.Accepts ts p) : y.emitted.reverse <+: p := by
  induction ts generalizing y with
  | nil =>
    obtain ⟨y', hrun, hfinish⟩ := h
    obtain rfl : y = y' := (Prod.mk.inj hrun).1
    obtain ⟨rfl, _⟩ := finish_eq_ok.1 hfinish
    exact List.prefix_append _ _
  | cons token ts ih =>
    obtain ⟨y₁, hstep, hrest⟩ := accepts_cons_iff.1 h
    exact (List.reverse_prefix.2 (emitted_suffix_step hstep)).trans (ih hrest)

/-- What was emitted of an accepted program finds its operands. -/
theorem Accepts.exists_depth (h : y.Accepts ts p) :
    ∃ d, depthAfter 0 y.emitted.reverse = .ok d := by
  obtain ⟨rest, rfl⟩ := h.prefix_emitted
  obtain ⟨y', _, hfinish⟩ := h
  obtain ⟨_, _, _, hcheck⟩ := finish_eq_ok.1 hfinish
  rcases checkOperands_eq_ok.1 hcheck with hnil | hone
  · rw [(List.append_eq_nil_iff.1 hnil).1]
    exact ⟨0, rfl⟩
  · obtain ⟨d, hd, _⟩ := depthAfter_append_eq_ok.1 hone
    exact ⟨d, hd⟩

/-- Before groups that stand at the beginning, what the operators that wait make of what was emitted
lacks an operand, if none stands behind them. -/
theorem Holds.not_accepts (h : y.Holds ds) {w : List Pending} (hw : ∀ x ∈ w, x = .group)
    (hpending : y.pending = ops.map .operator ++ w) (hafter : y.afterOperand = false)
    (hne : y.emitted ≠ [] ∨ ops ≠ [])
    (hemitted : y'.emitted = ops.reverse.map .operator ++ y.emitted) : ¬ y'.Accepts ts p := by
  intro haccepts
  obtain ⟨d, hd⟩ := haccepts.exists_depth
  have hreverse : y'.emitted.reverse = y.emitted.reverse ++ ops.map .operator := by
    simp [hemitted]
  have htake : Pending.takeOperators (fun _ => true) y.pending = (ops, w) := by
    rw [hpending]
    refine Pending.takeOperators_eq (fun _ _ => rfl) fun op rest hhead => ?_
    rw [hhead] at hw
    cases hw _ (List.mem_cons_self ..)
  -- all that was emitted belongs to the draft in hand, which ends in a gap
  have hinHand := h.inHand.wrap (fun _ => true) (fun _ => rfl) (Nat.zero_le 4)
  rw [htake, hafter] at hinHand
  obtain ⟨p₁, ts₁, g, p₂, ts₂, hspine, hdraft, hp, -⟩ := hinHand
  rw [hspine.eq_nil_of_groups hw, List.nil_append] at hp
  rw [hreverse, ← hp] at hd
  have hbalance := hdraft.balance hd
  have hgap := hdraft.gaps_pos rfl
  have hpos : 0 < d := by
    refine depthAfter_pos ?_ hd
    rw [hp]
    rcases hne with hne | hne <;> simp [hne]
  omega

/-! ### Groups at the bottom -/

/-- Something came before: an operand in hand, or something emitted, or something that waits. -/
def Started (y : Yard) : Prop := y.afterOperand = true ∨ y.emitted ≠ [] ∨ y.pending ≠ []

theorem ignored_step (h : y.step token = .ok y')
    (hclosing : token = .closing → .group ∈ y.pending) : y'.ignored = y.ignored := by
  cases takes_of_step h with
  | ignore hops => exact absurd (hops ▸ hclosing rfl) (Pending.group_not_mem _)
  | opening _ => rfl
  | operand a _ => rfl
  | binary op _ => rfl
  | negate _ => rfl
  | close _ => rfl

theorem started_step (h : y.step token = .ok y')
    (hclosing : token = .closing → .group ∈ y.pending) : y'.Started := by
  cases takes_of_step h with
  | opening _ => exact .inr (.inr (List.cons_ne_nil _ _))
  | operand a _ => exact .inl rfl
  | binary op _ => exact .inr (.inr (List.cons_ne_nil _ _))
  | negate _ => exact .inr (.inr (List.cons_ne_nil _ _))
  | close _ => exact .inl rfl
  | ignore hops => exact absurd (hops ▸ hclosing rfl) (Pending.group_not_mem _)

/-- A yard in which nothing but groups waits. -/
def groups (n : Nat) : Yard := { empty with pending := List.replicate n .group }

theorem below_groups (n : Nat) : Pending.Below 0 (groups n).pending := by
  cases n <;> exact trivial

/-- The yard with as many groups at the bottom as are left to close. -/
def grounded (y : Yard) (ts : List Token) : Yard :=
  y.above (groups (Token.unmatched (y.pending.count .group) ts))

/-- A token that is not ignored does the same with groups at the bottom. -/
theorem step_grounded (hclosing : token = .closing → .group ∈ y.pending) :
    (y.grounded (token :: ts)).step token = (y.step token).map fun y₁ => y₁.grounded ts := by
  rw [grounded, step_above (below_groups _) hclosing]
  cases hstep : y.step token with
  | error e => rfl
  | ok y₁ =>
    obtain ⟨n, hignored, hunmatched⟩ := exists_ignored_step hstep ts
    rw [ignored_step hstep hclosing] at hignored
    obtain rfl : n = 0 := by omega
    rw [hunmatched]
    rfl

theorem pending_grounded (hpending : y.pending = ops.map .operator) :
    (y.grounded (.closing :: ts)).pending =
      ops.map .operator ++ .group :: List.replicate (Token.unmatched 0 ts) .group := by
  simp [grounded, above, groups, hpending, Pending.count_group_operators, Token.unmatched,
    List.replicate_succ]

theorem close_grounded (hpending : y.pending = ops.map .operator) (hafter : y.afterOperand = true) :
    (y.grounded (.closing :: ts)).close = y.close.grounded ts := by
  rw [close_group (pending_grounded hpending), close_ignored hpending]
  simp [grounded, above, groups, empty, emit, hafter]

/-- With as many groups at the bottom as are left to close, the same programs are accepted. -/
theorem accepts_grounded (hstart : y.Started ∨ ts.head? ≠ some .closing)
    (h : (y.grounded ts).Holds ds) : y.Accepts ts p ↔ (y.grounded ts).Accepts ts p := by
  induction ts generalizing y ds with
  | nil =>
    have hfinish : (y.grounded []).finish = y.finish := by
      simp [grounded, above, groups, empty, Token.unmatched, finish_eq, flushed]
    simp [Accepts, run, hfinish]
  | cons token ts ih =>
    rw [accepts_cons_iff, accepts_cons_iff]
    by_cases hclosing : token = .closing → .group ∈ y.pending
    · -- the yards stay the same above the bottom
      rw [step_grounded hclosing]
      cases hstep : y.step token with
      | error e => simp [Except.map]
      | ok y₁ =>
        have hstep' : (y.grounded (token :: ts)).step token = .ok (y₁.grounded ts) := by
          rw [step_grounded hclosing, hstep]
          rfl
        have hholds := h.step hstep' fun heq => List.mem_append_left _ (hclosing heq)
        have hmore := ih (.inl (started_step hstep hclosing)) hholds
        simpa [Except.map] using hmore
    · obtain ⟨rfl, hgroup⟩ : token = .closing ∧ .group ∉ y.pending := by simpa using hclosing
      obtain ⟨ops, hops⟩ : ∃ ops : List Operator, y.pending = ops.map .operator := by
        obtain ⟨ops, hops | ⟨rest, hops⟩⟩ := Pending.exists_operators y.pending
        · exact ⟨ops, hops⟩
        · rw [hops] at hgroup
          simp at hgroup
      have hpending : (y.grounded (.closing :: ts)).pending = _ := pending_grounded hops
      simp only [step, Except.ok.injEq, exists_eq_left']
      cases hafter : y.afterOperand with
      | true =>
        rw [close_grounded hops hafter]
        have hstep : (y.grounded (.closing :: ts)).step .closing = .ok (y.close.grounded ts) := by
          rw [step, close_grounded hops hafter]
        refine ih (.inl (.inl ?_)) (h.step hstep fun _ => by simp [hpending])
        rw [close_ignored hops]
        exact hafter
      | false =>
        -- what was emitted lacks an operand on both sides
        have hsame : (y.grounded (.closing :: ts)).emitted = y.emitted := List.append_nil _
        have hne : y.emitted ≠ [] ∨ ops ≠ [] := by
          rcases hstart with (hstart | hstart | hstart) | hhead
          · rw [hafter] at hstart
            cases hstart
          · exact .inl hstart
          · exact .inr fun hnil => hstart (by rw [hops, hnil]; rfl)
          · exact absurd rfl hhead
        have hfail {y' : Yard} (hemitted : y'.emitted = ops.reverse.map .operator ++ y.emitted) :
            ¬ y'.Accepts ts p := by
          rw [← hsame] at hne hemitted
          exact h.not_accepts (by simp) hpending hafter hne hemitted
        refine iff_of_false (hfail ?_) (hfail ?_)
        · rw [close_ignored hops]
          rfl
        · rw [close_group hpending, ← hsame]
          rfl

/-- Opening parentheses at the beginning put groups at the bottom. -/
theorem run_openings (k : Nat) (hafter : y.afterOperand = false) (ts : List Token) :
    y.run (List.replicate k .opening ++ ts) =
      ({ y with pending := List.replicate k .group ++ y.pending } : Yard).run ts := by
  induction k generalizing y with
  | zero => rfl
  | succ k ih =>
    have hopen : y.step .opening = .ok { y with pending := .group :: y.pending } := by
      simp [step, hafter]
    have hmore := ih (y := { y with pending := .group :: y.pending }) hafter
    rw [List.replicate_succ, List.cons_append, run_cons_ok hopen, hmore]
    simp [List.replicate_succ']

end Yard

/-- Tokens are accepted as they are with the missing opening parentheses in front. -/
theorem Parsing.ofLexing_openings {ts : List Token} {p : Program}
    (hhead : ts.head? ≠ some .closing) : (ofLexing ⟨ts, none⟩).result = .ok p ↔
      (ofLexing ⟨List.replicate (Token.unmatched 0 ts) .opening ++ ts, none⟩).result = .ok p := by
  have hholds :
      (Yard.empty.grounded ts).Holds (List.replicate (Token.unmatched 0 ts) .opening) := by
    have hbefore := Yard.Holds.before (Spine.of_replicate (Token.unmatched 0 ts))
    simpa [Yard.grounded, Yard.above, Yard.groups, Yard.empty] using hbefore
  have hsame := Yard.accepts_grounded (p := p) (.inr hhead) hholds
  have hrun : Yard.empty.run (List.replicate (Token.unmatched 0 ts) .opening ++ ts) =
      (Yard.empty.grounded ts).run ts := by
    rw [Yard.run_openings _ rfl]
    simp [Yard.grounded, Yard.above, Yard.groups, Yard.empty]
  rw [ofLexing_result_eq_ok, ofLexing_result_eq_ok]
  simp only [true_and, hrun]
  exact hsame

/-! ### Closing parentheses at the beginning -/

/-- The error of a text that has so many characters before it. -/
def ParseError.shift (n : Nat) : ParseError → ParseError
  | .lexical e => .lexical (e.shift n)
  | e => e

namespace Yard

/-- What was ignored before is counted on. -/
theorem step_ignored (y : Yard) (token : Token) (n : Nat) :
    ({ y with ignored := y.ignored + n } : Yard).step token =
      (y.step token).map fun y₁ => { y₁ with ignored := y₁.ignored + n } := by
  cases token with
  | opening =>
    rw [step, step]
    cases y.afterOperand <;> rfl
  | operand a =>
    rw [step, step]
    cases y.afterOperand <;> rfl
  | operator op =>
    rw [step, step]
    cases y.afterOperand with
    | true => rfl
    | false => cases op <;> rfl
  | closing =>
    obtain ⟨ops, hops | ⟨rest, hops⟩⟩ := Pending.exists_operators y.pending
    · have hmore : ({ y with ignored := y.ignored + n } : Yard).pending = _ := hops
      rw [step, step, close_ignored hops, close_ignored hmore]
      simp [Except.map, emit, Nat.add_right_comm]
    · have hmore : ({ y with ignored := y.ignored + n } : Yard).pending = _ := hops
      rw [step, step, close_group hops, close_group hmore]
      rfl

theorem run_ignored (y : Yard) (ts : List Token) (n : Nat) :
    ({ y with ignored := y.ignored + n } : Yard).run ts =
      ({ (y.run ts).1 with ignored := (y.run ts).1.ignored + n }, (y.run ts).2) := by
  induction ts generalizing y with
  | nil => rfl
  | cons token ts ih =>
    rw [run, run, step_ignored]
    cases y.step token with
    | error e => rfl
    | ok y₁ => exact ih y₁

end Yard

/-- A closing parenthesis in front is counted, and otherwise ignored. -/
theorem Parsing.ofLexing_closing (l : Lexing) : ofLexing (l.prepend [.closing]) =
    ⟨(ofLexing l).result, (ofLexing l).ignored + 1⟩ := by
  have hrun : Yard.empty.run (.closing :: l.tokens) =
      ({ (Yard.empty.run l.tokens).1 with ignored := (Yard.empty.run l.tokens).1.ignored + 1 },
        (Yard.empty.run l.tokens).2) :=
    Yard.run_ignored Yard.empty l.tokens 1
  have htokens : (l.prepend [.closing]).tokens = .closing :: l.tokens := rfl
  have herror : (l.prepend [.closing]).error = l.error := rfl
  rw [ofLexing, ofLexing, htokens, herror, hrun]
  obtain ⟨y, error⟩ := Yard.empty.run l.tokens
  rfl

theorem ParseError.shift_eq_self {e : ParseError} (h : ∀ l, e ≠ .lexical l) (n : Nat) :
    e.shift n = e := by
  cases e with
  | lexical l => exact absurd rfl (h l)
  | _ => rfl

/-- The place of an error moves with the text. -/
theorem Parsing.ofLexing_shift (l : Lexing) (n : Nat) : ofLexing (l.shift n) =
    ⟨(ofLexing l).result.mapError (ParseError.shift n), (ofLexing l).ignored⟩ := by
  obtain ⟨ts, lexical⟩ := l
  rw [ofLexing, ofLexing, Lexing.shift]
  cases hrun : Yard.empty.run ts with
  | mk y error =>
    cases error with
    | some e =>
      have hsame := ParseError.shift_eq_self (ne_lexical_of_run hrun) n
      simp [Except.mapError, hsame]
    | none =>
      cases lexical with
      | some l => rfl
      | none =>
        cases hfinish : y.finish with
        | ok p => simp [hfinish, Except.mapError]
        | error e =>
          have hsame := ParseError.shift_eq_self (ne_lexical_of_finish hfinish) n
          simp [hfinish, Except.mapError, hsame]

/-- Tokens fail where others fail that are accepted whenever they are. -/
theorem Parsing.fails_of_imp {ts us : List Token}
    (h : ∀ p, (ofLexing ⟨us, none⟩).result = .ok p → (ofLexing ⟨ts, none⟩).result = .ok p) :
    (∃ e, (ofLexing ⟨ts, none⟩).result = .error e ∧ ∀ l, e ≠ .lexical l) →
      ∃ e, (ofLexing ⟨us, none⟩).result = .error e ∧ ∀ l, e ≠ .lexical l := by
  rintro ⟨e, he, _⟩
  cases hresult : (ofLexing ⟨us, none⟩).result with
  | ok p =>
    rw [h p hresult] at he
    cases he
  | error e' => exact ⟨e', rfl, ne_lexical hresult⟩

theorem Reads.openings {limit : Int} {cs : List Char} {ts : List Token} (h : Reads limit cs ts)
    (k : Nat) : Reads limit (List.replicate k '(' ++ cs) (List.replicate k .opening ++ ts) := by
  induction k with
  | zero => exact h
  | succ k ih => exact of_spelling Token.opening_mem ih

/-- A closing parenthesis without its opening one acts as if that stood at the very beginning, and is
counted; one in front of the text is counted, and nothing else comes of it than that the text starts
further on. -/
theorem parse_superfluous (limit : Int) :
    (∀ (source : String) (ts : List Token), tokenize limit source = .ok ts →
      ts.head? ≠ some .closing →
      let k := Token.unmatched 0 ts
      let completed := String.ofList (List.replicate k '(') ++ source
      (∀ p, (parse limit source).result = .ok p ↔ (parse limit completed).result = .ok p) ∧
      (∀ p, (parse limit source).result = .ok p → (parse limit source).ignored = k) ∧
      (parse limit completed).ignored = 0 ∧
      ((∃ e, (parse limit source).result = .error e ∧ ∀ l, e ≠ .lexical l) ↔
        ∃ e, (parse limit completed).result = .error e ∧ ∀ l, e ≠ .lexical l)) ∧
    ∀ u s source : String, (∀ c ∈ u.toList, Text.isBlank c) → (s, Token.closing) ∈ Token.spellings →
      (parse limit (u ++ s ++ source)).result =
        (parse limit source).result.mapError (ParseError.shift (u ++ s).length) ∧
      (parse limit (u ++ s ++ source)).ignored = (parse limit source).ignored + 1 := by
  constructor
  · intro source ts htokens hhead k completed
    -- as many opening parentheses in front match just the tokens that were left unmatched
    have hcompleted : tokenize limit completed = .ok (List.replicate k .opening ++ ts) := by
      rw [tokenize_eq_ok_iff_reads] at htokens ⊢
      simpa [completed] using htokens.openings k
    have hsource : parse limit source = .ofLexing ⟨ts, none⟩ := by
      rw [parse, tokenize_eq_ok.1 htokens]
    have hparse : parse limit completed = .ofLexing ⟨List.replicate k .opening ++ ts, none⟩ := by
      rw [parse, tokenize_eq_ok.1 hcompleted]
    have hsame (p : Program) :
        (parse limit source).result = .ok p ↔ (parse limit completed).result = .ok p := by
      rw [hsource, hparse]
      exact Parsing.ofLexing_openings hhead
    refine ⟨hsame, fun p hp => ?_, ?_, ?_⟩
    · rw [hsource] at hp ⊢
      exact Parsing.ignored_eq_of_ok hp
    · have hle := Parsing.ignored_le ⟨List.replicate k .opening ++ ts, none⟩
      rw [Token.unmatched_replicate_append, Token.unmatched_add, Nat.sub_self] at hle
      rw [hparse]
      exact Nat.le_zero.1 hle
    · rw [hsource, hparse] at hsame ⊢
      exact ⟨Parsing.fails_of_imp fun p => (hsame p).2, Parsing.fails_of_imp fun p => (hsame p).1⟩
  · intro u s source hu hs
    have htext : (u ++ s ++ source).toList = u.toList ++ (s.toList ++ source.toList) := by simp
    have hlength : (u.toList ++ s.toList).length = (u ++ s).length := by
      rw [← String.toList_append, String.length_toList]
    rw [parse, parse, htext, Lexing.ofText_spelling hu hs, hlength, Parsing.ofLexing_closing,
      Parsing.ofLexing_shift]
    exact ⟨rfl, rfl⟩

set_option maxRecDepth 100000 in
/-- A sum and a product, each closed once too often, and a foreign character behind a blank and a
parenthesis. -/
theorem parse_superfluous_product :
    let ts : List Token := [.operand (.number (.int 2)), .operator .add, .operand (.number (.int 3)),
      .closing, .operator .multiply, .operand (.number (.int 4)), .closing]
    let p : Program := [.operand (.number (.int 2)), .operand (.number (.int 3)),
      .operator (.binary .add), .operand (.number (.int 4)), .operator (.binary .multiply)]
    tokenize 64 "2 + 3) * 4)" = .ok ts ∧ ts.head? ≠ some .closing ∧ Token.unmatched 0 ts = 2 ∧
      (parse 64 "((2 + 3) * 4)").result = .ok p ∧ (parse 64 "2 + 3) * 4)").result = .ok p ∧
      (parse 64 "2 + 3) * 4)").ignored = 2 ∧
      (∀ c ∈ " ".toList, Text.isBlank c) ∧ ("\\right)", Token.closing) ∈ Token.spellings ∧
      (parse 64 "2 $").result = .error (.lexical (.foreign 2 "$")) ∧
      (parse 64 " \\right)2 $").result = .error (.lexical (.foreign 10 "$")) := by
  intro ts p
  have htokens : tokenize 64 "2 + 3) * 4)" = .ok ts := by decide +kernel
  have hhead : ts.head? ≠ some .closing := by decide
  have hcompleted : (parse 64 "((2 + 3) * 4)").result = .ok p := by decide +kernel
  have hblank : ∀ c ∈ " ".toList, Text.isBlank c := List.forall_mem_singleton.2 rfl
  have hclosing : ("\\right)", Token.closing) ∈ Token.spellings := by decide
  have hforeign : (parse 64 "2 $").result = .error (.lexical (.foreign 2 "$")) := by decide +kernel
  obtain ⟨hopen, hfront⟩ := parse_superfluous 64
  obtain ⟨hsame, hcount, _, _⟩ := hopen _ ts htokens hhead
  have hparse := (hsame p).2 hcompleted
  have hshift := (hfront " " "\\right)" "2 $" hblank hclosing).1
  rw [hforeign] at hshift
  exact ⟨htokens, hhead, rfl, hcompleted, hparse, hcount p hparse, hblank, hclosing, hforeign, hshift⟩

end Reckon
