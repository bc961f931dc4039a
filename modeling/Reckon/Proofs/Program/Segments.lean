import Mathlib.Data.List.Perm.Subperm
import Reckon.Proofs.Program.Frame

/-!
What waits rises towards the top.

The marks of groups cut what waits into segments. In each of them the binary operators bind tighter
and tighter from the bottom up, because an operator that is put on them first lets go all that bind
at least as tightly; there are only four ranks, so there are never more than four. Negations wait on
top of them, any number, and go before the next binary operator.

    tokens     2 = 3 + 4 * - - ( 5 ^ - │ x
    waiting    = + * - - ┊ ^ -
               0 1 2     ┊ 3                  ranks, the bottom first

There is one mark for each opening parenthesis that nothing has closed so far, and the parentheses
that are reported in the end are those that nothing closes at all.
-/

namespace Reckon

/-! ### Opening parentheses that nothing closes -/

namespace Token

/-- Whether an opening parenthesis in front of the tokens is closed by one of them: what stands up to
that one opens and closes its own groups. -/
def Closed (ts : List Token) : Prop :=
  ∃ inner rest, ts = inner ++ .closing :: rest ∧ Matched inner ∧
    inner.count .closing = inner.count .opening

/-- With `n` groups open, what is left unmatched starts behind tokens that close all of them. -/
theorem exists_of_unmatched {n : Nat} {ts : List Token} (h : unmatched n ts ≠ 0) :
    ∃ inner rest, ts = inner ++ .closing :: rest ∧ unmatched n inner = 0 ∧
      inner.count .closing = n + inner.count .opening := by
  induction ts generalizing n with
  | nil => exact absurd rfl h
  | cons token ts ih =>
    cases token with
    | opening =>
      obtain ⟨inner, rest, rfl, hmatched, hcount⟩ := @ih (n + 1) h
      refine ⟨.opening :: inner, rest, rfl, hmatched, ?_⟩
      rw [List.count_cons_of_ne (by decide), List.count_cons_self]
      omega
    | operator op =>
      obtain ⟨inner, rest, rfl, hmatched, hcount⟩ := @ih n h
      exact ⟨.operator op :: inner, rest, rfl, hmatched, by simpa using hcount⟩
    | operand a =>
      obtain ⟨inner, rest, rfl, hmatched, hcount⟩ := @ih n h
      exact ⟨.operand a :: inner, rest, rfl, hmatched, by simpa using hcount⟩
    | closing =>
      cases n with
      | zero => exact ⟨[], ts, rfl, rfl, rfl⟩
      | succ n =>
        obtain ⟨inner, rest, rfl, hmatched, hcount⟩ := @ih n h
        refine ⟨.closing :: inner, rest, rfl, hmatched, ?_⟩
        rw [List.count_cons_self, List.count_cons_of_ne (by decide)]
        omega

/-- An opening parenthesis is closed where the tokens behind it close more than they open. -/
theorem closed_iff {ts : List Token} : Closed ts ↔ unmatched 0 ts ≠ 0 := by
  constructor
  · rintro ⟨inner, rest, rfl, -, hcount⟩ hzero
    have hprefix : inner ++ [.closing] <+: inner ++ .closing :: rest :=
      ⟨rest, by rw [List.append_assoc, List.singleton_append]⟩
    have hle := unmatched_eq_zero_iff.1 hzero _ hprefix
    have hnone : [Token.closing].count .opening = 0 := rfl
    rw [List.count_append, List.count_append, hcount, List.count_singleton_self] at hle
    omega
  · intro h
    obtain ⟨inner, rest, rfl, hmatched, hcount⟩ := exists_of_unmatched h
    rw [Nat.zero_add] at hcount
    exact ⟨inner, rest, rfl, matched_iff.2 hmatched, hcount⟩

instance (ts : List Token) : Decidable (Closed ts) := decidable_of_iff _ closed_iff.symm

/-- The opening parentheses that no later one closes. -/
def unclosed : List Token → Nat
  | [] => 0
  | .opening :: ts => unclosed ts + if Closed ts then 0 else 1
  | _ :: ts => unclosed ts

end Token

namespace Yard

variable {y y' : Yard} {token : Token} {ts : List Token}

/-- A token closes a group that waits, or opens one, as it does among the tokens from it on. -/
theorem count_group_step (h : y.step token = .ok y') (ts : List Token) :
    y'.pending.count .group - Token.unmatched 0 ts + Token.unclosed ts =
      y.pending.count .group - Token.unmatched 0 (token :: ts) + Token.unclosed (token :: ts) := by
  cases takes_of_step h with
  | opening _ =>
    -- the tokens behind the parenthesis close one more than they do alone
    have hone : Token.unmatched 0 (.opening :: ts) = Token.unmatched 0 ts - 1 :=
      Token.unmatched_add 0 1 ts
    have hclosed := @Token.closed_iff ts
    rw [hone, List.count_cons_self, Token.unclosed]
    by_cases hzero : Token.unmatched 0 ts = 0
    · rw [if_neg fun h => hclosed.1 h hzero]
      omega
    · rw [if_pos (hclosed.2 hzero)]
      omega
  | operand a _ => rfl
  | binary op _ =>
    rw [count_group_shunt]
    rfl
  | negate _ =>
    rw [List.count_cons_of_ne (by decide)]
    rfl
  | @close ops rest hops =>
    have hcount : y.pending.count .group = rest.count .group + 1 := by
      rw [hops, List.count_append, Pending.count_group_operators, List.count_cons_self,
        Nat.zero_add]
    rw [hcount]
    exact congrArg (· + Token.unclosed ts) (Nat.add_sub_add_right _ 1 _).symm
  | ignore hops =>
    show 0 - Token.unmatched 0 ts + Token.unclosed ts = _
    rw [hops, Pending.count_group_operators, Nat.zero_sub, Nat.zero_sub]
    rfl

/-- A run closes the groups that wait for as many parentheses as are left unmatched, and opens those
that nothing closes. -/
theorem count_group_run (h : y.run ts = (y', none)) :
    y'.pending.count .group =
      y.pending.count .group - Token.unmatched 0 ts + Token.unclosed ts := by
  induction ts generalizing y with
  | nil =>
    obtain ⟨rfl, _⟩ := Prod.mk.inj h
    rfl
  | cons token ts ih =>
    obtain ⟨y₁, hstep, hrun⟩ := exists_step_of_run h
    rw [ih hrun, count_group_step hstep ts]

/-- After all tokens so far, the groups that wait are those that nothing has closed. -/
theorem count_group_of_run (h : empty.run ts = (y, none)) :
    y.pending.count .group = Token.unclosed ts := by
  rw [count_group_run h]
  simp [empty]

end Yard

/-! ### Rising operators -/

namespace Pending

/-- Every binary operator that waits binds tighter than what it waits on. -/
def InOrder : List Pending → Prop
  | [] => True
  | .operator (.binary op) :: w => Below op.rank w ∧ InOrder w
  | _ :: w => InOrder w

theorem InOrder.of_append {w rest : List Pending} (h : InOrder (w ++ rest)) : InOrder rest := by
  induction w with
  | nil => exact h
  | cons x w ih =>
    match x, h with
    | .group, h => exact ih h
    | .operator .negate, h => exact ih h
    | .operator (.binary op), h => exact ih h.2

theorem below_takeOperators (op : Binary) (w : List Pending) :
    Below op.rank (takeOperators (fun waiting => op.rank ≤ waiting.rank) w).2 := by
  match hrest : (takeOperators (fun waiting => op.rank ≤ waiting.rank) w).2 with
  | [] => exact trivial
  | .group :: _ => exact trivial
  | .operator o :: rest =>
    have hhead := takeOperators_head (fun waiting => op.rank ≤ waiting.rank) hrest
    exact .inl (by simpa using hhead)

/-- Binary operators, each binding tighter than the one before, and negations behind them. -/
def Rising (ops : List Operator) : Prop :=
  ∃ (bs : List Binary) (k : Nat), ops = bs.map .binary ++ List.replicate k .negate ∧
    (bs.map Binary.rank).Pairwise (· < ·)

theorem Rising.negate {ops : List Operator} (h : Rising ops) : Rising (ops ++ [.negate]) := by
  obtain ⟨bs, k, rfl, hbs⟩ := h
  exact ⟨bs, k + 1, by rw [List.append_assoc, ← List.replicate_succ'], hbs⟩

/-- A binary operator may wait on one that binds less tightly. -/
theorem Rising.binary {ops : List Operator} {op : Binary} (h : Rising ops)
    (hop : ∀ o ∈ ops.getLast?, o.rank < op.rank) : Rising (ops ++ [.binary op]) := by
  obtain ⟨bs, k, rfl, hbs⟩ := h
  cases k with
  | succ k =>
    -- nothing binds tighter than a negation
    have hlow := op.rank_le
    have hnegate : Operator.rank .negate < op.rank :=
      hop .negate (by rw [List.replicate_succ', ← List.append_assoc, List.getLast?_concat]; rfl)
    have hrank : Operator.rank .negate = 4 := rfl
    omega
  | zero =>
    rw [List.replicate_zero, List.append_nil] at hop ⊢
    refine ⟨bs ++ [op], 0, by simp, ?_⟩
    rw [List.map_append, List.pairwise_append]
    refine ⟨hbs, List.pairwise_singleton _ _, fun r hr r' hr' => ?_⟩
    obtain rfl : r' = op.rank := List.mem_singleton.1 hr'
    -- the last of the operators binds tightest, and still less than the new one
    obtain ⟨front, last, rfl⟩ : ∃ front last, bs = front ++ [last] := by
      have hne : bs ≠ [] := by
        rintro rfl
        cases hr
      exact ⟨_, _, (List.dropLast_concat_getLast hne).symm⟩
    have hlast : last.rank < op.rank :=
      hop (.binary last) (by rw [List.map_append, List.map_singleton, List.getLast?_concat]; rfl)
    rw [List.map_append, List.pairwise_append] at hbs
    rw [List.map_append, List.mem_append] at hr
    rcases hr with hr | hr
    · exact Nat.lt_trans (hbs.2.2 r hr _ (List.mem_singleton_self _)) hlast
    · rw [List.mem_singleton.1 hr]
      exact hlast

/-- Operators in order rise from the bottom up. -/
theorem InOrder.rising {ops : List Operator} {rest : List Pending}
    (h : InOrder (ops.map .operator ++ rest)) : Rising ops.reverse := by
  induction ops with
  | nil => exact ⟨[], 0, rfl, .nil⟩
  | cons op ops ih =>
    rw [List.reverse_cons]
    cases op with
    | negate => exact (ih h).negate
    | binary op =>
      refine (ih h.2).binary fun o ho => ?_
      rw [List.getLast?_reverse] at ho
      obtain ⟨ops, rfl⟩ := List.head?_eq_some_iff.1 ho
      have hlow := op.rank_le
      rcases h.1 with hrank | hrank
      · exact hrank
      · omega

theorem splitOn_operators (ops : List Operator) :
    (ops.map Pending.operator).splitOn .group = [ops.map .operator] := by
  refine List.splitOnP_eq_singleton fun x hx => ?_
  obtain ⟨op, _, rfl⟩ := List.mem_map.1 hx
  rfl

theorem splitOn_group (ops : List Operator) (rest : List Pending) :
    (ops.map Pending.operator ++ .group :: rest).splitOn .group =
      ops.map .operator :: rest.splitOn .group := by
  have hsplit := @List.splitOnP_append_cons _ (fun x : Pending => x == .group)
    (ops.map .operator) rest .group (beq_self_eq_true _)
  have hops := splitOn_operators ops
  rw [List.splitOn] at hops ⊢
  rw [hsplit, hops]
  rfl

/-- Every segment of what waits in order rises. -/
theorem InOrder.segments {w : List Pending} (h : InOrder w) :
    ∀ segment ∈ w.splitOn .group, ∃ ops : List Operator,
      segment.reverse = ops.map .operator ∧ Rising ops := by
  intro segment hsegment
  obtain ⟨ops, hw | ⟨rest, hw⟩⟩ := exists_operators w
  · rw [hw, splitOn_operators, List.mem_singleton] at hsegment
    rw [hw, ← List.append_nil (ops.map Pending.operator)] at h
    exact ⟨ops.reverse, by rw [hsegment, List.map_reverse], h.rising⟩
  · rw [hw] at h
    rw [hw, splitOn_group] at hsegment
    rcases List.mem_cons.1 hsegment with htop | hrest
    · exact ⟨ops.reverse, by rw [htop, List.map_reverse], h.rising⟩
    · have hbelow : InOrder (.group :: rest) := h.of_append
      exact InOrder.segments (w := rest) hbelow segment hrest
termination_by w.length
decreasing_by
  rw [hw, List.length_append, List.length_cons]
  omega

/-- There are no more than four ranks to rise through. -/
theorem length_le_four {bs : List Binary} (h : (bs.map Binary.rank).Pairwise (· < ·)) :
    bs.length ≤ 4 := by
  have hnodup : (bs.map Binary.rank).Nodup := h.imp Nat.ne_of_lt
  have hsub : bs.map Binary.rank ⊆ List.range 4 := by
    intro r hr
    obtain ⟨op, _, rfl⟩ := List.mem_map.1 hr
    exact List.mem_range.2 (Nat.lt_succ_of_le op.rank_le)
  have hlength := (hnodup.subperm hsub).length_le
  rwa [List.length_map, List.length_range] at hlength

end Pending

namespace Yard

variable {y y' : Yard} {token : Token} {ts : List Token}

/-- Every token leaves what waits in order. -/
theorem Takes.inOrder (h : y.Takes token y') (hy : Pending.InOrder y.pending) :
    Pending.InOrder y'.pending := by
  cases h with
  | opening _ => exact hy
  | operand a _ => exact hy
  | negate _ => exact hy
  | binary op _ =>
    have hbelow := Pending.below_takeOperators op y.pending
    have happ := Pending.takeOperators_append (fun waiting => op.rank ≤ waiting.rank) y.pending
    rw [← happ] at hy
    exact ⟨hbelow, hy.of_append⟩
  | close hops =>
    rw [hops] at hy
    exact hy.of_append
  | ignore _ => exact trivial

theorem inOrder_run (h : y.run ts = (y', none)) (hy : Pending.InOrder y.pending) :
    Pending.InOrder y'.pending :=
  keeps_of_run (motive := fun y => Pending.InOrder y.pending) (fun _ _ htakes => htakes.inOrder) h hy

end Yard

/-! ### Groups left open at the end -/

/-- The end of the tokens reports the groups that wait, if there are any. -/
theorem Yard.finish_eq_unclosed {y : Yard} {n : Nat} :
    y.finish = .error (.unclosed n) ↔ y.pending.count .group = n ∧ 0 < n := by
  rw [finish_eq]
  by_cases hgroup : 0 < y.pending.count .group
  · rw [if_pos hgroup, Except.error.injEq, ParseError.unclosed.injEq]
    exact ⟨fun h => ⟨h, h ▸ hgroup⟩, fun h => h.1⟩
  · rw [if_neg hgroup]
    refine iff_of_false (fun h => ?_) fun ⟨hcount, hpos⟩ => hgroup (hcount ▸ hpos)
    split at h
    · cases h
    · split at h <;> cases h

/-- Parentheses are reported as unclosed where all tokens are taken. -/
theorem Parsing.ofLexing_eq_unclosed {l : Lexing} {n : Nat} :
    (ofLexing l).result = .error (.unclosed n) ↔
      l.error = none ∧ (Yard.empty.run l.tokens).2 = none ∧ n = Token.unclosed l.tokens ∧ 0 < n := by
  have hlexical (e : LexicalError) : ParseError.unclosed n ≠ .lexical e := by
    intro h
    cases h
  have hadjacency : ¬ (ParseError.unclosed n).IsAdjacency := by
    intro h
    cases h
  rw [ofLexing_eq_error hlexical hadjacency]
  refine and_congr_right fun _ => ⟨?_, fun ⟨hnone, hn, hpos⟩ => ?_⟩
  · rintro ⟨y, hrun, hfinish⟩
    obtain ⟨hcount, hpos⟩ := Yard.finish_eq_unclosed.1 hfinish
    rw [Yard.count_group_of_run hrun] at hcount
    exact ⟨by rw [hrun], hcount.symm, hpos⟩
  · have hrun : Yard.empty.run l.tokens = (_, none) := Prod.ext rfl hnone
    exact ⟨_, hrun, Yard.finish_eq_unclosed.2 ⟨by rw [Yard.count_group_of_run hrun, hn], hpos⟩⟩

/-- Between any two tokens of a text, each segment of what waits is read from the bottom as binary
operators of strictly rising rank, at most four, and negations behind them; and as many groups wait
as opening parentheses have not been closed so far. The parentheses reported as unclosed are those that
nothing closes in the whole text. -/
theorem parse_segments (limit : Int) (source : String) :
    let lexing := Lexing.ofText limit source.toList
    (∀ done y, done <+: lexing.tokens → Yard.empty.run done = (y, none) →
      (∀ segment ∈ y.pending.splitOn .group, ∃ (ops : List Binary) (k : Nat),
        segment.reverse = ops.map (fun op => .operator (.binary op)) ++
          List.replicate k (.operator .negate) ∧
        (ops.map Binary.rank).Pairwise (· < ·) ∧ ops.length ≤ 4) ∧
      y.pending.count .group = Token.unclosed done) ∧
    ∀ n, (parse limit source).result = .error (.unclosed n) ↔
      lexing.error = none ∧ (Yard.empty.run lexing.tokens).2 = none ∧
        n = Token.unclosed lexing.tokens ∧ 0 < n := by
  intro lexing
  refine ⟨fun done y _ hrun => ⟨fun segment hsegment => ?_, Yard.count_group_of_run hrun⟩,
    fun n => Parsing.ofLexing_eq_unclosed⟩
  have horder : Pending.InOrder y.pending := Yard.inOrder_run hrun trivial
  obtain ⟨ops, hreverse, bs, k, rfl, hbs⟩ := horder.segments segment hsegment
  refine ⟨bs, k, ?_, hbs, Pending.length_le_four hbs⟩
  rw [hreverse, List.map_append, List.map_map, List.map_replicate]
  rfl

set_option maxRecDepth 100000 in
/-- A group behind a sign in a product in a sum, with signs in it, and a parenthesis too many before. -/
theorem parse_segments_signs :
    let lexing := Lexing.ofText 64 "x) + 2 * -(3 - --".toList
    let ts : List Token := [.operand (.name "x"), .closing, .operator .add,
      .operand (.number (.int 2)), .operator .multiply, .operator .subtract, .opening,
      .operand (.number (.int 3)), .operator .subtract, .operator .subtract, .operator .subtract]
    let y : Yard := (Yard.empty.run ts).1
    lexing.tokens = ts ∧ ts <+: lexing.tokens ∧ Yard.empty.run ts = (y, none) ∧
      y.pending.splitOn .group =
        [[.operator .negate, .operator .negate, .operator (.binary .subtract)],
          [.operator .negate, .operator (.binary .multiply), .operator (.binary .add)]] ∧
      (∀ segment ∈ y.pending.splitOn .group, ∃ (ops : List Binary) (k : Nat),
        segment.reverse = ops.map (fun op => .operator (.binary op)) ++
          List.replicate k (.operator .negate) ∧
        (ops.map Binary.rank).Pairwise (· < ·) ∧ ops.length ≤ 4) ∧
      y.pending.count .group = 1 ∧ Token.unclosed ts = 1 ∧
      (parse 64 "x) + 2 * -(3 - --").result = .error (.unclosed 1) := by
  intro lexing ts y
  have htokens : lexing.tokens = ts := by decide +kernel
  have herror : lexing.error = none := by decide +kernel
  have hrun : Yard.empty.run ts = (y, none) := rfl
  have hprefix : ts <+: lexing.tokens := htokens ▸ List.prefix_refl ts
  have hunclosed : Token.unclosed ts = 1 := by decide
  obtain ⟨hpoint, hend⟩ := parse_segments 64 "x) + 2 * -(3 - --"
  obtain ⟨hsegments, hcount⟩ := hpoint ts y hprefix hrun
  refine ⟨htokens, hprefix, hrun, by decide, hsegments, by rw [hcount, hunclosed], hunclosed,
    (hend 1).2 ⟨herror, ?_, ?_, Nat.one_pos⟩⟩
  · show (Yard.empty.run lexing.tokens).2 = none
    rw [htokens, hrun]
  · show 1 = Token.unclosed lexing.tokens
    rw [htokens, hunclosed]

end Reckon
