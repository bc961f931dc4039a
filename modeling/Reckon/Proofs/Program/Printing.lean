import Reckon.Proofs.Number.Written
import Reckon.Proofs.Program.Parsing
import Reckon.Proofs.Token.Spelling

/-!
To print a tree and to parse the text gives the tree back.

A tree is printed with its operators between their operands and no more parentheses than the ranks
ask for: around a left operand that binds less tightly than its operator, around a right operand that
does not bind more tightly, and around an operation that is negated. A negation needs none, because it
binds tightest and nothing stands on its left.

         -                              (a + b) * -c - (d - e)
       /   \
      *     -           the left operand of - is looser in no case,
     / \   / \          the right one has the same rank and keeps its parentheses
    +  -c  d  e

What is printed is a draft without gaps that lists the tree, so the yard takes it back to the program,
and every program that leaves one value is the program of some text.
-/

namespace Reckon

/-! ### Printing -/

/-- How a binary operator is written plainly. -/
def Binary.sign : Binary → String
  | .root => "sqrt"
  | .power => "^"
  | .divide => "/"
  | .multiply => "*"
  | .add => "+"
  | .subtract => "-"
  | .equal => "="

/-- How a token is written plainly. -/
def Token.plain : Token → String
  | .operand a => a.text
  | .operator op => op.sign
  | .opening => "("
  | .closing => ")"

/-- Tokens between parentheses where they need some. -/
def Token.grouped (needed : Bool) (ts : List Token) : List Token :=
  if needed then .opening :: ts ++ [.closing] else ts

/-- An operand that can be printed: a natural number within the digit limit, or a text of the shape of
a name that starts with no digit and not with the root. -/
def Operand.IsPlain : Operand → Prop
  | .number (.int n) => 0 ≤ n ∧ (Nat.toDigits 10 n.natAbs).length ≤ Number.digitLimit
  | .number (.float _) => False
  | .name s =>
    (∃ stem sub, s.toList = stem ++ sub ∧ stem ≠ [] ∧ (∀ c ∈ stem, Text.isNameChar c) ∧
      (sub = [] ∨ ∃ s, sub = '_' :: s ∧ s ≠ [] ∧ ∀ c ∈ s, Text.isNameChar c)) ∧
    (∀ c ∈ s.toList.head?, ¬ c.isDigit) ∧ ¬ "sqrt".toList <+: s.toList

namespace Tree

/-- The operator at the root of a tree that is no leaf. -/
def root? {α : Type} : Tree α → Option Operator
  | .leaf _ => none
  | .negate _ => some .negate
  | .binary op _ _ => some (.binary op)

/-- The tokens of a tree, each binary operator between its operands. -/
def tokens : Tree Operand → List Token
  | .leaf a => [.operand a]
  | .negate t => .operator .subtract :: Token.grouped (t.root?.any (· != .negate)) t.tokens
  | .binary op left right =>
    Token.grouped (left.root?.any fun o => o.rank < op.rank) left.tokens ++
      .operator op ::
        Token.grouped (right.root?.any fun o => o != .negate && o.rank ≤ op.rank) right.tokens

/-- The text of a tree: its tokens, a blank between them. -/
def printed (t : Tree Operand) : String := " ".intercalate (t.tokens.map Token.plain)

/-- How tightly a printed tree holds together; a leaf and a negation are as tight as can be. -/
def rank {α : Type} (t : Tree α) : Nat := (t.root?.map Operator.rank).getD 4

end Tree

/-! ### What is printed is a draft -/

theorem Draft.grouped {needed : Bool} {k r : Nat} {p : Program} {ts : List Token}
    (h : Draft true r 0 p ts) (hk : k ≤ 4) (hr : needed = false → k ≤ r) :
    Draft true k 0 p (Token.grouped needed ts) := by
  cases needed with
  | true => exact (h.antitone (Nat.zero_le r)).group.antitone hk
  | false => exact h.antitone (hr rfl)

/-- An operand that can be printed is spelled by its text. -/
theorem Operand.IsPlain.spelled {a : Operand} (h : a.IsPlain) :
    (Token.operand a).Spelled (Token.operand a).plain.toList := by
  match a, h with
  | .number (.int n), h =>
    obtain ⟨hnonneg, hlength⟩ := h
    obtain ⟨n, rfl⟩ := Int.eq_ofNat_of_zero_le hnonneg
    rw [Int.natAbs_natCast] at hlength
    have hnumeral := Token.Spelled.numeral (Numeral.plain_ofNat n) (Numeral.value_ofNat hlength)
    rw [Numeral.text_ofNat, ← Number.toList_intText] at hnumeral
    exact hnumeral
  | .name s, h =>
    have hname : (Token.operand (.name (String.ofList s.toList))).Spelled s.toList :=
      .name (isName_iff.2 h)
    rw [String.ofList_toList] at hname
    exact hname

namespace Tree

/-- The printed tokens of a tree are a draft without gaps that lists the tree. -/
theorem draft_tokens (t : Tree Operand) : Draft true t.rank 0 t.postorder t.tokens := by
  induction t with
  | leaf a => exact .operand a
  | negate t ih =>
    refine .negate (ih.grouped (Nat.le_refl 4) fun hneeded => ?_)
    -- what needs no parentheses is a leaf or a negation
    cases t with
    | leaf a => exact Nat.le_refl 4
    | negate t => exact Nat.le_refl 4
    | binary op l r => simp [root?] at hneeded
  | binary op l r ihl ihr =>
    have hrank : op.rank ≤ 3 := op.rank_le
    refine .chain rfl (ihl.grouped (by omega) fun hneeded => ?_)
      (ihr.grouped (by omega) fun hneeded => ?_)
    · cases l with
      | leaf a => exact Nat.le_succ_of_le hrank
      | negate l => exact Nat.le_succ_of_le hrank
      | binary o l₁ l₂ =>
        have hloose : ¬ o.rank < op.rank := of_decide_eq_false hneeded
        exact Nat.le_of_not_lt hloose
    · cases r with
      | leaf a => exact Nat.succ_le_succ hrank
      | negate r => exact Nat.succ_le_succ hrank
      | binary o r₁ r₂ =>
        have hloose : ¬ o.rank ≤ op.rank := of_decide_eq_false hneeded
        exact Nat.lt_of_not_le hloose

theorem spelled_tokens {t : Tree Operand} (h : ∀ a, .operand a ∈ t.postorder → a.IsPlain) :
    ∀ token ∈ t.tokens, token.Spelled token.plain.toList := by
  intro token htoken
  cases token with
  | opening => exact .fixed (by simp [Token.spellings, Token.plain])
  | closing => exact .fixed (by simp [Token.spellings, Token.plain])
  | operator op => exact .fixed (by cases op <;> simp [Token.spellings, Token.plain, Binary.sign])
  | operand a => exact Operand.IsPlain.spelled (h a (t.draft_tokens.mem_operand.2 htoken))

/-- A tree whose operands can be printed, with one equals sign at most, is parsed from its text. -/
theorem parse_of_printed {t : Tree Operand} (limit : Int)
    (h : ∀ a, .operand a ∈ t.postorder → a.IsPlain) (hequals : t.postorder.count .equals ≤ 1) :
    parse limit t.printed = ⟨.ok t.postorder, 0⟩ := by
  have hreads : Reads limit t.printed.toList t.tokens := .of_intercalate (spelled_tokens h)
  have hlexing := tokenize_eq_ok.1 (tokenize_eq_ok_iff_reads.2 hreads)
  have hcheck : checkOperands t.postorder = .ok () :=
    checkOperands_eq_ok.2 (.inr (depthAfter_postorder 0 t))
  have hdraft := t.draft_tokens.antitone (Nat.zero_le _)
  rw [parse, hlexing, Parsing.ofLexing_draft hdraft hequals hcheck]

/-- The text of a tree is parsed to the listing of the tree, and no closing parenthesis is ignored.
So every program that the operand check accepts is the program of some text. -/
theorem parse_printed (limit : Int) :
    (∀ t : Tree Operand, (∀ a, .operand a ∈ t.postorder → a.IsPlain) →
      t.postorder.count .equals ≤ 1 →
      (parse limit t.printed).result = .ok t.postorder ∧ (parse limit t.printed).ignored = 0) ∧
    ∀ p : Program, checkOperands p = .ok () → (∀ a, .operand a ∈ p → a.IsPlain) →
      p.count .equals ≤ 1 →
      ∃ source, (parse limit source).result = .ok p ∧ (parse limit source).ignored = 0 := by
  refine ⟨fun t hplain hequals => ?_, fun p hcheck hplain hequals => ?_⟩
  · rw [parse_of_printed limit hplain hequals]
    exact ⟨rfl, rfl⟩
  · rcases checkOperands_eq_ok.1 hcheck with rfl | hone
    · have hreads : Reads limit "".toList [] := .done rfl
      have hlexing := tokenize_eq_ok.1 (tokenize_eq_ok_iff_reads.2 hreads)
      refine ⟨"", ?_⟩
      rw [parse, hlexing]
      exact ⟨rfl, rfl⟩
    · obtain ⟨t, rfl⟩ := depthAfter_eq_one_iff.1 hone
      refine ⟨t.printed, ?_⟩
      rw [parse_of_printed limit hplain hequals]
      exact ⟨rfl, rfl⟩

/-- A difference under a power with a negated exponent, and a difference on the right of another. -/
theorem parse_printed_differences :
    let x : Tree Operand := .leaf (.name "x_1")
    let a : Tree Operand := .leaf (.name "a")
    let t : Tree Operand := .binary .equal
      (.binary .power (.binary .subtract x (.leaf (.number (.int 2)))) (.negate a))
      (.binary .subtract (.leaf (.number (.int 7))) (.binary .subtract a x))
    (∀ a, .operand a ∈ t.postorder → a.IsPlain) ∧ t.postorder.count .equals ≤ 1 ∧
      checkOperands t.postorder = .ok () ∧ t.printed = "( x_1 - 2 ) ^ - a = 7 - ( a - x_1 )" ∧
      (parse 64 "( x_1 - 2 ) ^ - a = 7 - ( a - x_1 )").result = .ok t.postorder ∧
      (parse 64 "( x_1 - 2 ) ^ - a = 7 - ( a - x_1 )").ignored = 0 ∧
      ∃ source, (parse 64 source).result = .ok t.postorder ∧ (parse 64 source).ignored = 0 := by
  intro x a t
  have hx : Operand.IsPlain (.name "x_1") :=
    ⟨⟨['x'], ['_', '1'], rfl, by decide, List.forall_mem_singleton.2 rfl,
      .inr ⟨['1'], rfl, by decide, List.forall_mem_singleton.2 rfl⟩⟩, by simp, by decide⟩
  have ha : Operand.IsPlain (.name "a") :=
    ⟨⟨['a'], [], rfl, by decide, List.forall_mem_singleton.2 rfl, .inl rfl⟩, by simp, by decide⟩
  have htwo : Operand.IsPlain (.number (.int 2)) := And.intro (by decide) (by decide)
  have hseven : Operand.IsPlain (.number (.int 7)) := And.intro (by decide) (by decide)
  have hplain : ∀ b, .operand b ∈ t.postorder → b.IsPlain := by
    intro b hb
    have hcases : b = .name "x_1" ∨ b = .number (.int 2) ∨ b = .name "a" ∨ b = .number (.int 7) ∨
        b = .name "a" ∨ b = .name "x_1" := by
      simpa [t, x, a, Tree.postorder] using hb
    rcases hcases with rfl | rfl | rfl | rfl | rfl | rfl
    · exact hx
    · exact htwo
    · exact ha
    · exact hseven
    · exact ha
    · exact hx
  have hequals : t.postorder.count .equals ≤ 1 := by decide
  have hcheck : checkOperands t.postorder = .ok () := by decide
  have hprinted : t.printed = "( x_1 - 2 ) ^ - a = 7 - ( a - x_1 )" := by decide +kernel
  obtain ⟨htree, hprogram⟩ := parse_printed 64
  obtain ⟨hresult, hignored⟩ := htree t hplain hequals
  rw [hprinted] at hresult hignored
  exact ⟨hplain, hequals, hcheck, hprinted, hresult, hignored,
    hprogram t.postorder hcheck hplain hequals⟩

end Tree

end Reckon
