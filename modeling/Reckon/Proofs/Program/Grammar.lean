import Mathlib.Data.List.Infix
import Reckon.Program.Yard
import Reckon.Proofs.Program.Depth

/-!
The precedence grammar, and phrases with gaps in them.

A phrase is a list of tokens that the grammar derives, together with its tree. There is one rank for
each level of binding; a tighter phrase is a looser one, and joining goes from the left.

    rank 0   expr  := sum ['=' sum]
         1   sum   := term (('+' | '-') term)*
         2   term  := power (('*' | '/') power)*
         3   power := unary (('^' | 'sqrt') unary)*
         4   unary := '-' unary | operand | '(' expr ')'

The parser sees a missing operand only after all tokens are read. What it has in hand until then is a
draft: a phrase in which an operand may be missing where a group or the text ends, with the program
it lists and the number of its gaps. Counting separates the two: a program with operators leaves one
value exactly where its draft has no gap, and a draft without gaps is a phrase.

    ( 2 + ) * 3     draft    2 plus 3 mul    one gap
    ( 2 + 1 ) * 3   phrase   2 1 plus 3 mul  no gap
-/

namespace Reckon

/-- The tokens that derive a tree at a rank. -/
inductive Phrase : Nat → Tree Operand → List Token → Prop
  | operand (a : Operand) : Phrase 4 (.leaf a) [.operand a]
  | group {t : Tree Operand} {ts : List Token} :
      Phrase 0 t ts → Phrase 4 t (.opening :: ts ++ [.closing])
  | negate {t : Tree Operand} {ts : List Token} :
      Phrase 4 t ts → Phrase 4 (.negate t) (.operator .subtract :: ts)
  | loosen {k : Nat} {t : Tree Operand} {ts : List Token} : Phrase (k + 1) t ts → Phrase k t ts
  | chain {k : Nat} {op : Binary} {l r : Tree Operand} {ls rs : List Token} :
      op.rank = k → 0 < k → Phrase k l ls → Phrase (k + 1) r rs →
      Phrase k (.binary op l r) (ls ++ .operator op :: rs)
  | equation {l r : Tree Operand} {ls rs : List Token} :
      Phrase 1 l ls → Phrase 1 r rs →
      Phrase 0 (.binary .equal l r) (ls ++ .operator .equal :: rs)

/-- A phrase in which operands may be missing at the end of a group or of the text: whether it ends
in an operand, its rank, the number of its gaps, the program it lists, and its tokens. -/
inductive Draft : Bool → Nat → Nat → Program → List Token → Prop
  | gap : Draft false 4 1 [] []
  | operand (a : Operand) : Draft true 4 0 [.operand a] [.operand a]
  | group {b : Bool} {g : Nat} {p : Program} {ts : List Token} :
      Draft b 0 g p ts → Draft true 4 g p (.opening :: ts ++ [.closing])
  | negate {b : Bool} {g : Nat} {p : Program} {ts : List Token} :
      Draft b 4 g p ts → Draft b 4 g (p ++ [.operator .negate]) (.operator .subtract :: ts)
  | loosen {b : Bool} {k g : Nat} {p : Program} {ts : List Token} :
      Draft b (k + 1) g p ts → Draft b k g p ts
  | chain {b : Bool} {k g₁ g₂ : Nat} {op : Binary} {p₁ p₂ : Program} {ts₁ ts₂ : List Token} :
      op.rank = k → Draft true k g₁ p₁ ts₁ → Draft b (k + 1) g₂ p₂ ts₂ →
      Draft b k (g₁ + g₂) (p₁ ++ p₂ ++ [.operator (.binary op)]) (ts₁ ++ .operator op :: ts₂)

/-- No beginning of the tokens closes more groups than it opens. -/
def Token.Matched (ts : List Token) : Prop :=
  ∀ done, done <+: ts → done.count .closing ≤ done.count .opening

instance (ts : List Token) : Decidable (Token.Matched ts) :=
  decidable_of_iff (∀ done ∈ ts.inits, done.count .closing ≤ done.count .opening) <| by
    simp [Token.Matched, List.mem_inits]

/-- The token of an equals sign. -/
abbrev Token.equals : Token := .operator .equal

/-- The instruction of an equals sign. -/
abbrev Instruction.equals : Instruction Operand := .operator (.binary .equal)

namespace Draft

variable {b : Bool} {k g : Nat} {p : Program} {ts : List Token}

theorem antitone {k' : Nat} (h : Draft b k g p ts) (hk : k' ≤ k) : Draft b k' g p ts := by
  induction hk with
  | refl => exact h
  | step _ ih => exact ih h.loosen

/-- Every phrase is a draft without gaps. -/
theorem of_phrase {t : Tree Operand} (h : Phrase k t ts) : Draft true k 0 t.postorder ts := by
  induction h with
  | operand a => exact .operand a
  | group _ ih => exact .group ih
  | negate _ ih => exact .negate ih
  | loosen _ ih => exact .loosen ih
  | chain hop _ _ _ ihl ihr => exact .chain hop ihl ihr
  | equation _ _ ihl ihr =>
    have hrank : Binary.rank .equal = 0 := rfl
    exact .chain hrank ihl.loosen ihr

theorem count_closing (h : Draft b k g p ts) : ts.count .closing = ts.count .opening := by
  induction h with
  | gap => rfl
  | operand a => simp
  | group _ ih => simp [ih]
  | negate _ ih => simp [ih]
  | loosen _ ih => exact ih
  | chain _ _ _ ih₁ ih₂ => simp [ih₁, ih₂]

/-- Each equals sign is listed once. -/
theorem count_equals (h : Draft b k g p ts) : p.count .equals = ts.count .equals := by
  induction h with
  | gap => rfl
  | operand a => simp
  | group _ ih => simp [ih]
  | negate _ ih => simp [ih]
  | loosen _ ih => exact ih
  | @chain b k g₁ g₂ op p₁ p₂ ts₁ ts₂ _ _ _ ih₁ ih₂ =>
    rw [List.count_append, List.count_append, List.count_append, List.count_cons, ih₁, ih₂]
    cases op <;> simp
    omega

theorem mem_operand {a : Operand} (h : Draft b k g p ts) : .operand a ∈ p ↔ .operand a ∈ ts := by
  induction h with
  | gap => simp
  | operand a => simp
  | group _ ih => simp [ih]
  | negate _ ih => simp [ih]
  | loosen _ ih => exact ih
  | chain _ _ _ ih₁ ih₂ => simp [ih₁, ih₂]

/-- Only nested groups around a gap list nothing. -/
theorem nest_of_nil (h : Draft b k g p ts) (hp : p = []) :
    ∃ n, ts = List.replicate n .opening ++ List.replicate n .closing := by
  induction h with
  | gap => exact ⟨0, rfl⟩
  | operand a => simp at hp
  | group _ ih =>
    obtain ⟨n, rfl⟩ := ih hp
    refine ⟨n + 1, ?_⟩
    rw [List.replicate_succ, List.replicate_succ']
    simp
  | negate _ _ => simp at hp
  | loosen _ ih => exact ih hp
  | chain _ _ _ _ _ => simp at hp

theorem of_nest (n : Nat) :
    ∃ b, Draft b 0 1 [] (List.replicate n .opening ++ List.replicate n .closing) := by
  induction n with
  | zero => exact ⟨false, gap.antitone (Nat.zero_le 4)⟩
  | succ n ih =>
    obtain ⟨b, h⟩ := ih
    have hgroup := h.group.antitone (Nat.zero_le 4)
    refine ⟨true, ?_⟩
    rw [List.replicate_succ, List.replicate_succ']
    simpa using hgroup

end Draft

/-! ### Drafts without gaps are phrases -/

/-- An expression without an equals sign is a sum. -/
theorem Phrase.tighten {k : Nat} {t : Tree Operand} {ts : List Token} (h : Phrase k t ts)
    (hk : k = 0) (heq : ts.count .equals = 0) : Phrase 1 t ts := by
  cases h with
  | operand a => omega
  | group _ => omega
  | negate _ => omega
  | loosen h =>
    rw [hk] at h
    exact h
  | chain _ hpos _ _ => omega
  | equation _ _ => simp at heq

/-- A draft without gaps and with one equals sign at most is a phrase. -/
theorem Draft.exists_phrase {b : Bool} {k g : Nat} {p : Program} {ts : List Token}
    (h : Draft b k g p ts) (hg : g = 0) (heq : ts.count .equals ≤ 1) :
    ∃ t, Phrase k t ts ∧ p = t.postorder := by
  induction h with
  | gap => omega
  | operand a => exact ⟨.leaf a, .operand a, rfl⟩
  | group _ ih =>
    obtain ⟨t, ht, rfl⟩ := ih hg (by simpa using heq)
    exact ⟨t, .group ht, rfl⟩
  | negate _ ih =>
    obtain ⟨t, ht, rfl⟩ := ih hg (by simpa using heq)
    exact ⟨.negate t, .negate ht, rfl⟩
  | loosen _ ih =>
    obtain ⟨t, ht, rfl⟩ := ih hg heq
    exact ⟨t, .loosen ht, rfl⟩
  | @chain b k g₁ g₂ op p₁ p₂ ts₁ ts₂ hop _ _ ih₁ ih₂ =>
    rw [List.count_append, List.count_cons] at heq
    obtain ⟨l, hl, rfl⟩ := ih₁ (by omega) (by omega)
    obtain ⟨r, hr, rfl⟩ := ih₂ (by omega) (by omega)
    refine ⟨.binary op l r, ?_, rfl⟩
    rcases Nat.eq_zero_or_pos k with rfl | hpos
    · -- the only operator of rank zero is the equals sign, so neither side holds another one
      obtain rfl : op = .equal := by cases op <;> simp [Binary.rank] at hop ⊢
      simp only [beq_self_eq_true, if_true] at heq
      exact .equation (hl.tighten rfl (by omega)) hr
    · exact .chain hop hpos hl hr

/-! ### Counting finds the gaps -/

/-- A program leaves one value more than it found for each draft, and one less for each gap. -/
theorem Draft.balance {b : Bool} {k g d d' : Nat} {p : Program} {ts : List Token}
    (h : Draft b k g p ts) (hd : depthAfter d p = .ok d') : d' + g = d + 1 := by
  induction h generalizing d d' with
  | gap =>
    rw [depthAfter_nil, Except.ok.injEq] at hd
    omega
  | operand a =>
    have hstep : d + 1 = d' := by
      simpa [depthAfter_cons, Instruction.depth, Except.bind] using hd
    omega
  | group _ ih => exact ih hd
  -- an operator of `n` operands lowers the depth by `n - 1`, which is what its parts are above `d + 1`
  | negate _ ih =>
    obtain ⟨e, hp, hop⟩ := depthAfter_append_eq_ok.1 hd
    obtain ⟨hle, rfl⟩ := depthAfter_operator.1 hop
    have := ih hp
    simp only [Operator.arity] at hle ⊢
    omega
  | loosen _ ih => exact ih hd
  | chain _ _ _ ih₁ ih₂ =>
    rw [List.append_assoc] at hd
    obtain ⟨e₁, h₁, hd⟩ := depthAfter_append_eq_ok.1 hd
    obtain ⟨e₂, h₂, hop⟩ := depthAfter_append_eq_ok.1 hd
    obtain ⟨hle, rfl⟩ := depthAfter_operator.1 hop
    have hleft := ih₁ h₁
    have hright := ih₂ h₂
    simp only [Operator.arity] at hle ⊢
    omega

theorem Draft.gaps_pos {b : Bool} {k g : Nat} {p : Program} {ts : List Token}
    (h : Draft b k g p ts) (hb : b = false) : 0 < g := by
  induction h with
  | gap => exact Nat.zero_lt_one
  | operand a => cases hb
  | group _ _ => cases hb
  | negate _ ih => exact ih hb
  | loosen _ ih => exact ih hb
  | chain _ _ _ _ ih => exact Nat.add_pos_right _ (ih hb)

theorem Draft.gaps_eq_zero {b : Bool} {k g : Nat} {p : Program} {ts : List Token}
    (h : Draft b k g p ts) (hp : p ≠ []) (hcheck : checkOperands p = .ok ()) : g = 0 := by
  have hone : depthAfter 0 p = .ok 1 := (checkOperands_eq_ok.1 hcheck).resolve_left hp
  have := h.balance hone
  omega

end Reckon
