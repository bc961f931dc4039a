import Mathlib.Algebra.Ring.Int.Parity
import Reckon.Proofs.Program.Fold

/-!
Integers are computed exactly.

Sums, differences, products and negations of integers are integers, and so are powers with a natural
exponent. A program that has integers for its operands, no other operators and natural exponents has a
value in the ring of integers, and that is its numeric value. Nothing on the way leaves the integers:
wherever the program is cut, the machine has integers on its stack and nothing else.

    2 x y exp mul      x = -3, y = 5       stack   2 │ 2 -3 │ 2 -3 5 │ 2 -243 │ -486
-/

namespace Reckon

/-! ### The ring of integers -/

/-- What an operator makes of two integers in their ring; a power is the base times itself as often as
the exponent says. None where the result may be no integer. -/
def Binary.integer? : Binary → Int → Int → Option Int
  | .add, x, y => some (x + y)
  | .subtract, x, y => some (x - y)
  | .multiply, x, y => some (x * y)
  | .power, x, y => if 0 ≤ y then some (x ^ y.toNat) else none
  | .root, _, _ | .divide, _, _ | .equal, _, _ => none

namespace Tree

/-- The value of a tree of integers in their ring, if it has one. -/
def integer? : Tree Int → Option Int
  | .leaf n => some n
  | .negate t => do
    let x ← t.integer?
    return -x
  | .binary op left right => do
    let x ← left.integer?
    let y ← right.integer?
    op.integer? x y

/-- The tree and all trees below its root. -/
def subtrees {α : Type} : Tree α → List (Tree α)
  | .leaf a => [.leaf a]
  | .negate t => .negate t :: t.subtrees
  | .binary op left right => .binary op left right :: (left.subtrees ++ right.subtrees)

end Tree

/-- The operators that lead from integers to integers, if exponents are natural. -/
def Binary.exact : List Binary := [.add, .subtract, .multiply, .power]

namespace Number

theorem intPow_eq (x : Int) (n : Nat) : intPow x n = x ^ n := by
  have hmagnitude : (natPow x.natAbs n : Int) = (x.natAbs : Int) ^ n := by
    rw [natPow_eq]
    exact Int.natCast_pow x.natAbs n
  rw [intPow, hmagnitude]
  by_cases hx : x < 0
  · have hneg : x = -(x.natAbs : Int) := by omega
    by_cases hn : n % 2 = 1
    · have hodd : Odd n := Nat.odd_iff.2 hn
      rw [if_pos ⟨hx, hn⟩, ← hodd.neg_pow, ← hneg]
    · have heven : Even n := Nat.even_iff.2 (by omega)
      rw [if_neg fun h => hn h.2, ← heven.neg_pow, ← hneg]
  · rw [if_neg fun h => hx h.1, Int.natAbs_of_nonneg (by omega)]

end Number

/-- Where an operator stays in the integers, it computes the same. -/
theorem Application.compute_int {op : Binary} {x y z : Int} (h : op.integer? x y = some z) :
    (Application.binary op (.int x) (.int y)).compute = .ok (.int z) := by
  cases op with
  | root => cases h
  | divide => cases h
  | equal => cases h
  | add =>
    obtain rfl := Option.some.inj h
    rfl
  | subtract =>
    obtain rfl := Option.some.inj h
    rfl
  | multiply =>
    obtain rfl := Option.some.inj h
    rfl
  | power =>
    rw [Binary.integer?] at h
    split at h
    · next hy =>
      obtain rfl := Option.some.inj h
      obtain ⟨n, rfl⟩ := Int.eq_ofNat_of_zero_le hy
      exact congrArg (fun k => Except.ok (Number.int k)) (Number.intPow_eq x n)
    · cases h

namespace Tree

variable {u : Tree Int} {z : Int}

theorem integer?_negate {t : Tree Int} :
    (negate t).integer? = some z ↔ ∃ x, t.integer? = some x ∧ -x = z := by
  rw [integer?]
  cases t.integer? <;> simp

theorem integer?_binary {op : Binary} {l r : Tree Int} : (binary op l r).integer? = some z ↔
    ∃ x y, l.integer? = some x ∧ r.integer? = some y ∧ op.integer? x y = some z := by
  rw [integer?]
  cases l.integer? <;> cases r.integer? <;> simp

/-- A tree with a value in the ring of integers is evaluated to it. -/
theorem evaluate_of_integer? (h : u.integer? = some z) :
    (u.map Number.int).evaluate = .ok (.int z) := by
  induction u generalizing z with
  | leaf n =>
    obtain rfl := Option.some.inj h
    rfl
  | negate t ih =>
    obtain ⟨x, hx, rfl⟩ := integer?_negate.1 h
    rw [map, evaluate, ih hx]
    rfl
  | binary op l r ihl ihr =>
    obtain ⟨x, y, hx, hy, hz⟩ := integer?_binary.1 h
    rw [map, evaluate, ihl hx, ihr hy]
    exact Application.compute_int hz

/-- In a tree with exact operators and natural exponents, every operator stays in the integers. -/
theorem exists_integer? (hops : ∀ op, .operator (.binary op) ∈ u.postorder → op ∈ Binary.exact)
    (hexponents : ∀ l r, .binary .power l r ∈ u.subtrees → ∃ y, r.integer? = some y ∧ 0 ≤ y) :
    ∃ z, u.integer? = some z := by
  induction u with
  | leaf n => exact ⟨n, rfl⟩
  | negate t ih =>
    obtain ⟨x, hx⟩ := ih (fun op hop => hops op (by simp [postorder, hop]))
      fun l r hmem => hexponents l r (List.mem_cons_of_mem _ hmem)
    exact ⟨-x, integer?_negate.2 ⟨x, hx, rfl⟩⟩
  | binary op l r ihl ihr =>
    obtain ⟨x, hx⟩ := ihl (fun o ho => hops o (by simp [postorder, ho]))
      fun l' r' hmem => hexponents l' r' (List.mem_cons_of_mem _ (List.mem_append_left _ hmem))
    obtain ⟨y, hy⟩ := ihr (fun o ho => hops o (by simp [postorder, ho]))
      fun l' r' hmem => hexponents l' r' (List.mem_cons_of_mem _ (List.mem_append_right _ hmem))
    obtain ⟨z, hz⟩ : ∃ z, op.integer? x y = some z := by
      have hop : op ∈ Binary.exact := hops op (by simp [postorder])
      cases op with
      | add => exact ⟨_, rfl⟩
      | subtract => exact ⟨_, rfl⟩
      | multiply => exact ⟨_, rfl⟩
      | power =>
        obtain ⟨y', hy', hnonneg⟩ := hexponents l r (List.mem_cons_self ..)
        obtain rfl := Option.some.inj (hy.symm.trans hy')
        exact ⟨_, if_pos hnonneg⟩
      | root => exact absurd hop (by decide)
      | divide => exact absurd hop (by decide)
      | equal => exact absurd hop (by decide)
    exact ⟨z, integer?_binary.2 ⟨x, y, hx, hy, hz⟩⟩

theorem foldlM_integer? (h : u.integer? = some z) (stack : List Int) :
    (u.map Number.int).postorder.foldlM Number.step (stack.map Number.int) =
      pure ((z :: stack).map Number.int) := by
  have hfold := Machine.foldlM_postorder (fun (a : Application Number) _ => a.compute)
    (u.map Number.int) (stack.map Number.int)
  rw [foldM_compute, evaluate_of_integer? h] at hfold
  exact hfold

/-- A run that leaves integers wherever it is cut, and at its end after one instruction more. -/
theorem exists_integers_concat {q : List (Instruction Number)} {i : Instruction Number}
    {start : List Number} {stack : List Int}
    (hcut : ∀ front, front <+: q →
      ∃ ns : List Int, front.foldlM Number.step start = pure (ns.map Number.int))
    (hend : (q ++ [i]).foldlM Number.step start = pure (stack.map Number.int)) :
    ∀ front, front <+: q ++ [i] →
      ∃ ns : List Int, front.foldlM Number.step start = pure (ns.map Number.int) := by
  intro front hfront
  rcases List.prefix_concat_iff.1 hfront with rfl | hfront
  · exact ⟨stack, hend⟩
  · exact hcut front hfront

/-- Wherever the run over the listing is cut, there are integers on the stack. -/
theorem exists_integers (h : u.integer? = some z) (stack : List Int) :
    ∀ front, front <+: (u.map Number.int).postorder →
      ∃ ns : List Int, front.foldlM Number.step (stack.map Number.int) = pure (ns.map Number.int) := by
  induction u generalizing z stack with
  | leaf n =>
    refine exists_integers_concat (q := []) ?_ (foldlM_integer? h stack)
    intro front hfront
    rw [List.prefix_nil.1 hfront]
    exact ⟨stack, rfl⟩
  | negate t ih =>
    obtain ⟨x, hx, _⟩ := integer?_negate.1 h
    exact exists_integers_concat (ih hx stack) (foldlM_integer? h stack)
  | binary op l r ihl ihr =>
    obtain ⟨x, y, hx, hy, _⟩ := integer?_binary.1 h
    refine exists_integers_concat (Group.forall_prefix_append.2 ⟨ihl hx stack, fun front hfront => ?_⟩)
      (foldlM_integer? h stack)
    -- the right operand is computed above the value of the left one
    rw [List.foldlM_append, foldlM_integer? hx]
    exact ihr hy (x :: stack) front hfront

end Tree

/-- A tree that has only images for its leaves is an image. -/
theorem Tree.exists_map {α β : Type} {f : α → β} {t : Tree β}
    (h : ∀ b, .operand b ∈ t.postorder → ∃ a, f a = b) : ∃ u : Tree α, u.map f = t := by
  induction t with
  | leaf b =>
    obtain ⟨a, rfl⟩ := h b (List.mem_singleton_self _)
    exact ⟨.leaf a, rfl⟩
  | negate t ih =>
    obtain ⟨u, rfl⟩ := ih fun b hb => h b (by simp [postorder, hb])
    exact ⟨.negate u, rfl⟩
  | binary op l r ihl ihr =>
    obtain ⟨ul, rfl⟩ := ihl fun b hb => h b (by simp [postorder, hb])
    obtain ⟨ur, rfl⟩ := ihr fun b hb => h b (by simp [postorder, hb])
    exact ⟨.binary op ul ur, rfl⟩

theorem Tree.map_injective {α β : Type} {f : α → β} (hf : Function.Injective f) :
    Function.Injective (Tree.map f) := by
  intro t u h
  induction t generalizing u with
  | leaf a =>
    cases u with
    | leaf b => rw [hf (leaf.inj h)]
    | negate u => cases h
    | binary op l r => cases h
  | negate t ih =>
    cases u with
    | leaf b => cases h
    | negate u => rw [ih (negate.inj h)]
    | binary op l r => cases h
  | binary op l r ihl ihr =>
    cases u with
    | leaf b => cases h
    | negate u => cases h
    | binary o l' r' =>
      obtain ⟨rfl, hl, hr⟩ := binary.inj h
      rw [ihl hl, ihr hr]

namespace Program

variable {v : Valuation} {p : Program}

/-- Where all operands stand for integers, the program has a tree of integers. -/
theorem exists_integer_tree {t : Tree Operand}
    (hnumbers : ∀ n, .operand (.number n) ∈ t.postorder → ∃ k, n = .int k)
    (hnames : ∀ s, .operand (.name s) ∈ t.postorder → ∃ k, v s = some (.int k)) :
    ∃ u : Tree Int, numeric? v t.postorder = some (u.map Number.int).postorder ∧
      t.map (Operand.resolve v) = (u.map Number.int).map .number := by
  obtain ⟨w, hnumeric, hmap⟩ : ∃ w : Tree Number, numeric? v t.postorder = some w.postorder ∧
      t.map (Operand.resolve v) = w.map .number :=
    exists_numeric fun s hs => by
      obtain ⟨k, hk⟩ := hnames s hs
      rw [hk]
      rfl
  -- the numeric tree exists as names have values; that its leaves are integers is read off the listing
  obtain ⟨u, rfl⟩ : ∃ u : Tree Int, u.map Number.int = w := by
    refine Tree.exists_map fun n hn => ?_
    have hresolved : .operand (.number n) ∈ (t.map (Operand.resolve v)).postorder := by
      rw [hmap, Tree.postorder_map]
      exact List.mem_map.2 ⟨_, hn, rfl⟩
    rw [Tree.postorder_map] at hresolved
    obtain ⟨i, hi, heq⟩ := List.mem_map.1 hresolved
    rcases i with (m | s) | op
    · obtain ⟨k, rfl⟩ := hnumbers m hi
      exact ⟨k, Operand.number.inj (Instruction.operand.inj heq)⟩
    · obtain ⟨k, hk⟩ := hnames s hi
      have hs : Operand.resolve v (.name s) = .number n := Instruction.operand.inj heq
      rw [Operand.resolve, hk] at hs
      exact ⟨k, Operand.number.inj hs⟩
    · cases heq
  exact ⟨u, hnumeric, hmap⟩

theorem not_isEquation (hoperators : ∀ op, .operator (.binary op) ∈ p → op ∈ Binary.exact) :
    ¬ p.isEquation := by
  intro h
  exact absurd (hoperators .equal (isEquation_iff.1 h)) (by decide)

theorem exists_numeric?_of_prefix {front : Program} {code : List (Instruction Number)}
    (h : p.numeric? v = some code) (hfront : front <+: p) :
    ∃ start, front.numeric? v = some start ∧ start <+: code := by
  obtain ⟨rest, rfl⟩ := hfront
  rw [numeric?, List.mapM_append] at h
  obtain ⟨start, hstart, h⟩ := Option.bind_eq_some_iff.1 h
  obtain ⟨last, hlast, h⟩ := Option.bind_eq_some_iff.1 h
  exact ⟨start, hstart, last, Option.some.inj h⟩

theorem eq_of_tree {t : Tree Operand} {u w : Tree Int}
    (hmap : t.map (Operand.resolve v) = (u.map Number.int).map .number)
    (htree : tree v t.postorder = .ok ((w.map Number.int).map .number)) : w = u := by
  have hnumber : Function.Injective Operand.number := fun _ _ => Operand.number.inj
  have hint : Function.Injective Number.int := fun _ _ => Number.int.inj
  rw [tree_postorder, hmap] at htree
  exact (Tree.map_injective hint (Tree.map_injective hnumber (Except.ok.inj htree))).symm

/-- A program of a text with integers for its operands and no operators but negation, sum, difference,
product and power has a tree of integers. If all exponents in the tree are natural, the program is
computed to the value of the tree in the ring of integers, and wherever the machine is stopped on the
way, it has integers on its stack. -/
theorem calculate_integer {limit : Int} {source : String}
    (h : (parse limit source).result = .ok p) (hne : p ≠ [])
    (hnumbers : ∀ n, .operand (.number n) ∈ p → ∃ k, n = .int k)
    (hnames : ∀ s, .operand (.name s) ∈ p → ∃ k, v s = some (.int k))
    (hoperators : ∀ op, .operator (.binary op) ∈ p → op ∈ Binary.exact) :
    (∃ u : Tree Int, p.tree v = .ok ((u.map Number.int).map .number)) ∧
      ∀ u : Tree Int, p.tree v = .ok ((u.map Number.int).map .number) →
        (∀ l r, .binary .power l r ∈ u.subtrees → ∃ y, r.integer? = some y ∧ 0 ≤ y) →
        ∃ z, u.integer? = some z ∧ p.calculate v = .ok (.int z) ∧
          ∀ front, front <+: p → ∃ (code : List (Instruction Number)) (ns : List Int),
            numeric? v front = some code ∧
              (code.foldlM Number.step []).run = .ok (.ok (ns.map Number.int)) := by
  obtain ⟨t, rfl⟩ := exists_tree_of_parse h hne
  obtain ⟨u, hnumeric, hmap⟩ := exists_integer_tree hnumbers hnames
  refine ⟨⟨u, by rw [tree_postorder, hmap]⟩, fun w htree hexponents => ?_⟩
  obtain rfl := eq_of_tree hmap htree
  obtain ⟨z, hz⟩ : ∃ z, w.integer? = some z := by
    refine Tree.exists_integer? (fun op hop => hoperators op ?_) hexponents
    rw [← Tree.operator_mem_map, hmap, Tree.operator_mem_map, Tree.operator_mem_map]
    exact hop
  refine ⟨z, hz, ?_, fun front hfront => ?_⟩
  · rw [calculate, if_neg (not_isEquation hoperators), hnumeric]
    exact (computePostfix_postorder _).trans (Tree.evaluate_of_integer? hz)
  · obtain ⟨code, hcode, hstart⟩ := exists_numeric?_of_prefix hnumeric hfront
    obtain ⟨ns, hns⟩ := Tree.exists_integers hz [] code hstart
    exact ⟨code, ns, hcode, hns⟩

set_option maxRecDepth 100000 in
/-- An odd power of a negated sum, and zero to the power of zero. -/
theorem calculate_integer_powers :
    let p : Program := [.operand (.name "x"), .operand (.number (.int 1)), .operator (.binary .add),
      .operator .negate, .operand (.name "y"), .operator (.binary .power),
      .operand (.number (.int 0)), .operand (.number (.int 0)), .operator (.binary .power),
      .operator (.binary .subtract)]
    let v : Valuation := fun s => if s = "x" then some (.int 3) else some (.int 5)
    let u : Tree Int := .binary .subtract
      (.binary .power (.negate (.binary .add (.leaf 3) (.leaf 1))) (.leaf 5))
      (.binary .power (.leaf 0) (.leaf 0))
    (parse 64 "-(x + 1)^y - 0^0").result = .ok p ∧ p ≠ [] ∧
      (∀ n, .operand (.number n) ∈ p → ∃ k, n = .int k) ∧
      (∀ s, .operand (.name s) ∈ p → ∃ k, v s = some (.int k)) ∧
      (∀ op, .operator (.binary op) ∈ p → op ∈ Binary.exact) ∧
      p.tree v = .ok ((u.map Number.int).map .number) ∧
      (∀ l r, .binary .power l r ∈ u.subtrees → ∃ y, r.integer? = some y ∧ 0 ≤ y) ∧
      u.integer? = some (-1025) ∧ p.calculate v = .ok (.int (-1025)) := by
  intro p v u
  have hparse : (parse 64 "-(x + 1)^y - 0^0").result = .ok p := by decide +kernel
  have hne : p ≠ [] := by simp [p]
  have hnumbers : ∀ n, .operand (.number n) ∈ p → ∃ k, n = .int k := by
    intro n hn
    have hcases : n = .int 1 ∨ n = .int 0 := by simpa [p] using hn
    rcases hcases with rfl | rfl
    · exact ⟨1, rfl⟩
    · exact ⟨0, rfl⟩
  have hnames : ∀ s, .operand (.name s) ∈ p → ∃ k, v s = some (.int k) := by
    intro s _
    by_cases hs : s = "x"
    · exact ⟨3, if_pos hs⟩
    · exact ⟨5, if_neg hs⟩
  have hoperators : ∀ op, .operator (.binary op) ∈ p → op ∈ Binary.exact := by
    intro op
    cases op <;> decide
  have htree : p.tree v = .ok ((u.map Number.int).map .number) := by rfl
  have hexponents : ∀ l r, .binary .power l r ∈ u.subtrees → ∃ y, r.integer? = some y ∧ 0 ≤ y := by
    intro l r hmem
    have hcases : (l = .negate (.binary .add (.leaf 3) (.leaf 1)) ∧ r = .leaf 5) ∨
        (l = .leaf 0 ∧ r = .leaf 0) := by simpa [u, Tree.subtrees] using hmem
    rcases hcases with ⟨_, rfl⟩ | ⟨_, rfl⟩
    · exact ⟨5, rfl, by decide⟩
    · exact ⟨0, rfl, by decide⟩
  have hvalue : u.integer? = some (-1025) := by decide
  obtain ⟨_, hexact⟩ := calculate_integer hparse hne hnumbers hnames hoperators
  obtain ⟨z, hz, hcalculate, _⟩ := hexact u htree hexponents
  obtain rfl := Option.some.inj (hvalue.symm.trans hz)
  exact ⟨hparse, hne, hnumbers, hnames, hoperators, htree, hexponents, hvalue, hcalculate⟩

end Program

end Reckon
