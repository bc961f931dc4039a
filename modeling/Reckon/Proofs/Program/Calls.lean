import Mathlib.Data.List.Nodup
import Reckon.Proofs.Program.Fold

/-!
What the stack machine applies, and what waits below.

A listing is worked out from the leaves up: every node of its tree gets a value, and that of an
operator node is what combining answers to the one call that is made for the node. The operands of the
call are the values of the operands of the node. Below them wait the left operands of all those
ancestors whose right operand is being worked out, the outermost at the bottom; a negation has nothing
that could wait.

          -                     call for the *      operands   3, y
        /   \                                       waiting    2
       2     ~ (negation)
             |                  call for the ~      operand    3 * y
             *                                      waiting    2
            / \
           3   y                call for the -      nothing waits
-/

namespace Reckon

/-! ### Trees with a value at each node -/

/-- A tree that was worked out: each node has its value. -/
inductive Worked (V : Type) where
  | leaf (x : V)
  | negate (t : Worked V) (x : V)
  | binary (op : Binary) (left right : Worked V) (x : V)

namespace Worked

variable {V : Type}

/-- The value at the root. -/
def value : Worked V → V
  | .leaf x => x
  | .negate _ x => x
  | .binary _ _ _ x => x

/-- The tree that was worked out, with the values of its leaves. -/
def tree : Worked V → Tree V
  | .leaf x => .leaf x
  | .negate t _ => .negate t.tree
  | .binary op left right _ => .binary op left.tree right.tree

/-- The tree of an application that was worked out, and of its value. -/
def ofApplication (x : V) : Application (Worked V) → Worked V
  | .negate t => .negate t x
  | .binary op left right => .binary op left right x

/-- An ancestor of a node: its operator, which of the operands the node is in, the other operand and
the value of the ancestor. -/
inductive Ancestor (V : Type) where
  | negate (x : V)
  | leftOf (op : Binary) (right : Worked V) (x : V)
  | rightOf (op : Binary) (left : Worked V) (x : V)

namespace Ancestor

/-- The tree of an ancestor, with the operand that the node is in. -/
def fill : Ancestor V → Worked V → Worked V
  | .negate x, t => .negate t x
  | .leftOf op right x, t => .binary op t right x
  | .rightOf op left x, t => .binary op left t x

/-- The value of the left operand of an ancestor that has the node in its right one. -/
def waiting? : Ancestor V → Option V
  | .rightOf _ left _ => some left.value
  | _ => none

end Ancestor

/-- An operator node in its place: the ancestors, the outermost first, what the operator is applied to,
and the value. -/
structure Node (V : Type) where
  ancestors : List (Ancestor V)
  application : Application (Worked V)
  value : V

namespace Node

/-- The operator of a node. -/
def operator (n : Node V) : Operator := n.application.operator

/-- The whole tree that a node is in. -/
def whole (n : Node V) : Worked V :=
  n.ancestors.foldr Ancestor.fill (ofApplication n.value n.application)

/-- The node as a node of the tree around it. -/
def under (a : Ancestor V) (n : Node V) : Node V := { n with ancestors := a :: n.ancestors }

end Node

/-- The operator nodes in postorder. -/
def nodes : Worked V → List (Node V)
  | .leaf _ => []
  | .negate t x => t.nodes.map (.under (.negate x)) ++ [⟨[], .negate t, x⟩]
  | .binary op left right x =>
    left.nodes.map (.under (.leftOf op right x)) ++ right.nodes.map (.under (.rightOf op left x)) ++
      [⟨[], .binary op left right, x⟩]

namespace Node

variable {a b : Ancestor V} {as : List (Ancestor V)} {application : Application (Worked V)} {x : V}
  {ns : List (Node V)}

theorem whole_nil : whole ⟨[], application, x⟩ = ofApplication x application := rfl

theorem whole_cons : whole ⟨a :: as, application, x⟩ = a.fill (whole ⟨as, application, x⟩) := rfl

@[simp] theorem nil_mem_under : ⟨[], application, x⟩ ∉ ns.map (under a) := by
  simp [under]

@[simp] theorem cons_mem_under :
    ⟨a :: as, application, x⟩ ∈ ns.map (under b) ↔ a = b ∧ ⟨as, application, x⟩ ∈ ns := by
  rw [List.mem_map]
  constructor
  · rintro ⟨n, hn, heq⟩
    obtain ⟨⟨rfl, rfl⟩, rfl, rfl⟩ : (b = a ∧ n.ancestors = as) ∧ n.application = application ∧
        n.value = x := by simpa [under] using heq
    exact ⟨rfl, hn⟩
  · rintro ⟨rfl, hn⟩
    exact ⟨_, hn, rfl⟩

theorem nodup_under (h : ns.Nodup) : (ns.map (under a)).Nodup := by
  refine List.Nodup.map ?_ h
  rintro ⟨_, _, _⟩ ⟨_, _, _⟩ heq
  simpa [under] using heq

theorem disjoint_under (hab : a ≠ b) (ns ms : List (Node V)) :
    List.Disjoint (ns.map (under a)) (ms.map (under b)) := by
  rintro ⟨_ | ⟨c, as⟩, _, _⟩ hn hm
  · exact nil_mem_under hn
  · exact hab ((cons_mem_under.1 hn).1.symm.trans (cons_mem_under.1 hm).1)

theorem disjoint_root (ns : List (Node V)) :
    List.Disjoint (ns.map (under a)) [⟨[], application, x⟩] := by
  rw [List.disjoint_singleton]
  exact nil_mem_under

end Node

/-- The nodes that are listed are the operator nodes of the tree. -/
theorem mem_nodes {u : Worked V} {n : Node V} : n ∈ u.nodes ↔ n.whole = u := by
  obtain ⟨ancestors, application, x⟩ := n
  induction u generalizing ancestors with
  | leaf y =>
    cases ancestors with
    | nil => cases application <;> simp [nodes, Node.whole_nil, ofApplication]
    | cons a as => cases a <;> simp [nodes, Node.whole_cons, Ancestor.fill]
  | negate t y ih =>
    cases ancestors with
    | nil => cases application <;> simp [nodes, Node.whole_nil, ofApplication]
    | cons a as => cases a <;> simp [nodes, Node.whole_cons, Ancestor.fill, ih, and_comm]
  | binary op l r y ihl ihr =>
    cases ancestors with
    | nil => cases application <;> simp [nodes, Node.whole_nil, ofApplication, and_assoc]
    | cons a as =>
      cases a with
      | negate z => simp [nodes, Node.whole_cons, Ancestor.fill]
      | leftOf o t z =>
        simp [nodes, Node.whole_cons, Ancestor.fill, ihl, and_comm, and_left_comm, and_assoc]
      | rightOf o t z =>
        simp [nodes, Node.whole_cons, Ancestor.fill, ihr, and_comm, and_left_comm, and_assoc]

/-- No node is listed twice. -/
theorem nodup_nodes (u : Worked V) : u.nodes.Nodup := by
  induction u with
  | leaf y => exact List.nodup_nil
  | negate t y ih =>
    exact (Node.nodup_under ih).append (List.nodup_singleton _) (Node.disjoint_root _)
  | binary op l r y ihl ihr =>
    have hne : Ancestor.leftOf op r y ≠ .rightOf op l y := nofun
    have hoperands := (Node.nodup_under ihl).append (Node.nodup_under ihr)
      (Node.disjoint_under hne l.nodes r.nodes)
    refine hoperands.append (List.nodup_singleton _) (List.disjoint_append_left.2 ?_)
    exact ⟨Node.disjoint_root _, Node.disjoint_root _⟩

end Worked

/-! ### Calls -/

/-- A call of the combining step: what it is to combine, and the values that wait on the stack, the top
last. -/
structure Call (V : Type) where
  application : Application V
  waiting : List V

/-- Combining that takes down each call before it answers. -/
def recorded {V : Type} {m : Type → Type} [Monad m] (combine : Application V → List V → m V)
    (a : Application V) (below : List V) : StateT (List (Call V)) m V := do
  modify (· ++ [⟨a, below.reverse⟩])
  combine a below

/-- The answers to calls that are made one after another. -/
def answers {V : Type} {m : Type → Type} [Monad m] (combine : Application V → List V → m V) :
    List (Call V) → m (List V) :=
  List.mapM fun c => combine c.application c.waiting.reverse

namespace Worked

variable {σ V : Type}

/-- The call for a node of a tree that is worked out above some values. -/
def Node.call (base : List V) (n : Node V) : Call V :=
  ⟨n.application.map Worked.value, base ++ n.ancestors.filterMap Ancestor.waiting?⟩

namespace Node

variable (base : List V) (x : V)

theorem call_negate : call base ∘ under (.negate x) = call base := rfl

theorem call_leftOf (op : Binary) (right : Worked V) :
    call base ∘ under (.leftOf op right x) = call base := rfl

theorem call_rightOf (op : Binary) (left : Worked V) :
    call base ∘ under (.rightOf op left x) = call (base ++ [left.value]) := by
  funext n
  simp [call, under, Ancestor.waiting?]

theorem value_under (a : Ancestor V) : value ∘ under a = value := rfl

theorem operator_under (a : Ancestor V) : operator ∘ under a = operator := rfl

end Node

/-- The calls for a tree that is worked out above some values. -/
def calls (base : List V) (u : Worked V) : List (Call V) := u.nodes.map (Node.call base)

/-- The values of the operator nodes. -/
def values (u : Worked V) : List V := u.nodes.map Node.value

theorem calls_negate (base : List V) (t : Worked V) (x : V) :
    (negate t x).calls base = t.calls base ++ [⟨.negate t.value, base⟩] := by
  rw [calls, nodes, List.map_append, List.map_map, Node.call_negate]
  simp [calls, Node.call, Application.map]

theorem calls_binary (base : List V) (op : Binary) (l r : Worked V) (x : V) :
    (binary op l r x).calls base =
      l.calls base ++ r.calls (base ++ [l.value]) ++ [⟨.binary op l.value r.value, base⟩] := by
  rw [calls, nodes, List.map_append, List.map_append, List.map_map, List.map_map, Node.call_leftOf,
    Node.call_rightOf]
  simp [calls, Node.call, Application.map]

theorem values_negate (t : Worked V) (x : V) : (negate t x).values = t.values ++ [x] := by
  rw [values, nodes, List.map_append, List.map_map, Node.value_under]
  rfl

theorem values_binary (op : Binary) (l r : Worked V) (x : V) :
    (binary op l r x).values = l.values ++ r.values ++ [x] := by
  rw [values, nodes, List.map_append, List.map_append, List.map_map, List.map_map, Node.value_under,
    Node.value_under]
  rfl

theorem run_recorded {combine : Application V → List V → StateM σ V} {a : Application V}
    {base : List V} {s s' : σ} {x : V} (h : (combine a base.reverse).run s = (x, s'))
    (log : List (Call V)) :
    ((recorded combine a base.reverse).run log).run s = ((x, log ++ [⟨a, base⟩]), s') := by
  rw [recorded, List.reverse_reverse]
  change (combine a base.reverse >>= fun x => pure (x, log ++ [⟨a, base⟩])).run s = _
  rw [StateT.run_bind, h]
  rfl

theorem answers_append {combine : Application V → List V → StateM σ V} {cs ds : List (Call V)}
    {xs ys : List V} {s s₁ s₂ : σ} (hcs : (answers combine cs).run s = (xs, s₁))
    (hds : (answers combine ds).run s₁ = (ys, s₂)) :
    (answers combine (cs ++ ds)).run s = (xs ++ ys, s₂) := by
  rw [answers] at hcs hds ⊢
  rw [List.mapM_append, StateT.run_bind, hcs]
  change ((ds.mapM _ >>= fun ys => pure (xs ++ ys)) : StateM σ (List V)).run s₁ = _
  rw [StateT.run_bind, hds]
  rfl

theorem answers_singleton {combine : Application V → List V → StateM σ V} {a : Application V}
    {base : List V} {s s' : σ} {x : V} (h : (combine a base.reverse).run s = (x, s')) :
    (answers combine [⟨a, base⟩]).run s = ([x], s') := by
  rw [answers, List.mapM_cons, StateT.run_bind, h]
  rfl

/-- A tree is worked out by the calls for its nodes, which are made one after another, and the values of
the nodes are the answers to them. -/
theorem exists_foldM_recorded (combine : Application V → List V → StateM σ V) (t : Tree V)
    (base : List V) (log : List (Call V)) (s : σ) :
    ∃ (u : Worked V) (s' : σ), u.tree = t ∧ (t.foldM combine base.reverse).run s = (u.value, s') ∧
      ((t.foldM (recorded combine) base.reverse).run log).run s =
        ((u.value, log ++ u.calls base), s') ∧
      (answers combine (u.calls base)).run s = (u.values, s') := by
  -- over every base, because the right operand is worked out above the left one
  induction t generalizing base log s with
  | leaf x =>
    refine ⟨.leaf x, s, rfl, rfl, ?_, rfl⟩
    rw [calls, nodes, List.map_nil, List.append_nil]
    rfl
  | negate t ih =>
    obtain ⟨u, s₁, rfl, hplain, hrun, hanswers⟩ := ih base log s
    obtain ⟨x, s₂, hlast⟩ : ∃ x s₂, (combine (.negate u.value) base.reverse).run s₁ = (x, s₂) :=
      ⟨_, _, rfl⟩
    refine ⟨.negate u x, s₂, rfl, ?_, ?_, ?_⟩
    · rw [Tree.foldM, StateT.run_bind, hplain]
      exact hlast
    · rw [Tree.foldM, StateT.run_bind, StateT.run_bind, hrun, calls_negate, ← List.append_assoc]
      exact run_recorded hlast _
    · rw [calls_negate, values_negate]
      exact answers_append hanswers (answers_singleton hlast)
  | binary op l r ihl ihr =>
    obtain ⟨u, s₁, rfl, hplainl, hrunl, hanswersl⟩ := ihl base log s
    obtain ⟨w, s₂, rfl, hplainr, hrunr, hanswersr⟩ := ihr (base ++ [u.value]) (log ++ u.calls base) s₁
    rw [List.reverse_concat] at hplainr hrunr
    obtain ⟨x, s₃, hlast⟩ : ∃ x s₃,
        (combine (.binary op u.value w.value) base.reverse).run s₂ = (x, s₃) := ⟨_, _, rfl⟩
    refine ⟨.binary op u w x, s₃, rfl, ?_, ?_, ?_⟩
    · rw [Tree.foldM, StateT.run_bind, hplainl]
      change (w.tree.foldM combine (u.value :: base.reverse) >>= fun y =>
        combine (.binary op u.value y) base.reverse).run s₁ = _
      rw [StateT.run_bind, hplainr]
      exact hlast
    · rw [Tree.foldM, StateT.run_bind, StateT.run_bind, hrunl]
      change ((w.tree.foldM (recorded combine) (u.value :: base.reverse) >>= fun y =>
        recorded combine (.binary op u.value y) base.reverse).run (log ++ u.calls base)).run s₁ = _
      rw [StateT.run_bind, StateT.run_bind, hrunr, calls_binary, ← List.append_assoc,
        ← List.append_assoc]
      exact run_recorded hlast _
    · rw [calls_binary, values_binary]
      exact answers_append (answers_append hanswersl hanswersr) (answers_singleton hlast)

/-- The operators of the nodes stand in the listing of the tree in the same order. -/
theorem operators_nodes (u : Worked V) :
    u.nodes.map Node.operator =
      u.tree.postorder.filterMap Instruction.operator? := by
  induction u with
  | leaf x => rfl
  | negate t x ih =>
    rw [nodes, List.map_append, List.map_map, Node.operator_under, ih, tree, Tree.postorder,
      List.filterMap_append]
    rfl
  | binary op l r x ihl ihr =>
    rw [nodes, List.map_append, List.map_append, List.map_map, List.map_map, Node.operator_under,
      Node.operator_under, ihl, ihr, tree, Tree.postorder, List.filterMap_append,
      List.filterMap_append]
    rfl

end Worked

/-- The machine works out the tree that a program lists. It makes one call for each operator node, in
postorder, with the values of the operands of the node above the values of the left operands of those
ancestors that have the node on their right, the outermost at the bottom. What it makes of the tree is
its fold. A call may change a state of its own, but not the stack that it is shown. -/
theorem Machine.run_calls {σ V : Type} (combine : Application V → List V → StateM σ V)
    (of : Operand → V) (v : Valuation) (t : Tree Operand) (s : σ) :
    let p : List (Instruction V) := (Program.resolve v t.postorder).map (Instruction.map of)
    (run combine p).run = Except.ok <$> (t.map (Operand.pushed of v)).foldM combine [] ∧
      ∃ (u : Worked V) (s' : σ), u.tree = t.map (Operand.pushed of v) ∧
        (run combine p).run.run s = (.ok u.value, s') ∧
        ((run (recorded combine) p).run.run []).run s =
          ((.ok u.value, u.nodes.map (Worked.Node.call [])), s') ∧
        (answers combine (u.nodes.map (Worked.Node.call []))).run s =
          (u.nodes.map Worked.Node.value, s') ∧
        u.nodes.Nodup ∧ (∀ n, n ∈ u.nodes ↔ n.whole = u) ∧
        u.nodes.map Worked.Node.operator =
          t.postorder.filterMap Instruction.operator? := by
  intro p
  obtain ⟨u, s', hu, hplain, hrecorded, hanswers⟩ :=
    Worked.exists_foldM_recorded combine (t.map (Operand.pushed of v)) [] [] s
  rw [List.reverse_nil] at hplain hrecorded
  have hp : p = (t.map (Operand.pushed of v)).postorder := (t.postorder_pushed of v).symm
  rw [hp, run_postorder, run_postorder]
  refine ⟨rfl, u, s', hu, ?_, ?_, hanswers, u.nodup_nodes, fun n => Worked.mem_nodes, ?_⟩
  · rw [StateT.run_map, hplain]
    rfl
  · rw [StateT.run_map, StateT.run_map, hrecorded]
    rfl
  · rw [u.operators_nodes, hu, Tree.postorder_map, List.filterMap_map]
    refine List.filterMap_congr fun i _ => ?_
    cases i <;> rfl

end Reckon
