import GradientGraph.Host.Builtin
import GradientGraph.Proofs.Host.Lineage
import GradientGraph.Proofs.Host.Side
import GradientGraph.Proofs.Kernel.Infix

/-!
# Operators of the built-in modules

The methods of an operator are found in tables, which are finite. Each overload in them, whether
its receiver is on the left or on the right, applies the kernel that a workbench would choose for
the categories of its operands, and makes an operation of which the module makes a variable. So
whichever overload takes two objects, it reads the one that is written on the left as the left
operand.
-/

set_option autoImplicit false

namespace GradientGraph

def Operands.forward : List Operands := [.expressions, .literalRight]

/-- The operands of an overload whose receiver is on the right. -/
def Operands.backward : List Operands := [.reflected, .reflectedLiteral]

def Body.applies (m : Module) (f : Infix) (ways : List Operands) : Body → Bool
  | .binary k l r c operands _ => operands ∈ ways ∧ f.function.kernel? l r = some k ∧
    k.category l r = some c ∧ .newComputed c ∈ m.overloads (.function "var")
  | _ => false

theorem Body.applies_iff {m : Module} {f : Infix} {ways : List Operands} {b : Body} :
    b.applies m f ways ↔ ∃ k l r c operands name, b = .binary k l r c operands name ∧
      operands ∈ ways ∧ f.function.kernel? l r = some k ∧ k.category l r = some c ∧
      .newComputed c ∈ m.overloads (.function "var") := by
  cases b with
  | binary => simp [applies]
  | _ => simp [applies]

namespace Module

/-- Whether every method that has the name of an operator applies it. -/
def Speaks (m : Module) : Prop :=
  ∀ c ∈ m.classes, ∀ s ∈ c.2.methods, ∀ b ∈ s.2.bodies, ∀ f ∈ Infix.all,
    (s.1 = forwardName f.name → b.applies m f Operands.forward) ∧
    (s.1 = reflectedName f.name → b.applies m f Operands.backward)

instance (m : Module) : Decidable m.Speaks :=
  inferInstanceAs (Decidable (∀ c ∈ m.classes, ∀ s ∈ c.2.methods, ∀ b ∈ s.2.bodies,
    ∀ f ∈ Infix.all, _ ∧ _))

end Module

theorem speaks_scalarModule : scalarModule.Speaks := by decide +kernel

theorem speaks_arrayModule : arrayModule.Speaks := by decide +kernel

/-- How an object is read as an operand of a category: a variable or an operation of the category
as what it is, anything else as a literal. -/
inductive Object.Reads {K : Type} [Zero K] : Object K → Category → Side K → Prop where
  | literal {x : Object K} {c : Category} {v : Value K} (h : x.toValue? c = some v) :
    Reads x c (.literal v)
  | var (c : Category) (n : NodeId) : Reads (.inst (.var c n)) c (.operand (.cell n))
  | operation (c : Category) (a : Formula K) :
    Reads (.inst (.operation c a)) c (.operand (.term a))

section Reading

variable {K : Type} [Zero K] {x y : Object K} {c : Category}

theorem Object.reads_literal {v : Value K} (h : Param.convert? (.value c) x = some v) :
    x.Reads c (.literal v) := .literal h

theorem Object.reads_operand {o : Operand K} (h : Param.convert? (.expression c) x = some o) :
    x.Reads c (.operand o) := by
  cases x with
  | inst i =>
    cases i with
    | var k n =>
      obtain ⟨rfl, h⟩ := Option.ite_none_right_eq_some.mp h
      cases h
      exact .var k n
    | operation k a =>
      obtain ⟨rfl, h⟩ := Option.ite_none_right_eq_some.mp h
      cases h
      exact .operation k a
    | _ => cases h
  | _ => cases h

theorem Param.convertAll?_pair {p q : Param} {args : Param.Carriers K [p, q]}
    (h : Param.convertAll? [p, q] [x, y] = some args) :
    p.convert? x = some args.1 ∧ q.convert? y = some args.2.1 := by
  obtain ⟨a, ha, h⟩ := Option.bind_eq_some_iff.mp h
  obtain ⟨rest, hrest, h⟩ := Option.bind_eq_some_iff.mp h
  obtain ⟨b, hb, hrest⟩ := Option.bind_eq_some_iff.mp hrest
  cases h
  cases hrest
  exact ⟨ha, hb⟩

end Reading

namespace Module

variable {K : Type} [Zero K] {m : Module} {f : Infix} {x y : Object K} {call : Call K}

/-- What the overload that is chosen for two objects does with them, if it is for operands of the
categories `l` and `r`. -/
structure Chooses (m : Module) (f : Infix) (x y : Object K) (call : Call K) (l r : Category)
    (op : Operator K) : Prop where
  overload : ∃ operands, call.body = .binary op.kernel l r op.result operands op.checkedAs
  applied : call.body.operator? call.args = some op
  left : x.Reads l op.left
  right : y.Reads r op.right
  kernel : f.function.kernel? l r = some op.kernel
  category : op.kernel.category l r = some op.result
  served : .newComputed op.result ∈ m.overloads (.function "var")

theorem selected {receiver : Object K} {name : String} {args : List (Object K)}
    (h : m.selectMethod? receiver name args = some call) :
    ∃ c ∈ m.classes, ∃ s ∈ c.2.methods, s.1 = name ∧ call.body ∈ s.2.bodies ∧
      Param.convertAll? call.body.params (receiver :: args) = some call.args := by
  obtain ⟨i, -, h⟩ := Option.bind_eq_some_iff.mp h
  obtain ⟨set, hset, h⟩ := Option.bind_eq_some_iff.mp h
  obtain ⟨className, -, hclass⟩ := List.exists_of_findSome?_eq_some hset
  obtain ⟨info, hinfo, hmethod⟩ := Option.bind_eq_some_iff.mp hclass
  obtain ⟨b, hb, hcall⟩ := List.exists_of_findSome?_eq_some h
  obtain ⟨args, hargs, rfl⟩ := Option.map_eq_some_iff.mp hcall
  exact ⟨_, Table.mem_of_find? hinfo, _, Table.mem_of_find? hmethod, rfl, hb, hargs⟩

theorem chooses_forward (hm : m.Speaks)
    (h : m.selectMethod? x (forwardName f.name) [y] = some call) :
    ∃ l r op, m.Chooses f x y call l r op := by
  obtain ⟨c, hc, s, hs, hname, hbody, hargs⟩ := selected h
  obtain ⟨k, l, r, c, operands, name, hbody, hways, hk, hcategory, hvar⟩ :=
    Body.applies_iff.mp ((hm c hc s hs _ hbody f f.mem_all).1 hname)
  obtain ⟨b, args⟩ := call
  subst hbody
  obtain rfl | rfl : operands = .expressions ∨ operands = .literalRight := by
    simpa [Operands.forward] using hways
  · obtain ⟨hx, hy⟩ := Param.convertAll?_pair hargs
    exact ⟨l, r, _, ⟨_, rfl⟩, rfl, Object.reads_operand hx, Object.reads_operand hy, hk,
      hcategory, hvar⟩
  · obtain ⟨hx, hy⟩ := Param.convertAll?_pair hargs
    exact ⟨l, r, _, ⟨_, rfl⟩, rfl, Object.reads_operand hx, Object.reads_literal hy, hk,
      hcategory, hvar⟩

theorem chooses_backward (hm : m.Speaks)
    (h : m.selectMethod? y (reflectedName f.name) [x] = some call) :
    ∃ l r op, m.Chooses f x y call l r op := by
  obtain ⟨c, hc, s, hs, hname, hbody, hargs⟩ := selected h
  obtain ⟨k, l, r, c, operands, name, hbody, hways, hk, hcategory, hvar⟩ :=
    Body.applies_iff.mp ((hm c hc s hs _ hbody f f.mem_all).2 hname)
  obtain ⟨b, args⟩ := call
  subst hbody
  obtain rfl | rfl : operands = .reflected ∨ operands = .reflectedLiteral := by
    simpa [Operands.backward] using hways
  · obtain ⟨hy, hx⟩ := Param.convertAll?_pair hargs
    exact ⟨l, r, _, ⟨_, rfl⟩, rfl, Object.reads_operand hx, Object.reads_operand hy, hk,
      hcategory, hvar⟩
  · obtain ⟨hy, hx⟩ := Param.convertAll?_pair hargs
    exact ⟨l, r, _, ⟨_, rfl⟩, rfl, Object.reads_literal hx, Object.reads_operand hy, hk,
      hcategory, hvar⟩

/-- The overload that an operator is carried out by: that of the left operand, or else that of the
right one by the reflected name. -/
def operatorCall? (m : Module) (f : Infix) (x y : Object K) : Option (Call K) :=
  (m.selectMethod? x (forwardName f.name) [y]).or (m.selectMethod? y (reflectedName f.name) [x])

theorem chooses (hm : m.Speaks) (h : m.operatorCall? f x y = some call) :
    ∃ l r op, m.Chooses f x y call l r op := by
  obtain h | ⟨-, h⟩ := Option.or_eq_some_iff.mp h
  · exact chooses_forward hm h
  · exact chooses_backward hm h

theorem operatorCall_reflected (x : K) (n : NodeId) :
    arrayModule.operatorCall? (.arithmetic .sub) (.float x) (.inst (.var .vector n)) =
      some ⟨.binary (.broadcastLeft .sub) .scalar .vector .vector .reflectedLiteral none,
        (.cell n, .scalar x, ())⟩ := by
  have hlineage : arrayModule.lineage "VectorVariable" =
      ["VectorVariable"] ++ "VectorExpression" :: ["Variable"] := by
    have hbases : arrayModule.bases "VectorVariable" = ["VectorExpression", "Variable"] ∧
        arrayModule.bases "VectorExpression" = [] ∧ arrayModule.bases "Variable" = [] := by
      decide +kernel
    simp [lineage, linearize, hbases]
  have hnone : arrayModule.overloadSet? (.method "VectorVariable" "__rsub__") = none :=
    Option.isNone_iff_eq_none.mp (by decide +kernel)
  obtain ⟨set, hset⟩ : ∃ set, arrayModule.overloadSet? (.method "VectorExpression" "__rsub__") =
      some set := Option.isSome_iff_exists.mp (by decide +kernel)
  have hoverloads : arrayModule.overloads (.method "VectorExpression" "__rsub__") =
      [.binary (.broadcastLeft .sub) .scalar .vector .vector .reflectedLiteral none,
        .binary (.broadcastLeft .sub) .scalar .vector .vector .reflected none,
        .binary (.cwise .sub) .vector .vector .vector .reflectedLiteral (some "__rsub__")] := by
    decide +kernel
  have hselect := arrayModule.select_overloads (.method "VectorExpression" "__rsub__")
    [.inst (.var .vector n), .float x]
  rw [hset, Option.bind_some, hoverloads] at hselect
  exact (arrayModule.selectMethod_first (.var .vector n) "__rsub__" hlineage (by simpa using hnone)
    hset [.float x]).trans hselect

variable {D : Type} [One K] [Add K] [Mul K] [MulAdd K] [Capacity K] [NatCast K] [Calculus K]
  [Differential K D] [HostDerivative K D]

theorem binaryOperator_eq (m : Module) (f : Infix) (x y : Object K) :
    (m.binaryOperator f.name x y : HostM K D (Except Error (Reply K))) =
      match m.operatorCall? f x y with
      | some call => call.run
      | none => missing (forwardName f.name) := by
  unfold binaryOperator operatorCall?
  cases m.selectMethod? x (forwardName f.name) [y] with
  | some call => rfl
  | none => rfl

theorem run_of_binaryOperator (hm : m.Speaks) {w w' : World K D} {reply : Reply K}
    (h : m.binaryOperator f.name x y w = some (.ok reply, w')) :
    ∃ call l r op, m.operatorCall? f x y = some call ∧ m.Chooses f x y call l r op ∧
      op.run w.graph = some (.ok reply, w'.graph) := by
  rw [binaryOperator_eq] at h
  cases hcall : m.operatorCall? f x y with
  | none =>
    rw [hcall] at h
    cases h
  | some call =>
    rw [hcall] at h
    obtain ⟨l, r, op, hop⟩ := chooses hm hcall
    have hrun : call.run w = World.onGraph op.run w :=
      congrFun (Operator.run_eq (D := D) hop.applied) w
    obtain ⟨⟨_, g⟩, hg, hw⟩ := Option.map_eq_some_iff.mp (hrun.symm.trans h)
    cases hw
    exact ⟨call, l, r, op, rfl, hop, hg⟩

end Module

theorem selectFunction_var {K : Type} [Zero K] {m : Module}
    (hm : m = scalarModule ∨ m = arrayModule) {c : Category}
    (hc : .newComputed c ∈ m.overloads (.function "var")) (a : Formula K) :
    m.selectFunction? "var" [.inst (.operation c a)] = some ⟨.newComputed c, (.term a, ())⟩ := by
  obtain rfl | rfl := hm
  · cases c with
    | scalar => rfl
    | vector => exact absurd hc (by decide +kernel)
    | matrix => exact absurd hc (by decide +kernel)
  · cases c <;> rfl

end GradientGraph
