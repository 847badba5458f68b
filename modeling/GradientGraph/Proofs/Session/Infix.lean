import GradientGraph.Proofs.Graph.Edges
import GradientGraph.Proofs.Host.Infix
import GradientGraph.Proofs.Host.Lineage
import GradientGraph.Proofs.Host.Operator
import GradientGraph.Proofs.Session.Invariant
import GradientGraph.Scalar.Float
import GradientGraph.Workbench.Run

/-!
# Operators of a host and of a workbench

Whatever overload an operator of a built-in module is found through, the operation that it makes
has the value that is written down: that of the operator between the values of its operands, the
left one on the left. A variable that is made of it depends on the variables of the left operand and
then on those of the right one. A workbench on the same graph makes the same operation.
-/

set_option autoImplicit false

namespace GradientGraph

open GradientGraph.Graph

namespace Side

variable {K D : Type}

def reads : Side K → List NodeId
  | .literal _ => []
  | .operand (.cell n) => [n]
  | .operand (.term a) => a.expression.reads

variable [Zero K] [One K] [Add K] [Mul K] [MulAdd K] [Capacity K] [NatCast K] [Calculus K]

def valueUnder (ρ : NodeId → Option (Value K)) : Side K → Option (Value K)
  | .literal v => some v
  | .operand (.cell n) => ρ n
  | .operand (.term a) => a.expression.valueUnder ρ

theorem formula_made {x : Side K} {g g' : Graph K D} {a : Formula K}
    (h : x.formula g = some (a, g')) : a.expression.reads = x.reads ∧
      (∀ ρ, a.expression.valueUnder ρ = x.valueUnder ρ) ∧ g.Relabels g' := by
  rcases x with v | n | b <;> cases h <;> exact ⟨rfl, fun _ => rfl, rfl⟩

end Side

section Making

variable {K D : Type} [Zero K] [Add K] [Mul K] [MulAdd K] [Capacity K] [NatCast K] [Calculus K]

theorem Body.applyBinary_made {k : BinaryKernel} {c : Category} {checkedAs : Option String}
    {a b : Formula K} {g g' : Graph K D} {reply : Reply K} (hg : g.Confined ∅)
    (h : applyBinary k c checkedAs a b g = some (.ok reply, g')) :
    reply = { object := .inst (.operation c (.share g.nextLabel (.binary k a b))) } ∧
      g' = { g with nextLabel := g.nextLabel + 1 } := by
  unfold applyBinary at h
  cases checkedAs with
  | none =>
    cases h
    exact ⟨rfl, rfl⟩
  | some name =>
    obtain ⟨fits, g₁, hfits, h⟩ := exists_of_bind h
    obtain rfl := graph_of_checkShapes hg hfits
    cases fits with
    | error e => cases h
    | ok u =>
      cases h
      exact ⟨rfl, rfl⟩

variable [One K]

theorem Operator.run_made {op : Operator K} {g g' : Graph K D} {reply : Reply K}
    (hg : g.Confined ∅) (h : op.run g = some (.ok reply, g')) :
    ∃ a b g₁ g₂, op.left.formula g = some (a, g₁) ∧ op.right.formula g₁ = some (b, g₂) ∧
      reply = { object := .inst (.operation op.result
        (.share g₂.nextLabel (.binary op.kernel a b))) } ∧
      g' = { g₂ with nextLabel := g₂.nextLabel + 1 } := by
  obtain ⟨a, g₁, ha, h⟩ := exists_of_bind h
  obtain ⟨b, g₂, hb, h⟩ := exists_of_bind h
  have hg₂ : g.Relabels g₂ := (Side.formula_made ha).2.2.trans (Side.formula_made hb).2.2
  exact ⟨a, b, g₁, g₂, ha, hb, Body.applyBinary_made (hg₂.confined hg) h⟩

end Making

namespace Workbench

variable {K D : Type}

inductive Gives (w : Workbench K D) : Argument K → Category → Side K → Prop where
  | literal (v : Value K) : Gives w (.literal v) v.category (.literal v)
  | var {name : String} {c : Category} {n : NodeId}
    (h : w.items.find? name = some (.var c n)) : Gives w (.ref name) c (.operand (.cell n))
  | operation {name : String} {c : Category} {a : Formula K}
    (h : w.items.find? name = some (.operation c a)) : Gives w (.ref name) c (.operand (.term a))

theorem Gives.operand_eq {w : Workbench K D} {i : Argument K} {c : Category} {x : Side K}
    (h : w.Gives i c x) : w.operand i = .ok (c, x.formula) := by
  cases h with
  | literal v => rfl
  | var h =>
    rw [operand, item, h]
    rfl
  | operation h =>
    rw [operand, item, h]
    rfl

variable [Zero K] [One K] [Add K] [Mul K] [MulAdd K] [Capacity K] [NatCast K] [Calculus K]
  [NumberText K] [Differential K D] [HostDerivative K D]

theorem step_binary {w : Workbench K D} {f : BinaryFunction} {i j : Argument K} {l r : Category}
    {op : Operator K} {g₁ g₂ : Graph K D} {a b : Formula K} (hi : w.Gives i l op.left)
    (hj : w.Gives j r op.right) (hk : f.kernel? l r = some op.kernel)
    (hc : op.kernel.category l r = some op.result) (ha : op.left.formula w.graph = some (a, g₁))
    (hb : op.right.formula g₁ = some (b, g₂)) (name : String) :
    w.step (.binary f i j name) =
      some (({ w with graph := { g₂ with nextLabel := g₂.nextLabel + 1 } } : Workbench K D).store
        name (.operation op.result (.share g₂.nextLabel (.binary op.kernel a b))),
        .ok (.text "operation")) := by
  simp only [step, hi.operand_eq, hj.operand_eq, after, hk, hc]
  rw [make, onGraph, run_bind, ha, Option.bind_some, run_bind, hb]
  rfl

end Workbench

theorem usualOperators_float : UsualOperators Float := by
  intro op x y
  cases op <;> rfl

section Calls

variable {K D : Type} [Zero K] [One K] [Add K] [Mul K] [MulAdd K] [Capacity K] [NatCast K]
  [Calculus K] [Differential K D] [HostDerivative K D]

theorem Module.call_var {m : Module} (hm : m = scalarModule ∨ m = arrayModule) {c : Category}
    (hc : .newComputed c ∈ m.overloads (.function "var")) {w : World K D}
    (hw : w.graph.Confined ∅) {β : Label → Expression K} {a : Formula K}
    (hβ : a.expression.NamedBy β) :
    Option.Rel (fun z made => ∃ n, made.1 = Body.plain (.inst (.var c n)) ∧
        w.graph.value? n = none ∧
        made.2.graph.value? = Function.update w.graph.value? n (some z) ∧
        made.2.graph.arena.children? n = some a.expression.reads.eraseDups)
      (a.expression.valueUnder w.graph.value?)
      ((m.call "var" [.inst (.operation c a)] : HostM K D (Except Error (Reply K))) w) := by
  have hcall : (m.call "var" [.inst (.operation c a)] : HostM K D (Except Error (Reply K))) w =
      (newComputed a w.graph).map fun made =>
        (Body.plain (.inst (.var c made.1)), { w with graph := made.2 }) := by
    rw [call, selectFunction_var hm hc]
    change ((newComputed a w.graph).bind _).map _ = _
    cases newComputed a w.graph <;> rfl
  have hmade := (finds_plain hβ (hw.blank.forgot a)).newComputed hw.packed
  rw [hcall, ← Option.map_id_apply (x := a.expression.valueUnder w.graph.value?)]
  refine rel_map (rel_imp hmade fun z made hrun h => And.intro hrun h) ?_
  rintro z ⟨n, g⟩ ⟨hrun, hfresh, hvalues⟩
  refine ⟨n, rfl, hfresh, hvalues, ?_⟩
  rw [← a.children_eq]
  exact children?_newComputed hw.packed hrun

end Calls

namespace Session

section Vectors

variable {K : Type} [Zero K] [One K] [Add K] [Mul K] [MulAdd K] [Capacity K] [NatCast K]
  [Calculus K] [BEq K]

def vectorNode (xs : Array K) : NodeId :=
  (({} : Arena (Cell K (Mat K))).insert { value := .vector xs }).1

def ofVector (xs : Array K) : Session K (Mat K) where
  module := arrayModule
  world := { graph := {
    arena := (({} : Arena (Cell K (Mat K))).insert { value := .vector xs }).2 } }
  objects := [("x", .inst (.var .vector (vectorNode xs)))]

theorem reachable_ofVector (xs : Array K) : (ofVector xs).Reachable := by
  let x : Tensor K := ⟨[xs.size], xs, (Nat.one_mul _).symm⟩
  let start : Session K (Mat K) := { module := arrayModule }
  have hperform : start.perform (.call "var" [.array x]) =
      .ok (arrayModule.call "var" [.array x]) := rfl
  have hcall : (arrayModule.call "var" [.array x] : HostM K (Mat K) _) start.world =
      some (Body.plain (.inst (.var .vector (vectorNode xs))), (ofVector xs).world) := rfl
  have hstep : start.step (.make (.call "var" [.array x]) (some "x")) =
      some (ofVector xs, .ok (.object (.inst (.var .vector (vectorNode xs))))) := by
    let made : Session K (Mat K) := { start with world := (ofVector xs).world }
    have hnew : made.objects.find? "x" = none := rfl
    rw [step, hperform]
    simp only [hcall]
    change some (made.keep (some "x") { object := .inst (.var .vector (vectorNode xs)) }, _) = _
    simp only [keep, store, release, hnew, release_nil, Option.map_none, Option.getD_none]
    rfl
  exact (Reachable.start arrayModule).step _ hstep

end Vectors

variable {K D : Type} [Zero K] [One K] [Add K] [Sub K] [Mul K] [Div K] [MulAdd K] [Capacity K]
  [NatCast K] [Elementary K] [Calculus K] [NumberText K] [BEq K] [Differential K D]
  [HostDerivative K D]

/-- Operators of the built-in modules mean what is written. If an operator has a reply in a
session, some overload was chosen, which reads both objects as operands of its categories, and

* the reply is an operation whose value, whatever values the variables have, is what the operator
  means with the value of the left operand on the left and that of the right one on the right, and
  it has one if the operands have values of the categories for which the operator means one that
  there is room for;
* a variable that is made of the operation has that value, and depends on the variables of the left
  operand followed by those of the right one;
* a workbench on the graph that the operator was applied to makes the same operation of the same
  operands, and the same graph, but for what the name stood for before. So its value, its edges and
  its derivatives are the same. -/
theorem operators_mean (hK : UsualOperators K) {m : Module}
    (hm : m = scalarModule ∨ m = arrayModule) (f : Infix) {s : Session K D} (hs : s.Reachable)
    {x y : Object K} (hxy : Object.formulasOf [x, y] ⊆ s.held) {reply : Reply K} {w : World K D}
    (h : m.binaryOperator f.name x y s.world = some (.ok reply, w)) :
    ∃ call l r op a, m.operatorCall? f x y = some call ∧ m.Chooses f x y call l r op ∧
      reply = { object := .inst (.operation op.result a) } ∧
      (∀ ρ z, a.expression.valueUnder ρ = some z → ∃ u v,
        op.left.valueUnder ρ = some u ∧ op.right.valueUnder ρ = some v ∧ f.Means u v z) ∧
      (∀ ρ u v z, op.left.valueUnder ρ = some u → op.right.valueUnder ρ = some v →
        u.category = l → v.category = r → f.Means u v z → Capacity.fits K z.dims = true →
        ∃ z', a.expression.valueUnder ρ = some z') ∧
      Option.Rel (fun z made => ∃ n, made.1 = Body.plain (.inst (.var op.result n)) ∧
          s.world.graph.value? n = none ∧
          made.2.graph.value? = Function.update s.world.graph.value? n (some z) ∧
          made.2.graph.arena.children? n = some (op.left.reads ++ op.right.reads).eraseDups)
        (a.expression.valueUnder s.world.graph.value?)
        ((m.call "var" [reply.object] : HostM K D (Except Error (Reply K))) w) ∧
      ∀ (b : Workbench K D) (i j : Workbench.Argument K) (name : String),
        b.graph = s.world.graph → b.Gives i l op.left → b.Gives j r op.right →
        b.step (.binary f.function i j name) =
          some (({ b with graph := w.graph } : Workbench K D).store name (.operation op.result a),
            .ok (.text "operation")) := by
  have hspeaks : m.Speaks := by
    obtain rfl | rfl := hm
    · exact speaks_scalarModule
    · exact speaks_arrayModule
  obtain ⟨call, l, r, op, hcall, hop, hrun⟩ := Module.run_of_binaryOperator hspeaks h
  obtain ⟨a, b, g₁, g₂, ha, hb, rfl, hg⟩ := Operator.run_made hs.confined hrun
  obtain ⟨hareads, havalue, hg₁⟩ := Side.formula_made ha
  obtain ⟨hbreads, hbvalue, hg₂⟩ := Side.formula_made hb
  have hw : s.world.graph.Relabels w.graph := by
    rw [hg]
    exact (hg₁.trans hg₂).trans rfl
  let made : Formula K := .share g₂.nextLabel (.binary op.kernel a b)
  have hreads : made.expression.reads = op.left.reads ++ op.right.reads := by
    rw [← hareads, ← hbreads]
    rfl
  have hvalue (ρ : NodeId → Option (Value K)) : made.expression.valueUnder ρ =
      (op.left.valueUnder ρ).bind fun u => (op.right.valueUnder ρ).bind (op.kernel.eval u) := by
    rw [← havalue, ← hbvalue]
    rfl
  obtain ⟨β, hβ⟩ : ∃ β, made.expression.NamedBy β := by
    have hswap : Object.instancesOf [y, x] ⊆ Object.instancesOf [x, y] := by
      rintro i ⟨o, ho, hi⟩
      exact ⟨o, by simpa [or_comm] using ho, hi⟩
    have hhosts := (m.runs_binaryOperator (D := D) f.name (subset_refl _) hswap).hosts hxy
    obtain ⟨β, hβ⟩ := (hhosts s.world _ w hs.orderly h).graph.named
    exact ⟨β, (hβ made (.inl (.inl (.operation op.result)))).named⟩
  refine ⟨call, l, r, op, made, hcall, hop, rfl, ?_, ?_, ?_, ?_⟩
  · intro ρ z hz
    rw [hvalue] at hz
    obtain ⟨u, hu, hz⟩ := Option.bind_eq_some_iff.mp hz
    obtain ⟨v, hv, hz⟩ := Option.bind_eq_some_iff.mp hz
    exact ⟨u, v, hu, hv, (Infix.computes hK hop.kernel u v).sound z hz⟩
  · intro ρ u v z hu hv hl hr hz hroom
    rw [hvalue, hu, Option.bind_some, hv, Option.bind_some]
    exact (Infix.computes hK hop.kernel u v).total ⟨⟨hl, hr⟩, z, hz, hroom⟩
  · have hvar := Module.call_var hm hop.served (hw.confined hs.confined) hβ
    rwa [hw.value?_eq, hreads] at hvar
  · intro workbench i j name hgraph hi hj
    rw [hg]
    exact Workbench.step_binary hi hj hop.kernel hop.category (hgraph ▸ ha) hb name

/-- A number less a vector that a variable holds. -/
theorem operators_mean_reflected :
    let s : Session Float (Mat Float) := ofVector #[1, 3]
    s.Reachable ∧ ∃ reply w a z,
      arrayModule.binaryOperator "sub" (.float 2) (.inst (.var .vector (vectorNode #[1, 3])))
        s.world = some (.ok reply, w) ∧
      reply.object = .inst (.operation .vector a) ∧
      a.expression.valueUnder s.world.graph.value? = some z ∧
      (Infix.arithmetic .sub).Means (.scalar 2) (.vector #[1, 3]) z := by
  intro s
  have hs : s.Reachable := reachable_ofVector #[1, 3]
  have hcall := Module.operatorCall_reflected (2 : Float) (vectorNode #[1, 3])
  obtain ⟨reply, w, h⟩ : ∃ reply w, arrayModule.binaryOperator "sub" (.float 2)
      (.inst (.var .vector (vectorNode #[1, 3]))) s.world = some (.ok reply, w) := by
    have heq := arrayModule.binaryOperator_eq (D := Mat Float) (.arithmetic .sub) (.float 2)
      (.inst (.var .vector (vectorNode #[1, 3])))
    rw [hcall] at heq
    exact ⟨_, _, congrFun heq s.world⟩
  have hxy : Object.formulasOf [.float 2, .inst (.var .vector (vectorNode #[1, 3]))] ⊆
      s.held := by
    rintro a ⟨o, ho, ha⟩
    obtain rfl | ho := List.mem_cons.mp ho
    · cases ha
    · obtain rfl := List.mem_singleton.mp ho
      cases ha
  obtain ⟨call, l, r, op, a, hchosen, hop, rfl, hsound, htotal, -, -⟩ :=
    operators_mean usualOperators_float (.inr rfl) (.arithmetic .sub) hs hxy h
  obtain rfl := Option.some.inj (hcall.symm.trans hchosen)
  obtain ⟨operands, hoverload⟩ := hop.overload
  have happlied := hop.applied
  cases happlied
  cases hoverload
  have hmeant : (Infix.arithmetic .sub).Means (.scalar 2) (.vector #[1, 3])
      ((Value.vector #[1, 3]).map fun b => (2 : Float) - b) :=
    .repeatedLeft rfl rfl fun i hi => Value.entry_map _ _ hi
  obtain ⟨z, hz⟩ := htotal s.world.graph.value? _ _ _ rfl rfl rfl rfl hmeant (by decide)
  obtain ⟨u, v, hu, hv, hmeans⟩ := hsound _ z hz
  cases hu
  cases hv
  exact ⟨hs, _, w, a, z, h, rfl, hz, hmeans⟩

end Session

end GradientGraph
