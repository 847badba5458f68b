import GradientGraph.Proofs.Session.Recycling
import GradientGraph.Scalar.Float

/-!
# Shapes in a session of arrays

Everything fits in a session of the module of arrays in which variables keep their shapes. So
an operator that is applied to two operands answers as their dimensions ask for, what it makes
can be evaluated, and passes that give their own seeds come to their end.
-/

set_option autoImplicit false

namespace GradientGraph

open GradientGraph.Graph World

namespace Session

variable {K : Type} [Zero K] [One K] [Add K] [Mul K] [MulAdd K] [NatCast K] [Calculus K] [BEq K]

theorem Steady.stands {limits : Capacity K} {s : Session K (Mat K)} (h : s.Steady) :
    s.Fit ∧ s.world.Neat s.held ∧ s.world.scene.Whole s.nodes :=
  ⟨h.fit, h.fit.neat h.reachable, h.reachable.whole⟩

/-- Shapes are checked when an operator is applied, and that is enough. Let a session of the
module of arrays have come about under some `limits` to the size of arrays, in which every
variable that was set kept its shape. Then, as far as there is `room`,

* an operator on two operands is refused with their dimensions, as it took them and in the
  order in which they are written, if these do not fit, and makes an operation otherwise;
* the operations that were made have values, and every step comes to its end, unless it is a
  pass that takes the derivatives that the host gave for seeds;
* a pass that gives its own seed and goes ahead leaves derivatives on all nodes of the plan
  whose dimensions are the size of the node and that of the seed. -/
theorem shapes_fit (limits : Capacity K) {s : Session K (Mat K)} (hs : s.Steady)
    (room : Capacity K) :
    (∀ request c op, s.call? request = some c → c.body.operator? c.args = some op →
      s.perform request = .ok (c.run : HostM K (Mat K) _) ∧
      Delivers (Roomy K) (fun r => op.Answers s.world.graph r.1)
        ((c.run : HostM K (Mat K) _) s.world) ∧
      (Roomy K → ∃ x y, op.left.value? s.world.graph = some x ∧
        op.right.value? s.world.graph = some y)) ∧
    (∀ category a, .operation category a ∈ s.instances →
      Delivers (Roomy K) (fun r => r.1.shape.category = category)
        ((evaluateOnce a : GraphM K (Mat K) (Value K)) s.world.graph)) ∧
    (∀ x, s.Keeps x → Deed.OwnSeeds s.world.graph (s.deed x : Deed (Mat K)) → Roomy K →
      ∃ r, s.step x = some r) ∧
    ∀ request c id x r w δ, s.world.graph.Young → s.call? request = some c →
      c.body.deed c.args = (.pass (.number id) x : Deed (Mat K)) →
      c.run s.world = some (.ok r, w) → x.Spans w.graph δ →
      ∃ p plan, w.programs[id]? = some p ∧ p.plan? = some plan ∧
        Full δ plan.order w.graph.differential? := by
  obtain ⟨hfit, hw, hwhole⟩ := hs.stands
  refine ⟨fun request c op hc hop => ⟨(perform_of_call hc).1, hfit.answers hw hc hop⟩,
    fun category a ha => hfit.evaluateOnce hw ha,
    fun x hx hown hroom => hfit.exists_step hw hx hown hroom,
    fun request c id x r w δ hyoung hc hdeed hrun hspans => ?_⟩
  exact hfit.full_of_pass hw hwhole hyoung hc hdeed hrun hspans

/-- An operand without elements does not fit a vector that has some. A vector and its copy
get square Jacobians. -/
theorem shapes_fit_copied :
    let empty : Tensor Float := ⟨[0], #[], rfl⟩
    let s : Session Float (Mat Float) :=
      Recycling.session (Recycling.copied (.vector #[1, 2]) []).graph
        [("x", Recycling.vector Twice.source), ("y", Recycling.vector Twice.target),
          ("f", .inst (.program 0))]
    let mismatch : Except Error (Reply Float) := .error (.shapeMismatch "dot" [2] [0])
    s.Steady ∧ s.world.graph.Young ∧
      (∃ c op w, s.call? (.call "dot" [.ref "x", .array empty]) = some c ∧
        c.body.operator? c.args = some op ∧ c.run s.world = some (mismatch, w) ∧
        op.Answers s.world.graph mismatch) ∧
      ∃ c w p, s.call? (.method (.ref "f") "push_tangent_at" [.ref "x"]) = some c ∧
        c.run s.world = some (.ok { object := .none }, w) ∧ w.programs[0]? = some p ∧
        p.plan? = some Twice.plan ∧
        Full (fun _ => (2, 2)) Twice.plan.order w.graph.differential? := by
  intro empty s mismatch
  have hs : s.Steady := Recycling.steady_copied _
  have hyoung : s.world.graph.Young := ⟨by decide, by decide⟩
  have hcall : s.call? (.call "dot" [.ref "x", .array empty]) =
      some ⟨.binary .dot .vector .vector .scalar .literalRight (some "dot"),
        (.cell Twice.source, .vector #[], ())⟩ := rfl
  have hpass : s.call? (.method (.ref "f") "push_tangent_at" [.ref "x"]) =
      some ⟨.pushTangentAt, (0, Twice.source, ())⟩ :=
    call?_method rfl rfl Recycling.pushTangentAt_offered rfl
  obtain ⟨hoperator, -, -, hseeded⟩ := shapes_fit floatCapacity hs floatCapacity
  refine ⟨hs, hyoung, ⟨_, _, _, hcall, rfl, rfl, ?_⟩, ?_⟩
  · exact (hoperator _ _ _ hcall rfl).2.1.sound _ rfl
  · obtain ⟨w, hrun, ⟨p, hp, hplan⟩, hsize⟩ : ∃ w, (⟨.pushTangentAt, (0, Twice.source, ())⟩ :
        Call Float).run s.world = some (.ok { object := .none }, w) ∧
        (∃ p, w.programs[0]? = some p ∧ p.plan? = some Twice.plan) ∧
        w.graph.sizeAt Twice.source = 2 ∧ w.graph.sizeAt Twice.target = 2 :=
      ⟨_, rfl, ⟨_, rfl, rfl⟩, rfl, rfl⟩
    obtain ⟨q, plan, hq, hplan', hfull⟩ :=
      hseeded _ _ 0 _ _ _ _ hyoung hpass rfl hrun (.pushTangentAt Twice.source)
    obtain rfl : p = q := Option.some.inj (hp.symm.trans hq)
    obtain rfl : Twice.plan = plan := Option.some.inj (hplan.symm.trans hplan')
    refine ⟨_, w, p, hpass, hrun, hp, hplan, fun n hn => ?_⟩
    obtain ⟨d, hd, hdims⟩ := hfull n hn
    refine ⟨d, hd, hdims.trans ?_⟩
    obtain rfl | rfl : n = Twice.source ∨ n = Twice.target := by simpa [Twice.plan] using hn
    · exact congrArg₂ Prod.mk hsize.1 hsize.1
    · exact congrArg₂ Prod.mk hsize.2 hsize.1

namespace Overridden

open Recycling (tensor vector)

/-- A host's own overload of `+`, with the operands as they are. -/
def add : Call Float := ⟨.echo "mine" [.any, .any], (vector ⟨0, 0⟩, vector ⟨1, 0⟩, ())⟩

def first : World Float (Mat Float) where
  graph := { arena := (({} : Arena _).insert { value := .vector #[1, 2] }).2 }

def both : World Float (Mat Float) where
  graph := { arena := (first.graph.arena.insert { value := .vector #[1, 2, 3] }).2 }

def session : Session Float (Mat Float) where
  module := arrayModule.defineMethod "VectorVariable" "__add__" add.body
  world := both
  objects := [("x", vector ⟨0, 0⟩), ("y", vector ⟨1, 0⟩)]

theorem steady : session.Steady := by
  have hfirst : ({ module := arrayModule, world := first, objects := [("x", vector ⟨0, 0⟩)] } :
      Session Float (Mat Float)).Steady :=
    Steady.start.call_new (.call "var" [.array (tensor #[1, 2])]) "x"
      ⟨.newLiteral .vector, (.vector #[1, 2], ())⟩ (vector ⟨0, 0⟩) first rfl trivial rfl rfl
  have hboth : ({ session with module := arrayModule } : Session Float (Mat Float)).Steady :=
    hfirst.call_new (.call "var" [.array (tensor #[1, 2, 3])]) "y"
      ⟨.newLiteral .vector, (.vector #[1, 2, 3], ())⟩ (vector ⟨1, 0⟩) both rfl trivial rfl rfl
  exact hboth.step (.defineMethod "VectorVariable" "__add__" "mine" [.any, .any]) trivial rfl

theorem call?_add : session.call? (.binary "add" (.ref "x") (.ref "y")) = some add := by
  have hbodies : (session.module.overloadSet? (.method "VectorVariable" "__add__")).map (·.bodies) =
      some [add.body] := by decide +kernel
  have hselect : session.module.selectMethod? (vector ⟨0, 0⟩) "__add__" [vector ⟨1, 0⟩] =
      some add := selectMethod_own hbodies rfl
  exact congrArg (Option.or · _) hselect

theorem run_add : add.run both =
    some (.ok { object := .tuple [.str "mine", vector ⟨0, 0⟩, vector ⟨1, 0⟩] }, both) := by
  have hlabel : "mine".startsWith "!" = false := by decide +kernel
  rw [Call.run, add, Body.run, hlabel]
  rfl

end Overridden

/-- Where a plan is taken for fresh because generations have come round, the derivative of a
vector that it does not know, a single number here, stays what it was and is passed on. And an
overload that a host adds may take operands that do not fit. -/
theorem shapes_unfit :
    (∃ (s : Session Float (Mat Float)) (c : Call Float) (w : World Float (Mat Float))
        (p : Program (Mat Float)) (δ : NodeId → Nat × Nat) (d : Mat Float),
      s.Steady ∧ s.call? (.method (.ref "f") "push_tangent_at" [.ref "x"]) = some c ∧
      c.body.deed c.args = (.pass (.number 0) (.pushTangentAt Twice.source) : Deed (Mat Float)) ∧
      c.run s.world = some (.ok { object := .none }, w) ∧
      (Pass.pushTangentAt Twice.source).Spans w.graph δ ∧ w.programs[0]? = some p ∧
      p.plan? = some Twice.plan ∧ Twice.target ∈ Twice.plan.order ∧
      w.graph.differential? Twice.target = some d ∧ d.dims = (1, 1) ∧ δ Twice.target = (3, 2)) ∧
    ∃ (s : Session Float (Mat Float)) (c : Call Float) (w : World Float (Mat Float))
        (r : Reply Float) (x y : Value Float),
      s.Steady ∧
      s.objects = [("x", .inst (.var .vector ⟨0, 0⟩)), ("y", .inst (.var .vector ⟨1, 0⟩))] ∧
      s.world.graph.value? ⟨0, 0⟩ = some x ∧ s.world.graph.value? ⟨1, 0⟩ = some y ∧
      x.dims = [2] ∧ y.dims = [3] ∧
      s.call? (.binary "add" (.ref "x") (.ref "y")) = some c ∧ c.run s.world = some (.ok r, w) := by
  constructor
  · have hs := Recycling.steady_wrapped_one #[1, 2] #[1, 2, 3]
      (t := ⟨[1, 1], #[(1 : Float)], rfl⟩) rfl rfl
    exact ⟨_, _, _, _, _, _, hs, call?_method rfl rfl Recycling.pushTangentAt_offered rfl, rfl,
      rfl, .pushTangentAt Twice.source, rfl, rfl, by simp [Twice.plan], rfl, rfl, rfl⟩
  · exact ⟨Overridden.session, _, _, _, .vector #[1, 2], .vector #[1, 2, 3], Overridden.steady, rfl,
      rfl, rfl, rfl, rfl, Overridden.call?_add, Overridden.run_add⟩

end Session

end GradientGraph
