import GradientGraph.Proofs.Algebra.Rules
import GradientGraph.Proofs.Derivative.Program

/-!
# A variable read twice

The smallest graph in which contributions meet: one variable holds a literal, the
other is computed from it by a kernel that reads it on both sides. The kernel, the
values and the derivatives are left open.
-/

set_option autoImplicit false

namespace GradientGraph
namespace Twice

open GradientGraph.Graph

variable {K D : Type}

def source : NodeId := ⟨0, 0⟩

def target : NodeId := ⟨1, 0⟩

def formula (k : BinaryKernel) : Formula K := .binary k (.read 0 source) (.read 0 source)

def graph (k : BinaryKernel) (v w : Value K) (s t : Option (Stamped D)) : Graph K D where
  arena :=
    { slots := #[⟨0, some { content := { value := v, derivative := s } }⟩,
        ⟨0, some
          { content := { value := w, derivative := t, formula := some (formula k) }
            children := [source]
            version := 1 }⟩]
      inserted := 2 }
  nextLabel := 1
  nextStamp := 1

def program : Program D where
  targets := .ofList [target]
  sources := .empty

def plan : Plan where
  order := [source, target]
  sources := .ofList [source]
  versions := [(target, 1), (source, 0)]

variable (k : BinaryKernel) (v w : Value K) (s t : Option (Stamped D))

theorem build_eq : program.build (graph k v w s t) = .ok plan := by
  let a := (graph k v w s t).arena
  let s₁ : Plan.Search := { opened := [⟨target, [source]⟩], versions := [(target, 1)] }
  let s₂ : Plan.Search :=
    { opened := [⟨target, []⟩]
      closed := [source]
      sources := .ofList [source]
      versions := [(source, 0), (target, 1)] }
  let s₃ : Plan.Search := { s₂ with opened := [], closed := [target, source] }
  have hrun : Plan.Search.run a (·.formula.isSome) .empty s₁ = .ok s₃ := by
    rw [Plan.Search.run_next (t := s₂) rfl, Plan.Search.run_next (t := s₃) rfl,
      Plan.Search.run_done rfl]
  have hall : Plan.Search.runAll a (·.formula.isSome) .empty [target] {} = .ok s₃ :=
    Plan.Search.runAll_next (t := s₁) List.not_mem_nil rfl hrun
  exact Plan.build_of_runAll rfl hall rfl

theorem current : (program : Program D).Current (graph k v w s t) plan :=
  ⟨build_eq k v w s t, .inl rfl⟩

theorem formula?_eq_some {n : NodeId} {a : Formula K} :
    (graph k v w s t).formula? n = some a ↔ n = target ∧ formula k = a := by
  obtain ⟨i, γ⟩ := n
  by_cases hγ : 0 = γ
  · subst hγ
    match i with
    | 0 => simp [formula?, Arena.content?, Arena.node?, graph, target]
    | 1 => simp [formula?, Arena.content?, Arena.node?, graph, target]
    | i + 2 => simp [formula?, Arena.content?, Arena.node?, graph, target]
  · have hnode : (graph k v w s t).arena.node? ⟨i, γ⟩ = none := by
      match i with
      | 0 => simp [Arena.node?, graph, hγ]
      | 1 => simp [Arena.node?, graph, hγ]
      | i + 2 => simp [Arena.node?, graph]
    simp [formula?, Arena.content?, hnode, target, Ne.symm hγ]

theorem sound : (graph k v w s t).Sound := by
  constructor
  · intro n a ha
    obtain ⟨rfl, rfl⟩ := (formula?_eq_some k v w s t).mp ha
    rfl
  · refine ⟨fun _ => .literal v, ?_⟩
    intro n a ha
    obtain ⟨rfl, rfl⟩ := (formula?_eq_some k v w s t).mp ha
    exact ⟨trivial, trivial⟩

theorem blank : (graph k v w s t).Blank := ⟨rfl, rfl⟩

section Values

variable [Zero K] [Add K] [Mul K] [MulAdd K] [Capacity K] [Calculus K]

def doubled (op : BinOp) (v : Value K) : Value K :=
  .ofFn v.shape fun i => (Calculus.binary op).eval (v.entry i) (v.entry i)

theorem eval_doubled (op : BinOp) (v : Value K) :
    (BinaryKernel.cwise op).eval v v = some (doubled op v) := if_pos rfl

variable [One K] [NatCast K]

theorem valueUnder_formula :
    (formula k).expression.valueUnder (graph k v w s t).value? = k.eval v v := rfl

theorem upToDate (h : k.eval v v = some w) {n : NodeId} {a : Formula K}
    (ha : (graph k v w s t).formula? n = some a) :
    ∃ u, a.expression.valueUnder (graph k v w s t).value? = some u ∧
      (graph k v w s t).value? n = some u := by
  obtain ⟨rfl, rfl⟩ := (formula?_eq_some k v w s t).mp ha
  exact ⟨w, (valueUnder_formula k v w s t).trans h, rfl⟩

end Values

section Exact

variable [CommRing K] [Calculus K] (k : BinaryKernel) (v w : Value K)
  (s t : Option (Stamped (Mat K)))

theorem fits (h : k.eval v v = some w) :
    plan.Fits (Mat K) (graph k v w s t).value? (graph k v w s t).formula? := by
  apply Plan.fits_mat
  intro n _ a ha
  obtain ⟨u, hu, hn⟩ := upToDate k v w s t h ha
  exact ⟨u, hu, by simp only [sizeUnder, hn]; rfl⟩

end Exact

end Twice
end GradientGraph
