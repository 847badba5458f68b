import GradientGraph.Proofs.Host.Held

/-!
# The sides of an operator

An operator on two operands takes them as expressions or as literals, and in either order.
Told by its sides, in the order in which they are written, all of its overloads do the same.
-/

set_option autoImplicit false

namespace GradientGraph

open GradientGraph.Graph World

def Operand.formulas {K : Type} : Operand K → Set (Formula K)
  | .cell _ => ∅
  | .term a => {a}

inductive Side (K : Type) where
  | literal (v : Value K)
  | operand (x : Operand K)

namespace Side

variable {K D : Type}

def formulas : Side K → Set (Formula K)
  | .literal _ => ∅
  | .operand x => x.formulas

def formula : Side K → GraphM K D (Formula K)
  | .literal v => Body.literalOf v
  | .operand x => Body.formulaOf x

def Among [Zero K] (os : List (Object K)) : Side K → Prop
  | .literal _ => True
  | .operand x => ∃ c, Param.toObject (.expression c) x ∈ os

end Side

structure Operator (K : Type) where
  kernel : BinaryKernel
  /-- The category of the operation that is made. -/
  result : Category
  /-- The name under which operands that do not fit are refused. -/
  checkedAs : Option String
  left : Side K
  right : Side K

def Body.operator? {K : Type} : (b : Body) → Param.Carriers K b.params → Option (Operator K)
  | .binary k _ _ c .expressions name, (x, y, ()) => some ⟨k, c, name, .operand x, .operand y⟩
  | .binary k _ _ c .literalRight name, (x, v, ()) => some ⟨k, c, name, .operand x, .literal v⟩
  | .binary k _ _ c .literalLeft name, (v, y, ()) => some ⟨k, c, name, .literal v, .operand y⟩
  | .binary k _ _ c .reflected name, (y, x, ()) => some ⟨k, c, name, .operand x, .operand y⟩
  | .binary k _ _ c .reflectedLiteral name, (y, v, ()) =>
    some ⟨k, c, name, .literal v, .operand y⟩
  | _, _ => none

namespace Body

theorem operand_subset {K : Type} [Zero K] {H : Set (Formula K)} {c : Category} {x : Operand K}
    {os : List (Object K)} (h : Object.formulasOf os ⊆ H)
    (hx : Param.toObject (.expression c) x ∈ os) : x.formulas ⊆ H := by
  cases x with
  | cell n => exact Set.empty_subset H
  | term a =>
    rintro b rfl
    exact h ⟨_, hx, .operation c⟩

variable {K : Type}

theorem exists_operator (k : BinaryKernel) (l r c : Category) (operands : Operands)
    (name : Option String) (args : Param.Carriers K (binary k l r c operands name).params) :
    ∃ op, (binary k l r c operands name).operator? args = some op := by
  cases operands <;> exact ⟨_, rfl⟩

variable [Zero K] {b : Body} {args : Param.Carriers K b.params} {op : Operator K}

theorem sides_among (h : b.operator? args = some op) :
    op.left.Among (Param.toObjects b.params args) ∧
      op.right.Among (Param.toObjects b.params args) := by
  cases b with
  | binary k l r c operands name =>
    cases operands with
    | expressions =>
      cases h
      exact ⟨⟨l, List.mem_cons_self ..⟩, r, List.mem_cons_of_mem _ (List.mem_cons_self ..)⟩
    | literalRight =>
      cases h
      exact ⟨⟨l, List.mem_cons_self ..⟩, trivial⟩
    | literalLeft =>
      cases h
      exact ⟨trivial, r, List.mem_cons_of_mem _ (List.mem_cons_self ..)⟩
    | reflected =>
      cases h
      exact ⟨⟨l, List.mem_cons_of_mem _ (List.mem_cons_self ..)⟩, r, List.mem_cons_self ..⟩
    | reflectedLiteral =>
      cases h
      exact ⟨trivial, r, List.mem_cons_self ..⟩
  | _ => cases h

end Body

theorem Side.Among.formulas {K : Type} [Zero K] {H : Set (Formula K)} {os : List (Object K)}
    {x : Side K} (h : x.Among os) (hos : Object.formulasOf os ⊆ H) : x.formulas ⊆ H := by
  cases x with
  | literal v => exact Set.empty_subset H
  | operand x =>
    obtain ⟨c, hx⟩ := h
    exact Body.operand_subset hos hx

namespace Operator

variable {K D : Type} [Zero K] [One K] [Add K] [Mul K] [MulAdd K] [Capacity K] [NatCast K]
  [Calculus K]

def run (op : Operator K) : GraphM K D (Except Error (Reply K)) := do
  Body.applyBinary op.kernel op.result op.checkedAs (← op.left.formula) (← op.right.formula)

theorem run_eq [Differential K D] [HostDerivative K D] {b : Body}
    {args : Param.Carriers K b.params} {op : Operator K} (h : b.operator? args = some op) :
    (b.run args : HostM K D (Except Error (Reply K))) = onGraph op.run := by
  cases b with
  | binary k l r c operands name => cases operands <;> cases h <;> rfl
  | _ => cases h

end Operator

end GradientGraph
