import GradientGraph.Host.Builtin
import GradientGraph.Proofs.Host.Shape
import GradientGraph.Proofs.Session.Request

/-!
# What a module offers

A module is built up by adding one function or method after another, so that all it offers
is proper if everything added is. The module of arrays asks for nothing that its functions do not
take, and it stays so whatever a host adds to it.
-/

set_option autoImplicit false

namespace GradientGraph

namespace Module

def Proper (m : Module) : Prop := ∀ b, m.Offers b → b.Proper

theorem mem_addOverload {b c : Body} {o : Option OverloadSet}
    (h : c ∈ (addOverload b o).bodies) : c = b ∨ ∃ s, o = some s ∧ c ∈ s.bodies := by
  refine (OverloadSet.mem_insertList.mp h).imp_right fun h => ?_
  cases o with
  | none => cases h
  | some s => exact ⟨s, rfl, h⟩

variable {m : Module} {b : Body}

theorem proper_new (name doc : String) : Proper { name, doc } := by
  rintro b (⟨hs, -⟩ | ⟨hc, -, -⟩)
  · cases hs
  · cases hc

namespace Proper

theorem define (hm : m.Proper) (name : String) (hb : b.Proper) : (m.define name b).Proper := by
  rintro c (⟨hs, hc⟩ | ⟨hclass, hs, hc⟩)
  · rw [Module.define, Table.find?_alter] at hs
    split at hs
    · cases hs
      obtain rfl | ⟨s, hs, hc⟩ := mem_addOverload hc
      · exact hb
      · exact hm c (.function hs hc)
    · exact hm c (.function hs hc)
  · exact hm c (.method hclass hs hc)

theorem defineMethod (hm : m.Proper) (className name : String) (hb : b.Proper) :
    (m.defineMethod className name b).Proper := by
  rintro c (⟨hs, hc⟩ | ⟨hclass, hs, hc⟩)
  · exact hm c (.function hs hc)
  · rw [Module.defineMethod, Table.find?_alter] at hclass
    split at hclass
    · cases hclass
      have former {k : String} {s : OverloadSet}
          (h : ((m.classes.find? className).getD {}).methods.find? k = some s) :
          ∃ info, m.classes.find? className = some info ∧ info.methods.find? k = some s := by
        cases hfind : m.classes.find? className with
        | none =>
          rw [hfind] at h
          cases h
        | some info =>
          rw [hfind] at h
          exact ⟨info, rfl, h⟩
      simp only [Table.find?_alter] at hs
      split at hs
      · cases hs
        obtain rfl | ⟨s, hs, hc⟩ := mem_addOverload hc
        · exact hb
        · obtain ⟨info, hinfo, hs⟩ := former hs
          exact hm c (.method hinfo hs hc)
      · obtain ⟨info, hinfo, hs⟩ := former hs
        exact hm c (.method hinfo hs hc)
    · exact hm c (.method hclass hs hc)

theorem addClass (hm : m.Proper) (name : String) (bases : List String) (doc : String) :
    (m.addClass name bases doc).Proper := by
  rintro c (⟨hs, hc⟩ | ⟨hclass, hs, hc⟩)
  · exact hm c (.function hs hc)
  · rw [Module.addClass, Table.find?_alter] at hclass
    split at hclass
    · cases hclass
      cases hfind : m.classes.find? name with
      | none =>
        rw [hfind] at hs
        cases hs
      | some info =>
        rw [hfind] at hs
        exact hm c (.method hfind hs hc)
    · exact hm c (.method hclass hs hc)

theorem setDoc (hm : m.Proper) (name doc : String) : (m.setDoc name doc).Proper := by
  rintro c (⟨hs, hc⟩ | ⟨hclass, hs, hc⟩)
  · exact hm c (.function hs hc)
  · exact hm c (.method hclass hs hc)

theorem foldl {α : Type} {f : Module → α → Module} (hm : m.Proper) (xs : List α)
    (hf : ∀ m x, m.Proper → (f m x).Proper) : (xs.foldl f m).Proper :=
  List.foldlRecOn xs f hm fun m hm x _ => hf m x hm

theorem withDocs (hm : m.Proper) (docs : List (String × String)) : (m.withDocs docs).Proper :=
  hm.foldl docs fun _ x hm => hm.setDoc x.1 x.2

theorem withPrograms (hm : m.Proper) : m.withPrograms.Proper := by
  unfold Module.withPrograms
  exact hm.addClass _ _ _ |>.addClass _ _ _
    |>.define _ (by trivial) |>.define _ (by trivial)
    |>.defineMethod _ _ (by trivial) |>.defineMethod _ _ (by trivial)
    |>.defineMethod _ _ (by trivial) |>.defineMethod _ _ (by trivial)
    |>.defineMethod _ _ (by trivial) |>.defineMethod _ _ (by trivial)
    |>.defineMethod _ _ (by trivial) |>.defineMethod _ _ (by trivial)
    |>.setDoc _ _ |>.setDoc _ _ |>.setDoc _ _ |>.setDoc _ _ |>.setDoc _ _
    |>.setDoc _ _ |>.setDoc _ _

theorem withCategory (hm : m.Proper) (c : Category) : (m.withCategory c .matrix).Proper := by
  unfold Module.withCategory
  exact hm.addClass _ _ _ |>.addClass _ _ _ |>.addClass _ _ _
    |>.define _ (by trivial) |>.define _ (by trivial) |>.define _ (by trivial)
    |>.defineMethod _ _ (by trivial) |>.defineMethod _ _ (by trivial)
    |>.defineMethod _ _ (by trivial) |>.defineMethod _ _ (by rfl) |>.defineMethod _ _ (by trivial)
    |>.setDoc _ _ |>.setDoc _ _ |>.setDoc _ _
    |>.define _ (by trivial) |>.define _ (by trivial) |>.define _ (by trivial)
    |>.define _ (by trivial) |>.setDoc _ _ |>.setDoc _ _

theorem withInfix (hm : m.Proper) (c : Category) (name : String) (op : BinOp) :
    (m.withInfix c name op).Proper := by
  have hbody (operands : Operands) (name : String) :
      (Body.binary (.cwise op) c c c operands (some name)).Proper :=
    ⟨if_pos rfl, fun h => by cases h⟩
  exact hm.defineMethod _ _ (hbody _ _) |>.defineMethod _ _ (hbody _ _)
    |>.defineMethod _ _ (hbody _ _)

theorem withArithmetic (hm : m.Proper) (c : Category) : (m.withArithmetic c).Proper :=
  (hm.foldl arithmetic fun _ x hm => hm.withInfix c x.1 x.2).defineMethod _ _ trivial

/-- Operators with a scalar are not checked, since no dimensions keep one from fitting. -/
theorem withBroadcast (hm : m.Proper) {c : Category} (hc : c ≠ .scalar) (name : String)
    (op : BinOp) : (m.withBroadcast c name op).Proper := by
  have hbody (operands : Operands) :
      (Body.binary (.broadcast op) c .scalar c operands none).Proper :=
    ⟨if_neg hc, fun _ _ _ => trivial⟩
  exact hm.defineMethod _ _ (hbody _) |>.defineMethod _ _ (hbody _)

theorem withReflectedBroadcast (hm : m.Proper) {c : Category} (hc : c ≠ .scalar)
    (name : String) (op : BinOp) : (m.withReflectedBroadcast c name op).Proper := by
  have hbody (operands : Operands) :
      (Body.binary (.broadcastLeft op) .scalar c c operands none).Proper :=
    ⟨if_neg hc, fun _ _ _ => trivial⟩
  exact hm.defineMethod _ _ (hbody _) |>.defineMethod _ _ (hbody _)

theorem withBroadcasts (hm : m.Proper) {c : Category} (hc : c ≠ .scalar) :
    (m.withBroadcasts c).Proper :=
  (hm.foldl arithmetic fun _ x hm => hm.withBroadcast hc x.1 x.2).foldl _
    fun _ x hm => hm.withReflectedBroadcast hc x.1 x.2

theorem withMatmul (hm : m.Proper) {c : Category}
    (hc : BinaryKernel.matmul.category .matrix c = some c) : (m.withMatmul c).Proper := by
  have hbody (operands : Operands) (name : String) :
      (Body.binary .matmul .matrix c c operands (some name)).Proper :=
    ⟨hc, fun h => by cases h⟩
  exact hm.defineMethod _ _ (hbody _ _) |>.defineMethod _ _ (hbody _ _)

theorem withElementwise (hm : m.Proper) (c : Category) : (m.withElementwise c).Proper :=
  hm.foldl elementwise fun _ x hm => hm.define x.1 (by trivial)

theorem withReductions (hm : m.Proper) (c : Category) : (m.withReductions c).Proper := by
  unfold Module.withReductions
  exact hm.define _ (by trivial) |>.define _ (by trivial) |>.define _ (by trivial)
    |>.define _ (by trivial)

theorem withProduct (hm : m.Proper) (name : String) {k : BinaryKernel} {l r c : Category}
    (hk : k.category l r = some c) : (m.withProduct name k l r c).Proper := by
  have hbody (operands : Operands) : (Body.binary k l r c operands (some name)).Proper :=
    ⟨hk, fun h => by cases h⟩
  exact hm.define _ (hbody _) |>.define _ (hbody _) |>.define _ (hbody _)

end Proper

end Module

theorem proper_arrayModule : arrayModule.Proper := by
  have hscalar : Category.vector ≠ .scalar ∧ Category.matrix ≠ .scalar := by decide
  unfold arrayModule
  exact Module.proper_new _ _ |>.withPrograms
    |>.withCategory .scalar |>.withArithmetic .scalar |>.withElementwise .scalar
    |>.withCategory .vector |>.withArithmetic .vector |>.withBroadcasts hscalar.1
    |>.withElementwise .vector
    |>.withCategory .matrix |>.withArithmetic .matrix |>.withBroadcasts hscalar.2
    |>.withMatmul (c := .vector) rfl |>.withMatmul (c := .matrix) rfl
    |>.withElementwise .matrix
    |>.withProduct "dot" rfl |>.withProduct "outer" rfl
    |>.withProduct "matmul" rfl |>.withProduct "matmul" rfl
    |>.withReductions .vector |>.withReductions .matrix |>.withDocs _

end GradientGraph
