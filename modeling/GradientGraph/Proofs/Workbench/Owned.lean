import GradientGraph.Proofs.Session.Owned
import GradientGraph.Proofs.Workbench.Edges

/-!
# Owners on a workbench

A workbench stores what it makes before the step ends, and gives up what an assignment, a
stored item or a drop leaves behind. So between two steps every node is owned by a stored
item or by the formula of a variable, here as well.
-/

set_option autoImplicit false

namespace GradientGraph

open GradientGraph.Graph

namespace Workbench

variable {K D α : Type}

structure Accounted (w : Workbench K D) : Prop where
  names : w.items.names.Nodup
  owned : w.graph.Owned w.nodes

section Items

variable {w : Workbench K D}

theorem owned_release {pending : List NodeId}
    (h : w.graph.Owned ({n | n ∈ pending} ∪ w.nodes)) :
    (w.release pending).graph.Owned (w.release pending).nodes := Owned.release h

theorem nodes_subset_put (name : String) (x : Item K) :
    x.nodeSet ∪ w.nodes ⊆ {n | n ∈ ((w.items.find? name).map (·.nodes)).getD []} ∪
      {n | n ∈ itemNodes (w.items.put name x)} := by
  rintro n (hn | hn)
  · have hself : (name, x) ∈ w.items.put name x := Table.mem_alter_self w.items
    exact .inr (List.mem_flatMap.mpr ⟨_, hself, hn⟩)
  · obtain ⟨e, he, hn⟩ := List.mem_flatMap.mp hn
    rcases Table.mem_alter_of_mem name (fun _ => x) he with hkept | hfound
    · exact .inr (List.mem_flatMap.mpr ⟨e, hkept, hn⟩)
    · refine .inl ?_
      rw [hfound]
      exact hn

theorem nodes_subset_erase (hw : w.items.names.Nodup) (name : String) :
    w.nodes ⊆ {n | n ∈ ((w.items.find? name).map (·.nodes)).getD []} ∪
      {n | n ∈ itemNodes (w.items.erase name)} := by
  intro n hn
  obtain ⟨e, he, hn⟩ := List.mem_flatMap.mp hn
  rcases Table.mem_erase_of_mem hw name he with hkept | hfound
  · exact .inr (List.mem_flatMap.mpr ⟨e, hkept, hn⟩)
  · refine .inl ?_
    rw [hfound]
    exact hn

theorem accounted_store (hw : w.items.names.Nodup) (name : String) {x : Item K}
    (h : w.graph.Owned (x.nodeSet ∪ w.nodes)) : (w.store name x).Accounted where
  names := Table.nodup_put hw name x
  owned :=
    let stored : Workbench K D := { w with items := w.items.put name x }
    owned_release (w := stored) (h.mono (nodes_subset_put name x))

theorem Accounted.forget (h : w.Accounted) (name : String) : (w.forget name).Accounted where
  names := Table.nodup_erase h.names name
  owned :=
    let erased : Workbench K D :=
      { w with items := w.items.erase name, programs := w.programs.erase name }
    owned_release (w := erased) (h.owned.mono (nodes_subset_erase h.names name))

theorem Accounted.touches (h : w.Accounted) {g : Graph K D} {programs : Table (Program D)}
    {T : Set NodeId} (hg : w.graph.Touches T g) :
    ({ w with graph := g, programs } : Workbench K D).Accounted :=
  ⟨h.names, h.owned.touches hg⟩

end Items

section Steps

variable [Zero K] [Add K] [Mul K] [MulAdd K] [Capacity K] [NatCast K] [Calculus K]
  {w : Workbench K D} {S : Set Nat} {N : Set NodeId}

theorem Makes.accounts {m : GraphM K D (Item K)} (h : w.Makes m) :
    Accounts S N m Item.nodeSet := by
  have hself (c : Category) (n : NodeId) : {n} ⊆ (Item.var c n : Item K).nodeSet :=
    fun m hm => List.mem_singleton.mpr hm
  obtain ⟨c, v, rfl⟩ | ⟨c, x, rfl⟩ | hformed := h.variable_or_formed
  · exact (accounts_newVariable v).map (Item.var c) (hself c)
  · exact (works_formula (T := ∅) x).accounts_bind fun a =>
      (accounts_newComputed a).map (Item.var c) (hself c)
  · exact (hformed S).accounts _

theorem Assigns.accounts {deed : Deed D} {m : GraphM K D (List NodeId)} (h : w.Assigns deed m) :
    Accounts S N m fun displaced => {n | n ∈ displaced} := by
  cases h with
  | @literal _ n hn v => exact accounts_assignLiteral n v
  | @formula _ _ n y hn hy =>
    exact (works_formula (T := ∅) y).accounts_bind fun a => accounts_assignFormula n a

variable [One K] [Differential K D] [NumberText K] [HostDerivative K D]

theorem Accounted.step (hw : w.Accounted) (hwhole : w.scene.Whole w.nodes) {w' : Workbench K D}
    {x : Step K D} {r : Except Failure (Answer K)} (h : w.step x = some (w', r)) :
    w'.Accounted := by
  cases steps h with
  | asked => exact hw
  | noted => exact ⟨hw.names, hw.owned⟩
  | inquired hm hrun =>
    obtain ⟨Q, hworks⟩ := hm.works
    exact hw.touches (hworks w.graph _ _ hwhole.dated hrun).1
  | @made _ _ hm y g hrun name =>
    let made : Workbench K D := { w with graph := g }
    exact accounted_store (w := made) hw.names name
      (hm.accounts w.graph y g hwhole.packed hwhole.dated hw.owned hrun)
  | @assigned _ hm displaced g hrun =>
    let assigned : Workbench K D := { w with graph := g }
    exact ⟨hw.names, owned_release (w := assigned)
      (hm.accounts w.graph displaced g hwhole.packed hwhole.dated hw.owned hrun)⟩
  | @given _ n hn d hdeed u g hrun =>
    have hgive : Labours w.scene.stamps Set.univ (giveDerivative n d : GraphM K D Unit) :=
      works_giveDerivative (Set.mem_univ n) d
    exact hw.touches (hgive w.graph u g hwhole.dated hrun).1
  | @dropped name => exact hw.forget name
  | stored => exact hw.touches (.refl ∅ w.graph)
  | compiled => exact hw.touches (.refl ∅ w.graph)
  | @passed _ p _ hp y hdeed _ g hrun =>
    have hprogram : w.scene.program? (.name _) = some p := hp
    exact hw.touches (Pass.touches_run hwhole.dated (Scene.seedStamps_subset hprogram) hrun)

end Steps

end Workbench

end GradientGraph
