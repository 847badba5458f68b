import GradientGraph.Proofs.Graph.Touch

/-!
# How a graph grows and shrinks

A step first works on the graph. Nodes may come in, but none goes; at most one has its
edges rebuilt. Then references are given up, and nodes go that nothing refers to. So
what is referred to from outside stays live, and with it what the formulas read.
-/

set_option autoImplicit false

namespace GradientGraph

open GradientGraph.Graph

section Nodes

variable {K D : Type}

/-- What can become of a node. Its version changes exactly if its edges are rebuilt. -/
structure Node.Becomes (rebuilt touched : Prop) (x y : Node (Cell K D)) : Prop where
  version : rebuilt → y.version ≠ x.version
  edges : ¬rebuilt → y.version = x.version ∧ y.children = x.children ∧
    y.content.formula = x.content.formula
  derivative : ¬touched → y.content.derivative = x.content.derivative

variable {rebuilt touched : Prop} {x y z : Node (Cell K D)}

theorem Node.Becomes.refl (h : ¬rebuilt) (x : Node (Cell K D)) : x.Becomes rebuilt touched x :=
  ⟨fun hr => absurd hr h, fun _ => ⟨rfl, rfl, rfl⟩, fun _ => rfl⟩

theorem Node.Becomes.trans (h : x.Becomes False touched y) (h' : y.Becomes rebuilt touched z) :
    x.Becomes rebuilt touched z where
  version := fun hr => (h.edges id).1 ▸ h'.version hr
  edges := by
    intro hr
    obtain ⟨hv, hc, hf⟩ := h.edges id
    obtain ⟨hv', hc', hf'⟩ := h'.edges hr
    exact ⟨hv'.trans hv, hc'.trans hc, hf'.trans hf⟩
  derivative := fun ht => (h'.derivative ht).trans (h.derivative ht)

theorem version_ne_succ (v : UInt64) : v + 1 ≠ v := by
  intro h
  have hnat := congrArg UInt64.toNat h
  rw [UInt64.toNat_add] at hnat
  have := v.toNat_lt
  simp at hnat
  omega

theorem Node.becomes_attach (a : Formula K) (v : Value K) (h : rebuilt) (x : Node (Cell K D)) :
    x.Becomes rebuilt touched (Node.attach a v x) :=
  ⟨fun _ => version_ne_succ x.version, fun hr => absurd h hr, fun _ => rfl⟩

end Nodes

theorem Arena.packed_mapContent {α β : Type} {f : α → β} {a : Arena α} :
    (a.mapContent f).Packed ↔ a.Packed := by
  have hslot (i : Nat) : (∃ generation, (a.mapContent f).slots[i]? = some ⟨generation, none⟩) ↔
      ∃ generation, a.slots[i]? = some ⟨generation, none⟩ := by
    unfold mapContent
    rw [Array.getElem?_map]
    cases a.slots[i]? with
    | none => simp
    | some s =>
      obtain ⟨generation, node⟩ := s
      cases node <;> simp
  have hsize : (a.mapContent f).slots.size = a.slots.size := Array.size_map
  constructor
  · intro h
    exact ⟨fun i hi => (hslot i).mp (h.empty i hi), h.nodup, hsize ▸ h.slots_le⟩
  · intro h
    exact ⟨fun i hi => (hslot i).mpr (h.empty i hi), h.nodup, hsize ▸ h.slots_le⟩

namespace Graph

variable {K D : Type}

/-- What holds of a graph while the nodes `N` are referred to from outside and the stamps
`S` are known there. -/
structure Whole (S : Set Nat) (N : Set NodeId) (g : Graph K D) : Prop where
  packed : g.arena.Packed
  dated : g.Dated S
  held : ∀ n ∈ N, g.arena.contains n
  closed : ∀ n a, g.formula? n = some a → ∀ c ∈ a.expression.reads, g.arena.contains c

structure Grows (F T : Set NodeId) (g g' : Graph K D) : Prop where
  ages : g.Ages g'
  stamp : g.nextStamp ≤ g'.nextStamp
  nodes : ∀ n x, g.arena.node? n = some x →
    ∃ y, g'.arena.node? n = some y ∧ x.Becomes (n ∈ F) (n ∈ T) y

structure Sheds (g g' : Graph K D) : Prop where
  ages : g.Ages g'
  inserted : g'.arena.inserted = g.arena.inserted
  assigned : g'.assigned = g.assigned
  stamp : g.nextStamp ≤ g'.nextStamp
  nodes : ∀ n x, g'.arena.node? n = some x → g.arena.node? n = some x

/-- Whether the nodes that are still there had their edges rebuilt if they are in `F` and
their derivatives touched in `T` at most. -/
structure Alters (F T : Set NodeId) (g g' : Graph K D) : Prop where
  ages : g.Ages g'
  stamp : g.nextStamp ≤ g'.nextStamp
  nodes : ∀ n x y, g.arena.node? n = some x → g'.arena.node? n = some y →
    x.Becomes (n ∈ F) (n ∈ T) y

variable {S S' : Set Nat} {F N N' T : Set NodeId} {g g' g'' : Graph K D}

theorem Grows.refl (T : Set NodeId) (g : Graph K D) : g.Grows ∅ T g :=
  ⟨.refl g, Nat.le_refl _, fun _ x hx => ⟨x, hx, .refl id x⟩⟩

theorem Grows.trans (h : g.Grows ∅ T g') (h' : g'.Grows F T g'') : g.Grows F T g'' where
  ages := h.ages.trans h'.ages
  stamp := Nat.le_trans h.stamp h'.stamp
  nodes := by
    intro n x hx
    obtain ⟨y, hy, hxy⟩ := h.nodes n x hx
    obtain ⟨z, hz, hyz⟩ := h'.nodes n y hy
    exact ⟨z, hz, hxy.trans hyz⟩

theorem Grows.alters (h : g.Grows F T g') : g.Alters F T g' where
  ages := h.ages
  stamp := h.stamp
  nodes := by
    intro n x y hx hy
    obtain ⟨y', hy', hxy⟩ := h.nodes n x hx
    obtain rfl : y = y' := Option.some.inj (hy.symm.trans hy')
    exact hxy

theorem Alters.sheds (h : g.Alters F T g') (h' : g'.Sheds g'') : g.Alters F T g'' where
  ages := h.ages.trans h'.ages
  stamp := Nat.le_trans h.stamp h'.stamp
  nodes := fun n x y hx hy => h.nodes n x y hx (h'.nodes n y hy)

theorem Sheds.refl (g : Graph K D) : g.Sheds g :=
  ⟨.refl g, rfl, rfl, Nat.le_refl _, fun _ _ h => h⟩

theorem Sheds.trans (h : g.Sheds g') (h' : g'.Sheds g'') : g.Sheds g'' where
  ages := h.ages.trans h'.ages
  inserted := h'.inserted.trans h.inserted
  assigned := h'.assigned.trans h.assigned
  stamp := Nat.le_trans h.stamp h'.stamp
  nodes := fun n x hx => h.nodes n x (h'.nodes n x hx)

theorem whole_empty : ({} : Graph K D).Whole ∅ ∅ where
  packed := Arena.packed_empty
  dated := dated_empty
  held := by simp
  closed := by
    intro n a ha
    cases ha

theorem Whole.mono (h : g.Whole S N) (hS : S' ⊆ S) (hN : N' ⊆ N) : g.Whole S' N' :=
  ⟨h.packed, h.dated.mono hS, fun n hn => h.held n (hN hn), h.closed⟩

theorem node?_of_formula {n : NodeId} {a : Formula K} (h : g.formula? n = some a) :
    ∃ x, g.arena.node? n = some x ∧ x.content.formula = some a := by
  obtain ⟨c, hc, hca⟩ := Option.bind_eq_some_iff.mp h
  obtain ⟨x, hx, rfl⟩ := Option.map_eq_some_iff.mp hc
  exact ⟨x, hx, hca⟩

theorem formula?_of_node {n : NodeId} {x : Node (Cell K D)} (h : g.arena.node? n = some x) :
    g.formula? n = x.content.formula := by
  rw [formula?, Arena.content?, h]
  rfl

theorem derivative?_of_node {n : NodeId} {x : Node (Cell K D)} (h : g.arena.node? n = some x) :
    g.derivative? n = x.content.derivative := by
  rw [derivative?, Arena.content?, h]
  rfl

theorem Sheds.derivative {n : NodeId} (h : g.Sheds g') (hn : g'.arena.contains n) :
    g'.derivative? n = g.derivative? n := by
  obtain ⟨x, hx⟩ := Arena.contains_iff.mp hn
  rw [derivative?_of_node hx, derivative?_of_node (h.nodes n x hx)]

theorem Alters.derivative {n : NodeId} (h : g.Alters F T g') (hn : g.arena.contains n)
    (hn' : g'.arena.contains n) (ht : n ∉ T) : g'.derivative? n = g.derivative? n := by
  obtain ⟨x, hx⟩ := Arena.contains_iff.mp hn
  obtain ⟨y, hy⟩ := Arena.contains_iff.mp hn'
  rw [derivative?_of_node hx, derivative?_of_node hy, (h.nodes n x y hx hy).derivative ht]

theorem Whole.touches (h : g.Whole S N) (ht : g.Touches T g') (hd : g'.Dated S') :
    g'.Whole S' N where
  packed := by
    rw [← Arena.packed_mapContent (f := fun c : Cell K D => c.formula)]
    have hskeleton := ht.skeleton
    unfold skeleton at hskeleton
    rw [hskeleton]
    exact Arena.packed_mapContent.mpr h.packed
  dated := hd
  held := fun n hn => contains_of_skeleton ht.skeleton (h.held n hn)
  closed := by
    intro n a ha c hc
    rw [formula?_of_skeleton ht.skeleton] at ha
    exact contains_of_skeleton ht.skeleton (h.closed n a ha c hc)

theorem Touches.grows (h : g.Touches T g') (ha : g.Ages g') : g.Grows ∅ T g' where
  ages := ha
  stamp := h.stamp
  nodes := by
    intro n x hx
    obtain ⟨y, hy, hversion, hchildren, hformula⟩ := node?_of_skeleton h.skeleton hx
    refine ⟨y, hy, False.elim, fun _ => ⟨hversion, hchildren, hformula⟩, fun hn => ?_⟩
    rw [← derivative?_of_node hx, ← derivative?_of_node hy, h.derivatives n hn]

section Release

theorem mem_referenced {n c : NodeId} {a : Formula K} (ha : g.formula? n = some a)
    (hc : c ∈ a.expression.reads) : c ∈ g.referenced := by
  obtain ⟨x, hx, hxa⟩ := node?_of_formula ha
  refine List.mem_flatMap.mpr ⟨x.content, ?_, ?_⟩
  · refine List.mem_filterMap.mpr ⟨⟨n.generation, some x⟩, ?_, rfl⟩
    exact Array.mem_toList_iff.mpr (Array.mem_of_getElem? (Arena.node?_eq_some.mp hx))
  · rw [Cell.nodes, hxa]
    exact Formula.mem_nodes.mpr hc

theorem Whole.removeNode (h : g.Whole S N) {n : NodeId} (hn : n ∉ N) (href : n ∉ g.referenced) :
    (g.removeNode n).Whole S N where
  packed := h.packed.remove n
  dated := by
    refine h.dated.of_stamps ?_ (Nat.le_refl _)
    rintro s (⟨m, d, hd, rfl⟩ | hs)
    · obtain ⟨c, hc, hcd⟩ := Option.bind_eq_some_iff.mp hd
      obtain ⟨x, hx, rfl⟩ := Option.map_eq_some_iff.mp hc
      have hx := Arena.node?_of_remove hx
      exact .inl (.inl ⟨m, d, by rw [derivative?_of_node hx, hcd], rfl⟩)
    · exact .inl (.inr hs)
  held := by
    intro m hm
    have hne : m ≠ n := fun heq => hn (heq ▸ hm)
    rw [Graph.removeNode, Arena.contains, Arena.node?_remove, if_neg hne]
    exact h.held m hm
  closed := by
    intro m a ha c hc
    obtain ⟨x, hx, hxa⟩ := node?_of_formula ha
    have ha : g.formula? m = some a := by rw [formula?_of_node (Arena.node?_of_remove hx), hxa]
    have hne : c ≠ n := fun heq => href (heq ▸ mem_referenced ha hc)
    rw [Graph.removeNode, Arena.contains, Arena.node?_remove, if_neg hne]
    exact h.closed m a ha c hc

theorem Whole.release {held : List NodeId} (h : g.Whole S N) (hN : ∀ n ∈ N, n ∈ held)
    (pending : List NodeId) : (g.release held pending).Whole S N :=
  release_induction h (fun _ _ h hheld href => h.removeNode (fun hn => hheld (hN _ hn)) href)
    (fun _ h => ⟨h.packed, ⟨h.dated.own, h.dated.known⟩, h.held, h.closed⟩) pending

theorem sheds_release (held pending : List NodeId) (g : Graph K D) :
    g.Sheds (g.release held pending) where
  ages := (Keeps.release held pending g).ages
  inserted := release_induction (P := fun g' => g'.arena.inserted = g.arena.inserted) rfl
    (fun g' n h _ _ => (g'.arena.inserted_remove n).trans h) (fun _ h => h) pending
  assigned := release_induction (P := fun g' => g'.assigned = g.assigned) rfl
    (fun _ _ h _ _ => h) (fun _ h => h) pending
  stamp := release_induction (P := fun g' => g.nextStamp ≤ g'.nextStamp) (Nat.le_refl _)
    (fun _ _ h _ _ => h) (fun _ h => h) pending
  nodes := release_induction
    (P := fun g' => ∀ n x, g'.arena.node? n = some x → g.arena.node? n = some x)
    (fun _ _ hx => hx) (fun _ _ h _ _ m x hx => h m x (Arena.node?_of_remove hx))
    (fun _ h => h) pending

end Release

end Graph

section Rules

variable {K D α β : Type} {S : Set Nat} {F N T : Set NodeId}

/-- Whether the computation lets a whole graph grow and leaves it whole, with the nodes
`Q` of its result referred to beside those of `N`. -/
def Builds (S : Set Nat) (N F T : Set NodeId) (m : GraphM K D α) (Q : α → Set NodeId) : Prop :=
  ∀ (g : Graph K D) (x : α) (g' : Graph K D), g.Whole S N → m g = some (x, g') →
    g.Grows F T g' ∧ g'.Whole S (Q x ∪ N)

theorem Works.builds {m : GraphM K D α} {Q : α → Set Nat} (hm : Works S T m Q) (hs : Silent m) :
    Builds S N ∅ T m fun _ => ∅ := by
  intro g x g' hg h
  obtain ⟨htouches, hdated⟩ := hm g x g' hg.dated h
  refine ⟨htouches.grows (hs g x g' h).ages, ?_⟩
  exact (hg.touches htouches (hdated.mono Set.subset_union_right)).mono (subset_refl S) (by simp)

theorem builds_pure {x : α} {Q : α → Set NodeId} (hQ : Q x ⊆ N) :
    Builds S N ∅ T (pure x : GraphM K D α) Q := by
  intro g y g' hg h
  cases h
  exact ⟨.refl T g, hg.mono (subset_refl S) (Set.union_subset hQ (subset_refl N))⟩

theorem Builds.bind {m : GraphM K D α} {f : α → GraphM K D β} {Q : α → Set NodeId}
    {R : β → Set NodeId} (hm : Builds S N ∅ T m Q)
    (hf : ∀ x, Builds S (Q x ∪ N) F T (f x) R) : Builds S N F T (m >>= f) R := by
  intro g y g'' hg h
  obtain ⟨x, g', hx, hy⟩ := exists_of_bind h
  obtain ⟨hgrows, hg'⟩ := hm g x g' hg hx
  obtain ⟨hgrows', hg''⟩ := hf x g' y g'' hg' hy
  refine ⟨hgrows.trans hgrows', hg''.mono (subset_refl S) ?_⟩
  exact Set.union_subset_union_right _ Set.subset_union_right

theorem Builds.before {m : GraphM K D α} {f : α → GraphM K D β} {R : β → Set NodeId}
    (hm : Builds S N ∅ T m fun _ => ∅) (hf : ∀ x, Builds S N F T (f x) R) :
    Builds S N F T (m >>= f) R :=
  hm.bind fun x => by
    rw [Set.empty_union]
    exact hf x

theorem Builds.map {m : GraphM K D α} {Q : α → Set NodeId} {R : β → Set NodeId}
    (hm : Builds S N F T m Q) (f : α → β) (hR : ∀ x, R (f x) ⊆ Q x ∪ N) :
    Builds S N F T (do return f (← m)) R := by
  intro g y g' hg h
  obtain ⟨x, _, hx, hy⟩ := exists_of_bind h
  cases hy
  obtain ⟨hgrows, hg'⟩ := hm g x g' hg hx
  exact ⟨hgrows, hg'.mono (subset_refl S) (Set.union_subset (hR x) Set.subset_union_right)⟩

end Rules

def Formula.readSet {K : Type} (a : Formula K) : Set NodeId := {n | n ∈ a.expression.reads}

theorem Graph.Whole.uses {K D : Type} {S : Set Nat} {N : Set NodeId} {g : Graph K D}
    (h : g.Whole S N) {n : NodeId} {a : Formula K} (ha : g.formula? n = some a) :
    g.Whole S (a.readSet ∪ N) :=
  ⟨h.packed, h.dated, fun m hm => hm.elim (h.closed n a ha m) (h.held m), h.closed⟩

section Formulas

variable {K D : Type} {S : Set Nat} {N T : Set NodeId}

theorem builds_read {n : NodeId} (hn : n ∈ N) :
    Builds S N ∅ T (do return .read (← freshLabel) n : GraphM K D (Formula K)) Formula.readSet := by
  refine (works_freshLabel.builds silent_freshLabel).map (fun label => Formula.read label n) ?_
  intro label m hm
  obtain rfl := List.mem_singleton.mp hm
  exact .inr hn

theorem builds_share {a : Formula K} (ha : a.readSet ⊆ N) :
    Builds S N ∅ T (do return .share (← freshLabel) a : GraphM K D (Formula K))
      Formula.readSet := by
  refine (works_freshLabel.builds silent_freshLabel).map (fun label => Formula.share label a) ?_
  exact fun _ m hm => .inr (ha hm)

theorem builds_literal (v : Value K) :
    Builds S N ∅ T (do return .share (← freshLabel) (.literal v) : GraphM K D (Formula K))
      Formula.readSet :=
  builds_share fun _ hm => absurd hm List.not_mem_nil

theorem readSet_binary {k : BinaryKernel} {a b : Formula K} (ha : a.readSet ⊆ N)
    (hb : b.readSet ⊆ N) : (Formula.binary k a b).readSet ⊆ N :=
  fun _ hm => (List.mem_append.mp hm).elim (fun hm => ha hm) fun hm => hb hm

end Formulas

section Variables

variable {K D : Type} {S : Set Nat} {F N T : Set NodeId} {g g' : Graph K D} {n : NodeId}
  {a : Formula K}

theorem Graph.Grows.one (hages : g.Ages g') (hstamp : g.nextStamp ≤ g'.nextStamp) (hF : F ⊆ {n})
    (hother : ∀ m, m ≠ n → g'.arena.node? m = g.arena.node? m)
    (hself : ∀ x, g.arena.node? n = some x →
      ∃ y, g'.arena.node? n = some y ∧ x.Becomes (n ∈ F) (n ∈ T) y) : g.Grows F T g' where
  ages := hages
  stamp := hstamp
  nodes := by
    intro m x hx
    by_cases hm : m = n
    · subst hm
      exact hself x hx
    · exact ⟨x, by rw [hother m hm, hx], .refl (fun h => hm (hF h)) x⟩

theorem Graph.Whole.one (h : g.Whole S N) (hpacked : g'.arena.Packed)
    (hother : ∀ m, m ≠ n → g'.arena.node? m = g.arena.node? m)
    {y : Node (Cell K D)} (hy : g'.arena.node? n = some y)
    (hreads : ∀ a, y.content.formula = some a → ∀ c ∈ a.expression.reads, g.arena.contains c)
    (hderivative : stampsOf y.content.derivative ⊆ g.stamps)
    (htangents : ∀ t ∈ g'.tangents, t ∈ g.tangents) (hstamp : g.nextStamp ≤ g'.nextStamp) :
    g'.Whole S ({n} ∪ N) := by
  have hlive {m : NodeId} (hm : g.arena.contains m) : g'.arena.contains m := by
    by_cases hmn : m = n
    · exact Arena.contains_iff.mpr ⟨y, hmn ▸ hy⟩
    · rwa [Arena.contains, hother m hmn]
  refine ⟨hpacked, h.dated.of_stamps ?_ hstamp, ?_, ?_⟩
  · rintro s (⟨m, hs⟩ | ⟨t, ht, hs⟩)
    · by_cases hm : m = n
      · subst hm
        rw [derivative?_of_node hy] at hs
        exact .inl (hderivative hs)
      · rw [derivative?, Arena.content?, hother m hm] at hs
        exact .inl (.inl ⟨m, hs⟩)
    · exact .inl (.inr ⟨t, htangents t ht, hs⟩)
  · rintro m (rfl | hm)
    · exact Arena.contains_iff.mpr ⟨y, hy⟩
    · exact hlive (h.held m hm)
  · intro m b hb c hc
    by_cases hm : m = n
    · subst hm
      rw [formula?_of_node hy] at hb
      exact hlive (hreads b hb c hc)
    · rw [formula?, Arena.content?, hother m hm] at hb
      exact hlive (h.closed m b hb c hc)

theorem Graph.Whole.change (h : g.Whole S N) {x : Node (Cell K D)}
    (hx : g.arena.node? n = some x) {f : Node (Cell K D) → Node (Cell K D)}
    (harena : g'.arena = g.arena.modify n f) (hF : F ⊆ {n})
    (hbecomes : x.Becomes (n ∈ F) (n ∈ T) (f x))
    (hderivative : (f x).content.derivative = x.content.derivative)
    (hreads : ∀ a, (f x).content.formula = some a → ∀ c ∈ a.expression.reads, g.arena.contains c)
    (htangents : ∀ t ∈ g'.tangents, t ∈ g.tangents) (hstamp : g.nextStamp ≤ g'.nextStamp)
    (hages : g.Ages g') : g.Grows F T g' ∧ g'.Whole S N := by
  have hself : g'.arena.node? n = some (f x) := by
    rw [harena, Arena.node?_modify, if_pos rfl, hx, Option.map_some]
  have hother (m : NodeId) (hm : m ≠ n) : g'.arena.node? m = g.arena.node? m := by
    rw [harena, Arena.node?_modify, if_neg hm]
  constructor
  · refine .one hages hstamp hF hother fun y hy => ?_
    obtain rfl := Option.some.inj (hx.symm.trans hy)
    exact ⟨f x, hself, hbecomes⟩
  · refine (h.one (harena ▸ h.packed.modify n f) hother hself hreads ?_ htangents hstamp).mono
      (subset_refl S) Set.subset_union_right
    intro s hs
    rw [hderivative, ← derivative?_of_node hx] at hs
    exact .inl ⟨n, hs⟩

theorem Graph.Whole.assignLiteral (h : g.Whole S N) (hn : n ∈ N) {v : Value K}
    {displaced : List NodeId}
    (hrun : (Graph.assignLiteral n v : GraphM K D (List NodeId)) g = some (displaced, g')) :
    g.Grows {m | m = n ∧ (g.formula? n).isSome} T g' ∧ g'.Whole S N := by
  have hages := (silent_assignLiteral n v g displaced g' hrun).ages
  obtain ⟨x, hx⟩ := Arena.contains_iff.mp (h.held n hn)
  have hrun := Option.some.inj ((assignLiteral_run n v g).symm.trans hrun)
  cases hcomputed : g.formula? n with
  | none =>
    simp only [hcomputed] at hrun
    cases hrun
    refine h.change hx rfl (fun m hm => hm.1) ⟨fun hr => ?_, fun _ => ⟨rfl, rfl, ?_⟩, fun _ => rfl⟩
      rfl (fun a ha => ?_) (fun _ ht => ht) (Nat.le_refl _) hages
    · cases hr.2
    · exact hcomputed.symm.trans (formula?_of_node hx)
    · cases ha
  | some a =>
    simp only [hcomputed] at hrun
    cases hrun
    refine h.change hx (Arena.modify_modify ..) (fun m hm => hm.1)
      ⟨fun _ => version_ne_succ x.version, fun hr => ?_, fun _ => rfl⟩ rfl (fun a ha => ?_)
      (fun _ ht => ht) (Nat.le_refl _) hages
    · exact absurd ⟨rfl, rfl⟩ hr
    · cases ha

theorem builds_newVariable (v : Value K) :
    Builds S N ∅ T (newVariable v : GraphM K D NodeId) fun n => {n} := by
  intro g n g' hg h
  have hrun : (newVariable v : GraphM K D NodeId) g = some ((g.arena.insert { value := v }).1,
      { g with arena := (g.arena.insert { value := v }).2 }) := rfl
  rw [hrun] at h
  cases h
  have hnew := hg.packed.node?_insert ({ value := v } : Cell K D)
  have hother (m : NodeId) (hm : m ≠ (g.arena.insert { value := v }).1) :
      (g.arena.insert { value := v }).2.node? m = g.arena.node? m := by rw [hnew, if_neg hm]
  constructor
  · refine .one (Keeps.newVariable g v).ages (Nat.le_refl _) (Set.empty_subset _) hother
      fun x hx => ?_
    rw [hg.packed.fresh] at hx
    cases hx
  · refine hg.one (hg.packed.insert _) hother ((hnew _).trans (if_pos rfl)) (fun a ha => ?_) ?_
      (fun _ ht => ht) (Nat.le_refl _)
    · cases ha
    · rw [stampsOf_none]
      exact Set.empty_subset _

variable [Zero K] [Add K] [Mul K] [MulAdd K] [Capacity K] [NatCast K] [Calculus K]

theorem builds_evaluate (e : Expression K) :
    Builds S N ∅ T (e.evaluate : GraphM K D (Value K)) fun _ => ∅ :=
  (works_evaluate e).builds (silent_evaluate e)

theorem builds_assignFormula (hn : n ∈ N) (ha : a.readSet ⊆ N) :
    Builds S N {n} T (Graph.assignFormula n a : GraphM K D (List NodeId)) fun _ => ∅ := by
  refine (builds_evaluate a.expression).before fun v => ?_
  intro g displaced g' hg h
  obtain ⟨_, _, hcount, h⟩ := exists_of_bind h
  cases hcount
  obtain ⟨displaced, hrun⟩ := attach_run n a v g.countAssignment
  rw [hrun] at h
  cases h
  obtain ⟨x, hx⟩ := Arena.contains_iff.mp (hg.held n hn)
  let changed : Graph K D :=
    { g.countAssignment.forget a with arena := g.arena.modify n (Node.attach a v) }
  have hbecomes : g.Grows {n} T changed ∧ changed.Whole S N :=
    hg.change hx rfl (subset_refl _) (Node.becomes_attach a v rfl x) rfl
      (fun b hb c hc => hg.held c (ha (by cases hb; exact hc)))
      (fun _ ht => (List.mem_filter.mp ht).1) (Nat.le_refl _) (ages_attach n a v)
  obtain ⟨hgrows, hwhole⟩ := hbecomes
  exact ⟨hgrows, hwhole.mono (subset_refl S) (Set.empty_union N).subset⟩

theorem builds_newComputed (ha : a.readSet ⊆ N) :
    Builds S N ∅ T (newComputed a : GraphM K D NodeId) fun n => {n} := by
  intro g n g' hg h
  obtain ⟨v, g₁, hv, -⟩ := exists_of_bind h
  obtain ⟨hgrows, hg₁⟩ := builds_evaluate a.expression g v g₁ hg hv
  have hg₁ : g₁.Whole S N := hg₁.mono (subset_refl S) Set.subset_union_right
  rw [newComputed_run hv] at h
  cases h
  have hnew := hg₁.packed.node?_insert ({ value := v } : Cell K D)
  have hself : ((g₁.arena.insert { value := v }).2.modify (g₁.arena.insert { value := v }).1
      (Node.attach a v)).node? (g₁.arena.insert { value := v }).1 =
      some (Node.attach a v { content := { value := v } }) := by
    rw [Arena.node?_modify, if_pos rfl, hnew, if_pos rfl, Option.map_some]
  have hother (m : NodeId) (hm : m ≠ (g₁.arena.insert { value := v }).1) :
      ((g₁.arena.insert { value := v }).2.modify (g₁.arena.insert { value := v }).1
        (Node.attach a v)).node? m = g₁.arena.node? m := by
    rw [Arena.node?_modify, if_neg hm, hnew, if_neg hm]
  constructor
  · refine hgrows.trans (.one (ages_insert _ _ a) (Nat.le_refl _) (Set.empty_subset _) hother
      fun x hx => ?_)
    rw [hg₁.packed.fresh] at hx
    cases hx
  · refine hg₁.one ((hg₁.packed.insert _).modify _ _) hother hself (fun b hb => ?_) ?_
      (fun _ ht => (List.mem_filter.mp ht).1) (Nat.le_refl _)
    · cases hb
      exact fun c hc => hg₁.held c (ha hc)
    · rw [Node.attach, stampsOf_none]
      exact Set.empty_subset _

end Variables

end GradientGraph
