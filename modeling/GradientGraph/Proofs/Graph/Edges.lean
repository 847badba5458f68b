import GradientGraph.Proofs.Graph.Growth

/-!
# How edges come about

Edges come and go with formulas. A node comes into being without a formula or with its
first one, and its edges are rebuilt when it gets another or gives up the one it has.
Everything else leaves the edges of all nodes alone.
-/

set_option autoImplicit false

namespace GradientGraph

open GradientGraph.Graph

theorem eraseDups_filter {α : Type} [BEq α] [LawfulBEq α] (p : α → Bool) (l : List α) :
    (l.filter p).eraseDups = l.eraseDups.filter p := by
  -- the tail that is left to do is filtered, so the induction is on the length
  induction h : l.length using Nat.strong_induction_on generalizing l with
  | _ k ih =>
    cases l with
    | nil => rfl
    | cons a l =>
      have hshort : (l.filter fun b => !b == a).length < k := by
        have hle := List.length_filter_le (fun b => !b == a) l
        rw [List.length_cons] at h
        omega
      have hrest := ih _ hshort (l.filter fun b => !b == a) rfl
      rw [List.eraseDups_cons]
      by_cases ha : p a = true
      · rw [List.filter_cons_of_pos ha, List.filter_cons_of_pos ha, List.eraseDups_cons, ← hrest,
          List.filter_filter, List.filter_filter]
        simp only [Bool.and_comm]
      · rw [List.filter_cons_of_neg ha, List.filter_cons_of_neg ha, ← hrest, List.filter_filter]
        refine congrArg List.eraseDups (List.filter_congr fun b _ => ?_)
        by_cases hb : b = a
        · simpa [hb] using ha
        · simp [hb]

theorem Expression.firsts_eq {K : Type} (e : Expression K) :
    e.footprint.firsts = e.reads.eraseDups := by
  induction e with
  | literal => rfl
  | read => rfl
  | unary _ _ ih => exact ih
  | binary k l r ihl ihr =>
    have hjoin : (binary k l r).footprint.firsts =
        l.footprint.firsts ++ r.footprint.firsts.filter (· ∉ l.footprint.firsts) := rfl
    rw [hjoin, ihl, ihr, reads, List.eraseDups_append, List.removeAll, eraseDups_filter]
    refine congrArg _ (List.filter_congr fun n _ => ?_)
    simp
  | shared _ _ ih => exact ih

theorem Formula.children_eq {K : Type} (a : Formula K) :
    a.children = a.expression.reads.eraseDups := by
  rw [children, a.footprint_eq, a.expression.firsts_eq]

section Nodes

variable {K D : Type}

def Node.Linked (x : Node (Cell K D)) : Prop :=
  x.children = (x.content.formula.map (·.children)).getD []

/-- What a node can come from: from none, or from the node that was there, its edges
rebuilt or left alone. -/
inductive Node.Stems (rebuilt : Prop) : Option (Node (Cell K D)) → Node (Cell K D) → Prop where
  | born {y : Node (Cell K D)} (version : y.version = if y.content.formula.isSome then 1 else 0)
    (linked : y.Linked) : Stems rebuilt none y
  | kept {x y : Node (Cell K D)} (h : ¬rebuilt) (version : y.version = x.version)
    (children : y.children = x.children) (formula : y.content.formula = x.content.formula) :
    Stems rebuilt (some x) y
  | renewed {x y : Node (Cell K D)} (h : rebuilt) (version : y.version = x.version + 1)
    (linked : y.Linked) : Stems rebuilt (some x) y

variable {rebuilt : Prop} {o : Option (Node (Cell K D))} {x y z : Node (Cell K D)}

theorem Node.Stems.trans (h : y.Stems False o) (h' : z.Stems False (some y)) :
    z.Stems False o := by
  cases h' with
  | renewed hr => exact hr.elim
  | kept _ hversion hchildren hformula =>
    cases h with
    | renewed hr => exact hr.elim
    | born hv hlinked =>
      refine .born (by rw [hversion, hformula, hv]) ?_
      rw [Linked, hchildren, hformula, hlinked]
    | kept hr hv hc hf =>
      exact .kept hr (hversion.trans hv) (hchildren.trans hc) (hformula.trans hf)

theorem Node.stems_attach (a : Formula K) (v : Value K) (h : rebuilt) (x : Node (Cell K D)) :
    (Node.attach a v x).Stems rebuilt (some x) := .renewed h rfl rfl

end Nodes

namespace Graph

variable {K D : Type}

structure Bears (F : Set NodeId) (g g' : Graph K D) : Prop where
  packed : g'.arena.Packed
  lives : ∀ n, g.arena.contains n → g'.arena.contains n
  node : ∀ n y, g'.arena.node? n = some y → y.Stems (n ∈ F) (g.arena.node? n)

variable {F : Set NodeId} {g g' g'' : Graph K D}

theorem Bears.refl (hg : g.arena.Packed) : g.Bears ∅ g where
  packed := hg
  lives := fun _ h => h
  node := by
    intro n y hy
    rw [hy]
    exact .kept id rfl rfl rfl

theorem Bears.trans (h : g.Bears ∅ g') (h' : g'.Bears ∅ g'') : g.Bears ∅ g'' where
  packed := h'.packed
  lives := fun n hn => h'.lives n (h.lives n hn)
  node := by
    intro n z hz
    have hstems := h'.node n z hz
    cases hy : g'.arena.node? n with
    | some y =>
      rw [hy] at hstems
      exact (h.node n y hy).trans hstems
    | none =>
      have hnone : g.arena.node? n = none := by
        rw [Option.eq_none_iff_forall_ne_some]
        intro x hx
        obtain ⟨y, hy'⟩ := Arena.contains_iff.mp (h.lives n (Arena.contains_iff.mpr ⟨x, hx⟩))
        cases hy.symm.trans hy'
      rw [hy] at hstems
      rwa [hnone]

theorem Bears.after (h : g'.skeleton = g.skeleton) (h' : g'.Bears F g'') : g.Bears F g'' where
  packed := h'.packed
  lives := fun n hn => h'.lives n (contains_of_skeleton h hn)
  node := by
    intro n z hz
    have hstems := h'.node n z hz
    cases hx : g.arena.node? n with
    | some x =>
      obtain ⟨y, hy, hversion, hchildren, hformula⟩ := node?_of_skeleton h hx
      rw [hy] at hstems
      cases hstems with
      | kept hr hv hc hf =>
        exact .kept hr (hv.trans hversion) (hc.trans hchildren) (hf.trans hformula)
      | renewed hr hv hlinked => exact .renewed hr (by rw [hv, hversion]) hlinked
    | none =>
      have hnone : g'.arena.node? n = none := by
        rw [Option.eq_none_iff_forall_ne_some]
        intro y hy
        obtain ⟨x, hx', -⟩ := node?_of_skeleton h.symm hy
        cases hx.symm.trans hx'
      rwa [hnone] at hstems

theorem packed_of_skeleton (h : g'.skeleton = g.skeleton) (hg : g.arena.Packed) :
    g'.arena.Packed := by
  have hpacked : g'.skeleton.Packed := by
    rw [h]
    exact Arena.packed_mapContent.mpr hg
  exact Arena.packed_mapContent.mp hpacked

theorem Touches.bears {T : Set NodeId} (h : g.Touches T g') (hg : g.arena.Packed) :
    g.Bears ∅ g' :=
  .after h.skeleton (.refl (packed_of_skeleton h.skeleton hg))

theorem Bears.modify (hg : g.arena.Packed) {n : NodeId} {f : Node (Cell K D) → Node (Cell K D)}
    (harena : g'.arena = g.arena.modify n f) (hF : F ⊆ {n})
    (hf : ∀ x, g.arena.node? n = some x → (f x).Stems (n ∈ F) (some x)) : g.Bears F g' where
  packed := harena ▸ hg.modify n f
  lives := by
    intro m hm
    obtain ⟨x, hx⟩ := Arena.contains_iff.mp hm
    rw [Arena.contains, harena, Arena.node?_modify]
    split
    · rw [hx]
      rfl
    · exact hm
  node := by
    intro m y hy
    rw [harena, Arena.node?_modify] at hy
    split at hy
    · rename_i hmn
      subst hmn
      obtain ⟨x, hx, rfl⟩ := Option.map_eq_some_iff.mp hy
      rw [hx]
      exact hf x hx
    · rename_i hmn
      rw [hy]
      exact .kept (fun hm => hmn (hF hm)) rfl rfl rfl

theorem Bears.insert (hg : g.arena.Packed) {c : Cell K D}
    {f : Node (Cell K D) → Node (Cell K D)}
    (harena : g'.arena = (g.arena.insert c).2.modify (g.arena.insert c).1 f)
    (hf : (f { content := c }).Stems False none) : g.Bears ∅ g' := by
  have hnode (m : NodeId) : g'.arena.node? m =
      if m = (g.arena.insert c).1 then some (f { content := c }) else g.arena.node? m := by
    rw [harena, Arena.node?_modify, hg.node?_insert]
    split <;> rfl
  refine ⟨harena ▸ (hg.insert c).modify _ f, fun m hm => ?_, fun m y hy => ?_⟩
  · rw [Arena.contains, hnode]
    split
    · rfl
    · exact hm
  · rw [hnode] at hy
    split at hy
    · rename_i hm
      cases hy
      rw [hm, hg.fresh]
      exact hf
    · rw [hy]
      exact .kept id rfl rfl rfl

theorem bears_assignLiteral (hg : g.arena.Packed) {n : NodeId} {v : Value K}
    {displaced : List NodeId}
    (h : (assignLiteral n v : GraphM K D (List NodeId)) g = some (displaced, g')) :
    g.Bears {m | m = n ∧ (g.formula? n).isSome} g' := by
  have h := Option.some.inj ((assignLiteral_run n v g).symm.trans h)
  cases hcomputed : g.formula? n with
  | none =>
    simp only [hcomputed] at h
    cases h
    refine .modify hg rfl (fun m hm => hm.1) fun x hx => .kept (fun hr => ?_) rfl rfl ?_
    · cases hr.2
    · exact hcomputed.symm.trans (formula?_of_node hx)
  | some a =>
    simp only [hcomputed] at h
    cases h
    exact .modify hg (Arena.modify_modify ..) (fun m hm => hm.1)
      fun x _ => .renewed ⟨rfl, rfl⟩ rfl rfl

theorem bears_newVariable (hg : g.arena.Packed) {n : NodeId} {v : Value K}
    (h : (newVariable v : GraphM K D NodeId) g = some (n, g')) : g.Bears ∅ g' := by
  cases h
  exact .insert hg (c := { value := v }) (Arena.modify_id fun _ => rfl).symm (.born rfl rfl)

end Graph

section Rules

variable {K D α β : Type} {S : Set Nat} {F T : Set NodeId}

/-- Whether the computation lets nodes come into being and rebuilds the edges of those in
`F`, as long as the stamps in `S` were given out. -/
def Renews (S : Set Nat) (F : Set NodeId) (m : GraphM K D α) : Prop :=
  ∀ (g : Graph K D) (x : α) (g' : Graph K D), g.arena.Packed → g.Dated S → m g = some (x, g') →
    g.Bears F g'

theorem Works.renews {m : GraphM K D α} {Q : α → Set Nat} (hm : Works S T m Q) :
    Renews S ∅ m := by
  intro g x g' hg hdated h
  exact (hm g x g' hdated h).1.bears hg

theorem Works.renews_bind {m : GraphM K D α} {f : α → GraphM K D β} {Q : α → Set Nat}
    (hm : Works S T m Q) (hf : ∀ x, Renews (Q x ∪ S) F (f x)) : Renews S F (m >>= f) := by
  intro g y g'' hg hdated h
  obtain ⟨x, g', hx, hy⟩ := exists_of_bind h
  obtain ⟨htouches, hdated'⟩ := hm g x g' hdated hx
  have hpacked := packed_of_skeleton htouches.skeleton hg
  exact .after htouches.skeleton (hf x g' y g'' hpacked hdated' hy)

theorem Renews.map {m : GraphM K D α} (hm : Renews S F m) (f : α → β) :
    Renews S F (do return f (← m)) := by
  intro g y g' hg hdated h
  obtain ⟨x, _, hx, hy⟩ := exists_of_bind h
  cases hy
  exact hm g x g' hg hdated hx

theorem renews_newVariable (v : Value K) : Renews S ∅ (newVariable v : GraphM K D NodeId) :=
  fun _ _ _ hg _ h => bears_newVariable hg h

variable [Zero K] [Add K] [Mul K] [MulAdd K] [Capacity K] [NatCast K] [Calculus K]

theorem renews_assignFormula (n : NodeId) (a : Formula K) :
    Renews S {n} (assignFormula n a : GraphM K D (List NodeId)) := by
  refine (works_evaluate (T := ∅) a.expression).renews_bind fun v => ?_
  intro g displaced g' hg _ h
  obtain ⟨_, _, hcount, h⟩ := exists_of_bind h
  cases hcount
  obtain ⟨displaced, hrun⟩ := attach_run n a v g.countAssignment
  rw [hrun] at h
  cases h
  exact .modify hg rfl (subset_refl _) fun x _ => Node.stems_attach a v rfl x

theorem renews_newComputed (a : Formula K) :
    Renews S ∅ (newComputed a : GraphM K D NodeId) := by
  intro g n g' hg hdated h
  obtain ⟨v, g₁, hv, -⟩ := exists_of_bind h
  obtain ⟨htouches, -⟩ := works_evaluate (T := ∅) a.expression g v g₁ hdated hv
  rw [newComputed_run hv] at h
  cases h
  have hpacked := packed_of_skeleton htouches.skeleton hg
  exact .after htouches.skeleton (.insert hpacked rfl (.born rfl rfl))

end Rules

end GradientGraph
