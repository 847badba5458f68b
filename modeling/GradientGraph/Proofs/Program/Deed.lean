import GradientGraph.Proofs.Graph.Growth
import GradientGraph.Proofs.Program.Seed

/-!
# Deeds

What a step does beside making nodes, reading and dropping handles is one deed: it gives
one variable a literal, a formula or a derivative, touches derivatives, or does something
with one program. A scene is what every step has before it, whoever asks for it.
-/

set_option autoImplicit false

namespace GradientGraph

open GradientGraph.Graph

/-- By what a program is known: its number, or the name that it is stored under. -/
inductive ProgramKey where
  | number (id : Nat)
  | name (f : String)
deriving DecidableEq

inductive Deed (D : Type) where
  | nothing
  | assignLiteral (n : NodeId)
  | assignFormula (n : NodeId)
  | giveDerivative (n : NodeId) (d : D)
  | touchDerivatives
  | compile (f : ProgramKey)
  | pass (f : ProgramKey) (x : Pass)
  /-- Another program takes the place of this one, or none does. -/
  | replace (f : ProgramKey)

structure Scene (K D : Type) where
  graph : Graph K D
  program? : ProgramKey → Option (Program D)

namespace Deed

variable {K D : Type}

/-- The nodes whose edges are rebuilt. A literal variable has none to rebuild. -/
def rebuilt (g : Graph K D) : Deed D → Set NodeId
  | .assignLiteral n => {m | m = n ∧ (g.formula? n).isSome}
  | .assignFormula n => {n}
  | _ => ∅

/-- The nodes whose derivatives may be touched. What is refused touches none. -/
def touched (done : Bool) : Deed D → Set NodeId
  | .giveDerivative n _ => {n}
  | .touchDerivatives => Set.univ
  | .pass _ x => if done then x.touched else ∅
  | _ => ∅

def program? : Deed D → Option ProgramKey
  | .compile f | .pass f _ | .replace f => some f
  | _ => none

/-- Whether the deed touches derivatives at most, and gives none. -/
def Mild : Deed D → Prop
  | .nothing | .touchDerivatives => True
  | _ => False

end Deed

namespace Scene

variable {K D : Type}

def stamps (v : Scene K D) : Set Nat :=
  {i | ∃ f p, v.program? f = some p ∧ i ∈ seedStamps p.seeds}

def Whole (N : Set NodeId) (v : Scene K D) : Prop := v.graph.Whole v.stamps N

variable {N N' : Set NodeId} {v w : Scene K D}

theorem Whole.mono (h : v.Whole N) (hN : N' ⊆ N) : v.Whole N' :=
  Graph.Whole.mono h (subset_refl _) hN

theorem stamps_subset (h : ∀ f p, w.program? f = some p → v.program? f = some p ∨ p.seeds = []) :
    w.stamps ⊆ v.stamps := by
  rintro i ⟨f, p, hp, hi⟩
  rcases h f p hp with hp | hnone
  · exact ⟨f, p, hp, hi⟩
  · obtain ⟨s, hs, -⟩ := hi
    rw [hnone] at hs
    cases hs

theorem stamps_update {f : ProgramKey} {q : Program D} {g : Graph K D} :
    Scene.stamps ⟨g, Function.update v.program? f (some q)⟩ ⊆ seedStamps q.seeds ∪ v.stamps := by
  rintro i ⟨k, p, hp, hi⟩
  by_cases hk : k = f
  · subst hk
    obtain rfl : q = p := by simpa using hp
    exact .inl hi
  · exact .inr ⟨k, p, by simpa [Function.update_of_ne hk] using hp, hi⟩

theorem update_other {f k : ProgramKey} {p : Program D} {o : Option (Program D)}
    (hk : some f ≠ some k) (hp : v.program? k = some p) :
    Function.update v.program? f o k = some p :=
  (Function.update_of_ne (fun heq => hk (congrArg some heq.symm)) o v.program?).trans hp

theorem seedStamps_subset {f : ProgramKey} {p : Program D} (h : v.program? f = some p) :
    seedStamps p.seeds ⊆ v.stamps := fun _ hi => ⟨f, p, h, hi⟩

theorem Whole.compile {f : ProgramKey} {p : Program D} (h : v.Whole N)
    (hp : v.program? f = some p) :
    Scene.Whole N ⟨v.graph, Function.update v.program? f (some (p.compile v.graph).1)⟩ := by
  refine Graph.Whole.mono h (stamps_update.trans ?_) (subset_refl N)
  rw [(p.compile_seeds v.graph).1]
  exact Set.union_subset (seedStamps_subset hp) (subset_refl _)

end Scene

section Deeds

variable {K D : Type} [Zero K] [One K] [Add K] [Mul K] [MulAdd K] [Capacity K] [NatCast K]
  [Calculus K] [Differential K D]

/-- What a deed makes of a scene, whether or not it is refused. -/
structure Deed.Does (deed : Deed D) (done : Bool) (v w : Scene K D) : Prop where
  grows : v.graph.Grows (deed.rebuilt v.graph) (deed.touched done) w.graph
  gives : ∀ n d, deed = .giveDerivative n d →
    w.graph.derivative? n = some ⟨v.graph.nextStamp, d⟩
  others : ∀ f p, deed.program? ≠ some f → v.program? f = some p → w.program? f = some p
  compiles : ∀ f p, deed = .compile f → v.program? f = some p →
    w.program? f = some (p.compile v.graph).1 ∧ w.graph = v.graph ∧
      done = (p.compile v.graph).2.isOk
  passes : ∀ f x p, deed = .pass f x → v.program? f = some p →
    ∃ q r, x.run p v.graph = some ((q, r), w.graph) ∧ w.program? f = some q ∧ done = r.isOk

/-- Whether a step leads from one scene to another: it does its deed, and then gives up
references. -/
def Scene.Leads (v : Scene K D) (deed : Deed D) (done : Bool) (w : Scene K D) : Prop :=
  ∃ g, deed.Does done v ⟨g, w.program?⟩ ∧ g.Sheds w.graph

variable {N : Set NodeId} {deed : Deed D} {done : Bool} {v w : Scene K D} {f : ProgramKey}
  {p q : Program D} {g g' : Graph K D}

theorem Deed.does_graph (hdeed : deed.program? = none)
    (hgrows : v.graph.Grows (deed.rebuilt v.graph) (deed.touched done) w.graph)
    (hgives : ∀ n d, deed = .giveDerivative n d →
      w.graph.derivative? n = some ⟨v.graph.nextStamp, d⟩)
    (hprograms : ∀ f p, v.program? f = some p → w.program? f = some p) : deed.Does done v w where
  grows := hgrows
  gives := hgives
  others := fun f p _ => hprograms f p
  compiles := by
    rintro f p rfl
    cases hdeed
  passes := by
    rintro f x p rfl
    cases hdeed

theorem Deed.Mild.does (hdeed : deed.Mild)
    (hgrows : v.graph.Grows ∅ (deed.touched done) w.graph)
    (hprograms : ∀ f p, v.program? f = some p → w.program? f = some p) :
    deed.Does done v w := by
  cases deed with
  | nothing => exact does_graph rfl hgrows (fun _ _ h => by cases h) hprograms
  | touchDerivatives => exact does_graph rfl hgrows (fun _ _ h => by cases h) hprograms
  | _ => cases hdeed

theorem Deed.does_replace (hgraph : w.graph = v.graph)
    (hprograms : ∀ k, k ≠ f → w.program? k = v.program? k) :
    (Deed.replace f : Deed D).Does done v w where
  grows := by
    rw [hgraph]
    exact .refl _ _
  gives := fun _ _ h => by cases h
  others := fun k p hk hp => (hprograms k fun heq => hk (congrArg some heq.symm)).trans hp
  compiles := fun _ _ h => by cases h
  passes := fun _ _ _ h => by cases h

theorem Deed.does_compile (hp : v.program? f = some p) :
    (Deed.compile f).Does (p.compile v.graph).2.isOk v
      ⟨v.graph, Function.update v.program? f (some (p.compile v.graph).1)⟩ where
  grows := .refl _ _
  gives := fun _ _ h => by cases h
  others := fun _ _ hk hr => Scene.update_other hk hr
  compiles := by
    intro k r hk hr
    cases hk
    obtain rfl : p = r := Option.some.inj (hp.symm.trans hr)
    exact ⟨Function.update_self .., rfl, rfl⟩
  passes := fun _ _ _ h => by cases h

/-- A pass leaves a whole graph whole. It touches derivatives only if it is not refused. -/
theorem Pass.run_whole {S : Set Nat} {x : Pass} {r : Except Error Unit} (hg : g.Whole S N)
    (hp : seedStamps p.seeds ⊆ S) (h : x.run p g = some ((q, r), g')) :
    g.Grows ∅ (if r.isOk then x.touched else ∅) g' ∧ g'.Whole (seedStamps q.seeds ∪ S) N := by
  have hready := p.ready_seeds g
  rcases Program.run_cases h with ⟨⟨e, rfl⟩, rfl, rfl⟩ | ⟨p', plan, rfl, hp', -, -, hbody⟩
  · refine ⟨.refl _ _, hg.mono ?_ (subset_refl N)⟩
    rw [hready.1]
    exact Set.union_subset hp (subset_refl S)
  · have hseeds : seedStamps p'.seeds ⊆ S := by
      rw [hp'] at hready
      rwa [hready.1]
    obtain ⟨htouches, hdated⟩ := x.works_body hseeds plan g q g' hg.dated hbody
    exact ⟨htouches.grows (x.silent_body p' plan g q g' hbody).ages, hg.touches htouches hdated⟩

theorem Deed.does_pass {x : Pass} {r : Except Error Unit} (hv : v.Whole N)
    (hp : v.program? f = some p) (h : x.run p v.graph = some ((q, r), g)) :
    (Deed.pass f x).Does r.isOk v ⟨g, Function.update v.program? f (some q)⟩ where
  grows := (x.run_whole hv (Scene.seedStamps_subset hp) h).1
  gives := fun _ _ h => by cases h
  others := fun _ _ hk hs => Scene.update_other hk hs
  compiles := fun _ _ h => by cases h
  passes := by
    intro k y s hk hs
    cases hk
    obtain rfl : p = s := Option.some.inj (hp.symm.trans hs)
    exact ⟨q, r, h, Function.update_self .., rfl⟩

theorem Scene.Whole.pass {x : Pass} {r : Except Error Unit} (hv : v.Whole N)
    (hp : v.program? f = some p) (h : x.run p v.graph = some ((q, r), g)) :
    Scene.Whole N ⟨g, Function.update v.program? f (some q)⟩ :=
  (x.run_whole hv (Scene.seedStamps_subset hp) h).2.mono Scene.stamps_update (subset_refl N)

namespace Scene

theorem Leads.of_does (h : deed.Does done v w) : v.Leads deed done w := ⟨w.graph, h, .refl _⟩

theorem Leads.sheds (h : v.Leads deed done w) (hg : w.graph.Sheds g) :
    v.Leads deed done ⟨g, w.program?⟩ := by
  obtain ⟨g₁, hdoes, hg₁⟩ := h
  exact ⟨g₁, hdoes, hg₁.trans hg⟩

theorem Leads.alters (h : v.Leads deed done w) :
    v.graph.Alters (deed.rebuilt v.graph) (deed.touched done) w.graph := by
  obtain ⟨g₁, hdoes, hg₁⟩ := h
  exact hdoes.grows.alters.sheds hg₁

theorem Leads.others (h : v.Leads deed done w) (hf : deed.program? ≠ some f)
    (hp : v.program? f = some p) : w.program? f = some p := by
  obtain ⟨g₁, hdoes, -⟩ := h
  exact hdoes.others f p hf hp

theorem Leads.compiles (h : v.Leads (.compile f) done w) (hp : v.program? f = some p) :
    w.program? f = some (p.compile v.graph).1 ∧ v.graph.Sheds w.graph ∧
      done = (p.compile v.graph).2.isOk := by
  obtain ⟨g₁, hdoes, hg₁⟩ := h
  obtain ⟨hq, hsame, hdone⟩ := hdoes.compiles f p rfl hp
  obtain rfl : g₁ = v.graph := hsame
  exact ⟨hq, hg₁, hdone⟩

theorem Leads.passes {x : Pass} (h : v.Leads (.pass f x) done w) (hp : v.program? f = some p) :
    ∃ q r g, x.run p v.graph = some ((q, r), g) ∧ g.Sheds w.graph ∧
      w.program? f = some q ∧ done = r.isOk := by
  obtain ⟨g₁, hdoes, hg₁⟩ := h
  obtain ⟨q, r, hrun, hq, hdone⟩ := hdoes.passes f x p rfl hp
  exact ⟨q, r, g₁, hrun, hg₁, hq, hdone⟩

theorem Leads.gives {n : NodeId} {d : D} (h : v.Leads (.giveDerivative n d) done w)
    (hn : w.graph.arena.contains n) :
    w.graph.derivative? n = some ⟨v.graph.nextStamp, d⟩ := by
  obtain ⟨g₁, hdoes, hg₁⟩ := h
  rw [hg₁.derivative hn, hdoes.gives n d rfl]

end Scene

end Deeds

end GradientGraph
