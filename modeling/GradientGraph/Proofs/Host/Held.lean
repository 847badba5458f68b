import GradientGraph.Host.Overload
import GradientGraph.Host.Table
import GradientGraph.Session.Run
import Mathlib.Data.Set.Basic

/-!
# What objects hold

A pending operation holds its formula, a handle on a variable its node, and a tuple what
its items hold. Looking objects up and converting them to arguments brings up no instance
that they do not have in them, and so no formula and no node that they do not hold.
-/

set_option autoImplicit false

namespace GradientGraph

theorem mem_of_mapM {α β : Type} {f : α → Option β} {xs : List α} {ys : List β}
    (h : xs.mapM f = some ys) {y : β} (hy : y ∈ ys) : ∃ x ∈ xs, f x = some y := by
  induction xs generalizing ys with
  | nil =>
    rw [List.mapM_nil] at h
    cases h
    cases hy
  | cons x xs ih =>
    rw [List.mapM_cons] at h
    obtain ⟨z, hz, h⟩ := Option.bind_eq_some_iff.mp h
    obtain ⟨zs, hzs, h⟩ := Option.bind_eq_some_iff.mp h
    cases h
    obtain rfl | hy := List.mem_cons.mp hy
    · exact ⟨x, List.mem_cons_self .., hz⟩
    · obtain ⟨w, hw, hwy⟩ := ih hzs hy
      exact ⟨w, List.mem_cons_of_mem _ hw, hwy⟩

theorem exists_of_except_bind {ε α β : Type} {x : Except ε α} {f : α → Except ε β} {y : β}
    (h : (x >>= f) = .ok y) : ∃ a, x = .ok a ∧ f a = .ok y := by
  cases x with
  | error e => cases h
  | ok a => exact ⟨a, rfl, h⟩

namespace Table

variable {α : Type}

theorem mem_alter {name : String} {f : Option α → α} {t : Table α} {e : String × α}
    (h : e ∈ alter name f t) : (∃ x, e.2 = f x) ∨ e ∈ t := by
  induction t with
  | nil =>
    obtain rfl := List.mem_singleton.mp h
    exact .inl ⟨none, rfl⟩
  | cons d t ih =>
    unfold alter at h
    split at h
    · obtain rfl | h := List.mem_cons.mp h
      · exact .inl ⟨some d.2, rfl⟩
      · exact .inr (List.mem_cons_of_mem _ h)
    · obtain rfl | h := List.mem_cons.mp h
      · exact .inr (List.mem_cons_self ..)
      · exact (ih h).imp_right (List.mem_cons_of_mem _)

theorem mem_put {name : String} {x : α} {t : Table α} {e : String × α} (h : e ∈ t.put name x) :
    e.2 = x ∨ e ∈ t :=
  (mem_alter h).imp_left fun ⟨_, he⟩ => he

theorem mem_erase {name : String} {t : Table α} {e : String × α} (h : e ∈ t.erase name) : e ∈ t :=
  (List.mem_filter.mp h).1

theorem find?_erase (t : Table α) (name k : String) :
    (t.erase name).find? k = if k = name then none else t.find? k := by
  induction t with
  | nil => simp [erase, find?]
  | cons e t ih =>
    obtain ⟨j, x⟩ := e
    by_cases hj : j = name
    · have hskip : erase ((j, x) :: t) name = erase t name := by simp [erase, hj]
      rw [hskip, ih, find?_cons, hj]
      split <;> rfl
    · have hkeep : erase ((j, x) :: t) name = (j, x) :: erase t name := by simp [erase, hj]
      rw [hkeep, find?_cons, find?_cons, ih]
      split
      · rename_i hk
        rw [hk, if_neg hj]
      · rfl

theorem mem_alter_self {name : String} {f : Option α → α} (t : Table α) :
    (name, f (t.find? name)) ∈ alter name f t := by
  induction t with
  | nil => exact List.mem_singleton.mpr rfl
  | cons d t ih =>
    rw [find?_cons, alter]
    split
    · rename_i hname
      exact hname ▸ List.mem_cons_self ..
    · exact List.mem_cons_of_mem _ ih

theorem mem_alter_of_mem (name : String) (f : Option α → α) {t : Table α} {e : String × α}
    (h : e ∈ t) : e ∈ alter name f t ∨ t.find? name = some e.2 := by
  induction t with
  | nil => cases h
  | cons d t ih =>
    rw [find?_cons, alter]
    rcases List.mem_cons.mp h with rfl | h
    · split
      · exact .inr rfl
      · exact .inl (List.mem_cons_self ..)
    · split
      · exact .inl (List.mem_cons_of_mem _ h)
      · exact (ih h).imp_left (List.mem_cons_of_mem _)

theorem names_alter {name : String} {f : Option α → α} (t : Table α) :
    (alter name f t).names = if name ∈ t.names then t.names else t.names ++ [name] := by
  induction t with
  | nil => rfl
  | cons d t ih =>
    unfold alter
    split
    · rename_i hname
      simp [names, hname]
    · rename_i hname
      have hcons : names (d :: alter name f t) = d.1 :: names (alter name f t) := rfl
      rw [hcons, ih]
      by_cases hmem : name ∈ names t
      · have hold : name ∈ names (d :: t) := List.mem_cons_of_mem _ hmem
        rw [if_pos hmem, if_pos hold]
        rfl
      · have hnew : name ∉ names (d :: t) := fun h => (List.mem_cons.mp h).elim hname hmem
        rw [if_neg hmem, if_neg hnew]
        rfl

theorem nodup_put {t : Table α} (h : t.names.Nodup) (name : String) (x : α) :
    (t.put name x).names.Nodup := by
  rw [put, names_alter]
  split
  · exact h
  · rename_i hnew
    have hone : [name].Nodup := List.nodup_cons.mpr ⟨List.not_mem_nil, List.nodup_nil⟩
    refine List.nodup_append.mpr ⟨h, hone, fun k hk j hj => ?_⟩
    obtain rfl := List.mem_singleton.mp hj
    exact fun heq => hnew (heq ▸ hk)

theorem nodup_erase {t : Table α} (h : t.names.Nodup) (name : String) :
    (t.erase name).names.Nodup :=
  (List.filter_sublist.map Prod.fst).nodup h

theorem mem_erase_of_mem {t : Table α} (ht : t.names.Nodup) (name : String) {e : String × α}
    (h : e ∈ t) : e ∈ t.erase name ∨ t.find? name = some e.2 := by
  by_cases hname : e.1 = name
  · refine .inr ?_
    induction t with
    | nil => cases h
    | cons d t ih =>
      obtain ⟨hnew, ht⟩ := List.nodup_cons.mp ht
      rw [find?_cons]
      rcases List.mem_cons.mp h with rfl | h
      · rw [if_pos hname.symm]
      · have hne : name ≠ d.1 := by
          intro heq
          have hmem : e.1 ∈ names t := List.mem_map_of_mem h
          rw [hname, heq] at hmem
          exact hnew hmem
        rw [if_neg hne]
        exact ih ht h
  · exact .inl (List.mem_filter.mpr ⟨h, by simpa using hname⟩)

end Table

namespace Object

variable {K : Type}

inductive Holds (a : Formula K) : Object K → Prop where
  | operation (c : Category) : Holds a (.inst (.operation c a))
  | item {o : Object K} {os : List (Object K)} (h : o ∈ os) (ho : Holds a o) :
    Holds a (.tuple os)

def formulas (o : Object K) : Set (Formula K) := {a | o.Holds a}

def formulasOf (os : List (Object K)) : Set (Formula K) := {a | ∃ o ∈ os, o.Holds a}

inductive Has (i : Instance K) : Object K → Prop where
  | self : Has i (.inst i)
  | item {o : Object K} {os : List (Object K)} (h : o ∈ os) (ho : Has i o) : Has i (.tuple os)

def instancesOf (os : List (Object K)) : Set (Instance K) := {i | ∃ o ∈ os, o.Has i}

def nodesIn (os : List (Object K)) : Set NodeId := {n | ∃ o ∈ os, n ∈ o.nodes}

theorem holds_iff {a : Formula K} {o : Object K} :
    o.Holds a ↔ ∃ c, o.Has (.operation c a) := by
  constructor
  · intro h
    induction h with
    | operation c => exact ⟨c, .self⟩
    | item hmem _ ih =>
      obtain ⟨c, hc⟩ := ih
      exact ⟨c, .item hmem hc⟩
  · rintro ⟨c, h⟩
    induction h with
    | self => exact .operation c
    | item hmem _ ih => exact .item hmem ih

theorem formulasOf_variable {H : Set (Formula K)} (c : Category) (n : NodeId) :
    formulasOf [(.inst (.var c n) : Object K)] ⊆ H := by
  rintro a ⟨o, ho, ha⟩
  obtain rfl := List.mem_singleton.mp ho
  cases ha

theorem formulasOf_subset {os ps : List (Object K)} (h : instancesOf os ⊆ instancesOf ps) :
    formulasOf os ⊆ formulasOf ps := by
  rintro a ⟨o, ho, ha⟩
  obtain ⟨c, hc⟩ := holds_iff.mp ha
  obtain ⟨p, hp, hpc⟩ := h ⟨o, ho, hc⟩
  exact ⟨p, hp, holds_iff.mpr ⟨c, hpc⟩⟩

theorem mem_nodesOfList {os : List (Object K)} {n : NodeId} :
    n ∈ nodes.nodesOfList os ↔ n ∈ nodesIn os := by
  induction os with
  | nil => simp [nodes.nodesOfList, nodesIn]
  | cons o os ih =>
    rw [nodes.nodesOfList, List.mem_append, ih]
    simp [nodesIn]

theorem mem_nodes_of_has {o : Object K} {i : Instance K} {n : NodeId} (h : o.Has i)
    (hn : n ∈ i.nodes) : n ∈ o.nodes := by
  induction h with
  | self => exact hn
  | item hmem _ ih => exact mem_nodesOfList.mpr ⟨_, hmem, ih⟩

mutual

theorem has_of_mem_nodes {o : Object K} {n : NodeId} (h : n ∈ o.nodes) :
    ∃ i, o.Has i ∧ n ∈ i.nodes := by
  match o with
  | .inst i => exact ⟨i, .self, h⟩
  | .tuple items =>
    have hitems : n ∈ nodes.nodesOfList items := h
    obtain ⟨o, ho, i, hi, hn⟩ := has_of_mem_nodesOfList hitems
    exact ⟨i, .item ho hi, hn⟩
  | .none | .bool _ | .float _ | .str _ | .array _ => cases h

theorem has_of_mem_nodesOfList {os : List (Object K)} {n : NodeId}
    (h : n ∈ nodes.nodesOfList os) : ∃ o ∈ os, ∃ i, o.Has i ∧ n ∈ i.nodes := by
  match os with
  | [] => cases h
  | o :: os =>
    rcases List.mem_append.mp h with h | h
    · exact ⟨o, List.mem_cons_self .., has_of_mem_nodes h⟩
    · obtain ⟨p, hp, hi⟩ := has_of_mem_nodesOfList h
      exact ⟨p, List.mem_cons_of_mem o hp, hi⟩

end

theorem mem_nodesIn {os : List (Object K)} {c : Category} {n : NodeId}
    (h : .inst (.var c n) ∈ os) : n ∈ nodesIn os := ⟨_, h, List.mem_singleton.mpr rfl⟩

theorem nodesIn_variable {N : Set NodeId} {c : Category} {n : NodeId} (hn : n ∈ N) :
    nodesIn [(.inst (.var c n) : Object K)] ⊆ N := by
  rintro m ⟨o, ho, hm⟩
  obtain rfl := List.mem_singleton.mp ho
  obtain rfl := List.mem_singleton.mp hm
  exact hn

theorem nodesIn_subset {os ps : List (Object K)} (h : instancesOf os ⊆ instancesOf ps) :
    nodesIn os ⊆ nodesIn ps := by
  rintro n ⟨o, ho, hn⟩
  obtain ⟨i, hi, hin⟩ := has_of_mem_nodes hn
  obtain ⟨p, hp, hpi⟩ := h ⟨o, ho, hi⟩
  exact ⟨p, hp, mem_nodes_of_has hpi hin⟩

end Object

namespace Param

variable {K : Type} [Zero K] {i : Instance K}

theorem has_ofValue (v : Value K) : ¬(Object.ofValue v).Has i := by
  intro hv
  unfold Object.ofValue at hv
  split at hv <;> cases hv

theorem has_convert {p : Param} {o : Object K} {x : p.Carrier K} (h : p.convert? o = some x)
    (hi : (p.toObject x).Has i) : o.Has i := by
  induction p generalizing o with
  | any =>
    cases h
    exact hi
  | bool => cases hi
  | value c => exact absurd hi (has_ofValue x)
  | list item ih =>
    cases o with
    | tuple os =>
      cases hi with
      | item hmem ho =>
        obtain ⟨y, hy, rfl⟩ := List.mem_map.mp hmem
        obtain ⟨o, hos, ho'⟩ := mem_of_mapM h hy
        exact .item hos (ih ho' ho)
    | _ => cases h
  | expression c =>
    cases o with
    | inst j =>
      cases j with
      | operation k b =>
        rw [convert?] at h
        split at h
        · rename_i hk
          cases h
          exact hk ▸ hi
        · cases h
      | var k n =>
        rw [convert?] at h
        split at h
        · rename_i hk
          cases h
          exact hk ▸ hi
        · cases h
      | _ => cases h
    | _ => cases h
  | variableOf c =>
    cases o with
    | inst j =>
      cases j with
      | var k n =>
        rw [convert?] at h
        split at h
        · rename_i hk
          cases h
          exact hk ▸ hi
        · cases h
      | _ => cases h
    | _ => cases h
  | node => cases hi
  | nodes =>
    cases hi with
    | item hmem ho =>
      obtain ⟨n, -, rfl⟩ := List.mem_map.mp hmem
      cases ho
  | program =>
    cases o with
    | inst j =>
      cases j with
      | program id =>
        cases h
        exact hi
      | _ => cases h
    | _ => cases h

theorem instancesOf_convertAll {ps : List Param} {os : List (Object K)} {xs : Carriers K ps}
    (h : convertAll? ps os = some xs) :
    Object.instancesOf (toObjects ps xs) ⊆ Object.instancesOf os := by
  induction ps generalizing os with
  | nil =>
    rintro i ⟨o, ho, -⟩
    cases ho
  | cons p ps ih =>
    cases os with
    | nil => cases h
    | cons o os =>
      obtain ⟨x, hx, h⟩ := Option.bind_eq_some_iff.mp h
      obtain ⟨ys, hys, h⟩ := Option.bind_eq_some_iff.mp h
      cases h
      rintro i ⟨z, hz, hzi⟩
      obtain rfl | hz := List.mem_cons.mp hz
      · exact ⟨o, List.mem_cons_self .., has_convert hx hzi⟩
      · obtain ⟨w, hw, hwi⟩ := ih hys ⟨z, hz, hzi⟩
        exact ⟨w, List.mem_cons_of_mem _ hw, hwi⟩

end Param

namespace Session

variable {K : Type} {objects : Table (Object K)}

mutual

theorem has_resolve {x : Argument K} {o : Object K} (h : resolve objects x = .ok o)
    {i : Instance K} (hi : o.Has i) : i ∈ Object.instancesOf (objects.map (·.2)) := by
  match x with
  | .tuple items =>
    cases hos : resolveAll objects items with
    | error e =>
      rw [resolve, hos] at h
      cases h
    | ok os =>
      rw [resolve, hos] at h
      cases h
      cases hi with
      | item hmem ho => exact instancesOf_resolveAll hos ⟨_, hmem, ho⟩
  | .ref name =>
    rw [resolve] at h
    split at h
    · rename_i hfind
      cases h
      exact ⟨o, List.mem_map.mpr ⟨_, Table.mem_of_find? hfind, rfl⟩, hi⟩
    · cases h
  | .none | .bool _ | .float _ | .str _ | .array _ =>
    cases h
    cases hi

theorem instancesOf_resolveAll {xs : List (Argument K)} {os : List (Object K)}
    (h : resolveAll objects xs = .ok os) :
    Object.instancesOf os ⊆ Object.instancesOf (objects.map (·.2)) := by
  rintro i ⟨p, hp, hpi⟩
  match xs with
  | [] =>
    cases h
    cases hp
  | x :: xs =>
    obtain ⟨o, ho, h⟩ := exists_of_except_bind h
    obtain ⟨rest, hrest, h⟩ := exists_of_except_bind h
    cases h
    obtain rfl | hp := List.mem_cons.mp hp
    · exact has_resolve ho hpi
    · exact instancesOf_resolveAll hrest ⟨p, hp, hpi⟩

end

theorem instancesOf_resolve {x : Argument K} {o : Object K} (h : resolve objects x = .ok o) :
    Object.instancesOf [o] ⊆ Object.instancesOf (objects.map (·.2)) := by
  rintro i ⟨p, hp, hi⟩
  obtain rfl := List.mem_singleton.mp hp
  exact has_resolve h hi

end Session

end GradientGraph
