/-!
# Node identities

A node is named by its place in the arena and by the generation of that
place, which tells it from earlier nodes that were kept there. Generations
come round. Places are counted without end; a word of 32 bits holds them as
long as fewer than 2 ^ 32 nodes were inserted.
-/

set_option autoImplicit false

namespace GradientGraph

structure NodeId where
  index : Nat
  generation : UInt32
deriving DecidableEq, Repr

namespace NodeId

instance : LT NodeId where
  lt a b := a.index < b.index ∨ a.index = b.index ∧ a.generation < b.generation

instance (a b : NodeId) : Decidable (a < b) :=
  inferInstanceAs (Decidable (_ ∨ _ ∧ _))

theorem lt_iff {a b : NodeId} :
    a < b ↔ a.index < b.index ∨ a.index = b.index ∧ a.generation < b.generation := Iff.rfl

theorem lt_trans {a b c : NodeId} (hab : a < b) (hbc : b < c) : a < c := by
  simp only [lt_iff, UInt32.lt_iff_toNat_lt] at *
  omega

theorem lt_of_not_lt {a b : NodeId} (h : ¬a < b) (hne : a ≠ b) : b < a := by
  have : a.index ≠ b.index ∨ a.generation.toNat ≠ b.generation.toNat := by
    rcases a with ⟨i, g⟩
    rcases b with ⟨j, k⟩
    by_cases hij : i = j
    · subst hij
      exact .inr fun hgk => hne (congrArg _ (UInt32.toNat_inj.mp hgk))
    · exact .inl hij
  simp only [lt_iff, UInt32.lt_iff_toNat_lt] at *
  omega

def text (n : NodeId) : String := "#" ++ toString n.index

def longText (n : NodeId) : String :=
  "NodeId(" ++ n.text ++ ", gen " ++ toString n.generation.toNat ++ ")"

end NodeId

end GradientGraph
