import BrokerForest.Color
import BrokerForest.Proofs.TextOrder
/-!
# The order of colors

A tree attaches beneath another only if its color can join the other's.  Here that
relation is shown to be a strict linear order on colors, so that no chain of trees, each
beneath the next, comes back to where it began.

Main statements:

* `Color.canJoin_iff` — a shorter color joins a longer one, and of two colors of one
  length the greater joins the smaller; the rule for the colorless color is a case of it;
* `Color.canJoin_irrefl`, `Color.canJoin_trans`, `Color.canJoin_total` — the laws of a
  strict linear order;
* `Color.canJoin_extend` — a color can join the color of a new root made from it;
* `Color.canJoin_iff_encode` — the same order by the UTF-8 octets of the tokens;
* `Color.not_isChain_canJoin` — no chain of colors, each joining the next, returns;
* **`Color.canJoin_strictly_orders`** — all of these laws together.
-/

namespace BrokerForest

namespace Color

/-- A color without tokens is the colorless one. -/
theorem isColorless_iff {c : Color} : c.isColorless = true ↔ c.length = 0 := by
  simp [isColorless, length]

/-- The order of colors, without a case of its own for the colorless color. -/
theorem canJoin_iff {a b : Color} :
    a.canJoin b = true ↔
      a.length < b.length ∨ a.length = b.length ∧ b.tokens < a.tokens := by
  unfold canJoin
  split
  · rename_i h
    have hab : a.length = 0 ∧ b.length ≠ 0 := by
      simpa [isColorless_iff, Bool.eq_false_iff] using h
    simp only [true_iff]
    omega
  · split
    · rename_i h
      simp [h]
    · rename_i h
      simp [h]

/-- No color can join itself. -/
@[simp]
theorem canJoin_irrefl (c : Color) : c.canJoin c = false := by
  rw [Bool.eq_false_iff, ne_eq, canJoin_iff]
  simp

/-- What can join a color can join all that the color can join. -/
theorem canJoin_trans {a b c : Color}
    (hab : a.canJoin b = true) (hbc : b.canJoin c = true) :
    a.canJoin c = true := by
  rw [canJoin_iff] at hab hbc ⊢
  rcases hab with hab | ⟨hab, htab⟩
  · rcases hbc with hbc | ⟨hbc, _⟩
    · exact Or.inl (by omega)
    · exact Or.inl (by omega)
  · rcases hbc with hbc | ⟨hbc, htbc⟩
    · exact Or.inl (by omega)
    · exact Or.inr ⟨hab.trans hbc, htbc.trans htab⟩

/-- Of two colors at most one can join the other. -/
theorem canJoin_asymm {a b : Color} (h : a.canJoin b = true) : b.canJoin a = false := by
  rw [Bool.eq_false_iff]
  intro hba
  simpa using canJoin_trans h hba

/-- Of two different colors one can join the other. -/
theorem canJoin_total {a b : Color} (h : a ≠ b) :
    a.canJoin b = true ∨ b.canJoin a = true := by
  rw [canJoin_iff, canJoin_iff]
  rcases Nat.lt_trichotomy a.length b.length with hl | hl | hl
  · exact Or.inl (Or.inl hl)
  · have ht : a.tokens ≠ b.tokens := fun ht => h (by cases a; cases b; simp_all)
    rcases lt_or_gt_of_ne ht with ht | ht
    · exact Or.inr (Or.inr ⟨hl.symm, ht⟩)
    · exact Or.inl (Or.inr ⟨hl, ht⟩)
  · exact Or.inr (Or.inl hl)

/-- A color can join the color that a new root makes from it. -/
theorem canJoin_extend (c : Color) (token : String) : c.canJoin (c.extend token) = true := by
  rw [canJoin_iff]
  simp [extend, length]

/-- The colorless color can join every color with a token. -/
theorem canJoin_of_isColorless {a b : Color}
    (ha : a.isColorless = true) (hb : b.isColorless = false) :
    a.canJoin b = true := by
  simp [canJoin, ha, hb]

/-- The order of colors, by the octets of their tokens. -/
theorem canJoin_iff_encode {a b : Color} :
    a.canJoin b = true ↔ a.length < b.length ∨
      a.length = b.length ∧ b.tokens.map Text.Utf8.encode < a.tokens.map Text.Utf8.encode := by
  rw [canJoin_iff, Text.Utf8.map_encode_lt_iff]

/-- Two colors are one, or exactly one of them can join the other. -/
theorem canJoin_trichotomy (a b : Color) :
    a = b ∧ a.canJoin b = false ∧ b.canJoin a = false ∨
      a ≠ b ∧ a.canJoin b = true ∧ b.canJoin a = false ∨
        a ≠ b ∧ a.canJoin b = false ∧ b.canJoin a = true := by
  by_cases h : a = b
  · subst h
    exact Or.inl ⟨rfl, canJoin_irrefl a, canJoin_irrefl a⟩
  · rcases canJoin_total h with hab | hba
    · exact Or.inr (Or.inl ⟨h, hab, canJoin_asymm hab⟩)
    · exact Or.inr (Or.inr ⟨h, canJoin_asymm hba, hba⟩)

/-- No sequence of colors, each of which can join the next, returns to its start. -/
theorem not_isChain_canJoin (c : Color) (path : List Color) :
    ¬ List.IsChain (fun a b => a.canJoin b = true) (c :: path ++ [c]) := by
  intro h
  have : Trans (fun a b : Color => a.canJoin b = true) (fun a b => a.canJoin b = true)
      (fun a b => a.canJoin b = true) := ⟨canJoin_trans⟩
  have hpairs := List.isChain_iff_pairwise.1 h
  rw [List.cons_append, List.pairwise_cons] at hpairs
  have hself : c.canJoin c = true := hpairs.1 c (by simp)
  simp at hself

/-- **The order of colors is a strict linear order**, in which a color comes before every
color that is made from it. -/
theorem canJoin_strictly_orders :
    (∀ a b : Color, a.canJoin b = true ↔ a.length < b.length ∨
      a.length = b.length ∧ b.tokens.map Text.Utf8.encode < a.tokens.map Text.Utf8.encode) ∧
    (∀ a b : Color, a = b ∧ a.canJoin b = false ∧ b.canJoin a = false ∨
      a ≠ b ∧ a.canJoin b = true ∧ b.canJoin a = false ∨
      a ≠ b ∧ a.canJoin b = false ∧ b.canJoin a = true) ∧
    (∀ a b c : Color, a.canJoin b = true → b.canJoin c = true → a.canJoin c = true) ∧
    (∀ (c : Color) (path : List Color),
      ¬ List.IsChain (fun a b => a.canJoin b = true) (c :: path ++ [c])) ∧
    ∀ (c : Color) (token : String), c.canJoin (c.extend token) = true :=
  ⟨fun _ _ => canJoin_iff_encode, canJoin_trichotomy, fun _ _ _ => canJoin_trans,
    not_isChain_canJoin, canJoin_extend⟩

/-- Of two colors of one length the greater joins the smaller, and with it what is longer. -/
theorem canJoin_longer_of_smaller :
    canJoin ⟨["b"]⟩ ⟨["a"]⟩ = true ∧ canJoin ⟨["a"]⟩ ⟨["a", "b"]⟩ = true ∧
      canJoin ⟨["b"]⟩ ⟨["a", "b"]⟩ = true :=
  have hsmaller : canJoin ⟨["b"]⟩ ⟨["a"]⟩ = true := by decide
  have hlonger : canJoin ⟨["a"]⟩ ⟨["a", "b"]⟩ = true := by decide
  ⟨hsmaller, hlonger, canJoin_strictly_orders.2.2.1 _ _ _ hsmaller hlonger⟩

end Color

end BrokerForest
