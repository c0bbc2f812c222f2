import Mathlib

/-!
# What is held

Every member of a finite set holds at most one thing. A ledger of references is right if it is the
multiset of what the members hold, and the lemmas below say how that multiset changes when a member
is added, is removed, or holds something else.
-/

/-- What is held through one reference. -/
def held {β : Type*} : Option β → Multiset β
  | none => 0
  | some b => {b}

/-- What the members of a finite set hold together. -/
def holdings {α β : Type*} (S : Finset α) (f : α → Option β) : Multiset β := ∑ a ∈ S, held (f a)

section

variable {α β γ : Type*} {S : Finset α} {f g : α → Option β} {a : α} {b : β}

@[simp] lemma held_none : held (none : Option β) = 0 := rfl

@[simp] lemma held_some (b : β) : held (some b) = {b} := rfl

lemma mem_held {x : Option β} : b ∈ held x ↔ x = some b := by
  cases x with
  | none => simp
  | some c => simp [eq_comm]

@[simp] lemma holdings_empty (f : α → Option β) : holdings ∅ f = 0 := Finset.sum_empty

lemma holdings_congr (h : ∀ a ∈ S, f a = g a) : holdings S f = holdings S g :=
  Finset.sum_congr rfl fun a ha => by rw [h a ha]

lemma mem_holdings : b ∈ holdings S f ↔ ∃ a ∈ S, f a = some b := by
  simp [holdings, Multiset.mem_sum, mem_held]

variable [DecidableEq α]

lemma holdings_insert (ha : a ∉ S) : holdings (insert a S) f = held (f a) + holdings S f :=
  Finset.sum_insert ha

lemma holdings_erase (ha : a ∈ S) : held (f a) + holdings (S.erase a) f = holdings S f :=
  Finset.add_sum_erase S (fun a => held (f a)) ha

/-- A member that comes to hold `x` changes the holdings by what it held before. -/
lemma holdings_update (ha : a ∈ S) (h : ∀ c ∈ S, c ≠ a → g c = f c) :
    holdings S g + held (f a) = holdings S f + held (g a) := by
  have hrest : holdings (S.erase a) g = holdings (S.erase a) f :=
    holdings_congr fun c hc => h c (Finset.mem_of_mem_erase hc) (Finset.ne_of_mem_erase hc)
  rw [← holdings_erase (f := g) ha, ← holdings_erase (f := f) ha, hrest]
  ac_rfl

/-- A new member is added to what the old ones hold. -/
lemma holdings_insert_congr (ha : a ∉ S) (h : ∀ c ∈ S, g c = f c) :
    holdings (insert a S) g = held (g a) + holdings S f := by
  rw [holdings_insert ha, holdings_congr h]

end
