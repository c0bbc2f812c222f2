import Mathlib

/-!
# Fields of a machine word

A mask selects a field of a word. A field is read by `&&&` with its mask, and is assigned by
clearing it and joining the new value. Fields of disjoint masks do not disturb each other.
-/

namespace WordField

variable {w : ℕ} {m n v : BitVec w}

/-- Assign to the field of a mask. -/
def set (m x v : BitVec w) : BitVec w := (x &&& ~~~m) ||| v

lemma not_and_of_disjoint (h : m &&& n = 0#w) : ~~~m &&& n = n := by
  ext i hi
  have hbit : (m &&& n)[i] = false := by simp [h]
  simp only [BitVec.getElem_and, BitVec.getElem_not] at hbit ⊢
  cases hm : m[i] <;> simp_all

/-- A field holds what was assigned to it. -/
lemma set_and_self (x : BitVec w) (hv : v &&& m = v) : set m x v &&& m = v := by
  have hclear : ~~~m &&& m = 0#w := by
    ext i
    simp
  rw [set, BitVec.and_or_distrib_right, BitVec.and_assoc, hclear, hv, BitVec.and_zero,
    BitVec.zero_or]

/-- The other fields stay as they are. -/
lemma set_and_of_disjoint (x : BitVec w) (hv : v &&& m = v) (h : m &&& n = 0#w) :
    set m x v &&& n = x &&& n := by
  have hzero : v &&& n = 0#w := by
    rw [← hv, BitVec.and_assoc, h, BitVec.and_zero]
  rw [set, BitVec.and_or_distrib_right, BitVec.and_assoc, not_and_of_disjoint h, hzero,
    BitVec.or_zero]

/-- Setting all bits of a field. -/
lemma set_mask (x : BitVec w) : set m x m = x ||| m := by
  ext i hi
  simp only [set, BitVec.getElem_or, BitVec.getElem_and, BitVec.getElem_not]
  cases x[i] <;> cases m[i] <;> rfl

/-- The lowest bits of a word are its remainder. -/
lemma toNat_and_low_mask (x : BitVec w) {b : ℕ} (hb : b ≤ w) :
    (x &&& BitVec.ofNat w (2 ^ b - 1)).toNat = x.toNat % 2 ^ b := by
  have hpow : 2 ^ b ≤ 2 ^ w := Nat.pow_le_pow_right (by decide) hb
  have hpos : 0 < 2 ^ b := Nat.two_pow_pos b
  have hmask : (2 ^ b - 1) % 2 ^ w = 2 ^ b - 1 := Nat.mod_eq_of_lt (by omega)
  rw [BitVec.toNat_and, BitVec.toNat_ofNat, hmask, Nat.and_two_pow_sub_one_eq_mod]

/-- The lowest bits hold every small value. -/
lemma and_low_mask {x : BitVec w} {b : ℕ} (hb : b ≤ w) (hx : x.toNat < 2 ^ b) :
    x &&& BitVec.ofNat w (2 ^ b - 1) = x := by
  apply BitVec.eq_of_toNat_eq
  rw [toNat_and_low_mask x hb]
  exact Nat.mod_eq_of_lt hx

/-- The bits above them hold every multiple of their weight. -/
lemma and_high_mask {x : BitVec w} {b : ℕ} (hb : b ≤ w) (hx : 2 ^ b ∣ x.toNat) :
    x &&& ~~~BitVec.ofNat w (2 ^ b - 1) = x := by
  have hlow : x &&& BitVec.ofNat w (2 ^ b - 1) = 0#w := by
    apply BitVec.eq_of_toNat_eq
    rw [toNat_and_low_mask x hb, Nat.mod_eq_zero_of_dvd hx, BitVec.toNat_ofNat, Nat.zero_mod]
  ext i hi
  have hbit : (x &&& BitVec.ofNat w (2 ^ b - 1))[i] = false := by simp [hlow]
  simp only [BitVec.getElem_and, BitVec.getElem_not] at hbit ⊢
  cases hx' : x[i] <;> simp_all

/-! ### Sequences of assignments -/

/-- A field that some of the operations assign, and the others leave alone, holds the last value
that was assigned to it. -/
lemma foldl_last {σ τ β : Type*} {step : σ → τ → σ} (get : σ → β) (val : τ → Option β)
    {ops : List τ} (h : ∀ s, ∀ op ∈ ops, get (step s op) = (val op).getD (get s)) (s : σ) :
    get (ops.foldl step s) = (ops.filterMap val).getLastD (get s) := by
  induction ops generalizing s with
  | nil => rfl
  | cons op ops ih =>
    have hop := h s op List.mem_cons_self
    rw [List.foldl_cons, ih fun s op' hop' => h s op' (List.mem_cons_of_mem op hop'), hop]
    cases hv : val op with
    | none => rw [List.filterMap_cons_none hv, Option.getD_none]
    | some v => rw [List.filterMap_cons_some hv, Option.getD_some, List.getLastD_cons]

end WordField
