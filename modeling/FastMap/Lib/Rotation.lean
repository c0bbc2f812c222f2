import Mathlib.Data.List.Rotate

/-!
# Taking from a rotating queue

A queue is asked for its first element again and again. An element that satisfies the condition is
taken out; one that does not goes to the tail. Once around, the queue holds exactly the elements
that fail, in their order, and from then on it only rotates.
-/

namespace List

variable {α : Type*} {P : α → Bool} {a : α} {l r : List α} {n : ℕ}

/-- One call: what it takes, and the queue that it leaves. -/
def takeOrRotate (P : α → Bool) : List α → Option α × List α
  | [] => (none, [])
  | a :: l => if P a then (some a, l) else (none, l ++ [a])

/-- A number of calls: what they take, in order, and the queue that they leave. -/
def rotating (P : α → Bool) : ℕ → List α → List α × List α
  | 0, l => ([], l)
  | n + 1, l =>
    match takeOrRotate P l with
    | (none, l) => rotating P n l
    | (some a, l) => (a :: (rotating P n l).1, (rotating P n l).2)

@[simp] lemma rotating_nil (P : α → Bool) (n : ℕ) : rotating P n [] = ([], []) := by
  induction n with
  | zero => rfl
  | succ n ih =>
    rw [rotating, takeOrRotate]
    exact ih

lemma rotating_cons_pos (h : P a = true) (n : ℕ) (l : List α) :
    rotating P (n + 1) (a :: l) = (a :: (rotating P n l).1, (rotating P n l).2) := by
  rw [rotating, takeOrRotate, if_pos h]

lemma rotating_cons_neg (h : P a = false) (n : ℕ) (l : List α) :
    rotating P (n + 1) (a :: l) = rotating P n (l ++ [a]) := by
  rw [rotating, takeOrRotate, if_neg (by simp [h])]

/-- The first round, with `r` behind the elements that are still to be asked for. -/
lemma rotating_append (P : α → Bool) (r : List α) (h : n ≤ l.length) :
    rotating P n (l ++ r) =
      ((l.take n).filter P, l.drop n ++ r ++ (l.take n).filter fun a => !P a) := by
  induction n generalizing l r with
  | zero => simp [rotating]
  | succ n ih =>
    cases l with
    | nil => simp at h
    | cons a l =>
      have hn : n ≤ l.length := by simpa using h
      rw [cons_append]
      cases ha : P a with
      | true => simp [rotating_cons_pos ha, ih r hn, ha]
      | false => simp [rotating_cons_neg ha, append_assoc, ih (r ++ [a]) hn, ha]

/-- Less than a round. -/
lemma rotating_of_le (P : α → Bool) (h : n ≤ l.length) :
    rotating P n l = ((l.take n).filter P, l.drop n ++ (l.take n).filter fun a => !P a) := by
  simpa using rotating_append P [] h

/-- Nothing is left to be taken. -/
lemma rotating_of_forall_not (h : ∀ a ∈ l, P a = false) (n : ℕ) :
    rotating P n l = ([], l.rotate n) := by
  induction n generalizing l with
  | zero => simp [rotating]
  | succ n ih =>
    cases l with
    | nil => simp
    | cons a l =>
      rw [rotating_cons_neg (h a mem_cons_self), rotate_cons_succ]
      apply ih
      intro b hb
      apply h
      simpa [or_comm] using hb

lemma rotating_add (P : α → Bool) (m n : ℕ) (l : List α) :
    rotating P (m + n) l = ((rotating P m l).1 ++ (rotating P n (rotating P m l).2).1,
      (rotating P n (rotating P m l).2).2) := by
  induction m generalizing l with
  | zero => simp [rotating]
  | succ m ih =>
    rw [Nat.add_right_comm]
    cases l with
    | nil => simp
    | cons a l =>
      cases ha : P a with
      | true => simp [rotating_cons_pos ha, ih]
      | false => simp [rotating_cons_neg ha, ih]

/-- More than a round. -/
lemma rotating_of_ge (P : α → Bool) (h : l.length ≤ n) :
    rotating P n l = (l.filter P, (l.filter fun a => !P a).rotate (n - l.length)) := by
  obtain ⟨k, rfl⟩ := Nat.exists_eq_add_of_le h
  have hround : rotating P l.length l = (l.filter P, l.filter fun a => !P a) := by
    simpa using rotating_of_le P (le_refl l.length)
  have hfail : ∀ a ∈ l.filter fun a => !P a, P a = false := by simp
  rw [rotating_add, hround, rotating_of_forall_not hfail, append_nil, Nat.add_sub_cancel_left]

end List
