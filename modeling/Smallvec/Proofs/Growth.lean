import Smallvec.Proofs.Refinement

/-!
The growth policy: what capacity a container has after a history of operations.

# The law

`push` doubles a full container and nothing else changes the capacity, except `move_iter`,
which resets it to `N`. So from `new()` or a reset, with `M` the largest length reached since,
the capacity is the least `N * 2^k` that holds `M` elements: `CapFits N cap M`. The operations'
effect on the length (`Op.nextLen`) and on `M` (`Op.nextMax`) are given once here, and
`CapFits.next` is the one step of the induction over runs (Proofs/Reachable.lean).
-/

namespace Smallvec

variable {α : Type} {N cap M : Nat}

/-- `cap` is the least `N * 2^k` that holds `M` elements. -/
def CapFits (N cap M : Nat) : Prop :=
  ∃ k, cap = N * 2 ^ k ∧ M ≤ cap ∧ (0 < k → N * 2 ^ (k - 1) < M)

/-- The length an operation leaves, as the list model changes it. -/
def Op.nextLen : Op α → Nat → Nat
  | .push _, n | .vecPush _, n => n + 1
  | .pop, n => n - 1
  | .moveIter _, _ => 0
  | _, n => n

/-- The largest length since the last reset, after an operation that leaves length `n`. -/
def Op.nextMax : Op α → Nat → Nat → Nat
  | .moveIter _, _, n => n
  | _, M, n => max M n

/-- What the list model does to the length. -/
theorem Op.length_spec {op : Op α} {l l' : List α} {r : Res α}
    (hs : op.spec l = some (r, l')) : l'.length = op.nextLen l.length := by
  cases op <;> simp only [Op.spec] at hs <;> (try split_ifs at hs) <;>
    first
    | (cases hs; simp [Op.nextLen])
    | (simp only [Option.map_eq_some', Prod.mk.injEq] at hs; obtain ⟨_, _, _, rfl⟩ := hs; rfl)

theorem capFits_inline (hM : M ≤ N) : CapFits N N M :=
  ⟨0, by simp, hM, fun h => absurd h (Nat.lt_irrefl 0)⟩

/-- More elements than before, within the capacity, keep it the least. -/
theorem CapFits.mono {M' : Nat} (hc : CapFits N cap M) (hM : M ≤ M') (hM' : M' ≤ cap) :
    CapFits N cap M' := by
  obtain ⟨k, hk, -, hlow⟩ := hc
  exact ⟨k, hk, hM', fun hk0 => lt_of_lt_of_le (hlow hk0) hM⟩

/-- A push into a full container doubles its capacity to the least power that holds one more. -/
theorem CapFits.double (hc : CapFits N cap cap) (hN : 0 < N) :
    CapFits N (2 * cap) (cap + 1) := by
  obtain ⟨k, hk, -, -⟩ := hc
  have hpos : 0 < N * 2 ^ k := Nat.mul_pos hN (Nat.pos_pow_of_pos k (by decide))
  refine ⟨k + 1, by rw [hk, Nat.pow_succ, Nat.mul_comm _ 2, Nat.mul_left_comm], by omega,
    fun _ => ?_⟩
  simp [hk]

/-- The capacity is past the inline size exactly when more than `N` elements were reached. -/
theorem CapFits.inline_lt_iff (hc : CapFits N cap M) (hN : 0 < N) : N < cap ↔ N < M := by
  obtain ⟨k, hk, hM, hlow⟩ := hc
  subst hk
  rcases Nat.eq_zero_or_pos k with rfl | hk0
  · simp only [Nat.pow_zero, Nat.mul_one, Nat.lt_irrefl, false_iff, Nat.not_lt]; simpa using hM
  · have : N ≤ N * 2 ^ (k - 1) := Nat.le_mul_of_pos_right _ (Nat.pos_pow_of_pos _ (by decide))
    have : N < N * 2 ^ k := by
      calc N < N * 2 := by omega
        _ ≤ N * 2 ^ k := Nat.mul_le_mul_left _ (by
          calc 2 = 2 ^ 1 := rfl
            _ ≤ 2 ^ k := Nat.pow_le_pow_right (by decide) hk0)
    exact ⟨fun _ => by have := hlow hk0; omega, fun _ => this⟩

/-- A push: a full container doubles, and the capacity is the least for one more element. -/
theorem CapFits.push (hc : CapFits N cap M) (hN : 0 < N) {len : Nat} (hl : len ≤ M) :
    CapFits N (if len = cap then 2 * cap else cap) (max M (len + 1)) := by
  have hMc : M ≤ cap := by obtain ⟨k, -, hM, -⟩ := hc; exact hM
  by_cases hfull : len = cap
  · rw [if_pos hfull, show max M (len + 1) = cap + 1 by omega]
    exact (hc.mono (by omega) (le_refl cap)).double hN
  · rw [if_neg hfull]
    exact hc.mono (Nat.le_max_left _ _) (by omega)

/-- One operation, from a state whose capacity is the least for `M` and whose length is at most
`M`: the capacity the growth policy leaves is the least for the new `M`. -/
theorem CapFits.next (hc : CapFits N cap M) (hN : 0 < N) {len : Nat} (hl : len ≤ M)
    (op : Op α) :
    CapFits N (op.nextCap N len cap) (op.nextMax M (op.nextLen len)) ∧
      op.nextLen len ≤ op.nextMax M (op.nextLen len) := by
  have hsame : CapFits N cap (max M len) := by rwa [Nat.max_eq_left hl]
  have hpop : CapFits N cap (max M (len - 1)) := by rwa [Nat.max_eq_left (by omega)]
  cases op with
  | push x | vecPush x => exact ⟨hc.push hN hl, Nat.le_max_right _ _⟩
  | pop => exact ⟨hpop, Nat.le_max_right _ _⟩
  | moveIter k => exact ⟨capFits_inline (Nat.zero_le N), le_refl 0⟩
  | _ => exact ⟨hsame, Nat.le_max_right _ _⟩

end Smallvec
