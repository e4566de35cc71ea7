import Smallvec.Proofs.Clone

/-!
The states a container reaches, and what holds in all of them, for a sized `T`.

# Reachability

A container starts as `new()`; it moves by the operations of `Op`; a reachable container's
`clone()` starts a new one; and while other code runs (another container's operations) the
heap changes around it, with the blocks of its own storage kept. `Reachable t v h M` carries the
largest length `M` since the container started or `move_iter` last reset it, the history the
growth law speaks of.

# What holds

`Reachable.inv` is the one induction: the representation invariant and the growth law together,
the second needed for the first at a clone (the clone's pushes fit the address space because the
source's capacity is a power-of-two multiple of `N`). What every reachable state satisfies
follows from it: the invariant, with every slot `push` writes and `pop` reads inside the active
storage (`reachable_invariant`); the growth law, with `grow` called exactly by the pushes that
find the container full (`capacity_least_doubling`); and word arithmetic that never wraps
(`word_arithmetic_in_range`).
-/

namespace Smallvec

variable {α : Type} {N : Nat} {t : Layout} {v : SmallVector N α} {h : Heap α} {M : Nat}

open SmallVecPrivate SmallVec

/-- The states a container reaches, with the largest length `M` since it started or was last
reset. -/
inductive Reachable (t : Layout) : SmallVector N α → Heap α → Nat → Prop where
  | new (h : Heap α) : Reachable t SmallVector.new h 0
  | step {v h M r v' h'} (op : Op α) : Reachable t v h M → op.step t v h = .ok (r, v', h') →
      Reachable t v' h' (op.nextMax M v'.len)
  | clone {v h M w h'} (cl : α → α) : Reachable t v h M →
      SmallVector.clone t cl v h = .ok (w, h') → Reachable t w h' w.len
  | frame {v h M h'} : Reachable t v h M →
      (∀ id, activeRegion v = .heap id → h'.block id = h.block id) → Reachable t v h' M

/-- The value a slot holds, if it is live. -/
def Slot.value? : Slot α → Option α
  | .live a => some a
  | _ => none

/-- Live slots are the values they hold. -/
theorem map_live_filterMap {l : List (Slot α)} (hl : ∀ x ∈ l, x.isLive = true) :
    (l.filterMap Slot.value?).map .live = l := by
  induction l with
  | nil => rfl
  | cons x l ih =>
    have ih := ih fun y hy => hl y (List.mem_cons_of_mem x hy)
    cases x with
    | live a => simp [Slot.value?, ih]
    | zeroed | uninit => exact absurd (hl _ (List.mem_cons_self _ _)) (by simp [Slot.isLive])

/-- A state with the invariant implements the list of its values. -/
theorem Inv.refines (hI : Inv t v h) : Refines t v h ((abs v h).filterMap Slot.value?) :=
  ⟨hI, (map_live_filterMap fun x hx => by
    obtain ⟨i, hi, rfl⟩ := List.mem_map.mp hx
    exact hI.init i (List.mem_range.mp hi)).symm⟩

/-- An operation that returns from a state with the invariant: the new state's invariant, the
capacity the growth policy gives, the length the list model gives, and the frame. -/
theorem Inv.step_ok (hI : Inv t v h) (hs : 0 < t.size) (hN : 0 < N) {op : Op α} {r : Res α}
    {v' : SmallVector N α} {h' : Heap α} (hstep : op.step t v h = .ok (r, v', h')) :
    Inv t v' h' ∧ v'.cap = op.nextCap N v.len v.cap ∧ v'.len = op.nextLen v.len ∧
      Framed v h v' h' := by
  have hR := hI.refines
  have hm := hR.step hs hN op
  rw [hstep] at hm
  rcases hspec : op.spec ((abs v h).filterMap Slot.value?) with _ | ⟨r', l'⟩ <;> rw [hspec] at hm
  · exact hm.elim
  · obtain ⟨-, hR', hcap, hF⟩ := hm
    exact ⟨hR'.inv, hcap, by rw [hR'.len_eq, Op.length_spec hspec, ← hR.len_eq], hF⟩

/-- Every reachable state has the invariant, and its capacity is the least `N * 2^k` holding
the largest length since its start or last reset. -/
theorem Reachable.inv (hs : 0 < t.size) (hN : 0 < N) (hfit : N * t.size ≤ isizeMax)
    (hr : Reachable t v h M) : Inv t v h ∧ CapFits N v.cap M ∧ v.len ≤ M := by
  induction hr with
  | new h => exact ⟨inv_new hfit, capFits_inline (Nat.zero_le N), le_refl 0⟩
  | step op _ hstep ih =>
    obtain ⟨hI, hc, hl⟩ := ih
    obtain ⟨hI', hcap, hlen, -⟩ := hI.step_ok hs hN hstep
    obtain ⟨hc', hl'⟩ := hc.next hN hl op
    exact ⟨hI', hcap ▸ hlen ▸ hc', hlen ▸ hl'⟩
  | clone cl _ hclone ih =>
    obtain ⟨hI, ⟨m, hm, -⟩, -⟩ := ih
    obtain ⟨w, h', hc, hC⟩ := hI.clone_spec hs hN hm cl
    rw [hclone] at hc
    cases hc
    exact ⟨hC.inv, hC.len_eq ▸ hC.cap, le_refl _⟩
  | frame _ hh ih => exact ⟨ih.1.frame hh, ih.2⟩

/-- No operation but `move_iter` lowers the capacity. -/
theorem Inv.cap_step (hI : Inv t v h) (hs : 0 < t.size) (hN : 0 < N) {op : Op α} {r : Res α}
    {v' : SmallVector N α} {h' : Heap α} (hstep : op.step t v h = .ok (r, v', h')) :
    v.cap ≤ v'.cap ∨ (∃ k, op = .moveIter k) ∧ v'.cap = N := by
  rw [(hI.step_ok hs hN hstep).2.1]
  cases op with
  | push x | vecPush x => exact .inl (by simp only [Op.nextCap]; split <;> omega)
  | moveIter k => exact .inr ⟨⟨k, rfl⟩, rfl⟩
  | _ => exact .inl (le_refl _)

/-- The length of a reachable state is at most its `M`, for any `T`: each constructor sets `M`
to at least the length it leaves. -/
theorem Reachable.len_le (hr : Reachable t v h M) : v.len ≤ M := by
  induction hr with
  | new => exact le_refl 0
  | step op _ _ _ =>
    cases op <;> first | exact le_refl _ | exact Nat.le_max_right _ _
  | clone => exact le_refl _
  | frame _ _ ih => exact ih

/-- A run that returns, from a reachable state, ends in one. -/
theorem Reachable.of_run : ∀ {ops : List (Op α)} {v : SmallVector N α} {h : Heap α} {M : Nat}
    {rs : List (Res α)} {v' : SmallVector N α} {h' : Heap α}, Reachable t v h M →
    run t ops v h = .ok (rs, v', h') → ∃ M', Reachable t v' h' M'
  | [], _, _, M, _, _, _, hr, hrun => by cases hrun; exact ⟨M, hr⟩
  | op :: _, _, _, _, _, _, _, hr, hrun => by
    obtain ⟨⟨_, _, _⟩, hs, hrest⟩ := bind_eq_ok.mp hrun
    obtain ⟨⟨_, _, _⟩, hr2, hp⟩ := bind_eq_ok.mp hrest
    cases hp
    exact Reachable.of_run (hr.step op hs) hr2

/-- A property that every returning operation keeps, from a state with the invariant, holds
after every returning run, and so does the invariant. -/
theorem run_preserves {P : SmallVector N α → Heap α → Prop} (hs : 0 < t.size) (hN : 0 < N)
    (hP : ∀ {op : Op α} {r : Res α} {v : SmallVector N α} {h : Heap α} {v' : SmallVector N α}
      {h' : Heap α}, Inv t v h → P v h → op.step t v h = .ok (r, v', h') → P v' h') :
    ∀ (ops : List (Op α)) (v : SmallVector N α) (h : Heap α) {rs : List (Res α)}
      {v' : SmallVector N α} {h' : Heap α}, Inv t v h → P v h →
      run t ops v h = .ok (rs, v', h') → Inv t v' h' ∧ P v' h'
  | [], _, _, _, _, _, hI, hp, hrun => by cases hrun; exact ⟨hI, hp⟩
  | op :: ops, v, h, _, _, _, hI, hp, hrun => by
    obtain ⟨⟨_, v1, h1⟩, hs1, hrest⟩ := bind_eq_ok.mp hrun
    obtain ⟨⟨_, _, _⟩, hr2, hq⟩ := bind_eq_ok.mp hrest
    cases hq
    exact run_preserves hs hN hP ops v1 h1 (hI.step_ok hs hN hs1).1 (hP hI hp hs1) hr2

-- ============================================== what every reachable state satisfies

/-- `SmallVec1<u32>` after pushing `1, 2, 3` and popping is reachable: spilled, with two elements
in a buffer of four. -/
theorem pushes_then_pop_reachable :
    ∃ rs v h, run Layout.u32 [.push 1, .push 2, .push 3, .pop] (SmallVector.new : SmallVec1 Nat)
        Heap.empty = .ok (rs, v, h) ∧ v.len = 2 ∧ v.cap = 4 ∧ ∃ M, Reachable Layout.u32 v h M := by
  obtain ⟨rs, v, h, hrun, hl, hc⟩ : ∃ rs v h, run Layout.u32 [.push 1, .push 2, .push 3, .pop]
      (SmallVector.new : SmallVec1 Nat) Heap.empty = .ok (rs, v, h) ∧ v.len = 2 ∧ v.cap = 4 :=
    ⟨_, _, _, rfl, rfl, rfl⟩
  exact ⟨rs, v, h, hrun, hl, hc, Reachable.of_run (.new _) hrun⟩

/-- For a sized `T`, the capacity of every reachable state is the least `N * 2^k` that holds
`M`, the largest length since `new()` or the last `move_iter`; so the container is spilled
exactly when `M > N`, `grow` is called exactly by the pushes that find `len = cap` (a push with
room writes in place), and no operation but `move_iter` takes a spilled container back inline. -/
theorem capacity_least_doubling (hs : 0 < t.size) (hN : 0 < N) (hfit : N * t.size ≤ isizeMax)
    (hr : Reachable t v h M) :
    CapFits N v.cap M ∧ v.len ≤ M ∧ (spilled v = true ↔ N < M) ∧
      (∀ x : Slot α, (v.len < v.cap ∧ push t v x h = .ok (pushInto v h x)) ∨
        (v.len = v.cap ∧
          push t v x h = (do let (v1, h1) ← grow t v (2 * v.cap) h; pure (pushInto v1 h1 x)))) ∧
      ∀ (op : Op α) (r : Res α) (v' : SmallVector N α) (h' : Heap α),
        op.step t v h = .ok (r, v', h') → (∀ k, op ≠ .moveIter k) → spilled v = true →
          spilled v' = true := by
  obtain ⟨hI, hc, hl⟩ := hr.inv hs hN hfit
  refine ⟨hc, hl, by simpa using hc.inline_lt_iff hN, fun x => ?_,
    fun op r v' h' hstep hop hsp => ?_⟩
  · by_cases hfull : v.len = v.cap
    · exact .inr ⟨hfull, hI.push_full_eq hs hN hfull x⟩
    · have hroom := lt_of_le_of_ne hI.len_le_cap hfull
      exact .inl ⟨hroom, hI.push_room hs hN hroom x⟩
  rcases hI.cap_step hs hN hstep with hle | ⟨⟨k, hk⟩, -⟩
  · simp only [spilled_eq, decide_eq_true_eq] at hsp ⊢; omega
  · exact absurd hk (hop k)

/-- The instance: the spilled `SmallVec1<u32>` of `pushes_then_pop_reachable`. -/
theorem capacity_least_doubling_spilled :
    0 < Layout.u32.size ∧ 0 < 1 ∧ 1 * Layout.u32.size ≤ isizeMax ∧
      ∃ rs v h, run Layout.u32 [.push 1, .push 2, .push 3, .pop] (SmallVector.new : SmallVec1 Nat)
          Heap.empty = .ok (rs, v, h) ∧ v.len = 2 ∧ v.cap = 4 ∧ ∃ M, Reachable Layout.u32 v h M ∧
        (CapFits 1 v.cap M ∧ v.len ≤ M ∧ (spilled v = true ↔ 1 < M) ∧
          (∀ x : Slot Nat, (v.len < v.cap ∧ push Layout.u32 v x h = .ok (pushInto v h x)) ∨
            (v.len = v.cap ∧ push Layout.u32 v x h =
              (do let (v1, h1) ← grow Layout.u32 v (2 * v.cap) h; pure (pushInto v1 h1 x)))) ∧
          ∀ (op : Op Nat) (r : Res Nat) (v' : SmallVec1 Nat) (h' : Heap Nat),
            op.step Layout.u32 v h = .ok (r, v', h') → (∀ k, op ≠ .moveIter k) →
              spilled v = true → spilled v' = true) := by
  obtain ⟨rs, v, h, hrun, hl, hc, M, hr⟩ := pushes_then_pop_reachable
  exact ⟨by decide, by decide, by decide, rs, v, h, hrun, hl, hc, M, hr,
    capacity_least_doubling (by decide) (by decide) (by decide) hr⟩

/-- For a sized `T` whose inline array fits the address space, in every reachable state none of
the word computations wraps: `cap * 2` and `len + 1` in `push`, `size * new_cap` in the `grow`
it calls, `size * cap` in the `deallocate` of `grow` and `Drop`, and `len - 1` in `pop`, whose
`last_index as int` is never negative: `pop` always returns. -/
theorem word_arithmetic_in_range (hs : 0 < t.size) (hN : 0 < N) (hfit : N * t.size ≤ isizeMax)
    (hr : Reachable t v h M) :
    v.cap * 2 < uintSize ∧ v.len + 1 < uintSize ∧ t.size * (2 * v.cap) < uintSize ∧
      t.size * v.cap ≤ isizeMax ∧
      (0 < v.len → wrappingSub v.len 1 = v.len - 1 ∧ negativeAsInt (v.len - 1) = false) ∧
      ∃ res, pop t v h = .ok res := by
  have hI := (hr.inv hs hN hfit).1
  obtain ⟨hlen, hcap⟩ := hI.words hs
  have hfits : t.size * v.cap ≤ isizeMax := by rw [Nat.mul_comm]; exact hI.fits
  have hlc := hI.len_le_cap
  have hcm := hI.cap_le hs
  refine ⟨hcap, hlen, hI.request_lt, hfits, fun hl => ⟨wrappingSub_one hl (by omega), ?_⟩, ?_⟩
  · unfold negativeAsInt isizeMax at *; simp only [decide_eq_false_iff_not]; omega
  · by_cases hl : v.len = 0
    · exact ⟨_, pop_empty hl⟩
    · exact ⟨_, hI.pop_eq hs (Nat.pos_of_ne_zero hl)⟩

/-- The instance: the spilled `SmallVec1<u32>` of `pushes_then_pop_reachable`, where `pop` hands
out its last element. -/
theorem word_arithmetic_in_range_spilled :
    0 < Layout.u32.size ∧ 0 < 1 ∧ 1 * Layout.u32.size ≤ isizeMax ∧
      ∃ rs v h, run Layout.u32 [.push 1, .push 2, .push 3, .pop] (SmallVector.new : SmallVec1 Nat)
          Heap.empty = .ok (rs, v, h) ∧ v.len = 2 ∧ v.cap = 4 ∧ ∃ M, Reachable Layout.u32 v h M ∧
        (v.cap * 2 < uintSize ∧ v.len + 1 < uintSize ∧
          Layout.u32.size * (2 * v.cap) < uintSize ∧ Layout.u32.size * v.cap ≤ isizeMax ∧
          (0 < v.len → wrappingSub v.len 1 = v.len - 1 ∧ negativeAsInt (v.len - 1) = false) ∧
          ∃ res, pop Layout.u32 v h = .ok res) := by
  obtain ⟨rs, v, h, hrun, hl, hc, M, hr⟩ := pushes_then_pop_reachable
  exact ⟨by decide, by decide, by decide, rs, v, h, hrun, hl, hc, M, hr,
    word_arithmetic_in_range (by decide) (by decide) (by decide) hr⟩

end Smallvec
