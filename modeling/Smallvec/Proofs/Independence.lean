import Smallvec.Proofs.Move

/-!
Two containers in one heap, for a sized `T`.

# Separation

A container owns its inline array and, when spilled, one heap block. `Framed`
(Proofs/Methods.lean) says what an operation may do around it, and the refinement proof carries
it for every operation: a block that existed and was not the container's active storage is
untouched, and the active storage afterwards is the old one, the inline array, or a block
allocated since. Over a run the same holds from its start (`Framed.since`): a run touches only
the container's own storage and the blocks it allocates. So two containers whose buffers differ
(`Apart`) stay apart under any run of operations on either, and each keeps its invariant and its
elements while the other runs: `Inv.step_apart` is one step, `run_apart` a run. So under any
interleaving of operations on the two (`runTwo`), each follows its own list model as if alone
(`interleaving_refines`). The clone of a reachable state starts apart from its source
(`clone_independent`).
-/

namespace Smallvec

variable {α : Type} {N N' : Nat} {t : Layout} {v : SmallVector N α} {w : SmallVector N' α}
  {h : Heap α} {M : Nat}

open SmallVecPrivate SmallVec

/-- The buffers of `w` and `v` differ: `v` does not use `w`'s heap block. -/
def Apart (w : SmallVector N' α) (v : SmallVector N α) : Prop :=
  ∀ id, activeRegion w = .heap id → activeRegion v ≠ .heap id

theorem Apart.symm (hap : Apart w v) : Apart v w :=
  fun id hv hw => hap id hw hv

/-- An operation on `v` that returns, from a state with the invariant: a container `w` apart
from it keeps its invariant and its elements, and stays apart. -/
theorem Inv.step_apart (hI : Inv t v h) (hIw : Inv t w h) (hs : 0 < t.size) (hN : 0 < N)
    (hap : Apart w v) {op : Op α} {r : Res α} {v' : SmallVector N α} {h' : Heap α}
    (hstep : op.step t v h = .ok (r, v', h')) :
    Inv t w h' ∧ abs w h' = abs w h ∧ Apart w v' := by
  obtain ⟨-, -, -, hF⟩ := hI.step_ok hs hN hstep
  have hkeep : ∀ id, activeRegion w = .heap id → h'.block id = h.block id :=
    fun id ha => hF.keep id (hIw.active_lt_next ha) (hap id ha)
  refine ⟨hIw.frame hkeep, abs_eq_of_storage rfl fun i _ => by rw [storage_congr hkeep],
    fun id ha => ?_⟩
  have hlt := hIw.active_lt_next ha
  rcases hF.fresh with he | he | ⟨id', he, hle⟩ <;> rw [he]
  · exact hap id ha
  · exact Region.noConfusion
  · intro e; cases e; omega

/-- One more step of a run that started from `v0` in `h0`: every block that existed at the start
and was not the container's storage is still as it was, and the container's storage is still
its first one, the inline array, or a block that did not exist at the start. -/
theorem Framed.since {v0 v1 v2 : SmallVector N α} {h0 h1 h2 : Heap α}
    (hkeep : ∀ id b, h0.block id = some b → activeRegion v0 ≠ .heap id → h1.block id = some b)
    (hown : activeRegion v1 = activeRegion v0 ∨ activeRegion v1 = .inline ∨
      ∃ id, activeRegion v1 = .heap id ∧ h0.block id = none)
    (hF : Framed v1 h1 v2 h2) :
    (∀ id b, h0.block id = some b → activeRegion v0 ≠ .heap id → h2.block id = some b) ∧
      (activeRegion v2 = activeRegion v0 ∨ activeRegion v2 = .inline ∨
        ∃ id, activeRegion v2 = .heap id ∧ h0.block id = none) := by
  refine ⟨fun id b hb hne => ?_, ?_⟩
  · have h1b := hkeep id b hb hne
    have hne1 : activeRegion v1 ≠ .heap id := by
      rcases hown with e | e | ⟨id', e, hnone⟩ <;> rw [e]
      · exact hne
      · exact Region.noConfusion
      · intro e'; cases e'; rw [hnone] at hb; cases hb
    rw [hF.keep id (Heap.lt_next h1b) hne1]; exact h1b
  · rcases hF.fresh with e | e | ⟨id, e, hle⟩
    · rwa [e]
    · exact .inr (.inl e)
    · rcases hb : h0.block id with _ | b
      · exact .inr (.inr ⟨id, e, hb⟩)
      · by_cases ha : activeRegion v0 = .heap id
        · exact .inl (e.trans ha.symm)
        · have h1b := hkeep id b hb ha
          rw [h1.fresh id hle] at h1b; cases h1b

/-- Any run of operations on `v` that returns, from a state with the invariant, touches only
`v`'s own storage and the blocks it allocates: every block that existed before and was not `v`'s
storage is as it was, and `v`'s storage at the end is its old one, its inline array, or a block
that did not exist before. So `v` keeps the invariant, and a container `w` apart from it keeps
its invariant and its elements, and stays apart. -/
theorem run_apart (hs : 0 < t.size) (hN : 0 < N) :
    ∀ (ops : List (Op α)) (v : SmallVector N α) (h : Heap α) {rs : List (Res α)}
      {v' : SmallVector N α} {h' : Heap α}, Inv t v h → Inv t w h → Apart w v →
      run t ops v h = .ok (rs, v', h') →
      Inv t v' h' ∧ Inv t w h' ∧ abs w h' = abs w h ∧ Apart w v' ∧
      (∀ id b, h.block id = some b → activeRegion v ≠ .heap id → h'.block id = some b) ∧
      (activeRegion v' = activeRegion v ∨ activeRegion v' = .inline ∨
        ∃ id, activeRegion v' = .heap id ∧ h.block id = none) :=
  fun ops v h _ _ _ hI hIw hap hrun => by
    obtain ⟨hI', ⟨hIw', habs, hap'⟩, hkeep, hown⟩ :=
      run_preserves (P := fun v1 h1 => (Inv t w h1 ∧ abs w h1 = abs w h ∧ Apart w v1) ∧
          (∀ id b, h.block id = some b → activeRegion v ≠ .heap id → h1.block id = some b) ∧
          (activeRegion v1 = activeRegion v ∨ activeRegion v1 = .inline ∨
            ∃ id, activeRegion v1 = .heap id ∧ h.block id = none)) hs hN
        (fun hI ⟨⟨hIw, habs, hap⟩, hkeep, hown⟩ hstep =>
          let ⟨hIw', habs', hap'⟩ := hI.step_apart hIw hs hN hap hstep
          ⟨⟨hIw', habs'.trans habs, hap'⟩,
            Framed.since hkeep hown (hI.step_ok hs hN hstep).2.2.2⟩) ops v h hI
        ⟨⟨hIw, rfl, hap⟩, fun _ _ hb _ => hb, .inl rfl⟩ hrun
    exact ⟨hI', hIw', habs, hap', hkeep, hown⟩

/-- The instance: two pushes and a pop on a `SmallVec1<u32>::new()` beside `spilledVec`, the
second push allocating a block of its own. -/
theorem run_apart_u32 :
    0 < Layout.u32.size ∧ 0 < 1 ∧ Inv Layout.u32 spilledVec spilledHeap ∧
      Inv Layout.u32 (SmallVector.new : SmallVec1 Nat) spilledHeap ∧
      Apart spilledVec (SmallVector.new : SmallVec1 Nat) ∧
      ∃ rs v' h', run Layout.u32 [.push 1, .push 2, .pop] (SmallVector.new : SmallVec1 Nat)
          spilledHeap = .ok (rs, v', h') ∧
        Inv Layout.u32 v' h' ∧ Inv Layout.u32 spilledVec h' ∧
        abs spilledVec h' = abs spilledVec spilledHeap ∧ Apart spilledVec v' ∧
        (∀ id b, spilledHeap.block id = some b →
          activeRegion (SmallVector.new : SmallVec1 Nat) ≠ .heap id → h'.block id = some b) ∧
        (activeRegion v' = activeRegion (SmallVector.new : SmallVec1 Nat) ∨
          activeRegion v' = .inline ∨
          ∃ id, activeRegion v' = .heap id ∧ spilledHeap.block id = none) := by
  have hap : Apart spilledVec (SmallVector.new : SmallVec1 Nat) :=
    fun _ _ => by simp [activeRegion, SmallVector.new]
  obtain ⟨rs, v', h', hrun⟩ : ∃ rs v' h', run Layout.u32 [.push 1, .push 2, .pop]
      (SmallVector.new : SmallVec1 Nat) spilledHeap = .ok (rs, v', h') := ⟨_, _, _, rfl⟩
  exact ⟨by decide, by decide, spilledVec_inv, inv_new (by decide), hap, rs, v', h', hrun,
    run_apart (by decide) (by decide) _ _ _ (inv_new (by decide)) spilledVec_inv hap hrun⟩

-- ============================================================ interleavings

/-- For a sized `T`: two containers in one heap that implement `lv` and `lw`, whose buffers
differ, under any interleaving of operations on the two that returns. Each container's results
and final elements are those of its own list model run over its own operations, as if the other
did not exist, and the two buffers still differ. -/
theorem interleaving_refines (hs : 0 < t.size) (hN : 0 < N) (hN' : 0 < N') :
    ∀ (ops : List (Bool × Op α)) (v : SmallVector N α) (w : SmallVector N' α) (h : Heap α)
      (lv lw : List α) {rv rw : List (Res α)} {v' : SmallVector N α} {w' : SmallVector N' α}
      {h' : Heap α}, Refines t v h lv → Refines t w h lw → Apart w v →
      runTwo t ops v w h = .ok ((rv, rw), v', w', h') →
      (∃ lv', Op.specRun (onSide true ops) lv = some (rv, lv') ∧ Refines t v' h' lv') ∧
      (∃ lw', Op.specRun (onSide false ops) lw = some (rw, lw') ∧ Refines t w' h' lw') ∧
      Apart w' v'
  | [], _, _, _, lv, lw, _, _, _, _, _, hR, hRw, hap, hrun => by
    cases hrun; exact ⟨⟨lv, rfl, hR⟩, ⟨lw, rfl, hRw⟩, hap⟩
  | (true, op) :: ops, v, w, h, lv, lw, _, _, _, _, _, hR, hRw, hap, hrun => by
    obtain ⟨⟨r, v1, h1⟩, hs1, hrest⟩ := bind_eq_ok.mp hrun
    obtain ⟨⟨⟨rv, rw⟩, v2, w2, h2⟩, hr2, hq⟩ := bind_eq_ok.mp hrest
    cases hq
    obtain ⟨lv1, hsp1, hR1⟩ := hR.step_ok hs hN hs1
    obtain ⟨hIw, habs, hap1⟩ := hR.inv.step_apart hRw.inv hs hN hap hs1
    obtain ⟨⟨lv', hsp', hR'⟩, hw, hap'⟩ := interleaving_refines hs hN hN' ops v1 w h1 lv1 lw hR1
      ⟨hIw, habs.trans hRw.abs_eq⟩ hap1 hr2
    refine ⟨⟨lv', ?_, hR'⟩, by simpa using hw, hap'⟩
    rw [onSide_cons, if_pos rfl]
    simp [Op.specRun, hsp1, hsp']
  | (false, op) :: ops, v, w, h, lv, lw, _, _, _, _, _, hR, hRw, hap, hrun => by
    obtain ⟨⟨r, w1, h1⟩, hs1, hrest⟩ := bind_eq_ok.mp hrun
    obtain ⟨⟨⟨rv, rw⟩, v2, w2, h2⟩, hr2, hq⟩ := bind_eq_ok.mp hrest
    cases hq
    obtain ⟨lw1, hsp1, hRw1⟩ := hRw.step_ok hs hN' hs1
    obtain ⟨hIv, habs, hap1⟩ := hRw.inv.step_apart hR.inv hs hN' hap.symm hs1
    obtain ⟨hv, ⟨lw', hsp', hRw'⟩, hap'⟩ := interleaving_refines hs hN hN' ops v w1 h1 lv lw1
      ⟨hIv, habs.trans hR.abs_eq⟩ hRw1 hap1.symm hr2
    refine ⟨by simpa using hv, ⟨lw', ?_, hRw'⟩, hap'⟩
    rw [onSide_cons, if_pos rfl]
    simp [Op.specRun, hsp1, hsp']

/-- The instance: a `SmallVec1<u32>::new()` beside `spilledVec`, which holds `1, 2`; pushes on
the first, the second of which allocates a block of its own, interleaved with a pop and a write
on the second. -/
theorem interleaving_refines_u32 :
    0 < Layout.u32.size ∧ 0 < 1 ∧ 0 < 1 ∧
      Refines Layout.u32 (SmallVector.new : SmallVec1 Nat) spilledHeap [] ∧
      Refines Layout.u32 spilledVec spilledHeap [1, 2] ∧
      Apart spilledVec (SmallVector.new : SmallVec1 Nat) ∧
      ∃ rv rw v' w' h', runTwo Layout.u32
          [(true, .push 5), (false, .pop), (true, .push 6), (false, .getMut 0 7)]
          (SmallVector.new : SmallVec1 Nat) spilledVec spilledHeap = .ok ((rv, rw), v', w', h') ∧
        (∃ lv', Op.specRun (onSide true
            [(true, .push 5), (false, .pop), (true, .push 6), (false, .getMut 0 7)]) []
            = some (rv, lv') ∧ Refines Layout.u32 v' h' lv') ∧
        (∃ lw', Op.specRun (onSide false
            [(true, .push 5), (false, .pop), (true, .push 6), (false, .getMut 0 7)]) [1, 2]
            = some (rw, lw') ∧ Refines Layout.u32 w' h' lw') ∧
        Apart w' v' := by
  have hap : Apart spilledVec (SmallVector.new : SmallVec1 Nat) :=
    fun _ _ => by simp [activeRegion, SmallVector.new]
  have hRw : Refines Layout.u32 spilledVec spilledHeap [1, 2] := ⟨spilledVec_inv, rfl⟩
  have hR : Refines Layout.u32 (SmallVector.new : SmallVec1 Nat) spilledHeap [] :=
    (inv_new (by decide)).refines_nil rfl
  obtain ⟨rv, rw, v', w', h', hrun⟩ : ∃ rv rw v' w' h', runTwo Layout.u32
      [(true, .push 5), (false, .pop), (true, .push 6), (false, .getMut 0 7)]
      (SmallVector.new : SmallVec1 Nat) spilledVec spilledHeap = .ok ((rv, rw), v', w', h') :=
    ⟨_, _, _, _, _, rfl⟩
  exact ⟨by decide, by decide, by decide, hR, hRw, hap, rv, rw, v', w', h', hrun,
    interleaving_refines (by decide) (by decide) (by decide) _ _ _ _ _ _ hR hRw hap hrun⟩

/-- For a sized `T`, `clone()` of every reachable state returns a container with the invariant,
the same length, the clones of the elements in order and the least capacity `N * 2^k` for that
length; and the clone and its source share no storage: after any run of operations on either
one, the other's elements are as they were. -/
theorem clone_independent (hs : 0 < t.size) (hN : 0 < N) (hfit : N * t.size ≤ isizeMax)
    (hr : Reachable t v h M) (cl : α → α) :
    ∃ w h', SmallVector.clone t cl v h = .ok (w, h') ∧ Inv t w h' ∧ w.len = v.len ∧
      abs w h' = (abs v h).map (Slot.map cl) ∧ CapFits N w.cap v.len ∧
      (∀ (ops : List (Op α)) {rs : List (Res α)} {w' : SmallVector N α} {h'' : Heap α},
        run t ops w h' = .ok (rs, w', h'') → abs v h'' = abs v h) ∧
      (∀ (ops : List (Op α)) {rs : List (Res α)} {v' : SmallVector N α} {h'' : Heap α},
        run t ops v h' = .ok (rs, v', h'') → abs w h'' = abs w h') := by
  obtain ⟨hI, ⟨m, hm, -⟩, -⟩ := hr.inv hs hN hfit
  obtain ⟨w, h', hc, hC⟩ := hI.clone_spec hs hN hm cl
  have hI' := hI.frame hC.source
  have habs : abs v h' = abs v h :=
    abs_eq_of_storage rfl fun i _ => by rw [storage_congr hC.source]
  have hap : Apart v w := fun id ha => hC.ne_source hI ha
  refine ⟨w, h', hc, hC.inv, hC.len_eq, hC.abs_eq, hC.cap, fun ops _ _ _ hrun => ?_,
    fun ops _ _ _ hrun => ?_⟩
  · rw [← habs]; exact (run_apart hs hN ops w h' hC.inv hI' hap hrun).2.2.1
  · exact (run_apart hs hN ops v h' hI' hC.inv hap.symm hrun).2.2.1

/-- The instance: the spilled `SmallVec1<u32>` of `pushes_then_pop_reachable`, cloned with
`x ↦ x + 10`. -/
theorem clone_independent_spilled :
    0 < Layout.u32.size ∧ 0 < 1 ∧ 1 * Layout.u32.size ≤ isizeMax ∧
      ∃ rs v h, run Layout.u32 [.push 1, .push 2, .push 3, .pop] (SmallVector.new : SmallVec1 Nat)
          Heap.empty = .ok (rs, v, h) ∧ v.len = 2 ∧ v.cap = 4 ∧ ∃ M, Reachable Layout.u32 v h M ∧
        ∃ w h', SmallVector.clone Layout.u32 (· + 10) v h = .ok (w, h') ∧ Inv Layout.u32 w h' ∧
          w.len = v.len ∧ abs w h' = (abs v h).map (Slot.map (· + 10)) ∧ CapFits 1 w.cap v.len ∧
          (∀ (ops : List (Op Nat)) {rs : List (Res Nat)} {w' : SmallVec1 Nat} {h'' : Heap Nat},
            run Layout.u32 ops w h' = .ok (rs, w', h'') → abs v h'' = abs v h) ∧
          (∀ (ops : List (Op Nat)) {rs : List (Res Nat)} {v' : SmallVec1 Nat} {h'' : Heap Nat},
            run Layout.u32 ops v h' = .ok (rs, v', h'') → abs w h'' = abs w h') := by
  obtain ⟨rs, v, h, hrun, hl, hc, M, hr⟩ := pushes_then_pop_reachable
  exact ⟨by decide, by decide, by decide, rs, v, h, hrun, hl, hc, M, hr,
    clone_independent (by decide) (by decide) (by decide) hr _⟩

end Smallvec
