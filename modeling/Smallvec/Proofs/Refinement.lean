import Smallvec.Proofs.Iterators

/-!
The container refines the list model, for a sized `T` and an instance with an inline array.

# The relation

`Refines t v h l`: the invariant holds and the elements are `l`. `Matches` compares one
operation's outcome with the list model's: both return, with the same result, and the new
state implements the new list and keeps the old one's frame (`Framed`); or both fail (a
`fail!`, a failed assertion or bounds check); or the code aborts where the list model goes on,
and then only in a full container whose next capacity is more than `isize::MAX` bytes, the one
request the allocator refuses. An undefined access matches nothing, so every `Matches` is also a
proof that the operation stays inside live storage.

Over a run, `RunMatches` asks the same of the final outcome, and of an abort (`Aborts`) that the
run followed the list model up to a push into a full container whose doubled request is above
`isize::MAX`, and stopped there.

# The proof

One lemma per operation (`Refines.step_push` ...), each assembled from the method specs of
Proofs/Methods.lean and Proofs/Iterators.lean; `Refines.step` dispatches on the operation, and
`run_refines` is the induction over a run. `list_model_refinement` starts it at `new()`.
-/

namespace Smallvec

variable {α : Type} {N : Nat} {t : Layout} {v : SmallVector N α} {h : Heap α} {l : List α}

open SmallVecPrivate SmallVec

/-- `v` in heap `h` implements the list `l`. -/
structure Refines (t : Layout) (v : SmallVector N α) (h : Heap α) (l : List α) : Prop where
  inv : Inv t v h
  abs_eq : abs v h = l.map .live

/-- The capacity an operation leaves by the growth policy: doubled by a push into a full
container, the inline size after `move_iter`, else unchanged. -/
def Op.nextCap (N : Nat) : Op α → Nat → Nat → Nat
  | .push _, n, c | .vecPush _, n, c => if n = c then 2 * c else c
  | .moveIter _, _, _ => N
  | _, _, c => c

/-- One operation's outcome from `v` in `h` against the list model's: the same result, and the
new state implements the new list, has capacity `cap` and keeps the frame of `v`; or both fail;
or the code aborts where the list model goes on, `v` being full and `cap` elements more than
`isize::MAX` bytes. -/
def Matches (t : Layout) (v : SmallVector N α) (h : Heap α) (cap : Nat) :
    Except Fault (Res α × SmallVector N α × Heap α) → Option (Res α × List α) → Prop
  | .ok (r, v', h'), some (r', l) => r = r' ∧ Refines t v' h' l ∧ v'.cap = cap ∧ Framed v h v' h'
  | .error (.fail _), none => True
  | .error .oom, some _ => v.len = v.cap ∧ isizeMax < t.size * cap
  | _, _ => False

/-- The run `ops` from `v` in `h` aborts, against the list model from `l`: up to a push it
returns and follows the list model, and that push finds the container full, asks for twice its
capacity, more than `isize::MAX` bytes, and aborts. -/
def Aborts (t : Layout) (ops : List (Op α)) (v : SmallVector N α) (h : Heap α) (l : List α) :
    Prop :=
  ∃ pre op post rs w hw lw, ops = pre ++ op :: post ∧ (∃ x, op = .push x ∨ op = .vecPush x) ∧
    run t pre v h = .ok (rs, w, hw) ∧ Op.specRun pre l = some (rs, lw) ∧ Refines t w hw lw ∧
    w.len = w.cap ∧ isizeMax < t.size * (2 * w.cap) ∧ op.step t w hw = .error .oom

/-- The outcome of the run `ops` from `v` in `h` against the list model's from `l`: both return,
with the same results, and the final state implements the final list; or both fail; or the run
aborts as `Aborts` says, wherever the list model would have gone on. -/
def RunMatches (t : Layout) (ops : List (Op α)) (v : SmallVector N α) (h : Heap α) (l : List α) :
    Except Fault (List (Res α) × SmallVector N α × Heap α) → Option (List (Res α) × List α) → Prop
  | .ok (rs, v', h'), some (rs', l') => rs = rs' ∧ Refines t v' h' l'
  | .error (.fail _), none => True
  | .error .oom, _ => Aborts t ops v h l
  | _, _ => False

theorem Refines.len_eq (hR : Refines t v h l) : v.len = l.length := by
  simpa using congrArg List.length hR.abs_eq

theorem Refines.storage_eq (hR : Refines t v h l) {i : Nat} (hi : i < l.length) :
    storage v h i = .live l[i] :=
  storage_of_abs hR.abs_eq hi

/-- An empty state with the invariant implements `[]`. -/
theorem Inv.refines_nil (hI : Inv t v h) (hl : v.len = 0) : Refines t v h [] :=
  ⟨hI, by simp [abs, hl]⟩

/-- An empty inline state fitting the address space has the invariant, whatever its slots. -/
theorem inv_of_empty (hl : v.len = 0) (hc : v.cap = N) (hfit : N * t.size ≤ isizeMax) :
    Inv t v h :=
  ⟨hc.ge, by omega, by rw [hc]; exact hfit, fun hs => absurd hs (by omega),
    fun _ hi => absurd hi (by omega)⟩

-- ================================================================ push and pop

/-- `push(x)` appends `x`, doubling a full container, or a full container's doubled request is
above `isize::MAX` and it aborts. -/
theorem Refines.push (hR : Refines t v h l) (hs : 0 < t.size) (hN : 0 < N) (x : α) :
    (∃ v' h', push t v (.live x) h = .ok (v', h') ∧ Refines t v' h' (l ++ [x]) ∧
      v'.cap = (if v.len = v.cap then 2 * v.cap else v.cap) ∧ Framed v h v' h') ∨
      v.len = v.cap ∧ isizeMax < t.size * (2 * v.cap) ∧ push t v (.live x) h = .error .oom := by
  rcases hR.inv.push_spec hs hN (x := .live x) rfl with hoom | ⟨v', h', hp, hP⟩
  · exact .inr hoom
  · exact .inl ⟨v', h', hp, ⟨hP.inv, by rw [hP.abs_eq, hR.abs_eq]; simp⟩, hP.cap_eq, hP.framed⟩

theorem Refines.step_push (hR : Refines t v h l) (hs : 0 < t.size) (hN : 0 < N) (x : α) :
    Matches t v h (Op.nextCap N (.push x) v.len v.cap) (Op.step t v h (.push x))
      (Op.spec (.push x) l) := by
  rcases hR.push hs hN x with ⟨v', h', hp, hR', hc, hF⟩ | ⟨hfull, hbig, hp⟩ <;>
    simp only [Op.step, Op.spec, hp, ok_bind, error_bind]
  · exact ⟨rfl, hR', hc, hF⟩
  · exact ⟨hfull, by rwa [Op.nextCap, if_pos hfull]⟩

theorem Refines.step_pop (hR : Refines t v h l) (hs : 0 < t.size) :
    Matches t v h v.cap (Op.step t v h .pop) (Op.spec .pop l) := by
  have hI := hR.inv
  by_cases hl : v.len = 0
  · have hnil : l = [] := List.eq_nil_of_length_eq_zero (hR.len_eq ▸ hl)
    subst hnil
    simp only [Op.step, Op.spec, pop_empty hl, ok_bind]
    exact ⟨rfl, hR, rfl, framed_refl⟩
  · have hlast : v.len - 1 < l.length := by rw [← hR.len_eq]; omega
    simp only [Op.step, Op.spec, hI.pop_eq hs (Nat.pos_of_ne_zero hl), ok_bind]
    refine ⟨?_, ⟨hI.popFrom_inv, ?_⟩, popFrom_cap, framed_popFrom⟩
    · rw [hR.storage_eq hlast, List.getLast?_eq_getElem?, ← hR.len_eq,
        List.getElem?_eq_getElem hlast]
      rfl
    · rw [abs_pop (v := v) (h := h) (by simp) fun i hi => by
          rw [hI.storage_popFrom, Function.update_noteq (Nat.ne_of_lt hi)], hR.abs_eq,
        List.map_dropLast]

theorem Refines.step_len (hR : Refines t v h l) :
    Matches t v h v.cap (Op.step t v h .len) (Op.spec .len l) :=
  ⟨by rw [hR.len_eq], hR, rfl, framed_refl⟩

-- ===================================================== references and views

theorem Refines.step_get (hR : Refines t v h l) (index : Nat) :
    Matches t v h v.cap (Op.step t v h (.get index)) (Op.spec (.get index) l) := by
  have hI := hR.inv
  simp only [Op.step, Op.spec, hI.get_eq]
  by_cases hi : index < v.len
  · have hi' : index < l.length := hR.len_eq ▸ hi
    simp only [hi, if_true, ok_bind, hI.load_active (lt_of_lt_of_le hi hI.len_le_cap),
      List.getElem?_eq_getElem hi', Option.map_some', hR.storage_eq hi']
    exact ⟨rfl, hR, rfl, framed_refl⟩
  · have hi' : l.length ≤ index := by rw [← hR.len_eq]; omega
    simp only [hi, if_false, error_bind, List.getElem?_eq_none hi', Option.map_none']
    trivial

/-- Assigning a value to element `i` sets it. -/
theorem Refines.assignAt (hR : Refines t v h l) (i : Nat) (x : α) :
    Refines t (assignAt v h i (.live x)).1 (assignAt v h i (.live x)).2 (l.set i x) :=
  ⟨hR.inv.assignAt_inv rfl, by
    rw [abs_set (by simp) (hR.inv.storage_assignAt _ _), hR.abs_eq, List.map_set]⟩

theorem Refines.step_getMut (hR : Refines t v h l) (index : Nat) (x : α) :
    Matches t v h v.cap (Op.step t v h (.getMut index x)) (Op.spec (.getMut index x) l) := by
  have hI := hR.inv
  simp only [Op.step, Op.spec, SmallVec.getMut, hI.get_eq, ← hR.len_eq]
  by_cases hi : index < v.len
  · simp only [hi, if_true, ok_bind,
      hI.assign_active (lt_of_lt_of_le hi hI.len_le_cap)]
    exact ⟨rfl, hR.assignAt index x, assignAt_cap _ _, framed_assignAt _ _⟩
  · simp only [hi, if_false, error_bind]
    trivial

/-- Reading a view `[start, stop)`: exactly those elements, or a failed assertion. -/
theorem Refines.readView (hR : Refines t v h l) (hN : 0 < N) (start stop : Nat) :
    Matches t v h v.cap
      (do let xs ← readSlice t v h (← SmallVec.slice v start stop); pure (.values xs, v, h))
      (if start ≤ stop ∧ stop ≤ l.length then
        some (.values (((l.drop start).take (stop - start)).map .live), l)
      else none) := by
  have hI := hR.inv
  rw [hI.slice_eq hN, ← hR.len_eq]
  by_cases h1 : start ≤ stop
  · by_cases h2 : stop ≤ v.len
    · simp only [h1, h2, not_true_eq_false, if_false, and_self, if_true, ok_bind,
        hI.readSlice_active (show start + (stop - start) ≤ v.cap by
          have := hI.len_le_cap; omega)]
      refine ⟨?_, hR, rfl, framed_refl⟩
      rw [← abs_drop_take h2, hR.abs_eq, ← List.map_drop, ← List.map_take]
    · simp only [h1, h2, not_true_eq_false, not_false_eq_true, if_false, if_true, and_false,
        error_bind]
      trivial
  · simp only [h1, not_false_eq_true, if_true, false_and, if_false, error_bind]
    trivial

/-- Assigning through `view[j]` of a view `[start, stop)`: element `start + j` set, or a failed
assertion or bounds check. -/
theorem Refines.assignView (hR : Refines t v h l) (hN : 0 < N) (start stop j : Nat) (x : α) :
    Matches t v h v.cap
      (do let (v, h) ← assignSlice t v h (← SmallVec.slice v start stop) j x; pure (.unit, v, h))
      (if start ≤ stop ∧ stop ≤ l.length ∧ j < stop - start then
        some (.unit, l.set (start + j) x)
      else none) := by
  have hI := hR.inv
  rw [hI.slice_eq hN, ← hR.len_eq]
  by_cases h1 : start ≤ stop
  · by_cases h2 : stop ≤ v.len
    · by_cases h3 : j < stop - start
      · simp only [h1, h2, h3, not_true_eq_false, if_false, and_self, if_true, ok_bind,
          assignSlice_eq, Ptr.offset,
          hI.assign_active (show start + j < v.cap by have := hI.len_le_cap; omega)]
        exact ⟨rfl, hR.assignAt (start + j) x, assignAt_cap _ _, framed_assignAt _ _⟩
      · simp only [h1, h2, h3, not_true_eq_false, if_false, and_false, ok_bind, assignSlice_eq,
          error_bind]
        trivial
    · simp only [h1, h2, not_true_eq_false, not_false_eq_true, if_false, if_true, false_and,
        and_false, error_bind]
      trivial
  · simp only [h1, not_false_eq_true, if_true, false_and, if_false, error_bind]
    trivial

theorem Refines.step_slice (hR : Refines t v h l) (hN : 0 < N) (start stop : Nat) :
    Matches t v h v.cap (Op.step t v h (.slice start stop)) (Op.spec (.slice start stop) l) :=
  hR.readView hN start stop

theorem Refines.step_asSlice (hR : Refines t v h l) (hN : 0 < N) :
    Matches t v h v.cap (Op.step t v h .asSlice) (Op.spec .asSlice l) := by
  have e : Op.spec (.asSlice : Op α) l = if 0 ≤ v.len ∧ v.len ≤ l.length then
      some (.values (((l.drop 0).take (v.len - 0)).map .live), l) else none := by
    simp [Op.spec, hR.len_eq]
  rw [e]
  exact hR.readView hN 0 v.len

theorem Refines.step_mutSlice (hR : Refines t v h l) (hN : 0 < N) (start stop j : Nat) (x : α) :
    Matches t v h v.cap (Op.step t v h (.mutSlice start stop j x))
      (Op.spec (.mutSlice start stop j x) l) :=
  hR.assignView hN start stop j x

theorem Refines.step_asMutSlice (hR : Refines t v h l) (hN : 0 < N) (j : Nat) (x : α) :
    Matches t v h v.cap (Op.step t v h (.asMutSlice j x)) (Op.spec (.asMutSlice j x) l) := by
  have e : Op.spec (.asMutSlice j x) l = if 0 ≤ v.len ∧ v.len ≤ l.length ∧ j < v.len - 0 then
      some (.unit, l.set (0 + j) x) else none := by
    simp [Op.spec, hR.len_eq]
  rw [e]
  exact hR.assignView hN 0 v.len j x

theorem Refines.step_mutSliceFrom (hR : Refines t v h l) (hN : 0 < N) (start j : Nat) (x : α) :
    Matches t v h v.cap (Op.step t v h (.mutSliceFrom start j x))
      (Op.spec (.mutSliceFrom start j x) l) := by
  have e : Op.spec (.mutSliceFrom start j x) l = if start ≤ v.len ∧ v.len ≤ l.length ∧
      j < v.len - start then some (.unit, l.set (start + j) x) else none := by
    simp [Op.spec, hR.len_eq]
  rw [e]
  exact hR.assignView hN start v.len j x

-- ================================================================ iterators

theorem Refines.step_iter (hR : Refines t v h l) (hs : 0 < t.size) (hN : 0 < N) :
    Matches t v h v.cap (Op.step t v h .iter) (Op.spec .iter l) := by
  simp only [Op.step, Op.spec, hR.inv.iter_eq hN, ok_bind, hR.inv.forEach_reads hs]
  exact ⟨by rw [hR.abs_eq], hR, rfl, framed_refl⟩

theorem Refines.step_mutIter (hR : Refines t v h l) (hs : 0 < t.size) (hN : 0 < N) (k : Nat)
    (x : α) : Matches t v h v.cap (Op.step t v h (.mutIter k x)) (Op.spec (.mutIter k x) l) := by
  have hI := hR.inv
  simp only [Op.step, Op.spec, SmallVec.mutIter, hI.iter_eq hN, ok_bind,
    nth_at hs k 0 ⟨activeRegion v, 0, v.len * t.size⟩ (Nat.zero_mul _).symm rfl (Nat.zero_le _),
    Nat.zero_add, ← hR.len_eq]
  by_cases hk : k < v.len
  · simp only [hk, if_true, hI.assign_active (lt_of_lt_of_le hk hI.len_le_cap), ok_bind]
    exact ⟨rfl, hR.assignAt k x, assignAt_cap _ _, framed_assignAt _ _⟩
  · simp only [hk, if_false]
    exact ⟨rfl, hR, rfl, framed_refl⟩

theorem Refines.step_moveIter (hR : Refines t v h l) (hs : 0 < t.size) (hN : 0 < N) (k : Nat) :
    Matches t v h N (Op.step t v h (.moveIter k)) (Op.spec (.moveIter k) l) := by
  have hI := hR.inv
  set it : SmallVecMoveIterator :=
    ⟨if N < v.cap then some v.ptr else none, N, ⟨activeRegion v, 0, v.len * t.size⟩⟩ with hit
  obtain ⟨w1, h1, ht, hW1, hl1, hc1, hft, -⟩ := Walk.take hs k 0 it _ h hI.walk (by simp [hit])
    (Nat.zero_le _)
  obtain ⟨w2, h2, hd, hl2, hc2, -, hdead, hfd, -⟩ := hW1.drop hs { it with iter := _ } rfl
    (by omega) hI.moveIter_allocation
  simp only [Op.step, Op.spec, hI.moveIter_eq hN, ← hit, ok_bind, ht, hd]
  have hfit : N * t.size ≤ isizeMax :=
    le_trans (Nat.mul_le_mul_right _ hI.inline_le_cap) hI.fits
  refine ⟨?_, (inv_of_empty (by simp [hl2, hl1]) (by simp [hc2, hc1]) hfit).refines_nil
    (by simp [hl2, hl1]), by simp [hc2, hc1],
    ⟨fun id _ hne => (hfd id hne).trans (hft id hne), .inr (.inl (by
      simp [activeRegion, hc2, hc1])), fun id b hb hl => ?_⟩⟩
  · rw [List.map_take, ← hR.abs_eq, abs, ← List.map_take, List.take_range, List.range_eq_range',
      Nat.sub_zero]
  · -- the iterator's drop released the old buffer; every other block is as it was
    by_cases ha : activeRegion v = .heap id
    · obtain ⟨b', hb', hl'⟩ := hdead id (hI.allocation_of_active ha)
      rw [hb] at hb'; cases hb'; simp [hl] at hl'
    · exact .inr ⟨Heap.lt_next (by rwa [hfd id ha, hft id ha] at hb), ha⟩

-- ===================================================================== runs

/-- Every operation follows the list model, and leaves the capacity of the growth policy. -/
theorem Refines.step (hR : Refines t v h l) (hs : 0 < t.size) (hN : 0 < N) (op : Op α) :
    Matches t v h (op.nextCap N v.len v.cap) (op.step t v h) (op.spec l) := by
  cases op with
  | push x | vecPush x => exact hR.step_push hs hN x
  | pop => exact hR.step_pop hs
  | len | vecLen => exact hR.step_len
  | get index => exact hR.step_get index
  | getMut index x => exact hR.step_getMut index x
  | slice start stop => exact hR.step_slice hN start stop
  | asSlice => exact hR.step_asSlice hN
  | mutSlice start stop j x | vecMutSlice start stop j x =>
    exact hR.step_mutSlice hN start stop j x
  | asMutSlice j x => exact hR.step_asMutSlice hN j x
  | mutSliceFrom start j x | vecMutSliceFrom start j x => exact hR.step_mutSliceFrom hN start j x
  | iter => exact hR.step_iter hs hN
  | mutIter k x => exact hR.step_mutIter hs hN k x
  | moveIter k => exact hR.step_moveIter hs hN k

/-- An operation that returns: the list model returns the same result, and the new state
implements its new list. -/
theorem Refines.step_ok (hR : Refines t v h l) (hs : 0 < t.size) (hN : 0 < N) {op : Op α}
    {r : Res α} {v' : SmallVector N α} {h' : Heap α} (hstep : op.step t v h = .ok (r, v', h')) :
    ∃ l', op.spec l = some (r, l') ∧ Refines t v' h' l' := by
  have hm := hR.step hs hN op
  rw [hstep] at hm
  rcases hspec : op.spec l with _ | ⟨r', l'⟩ <;> rw [hspec] at hm
  · exact hm.elim
  · obtain ⟨rfl, hR', -, -⟩ := hm
    exact ⟨l', rfl, hR'⟩

/-- An abort after one returning step that matches the list model's. -/
theorem Aborts.cons {op : Op α} {ops : List (Op α)} {r : Res α} {v' : SmallVector N α}
    {h' : Heap α} {l' : List α} (hstep : op.step t v h = .ok (r, v', h'))
    (hspec : op.spec l = some (r, l')) (ha : Aborts t ops v' h' l') :
    Aborts t (op :: ops) v h l := by
  obtain ⟨pre, o, post, rs, w, hw, lw, rfl, hpush, hrun, hsp, hrest⟩ := ha
  exact ⟨op :: pre, o, post, r :: rs, w, hw, lw, rfl, hpush,
    by simp only [run, hstep, hrun, ok_bind]; rfl, by simp [Op.specRun, hspec, hsp], hrest⟩

/-- An operation that aborts, from a state that implements `l`, is a push into a full container
whose doubled request is above `isize::MAX`: no other operation allocates. -/
theorem Refines.aborts (hR : Refines t v h l) (hs : 0 < t.size) (hN : 0 < N) {op : Op α}
    (ops : List (Op α)) (hstep : op.step t v h = .error .oom) : Aborts t (op :: ops) v h l := by
  have hm := hR.step hs hN op
  rw [hstep] at hm
  rcases hspec : op.spec l with _ | ⟨r, l'⟩ <;> rw [hspec] at hm
  · exact hm.elim
  obtain ⟨hfull, hbig⟩ := hm
  have hfits : t.size * v.cap ≤ isizeMax := by rw [Nat.mul_comm]; exact hR.inv.fits
  obtain ⟨x, hx⟩ : ∃ x, op = .push x ∨ op = .vecPush x := by
    cases op with
    | push x => exact ⟨x, .inl rfl⟩
    | vecPush x => exact ⟨x, .inr rfl⟩
    | moveIter k =>
      exact absurd hbig (Nat.not_lt.mpr ((Nat.mul_le_mul_left _ hR.inv.inline_le_cap).trans hfits))
    | _ => exact absurd hbig (Nat.not_lt.mpr hfits)
  have hcap : op.nextCap N v.len v.cap = 2 * v.cap := by
    rcases hx with rfl | rfl <;> simp [Op.nextCap, hfull]
  exact ⟨[], op, ops, [], v, h, l, rfl, ⟨x, hx⟩, rfl, rfl, hR, hfull, hcap ▸ hbig, hstep⟩

/-- The rest of a run after one matching step. -/
theorem RunMatches.cons {op : Op α} {ops : List (Op α)} {r : Res α} {v' : SmallVector N α}
    {h' : Heap α} {l' : List α} (hstep : op.step t v h = .ok (r, v', h'))
    (hspec : op.spec l = some (r, l')) {x : Except Fault (List (Res α) × SmallVector N α × Heap α)}
    {y : Option (List (Res α) × List α)} (hm : RunMatches t ops v' h' l' x y) :
    RunMatches t (op :: ops) v h l (do let (rs, v, h) ← x; pure (r :: rs, v, h))
      (do let (rs, l) ← y; pure (r :: rs, l)) := by
  rcases x with (_ | _ | _) | ⟨rs, v, h⟩ <;> rcases y with _ | ⟨rs', l⟩ <;>
    first | exact hm.elim | trivial | exact Aborts.cons hstep hspec hm | skip
  exact ⟨by rw [hm.1], hm.2⟩

/-- Every run from a state that implements `l` follows the list model. -/
theorem run_refines (hs : 0 < t.size) (hN : 0 < N) :
    ∀ (ops : List (Op α)) (v : SmallVector N α) (h : Heap α) (l : List α), Refines t v h l →
      RunMatches t ops v h l (run t ops v h) (Op.specRun ops l)
  | [], _, _, _, hR => ⟨rfl, hR⟩
  | op :: ops, v, h, l, hR => by
    have hm := hR.step hs hN op
    simp only [run, Op.specRun]
    rcases hx : op.step t v h with (_ | _ | _) | ⟨r, v', h'⟩ <;>
      rcases hy : op.spec l with _ | ⟨r', l'⟩ <;> rw [hx, hy] at hm <;>
      first | exact hm.elim | trivial | exact hR.aborts hs hN ops hx | skip
    obtain ⟨rfl, hR', -, -⟩ := hm
    exact RunMatches.cons hx hy (run_refines hs hN ops v' h' l' hR')

/-- From `new()`, for a sized `T` whose inline array fits the address space, every run of
operations follows the list model: each result and the elements after each operation are the
list model's, the code fails exactly where the list model does, it never leaves live storage,
and it stops otherwise only at a push into a full container whose doubled request is above
`isize::MAX`, which aborts. -/
theorem list_model_refinement (hs : 0 < t.size) (hN : 0 < N) (hfit : N * t.size ≤ isizeMax)
    (ops : List (Op α)) (h : Heap α) :
    RunMatches t ops SmallVector.new h []
      (run t ops (SmallVector.new : SmallVector N α) h) (Op.specRun ops []) :=
  run_refines hs hN ops _ h [] ((inv_new hfit).refines_nil rfl)

/-- An instance: `SmallVec1<u32>`, pushing past the inline array, popping, and reading. -/
theorem list_model_refinement_u32 :
    0 < Layout.u32.size ∧ 0 < 1 ∧ 1 * Layout.u32.size ≤ isizeMax ∧
      RunMatches Layout.u32 [.push 1, .push 2, .pop, .get 0] SmallVector.new Heap.empty []
        (run Layout.u32 [.push 1, .push 2, .pop, .get 0] (SmallVector.new : SmallVec1 Nat)
          Heap.empty)
        (Op.specRun [.push 1, .push 2, .pop, .get 0] []) :=
  ⟨by decide, by decide, by decide,
    list_model_refinement (by decide) (by decide) (by decide) _ _⟩

end Smallvec
