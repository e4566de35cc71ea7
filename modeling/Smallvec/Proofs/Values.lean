import Smallvec.Proofs.Move

/-!
Where the values go: the destructor runs the code records, against the list model's account
of the values it owns, for a sized `T` and an instance with an inline array.

# The list model's account

A vector owns its elements. What one operation puts in, together with the list before it, is
what it hands out, what it destroys and the list after it, up to order (`Op.placed_perm`); over a
run (`Op.collectRun_perm`) every value placed since `new()` is, exactly once, handed out,
destroyed, or still an element.

# The code's ledger

`Shape` says once what a returning operation does to the state: nothing, one assignment over an
element, a pop, a push, or a `move_iter`, which empties the container back into the inline
array. `Refines.step_shape` finds the shape of every operation, from the method specs of
Proofs/Methods.lean and Proofs/Iterators.lean; the two facts the ledger needs then follow from
the shape alone. The destructor runs a step records are the values the list model destroys, in
order (`Shape.log`), and no value is left in the inline array outside the elements
(`Shape.clean`, `InlineClean`). The second matters at the end: the container's drop glue runs
`T`'s destructor on every inline slot.

# Through Drop

`Refines.drop_destroys`: from a state with a clean inline array, `Drop`'s destructor runs are
the elements, in order, and then one run on garbage for each inline slot an inline `pop` left
holding `mem::uninitialized()` (`garbageRuns`, Proofs/Drop.lean). With the run lemma
(`run_ledger`) and the list model's account this gives `values_conserved`: every value placed
since `new()` is handed out or destroyed exactly once, and the destructor runs that destroy no
value are exactly those garbage runs, at the end. Every reachable state, clones included, has a
clean inline array (`Reachable.inlineClean`), so dropping any of them destroys exactly its
elements besides its garbage (`reachable_drop_destroys_elements`); and `push_all_move` destroys
no value, its only destructor runs being on `other`'s garbage (`Inv.pushAllMove_moves_values`).
-/

namespace Smallvec

variable {α : Type} {N : Nat} {t : Layout} {v v' : SmallVector N α} {h h' : Heap α}
  {l : List α}

open SmallVecPrivate SmallVec
open scoped List

-- ===================================================== the list model's account

/-- Setting element `i` swaps the old element out for the new one. -/
theorem perm_cons_set {i : Nat} (hi : i < l.length) (x : α) : x :: l ~ l[i] :: l.set i x := by
  rw [List.set_eq_take_append_cons_drop, if_pos hi]
  conv_lhs => rw [← List.take_append_drop i l, List.drop_eq_getElem_cons hi]
  calc x :: (l.take i ++ l[i] :: l.drop (i + 1))
      ~ x :: l[i] :: (l.take i ++ l.drop (i + 1)) := List.perm_middle.cons x
    _ ~ l[i] :: x :: (l.take i ++ l.drop (i + 1)) := List.Perm.swap _ _ _
    _ ~ l[i] :: (l.take i ++ x :: l.drop (i + 1)) := List.perm_middle.symm.cons _

theorem perm_set {i : Nat} (hi : i < l.length) (x : α) :
    [x] ++ l ~ [] ++ l[i]?.toList ++ l.set i x := by
  simpa [List.getElem?_eq_getElem hi] using perm_cons_set hi x

/-- One operation the list model lets through: the values it places, with the list before, are
the values it hands out, those it destroys, and the list after. -/
theorem Op.placed_perm {op : Op α} {r : Res α} {l' : List α} (hs : op.spec l = some (r, l')) :
    op.placed l ++ l ~ op.taken l ++ op.discarded l ++ l' := by
  cases op with
  | push x | vecPush x => cases hs; exact List.perm_append_comm
  | pop =>
    cases hs
    rcases List.eq_nil_or_concat l with rfl | ⟨L, b, rfl⟩
    · rfl
    · simp [Op.placed, Op.taken, Op.discarded]
  | len | vecLen | asSlice | iter => cases hs; rfl
  | get index =>
    obtain ⟨a, -, he⟩ := Option.map_eq_some'.mp hs
    cases he; rfl
  | slice start stop =>
    simp only [Op.spec] at hs
    split_ifs at hs; cases hs; rfl
  | getMut _ x | asMutSlice _ x | mutSlice _ _ _ x | vecMutSlice _ _ _ x | mutSliceFrom _ _ x
  | vecMutSliceFrom _ _ x =>
    simp only [Op.spec] at hs
    split_ifs at hs with hi; cases hs; exact perm_set (by omega) x
  | mutIter k x =>
    cases hs
    by_cases hk : k < l.length
    · simpa [Op.placed, Op.taken, Op.discarded, hk, List.getElem?_eq_getElem hk] using
        perm_cons_set hk x
    · simp [Op.placed, Op.taken, Op.discarded, hk, List.getElem?_eq_none (Nat.le_of_not_lt hk)]
  | moveIter k => cases hs; simp [Op.placed, Op.taken, Op.discarded]

/-- A run of the list model: every value placed, with the list it started from, is handed out,
destroyed, or in the list it ends with, each exactly once. -/
theorem Op.collectRun_perm : ∀ (ops : List (Op α)) (l : List α) {rs : List (Res α)} {l' : List α},
    Op.specRun ops l = some (rs, l') →
      collectRun placed ops l ++ l ~ collectRun taken ops l ++ collectRun discarded ops l ++ l'
  | [], l, _, _, hs => by cases hs; rfl
  | op :: ops, l, _, _, hs => by
    obtain ⟨⟨r, l1⟩, h1, hrest⟩ := Option.bind_eq_some.mp hs
    obtain ⟨⟨rs, l2⟩, h2, hq⟩ := Option.bind_eq_some.mp hrest
    obtain ⟨-, rfl⟩ := Prod.mk.inj (Option.some.inj hq)
    have e1 := Multiset.coe_eq_coe.mpr (Op.placed_perm h1)
    have e2 := Multiset.coe_eq_coe.mpr (Op.collectRun_perm ops l1 h2)
    simp only [collectRun, h1, ← Multiset.coe_eq_coe]
    simp only [← Multiset.coe_add] at e1 e2 ⊢
    calc (↑(placed op l) + ↑(collectRun placed ops l1) + ↑l : Multiset α)
        = ↑(collectRun placed ops l1) + (↑(placed op l) + ↑l) := by abel
      _ = ↑(taken op l) + ↑(discarded op l) + (↑(collectRun placed ops l1) + ↑l1) := by
        rw [e1]; abel
      _ = _ := by rw [e2]; abel

-- ================================================================ the shapes

/-- What a returning operation does to the state, each with the values the list model says it
destroys: nothing; an assignment over element `i`; a pop; a push; or a `move_iter`, which
leaves the container empty and inline with its inline elements zeroed, and destroys the values
it did not hand out. -/
inductive Shape (t : Layout) (v : SmallVector N α) (h : Heap α) (l : List α) :
    List α → SmallVector N α → Heap α → Prop
  | same : Shape t v h l [] v h
  | assign {i : Nat} (hi : i < l.length) (x : α) :
      Shape t v h l l[i]?.toList (assignAt v h i (.live x)).1 (assignAt v h i (.live x)).2
  | pop (hl : 0 < v.len) : Shape t v h l [] (popFrom v h).1 (popFrom v h).2
  | push {x : α} {v' : SmallVector N α} {h' : Heap α} (hP : Pushed t v h (.live x) v' h') :
      Shape t v h l [] v' h'
  | move {ds : List α} {v' : SmallVector N α} {h' : Heap α} (hl : v'.len = 0) (hc : v'.cap = N)
      (hd : v'.data =
        if activeRegion v = .inline then writeRange v.data 0 v.len fun _ => .zeroed else v.data)
      (hlog : Appends h h' (ds.map .destroy)) : Shape t v h l ds v' h'

/-- The destructor runs of a step are the values the list model destroys, in order. -/
theorem Shape.log (hR : Refines t v h l) {ds : List α} :
    Shape t v h l ds v' h' → Appends h h' (ds.map .destroy)
  | .same => appends_refl h
  | .assign (i := i) hi x => by
    simpa [hR.storage_eq hi, Slot.dropGlue, List.getElem?_eq_getElem hi] using
      appends_assignAt (v := v) (h := h) i (.live x)
  | .pop _ => appends_of_log_eq popFrom_log
  | .push hP => hP.log
  | .move _ _ _ hlog => hlog

/-- Once `move_iter` has zeroed the inline elements, no inline slot holds a value. -/
theorem InlineClean.moved (hC : InlineClean v) (hI : Inv t v h) {w : SmallVector N α}
    (hd : w.data =
      if activeRegion v = .inline then writeRange v.data 0 v.len (fun _ => .zeroed) else v.data)
    {j : Nat} (hj : j < N) : (w.data j).isLive = false := by
  rw [hd]
  split_ifs with ha
  · by_cases hjl : j < v.len
    · simp [writeRange, hjl, Slot.isLive]
    · simpa [writeRange, hjl] using hC j hj (.inr (by omega))
  · exact hC j hj (.inl (by by_contra hs; exact ha (hI.activeRegion_eq_inline.mpr hs)))

/-- A step leaves no value in the inline array outside the elements. -/
theorem Shape.clean (hR : Refines t v h l) (hC : InlineClean v) {ds : List α} :
    Shape t v h l ds v' h' → InlineClean v'
  | .same => hC
  | .assign hi x => hC.assignAt hR.inv (hR.len_eq ▸ hi) _
  | .pop hl => hC.popFrom hR.inv hl
  | .push hP => hP.clean hC
  | .move _ _ hd _ => fun _ hj _ => hC.moved hR.inv hd hj

-- ======================================================= the shape of each step

/-- A step that reads, and returns the state it started from. -/
theorem state_of_reads {β γ : Type} {m : Except Fault β} {g : β → Except Fault γ}
    {f : γ → Res α} {r : Res α}
    (hm : (m >>= fun b => g b >>= fun c => pure (f c, v, h)) = .ok (r, v', h')) :
    v' = v ∧ h' = h := by
  obtain ⟨b, -, hb⟩ := bind_eq_ok.mp hm
  obtain ⟨c, -, hc⟩ := bind_eq_ok.mp hb
  cases hc; exact ⟨rfl, rfl⟩

/-- An assignment to element `i` that the state machine performs as a step. -/
theorem shape_assign {i : Nat} (hR : Refines t v h l) (hi : i < v.len) (x : α)
    {r : Res α} {e : Except Fault (Res α × SmallVector N α × Heap α)}
    (he : e = .ok (.unit, (assignAt v h i (.live x)).1, (assignAt v h i (.live x)).2))
    (hstep : e = .ok (r, v', h')) : Shape t v h l l[i]?.toList v' h' := by
  rw [he] at hstep; cases hstep; exact .assign (hR.len_eq ▸ hi) x

theorem Refines.shape_push (hR : Refines t v h l) (hs : 0 < t.size) (hN : 0 < N) (x : α)
    {r : Res α} (hstep : Op.step t v h (.push x) = .ok (r, v', h')) :
    Shape t v h l [] v' h' := by
  rcases hR.inv.push_spec hs hN (x := .live x) rfl with ⟨-, -, hp⟩ | ⟨v1, h1, hp, hP⟩ <;>
    simp only [Op.step, hp, ok_bind, error_bind] at hstep
  · cases hstep
  · cases hstep; exact .push hP

theorem Refines.shape_pop (hR : Refines t v h l) (hs : 0 < t.size) {r : Res α}
    (hstep : Op.step t v h .pop = .ok (r, v', h')) : Shape t v h l [] v' h' := by
  by_cases hl : v.len = 0
  · simp only [Op.step, pop_empty hl, ok_bind] at hstep
    cases hstep; exact .same
  · simp only [Op.step, hR.inv.pop_eq hs (Nat.pos_of_ne_zero hl), ok_bind] at hstep
    cases hstep; exact .pop (Nat.pos_of_ne_zero hl)

theorem Refines.shape_getMut (hR : Refines t v h l) (index : Nat) (x : α) {r : Res α}
    (hstep : Op.step t v h (.getMut index x) = .ok (r, v', h')) :
    Shape t v h l l[index]?.toList v' h' := by
  have hI := hR.inv
  by_cases hi : index < v.len
  · refine shape_assign hR hi x ?_ hstep
    simp only [Op.step, SmallVec.getMut, hI.get_eq, hi, if_true, ok_bind,
      hI.assign_active (lt_of_lt_of_le hi hI.len_le_cap)]
    rfl
  · simp [Op.step, SmallVec.getMut, hI.get_eq, hi] at hstep

/-- Assigning through `view[j]` of a view `[start, stop)` is the assignment to element
`start + j`. -/
theorem Refines.shape_assignView (hR : Refines t v h l) (hN : 0 < N) {start stop j : Nat} {x : α}
    {r : Res α} (hstep : (do
      let (v, h) ← assignSlice t v h (← SmallVec.slice v start stop) j x
      pure (Res.unit, v, h)) = .ok (r, v', h')) :
    Shape t v h l l[start + j]?.toList v' h' := by
  have hI := hR.inv
  rw [hI.slice_eq hN] at hstep
  by_cases h1 : start ≤ stop
  · by_cases h2 : stop ≤ v.len
    · by_cases h3 : j < stop - start
      · refine shape_assign hR (by omega) x ?_ hstep
        simp only [h1, h2, not_true_eq_false, if_false, ok_bind, assignSlice_eq, h3, if_true,
          Ptr.offset, hI.assign_active (show start + j < v.cap by have := hI.len_le_cap; omega)]
        rfl
      · simp [h1, h2, h3, assignSlice_eq] at hstep
    · simp [h1, h2] at hstep
  · simp [h1] at hstep

theorem Refines.shape_mutIter (hR : Refines t v h l) (hs : 0 < t.size) (hN : 0 < N) (k : Nat)
    (x : α) {r : Res α} (hstep : Op.step t v h (.mutIter k x) = .ok (r, v', h')) :
    Shape t v h l l[k]?.toList v' h' := by
  have hI := hR.inv
  simp only [Op.step, SmallVec.mutIter, hI.iter_eq hN, ok_bind,
    nth_at hs k 0 ⟨activeRegion v, 0, v.len * t.size⟩ (Nat.zero_mul _).symm rfl (Nat.zero_le _),
    Nat.zero_add] at hstep
  by_cases hk : k < v.len
  · refine shape_assign hR hk x ?_ hstep
    simp only [hk, if_true, hI.assign_active (lt_of_lt_of_le hk hI.len_le_cap), ok_bind]
    rfl
  · simp only [hk, if_false] at hstep
    cases hstep
    rw [List.getElem?_eq_none (by rw [← hR.len_eq]; omega)]
    exact .same

/-- Two fills of zeros, one after the other. -/
theorem writeRange_writeRange (s : Nat → Slot α) (i a b : Nat) (y : Slot α) :
    writeRange (writeRange s i a fun _ => y) (i + a) b (fun _ => y)
      = writeRange s i (a + b) fun _ => y := by
  funext j
  simp only [writeRange]
  split_ifs <;> first | rfl | omega

/-- The drop glue of the elements from `m` on destroys the values from `m` on, in order. -/
theorem Refines.dropGlue_from (hR : Refines t v h l) (m : Nat) :
    (List.range' m (v.len - m)).flatMap (fun j => (storage v h j).dropGlue)
      = (l.drop m).map .destroy := by
  have hslots : (List.range' m (v.len - m)).map (storage v h) = (l.drop m).map .live := by
    have : ((abs v h).drop m).take (v.len - m)
        = (List.range (v.len - m)).map fun j => storage v h (m + j) := abs_drop_take (le_refl _)
    rw [List.take_of_length_le (by simp), hR.abs_eq, ← List.map_drop] at this
    rw [List.range'_eq_map_range, List.map_map]
    exact this.symm
  rw [← List.flatMap_map, hslots, List.flatMap_map, List.map_eq_flatMap]
  rfl

theorem Refines.shape_moveIter (hR : Refines t v h l) (hs : 0 < t.size) (hN : 0 < N) (k : Nat)
    {r : Res α} (hstep : Op.step t v h (.moveIter k) = .ok (r, v', h')) :
    Shape t v h l (l.drop k) v' h' := by
  have hI := hR.inv
  set it : SmallVecMoveIterator :=
    ⟨if N < v.cap then some v.ptr else none, N, ⟨activeRegion v, 0, v.len * t.size⟩⟩ with hit
  obtain ⟨w1, h1, ht, hW1, hl1, hc1, -, hd1, hlog1⟩ :=
    Walk.take hs k 0 it _ h hI.walk (by simp [hit]) (Nat.zero_le _)
  obtain ⟨w2, h2, hd, hl2, hc2, -, -, -, hd2, hlog2⟩ := hW1.drop hs { it with iter := _ } rfl
    (by omega) hI.moveIter_allocation
  simp only [Op.step, hI.moveIter_eq hN, ← hit, ok_bind, ht, hd] at hstep
  cases hstep
  have hm : 0 + min k (v.len - 0) = min k v.len := by omega
  refine .move (by simp [hl2, hl1]) (by simp [hc2, hc1]) ?_ ?_
  · rw [hd2, hd1]
    split_ifs
    · rw [writeRange_writeRange]
      simp only [Nat.sub_zero, Nat.zero_add, Nat.add_sub_cancel' (Nat.min_le_right k v.len),
        setLen_data, setCap_data]
    · rfl
  · have hdrop : l.drop (min k v.len) = l.drop k := by
      rcases Nat.le_total k v.len with hk | hk
      · rw [Nat.min_eq_left hk]
      · rw [Nat.min_eq_right hk, List.drop_eq_nil_of_le (by rw [← hR.len_eq]),
          List.drop_eq_nil_of_le (by rw [← hR.len_eq]; exact hk)]
    simpa [hm, hR.dropGlue_from, hdrop] using (appends_of_log_eq hlog1).trans hlog2

/-- Every returning operation has a shape, with the values the list model destroys. -/
theorem Refines.step_shape (hR : Refines t v h l) (hs : 0 < t.size) (hN : 0 < N) {op : Op α}
    {r : Res α} (hstep : op.step t v h = .ok (r, v', h')) :
    Shape t v h l (op.discarded l) v' h' := by
  cases op with
  | push x | vecPush x => exact hR.shape_push hs hN x hstep
  | pop => exact hR.shape_pop hs hstep
  | len | vecLen => cases hstep; exact .same
  | get _ | slice _ _ | asSlice | iter =>
    obtain ⟨rfl, rfl⟩ := state_of_reads hstep; exact .same
  | getMut index x => exact hR.shape_getMut index x hstep
  | mutSlice _ _ _ _ | vecMutSlice _ _ _ _ | mutSliceFrom _ _ _ | vecMutSliceFrom _ _ _ =>
    exact hR.shape_assignView hN hstep
  | asMutSlice _ _ => simpa using hR.shape_assignView hN hstep
  | mutIter k x => exact hR.shape_mutIter hs hN k x hstep
  | moveIter k => exact hR.shape_moveIter hs hN k hstep

-- ===================================================================== runs

/-- One returning operation from a state that implements `l` with a clean inline array: the
list model returns too, the new state implements its list with a clean inline array, and the
destructor runs recorded are the values the list model destroys, in order. -/
theorem Refines.step_ledger (hR : Refines t v h l) (hC : InlineClean v) (hs : 0 < t.size)
    (hN : 0 < N) {op : Op α} {r : Res α} (hstep : op.step t v h = .ok (r, v', h')) :
    ∃ l', op.spec l = some (r, l') ∧ Refines t v' h' l' ∧ InlineClean v' ∧
      Appends h h' ((op.discarded l).map .destroy) := by
  obtain ⟨l', hspec, hR'⟩ := hR.step_ok hs hN hstep
  have hS := hR.step_shape hs hN hstep
  exact ⟨l', hspec, hR', hS.clean hR hC, hS.log hR⟩

/-- Every returning run from a state that implements `l` with a clean inline array. -/
theorem run_ledger (hs : 0 < t.size) (hN : 0 < N) :
    ∀ (ops : List (Op α)) (v : SmallVector N α) (h : Heap α) (l : List α) {rs : List (Res α)}
      {v' : SmallVector N α} {h' : Heap α}, Refines t v h l → InlineClean v →
      run t ops v h = .ok (rs, v', h') →
      ∃ l', Op.specRun ops l = some (rs, l') ∧ Refines t v' h' l' ∧ InlineClean v' ∧
        Appends h h' ((Op.collectRun Op.discarded ops l).map .destroy)
  | [], _, _, l, _, _, _, hR, hC, hrun => by cases hrun; exact ⟨l, rfl, hR, hC, appends_refl _⟩
  | op :: ops, v, h, l, _, _, _, hR, hC, hrun => by
    obtain ⟨⟨r, v1, h1⟩, hs1, hrest⟩ := bind_eq_ok.mp hrun
    obtain ⟨⟨rs, v2, h2⟩, hr2, hq⟩ := bind_eq_ok.mp hrest
    cases hq
    obtain ⟨l1, hsp1, hR1, hC1, hA1⟩ := hR.step_ledger hC hs hN hs1
    obtain ⟨l2, hsp2, hR2, hC2, hA2⟩ := run_ledger hs hN ops v1 h1 l1 hR1 hC1 hr2
    refine ⟨l2, by simp [Op.specRun, hsp1, hsp2], hR2, hC2, ?_⟩
    simpa [Op.collectRun, hsp1] using hA1.trans hA2

-- ================================================================ Drop

/-- From a state that implements `l` with a clean inline array, `Drop` returns, and its
destructor runs are the values of `l`, in order, then one run on garbage for each inline slot
that holds `mem::uninitialized()`. -/
theorem Refines.drop_destroys (hR : Refines t v h l) (hC : InlineClean v) :
    ∃ h' es, SmallVector.drop t v h = .ok h' ∧ h'.log = h.log ++ es ∧
      es.filter Event.isDestructor
        = l.map .destroy ++ List.replicate (garbageRuns v) .destroyUninit := by
  have hI := hR.inv
  have hvals : (abs v h).flatMap Slot.dropGlue = l.map .destroy := by
    rw [hR.abs_eq, List.flatMap_map, List.map_eq_flatMap]
    rfl
  by_cases hsp : N < v.cap
  · obtain ⟨id, b, h', -, -, hd, hlog, -⟩ := hI.drop_spilled_releases hsp
    have hglue := flatMap_dropGlue_of_dead (f := v.data) fun j hj =>
      hC j (List.mem_range.mp hj) (.inl hsp)
    refine ⟨h', _, hd, by rw [hlog, List.append_assoc, List.append_assoc], ?_⟩
    rw [hvals, hglue]
    cases t.ownsManaged <;>
      simp [List.filter_append, List.filter_map, Function.comp_def, Event.isDestructor, garbageRuns]
  · refine ⟨_, _, drop_inline hsp, rfl, ?_⟩
    have hlen : v.len ≤ N := by have := hI.len_le_cap; have := hI.cap_of_inline hsp; omega
    have hsplit : List.range N = List.range v.len ++ (List.range (N - v.len)).map (v.len + ·) := by
      rw [← List.range_add, Nat.add_sub_cancel' hlen]
    have hslots : ∀ j < v.len, v.data j = storage v h j := fun j _ => by
      simp [storage, activeRegion, hsp, regionSlots]
    have hdata : (List.range v.len).map v.data = abs v h :=
      List.map_congr_left fun j hj => hslots j (List.mem_range.mp hj)
    have hdead : ∀ j ∈ (List.range (N - v.len)).map (v.len + ·), (v.data j).isLive = false := by
      intro j hj
      obtain ⟨i, hi, rfl⟩ := List.mem_map.mp hj
      exact hC _ (by have := List.mem_range.mp hi; omega) (.inr (Nat.le_add_right _ _))
    have hcount : garbageRuns v = (((List.range (N - v.len)).map (v.len + ·)).filter
        fun j => (v.data j).isUninit).length := by
      rw [garbageRuns, hsplit, List.filter_append, List.length_append,
        List.filter_eq_nil_iff.mpr fun j hj => ?_, List.length_nil, Nat.zero_add]
      have hj := List.mem_range.mp hj
      simpa [hslots j hj] using Slot.isUninit_of_live (hI.init j hj)
    rw [filter_flatMap_dropGlue, hsplit, List.flatMap_append, ← List.flatMap_map v.data, hdata,
      hvals, flatMap_dropGlue_of_dead hdead, hcount]

/-- Every reachable state keeps its inline array clean: the operations do (`Shape.clean`), and a
clone is built by pushes into `new()`. -/
theorem Reachable.inlineClean {M : Nat} (hs : 0 < t.size) (hN : 0 < N)
    (hfit : N * t.size ≤ isizeMax) (hr : Reachable t v h M) : InlineClean v := by
  induction hr with
  | new => exact inlineClean_new
  | step op hr0 hstep ih =>
    have hR := (hr0.inv hs hN hfit).1.refines
    exact (hR.step_shape hs hN hstep).clean hR ih
  | clone cl hr0 hclone _ =>
    obtain ⟨hI, ⟨m, hm, -⟩, -⟩ := hr0.inv hs hN hfit
    obtain ⟨w, h', hc, hC⟩ := hI.clone_spec hs hN hm cl
    rw [hclone] at hc
    cases hc
    exact hC.clean
  | frame _ _ ih => exact ih

/-- For a sized `T` whose inline array fits the address space, dropping any reachable container
returns, and its destructor runs are its elements, each once, in order, and then one run on
garbage for each inline slot that holds `mem::uninitialized()` (`garbageRuns`), which only an
inline `pop` leaves there; no other value is destroyed. -/
theorem reachable_drop_destroys_elements {M : Nat} (hs : 0 < t.size) (hN : 0 < N)
    (hfit : N * t.size ≤ isizeMax) (hr : Reachable t v h M) :
    ∃ h' es, SmallVector.drop t v h = .ok h' ∧ h'.log = h.log ++ es ∧
      ∃ l : List α, abs v h = l.map .live ∧
        es.filter Event.isDestructor
          = l.map .destroy ++ List.replicate (garbageRuns v) .destroyUninit := by
  have hR := (hr.inv hs hN hfit).1.refines
  obtain ⟨h', es, hd, hlog, hruns⟩ := hR.drop_destroys (hr.inlineClean hs hN hfit)
  exact ⟨h', es, hd, hlog, _, hR.abs_eq, hruns⟩

/-- The instance: a `SmallVec1<~int>` after a push and a pop, whose inline slot holds the garbage
`pop` left: dropping it destroys no value and runs the box's destructor once, on that garbage. -/
theorem reachable_drop_destroys_elements_box :
    0 < Layout.ownedBox.size ∧ 0 < 1 ∧ 1 * Layout.ownedBox.size ≤ isizeMax ∧
      ∃ (v : SmallVec1 Nat) (h : Heap Nat) (M : Nat), Reachable Layout.ownedBox v h M ∧
        garbageRuns v = 1 ∧
        ∃ h' es, SmallVector.drop Layout.ownedBox v h = .ok h' ∧ h'.log = h.log ++ es ∧
          ∃ l : List Nat, abs v h = l.map .live ∧
            es.filter Event.isDestructor
              = l.map .destroy ++ List.replicate (garbageRuns v) .destroyUninit := by
  obtain ⟨r1, v1, h1, r2, v2, h2, hs1, hs2, hg⟩ : ∃ (r1 : Res Nat) (v1 : SmallVec1 Nat)
      (h1 : Heap Nat) (r2 : Res Nat) (v2 : SmallVec1 Nat) (h2 : Heap Nat),
      Op.step Layout.ownedBox (SmallVector.new : SmallVec1 Nat) Heap.empty (.push 7)
        = .ok (r1, v1, h1) ∧ Op.step Layout.ownedBox v1 h1 .pop = .ok (r2, v2, h2) ∧
      garbageRuns v2 = 1 :=
    ⟨_, _, _, _, _, _, rfl, rfl, rfl⟩
  have hr := Reachable.step .pop (Reachable.step (.push 7) (.new _) hs1) hs2
  exact ⟨by decide, by decide, by decide, _, _, _, hr, hg,
    reachable_drop_destroys_elements (by decide) (by decide) (by decide) hr⟩

-- ============================================================= push_all_move

/-- `push_all_move(other)` for a sized `T`, from two states with the invariant in one heap whose
buffers differ and a clean inline array in `other`: it destroys no value. Every value of `other`
ends up after `self`'s elements, in order, and the only destructor runs it records are the drop
glue of `other`'s inline array on the slots that hold `mem::uninitialized()`, one each; or a
push aborts, one that finds `self` full with `c` elements, `c` below the final length, and asks
for `2 * c` elements, more than `isize::MAX` bytes. -/
theorem Inv.pushAllMove_moves_values {N' : Nat} {other : SmallVector N' α} (hI : Inv t v h)
    (hIo : Inv t other h) (hCo : InlineClean other) (hs : 0 < t.size) (hN : 0 < N)
    (hN' : 0 < N') (hdisj : ∀ id, activeRegion other = .heap id → activeRegion v ≠ .heap id) :
    (SmallVec.pushAllMove t v other h = .error .oom ∧
      ∃ c, v.cap ≤ c ∧ v.len ≤ c ∧ c < v.len + other.len ∧ isizeMax < t.size * (2 * c)) ∨
      ∃ v' h' es, SmallVec.pushAllMove t v other h = .ok (v', h') ∧
        abs v' h' = abs v h ++ abs other h ∧ h'.log = h.log ++ es ∧
        es.filter Event.isDestructor = List.replicate (garbageRuns other) .destroyUninit ∧
        (InlineClean v → InlineClean v') := by
  rcases hI.pushAllMove_ok hIo hs hN hN' hdisj with hoom | ⟨v', h', w, hp, -, habs, hA, hdata, hC⟩
  · exact .inl hoom
  obtain ⟨es, hlog, hes⟩ := hA.exists
  have hdead : ∀ j ∈ List.range N', (w.data j).isLive = false :=
    fun j hj => hCo.moved hIo hdata (List.mem_range.mp hj)
  -- the walk zeroed only elements, which are values: the garbage slots are those of `other`
  have hcount : (List.range N').filter (fun j => (w.data j).isUninit)
      = (List.range N').filter fun j => (other.data j).isUninit := by
    refine List.filter_congr fun j _ => ?_
    rw [hdata]
    split_ifs with ha
    · by_cases hjl : j < other.len
      · have hlive : (other.data j).isLive = true := by
          simpa [storage, ha, regionSlots] using hIo.init j hjl
        rw [Slot.isUninit_of_live hlive]
        simp [writeRange, hjl, Slot.isUninit]
      · simp [writeRange, hjl]
    · rfl
  refine .inr ⟨v', _, es ++ (List.range N').flatMap fun i => (w.data i).dropGlue, hp,
    (abs_eq_of_storage rfl fun j _ => by rw [storage_record]).trans habs, by simp [hlog], ?_, hC⟩
  rw [List.filter_append, hes, filter_flatMap_dropGlue, flatMap_dropGlue_of_dead hdead, hcount]
  rfl

/-- The instance: `spilledVec` moved into a `SmallVec1<u32>::new()` in the same heap. -/
theorem pushAllMove_moves_values_u32 :
    Inv Layout.u32 (SmallVector.new : SmallVec1 Nat) spilledHeap ∧
      Inv Layout.u32 spilledVec spilledHeap ∧ InlineClean spilledVec ∧ 0 < Layout.u32.size ∧
      0 < 1 ∧ 0 < 1 ∧
      (∀ id, activeRegion spilledVec = .heap id →
        activeRegion (SmallVector.new : SmallVec1 Nat) ≠ .heap id) ∧
      ((SmallVec.pushAllMove Layout.u32 (SmallVector.new : SmallVec1 Nat) spilledVec spilledHeap
          = .error .oom ∧
        ∃ c, (SmallVector.new : SmallVec1 Nat).cap ≤ c ∧ (SmallVector.new : SmallVec1 Nat).len ≤ c ∧
          c < (SmallVector.new : SmallVec1 Nat).len + spilledVec.len ∧
          isizeMax < Layout.u32.size * (2 * c)) ∨
        ∃ v' h' es, SmallVec.pushAllMove Layout.u32 (SmallVector.new : SmallVec1 Nat) spilledVec
            spilledHeap = .ok (v', h') ∧
          abs v' h' = abs (SmallVector.new : SmallVec1 Nat) spilledHeap ++
            abs spilledVec spilledHeap ∧ h'.log = spilledHeap.log ++ es ∧
          es.filter Event.isDestructor = List.replicate (garbageRuns spilledVec) .destroyUninit ∧
          (InlineClean (SmallVector.new : SmallVec1 Nat) → InlineClean v')) :=
  have hd : ∀ id, activeRegion spilledVec = .heap id →
      activeRegion (SmallVector.new : SmallVec1 Nat) ≠ .heap id :=
    fun _ _ => by simp [activeRegion, SmallVector.new]
  have hC : InlineClean spilledVec := fun _ _ _ => rfl
  ⟨inv_new (by decide), spilledVec_inv, hC, by decide, by decide, by decide, hd,
    Inv.pushAllMove_moves_values (inv_new (by decide)) spilledVec_inv hC (by decide) (by decide)
      (by decide) hd⟩

-- ====================================================== runs from new()

/-- For a sized `T` whose inline array fits the address space, along every run of operations
from `new()` that returns, in any heap, the destructor runs the ledger gains are exactly the
values the list model destroys, in order: each element an assignment overwrites and each value
a dropped move iterator did not hand out. `T`'s destructor never runs on anything else, garbage
included, before the container itself is dropped. -/
theorem destructor_runs_follow_list_model (hs : 0 < t.size) (hN : 0 < N)
    (hfit : N * t.size ≤ isizeMax) (ops : List (Op α)) {h0 : Heap α} {rs : List (Res α)}
    (hrun : run t ops SmallVector.new h0 = .ok (rs, v, h)) :
    ∃ es, h.log = h0.log ++ es ∧
      es.filter Event.isDestructor = (Op.collectRun Op.discarded ops []).map .destroy := by
  obtain ⟨-, -, -, -, hA⟩ :=
    run_ledger hs hN ops _ h0 [] ((inv_new hfit).refines_nil rfl) inlineClean_new hrun
  exact hA.exists

/-- For a sized `T` whose inline array fits the address space, along every run of operations
from `new()` that returns, in any heap, followed by the container's `Drop`: `Drop` returns, and
the destructor runs of the ledger since `new()` are runs on values `ds`, then one run on garbage
for each inline slot that holds `mem::uninitialized()` when the container is dropped. The values
placed in the container (pushed, or assigned through a reference or view) are, up to order,
exactly the values handed out (popped, or returned by a move iterator) and the values `ds`: no
value is destroyed twice, leaked, or both handed out and destroyed. -/
theorem values_conserved (hs : 0 < t.size) (hN : 0 < N) (hfit : N * t.size ≤ isizeMax)
    (ops : List (Op α)) {h0 : Heap α} {rs : List (Res α)}
    (hrun : run t ops SmallVector.new h0 = .ok (rs, v, h)) :
    ∃ h' es, SmallVector.drop t v h = .ok h' ∧ h'.log = h0.log ++ es ∧
      ∃ ds, es.filter Event.isDestructor
          = ds.map .destroy ++ List.replicate (garbageRuns v) .destroyUninit ∧
        Op.collectRun Op.placed ops [] ~ Op.collectRun Op.taken ops [] ++ ds := by
  obtain ⟨l, hsp, hR, hC, hA⟩ :=
    run_ledger hs hN ops _ h0 [] ((inv_new hfit).refines_nil rfl) inlineClean_new hrun
  obtain ⟨es1, hlog1, hds⟩ := hA.exists
  obtain ⟨h', es2, hd, hlog2, hruns⟩ := hR.drop_destroys hC
  refine ⟨h', es1 ++ es2, hd, by rw [hlog2, hlog1, List.append_assoc],
    Op.collectRun Op.discarded ops [] ++ l, ?_, ?_⟩
  · rw [List.filter_append, hds, hruns, List.map_append, List.append_assoc]
  · simpa [List.append_assoc] using Op.collectRun_perm ops [] hsp

/-- The instance: into a `SmallVec1<u32>`, push `1` and `2` (which spills it), overwrite `1`
with `3`, take one value from a move iterator and drop it with `2` inside, then push `4` and pop
it, which leaves garbage in the inline slot. -/
theorem values_conserved_u32 :
    0 < Layout.u32.size ∧ 0 < 1 ∧ 1 * Layout.u32.size ≤ isizeMax ∧
      ∃ rs v h, run Layout.u32 [.push 1, .push 2, .getMut 0 3, .moveIter 1, .push 4, .pop]
          (SmallVector.new : SmallVec1 Nat) Heap.empty = .ok (rs, v, h) ∧
        ∃ h' es, SmallVector.drop Layout.u32 v h = .ok h' ∧ h'.log = Heap.empty.log ++ es ∧
          ∃ ds, es.filter Event.isDestructor
              = ds.map .destroy ++ List.replicate (garbageRuns v) .destroyUninit ∧
            Op.collectRun Op.placed [.push 1, .push 2, .getMut 0 3, .moveIter 1, .push 4, .pop] []
              ~ Op.collectRun Op.taken [.push 1, .push 2, .getMut 0 3, .moveIter 1, .push 4, .pop]
                [] ++ ds := by
  obtain ⟨rs, v, h, hrun⟩ : ∃ rs v h, run Layout.u32
      [.push 1, .push 2, .getMut 0 3, .moveIter 1, .push 4, .pop]
      (SmallVector.new : SmallVec1 Nat) Heap.empty = .ok (rs, v, h) := ⟨_, _, _, rfl⟩
  exact ⟨by decide, by decide, by decide, rs, v, h, hrun,
    values_conserved (by decide) (by decide) (by decide) _ hrun⟩

theorem destructor_runs_follow_list_model_u32 :
    0 < Layout.u32.size ∧ 0 < 1 ∧ 1 * Layout.u32.size ≤ isizeMax ∧
      ∃ rs v h, run Layout.u32 [.push 1, .push 2, .getMut 0 3, .moveIter 1]
          (SmallVector.new : SmallVec1 Nat) Heap.empty = .ok (rs, v, h) ∧
        ∃ es, h.log = Heap.empty.log ++ es ∧ es.filter Event.isDestructor =
          (Op.collectRun Op.discarded [.push 1, .push 2, .getMut 0 3, .moveIter 1] []).map
            .destroy := by
  obtain ⟨rs, v, h, hrun⟩ : ∃ rs v h, run Layout.u32 [.push 1, .push 2, .getMut 0 3, .moveIter 1]
      (SmallVector.new : SmallVec1 Nat) Heap.empty = .ok (rs, v, h) := ⟨_, _, _, rfl⟩
  exact ⟨by decide, by decide, by decide, rs, v, h, hrun,
    destructor_runs_follow_list_model (by decide) (by decide) (by decide) _ hrun⟩

end Smallvec
