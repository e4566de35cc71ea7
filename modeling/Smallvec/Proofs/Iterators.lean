import Smallvec.Proofs.Methods

/-!
The three iterators for a sized `T`, from a state with the invariant.

# Loops are folds

For `size_of::<T>() > 0` the address `i * size` names element `i`: `next` hands out element `i`
and moves to `i + 1` (`next_at`), and `ptr == end` holds exactly at element `len`. A loop from
element `i` with fuel past `len - i` is the fold of its body over `[i, len)` (`forEach_at`), and
`end - ptr + 1`, the fuel the model gives a loop, is past it. What a loop computes is then a
fact about a fold, proved by induction on its list of indices.

# The move iterator's walk

`move_iter` resets the container before the first `next`, so the walk does not go over the
container's active storage but over the region the elements were in. `Walk` is what it keeps:
the region still spans the `len` elements, so every read and zeroing write is valid, and from
the walk's position on the slots hold the elements not yet handed out. `next`, `take` and the
iterator's `Drop` each move the walk on (`Walk.next`, `Walk.take`, `Walk.drop`).
-/

namespace Smallvec

variable {α : Type} {N : Nat} {t : Layout} {v w : SmallVector N α} {h : Heap α}

open SmallVecPrivate SmallVec

-- ================================================================ the steps

/-- Before `end`, `next` hands out element `i` and moves to `i + 1`. -/
theorem next_at (hs : 0 < t.size) {it : SmallVecIterator} {i len : Nat}
    (hp : it.ptr = i * t.size) (he : it.end = len * t.size) (hi : i < len) :
    SmallVecIterator.next t it = (some ⟨it.region, i⟩, { it with ptr := (i + 1) * t.size }) := by
  have hne : i * t.size ≠ len * t.size := ((Nat.mul_lt_mul_right hs).mpr hi).ne
  simp [SmallVecIterator.next, hne, hp, he, Nat.mul_div_cancel _ hs, Nat.pos_iff_ne_zero.mp hs,
    Nat.succ_mul]

/-- At `end`, `next` returns `None` and stays. -/
theorem next_at_end {it : SmallVecIterator} (he : it.ptr = it.end) :
    SmallVecIterator.next t it = (none, it) := by
  simp [SmallVecIterator.next, he]

/-- A loop over a sized iterator at element `i` of `len` is the fold of its body over `[i, len)`,
given fuel past `len - i`. -/
theorem forEach_at (hs : 0 < t.size) {σ : Type} (body : Ptr → σ → Except Fault σ) {len : Nat} :
    ∀ (fuel i : Nat) (it : SmallVecIterator) (st : σ), it.ptr = i * t.size →
      it.end = len * t.size → i ≤ len → len - i < fuel →
      SmallVecIterator.forEach t body fuel it st
        = (List.range' i (len - i)).foldlM (fun st j => body ⟨it.region, j⟩ st) st
  | 0, _, _, _, _, _, _, hf => absurd hf (Nat.not_lt_zero _)
  | fuel + 1, i, it, st, hp, he, hi, hf => by
    by_cases hil : i = len
    · subst hil
      simp [SmallVecIterator.forEach, next_at_end (t := t) (hp.trans he.symm)]; rfl
    · have hi' : i < len := by omega
      rw [show len - i = (len - (i + 1)) + 1 by omega, List.range'_succ]
      simp only [SmallVecIterator.forEach, next_at hs hp he hi', List.foldlM_cons]
      congr 1
      funext st'
      exact forEach_at hs body fuel (i + 1) _ st' rfl he hi' (by omega)

/-- The fuel a loop from `begin()` gets is enough. -/
theorem sub_lt_rounds (hs : 0 < t.size) (r : Region) (i len : Nat) :
    len - i < SmallVecIterator.rounds ⟨r, i * t.size, len * t.size⟩ := by
  have := Nat.le_mul_of_pos_right (len - i) hs
  simp only [SmallVecIterator.rounds, ← Nat.sub_mul]; omega

theorem len_lt_rounds (hs : 0 < t.size) (r : Region) (len : Nat) :
    len - 0 < SmallVecIterator.rounds ⟨r, 0, len * t.size⟩ := by
  simpa using sub_lt_rounds hs r 0 len

/-- `n` steps of `next` from element `i`: element `i + n`, or `None` past the end. -/
theorem nth_at (hs : 0 < t.size) {len : Nat} :
    ∀ (n i : Nat) (it : SmallVecIterator), it.ptr = i * t.size → it.end = len * t.size →
      i ≤ len → SmallVecIterator.nth t n it = if i + n < len then some ⟨it.region, i + n⟩ else none
  | 0, i, it, hp, he, hi => by
    by_cases hil : i < len
    · simp [SmallVecIterator.nth, next_at hs hp he hil, hil]
    · simp [SmallVecIterator.nth, next_at_end (t := t) (show it.ptr = it.end by
        rw [hp, he, show i = len by omega]), hil]
  | n + 1, i, it, hp, he, hi => by
    by_cases hil : i < len
    · simp only [SmallVecIterator.nth, next_at hs hp he hil]
      rw [nth_at hs n (i + 1) { it with ptr := (i + 1) * t.size } rfl he hil,
        show i + 1 + n = i + (n + 1) by omega]
    · have hend : it.ptr = it.end := by rw [hp, he, show i = len by omega]
      simp only [SmallVecIterator.nth, next_at_end (t := t) hend]
      rw [nth_at hs n i it hp he hi]
      simp [show ¬i + n < len by omega, show ¬i + (n + 1) < len by omega]

-- ============================================================ iter and mut_iter

/-- `iter()` and `mut_iter()` run from element `0` to element `len` of the active storage. -/
theorem Inv.iter_eq (hI : Inv t v h) (hN : 0 < N) :
    SmallVec.iter t v = .ok ⟨activeRegion v, 0, v.len * t.size⟩ := by
  simp [SmallVec.iter, «end», hI.begin_eq (.inl hN), Ptr.addr, Ptr.offset]

/-- A loop that appends what it reads from the active storage. -/
theorem Inv.foldlM_load (hI : Inv t v h) {l : List Nat} (hl : ∀ j ∈ l, j < v.cap)
    (xs : List (Slot α)) :
    l.foldlM (fun xs j => do pure (xs ++ [← load t v h ⟨activeRegion v, j⟩])) xs
      = .ok (xs ++ l.map (storage v h)) := by
  induction l generalizing xs with
  | nil => simp; rfl
  | cons j l ih =>
    simp only [List.foldlM_cons, hI.load_active (hl j (List.mem_cons_self j l)), ok_bind]
    rw [pure_bind, ih (fun k hk => hl k (List.mem_cons_of_mem j hk))]
    simp

/-- The loop over `iter()` that reads each element reads the elements, in order. -/
theorem Inv.forEach_reads (hI : Inv t v h) (hs : 0 < t.size) :
    SmallVecIterator.forEach t (fun p xs => do pure (xs ++ [← load t v h p]))
      (SmallVecIterator.rounds ⟨activeRegion v, 0, v.len * t.size⟩)
      ⟨activeRegion v, 0, v.len * t.size⟩ [] = .ok (abs v h) := by
  have hlc := hI.len_le_cap
  rw [forEach_at hs _ _ 0 _ _ (Nat.zero_mul _).symm rfl (Nat.zero_le _) (len_lt_rounds hs _ _),
    hI.foldlM_load (fun j hj => by simp [List.mem_range'] at hj; omega)]
  simp [abs, List.range_eq_range']

-- ============================================================ the move iterator

/-- `move_iter()` from a state with the invariant: the walk over the elements' region, the
buffer it takes over, and the container reset to empty and inline. -/
theorem Inv.moveIter_eq (hI : Inv t v h) (hN : 0 < N) :
    SmallVec.moveIter t v = .ok (⟨if N < v.cap then some v.ptr else none, N,
      ⟨activeRegion v, 0, v.len * t.size⟩⟩, setLen (setCap v N) 0) := by
  simp [SmallVec.moveIter, SmallVec.iter, «end», hI.begin_eq (.inl hN), Ptr.addr, Ptr.offset,
    ptr]

/-- Spilled, the buffer `move_iter` hands its iterator is the active block. -/
theorem Inv.allocation_of_active (hI : Inv t v h) {id : Nat} (ha : activeRegion v = .heap id) :
    (if N < v.cap then some v.ptr else none) = some ⟨.heap id, 0⟩ := by
  by_cases hsp : N < v.cap
  · obtain ⟨id', b, ha', hp, -⟩ := hI.active_spilled hsp
    rw [ha] at ha'; cases ha'
    simp [hsp, hp]
  · simp [activeRegion, hsp] at ha

/-- The buffer `move_iter` takes over is the active storage's block, if it has one. -/
theorem Inv.moveIter_allocation (hI : Inv t v h) :
    (if N < v.cap then some v.ptr else none) = none ∨
      ∃ id, (if N < v.cap then some v.ptr else none) = some ⟨.heap id, 0⟩ ∧
        activeRegion v = .heap id := by
  by_cases hsp : N < v.cap
  · obtain ⟨id, -, ha, -⟩ := hI.active_spilled hsp
    exact .inr ⟨id, hI.allocation_of_active ha, ha⟩
  · exact .inl (by simp [hsp])

/-- What a move iterator's walk over region `r` keeps at element `i` of `len`: the region spans
the `len` elements, and from `i` on its slots are the elements `src` not yet handed out. -/
structure Walk (t : Layout) (r : Region) (len i : Nat) (src : Nat → Slot α)
    (w : SmallVector N α) (h : Heap α) : Prop where
  valid : validRange t w h ⟨r, 0⟩ len = true
  rest : ∀ j, i ≤ j → j < len → regionSlots w h r j = src j

variable {r : Region} {len i : Nat} {src : Nat → Slot α}

/-- Inside a valid range, each element is valid. -/
theorem validRange_of_le {p : Ptr} {k j : Nat} (hv : validRange t w h p k = true)
    (hj : j < k) : validRange t w h ⟨p.region, p.index + j⟩ 1 = true := by
  unfold validRange at *
  split at hv
  · rename_i bytes hb
    simp only [hb, decide_eq_true_eq] at hv ⊢
    exact le_trans (Nat.mul_le_mul_right _ (by omega)) hv
  · cases hv

/-- The walk starts over the active storage of a state with the invariant. -/
theorem Inv.walk (hI : Inv t v h) :
    Walk t (activeRegion v) v.len 0 (storage v h) (setLen (setCap v N) 0) h where
  valid := by
    simpa [validRange, regionBytes] using
      hI.validRange_active (i := 0) (by simpa using hI.len_le_cap)
  rest j _ _ := by cases hr : activeRegion v <;> simp [storage, hr, regionSlots]

/-- Swapping `x` into slot `i` of the walk hands out element `i` and moves the walk on. -/
theorem Walk.replace (hW : Walk t r len i src w h) (hi : i < len) (x : Slot α) :
    replace t w h ⟨r, i⟩ x = .ok (src i, modifySlots w h r fun s => Function.update s i x) ∧
    Walk t r len (i + 1) src (modifySlots w h r fun s => Function.update s i x).1
      (modifySlots w h r fun s => Function.update s i x).2 := by
  have hv := validRange_of_le hW.valid hi
  simp only [Nat.zero_add] at hv
  refine ⟨by rw [replace_of_valid hv, hW.rest i (Nat.le_refl i) hi], by simpa using hW.valid,
    fun j hj hjl => ?_⟩
  rw [show r = (⟨r, i⟩ : Ptr).region from rfl, regionSlots_modifySlots hv,
    Function.update_noteq (by omega)]
  exact hW.rest j (by omega) hjl

/-- One `next` of the walk: element `i` by value, its slot zeroed. -/
theorem Walk.next (hs : 0 < t.size) (hW : Walk t r len i src w h) {it : SmallVecMoveIterator}
    (hit : it.iter = ⟨r, i * t.size, len * t.size⟩) (hi : i < len) :
    it.next t w h = .ok (some (src i), { it with iter := ⟨r, (i + 1) * t.size, len * t.size⟩ },
      modifySlots w h r fun s => Function.update s i .zeroed) ∧
    Walk t r len (i + 1) src (modifySlots w h r fun s => Function.update s i .zeroed).1
      (modifySlots w h r fun s => Function.update s i .zeroed).2 := by
  have hn := next_at (t := t) hs
    (show (⟨r, i * t.size, len * t.size⟩ : SmallVecIterator).ptr = i * t.size from rfl) rfl hi
  obtain ⟨hr, hW1⟩ := hW.replace hi .zeroed
  refine ⟨?_, hW1⟩
  simp only [SmallVecMoveIterator.next, hit, hn, hr, ok_bind]
  rfl

/-- At the end of its walk a move iterator's `next` returns `None` and changes nothing. -/
theorem next_move_end {it : SmallVecMoveIterator} (hit : it.iter = ⟨r, len * t.size, len * t.size⟩)
    (w : SmallVector N α) (h : Heap α) : it.next t w h = .ok (none, it, w, h) := by
  simp [SmallVecMoveIterator.next, next_at_end (t := t) (show it.iter.ptr = it.iter.end by
    rw [hit])]

/-- `take(k)`: the next `min k (len - i)` elements, in order. -/
theorem Walk.take (hs : 0 < t.size) :
    ∀ (k i : Nat) (it : SmallVecMoveIterator) (w : SmallVector N α) (h : Heap α),
      Walk t r len i src w h → it.iter = ⟨r, i * t.size, len * t.size⟩ → i ≤ len →
      ∃ w' h', SmallVecMoveIterator.take t k it w h
          = .ok ((List.range' i (min k (len - i))).map src,
            { it with iter := ⟨r, (i + min k (len - i)) * t.size, len * t.size⟩ }, w', h') ∧
        Walk t r len (i + min k (len - i)) src w' h' ∧ w'.len = w.len ∧ w'.cap = w.cap ∧
        (∀ id, r ≠ .heap id → h'.block id = h.block id) ∧
        w'.data = (if r = .inline then writeRange w.data i (min k (len - i)) (fun _ => .zeroed)
          else w.data) ∧ h'.log = h.log
  | 0, i, it, w, h, hW, hit, _ => ⟨w, h, by simp [SmallVecMoveIterator.take, ← hit], by simpa,
      rfl, rfl, fun _ _ => rfl, by simp, rfl⟩
  | k + 1, i, it, w, h, hW, hit, hi => by
    by_cases hil : i < len
    · obtain ⟨hn, hW1⟩ := hW.next hs hit hil
      obtain ⟨w', h', ht, hW', hl, hc, hfr, hd, hlog⟩ := Walk.take hs k (i + 1)
        { it with iter := ⟨r, (i + 1) * t.size, len * t.size⟩ } _ _ hW1 rfl hil
      have hm : min (k + 1) (len - i) = min k (len - (i + 1)) + 1 := by omega
      refine ⟨w', h', ?_, by rw [hm, ← Nat.add_assoc, Nat.add_right_comm]; exact hW',
        by simpa using hl, by simpa using hc,
        fun id hr => by rw [hfr id hr, modifySlots_block_ne hr],
        by rw [hd, modifySlots_data, hm]; split_ifs <;> simp [writeRange_update],
        by simpa using hlog⟩
      simp only [SmallVecMoveIterator.take, hn, ok_bind, ht, hm, List.range'_succ, List.map_cons]
      rw [show i + (min k (len - (i + 1)) + 1) = i + 1 + min k (len - (i + 1)) by omega]
      rfl
    · have hn := next_move_end (t := t) (show it.iter = ⟨r, len * t.size, len * t.size⟩ by
        rw [hit, show i = len by omega]) w h
      obtain ⟨w', h', ht, hW', hl, hc, hfr, hd, hlog⟩ := Walk.take hs k i it w h hW hit hi
      have hm : min (k + 1) (len - i) = min k (len - i) := by omega
      refine ⟨w', h', ?_, by rw [hm]; exact hW', hl, hc, hfr, by rw [hd, hm], hlog⟩
      simp only [SmallVecMoveIterator.take, hn, ok_bind, ht, hm, Option.toList, List.nil_append]
      rfl

/-- The ledger is not part of the walk. -/
theorem Walk.record (hW : Walk t r len i src w h) (es : List (Event α)) :
    Walk t r len i src w (h.record es) :=
  ⟨by simpa using hW.valid, fun j hj hjl => by simpa using hW.rest j hj hjl⟩

/-- The iterator's `Drop` loop, `for _ in *self {}`: each element not handed out is destroyed,
in order, and its slot zeroed. -/
theorem Walk.forEach_drop (hs : 0 < t.size) :
    ∀ (fuel i : Nat) (it : SmallVecMoveIterator) (w : SmallVector N α) (h : Heap α),
      Walk t r len i src w h → it.iter = ⟨r, i * t.size, len * t.size⟩ → i ≤ len →
      len - i < fuel →
      ∃ w' h', SmallVecMoveIterator.forEach t (fun x () h => pure ((), h.record x.dropGlue))
          fuel it w () h = .ok ({ it with iter := ⟨r, len * t.size, len * t.size⟩ }, w', (), h') ∧
        Walk t r len len src w' h' ∧ w'.len = w.len ∧ w'.cap = w.cap ∧
        h'.log = h.log ++ (List.range' i (len - i)).flatMap (fun j => (src j).dropGlue) ∧
        (∀ id, r ≠ .heap id → h'.block id = h.block id) ∧
        w'.data = if r = .inline then writeRange w.data i (len - i) (fun _ => .zeroed) else w.data
  | 0, _, _, _, _, _, _, _, hf => absurd hf (Nat.not_lt_zero _)
  | fuel + 1, i, it, w, h, hW, hit, hi, hf => by
    by_cases hil : i < len
    · obtain ⟨hn, hW1⟩ := hW.next hs hit hil
      obtain ⟨w', h', hl, hW', hlen, hcap, hlog, hfr, hd⟩ := Walk.forEach_drop hs fuel (i + 1)
        { it with iter := ⟨r, (i + 1) * t.size, len * t.size⟩ } _ _ (hW1.record (src i).dropGlue)
        rfl hil (by omega)
      have hm : len - i = (len - (i + 1)) + 1 := by omega
      refine ⟨w', h', ?_, hW', by simpa using hlen, by simpa using hcap, ?_,
        fun id hr => by rw [hfr id hr, Heap.record_block, modifySlots_block_ne hr],
        by rw [hd, modifySlots_data, hm]; split_ifs <;> simp [writeRange_update]⟩
      · simp only [SmallVecMoveIterator.forEach, hn, ok_bind, pure_bind]
        exact hl
      · rw [hlog, hm, List.range'_succ, List.flatMap_cons]
        simp
    · have hil : i = len := by omega
      have hit' : it.iter = ⟨r, len * t.size, len * t.size⟩ := by rw [hit, hil]
      refine ⟨w, h, ?_, hil ▸ hW, rfl, rfl, by simp [hil], fun _ _ => rfl, by simp [hil]⟩
      simp only [SmallVecMoveIterator.forEach, next_move_end hit' w h, ok_bind, ← hit']
      rfl

/-- The iterator's `Drop`: the rest destroyed, then the buffer it took over released, for a `T`
without managed boxes by a `deallocate` of `size_of::<T>() * self.cap` bytes, the last entry of
the ledger. -/
theorem Walk.drop (hs : 0 < t.size) (hW : Walk t r len i src w h) (it : SmallVecMoveIterator)
    (hit : it.iter = ⟨r, i * t.size, len * t.size⟩) (hi : i ≤ len)
    (halloc : it.allocation = none ∨ ∃ id, it.allocation = some ⟨.heap id, 0⟩ ∧ r = .heap id) :
    ∃ w' h', it.drop t w h = .ok (w', h') ∧ w'.len = w.len ∧ w'.cap = w.cap ∧
      (∀ id, it.allocation = some ⟨.heap id, 0⟩ → t.ownsManaged = false →
        h'.log.getLast? = some (.deallocate id (wrapping (t.size * it.cap)) t.align)) ∧
      (∀ id, it.allocation = some ⟨.heap id, 0⟩ → ∃ b, h'.block id = some b ∧ b.live = false) ∧
      (∀ id, r ≠ .heap id → h'.block id = h.block id) ∧
      w'.data = (if r = .inline then writeRange w.data i (len - i) (fun _ => .zeroed) else w.data) ∧
      Appends h h' ((List.range' i (len - i)).flatMap fun j => (src j).dropGlue) := by
  have hfuel : len - i < it.iter.rounds := hit ▸ sub_lt_rounds hs r i len
  obtain ⟨w', h', hl, hW', hlen, hcap, hlog, hfr, hd⟩ :=
    Walk.forEach_drop hs _ i it w h hW hit hi hfuel
  have hloop : Appends h h' ((List.range' i (len - i)).flatMap fun j => (src j).dropGlue) := by
    simpa using appends_of_log hlog
  simp only [SmallVecMoveIterator.drop, hl, ok_bind]
  rcases halloc with ha | ⟨id, ha, hr⟩
  · exact ⟨w', h', by simp [ha]; rfl, hlen, hcap, fun _ ha' => by simp [ha] at ha',
      fun _ ha' => by simp [ha] at ha', hfr, hd, hloop⟩
  · obtain ⟨b, hb, hlive⟩ : ∃ b, h'.block id = some b ∧ b.live = true := by
      rcases exists_of_validRange hW'.valid with h0 | ⟨id', b, h1, hb, hlive⟩
      · rw [hr] at h0; cases h0
      · rw [hr] at h1; cases h1; exact ⟨b, hb, hlive⟩
    have hrel : ∀ id', r ≠ .heap id' →
        (h'.modify id fun b => { b with live := false }).block id' = h.block id' := by
      intro id' hne
      rw [Heap.modify_block, if_neg (by rintro rfl; exact hne hr), hfr id' hne]
    have hdead : ∀ id', some (⟨.heap id, 0⟩ : Ptr) = some ⟨.heap id', 0⟩ →
        ∃ b', (h'.modify id fun b => { b with live := false }).block id' = some b' ∧
          b'.live = false := by
      intro id' he; cases he; exact ⟨{ b with live := false }, by simp [hb], rfl⟩
    cases hm : t.ownsManaged
    · simp only [ha, hm, Heap.deallocate, Heap.release_live hb hlive, Bool.false_eq_true,
        if_false, ok_bind]
      exact ⟨w', _, rfl, hlen, hcap, fun _ ha' _ => by cases ha'; simp, hdead, hrel, hd,
        hloop.push_quiet _ rfl rfl⟩
    · simp only [ha, hm, Heap.localFree, Heap.release_live hb hlive, if_true, ok_bind]
      exact ⟨w', _, rfl, hlen, hcap, fun _ _ hm' => Bool.noConfusion hm', hdead, hrel, hd,
        hloop.push_quiet _ rfl rfl⟩

end Smallvec
