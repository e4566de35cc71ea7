import Smallvec.Proofs.Drop

/-!
`push_all_move(other)` for a sized `T`: `for value in other.move_iter() { self.push(value) }`,
then the iterator and `other` dropped.

# Two containers, one heap

The loop walks `other`'s storage with the move iterator while it pushes into `self`, and each
push may allocate a block, release `self`'s old one, or write `self`'s storage. The walk only
reads and zeroes `other`'s storage, and a push touches only `self`'s own storage and the blocks
it allocates (`Pushed.frame`); so while the two buffers differ, each step keeps the other's
facts (`Walk.frame`, `Inv.frame`), and a block a push allocates is never `other`'s, which
existed before. When the loop ends, the iterator's `Drop` releases `other`'s buffer, which
`self` does not use, and `other`, inline and empty since `move_iter`, is dropped.
-/

namespace Smallvec

variable {α : Type} {N N' : Nat} {t : Layout} {v : SmallVector N α} {h : Heap α}
  {r : Region} {len : Nat} {src : Nat → Slot α}

open SmallVecPrivate SmallVec

/-- The walk reads only its own region: a heap that kept that block keeps the walk. -/
theorem Walk.frame {i : Nat} {w : SmallVector N' α} {h' : Heap α} (hW : Walk t r len i src w h)
    (hh : ∀ id, r = .heap id → h'.block id = h.block id) : Walk t r len i src w h' :=
  ⟨(validRange_congr_heap hh len).trans hW.valid,
    fun j hj hjl => regionSlots_congr_heap hh ▸ hW.rest j hj hjl⟩

/-- The loop of `push_all_move`, from element `i` of the walk over `other`'s storage `r`, which
`v` does not use: every element left is pushed onto `v`, in order, or a push aborts, one that
finds `v` full with `c` elements, `c` below the final length, and asks for `2 * c`, above
`isize::MAX` bytes. -/
theorem Walk.pushAll (hs : 0 < t.size) (hN : 0 < N) (hlive : ∀ j < len, (src j).isLive = true) :
    ∀ (fuel i : Nat) (it : SmallVecMoveIterator) (w : SmallVector N' α) (v : SmallVector N α)
      (h : Heap α), Walk t r len i src w h → it.iter = ⟨r, i * t.size, len * t.size⟩ →
      i ≤ len → len - i < fuel → Inv t v h →
      (∀ id, r = .heap id → activeRegion v ≠ .heap id ∧ id < h.next) →
      (SmallVecMoveIterator.forEach t (fun value v h => push t v value h) fuel it w v h
          = .error .oom ∧
        ∃ c, v.cap ≤ c ∧ v.len ≤ c ∧ c < v.len + (len - i) ∧ isizeMax < t.size * (2 * c)) ∨
        ∃ w' v' h', SmallVecMoveIterator.forEach t (fun value v h => push t v value h) fuel it w v h
            = .ok ({ it with iter := ⟨r, len * t.size, len * t.size⟩ }, w', v', h') ∧
          Walk t r len len src w' h' ∧ w'.cap = w.cap ∧ Inv t v' h' ∧
          abs v' h' = abs v h ++ (List.range' i (len - i)).map src ∧
          (∀ id, r = .heap id → activeRegion v' ≠ .heap id ∧ id < h'.next) ∧ Appends h h' [] ∧
          w'.data = (if r = .inline then writeRange w.data i (len - i) (fun _ => .zeroed)
            else w.data) ∧ (InlineClean v → InlineClean v')
  | 0, _, _, _, _, _, _, _, _, hf, _, _ => absurd hf (Nat.not_lt_zero _)
  | fuel + 1, i, it, w, v, h, hW, hit, hi, hf, hI, hd => by
    by_cases hil : i < len
    · obtain ⟨hn, hW1⟩ := hW.next hs hit hil
      set h1 := (modifySlots w h r fun s => Function.update s i .zeroed).2 with hh1
      have hkeep : ∀ id, activeRegion v = .heap id → h1.block id = h.block id :=
        fun id ha => modifySlots_block_ne (fun hr => (hd id hr).1 ha) _
      have habs1 : abs v h1 = abs v h :=
        abs_eq_of_storage rfl fun j _ => by rw [storage_congr hkeep]
      rcases (hI.frame hkeep).push_spec hs hN (hlive i hil) with
        ⟨hfull, hbig, hp⟩ | ⟨v2, h2, hp, hP⟩
      · exact .inl ⟨by simp only [SmallVecMoveIterator.forEach, hn, ok_bind, hp, error_bind],
          v.cap, le_refl _, hfull.le, by omega, hbig⟩
      have hlt : ∀ id, r = .heap id → id < h1.next := fun id hr => by
        simpa [hh1] using (hd id hr).2
      have hW2 := hW1.frame fun id hr => hP.frame id (hlt id hr) (hd id hr).1
      have hd2 : ∀ id, r = .heap id → activeRegion v2 ≠ .heap id ∧ id < h2.next := by
        intro id hr
        refine ⟨?_, lt_of_lt_of_le (hlt id hr) hP.next_le⟩
        rcases hP.fresh with he | ⟨id', he, hle⟩ <;> rw [he]
        · exact (hd id hr).1
        · intro e; cases e; have := hlt id hr; omega
      rcases Walk.pushAll hs hN hlive fuel (i + 1)
          { it with iter := ⟨r, (i + 1) * t.size, len * t.size⟩ } _ v2 h2 hW2 rfl hil (by omega)
          hP.inv hd2 with
        ⟨hoom, c, hc1, hc2, hc3, hbig⟩ | ⟨w', v', h', hl, hW', hcap, hI', habs, hd', hA, hdata, hC⟩
      · have hl2 : v2.len = v.len + 1 := by simpa using congrArg List.length hP.abs_eq
        have hcap2 : v.cap ≤ v2.cap := by rw [hP.cap_eq]; split_ifs <;> omega
        exact .inl ⟨by simp only [SmallVecMoveIterator.forEach, hn, ok_bind, hp, hoom], c,
          by omega, by omega, by omega, hbig⟩
      refine .inr ⟨w', v', h', ?_, hW', by simpa using hcap, hI', ?_, hd',
        ((appends_of_log_eq (by simp [hh1])).trans hP.log).trans hA, ?_,
        fun hC0 => hC (hP.clean hC0)⟩
      · simp only [SmallVecMoveIterator.forEach, hn, ok_bind, hp]
        exact hl
      · rw [habs, hP.abs_eq, habs1, show len - i = (len - (i + 1)) + 1 by omega,
          List.range'_succ]
        simp
      · rw [hdata, modifySlots_data, show len - i = (len - (i + 1)) + 1 by omega]
        split_ifs <;> simp [writeRange_update]
    · have hil : i = len := by omega
      have hit' : it.iter = ⟨r, len * t.size, len * t.size⟩ := by rw [hit, hil]
      refine .inr ⟨w, v, h, ?_, hil ▸ hW, rfl, hI, by simp [hil], hd, appends_refl h,
        by simp [hil], id⟩
      simp only [SmallVecMoveIterator.forEach, next_move_end hit' w h, ok_bind, ← hit']
      rfl

/-- `push_all_move(other)` in full, for a sized `T`, from two states with the invariant in one
heap whose buffers differ: a push into `self` full with `c` elements, `c` below the final length,
aborts asking for `2 * c`, above `isize::MAX` bytes; or the call returns. Then `self` has
the invariant and ends with its elements followed by `other`'s, in order; the loop and the
iterator's `Drop` run no destructor; and last `other`, empty and inline, is dropped: the drop
glue of its inline array `w.data`, in which the walk zeroed the elements. -/
theorem Inv.pushAllMove_ok {other : SmallVector N' α} (hI : Inv t v h) (hIo : Inv t other h)
    (hs : 0 < t.size) (hN : 0 < N) (hN' : 0 < N')
    (hdisj : ∀ id, activeRegion other = .heap id → activeRegion v ≠ .heap id) :
    (SmallVec.pushAllMove t v other h = .error .oom ∧
      ∃ c, v.cap ≤ c ∧ v.len ≤ c ∧ c < v.len + other.len ∧ isizeMax < t.size * (2 * c)) ∨
      ∃ (v' : SmallVector N α) (h' : Heap α) (w : SmallVector N' α),
        SmallVec.pushAllMove t v other h
          = .ok (v', h'.record ((List.range N').flatMap fun i => (w.data i).dropGlue)) ∧
        Inv t v' h' ∧ abs v' h' = abs v h ++ abs other h ∧ Appends h h' [] ∧
        w.data = (if activeRegion other = .inline then
          writeRange other.data 0 other.len (fun _ => .zeroed) else other.data) ∧
        (InlineClean v → InlineClean v') := by
  set it : SmallVecMoveIterator := ⟨if N' < other.cap then some other.ptr else none, N',
    ⟨activeRegion other, 0, other.len * t.size⟩⟩ with hit
  have hfuel : other.len - 0 < it.iter.rounds := len_lt_rounds hs _ _
  rcases Walk.pushAll hs hN (fun j hj => hIo.init j hj) _ 0 it _ v h hIo.walk (by simp [hit])
      (Nat.zero_le _) hfuel hI (fun id hr => ⟨hdisj id hr, hIo.active_lt_next hr⟩) with
    ⟨hoom, c, hc⟩ | ⟨w', v', h', hf, hW', hcap, hI', habs, hd, hA, hdata, hC⟩
  · exact .inl ⟨by simp only [SmallVec.pushAllMove, hIo.moveIter_eq hN', ← hit, ok_bind, hoom,
      error_bind], c, by simpa using hc⟩
  obtain ⟨w'', h'', hdr, -, hc'', -, -, hfr, hdata', hA'⟩ :=
    hW'.drop hs { it with iter := _ } rfl (le_refl _) hIo.moveIter_allocation
  have hkeep : ∀ id, activeRegion v' = .heap id → h''.block id = h'.block id :=
    fun id ha => hfr id fun hr => (hd id hr).1 ha
  refine .inr ⟨v', h'', w'', ?_, hI'.frame hkeep,
    (abs_eq_of_storage (h := h') rfl fun j _ => by rw [storage_congr hkeep]).trans ?_,
    by simpa using hA.trans hA', by simp [hdata', hdata], hC⟩
  · simp only [SmallVec.pushAllMove, hIo.moveIter_eq hN', ← hit, ok_bind, hf, hdr,
      drop_inline (show ¬ N' < w''.cap by simp [hc'', hcap])]
    rfl
  · rw [habs, Nat.sub_zero, ← List.range_eq_range']
    rfl

/-- `push_all_move(other)` for a sized `T`, from two states with the invariant in one heap whose
buffers differ: `self` ends with its elements followed by `other`'s, in order, with the
invariant; or a push aborts, and then only one that finds `self` full with `c` elements, `c` at
least `self`'s capacity and length and below the final length, and asks for `2 * c` elements,
more than `isize::MAX` bytes. -/
theorem Inv.pushAllMove_spec {other : SmallVector N' α} (hI : Inv t v h) (hIo : Inv t other h)
    (hs : 0 < t.size) (hN : 0 < N) (hN' : 0 < N')
    (hdisj : ∀ id, activeRegion other = .heap id → activeRegion v ≠ .heap id) :
    (SmallVec.pushAllMove t v other h = .error .oom ∧
      ∃ c, v.cap ≤ c ∧ v.len ≤ c ∧ c < v.len + other.len ∧ isizeMax < t.size * (2 * c)) ∨
      ∃ v' h', SmallVec.pushAllMove t v other h = .ok (v', h') ∧ Inv t v' h' ∧
        abs v' h' = abs v h ++ abs other h := by
  rcases hI.pushAllMove_ok hIo hs hN hN' hdisj with hoom | ⟨v', h', w, hp, hI', habs, -⟩
  · exact .inl hoom
  · exact .inr ⟨v', _, hp, hI'.record _,
      (abs_eq_of_storage rfl fun j _ => by rw [storage_record]).trans habs⟩

/-- The instance: `spilledVec` moved into a `SmallVec1<u32>::new()` in the same heap. -/
theorem pushAllMove_spec_u32 :
    Inv Layout.u32 (SmallVector.new : SmallVec1 Nat) spilledHeap ∧
      Inv Layout.u32 spilledVec spilledHeap ∧ 0 < Layout.u32.size ∧ 0 < 1 ∧ 0 < 1 ∧
      (∀ id, activeRegion spilledVec = .heap id →
        activeRegion (SmallVector.new : SmallVec1 Nat) ≠ .heap id) ∧
      ((SmallVec.pushAllMove Layout.u32 (SmallVector.new : SmallVec1 Nat) spilledVec spilledHeap
          = .error .oom ∧
        ∃ c, (SmallVector.new : SmallVec1 Nat).cap ≤ c ∧ (SmallVector.new : SmallVec1 Nat).len ≤ c ∧
          c < (SmallVector.new : SmallVec1 Nat).len + spilledVec.len ∧
          isizeMax < Layout.u32.size * (2 * c)) ∨
        ∃ v' h', SmallVec.pushAllMove Layout.u32 (SmallVector.new : SmallVec1 Nat) spilledVec
            spilledHeap = .ok (v', h') ∧ Inv Layout.u32 v' h' ∧
          abs v' h' = abs (SmallVector.new : SmallVec1 Nat) spilledHeap ++
            abs spilledVec spilledHeap) :=
  have hd : ∀ id, activeRegion spilledVec = .heap id →
      activeRegion (SmallVector.new : SmallVec1 Nat) ≠ .heap id :=
    fun _ _ => by simp [activeRegion, SmallVector.new]
  ⟨inv_new (by decide), spilledVec_inv, by decide, by decide, by decide, hd,
    Inv.pushAllMove_spec (inv_new (by decide)) spilledVec_inv (by decide) (by decide) (by decide)
      hd⟩

end Smallvec
