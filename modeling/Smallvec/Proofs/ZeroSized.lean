import Smallvec.Proofs.Reachable

/-!
Zero-sized element types, where the code's pointer arithmetic and its unchecked words both
stop meaning what they mean for a sized `T`.

# Pointers

For `size_of::<T>() = 0` every element sits at its region's address `0`: `begin()` and `end()`,
which is `begin().offset(len)`, are the same address, so an iterator from `iter()`, `mut_iter()`
or `move_iter()` is at its end before the first `next` (`iter_zero_sized`), whatever the length.
`clone`, built on `iter`, and `push_all_move`, built on `move_iter`, inherit it.

# Words

The invariant's bound `cap * size ≤ isize::MAX` says nothing when `size = 0`, and nothing else
bounds the capacity: after `2^63` pushes `cap = 2^63`, the next push computes `cap * 2 = 2^64`,
which wraps to `0`, grows to `max(0, 1) = 1`, and leaves `len = 2^63 + 1 > cap = 1`. `ZInv` is
what such a run keeps (an inline array, and a live block when spilled), enough for every push to
return; `pushes_room` and `pushes_to_power` count the pushes by induction.
-/

namespace Smallvec

variable {α : Type} {N : Nat} {t : Layout} {v : SmallVector N α} {h : Heap α}

open SmallVecPrivate SmallVec

/-- What a container of a zero-sized `T` keeps: an inline array, and when spilled a live block. -/
structure ZInv (v : SmallVector N α) (h : Heap α) : Prop where
  inline_pos : 0 < N
  spill : N < v.cap → ∃ id b, v.ptr = ⟨.heap id, 0⟩ ∧ h.block id = some b ∧ b.live = true

/-- For a zero-sized `T`, every access inside a live region is valid. -/
theorem validRange_zero_sized (hz : t.size = 0) {p : Ptr} {k : Nat}
    (hr : p.region = .inline ∨ ∃ id b, p.region = .heap id ∧ h.block id = some b ∧
      b.live = true) : validRange t v h p k = true := by
  rcases hr with hr | ⟨id, b, hr, hb, hl⟩
  · simp [validRange, regionBytes, hr, hz]
  · simp [validRange, regionBytes, hr, hz, hb, hl]

/-- The active region is live. -/
theorem ZInv.active (hZ : ZInv v h) :
    activeRegion v = .inline ∨ ∃ id b, activeRegion v = .heap id ∧ h.block id = some b ∧
      b.live = true := by
  by_cases hs : N < v.cap
  · obtain ⟨id, b, hp, hb, hl⟩ := hZ.spill hs
    exact .inr ⟨id, b, by simp [activeRegion, hs, hp], hb, hl⟩
  · exact .inl (by simp [activeRegion, hs])

theorem ZInv.begin_eq (hZ : ZInv v h) : begin v = .ok ⟨activeRegion v, 0⟩ := by
  by_cases hs : N < v.cap
  · obtain ⟨id, b, hp, -⟩ := hZ.spill hs
    simp [begin, hs, ptr, activeRegion, hp]
  · simp [begin, hs, data, hZ.inline_pos, activeRegion]

/-- `grow(new_cap)` of a zero-sized `T` returns, whatever `new_cap`: the request is `0` bytes. -/
theorem ZInv.grow (hz : t.size = 0) (hZ : ZInv v h) (newCap : Nat) :
    ∃ v' h', grow t v newCap h = .ok (v', h') ∧ v'.len = v.len ∧ v'.cap = newCap ∧
      ZInv v' h' := by
  obtain ⟨v', h', hg, hl, hc, hp, -, hnew, -, -⟩ := grow_ok (by simp [hz, wrapping])
    (by simp [hz]) hZ.begin_eq (validRange_zero_sized hz hZ.active) hZ.spill
  exact ⟨v', h', hg, hl, hc, hZ.inline_pos, fun _ => ⟨h.next, _, hp, hnew, rfl⟩⟩

/-- A write into a region keeps every block's liveness. -/
theorem ZInv.modify (hZ : ZInv v h) (r : Region) (f : (Nat → Slot α) → Nat → Slot α) :
    ZInv (modifySlots v h r f).1 (modifySlots v h r f).2 := by
  refine ⟨hZ.inline_pos, fun hs => ?_⟩
  obtain ⟨id, b, hp, hb, hl⟩ := hZ.spill (by simpa using hs)
  refine ⟨id, _, by simpa using hp, by rw [modifySlots_block, hb]; rfl, ?_⟩
  split <;> simpa

/-- `push`'s write at `end()`, for a zero-sized `T`: valid whatever `len` and `cap` are. -/
theorem ZInv.write_end (hz : t.size = 0) (hZ : ZInv v h) (x : Slot α) :
    (do let e ← «end» v; let w ← store t v h e x; pure (setLen w.1 (wrapping (w.1.len + 1)), w.2))
      = .ok (setLen (modifySlots v h (activeRegion v) fun s => Function.update s v.len x).1
          (wrapping (v.len + 1)),
        (modifySlots v h (activeRegion v) fun s => Function.update s v.len x).2) := by
  have hv : validRange t v h ⟨activeRegion v, v.len⟩ 1 = true :=
    validRange_zero_sized hz hZ.active
  simp only [«end», hZ.begin_eq, ok_bind, Ptr.offset, Nat.zero_add, store, hv, if_true,
    modifySlots_len, pure, Except.pure]

/-- `push(x)` of a zero-sized `T` always returns: `len` becomes `len + 1` and a full container
grows to `max(cap * 2, 1)`, both modulo `2^64`. -/
theorem ZInv.push (hz : t.size = 0) (hZ : ZInv v h) (x : Slot α) :
    ∃ v' h', push t v x h = .ok (v', h') ∧ v'.len = wrapping (v.len + 1) ∧
      v'.cap = (if v.len = v.cap then max (wrapping (v.cap * 2)) 1 else v.cap) ∧ ZInv v' h' := by
  by_cases hfull : v.len = v.cap
  · obtain ⟨v1, h1, hg, hl, hc, hZ1⟩ := hZ.grow hz (max (wrapping (v.cap * 2)) 1)
    have hZ2 := hZ1.modify (activeRegion v1) fun s => Function.update s v1.len x
    refine ⟨setLen (modifySlots v1 h1 (activeRegion v1) fun s => Function.update s v1.len x).1
        (wrapping (v1.len + 1)),
      (modifySlots v1 h1 (activeRegion v1) fun s => Function.update s v1.len x).2, ?_,
      by simp [hl], by simp [hc, hfull], ⟨hZ.inline_pos, fun hs => by simpa using hZ2.spill hs⟩⟩
    simp only [SmallVec.push, if_pos hfull, hg, ok_bind]
    exact hZ1.write_end hz x
  · have hZ2 := hZ.modify (activeRegion v) fun s => Function.update s v.len x
    refine ⟨setLen (modifySlots v h (activeRegion v) fun s => Function.update s v.len x).1
        (wrapping (v.len + 1)),
      (modifySlots v h (activeRegion v) fun s => Function.update s v.len x).2, ?_,
      by simp, by simp [hfull], ⟨hZ.inline_pos, fun hs => by simpa using hZ2.spill hs⟩⟩
    simp only [SmallVec.push, if_neg hfull, pure_bind]
    exact hZ.write_end hz x

-- ================================================================ long runs

/-- A run is its first part, then its second. -/
theorem run_append (ops ops' : List (Op α)) (v : SmallVector N α) (h : Heap α) :
    run t (ops ++ ops') v h = (do
      let (rs, v, h) ← run t ops v h
      let (rs', v, h) ← run t ops' v h
      pure (rs ++ rs', v, h)) := by
  induction ops generalizing v h with
  | nil =>
    simp only [List.nil_append, run, ok_bind]
    rcases run t ops' v h with _ | ⟨_, _, _⟩ <;> rfl
  | cons op ops ih =>
    rw [List.cons_append]
    simp only [run]
    rcases op.step t v h with _ | ⟨r, v1, h1⟩
    · rfl
    · simp only [ok_bind, ih]
      rcases run t ops v1 h1 with _ | ⟨rs, v2, h2⟩
      · rfl
      · simp only [ok_bind, pure_bind]
        rcases run t ops' v2 h2 with _ | ⟨rs', v3, h3⟩ <;> rfl

/-- `k` pushes into a zero-sized container with room for them. -/
theorem ZInv.pushes_room (hz : t.size = 0) (x : α) :
    ∀ (k : Nat) (v : SmallVector N α) (h : Heap α), ZInv v h → v.len + k ≤ v.cap →
      v.cap < uintSize → ∃ rs v' h', run t (List.replicate k (.push x)) v h = .ok (rs, v', h') ∧
        v'.len = v.len + k ∧ v'.cap = v.cap ∧ ZInv v' h'
  | 0, v, h, hZ, _, _ => ⟨[], v, h, rfl, rfl, rfl, hZ⟩
  | k + 1, v, h, hZ, hk, hc => by
    obtain ⟨v1, h1, hp, hl, hc1, hZ1⟩ := hZ.push hz (.live x)
    rw [if_neg (by omega)] at hc1
    rw [wrapping_of_lt (by omega)] at hl
    obtain ⟨rs, v2, h2, hr, hl2, hc2, hZ2⟩ :=
      ZInv.pushes_room hz x k v1 h1 hZ1 (by omega) (by omega)
    refine ⟨.unit :: rs, v2, h2, ?_, by omega, by omega, hZ2⟩
    simp only [List.replicate_succ, run, Op.step, hp, ok_bind, pure_bind, hr]
    rfl

theorem zInv_new (hN : 0 < N) : ZInv (SmallVector.new : SmallVector N α) h :=
  ⟨hN, fun hs => absurd hs (Nat.lt_irrefl N)⟩

/-- From `new()` of a `SmallVec1` of a zero-sized `T`, `2^j` pushes (`j ≤ 63`) fill it to
`len = cap = 2^j`. -/
theorem pushes_to_power (hz : t.size = 0) (x : α) : ∀ j, j ≤ 63 →
    ∃ rs v h, run t (List.replicate (2 ^ j) (.push x)) (SmallVector.new : SmallVec1 α)
        Heap.empty = .ok (rs, v, h) ∧ v.len = 2 ^ j ∧ v.cap = 2 ^ j ∧ ZInv v h
  | 0, _ => ZInv.pushes_room hz x 1 (SmallVector.new : SmallVec1 α) Heap.empty
      (zInv_new Nat.one_pos) (le_refl _) (by simp [SmallVector.new, uintSize])
  | j + 1, hj => by
    obtain ⟨rs, v, h, hr, hl, hc, hZ⟩ := pushes_to_power hz x j (by omega)
    have hpos : 0 < 2 ^ j := Nat.pos_pow_of_pos j (by decide)
    have hw : 2 ^ j * 2 < uintSize := by
      rw [← Nat.pow_succ]; exact Nat.pow_lt_pow_right (by decide) (by omega)
    obtain ⟨v1, h1, hp, hl1, hc1, hZ1⟩ := hZ.push hz (.live x)
    rw [if_pos (hl.trans hc.symm), hc, wrapping_of_lt hw, Nat.max_eq_left (by omega)] at hc1
    rw [hl, wrapping_of_lt (by omega)] at hl1
    obtain ⟨rs2, v2, h2, hr2, hl2, hc2, hZ2⟩ :=
      ZInv.pushes_room hz x (2 ^ j - 1) v1 h1 hZ1 (by omega) (by omega)
    refine ⟨rs ++ .unit :: rs2, v2, h2, ?_, by rw [Nat.pow_succ]; omega,
      by rw [Nat.pow_succ]; omega, hZ2⟩
    rw [show 2 ^ (j + 1) = 2 ^ j + ((2 ^ j - 1) + 1) by rw [Nat.pow_succ]; omega,
      List.replicate_add, run_append, hr, ok_bind, List.replicate_succ]
    simp only [run, Op.step, hp, ok_bind, pure_bind, hr2]
    rfl

/-- `2^63 + 1` pushes into a `SmallVec1` of a zero-sized `T`: the last finds `cap * 2` wrapped
to `0`, grows to `1`, and leaves `len = 2^63 + 1` with `cap = 1`. -/
theorem pushes_wrap (hz : t.size = 0) (x : α) :
    ∃ rs v h, run t (List.replicate (2 ^ 63 + 1) (.push x)) (SmallVector.new : SmallVec1 α)
        Heap.empty = .ok (rs, v, h) ∧ v.len = 2 ^ 63 + 1 ∧ v.cap = 1 := by
  obtain ⟨rs, v, h, hr, hl, hc, hZ⟩ := pushes_to_power hz x 63 (le_refl _)
  obtain ⟨v1, h1, hp, hl1, hc1, -⟩ := hZ.push hz (.live x)
  have hwrap : wrapping (2 ^ 63 * 2) = 0 := by simp [wrapping, uintSize]
  rw [if_pos (hl.trans hc.symm), hc, hwrap] at hc1
  rw [hl, wrapping_of_lt (by simp [uintSize])] at hl1
  refine ⟨rs ++ [.unit], v1, h1, ?_, hl1, by simpa using hc1⟩
  rw [List.replicate_add, run_append, hr, ok_bind]
  simp only [List.replicate_one, run, Op.step, hp, ok_bind, pure_bind]
  rfl

/-- The list model never fails on operations it defines for every list (`push`, `pop`, `len`). -/
theorem Op.specRun_isSome : ∀ {ops : List (Op α)}, (∀ op ∈ ops, ∀ l, (op.spec l).isSome) →
    ∀ l, (Op.specRun ops l).isSome
  | [], _, _ => rfl
  | op :: _, hops, l => by
    obtain ⟨⟨_, l'⟩, hs⟩ := Option.isSome_iff_exists.mp (hops op (.head _) l)
    obtain ⟨⟨_, _⟩, hs'⟩ := Option.isSome_iff_exists.mp
      (Op.specRun_isSome (fun o ho => hops o (.tail _ ho)) l')
    simp [Op.specRun, hs, hs']

-- ================================================================ iterators

/-- For a zero-sized `T`, `iter()` starts at its end, whatever the length. -/
theorem iter_zero_sized (hz : t.size = 0) (hZ : ZInv v h) :
    SmallVec.iter t v = .ok ⟨activeRegion v, 0, 0⟩ := by
  simp [SmallVec.iter, «end», hZ.begin_eq, Ptr.addr, Ptr.offset, hz]

/-- A loop over an iterator at its end runs no round. -/
theorem forEach_at_end {σ : Type} (body : Ptr → σ → Except Fault σ) (fuel : Nat) (r : Region)
    (st : σ) : SmallVecIterator.forEach t body (fuel + 1) ⟨r, 0, 0⟩ st = .ok st := by
  simp [SmallVecIterator.forEach, SmallVecIterator.next]

/-- So the `.iter` operation of a zero-sized `T` reads no element. -/
theorem ZInv.iter_step (hz : t.size = 0) (hZ : ZInv v h) :
    Op.step t v h .iter = .ok (.values [], v, h) := by
  simp only [Op.step, iter_zero_sized hz hZ, ok_bind, SmallVecIterator.rounds, forEach_at_end]
  rfl

/-- A `SmallVec1<()>` holding one element, whose `iter()` yields none. -/
theorem zero_sized_iter_yields_nothing :
    (do
      let (v, h) ← push Layout.unit (SmallVector.new : SmallVec1 Unit) (.live ()) Heap.empty
      let (r, _) ← Op.step Layout.unit v h .iter
      pure (abs v h, r)) = Except.ok (ε := Fault) ([.live ()], .values []) := rfl

/-- And `clone()` of a zero-sized `T`, built on `iter`, is `new()`. -/
theorem ZInv.clone_eq (hz : t.size = 0) (hZ : ZInv v h) (cl : α → α) :
    SmallVector.clone t cl v h = .ok (SmallVector.new, h) := by
  simp only [SmallVector.clone, iter_zero_sized hz hZ, ok_bind, SmallVecIterator.rounds,
    forEach_at_end]

/-- The clone of a `SmallVec1<()>` holding one element holds none. -/
theorem zero_sized_clone_is_empty :
    (do
      let (v, h) ← push Layout.unit (SmallVector.new : SmallVec1 Unit) (.live ()) Heap.empty
      let (w, _) ← SmallVector.clone Layout.unit id v h
      pure (v.len, w.len)) = Except.ok (ε := Fault) (1, 0) := rfl

/-- `move_iter()` of a zero-sized `T`: an iterator at its end. -/
theorem ZInv.moveIter_eq (hz : t.size = 0) (hZ : ZInv v h) :
    SmallVec.moveIter t v = .ok (⟨if spilled v then some (ptr v) else none, N,
      ⟨activeRegion v, 0, 0⟩⟩, setLen (setCap v N) 0) := by
  simp only [SmallVec.moveIter, iter_zero_sized hz hZ, ok_bind, inlineSize]
  rfl

/-- Its `Drop` drops nothing and releases the block it took over, which is live. -/
theorem ZInv.moveDrop (hZ : ZInv v h) (w : SmallVector N α) :
    ∃ h', SmallVecMoveIterator.drop t ⟨if spilled v then some (ptr v) else none, N,
      ⟨activeRegion v, 0, 0⟩⟩ w h = .ok (w, h') := by
  by_cases hs : N < v.cap
  · obtain ⟨id, b, hp, hb, hl⟩ := hZ.spill hs
    cases ho : t.ownsManaged <;>
      simp [SmallVecMoveIterator.drop, SmallVecMoveIterator.forEach, SmallVecMoveIterator.next,
        SmallVecIterator.rounds, SmallVecIterator.next, spilled, inlineSize, hs, ptr, hp, ho,
        Heap.localFree, Heap.deallocate, Heap.release, hb, hl]
  · exact ⟨h, by simp [SmallVecMoveIterator.drop, SmallVecMoveIterator.forEach,
      SmallVecMoveIterator.next, SmallVecIterator.rounds, SmallVecIterator.next, spilled,
      inlineSize, hs]; rfl⟩

/-- `push_all_move(other)` from a zero-sized `T`'s container moves nothing into `v`: the loop
over the move iterator runs no round, and `other`'s elements are dropped with it. -/
theorem ZInv.pushAllMove_eq (hz : t.size = 0) {N' : Nat} {other : SmallVector N' α}
    (hZ : ZInv other h) : ∃ h', SmallVec.pushAllMove t v other h = .ok (v, h') := by
  obtain ⟨h1, hd⟩ := hZ.moveDrop (t := t) (setLen (setCap other N') 0)
  refine ⟨h1.record ((List.range N').flatMap fun i => (other.data i).dropGlue), ?_⟩
  simp only [SmallVec.pushAllMove, hZ.moveIter_eq hz, ok_bind, SmallVecIterator.rounds,
    Nat.sub_self, Nat.zero_add, SmallVecMoveIterator.forEach, SmallVecMoveIterator.next,
    SmallVecIterator.next, if_true, pure_bind, hd, ok_bind]
  simp [SmallVector.drop, spilled, inlineSize, setLen, setCap]
  rfl

/-- Moving a `SmallVec1<()>` holding one element into an empty one: the target stays empty, and
the element is destroyed with the source. -/
theorem zero_sized_push_all_move_moves_nothing :
    (do
      let (b, h) ← push Layout.unit (SmallVector.new : SmallVec1 Unit) (.live ()) Heap.empty
      let (a, h) ← SmallVec.pushAllMove Layout.unit (SmallVector.new : SmallVec1 Unit) b h
      pure (b.len, a.len, h.log)) = Except.ok (ε := Fault) (1, 0, [.destroy ()]) := rfl

/-- For a zero-sized `T`, in every state with an inline array and, when spilled, a live block,
whatever its length: `iter` yields nothing, `clone()` is `new()`, and `push_all_move` of it into
any container moves nothing. -/
theorem ZInv.iterators_see_nothing (hz : t.size = 0) (hZ : ZInv v h) (cl : α → α) {N' : Nat}
    (a : SmallVector N' α) :
    Op.step t v h .iter = .ok (.values [], v, h) ∧
      SmallVector.clone t cl v h = .ok (SmallVector.new, h) ∧
      ∃ h', SmallVec.pushAllMove t a v h = .ok (a, h') :=
  ⟨hZ.iter_step hz, hZ.clone_eq hz cl, hZ.pushAllMove_eq hz⟩

/-- The instance: a `SmallVec1<()>` holding one element. -/
theorem iterators_see_nothing_unit :
    Layout.unit.size = 0 ∧
      ZInv (⟨1, 1, ⟨.null, 0⟩, fun _ => .live ()⟩ : SmallVec1 Unit) Heap.empty ∧
      Op.step Layout.unit (⟨1, 1, ⟨.null, 0⟩, fun _ => .live ()⟩ : SmallVec1 Unit) Heap.empty .iter
          = .ok (.values [], ⟨1, 1, ⟨.null, 0⟩, fun _ => .live ()⟩, Heap.empty) ∧
      SmallVector.clone Layout.unit id (⟨1, 1, ⟨.null, 0⟩, fun _ => .live ()⟩ : SmallVec1 Unit)
          Heap.empty = .ok (SmallVector.new, Heap.empty) ∧
      ∃ h', SmallVec.pushAllMove Layout.unit (SmallVector.new : SmallVec1 Unit)
          (⟨1, 1, ⟨.null, 0⟩, fun _ => .live ()⟩ : SmallVec1 Unit) Heap.empty
          = .ok (SmallVector.new, h') :=
  have hZ :
      ZInv (⟨1, 1, ⟨.null, 0⟩, fun _ => .live ()⟩ : SmallVec1 Unit) (Heap.empty : Heap Unit) :=
    ⟨by decide, fun h => absurd h (by decide)⟩
  ⟨rfl, hZ, ZInv.iterators_see_nothing rfl hZ id SmallVector.new⟩

-- ============================================= where the sized laws break

/-- For a zero-sized `T` the refinement fails: after `2^63 + 1` pushes into a `SmallVec1<()>`,
`pop` computes `last_index = 2^63`, negative as an `int`, and fails with "overflow", where the
list model returns the last element. -/
theorem zero_sized_pop_overflows :
    run Layout.unit (List.replicate (2 ^ 63 + 1) (.push ()) ++ [.pop])
        (SmallVector.new : SmallVec1 Unit) Heap.empty = .error (.fail "overflow") ∧
      (Op.specRun (List.replicate (2 ^ 63 + 1) (.push ()) ++ [.pop]) []).isSome := by
  obtain ⟨rs, v, h, hr, hl, -⟩ := pushes_wrap (t := Layout.unit) rfl ()
  refine ⟨?_, Op.specRun_isSome (fun op hop l => ?_) []⟩
  · rw [run_append, hr, ok_bind]
    simp only [run, Op.step, pop_overflow (by rw [hl]; decide) (by rw [hl]; decide), error_bind]
  · rcases List.mem_append.mp hop with hop | hop
    · rw [List.eq_of_mem_replicate hop]; rfl
    · rw [List.mem_singleton.mp hop]; rfl

/-- The same state refutes the growth law: its capacity `1` holds fewer than the `2^63 + 1`
elements reached. -/
theorem zero_sized_cap_not_least :
    ∃ (v : SmallVec1 Unit) (h : Heap Unit) (M : Nat), Reachable Layout.unit v h M ∧
      ¬ CapFits 1 v.cap M := by
  obtain ⟨_, v, h, hr, hl, hc⟩ := pushes_wrap (t := Layout.unit) rfl ()
  obtain ⟨M, hR⟩ := (Reachable.new Heap.empty).of_run hr
  refine ⟨v, h, M, hR, fun ⟨_, _, hM, _⟩ => ?_⟩
  have := hR.len_le
  omega

end Smallvec
