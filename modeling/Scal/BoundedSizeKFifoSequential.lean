/-
The bounded-size k-FIFO queue, used by one thread at a time.

Segment number `s` is the one at position `s * k`; the queue is spread over the
segments from head's to tail's (`Rep`).  Positions are taken modulo `2 ^ 64`, so
head's and tail's words determine their segment numbers only because they are
less than a ring apart.

* `sequential_of_regular` — sequences of calls are runs of a bounded k-FIFO queue, if every
  call satisfies `regular` when it begins: positions do not run into the end of
  the `uint64_t` range (unless the ring's size divides it), and no enqueue begins
  with a full ring whose head has left the first lap;
* `not_sequential_secondLap` — `queue_full` compares a position modulo the ring's size with
  one that is not reduced, and so never holds after the first lap: tail overtakes
  head, and a new item is dequeued before an old one.
-/
import Scal.BoundedSizeKFifo
import Scal.KFifo
import Scal.Sequential

open Interleave Linearizability

namespace BoundedSizeKFifo

variable {α : Type}

/-! ### Segments of the ring -/

/-- The value of slot `j` of segment `s`. -/
def cell (c : Params) (σ : Shared α) (s j : ℕ) : Option α :=
  (σ.queue ((s * c.k + j) % c.queueSize)).value

def content (c : Params) (σ : Shared α) (s : ℕ) : List α := slots c.k (cell c σ s)

/-- Segment `s` lies in the range of a counter. -/
def Fits (c : Params) (s : ℕ) : Prop := c.queueSize ∣ c.word ∨ s * c.k + c.k ≤ c.word

theorem Fits.of_le {c : Params} {s b : ℕ} (hs : Fits c b) (hle : s ≤ b) : Fits c s := by
  have := Nat.mul_le_mul_right c.k hle
  exact hs.imp id fun h => by omega

section Ring

variable {c : Params} {σ : Shared α} {s s' j j' a b : ℕ}

theorem index_eq (hj : j < c.k) :
    (s * c.k + j) % c.queueSize = j + c.k * (s % c.numSegments) := by
  have hk : 0 < c.k := by omega
  rw [Nat.add_comm (s * c.k), Params.queueSize, Nat.mod_mul, Nat.add_mul_mod_self_right,
    Nat.mod_eq_of_lt hj, Nat.add_mul_div_right _ _ hk, Nat.div_eq_of_lt hj, Nat.zero_add]

theorem index_inj (hj : j < c.k) (hj' : j' < c.k)
    (h : (s * c.k + j) % c.queueSize = (s' * c.k + j') % c.queueSize) :
    j = j' ∧ s % c.numSegments = s' % c.numSegments := by
  rw [index_eq hj, index_eq hj'] at h
  have hmod := congrArg (· % c.k) h
  simp only [Nat.add_mul_mod_self_left, Nat.mod_eq_of_lt hj, Nat.mod_eq_of_lt hj'] at hmod
  subst hmod
  exact ⟨rfl, Nat.eq_of_mul_eq_mul_left (by omega) (Nat.add_left_cancel h)⟩

/-- Segments less than a ring apart are different parts of it. -/
theorem segment_inj (hle : s ≤ s') (hlt : s' < s + c.numSegments)
    (h : s % c.numSegments = s' % c.numSegments) : s = s' := by
  have hdvd : c.numSegments ∣ s' - s := Nat.dvd_of_mod_eq_zero (Nat.sub_mod_eq_zero_of_mod_eq h.symm)
  rcases Nat.eq_zero_or_pos (s' - s) with h0 | h0
  · omega
  · have := Nat.le_of_dvd h0 hdvd
    omega

/-- The slot `find_index` looks at, when the segment lies in range. -/
theorem index_of_fits (hk : 0 < c.k) (hs : Fits c s) (random j : ℕ) :
    c.index (s * c.k % c.word) random j = (s * c.k + (random + j) % c.k) % c.queueSize := by
  have hm : (random + j) % c.k < c.k := Nat.mod_lt _ hk
  rcases hs with hdvd | hle
  · rw [Params.index, Nat.mod_mod_of_dvd _ hdvd, Nat.add_mod, Nat.mod_mod_of_dvd _ hdvd,
      ← Nat.add_mod]
  · rw [Params.index, Nat.mod_eq_of_lt (show s * c.k < c.word by omega),
      Nat.mod_eq_of_lt (show s * c.k + (random + j) % c.k < c.word by omega)]

theorem content_congr {σ' : Shared α} (h : ∀ j < c.k, cell c σ' s j = cell c σ s j) :
    content c σ' s = content c σ s := slots_congr h

/-- Segments a ring apart are the same slots. -/
theorem content_add_ring : content c σ (s + c.numSegments) = content c σ s := by
  refine slots_congr fun j hj => ?_
  rw [cell, cell, index_eq hj, index_eq hj, Nat.add_mod_right]

theorem content_setSlot_other {w : AtomicValue (Option α)} (hj : j < c.k)
    (hs : s' % c.numSegments ≠ s % c.numSegments) :
    content c (σ.setSlot ((s * c.k + j) % c.queueSize) w) s' = content c σ s' := by
  refine content_congr fun j' hj' => ?_
  have hne : (s' * c.k + j') % c.queueSize ≠ (s * c.k + j) % c.queueSize :=
    fun h => hs (index_inj hj' hj h).2
  simp [cell, Shared.setSlot, hne]

theorem content_setSlot {w : AtomicValue (Option α)} (hj : j < c.k) :
    content c (σ.setSlot ((s * c.k + j) % c.queueSize) w) s =
      slots c.k (Function.update (cell c σ s) j w.value) := by
  refine slots_congr fun j' hj' => ?_
  by_cases h : j' = j
  · subst h
    simp [cell, Shared.setSlot]
  · have hne : (s * c.k + j') % c.queueSize ≠ (s * c.k + j) % c.queueSize :=
      fun he => h (index_inj hj' hj he).1
    simp [cell, Shared.setSlot, hne, h]

end Ring

/-- The queue `q` is kept in segments `a` (head's) to `b` (tail's). -/
structure Rep (c : Params) (σ : Shared α) (a b : ℕ) (q : List α) : Prop where
  head : σ.head.value = a * c.k % c.word
  tail : σ.tail.value = b * c.k % c.word
  room : b < a + c.numSegments
  wrap : c.queueSize ∣ c.word ∨ b * c.k < c.word
  items : Segmented c.k (content c σ) a b q
  empty : ∀ s, b < s → s < a + c.numSegments → content c σ s = []

namespace Rep

variable {c : Params} {σ : Shared α} {a b j : ℕ} {q : List α} {x : α}

theorem le_word (hk : 0 < c.k) (hw : 0 < c.word) (hR : Rep c σ a b q) {s : ℕ} (hs : s ≤ b)
    (ha : b < s + c.numSegments) (he : s * c.k % c.word = b * c.k % c.word) : s = b := by
  have hlt : (b - s) * c.k < c.word := by
    rcases hR.wrap with hdvd | hlt
    · have hle := Nat.le_of_dvd hw hdvd
      have : (b - s) * c.k < c.numSegments * c.k := Nat.mul_lt_mul_of_pos_right (by omega) hk
      rw [Params.queueSize, Nat.mul_comm] at hle
      omega
    · have : (b - s) * c.k ≤ b * c.k := Nat.mul_le_mul_right _ (by omega)
      omega
  have hdvd : c.word ∣ b * c.k - s * c.k :=
    Nat.dvd_of_mod_eq_zero (Nat.sub_mod_eq_zero_of_mod_eq he.symm)
  rw [← Nat.sub_mul] at hdvd
  have h0 : (b - s) * c.k = 0 := Nat.eq_zero_of_dvd_of_lt hdvd hlt
  rcases Nat.mul_eq_zero.mp h0 with h | h <;> omega

/-- Head and tail are at the same position only if they are in the same segment. -/
theorem head_eq_tail (hk : 0 < c.k) (hw : 0 < c.word) (hR : Rep c σ a b q) :
    σ.head.value = σ.tail.value ↔ a = b := by
  rw [hR.head, hR.tail]
  exact ⟨hR.le_word hk hw hR.items.le hR.room, fun h => by rw [h]⟩

theorem put (hR : Rep c σ a b q) (hj : j < c.k) (hv : cell c σ b j = none) (n : ℕ) :
    Rep c (σ.setSlot ((b * c.k + j) % c.queueSize) ⟨some x, n⟩) a b (q ++ [x]) := by
  have hle := hR.items.le
  have hroom := hR.room
  refine ⟨hR.head, hR.tail, hR.room, hR.wrap, hR.items.put ?_ fun s h₁ h₂ => ?_,
    fun s h₁ h₂ => ?_⟩
  · rw [content_setSlot hj]
    exact slots_update hj hv
  · exact content_setSlot_other hj fun h => h₂.ne (segment_inj h₂.le (by omega) h)
  · rw [content_setSlot_other hj fun h => h₁.ne (segment_inj h₁.le (by omega) h.symm)]
    exact hR.empty s h₁ h₂

theorem take (hR : Rep c σ a b q) (hj : j < c.k) (hv : cell c σ a j = some x) (n : ℕ) :
    ∃ i < c.k, q[i]? = some x ∧
      Rep c (σ.setSlot ((a * c.k + j) % c.queueSize) ⟨none, n⟩) a b (q.eraseIdx i) := by
  have hroom := hR.room
  have hperm : (content c σ a).Perm
      (x :: content c (σ.setSlot ((a * c.k + j) % c.queueSize) ⟨none, n⟩) a) := by
    rw [content_setSlot hj]
    exact slots_erase hj hv
  obtain ⟨i, hi, hget, hitems⟩ := hR.items.take hperm length_slots_le fun s h₁ h₂ =>
    content_setSlot_other hj fun h => h₁.ne (segment_inj h₁.le (by omega) h.symm)
  refine ⟨i, hi, hget, hR.head, hR.tail, hR.room, hR.wrap, hitems, fun s h₁ h₂ => ?_⟩
  have hle := hR.items.le
  rw [content_setSlot_other hj fun h => absurd (segment_inj (by omega) (by omega) h.symm)
    (show a ≠ s by omega)]
  exact hR.empty s h₁ h₂

theorem advanceTail (hR : Rep c σ a b q) (hk : 0 < c.k) (hfit : Fits c (b + 1))
    (hroom : b + 1 < a + c.numSegments) (hfull : a < b → (content c σ b).length = c.k) :
    Rep c { σ with tail := c.advance σ.tail } a (b + 1) q := by
  refine ⟨hR.head, ?_, hroom, hfit.imp id fun h => by omega,
    hR.items.extend (hR.empty (b + 1) (by omega) hroom) hfull, fun s h₁ h₂ =>
    hR.empty s (by omega) h₂⟩
  simp [Params.advance, hR.tail, Nat.succ_mul]

theorem advanceHead (hR : Rep c σ a b q) (ha : content c σ a = []) (hlt : a < b) :
    Rep c { σ with head := c.advance σ.head } (a + 1) b q := by
  refine ⟨?_, hR.tail, by have := hR.room; omega, hR.wrap, hR.items.drop ha hlt,
    fun s h₁ h₂ => ?_⟩
  · simp [Params.advance, hR.head, Nat.succ_mul]
  · rcases Nat.lt_or_eq_of_le (show s ≤ a + c.numSegments by omega) with h | rfl
    · exact hR.empty s h₁ h
    · exact content_add_ring.trans ha

theorem mod_queueSize (hR : Rep c σ a b q) :
    σ.head.value % c.queueSize = a * c.k % c.queueSize := by
  rw [hR.head]
  rcases hR.wrap with hdvd | hlt
  · exact Nat.mod_mod_of_dvd _ hdvd
  · have := Nat.mul_le_mul_right c.k hR.items.le
    rw [Nat.mod_eq_of_lt (show a * c.k < c.word by omega)]

theorem position_eq (s : ℕ) : s * c.k % c.queueSize = c.k * (s % c.numSegments) := by
  rw [Params.queueSize, Nat.mul_comm s, Nat.mul_mod_mul_left]

/-- The position that `queue_full` compares with head's. -/
theorem position_next (hR : Rep c σ a b q) (hk : 0 < c.k) (hfit : Fits c (b + 1)) :
    (σ.tail.value + c.k) % c.word % c.queueSize = c.k * ((b + 1) % c.numSegments) := by
  have h := index_of_fits hk hfit 0 0
  simp only [Params.index, Nat.add_zero, Nat.zero_mod] at h
  rw [hR.tail, Nat.mod_add_mod, ← Nat.succ_mul]
  rw [Nat.mod_mod] at h
  rw [h, position_eq]

/-- `queue_full` says true only if the ring is full. -/
theorem ring_full (hR : Rep c σ a b q) (hk : 0 < c.k) (hn : 2 ≤ c.numSegments)
    (hfit : Fits c (b + 1))
    (hfull : (σ.tail.value + c.k) % c.word % c.queueSize = σ.head.value) :
    b + 1 = a + c.numSegments := by
  have hsize : 0 < c.queueSize := Nat.mul_pos hk (by omega)
  have hlt : σ.head.value < c.queueSize := by
    rw [← hfull]
    exact Nat.mod_lt _ hsize
  have hmod := hR.mod_queueSize
  rw [Nat.mod_eq_of_lt hlt, ← hfull, hR.position_next hk hfit, position_eq] at hmod
  have hseg := Nat.eq_of_mul_eq_mul_left hk hmod
  have hle := hR.items.le
  have hroom := hR.room
  by_contra hne
  have hab : a = b + 1 := segment_inj (by omega) (by omega) hseg.symm
  omega

end Rep

/-! ### The condition -/

/-- The positions of tail's segment and of the next one are in the range of a
counter, or positions wrap around with the ring. -/
def positionsFit (c : Params) (σ : Shared α) : Bool :=
  c.word % c.queueSize = 0 || σ.tail.value + 2 * c.k ≤ c.word

/-- The ring is full, and head has left its first lap. -/
def lapped (c : Params) (σ : Shared α) : Bool :=
  c.queueSize ≤ σ.head.value &&
  (σ.tail.value + c.k) % c.word = (σ.head.value + c.queueSize) % c.word &&
  (List.range c.k).all fun j =>
    (σ.queue ((σ.tail.value + j) % c.word % c.queueSize)).value.isSome

/-- The calls of which the claim holds. -/
def regular (c : Params) (σ : Shared α) : BagOp α → Bool
  | .put _ => positionsFit c σ && !lapped c σ
  | .get => positionsFit c σ

/-- If positions fit, the next segment lies in range. -/
theorem Rep.fits {c : Params} {σ : Shared α} {a b : ℕ} {q : List α} (hR : Rep c σ a b q) (hfit : positionsFit c σ = true) : Fits c (b + 1) := by
  simp only [positionsFit, Bool.or_eq_true, decide_eq_true_eq] at hfit
  rcases hR.wrap with hdvd | hlt
  · exact .inl hdvd
  · refine hfit.imp Nat.dvd_of_mod_eq_zero fun h => ?_
    rw [hR.tail, Nat.mod_eq_of_lt hlt] at h
    rw [Nat.succ_mul]
    omega

/-- A full ring whose fullness `queue_full` does not see. -/
theorem Rep.lapped {c : Params} {σ : Shared α} {a b : ℕ} {q : List α} (hR : Rep c σ a b q) (hk : 0 < c.k) (hfit : Fits c (b + 1))
    (hring : b + 1 = a + c.numSegments) (hfull : ∀ j < c.k, cell c σ b j ≠ none)
    (hno : (σ.tail.value + c.k) % c.word % c.queueSize ≠ σ.head.value) :
    lapped c σ = true := by
  simp only [BoundedSizeKFifo.lapped, Bool.and_eq_true, decide_eq_true_eq, List.all_eq_true,
    List.mem_range]
  refine ⟨⟨?_, ?_⟩, fun j hj => ?_⟩
  · -- in the first lap the test would have succeeded
    by_contra hlt
    have hmod := hR.mod_queueSize
    rw [Nat.mod_eq_of_lt (by omega), position_eq] at hmod
    refine hno ?_
    rw [hR.position_next hk hfit, hring, Nat.add_mod_right, hmod]
  · rw [hR.tail, hR.head, Nat.mod_add_mod, Nat.mod_add_mod, ← Nat.succ_mul, Nat.succ_eq_add_one,
      hring, Nat.add_mul, Params.queueSize, Nat.mul_comm c.k]
  · have := index_of_fits hk (hfit.of_le (Nat.le_succ _)) 0 j
    rw [Params.index, Nat.zero_add, Nat.mod_eq_of_lt hj, ← hR.tail] at this
    rw [this]
    exact Option.isSome_iff_ne_none.mpr (hfull j hj)

/-! ### Dequeue -/

section Calls

variable [DecidableEq α] {c : Params} {σ : Shared α} {t a b s : ℕ} {q : List α} {x : α}
  {Q : Shared α → BagRet α → Prop}

/-- `find_index` for an item in segment `s`. -/
theorem ends_deqFind (hk : 0 < c.k) (hs : Fits c s) {h tl : AtomicValue ℕ}
    (hh : h.value = s * c.k % c.word) (random : ℕ)
    (hsome : ∀ j < c.k, cell c σ s j ≠ none → Ends (machine c α) t Q σ
      (.deqCheck h tl (some ⟨(s * c.k + j) % c.queueSize,
        σ.queue ((s * c.k + j) % c.queueSize)⟩)))
    (hnone : (∀ j < c.k, cell c σ s j = none) →
      Ends (machine c α) t Q σ (.deqCheck h tl none)) :
    Ends (machine c α) t Q σ (.deqFind h tl random 0) := by
  have hidx : ∀ j, c.index h.value random j = (s * c.k + (random + j) % c.k) % c.queueSize :=
    fun j => by rw [hh, index_of_fits hk hs]
  refine Ends.find (M := machine c α) (l := fun j => .deqFind h tl random j)
    random (fun j => cell c σ s j ≠ none) hk (fun j _ => ?_) hsome fun hno =>
      hnone fun j hj => not_not.mp (hno j hj)
  simp only [step, cell, hidx]
  by_cases hv : (σ.queue ((s * c.k + (random + j) % c.k) % c.queueSize)).value = none
  · simp [hv, apply_ite]
  · simp [hv]

/-- What a call has done when it returns. -/
def Post (c : Params) (full : List α → Prop) (q : List α) (op : BagOp α) (σ : Shared α)
    (r : BagRet α) : Prop :=
  ∃ q', KFifoStep c.k full q op r q' ∧ ∃ a b, Rep c σ a b q'

/-- The `cas` that takes an item of head's segment. -/
theorem ends_deqTake {full : List α → Prop} (hR : Rep c σ a b q) {j : ℕ} (hj : j < c.k)
    (hv : cell c σ a j ≠ none) :
    Ends (machine c α) t (Post c full q .get) σ (.deqTake
      ⟨(a * c.k + j) % c.queueSize, σ.queue ((a * c.k + j) % c.queueSize)⟩) := by
  obtain ⟨y, hy⟩ := Option.ne_none_iff_exists'.mp hv
  obtain ⟨i, hi, hget, hR'⟩ := hR.take hj hy
    (((σ.queue ((a * c.k + j) % c.queueSize)).aba + 1) % c.word)
  refine .stop _ (.got (some y)) (fun _ => ?_) ⟨_, ⟨i, hi, hget, rfl⟩, a, b, hR'⟩
  have hval : (σ.queue ((a * c.k + j) % c.queueSize)).value = some y := hy
  simp only [step, if_true, hval]

theorem ends_dequeue {full : List α → Prop} (hk : 0 < c.k) (hw : 0 < c.word)
    (hn : 2 ≤ c.numSegments) (hfit : Fits c (b + 1)) (q : List α) :
    ∀ m (σ : Shared α) a, a + m = b → Rep c σ a b q →
      Ends (machine c α) t (Post c full q .get) σ .deqHead := by
  intro m
  induction m with
  | zero =>
    rintro σ a rfl hR
    have heq := (hR.head_eq_tail hk hw).mpr rfl
    refine .go _ _ (fun _ => rfl) (.draw (fun _ => rfl) fun random => ?_)
    refine ends_deqFind hk (hfit.of_le (Nat.le_succ _)) hR.head _ (fun j hj hv => ?_)
      fun hno => ?_
    · -- tail moves on, and then the item is taken
      refine .go σ (.deqAdvanceTail σ.tail ⟨(a * c.k + j) % c.queueSize,
        σ.queue ((a * c.k + j) % c.queueSize)⟩) (fun _ => ?_) ?_
      · simp only [step, if_true, if_pos heq]
      · refine .go { σ with tail := c.advance σ.tail } _ (fun _ => ?_)
          (ends_deqTake (hR.advanceTail hk hfit (by omega) (by omega)) hj hv)
        simp only [step, if_true]
    · refine .go σ (.deqEmpty σ.head σ.tail) (fun _ => ?_) ?_
      · simp only [step, if_true, if_pos heq]
      · obtain rfl := hR.items.eq_nil (slots_eq_nil hno)
        refine .stop _ (.got none) (fun _ => ?_) ⟨[], ⟨rfl, rfl⟩, _, _, hR⟩
        simp only [step, if_true]
  | succ m ih =>
    intro σ a ham hR
    have hne : σ.head.value ≠ σ.tail.value := fun h =>
      absurd ((hR.head_eq_tail hk hw).mp h) (by omega)
    refine .go _ _ (fun _ => rfl) (.draw (fun _ => rfl) fun random => ?_)
    refine ends_deqFind hk (hfit.of_le (by omega)) hR.head _ (fun j hj hv => ?_) fun hno => ?_
    · refine .go σ _ (fun _ => ?_) (ends_deqTake hR hj hv)
      simp only [step, if_true, if_neg hne]
    · refine .go σ (.deqAdvanceHead σ.head) (fun _ => ?_) ?_
      · simp only [step, if_true, if_neg hne]
      · refine .go { σ with head := c.advance σ.head } _ (fun _ => ?_)
          (ih _ (a + 1) (by omega) (hR.advanceHead (slots_eq_nil hno) (by omega)))
        simp only [step, if_true]

/-! ### Enqueue -/

/-- `find_index` for an empty slot in segment `s`. -/
theorem ends_enqFind (hk : 0 < c.k) (hs : Fits c s) {tl h : AtomicValue ℕ}
    (htl : tl.value = s * c.k % c.word) (random : ℕ)
    (hsome : ∀ j < c.k, cell c σ s j = none → Ends (machine c α) t Q σ
      (.enqCheck x tl h (some ⟨(s * c.k + j) % c.queueSize,
        σ.queue ((s * c.k + j) % c.queueSize)⟩)))
    (hnone : (∀ j < c.k, cell c σ s j ≠ none) →
      Ends (machine c α) t Q σ (.enqCheck x tl h none)) :
    Ends (machine c α) t Q σ (.enqFind x tl h random 0) := by
  have hidx : ∀ j, c.index tl.value random j = (s * c.k + (random + j) % c.k) % c.queueSize :=
    fun j => by rw [htl, index_of_fits hk hs]
  refine Ends.find (M := machine c α) (l := fun j => .enqFind x tl h random j)
    random (fun j => cell c σ s j = none) hk (fun j _ => ?_) hsome hnone
  simp only [step, cell, hidx]
  by_cases hv : (σ.queue ((s * c.k + (random + j) % c.k) % c.queueSize)).value = none
  · simp [hv]
  · simp [hv, apply_ite]

/-- Alone, `committed` keeps every item. -/
theorem ends_committed {full : List α → Prop} (hR : Rep c σ a b (q ++ [x])) {i : ℕ}
    {new : AtomicValue (Option α)} (hnew : (σ.queue i).value = new.value) :
    Ends (machine c α) t (Post c full q (.put x)) σ (.comValue x σ.tail.value i new) := by
  have hpost : Post c full q (.put x) σ (.put true) := ⟨_, rfl, a, b, hR⟩
  refine .go σ (.comTail x σ.tail.value i new) (fun _ => by simp [step, hnew]) ?_
  refine .go σ (.comHead x σ.tail.value i new σ.tail.value) (fun _ => rfl) ?_
  rcases Nat.lt_trichotomy σ.head.value σ.tail.value with hlt | heq | hgt
  · refine .stop _ (.put true) (fun _ => ?_) hpost
    simp [step, inValidRegion, hlt, Nat.not_lt.mpr hlt.le]
  · -- the item is in head's segment
    refine .go σ (.comBump x σ.tail.value i new σ.head) (fun _ => ?_) ?_
    · simp [step, inValidRegion, notInValidRegion, heq]
    · refine .stop { σ with head := ⟨σ.head.value, (σ.head.aba + 1) % c.word⟩ } (.put true)
        (fun _ => by simp only [step, if_true]) ⟨_, rfl, a, b, ⟨hR.head, hR.tail, hR.room, hR.wrap, hR.items, hR.empty⟩⟩
  · -- positions have wrapped around
    refine .stop _ (.put true) (fun _ => ?_) hpost
    simp [step, inValidRegion, hgt]

/-- An empty slot in tail's segment gets the item. -/
theorem ends_enqInsert {full : List α → Prop} (hR : Rep c σ a b q) {j : ℕ} (hj : j < c.k)
    (hv : cell c σ b j = none) (h : AtomicValue ℕ) :
    Ends (machine c α) t (Post c full q (.put x)) σ (.enqCheck x σ.tail h
      (some ⟨(b * c.k + j) % c.queueSize, σ.queue ((b * c.k + j) % c.queueSize)⟩)) := by
  refine .go σ (.enqInsert x σ.tail ⟨(b * c.k + j) % c.queueSize,
    σ.queue ((b * c.k + j) % c.queueSize)⟩) (fun _ => by simp [step]) ?_
  refine .go _ _ (fun _ => by simp only [step, if_true]; rfl)
    (ends_committed (hR.put hj hv _) ?_)
  simp [Shared.setSlot]

/-- An enqueue that finds an empty slot in tail's segment. -/
theorem ends_enqueue_room {full : List α → Prop} (hk : 0 < c.k) (hfit : Fits c b)
    (hR : Rep c σ a b q) (hroom : ∃ j < c.k, cell c σ b j = none) :
    Ends (machine c α) t (Post c full q (.put x)) σ (.enqTail x) := by
  refine .go _ _ (fun _ => rfl) (.draw (fun _ => rfl) fun random => ?_)
  refine ends_enqFind hk hfit hR.tail _ (fun j hj hv => ends_enqInsert hR hj hv _) fun hno => ?_
  obtain ⟨j, hj, hv⟩ := hroom
  exact absurd hv (hno j hj)

/-- The loop of `segment_not_empty`. -/
theorem ends_enqSegment (hk : 0 < c.k) (hs : Fits c s) {tl h : AtomicValue ℕ}
    (hh : h.value = s * c.k % c.word)
    (hfull : content c σ s ≠ [] → Ends (machine c α) t Q σ (.enqHeadMoved x tl h))
    (hempty : content c σ s = [] → Ends (machine c α) t Q σ (.enqAdvanceHead x tl h)) :
    Ends (machine c α) t Q σ (.enqSegment x tl h 0) := by
  have hidx : ∀ j < c.k, (h.value + j) % c.word % c.queueSize = (s * c.k + j) % c.queueSize := by
    intro j hj
    have := index_of_fits hk hs 0 j
    rwa [Params.index, Nat.zero_add, Nat.mod_eq_of_lt hj, ← hh] at this
  refine Ends.scan (M := machine c α) (l := fun j => .enqSegment x tl h j)
    (fun j => cell c σ s j ≠ none) (fun j hj hit => ?_) (fun j hj hmiss ih => ?_)
    (fun j hj hno => ?_) hk
  · refine .go _ _ (fun _ => ?_) (hfull fun hnil => hit (none_of_slots_eq_nil hnil hj))
    have hv : (σ.queue ((h.value + j) % c.word % c.queueSize)).value ≠ none := by
      rw [hidx j hj]
      exact hit
    simp only [step, if_pos hv]
  · refine .go _ _ (fun _ => ?_) ih
    have hv : ¬ (σ.queue ((h.value + j) % c.word % c.queueSize)).value ≠ none := by
      rw [hidx j (by omega)]
      exact hmiss
    simp only [step, if_neg hv, if_pos hj]
  · refine .go _ _ (fun _ => ?_)
      (hempty (slots_eq_nil fun j' hj' => not_not.mp (hno j' hj')))
    have hv : ¬ (σ.queue ((h.value + j) % c.word % c.queueSize)).value ≠ none := by
      rw [hidx j (by omega)]
      exact hno j (by omega)
    simp only [step, if_neg hv, if_neg (show ¬ j + 1 < c.k by omega)]

theorem ends_enqueue (hk : 0 < c.k) (hn : 2 ≤ c.numSegments) (hR : Rep c σ a b q)
    (hfit : positionsFit c σ = true) (hlap : lapped c σ = false) :
    Ends (machine c α) t
      (Post c (fun q => (c.numSegments - 1) * c.k + 1 ≤ q.length) q (.put x)) σ (.enqTail x) := by
  have hfit := hR.fits hfit
  refine .go _ _ (fun _ => rfl) (.draw (fun _ => rfl) fun random => ?_)
  refine ends_enqFind hk (hfit.of_le (Nat.le_succ _)) hR.tail _
    (fun j hj hv => ends_enqInsert hR hj hv _) fun hfull => ?_
  have hlen : (content c σ b).length = c.k := length_slots_full hfull
  refine .go σ (.enqFull x σ.tail σ.head) (fun _ => by simp [step]) ?_
  by_cases htest : (σ.tail.value + c.k) % c.word % c.queueSize = σ.head.value
  · -- the ring is full
    have hring := hR.ring_full hk hn hfit htest
    have hab : a < b := by omega
    refine .go σ (.enqSegment x σ.tail σ.head 0)
      (fun _ => by simp [step, Params.queueFull, htest]) ?_
    refine ends_enqSegment hk (hfit.of_le (by omega)) hR.head (fun hne => ?_) fun hnil => ?_
    · -- and no slot of head's segment is to be reused
      refine .stop σ (.put false) (fun _ => by simp [step]) ⟨q, ⟨rfl, ?_⟩, a, b, hR⟩
      have := hR.items.length_eq hlen hab
      have := List.length_pos_of_ne_nil hne
      rw [show b - a = c.numSegments - 1 by omega] at *
      omega
    · -- head's segment is empty: it becomes tail's next one
      have hR' := (hR.advanceHead hnil hab).advanceTail hk hfit (by omega) fun _ => hlen
      refine .go { σ with head := c.advance σ.head } (.enqAdvanceTail x σ.tail)
        (fun _ => by simp only [step, if_true]) ?_
      refine .go _ _ (fun _ => by simp only [step, if_true])
        (ends_enqueue_room hk hfit hR' ⟨0, hk, ?_⟩)
      have hnext : content c σ (b + 1) = [] := by
        rw [hring, content_add_ring]
        exact hnil
      exact none_of_slots_eq_nil hnext hk
  · -- there is another segment
    have hroom : b + 1 < a + c.numSegments := by
      have := hR.room
      rcases Nat.lt_or_eq_of_le (show b + 1 ≤ a + c.numSegments by omega) with h | h
      · exact h
      · have := hR.lapped hk hfit h hfull htest
        simp [hlap] at this
    have hR' := hR.advanceTail hk hfit hroom fun _ => hlen
    refine .go σ (.enqAdvanceTail x σ.tail)
      (fun _ => by simp [step, Params.queueFull, htest]) ?_
    refine .go _ _ (fun _ => by simp only [step, if_true])
      (ends_enqueue_room hk hfit hR' ⟨0, hk, ?_⟩)
    exact none_of_slots_eq_nil (hR.empty (b + 1) (by omega) hroom) hk

/-! ### All sequences of calls -/

/-- **The bounded-size k-FIFO queue, used by one thread at a time, is a bounded k-FIFO
queue**, as long as the calls are regular. -/
theorem sequential_of_regular {k n : ℕ} (hk : 1 ≤ k) (hn : 2 ≤ n) :
    Sequential (machine ⟨k, n, wordSize⟩ α) (regular ⟨k, n, wordSize⟩)
      (kFifoSpec k fun q : List α => (n - 1) * k + 1 ≤ q.length) := by
  refine sequential_of_simulation (fun σ q => ∃ a b, Rep ⟨k, n, wordSize⟩ σ a b q) ?_ ?_
  · have hnil : ∀ s, content ⟨k, n, wordSize⟩ (Shared.init : Shared α) s = [] := fun s =>
      slots_eq_nil fun _ _ => rfl
    refine ⟨0, 0, ?_, ?_, by simp; omega, .inr (by simp [wordSize]), .nil (hnil 0),
      fun s _ _ => hnil s⟩
    · simp [Shared.init]
    · simp [Shared.init]
  · rintro σ q t op ⟨a, b, hR⟩ hok
    rcases op with x | _
    · simp only [regular, Bool.and_eq_true, Bool.not_eq_true'] at hok
      exact ends_enqueue hk hn hR hok.1 hok.2
    · exact ends_dequeue (c := ⟨k, n, wordSize⟩) hk (by simp [wordSize]) hn (hR.fits hok) q (b - a) σ a
        (by have := hR.items.le; omega) hR

end Calls

/-- A ring of three slots that is filled in its first lap, and then used beyond it. -/
def firstLap : List (SoloCall (machine ⟨1, 3, wordSize⟩ ℕ)) :=
  [.put 1, .put 2, .put 3, .put 4, .get, .get, .put 5, .get, .get, .get].map
    fun op => ⟨0, op, List.replicate 16 0⟩

theorem sequential_firstLap :
    Sequential (machine ⟨1, 3, wordSize⟩ ℕ) (regular ⟨1, 3, wordSize⟩)
      (kFifoSpec 1 fun q : List ℕ => (3 - 1) * 1 + 1 ≤ q.length) ∧
    (solos (machine ⟨1, 3, wordSize⟩ ℕ) (regular ⟨1, 3, wordSize⟩)
      (machine ⟨1, 3, wordSize⟩ ℕ).init firstLap).isSome = true :=
  ⟨sequential_of_regular (by decide) (by decide), by decide⟩

/-- Three items one after the other through a ring of two slots, then two more. -/
def secondLap : List (SoloCall (machine ⟨1, 2, wordSize⟩ ℕ)) :=
  [.put 1, .get, .put 2, .get, .put 3, .get, .put 4, .put 5, .get].map
    fun op => ⟨0, op, List.replicate 16 0⟩

/-- **Tail overtakes head**: `5` is dequeued before `4`. -/
theorem not_sequential_secondLap : ¬ Sequential (machine ⟨1, 2, wordSize⟩ ℕ) (fun _ _ => true)
    (kFifoSpec 1 fun q : List ℕ => (2 - 1) * 1 + 1 ≤ q.length) := by
  intro h
  have hrun : (solos (machine ⟨1, 2, wordSize⟩ ℕ) (fun _ _ => true)
      (machine ⟨1, 2, wordSize⟩ ℕ).init secondLap).map (·.2) =
      some [(.put 1, .put true), (.get, .got (some 1)), (.put 2, .put true),
        (.get, .got (some 2)), (.put 3, .put true), (.get, .got (some 3)),
        (.put 4, .put true), (.put 5, .put true), (.get, .got (some 5))] := by decide
  obtain ⟨⟨σ, L⟩, hs, rfl⟩ := Option.map_eq_some_iff.mp hrun
  obtain ⟨⟨q, hq⟩, -⟩ := h secondLap σ _ hs
  simp [Spec.run_cons_iff, kFifoSpec, KFifoStep] at hq

end BoundedSizeKFifo
