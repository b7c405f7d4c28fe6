import QtWebKit.Graphics.PlatformTimeRanges

/-!
# Evicting coded frames

A full source buffer first removes frames from the beginning, thirty seconds at a time, up to
thirty seconds before the current time. If that is not enough it removes frames from the end
back to thirty seconds after the current time, and tries to spare the buffered range that the
current time is in.

## Implementation notes

Times are rationals: the scale of thirty seconds is one, so a sum with it has the scale of the
other time and is exact while its value fits in 64 bits. Whether the memory is enough after a
removal is a function of how many there were. The buffered ranges are those after the first
loop.
-/

namespace QtWebKit.MediaSource

open PlatformTimeRanges Set Option List

namespace Eviction

variable (buffered : List (Range ℚ)) (enough : Nat → Bool)

/-- The index of the first range with the time, or `notFound`. -/
def find (time : ℚ) : Option Nat :=
  buffered.findIdx? fun range => time ∈ Icc range.start range.stop

/-- The start of a range, and zero for an index like `notFound` that is out of bounds. -/
def start (index : Option Nat) : ℚ :=
  ((index.bind (buffered[·]?)).map Range.start).getD 0

/-- The first loop: its calls of `removeCodedFrames`, and whether the buffer is still full. -/
def evictBefore (maximumRangeEnd : ℚ) :
    Nat → Nat → ℚ → ℚ → Option (List (Range ℚ) × Bool)
  | 0, _, _, _ => none
  | rounds + 1, made, rangeStart, rangeEnd =>
    if rangeStart < maximumRangeEnd then
      let call := ⟨rangeStart, min rangeEnd maximumRangeEnd⟩
      if enough (made + 1) then some ([call], false)
      else (evictBefore maximumRangeEnd rounds (made + 1) (rangeStart + 30) (rangeEnd + 30)).map
        fun rest => (call :: rest.1, rest.2)
    else some ([], true)

/-- The end that the second loop removes up to, or `none` if it stops. -/
def endOfRemoval (currentTimeRange : Nat) (rangeStart rangeEnd : ℚ) : Option ℚ :=
  if find buffered rangeStart = some currentTimeRange then
    if find buffered rangeEnd = some currentTimeRange then none
    else some (start buffered (find buffered rangeEnd))
  else some rangeEnd

/-- The second loop. -/
def evictAfter (currentTimeRange : Nat) (minimumRangeStart : ℚ) :
    Nat → Nat → ℚ → ℚ → Option (List (Range ℚ))
  | 0, _, _, _ => none
  | rounds + 1, made, rangeStart, rangeEnd =>
    if rangeStart > minimumRangeStart then
      (endOfRemoval buffered currentTimeRange rangeStart rangeEnd).elim (some []) fun rangeEnd =>
        let call := ⟨max minimumRangeStart rangeStart, rangeEnd⟩
        if enough (made + 1) then some [call]
        else (evictAfter currentTimeRange minimumRangeStart rounds (made + 1) (rangeStart - 30)
          (rangeEnd - 30)).map (call :: ·)
    else some []

/-- The range of the current time, if the second loop is run. -/
def currentTimeRange (bufferFull : Bool) (currentTime : ℚ) : Option Nat :=
  if bufferFull then (find buffered currentTime).filter (· ≠ buffered.length - 1) else none

/-- The calls of both loops, for a full source buffer that is not removed. -/
def evictCodedFrames (currentTime duration : ℚ) (rounds : Nat) :
    Option (List (Range ℚ) × List (Range ℚ)) :=
  (evictBefore enough (currentTime - 30) rounds 0 0 30).bind fun first =>
    ((currentTimeRange buffered first.2 currentTime).elim (some []) fun currentTimeRange =>
      evictAfter buffered enough currentTimeRange (currentTime + 30) rounds first.1.length
        (duration - 30) duration).map (first.1, ·)

/-- What the two lists of removals must leave alone. -/
structure Protects (currentTime : ℚ) (calls : List (Range ℚ) × List (Range ℚ)) : Prop where
  before : ∀ call ∈ calls.1, call.start < call.stop ∧ call.stop ≤ currentTime - 30
  after : ∀ call ∈ calls.2, call.start < call.stop ∧ currentTime + 30 ≤ call.start ∧
    ∀ range ∈ buffered, currentTime ∈ Icc range.start range.stop →
      Disjoint (Ico call.start call.stop) (Icc range.start range.stop)

/-! ### The first loop -/

theorem evictBefore_spec {enough : Nat → Bool} {limit pos : ℚ} {rounds made : Nat}
    {result : List (Range ℚ) × Bool}
    (h : evictBefore enough limit rounds made pos (pos + 30) = some result) :
    (∀ call ∈ result.1, call.start < call.stop ∧ call.stop ≤ limit) ∧
      (result.2 = true ∨ ∃ n, enough n = true) := by
  induction rounds generalizing made pos result with
  | zero => cases h
  | succ rounds ih =>
    rw [evictBefore] at h
    split_ifs at h with hlt hen
    · obtain rfl := some.inj h
      exact ⟨by simp [hlt], .inr ⟨_, hen⟩⟩
    · obtain ⟨rest, hr, rfl⟩ := map_eq_some_iff.mp h
      obtain ⟨hcl, hfl⟩ := ih hr
      exact ⟨forall_mem_cons.mpr ⟨by simp [hlt], hcl⟩, hfl⟩
    · obtain rfl := some.inj h
      exact ⟨by simp, .inl rfl⟩

theorem evictBefore_isSome {limit pos stop : ℚ} {rounds made : Nat}
    (h : limit ≤ pos + 30 * rounds) :
    (evictBefore enough limit (rounds + 1) made pos stop).isSome = true := by
  induction rounds generalizing made pos stop with
  | zero =>
    rw [evictBefore, if_neg (by simpa using h)]
    rfl
  | succ rounds ih =>
    rw [evictBefore]
    split_ifs
    · rfl
    · rw [isSome_map]
      apply ih
      push_cast at h
      linarith
    · rfl

/-! ### The second loop -/

theorem evictAfter_isSome {current : Nat} {limit pos stop : ℚ}
    {rounds made : Nat} (h : pos ≤ limit + 30 * rounds) :
    (evictAfter buffered enough current limit (rounds + 1) made pos stop).isSome = true := by
  induction rounds generalizing made pos stop with
  | zero =>
    rw [evictAfter, if_neg (by simpa using h)]
    rfl
  | succ rounds ih =>
    rw [evictAfter]
    split_ifs
    · cases endOfRemoval buffered current pos stop <;> rfl
    · cases endOfRemoval buffered current pos stop with
      | none => rfl
      | some _ =>
        rw [elim_some, isSome_map]
        apply ih
        push_cast at h
        linarith
    · rfl

theorem step_succ (time : ℚ) (k : Nat) : time - 30 * (k + 1 : Nat) = time - 30 - 30 * k := by
  push_cast
  ring

section

variable {buffered} {current : Nat} {range : Range ℚ}
  (hf : ∀ time, find buffered time = some current ↔ time ∈ Icc range.start range.stop)
  {now pos stop : ℚ} (hcr : now ∈ Icc range.start range.stop)
  {rounds made : Nat} {calls : List (Range ℚ)}

include hf hcr

theorem endOfRemoval_eq (h : now ≤ pos) (he : range.stop < pos + 30) :
    endOfRemoval buffered current pos (pos + 30) = some
      (if pos ≤ range.stop then start buffered (find buffered (pos + 30)) else pos + 30) := by
  have hst := hcr.1.trans h
  simp only [endOfRemoval, hf, mem_Icc, hst, true_and, he.not_ge, and_false, if_false]
  split_ifs <;> rfl

/-- No step of thirty seconds ends in the range of the current time. -/
theorem evictAfter_spec (hgr : ∀ k : ℕ, now + 30 < pos - 30 * k → range.stop < pos - 30 * k)
    (h : evictAfter buffered enough current (now + 30) rounds made pos (pos + 30) = some calls) :
    ∀ call ∈ calls, call.start < call.stop ∧ now + 30 ≤ call.start ∧
      range.stop < call.start := by
  induction rounds generalizing made pos calls with
  | zero => cases h
  | succ rounds ih =>
    rw [evictAfter] at h
    by_cases hgt : pos > now + 30
    · have hp := hgr 0 (by simpa using hgt)
      rw [Nat.cast_zero, mul_zero, sub_zero] at hp
      have he := endOfRemoval_eq hf hcr (by linarith) (by linarith : _ < pos + 30)
      rw [if_neg hp.not_ge] at he
      have hc : (⟨max (now + 30) pos, pos + 30⟩ : Range ℚ) =
          ⟨pos, pos + 30⟩ := by rw [max_eq_right hgt.le]
      rw [if_pos hgt, he, elim_some, hc] at h
      have hfr : pos < pos + 30 ∧ now + 30 ≤ pos ∧
          range.stop < pos := ⟨by linarith, hgt.le, hp⟩
      split_ifs at h
      · obtain rfl := some.inj h
        simpa using hfr
      · obtain ⟨rest, hr, rfl⟩ := map_eq_some_iff.mp h
        rw [forall_mem_cons]
        rw [add_sub_right_comm] at hr
        refine ⟨hfr, ih (fun k hk => ?_) hr⟩
        rw [← step_succ] at hk ⊢
        exact hgr (k + 1) hk
    · rw [if_neg hgt] at h
      obtain rfl := some.inj h
      simp

/-- A step that starts in the range of the current time, and does not end there, is removed. -/
theorem exists_mem_evictAfter {k : Nat} (hgt : now + 30 < pos - 30 * k)
    (hle : pos - 30 * k ≤ range.stop) (he : range.stop < pos + 30)
    (h : evictAfter buffered (fun _ => false) current (now + 30) rounds made pos
      (pos + 30) = some calls) :
    ∃ call ∈ calls, now + 30 ≤ call.start ∧ call.start ≤ range.stop := by
  induction rounds generalizing made pos calls k with
  | zero => cases h
  | succ rounds ih =>
    have hk : (0 : ℚ) ≤ 30 * k := by positivity
    have hst : pos > now + 30 := by linarith
    rw [evictAfter, if_pos hst, endOfRemoval_eq hf hcr (by linarith) he, elim_some] at h
    obtain ⟨rest, hr, rfl⟩ := map_eq_some_iff.mp h
    by_cases hin : pos ≤ range.stop
    · exact ⟨_, mem_cons_self, le_max_left .., max_le (by linarith) hin⟩
    · rw [if_neg hin] at hr
      cases k with
      | zero => simp at hle; linarith
      | succ k =>
        rw [step_succ] at hgt hle
        rw [add_sub_right_comm] at hr
        obtain ⟨call, hc, hbd⟩ := ih hgt hle (by linarith) hr
        exact ⟨call, mem_cons_of_mem _ hc, hbd⟩

theorem evictAfter_eq_nil (he : pos + 30 ∈ Icc range.start range.stop)
    (h : evictAfter buffered enough current (now + 30) rounds made pos
      (pos + 30) = some calls) : calls = [] := by
  cases rounds with
  | zero => cases h
  | succ rounds =>
    rw [evictAfter] at h
    by_cases hgt : pos > now + 30
    · have hst : pos ∈ Icc range.start range.stop :=
        ⟨hcr.1.trans (by linarith), by linarith [he.2]⟩
      rw [if_pos hgt, endOfRemoval, if_pos ((hf _).mpr hst), if_pos ((hf _).mpr he)] at h
      exact (some.inj h).symm
    · rw [if_neg hgt] at h
      exact (some.inj h).symm

end

theorem find_eq_some_iff {buffered} (hsp : Separated buffered) {i : Nat} {range : Range ℚ}
    (hg : buffered[i]? = some range) (time : ℚ) :
    find buffered time = some i ↔ time ∈ Icc range.start range.stop := by
  obtain ⟨hi, rfl⟩ := List.getElem?_eq_some_iff.mp hg
  rw [find, findIdx?_eq_some_iff_getElem]
  simp only [decide_eq_true_eq]
  refine ⟨fun ⟨_, h, _⟩ => h, fun h => ⟨hi, h, fun j hj hmm => ?_⟩⟩
  have hlt := pairwise_iff_getElem.mp hsp.lt j i (hj.trans hi) hi hj
  exact (hmm.2.trans_lt hlt).not_ge h.1

/-! ### Both loops -/

variable {buffered enough} {currentTime duration : ℚ}

theorem evictCodedFrames_isSome :
    ∃ rounds, (evictCodedFrames buffered enough currentTime duration rounds).isSome = true := by
  obtain ⟨m, hm⟩ := exists_nat_ge ((currentTime - 30) / 30)
  obtain ⟨n, hn⟩ := exists_nat_ge ((duration - 30 - (currentTime + 30)) / 30)
  rw [div_le_iff₀' (by simp)] at hm hn
  have hb : currentTime - 30 ≤ 0 + 30 * (m + n : Nat) := by
    push_cast
    linarith [n.cast_nonneg (α := ℚ)]
  have ha : duration - 30 ≤ currentTime + 30 + 30 * (m + n : Nat) := by
    push_cast
    linarith [m.cast_nonneg (α := ℚ)]
  obtain ⟨first, hfr⟩ := isSome_iff_exists.mp (evictBefore_isSome enough hb)
  refine ⟨m + n + 1, ?_⟩
  rw [evictCodedFrames, hfr, bind_some, isSome_map]
  cases currentTimeRange buffered first.2 currentTime with
  | none => rfl
  | some current => exact evictAfter_isSome _ _ ha

theorem evictCodedFrames_cases {rounds : Nat} {calls : List (Range ℚ) × List (Range ℚ)}
    (h : evictCodedFrames buffered enough currentTime duration rounds = some calls) :
    (∀ call ∈ calls.1, call.start < call.stop ∧ call.stop ≤ currentTime - 30) ∧
      ∃ bufferFull, (bufferFull = true ∨ ∃ n, enough n = true) ∧
        ((currentTimeRange buffered bufferFull currentTime).elim (some []) fun current =>
          evictAfter buffered enough current (currentTime + 30) rounds calls.1.length
            (duration - 30) (duration - 30 + 30)) = some calls.2 := by
  obtain ⟨first, hfr, hcl⟩ := bind_eq_some_iff.mp h
  obtain ⟨second, hs, rfl⟩ := map_eq_some_iff.mp hcl
  obtain ⟨hb, hfl⟩ := evictBefore_spec (by rwa [zero_add] : _ = some first)
  rw [sub_add_cancel]
  exact ⟨hb, first.2, hfl, hs⟩

end Eviction

open Eviction

end QtWebKit.MediaSource
