import Mathlib

/-!
# Coded frame groups in sequence mode

A source buffer in sequence mode moves the coded frames it receives: a pending group start
timestamp becomes the timestamp offset, and a discontinuity of the decode times starts a group at
the group end timestamp and processes the same frame again.

## Implementation notes

Times are exact, and an invalid time is `none`. The append window is checked, but it stays as it
is made: it starts at zero and has no end. A track without a track buffer has the one that is made
for it.
-/

namespace QtWebKit.MediaSource

variable {Time Track : Type}

inductive AppendMode where
  | segments
  | sequence
deriving DecidableEq

structure TrackBuffer (Time : Type) where
  /-- `lastDecodeTimestamp` and `lastFrameDuration`, which are set and unset together. -/
  last : Option (Time × Time)
  needRandomAccessFlag : Bool

structure CodedFrame (Time Track : Type) where
  presentationTime : Time
  decodeTime : Time
  duration : Time
  isSync : Bool
  trackID : Track

structure SourceBuffer (Time Track : Type) where
  mode : AppendMode
  shouldGenerateTimestamps : Bool
  groupStartTimestamp : Option Time
  groupEndTimestamp : Time
  timestampOffset : Time
  appendWindowStart : Time
  /-- Positive infinity is the top element. -/
  appendWindowEnd : WithTop Time
  trackBuffers : Track → TrackBuffer Time

inductive Outcome (Time : Type) where
  | failed
  | dropped
  | stored (presentationTimestamp : Time)
deriving DecidableEq

namespace SourceBuffer

def setTimestampOffset (buffer : SourceBuffer Time Track) (offset : Time) :
    SourceBuffer Time Track :=
  { buffer with
    groupStartTimestamp :=
      if buffer.mode = .sequence then some offset else buffer.groupStartTimestamp
    timestampOffset := offset }

def setMode (buffer : SourceBuffer Time Track) (newMode : AppendMode) : SourceBuffer Time Track :=
  if buffer.shouldGenerateTimestamps && newMode = .segments then buffer
  else
    { buffer with
      groupStartTimestamp :=
        if newMode = .sequence then some buffer.groupEndTimestamp else buffer.groupStartTimestamp
      mode := newMode }

/-- The body of step 1.3. -/
def beginAt (buffer : SourceBuffer Time Track) (start : Time) : SourceBuffer Time Track :=
  { buffer with
    timestampOffset := start
    groupEndTimestamp := start
    trackBuffers := fun track => { buffer.trackBuffers track with needRandomAccessFlag := true }
    groupStartTimestamp := none }

def startGroup (buffer : SourceBuffer Time Track) : SourceBuffer Time Track :=
  if buffer.mode = .sequence then buffer.groupStartTimestamp.elim buffer buffer.beginAt else buffer

variable [AddCommGroup Time]

def create : SourceBuffer Time Track :=
  ⟨.segments, false, none, 0, 0, 0, ⊤, fun _ => ⟨none, true⟩⟩

/-- The presentation and the decode timestamp of a frame, moved by the timestamp offset. -/
def timestamps (buffer : SourceBuffer Time Track) (frame : CodedFrame Time Track) : Time × Time :=
  if buffer.shouldGenerateTimestamps then (buffer.timestampOffset, buffer.timestampOffset)
  else (frame.presentationTime + buffer.timestampOffset, frame.decodeTime + buffer.timestampOffset)

/-- Steps 1.6.1 to 1.6.5. -/
def endGroup (buffer : SourceBuffer Time Track) (frame : CodedFrame Time Track) :
    SourceBuffer Time Track :=
  { buffer with
    groupEndTimestamp :=
      if buffer.mode = .segments then (buffer.timestamps frame).1 else buffer.groupEndTimestamp
    groupStartTimestamp :=
      if buffer.mode = .sequence then some buffer.groupEndTimestamp else buffer.groupStartTimestamp
    trackBuffers := fun _ => ⟨none, true⟩ }

variable [LinearOrder Time]

/-- The condition of step 1.6. -/
def isDiscontinuity (buffer : SourceBuffer Time Track) (frame : CodedFrame Time Track) : Bool :=
  (buffer.trackBuffers frame.trackID).last.any fun last =>
    (buffer.timestamps frame).2 < last.1 || 2 • last.2 < |(buffer.timestamps frame).2 - last.1|

/-- The source buffer as it is when a frame passes step 1.6. -/
def settled (buffer : SourceBuffer Time Track) (frame : CodedFrame Time Track) :
    SourceBuffer Time Track :=
  if buffer.startGroup.isDiscontinuity frame then (buffer.startGroup.endGroup frame).startGroup
  else buffer.startGroup

theorem isDiscontinuity_startGroup_endGroup (buffer : SourceBuffer Time Track)
    (frame : CodedFrame Time Track) :
    (buffer.endGroup frame).startGroup.isDiscontinuity frame = false := by
  have hl (track) : ((buffer.endGroup frame).startGroup.trackBuffers track).last = none := by
    unfold startGroup
    split
    · cases (buffer.endGroup frame).groupStartTimestamp <;> rfl
    · rfl
  simp [isDiscontinuity, hl]

end SourceBuffer

/-! ### Groups -/

/-- A coded frame group: where it starts, and where the frames stored in it end. -/
structure Group (Time : Type) where
  start : Time
  ends : List Time

namespace Group

variable [LinearOrder Time]

/-- The group end timestamp reached by the frames of the group. -/
def reached (group : Group Time) : Time := group.ends.foldr max group.start

variable (group : Group Time) (buffer : SourceBuffer Time Track) (frame : CodedFrame Time Track)

/-- A group start timestamp that was set starts a group before the frame is looked at. -/
def restarted : Group Time := buffer.groupStartTimestamp.elim group (⟨·, []⟩)

variable [AddCommGroup Time]

/-- The start of the group that the frame is the first of. -/
def startFor : Option Time :=
  if buffer.startGroup.isDiscontinuity frame then some (group.restarted buffer).reached
  else buffer.groupStartTimestamp

/-- The group after the frame, with the end of the frame if it was stored. -/
def receive (ends : List Time) : Group Time :=
  let current := (group.startFor buffer frame).elim group (⟨·, []⟩)
  { current with ends := ends ++ current.ends }

end Group

/-- The source buffer is in sequence mode with the append window wide open, and its group end
timestamp is that of the group. -/
structure InGroup [LinearOrder Time] [Zero Time] (group : Group Time)
    (buffer : SourceBuffer Time Track) : Prop where
  mode : buffer.mode = .sequence
  windowStart : buffer.appendWindowStart = 0
  windowEnd : buffer.appendWindowEnd = ⊤
  groupEnd : buffer.groupEndTimestamp = group.reached

namespace InGroup

open SourceBuffer

variable [LinearOrder Time] [AddCommGroup Time] {buffer : SourceBuffer Time Track}
  {group : Group Time}

theorem startGroup (h : InGroup group buffer) :
    InGroup (group.restarted buffer) buffer.startGroup ∧
      buffer.startGroup.shouldGenerateTimestamps = buffer.shouldGenerateTimestamps := by
  cases hs : buffer.groupStartTimestamp with
  | none => simpa [SourceBuffer.startGroup, Group.restarted, hs] using h
  | some start =>
    rw [SourceBuffer.startGroup, if_pos h.mode, Group.restarted, hs]
    exact ⟨⟨h.mode, h.windowStart, h.windowEnd, rfl⟩, rfl⟩

variable (frame : CodedFrame Time Track)

theorem groupStart_endGroup (h : InGroup group buffer) :
    (buffer.startGroup.endGroup frame).groupStartTimestamp =
      some (group.restarted buffer).reached := by
  rw [endGroup, if_pos h.startGroup.1.mode, h.startGroup.1.groupEnd]

/-- The first frame of a group is stored right after a step 1.3. -/
theorem settled_eq (h : InGroup group buffer) :
    buffer.settled frame = buffer ∧ group.startFor buffer frame = none ∨
      ∃ start ∈ group.startFor buffer frame, ∃ group' other,
        buffer.settled frame = beginAt other start ∧ InGroup group' other ∧
          other.shouldGenerateTimestamps = buffer.shouldGenerateTimestamps := by
  by_cases hd : buffer.startGroup.isDiscontinuity frame
  · obtain ⟨hsr, hg⟩ := h.startGroup
    have hen : InGroup (group.restarted buffer) (buffer.startGroup.endGroup frame) := by
      refine ⟨hsr.mode, hsr.windowStart, hsr.windowEnd, ?_⟩
      simp [endGroup, hsr.mode, hsr.groupEnd]
    refine .inr ⟨_, by rw [Group.startFor, if_pos hd, Option.mem_some], _,
      buffer.startGroup.endGroup frame, ?_, hen, hg⟩
    rw [settled, if_pos hd, SourceBuffer.startGroup, if_pos hen.mode, h.groupStart_endGroup frame]
    rfl
  · rw [settled, Group.startFor, if_neg hd, if_neg hd, SourceBuffer.startGroup, if_pos h.mode]
    cases buffer.groupStartTimestamp with
    | none => exact .inl ⟨rfl, rfl⟩
    | some start => exact .inr ⟨start, rfl, group, buffer, rfl, h, rfl⟩

/-- The buffer that stores the frame is in the frame's group. -/
theorem settled (h : InGroup group buffer) :
    InGroup ((group.startFor buffer frame).elim group (⟨·, []⟩)) (buffer.settled frame) := by
  obtain ⟨hsl, hno⟩ | ⟨start, hs, _, other, hsl, ho, -⟩ := h.settled_eq frame
  · rwa [hsl, hno]
  · rw [hsl, Option.mem_def.mp hs]
    exact ⟨ho.mode, ho.windowStart, ho.windowEnd, rfl⟩

end InGroup

/-! ### Processing a frame -/

variable [AddCommGroup Time] [LinearOrder Time] [DecidableEq Track]

/-- Where the frame ends if it was stored. -/
def Outcome.ends (duration : Time) : Outcome Time → List Time
  | stored presentationTimestamp => [presentationTimestamp + duration]
  | _ => []

namespace SourceBuffer

/-- Steps 1.7 to 1.22. -/
def store (buffer : SourceBuffer Time Track) (frame : CodedFrame Time Track) :
    SourceBuffer Time Track × Outcome Time :=
  let presentationTimestamp := (buffer.timestamps frame).1
  let frameEndTimestamp := presentationTimestamp + frame.duration
  if presentationTimestamp < buffer.appendWindowStart ||
      frameEndTimestamp > buffer.appendWindowEnd then
    ({ buffer with
        trackBuffers := Function.update buffer.trackBuffers frame.trackID
          { buffer.trackBuffers frame.trackID with needRandomAccessFlag := true } }, .dropped)
  else if presentationTimestamp < 0 then (buffer, .failed)
  else if (buffer.trackBuffers frame.trackID).needRandomAccessFlag && !frame.isSync then
    (buffer, .dropped)
  else
    ({ buffer with
        trackBuffers := Function.update buffer.trackBuffers frame.trackID
          ⟨some ((buffer.timestamps frame).2, frame.duration), false⟩
        groupEndTimestamp := if frameEndTimestamp > buffer.groupEndTimestamp
          then frameEndTimestamp else buffer.groupEndTimestamp
        timestampOffset := if buffer.shouldGenerateTimestamps
          then frameEndTimestamp else buffer.timestampOffset },
      .stored presentationTimestamp)

/-- The loop, in at most so many rounds. -/
def didReceiveSample (frame : CodedFrame Time Track) :
    Nat → SourceBuffer Time Track → Option (SourceBuffer Time Track × Outcome Time)
  | 0, _ => none
  | rounds + 1, buffer =>
    if buffer.startGroup.isDiscontinuity frame then
      didReceiveSample frame rounds (buffer.startGroup.endGroup frame)
    else some (buffer.startGroup.store frame)

end SourceBuffer

/-- The states of a source buffer in sequence mode, each with the group it is in. -/
inductive Reachable : SourceBuffer Time Track → Group Time → Prop where
  | create (shouldGenerateTimestamps : Bool) :
      Reachable (.setMode { SourceBuffer.create with shouldGenerateTimestamps } .sequence) ⟨0, []⟩
  | setTimestampOffset {buffer group} (h : Reachable buffer group) (offset : Time) :
      Reachable (buffer.setTimestampOffset offset) group
  | receive {buffer group frame rounds result} (h : Reachable buffer group)
      (hresult : buffer.didReceiveSample frame rounds = some result) :
      Reachable result.1 (group.receive buffer frame (result.2.ends frame.duration))

/-- The first frame of a group is stored where the group starts, a discontinuity starts a group
where the frames before it end, and the loop ends. -/
structure LaysEndToEnd (group : Group Time) (buffer : SourceBuffer Time Track)
    (frame : CodedFrame Time Track) : Prop where
  ends : ∃ result, ∀ rounds ≥ 2, buffer.didReceiveSample frame rounds = some result
  continues : buffer.startGroup.isDiscontinuity frame = true →
    (buffer.startGroup.endGroup frame).groupStartTimestamp = some (group.restarted buffer).reached
  placed : ∀ start ∈ group.startFor buffer frame, ∀ rounds result,
    buffer.didReceiveSample frame rounds = some result → result.2 = .stored start

variable {buffer : SourceBuffer Time Track} {frame : CodedFrame Time Track} {group : Group Time}

namespace SourceBuffer

/-- A frame is processed at most twice. -/
theorem didReceiveSample_eq (rounds : Nat) :
    buffer.didReceiveSample frame (rounds + 2) = some ((buffer.settled frame).store frame) := by
  rw [settled, didReceiveSample, didReceiveSample]
  split <;> simp [isDiscontinuity_startGroup_endGroup]

theorem didReceiveSample_eq_some {rounds : Nat} {result : SourceBuffer Time Track × Outcome Time}
    (h : buffer.didReceiveSample frame rounds = some result) :
    result = (buffer.settled frame).store frame := by
  match rounds with
  | 0 => cases h
  | 1 =>
    rw [didReceiveSample] at h
    split_ifs at h with hd
    · cases h
    · rw [settled, if_neg hd, Option.some.inj h]
  | rounds + 2 =>
    rw [didReceiveSample_eq] at h
    exact (Option.some.inj h).symm

theorem store_beginAt_iff (h : InGroup group buffer) {start : Time} :
    ((buffer.beginAt start).store frame).2 = .stored start ↔
      frame.isSync = true ∧ 0 ≤ start ∧
        (buffer.shouldGenerateTimestamps = true ∨ frame.presentationTime = 0) := by
  unfold store
  extract_lets presentationTimestamp frameEndTimestamp
  have hpl : presentationTimestamp = start ↔
      buffer.shouldGenerateTimestamps = true ∨ frame.presentationTime = 0 := by
    unfold presentationTimestamp timestamps
    cases hg : buffer.shouldGenerateTimestamps <;> simp [beginAt, hg]
  have hw : (decide (presentationTimestamp < (buffer.beginAt start).appendWindowStart) ||
      decide (frameEndTimestamp > (buffer.beginAt start).appendWindowEnd)) =
        decide (presentationTimestamp < 0) := by
    simp [beginAt, h.windowStart, h.windowEnd]
  rw [← hpl, hw]
  split
  · rename_i hn
    refine iff_of_false (by simp) fun h => ?_
    exact (h.2.2 ▸ of_decide_eq_true hn).not_ge h.2.1
  rename_i hn
  rw [decide_eq_true_eq] at hn
  rw [if_neg hn]
  split
  · rename_i hdr
    exact iff_of_false (by simp) fun h => by simp [h.1] at hdr
  · rename_i hdr
    have hsy : frame.isSync = true := by simpa [beginAt] using hdr
    refine ⟨fun h => ?_, fun h => congrArg Outcome.stored h.2.2⟩
    obtain heq := Outcome.stored.inj h
    exact ⟨hsy, heq ▸ not_lt.mp hn, heq⟩

end SourceBuffer

open SourceBuffer

theorem InGroup.store (h : InGroup group buffer) (frame : CodedFrame Time Track) :
    InGroup ⟨group.start, (buffer.store frame).2.ends frame.duration ++ group.ends⟩
      (buffer.store frame).1 := by
  unfold SourceBuffer.store
  extract_lets presentationTimestamp frameEndTimestamp
  split
  · exact ⟨h.mode, h.windowStart, h.windowEnd, h.groupEnd⟩
  split
  · exact h
  split
  · exact h
  · refine ⟨h.mode, h.windowStart, h.windowEnd, ?_⟩
    change ite _ _ _ = max frameEndTimestamp group.reached
    rw [← h.groupEnd, max_def_lt']

theorem Reachable.inGroup (h : Reachable buffer group) : InGroup group buffer := by
  induction h with
  | create shouldGenerateTimestamps =>
    cases shouldGenerateTimestamps <;> exact ⟨rfl, rfl, rfl, rfl⟩
  | setTimestampOffset _ off ih => exact ⟨ih.mode, ih.windowStart, ih.windowEnd, ih.groupEnd⟩
  | receive _ hr ih =>
    rw [didReceiveSample_eq_some hr]
    exact (ih.settled _).store _

/-- A new buffer in sequence mode after a first frame from 0 to 1. -/
def firstStored : SourceBuffer ℤ Unit :=
  (((setMode create .sequence).settled ⟨0, 0, 1, true, ()⟩).store ⟨0, 0, 1, true, ()⟩).1

end QtWebKit.MediaSource
