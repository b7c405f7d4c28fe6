import Mathlib

/-!
# Removal of coded frames

A track buffer keeps its samples in presentation order and in decode order. `removeCodedFrames`
looks for the sync sample that ends the removal and for the sample that starts it, and erases what
is between them in decode order.

## Implementation notes

Both orders are of the same samples. An iterator is a sample, or `none` at the end, so that a
lookup by the key of a sample gives the sample. Iterating past the end of an order is `none`.
-/

namespace QtWebKit.MediaSource

variable {Time : Type} [LinearOrder Time]

structure MediaSample (Time : Type) where
  presentationTime : Time
  decodeTime : Time
  /-- `flags() == MediaSample::IsSync`. -/
  isSync : Bool
deriving DecidableEq

open MediaSample List

/-- The samples of a track buffer. -/
structure SampleMap (Time : Type) where
  samples : List (MediaSample Time)
  presentationOrder : (samples.map presentationTime).Nodup
  decodeOrder : (samples.map decodeTime).Nodup

namespace SampleMap

variable (m : SampleMap Time)

def findSampleOnOrAfterPresentationTime (time : Time) : Option (MediaSample Time) :=
  (m.samples.filter (time ≤ ·.presentationTime)).argmin presentationTime

/-- The threshold is infinite. -/
def findSyncSampleAfterPresentationTime (time : Time) : Option (MediaSample Time) :=
  (m.findSampleOnOrAfterPresentationTime time).bind fun current =>
    (m.samples.filter fun sample =>
      current.decodeTime ≤ sample.decodeTime ∧ sample.isSync).argmin decodeTime

/-- The samples from one iterator up to another, in the order of a key. -/
def iterate (key : MediaSample Time → Time) (first last : Option (MediaSample Time)) :
    Option (List (MediaSample Time)) :=
  if last.all fun stop => first.any (key · ≤ key stop) then
    some (m.samples.filter fun sample =>
      first.any (key · ≤ key sample) && last.all (key sample < key ·))
  else none

/-- The samples that are left. -/
def removeCodedFrames (start stop : Time) : Option (List (MediaSample Time)) :=
  let removeEnd := m.findSyncSampleAfterPresentationTime stop
  let removePresentationStart := m.findSampleOnOrAfterPresentationTime start
  if removePresentationStart = removeEnd then some m.samples
  else (m.iterate presentationTime removePresentationStart removeEnd).bind fun selected =>
    (selected.argmin decodeTime).bind fun removeDecodeStart =>
      (m.iterate decodeTime (some removeDecodeStart) removeEnd).map fun erasedSamples =>
        m.samples.filter (· ∉ erasedSamples)

/-- Nothing in the range is left, and nothing that follows a removed sample in decode order before
the next sync sample. -/
structure Removed (start stop : Time) (rest : List (MediaSample Time)) : Prop where
  notMem : ∀ sample ∈ rest, start ≤ sample.presentationTime → stop ≤ sample.presentationTime
  dependents : ∀ sample ∈ m.samples, sample ∉ rest → ∀ next ∈ rest,
    sample.decodeTime < next.decodeTime → ∃ sync ∈ m.samples, sync.isSync = true ∧
      sample.decodeTime < sync.decodeTime ∧ sync.decodeTime ≤ next.decodeTime

/-- From the first sample at or after the time, the first sync sample in decode order. -/
structure EndsAt (stop : Time) (first sync : MediaSample Time) : Prop where
  mem_first : first ∈ m.samples
  le_first : stop ≤ first.presentationTime
  first_le : ∀ sample ∈ m.samples, stop ≤ sample.presentationTime →
    first.presentationTime ≤ sample.presentationTime
  mem : sync ∈ m.samples
  isSync : sync.isSync = true
  le : first.decodeTime ≤ sync.decodeTime
  sync_le : ∀ sample ∈ m.samples, first.decodeTime ≤ sample.decodeTime → sample.isSync = true →
    sync.decodeTime ≤ sample.decodeTime

/-- The sync sample is after the range in both orders. -/
def EndsAfter (start stop : Time) (sync : MediaSample Time) : Prop :=
  stop ≤ sync.presentationTime ∧ ∀ sample ∈ m.samples, start ≤ sample.presentationTime →
    sample.presentationTime < stop → sample.decodeTime < sync.decodeTime

/-! ### Iterators -/

theorem argmin_filter_eq_some_iff {key : MediaSample Time → Time} (hk : (m.samples.map key).Nodup)
    {p : MediaSample Time → Bool} {a} : (m.samples.filter p).argmin key = some a ↔
      (a ∈ m.samples ∧ p a = true) ∧ ∀ b ∈ m.samples, p b = true → key a ≤ key b := by
  simp only [argmin_eq_some_iff, mem_filter, and_imp]
  refine and_congr_right fun ha => ⟨fun h => h.1, fun h => ⟨h, fun b hb hpb hle => ?_⟩⟩
  rw [inj_on_of_nodup_map hk ha.1 hb ((h b hb hpb).antisymm hle)]

variable {m} {start stop : Time}

theorem findSampleOnOrAfter_eq_some_iff {time : Time} {a} :
    m.findSampleOnOrAfterPresentationTime time = some a ↔
      (a ∈ m.samples ∧ time ≤ a.presentationTime) ∧ ∀ sample ∈ m.samples,
        time ≤ sample.presentationTime → a.presentationTime ≤ sample.presentationTime := by
  simp [findSampleOnOrAfterPresentationTime, m.argmin_filter_eq_some_iff m.presentationOrder]

theorem findSync_eq_some_iff {sync} :
    m.findSyncSampleAfterPresentationTime stop = some sync ↔ ∃ first, m.EndsAt stop first sync := by
  simp only [findSyncSampleAfterPresentationTime, Option.bind_eq_some_iff,
    findSampleOnOrAfter_eq_some_iff, m.argmin_filter_eq_some_iff m.decodeOrder, decide_eq_true_iff]
  refine exists_congr fun first => ⟨?_, ?_⟩
  · rintro ⟨⟨⟨hm, hle⟩, hf⟩, ⟨hsy, haf, his⟩, hl⟩
    exact ⟨hm, hle, hf, hsy, his, haf, fun a ha hle his => hl a ha ⟨hle, his⟩⟩
  · rintro ⟨hm, hle, hf, hsy, his, haf, hl⟩
    exact ⟨⟨⟨hm, hle⟩, hf⟩, ⟨hsy, haf, his⟩, fun a ha h => hl a ha h.1 h.2⟩

theorem exists_iterate {key : MediaSample Time → Time} {a last}
    (h : ∀ stop ∈ last, key a ≤ key stop) :
    ∃ l, m.iterate key (some a) last = some l ∧ ∀ sample, sample ∈ l ↔
      sample ∈ m.samples ∧ key a ≤ key sample ∧ ∀ stop ∈ last, key sample < key stop := by
  rw [iterate, if_pos (by simpa [Option.all_eq_true] using h)]
  exact ⟨_, rfl, by simp [Option.all_eq_true]⟩

/-! ### The removal -/

/-- A removal does not go past the sync sample that ends it. -/
theorem removeCodedFrames_some {first sync rest} (hs : m.EndsAt stop first sync)
    (hr : m.removeCodedFrames start stop = some rest) :
    start ≤ sync.presentationTime ∧
      ∀ sample ∈ m.samples, sync.decodeTime ≤ sample.decodeTime → sample ∈ rest := by
  rw [removeCodedFrames, findSync_eq_some_iff.mpr ⟨first, hs⟩] at hr
  split_ifs at hr with heq
  · obtain rfl := Option.some.inj hr
    exact ⟨(findSampleOnOrAfter_eq_some_iff.mp heq).1.2, fun _ hs _ => hs⟩
  · obtain ⟨selected, hsl, hr⟩ := Option.bind_eq_some_iff.mp hr
    obtain ⟨b, -, hr⟩ := Option.bind_eq_some_iff.mp hr
    obtain ⟨erased, her, rfl⟩ := Option.map_eq_some_iff.mp hr
    simp only [iterate, Option.ite_none_right_eq_some, Option.some.injEq] at hsl her
    obtain ⟨hle, -⟩ := hsl
    obtain ⟨-, rfl⟩ := her
    rw [Option.all_some, Option.any_eq_true] at hle
    obtain ⟨a, ha, hle⟩ := hle
    refine ⟨(findSampleOnOrAfter_eq_some_iff.mp ha).1.2.trans (of_decide_eq_true hle), ?_⟩
    intro sample hs haf
    simp [hs, haf]

section

variable {a b : MediaSample Time} {selected rest : List (MediaSample Time)}
  {last : Option (MediaSample Time)} (hls : ∀ sync ∈ last, ∃ first, m.EndsAt stop first sync)
  (hsy : ∀ sync ∈ last, m.EndsAfter start stop sync)
include hls hsy

theorem removed_of_mem_iff (hb : ∀ sample ∈ m.samples, start ≤ sample.presentationTime →
      sample.presentationTime < stop → b.decodeTime ≤ sample.decodeTime)
    (hr : ∀ sample, sample ∈ rest ↔ sample ∈ m.samples ∧ (sample.decodeTime < b.decodeTime ∨
      ∃ sync ∈ last, sync.decodeTime ≤ sample.decodeTime)) : m.Removed start stop rest := by
  refine ⟨fun sample hs hst => ?_, fun sample hs hn next hnx hlt => ?_⟩
  · by_contra! hin
    obtain ⟨hs, hbf | ⟨sync, hsy', hle⟩⟩ := (hr sample).mp hs
    · exact hbf.not_ge (hb sample hs hst hin)
    · exact ((hsy sync hsy').2 sample hs hst hin).not_ge hle
  · rw [hr, not_and] at hn
    push Not at hn
    obtain ⟨hbs, hbf⟩ := hn hs
    obtain ⟨sync, hsy', hle⟩ :=
      ((hr next).mp hnx).2.resolve_left (hbs.trans hlt.le).not_gt
    obtain ⟨first, hs'⟩ := hls sync hsy'
    exact ⟨sync, hs'.mem, hs'.isSync, hbf sync hsy', hle⟩

/-- The first selected sample in decode order is not after the sync sample. -/
theorem le_sync_of_argmin (hlt : start < stop) (hle : start ≤ a.presentationTime)
    (hl : ∀ sample ∈ m.samples, start ≤ sample.presentationTime →
      a.presentationTime ≤ sample.presentationTime)
    (hm : ∀ sample, sample ∈ selected ↔ sample ∈ m.samples ∧
      a.presentationTime ≤ sample.presentationTime ∧
        ∀ sync ∈ last, sample.presentationTime < sync.presentationTime)
    (hb : selected.argmin decodeTime = some b) : ∀ sync ∈ last, b.decodeTime ≤ sync.decodeTime := by
  intro sync hs
  obtain ⟨hbm, hab, hby⟩ := (hm b).mp (argmin_mem hb)
  by_cases hin : b.presentationTime < stop
  · exact ((hsy sync hs).2 b hbm (hle.trans hab) hin).le
  · -- The first sample at or after the end is selected then.
    obtain ⟨first, hs'⟩ := hls sync hs
    have hf := hs'.first_le b hbm (not_lt.mp hin)
    refine (le_of_mem_argmin ((hm first).mpr ⟨hs'.mem_first, ?_, ?_⟩) hb).trans hs'.le
    · exact hl first hs'.mem_first (hlt.le.trans hs'.le_first)
    · exact fun sync hs => hf.trans_lt (hby sync hs)

end

theorem exists_removed (hlt : start < stop)
    (h : ∀ first sync, m.EndsAt stop first sync → m.EndsAfter start stop sync) :
    ∃ rest, m.removeCodedFrames start stop = some rest ∧ m.Removed start stop rest := by
  have hls : ∀ sync ∈ m.findSyncSampleAfterPresentationTime stop,
      ∃ first, m.EndsAt stop first sync := fun sync => findSync_eq_some_iff.mp
  rw [removeCodedFrames]
  generalize m.findSyncSampleAfterPresentationTime stop = last at hls
  have hsy : ∀ sync ∈ last, m.EndsAfter start stop sync := fun sync hs =>
    (hls sync hs).elim fun first => h first sync
  cases hst : m.findSampleOnOrAfterPresentationTime start with
  | none =>
    have hnn : ∀ sample ∈ m.samples, ¬ start ≤ sample.presentationTime := by
      simpa [findSampleOnOrAfterPresentationTime] using hst
    have he : last = none := Option.eq_none_iff_forall_not_mem.mpr fun sync hs =>
      (hls sync hs).elim fun _ hs' => hnn sync hs'.mem (hlt.le.trans (hsy sync hs).1)
    rw [he, if_pos rfl]
    exact ⟨_, rfl, fun sample hs hle => (hnn sample hs hle).elim, fun _ hs hn => (hn hs).elim⟩
  | some a =>
    obtain ⟨⟨ha, hle⟩, hl⟩ := findSampleOnOrAfter_eq_some_iff.mp hst
    split_ifs with heq
    · refine ⟨_, rfl, fun sample hs hle => ?_, fun _ hs hn => (hn hs).elim⟩
      exact (hsy a heq.symm).1.trans (hl sample hs hle)
    · have hbf : ∀ sync ∈ last, a.presentationTime < sync.presentationTime := by
        intro sync hs
        obtain ⟨first, hs'⟩ := hls sync hs
        refine (hl sync hs'.mem (hlt.le.trans (hsy sync hs).1)).lt_of_ne fun hk => heq ?_
        rw [inj_on_of_nodup_map m.presentationOrder ha hs'.mem hk, hs]
      obtain ⟨selected, hsl, hm⟩ := m.exists_iterate fun sync hs => (hbf sync hs).le
      have hne : selected.argmin decodeTime ≠ none :=
        mt argmin_eq_none.mp (ne_nil_of_mem ((hm a).mpr ⟨ha, le_rfl, hbf⟩))
      obtain ⟨b, hb⟩ := Option.ne_none_iff_exists'.mp hne
      obtain ⟨erased, her, hm'⟩ :=
        m.exists_iterate (le_sync_of_argmin hls hsy hlt hle hl hm hb)
      rw [hsl, Option.bind_some, hb, Option.bind_some, her]
      refine ⟨_, rfl, removed_of_mem_iff hls hsy (fun sample hs hst hin => ?_) (b := b) ?_⟩
      · exact le_of_mem_argmin ((hm sample).mpr ⟨hs, hl sample hs hst,
          fun sync hs' => hin.trans_le (hsy sync hs').1⟩) hb
      · intro sample
        simp +contextual [hm']

end SampleMap

theorem removed_iff {Time : Type} [LinearOrder Time] (m : SampleMap Time) {start stop : Time}
    (hlt : start < stop) :
    (∃ rest, m.removeCodedFrames start stop = some rest ∧ m.Removed start stop rest) ↔
      ∀ first sync, m.EndsAt stop first sync → m.EndsAfter start stop sync := by
  refine ⟨?_, SampleMap.exists_removed hlt⟩
  rintro ⟨rest, hrest, hremoved⟩ first sync hs
  obtain ⟨hstart, hstays⟩ := SampleMap.removeCodedFrames_some hs hrest
  refine ⟨hremoved.notMem sync (hstays sync hs.mem le_rfl) hstart, fun sample hin hle hsmall => ?_⟩
  by_contra! hafter
  exact hsmall.not_ge (hremoved.notMem sample (hstays sample hin hafter) hle)

/-- The last sync frame is not in the range and decoded after it. -/
theorem removed_closed : ∃ rest, SampleMap.removeCodedFrames
      ⟨[⟨0, 0, true⟩, ⟨5, 1, false⟩, ⟨10, 2, true⟩], by decide, by decide⟩ 5 10 = some rest ∧
    SampleMap.Removed ⟨[⟨0, 0, true⟩, ⟨5, 1, false⟩, ⟨10, 2, true⟩], by decide, by decide⟩ 5 10
      rest := by
  refine (removed_iff _ (by decide)).mpr fun first sync hs => ?_
  obtain rfl : sync = ⟨10, 2, true⟩ := by
    have hfound := SampleMap.findSync_eq_some_iff.mpr ⟨first, hs⟩
    exact Option.some.inj (hfound.symm.trans (by decide))
  simp [SampleMap.EndsAfter]

/-- A leading frame is decoded after the sync frame at the end of the range. -/
theorem not_removed_leading : SampleMap.removeCodedFrames
    ⟨[⟨10, 0, true⟩, ⟨5, 1, false⟩], by decide, by decide⟩ 5 10 = none := by
  decide

end QtWebKit.MediaSource
