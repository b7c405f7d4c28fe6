import Mathlib.Data.List.Infix

/-!
# Transcoding loops with a bounded target

A transcoder repeatedly takes one encoded character from its source and
appends the character's target form. The loop stops at the end of the source,
at a source that starts with no character, or when the next target form does
not fit into the room left in the target. Nothing of the character it stops at
is consumed or written, so a later call continues there.
-/

namespace QtWebKit.Transcoding

open List

variable {α β γ R : Type*}

/-- The report of one call: its result code, the source that is left and the
target that was written. -/
structure Conversion (R α β : Type*) where
  result : R
  source : List α
  target : List β
  deriving DecidableEq, Repr

/-- One step of a loop and its result codes. A step consumes at least one unit
or stops with a code of its own. -/
structure Transcoder (α β R : Type*) where
  done : R
  full : R
  next : List α → R ⊕ (List β × List α)
  done_ne_full : done ≠ full
  stop_ne_done : ∀ {source r}, next source = .inl r → r ≠ done
  stop_ne_full : ∀ {source r}, next source = .inl r → r ≠ full
  shorter : ∀ {source out rest}, next source = .inr (out, rest) → rest.length < source.length

/-- Run the loop with `room` units left in the target. -/
def Transcoder.run (t : Transcoder α β R) (source : List α) (room : Nat) : Conversion R α β :=
  match source with
  | [] => ⟨t.done, [], []⟩
  | unit :: units =>
    match _h : t.next (unit :: units) with
    | .inl r => ⟨r, unit :: units, []⟩
    | .inr (out, rest) =>
      if out.length ≤ room then
        let tail := t.run rest (room - out.length)
        ⟨tail.result, tail.source, out ++ tail.target⟩
      else
        ⟨t.full, unit :: units, []⟩
termination_by source.length
decreasing_by exact t.shorter _h

/-- Repeat a conversion with a new target for each entry of `rooms`, as long as
the previous target was too small. -/
def resume [DecidableEq R] (full : R) (convert : List α → Nat → Conversion R α β) :
    List Nat → List α → Conversion R α β
  | [], source => ⟨full, source, []⟩
  | room :: rooms, source =>
    let first := convert source room
    if first.result = full then
      let tail := resume full convert rooms first.source
      ⟨tail.result, tail.source, first.target ++ tail.target⟩
    else first

namespace Transcoder

variable (t : Transcoder α β R)

@[simp] theorem run_nil (room : Nat) : t.run [] room = ⟨t.done, [], []⟩ := by
  rw [run]

theorem run_stop {src} (room : Nat) {r} (hs : src ≠ [])
    (h : t.next src = .inl r) : t.run src room = ⟨r, src, []⟩ := by
  cases src with
  | nil => contradiction
  | cons unit units =>
    rw [run]
    split
    · rename_i r' h'
      simp only [h, Sum.inl.injEq] at h'
      rw [h']
    · rename_i h'
      simp only [h, reduceCtorEq] at h'

theorem run_next {src rest} {out : List β} (room : Nat) (hs : src ≠ [])
    (h : t.next src = .inr (out, rest)) :
    t.run src room =
      if out.length ≤ room then
        ⟨(t.run rest (room - out.length)).result, (t.run rest (room - out.length)).source,
          out ++ (t.run rest (room - out.length)).target⟩
      else ⟨t.full, src, []⟩ := by
  cases src with
  | nil => contradiction
  | cons unit units =>
    rw [run]
    split
    · rename_i h'
      simp only [h, reduceCtorEq] at h'
    · rename_i out' rest' h'
      simp only [h, Sum.inr.injEq, Prod.mk.injEq] at h'
      obtain ⟨rfl, rfl⟩ := h'
      rfl

/-- Induction along the loop. -/
theorem induction_on {P : List α → Prop} (src : List α) (nil : P [])
    (stop : ∀ src r, src ≠ [] → t.next src = .inl r → P src)
    (step : ∀ src out rest, src ≠ [] → t.next src = .inr (out, rest) → P rest → P src) : P src := by
  induction hn : src.length using Nat.strong_induction_on generalizing src with
  | _ n ih =>
    cases src with
    | nil => exact nil
    | cons unit units =>
      cases h : t.next (unit :: units) with
      | inl r => exact stop _ r (by simp) h
      | inr p =>
        exact step _ p.1 p.2 (by simp) h
          (ih p.2.length (hn ▸ t.shorter h) p.2 rfl)

/-- A call whose target sufficed gives the same report with any larger target. -/
theorem run_mono {src room room'} (hf : (t.run src room).result ≠ t.full)
    (hrm : (t.run src room).target.length ≤ room') : t.run src room' = t.run src room := by
  induction src using t.induction_on generalizing room room' with
  | nil => simp
  | stop src r hs h => rw [t.run_stop _ hs h, t.run_stop _ hs h]
  | step src out rest hs h ih =>
    rw [t.run_next _ hs h] at hf hrm
    rw [t.run_next _ hs h, t.run_next _ hs h]
    by_cases hft : out.length ≤ room
    · simp only [if_pos hft, length_append] at hf hrm ⊢
      have hft' : out.length ≤ room' := by omega
      have hrs : (t.run rest (room - out.length)).target.length ≤ room' - out.length := by
        omega
      simp only [if_pos hft', ih hf hrs]
    · simp only [if_neg hft] at hf
      contradiction

/-- What is left of a full target is continued as if the target had been larger. -/
theorem run_resume {src room room'} (hf : (t.run src room).result = t.full)
    (hrs : (t.run (t.run src room).source room').result ≠ t.full) :
    t.run src ((t.run src room).target.length + room') =
      ⟨(t.run (t.run src room).source room').result, (t.run (t.run src room).source room').source,
        (t.run src room).target ++ (t.run (t.run src room).source room').target⟩ := by
  induction src using t.induction_on generalizing room with
  | nil =>
    rw [t.run_nil] at hf
    exact absurd hf t.done_ne_full
  | stop src r hs h =>
    rw [t.run_stop _ hs h] at hf
    exact absurd hf (t.stop_ne_full h)
  | step src out rest hs h ih =>
    rw [t.run_next room hs h] at hf hrs ⊢
    by_cases hft : out.length ≤ room
    · simp only [if_pos hft] at hf hrs ⊢
      have hft' : out.length ≤ (out ++ (t.run rest (room - out.length)).target).length + room' := by
        rw [length_append]; omega
      have hsb : (out ++ (t.run rest (room - out.length)).target).length + room' - out.length =
          (t.run rest (room - out.length)).target.length + room' := by
        rw [length_append]; omega
      rw [t.run_next _ hs h, if_pos hft', hsb, ih hf hrs]
      simp
    · simp only [if_neg hft, length_nil, Nat.zero_add, nil_append]

/-- Converting piecewise into new targets gives the report of one call with
enough room. -/
theorem resume_eq_run [DecidableEq R] (rooms : List Nat) (src : List α)
    (hdn : (resume t.full t.run rooms src).result ≠ t.full) (room : Nat)
    (hrm : (resume t.full t.run rooms src).target.length ≤ room) :
    t.run src room = resume t.full t.run rooms src := by
  induction rooms generalizing src room with
  | nil => exact absurd rfl hdn
  | cons first rooms ih =>
    by_cases hf : (t.run src first).result = t.full
    · simp only [resume, if_pos hf, length_append] at hdn hrm ⊢
      set tail := resume t.full t.run rooms (t.run src first).source with htl
      have hu := ih (t.run src first).source hdn tail.target.length le_rfl
      have hw := t.run_resume hf (show (t.run _ tail.target.length).result ≠ t.full from hu ▸ hdn)
      rw [hu] at hw
      rw [← hw]
      apply t.run_mono
      · rw [hw]; exact hdn
      · rw [hw, length_append]; exact hrm
    · simp only [resume, if_neg hf] at hrm ⊢
      exact t.run_mono hf hrm

theorem run_source_length_le (src : List α) (room : Nat) :
    (t.run src room).source.length ≤ src.length := by
  induction src using t.induction_on generalizing room with
  | nil => simp
  | stop src r hs h => rw [t.run_stop _ hs h]
  | step src out rest hs h ih =>
    have hsh := t.shorter h
    rw [t.run_next _ hs h]
    split_ifs
    · exact (ih _).trans hsh.le
    · exact le_rfl

/-- A full target that holds any single character has received one. -/
theorem run_source_length_lt {m}
    (hm : ∀ src out rest, t.next src = .inr (out, rest) → out.length ≤ m)
    {src : List α} {room} (hrm : m ≤ room) (hf : (t.run src room).result = t.full) :
    (t.run src room).source.length < src.length := by
  cases src with
  | nil =>
    rw [t.run_nil] at hf
    exact absurd hf t.done_ne_full
  | cons unit units =>
    cases h : t.next (unit :: units) with
    | inl r =>
      rw [t.run_stop _ (cons_ne_nil _ _) h] at hf
      exact absurd hf (t.stop_ne_full h)
    | inr p =>
      have hft := (hm _ _ _ h).trans hrm
      rw [t.run_next _ (cons_ne_nil _ _) h, if_pos hft]
      exact (t.run_source_length_le p.2 _).trans_lt (t.shorter h)

/-- With targets that hold any single character, one more target than source
units is enough to finish. -/
theorem resume_finishes [DecidableEq R] {m}
    (hm : ∀ src out rest, t.next src = .inr (out, rest) → out.length ≤ m)
    (rooms : List Nat) (src : List α) (hro : ∀ room ∈ rooms, m ≤ room)
    (hl : src.length < rooms.length) : (resume t.full t.run rooms src).result ≠ t.full := by
  induction rooms generalizing src with
  | nil => exact absurd hl (Nat.not_lt_zero _)
  | cons room rooms ih =>
    simp only [mem_cons, forall_eq_or_imp, length_cons] at hro hl
    by_cases hf : (t.run src room).result = t.full
    · have hsh := t.run_source_length_lt hm hro.1 hf
      simp only [resume, if_pos hf]
      exact ih _ hro.2 (by omega)
    · simpa only [resume, if_neg hf] using hf

end Transcoder

/-- The loop reads characters in one encoding and writes them in another: what a
step consumes is an encoded character. -/
structure Reads (t : Transcoder α β R) (encode : γ → List α) (encode' : γ → List β) :
    Prop where
  encode_of_next : ∀ source out rest, t.next source = .inr (out, rest) →
    ∃ c, source = encode c ++ rest ∧ out = encode' c

/-- Moreover a step succeeds whenever its source starts with an encoded character. -/
structure Converts (t : Transcoder α β R) (encode : γ → List α) (encode' : γ → List β) :
    Prop extends Reads t encode encode' where
  next_encode : ∀ c rest, t.next (encode c ++ rest) = .inr (encode' c, rest)

/-- Every call converts a sequence of whole characters and stops for one of
three reasons. -/
theorem Reads.run_spec {t : Transcoder α β R} {encode encode'}
    (h : Reads t encode encode') (src : List α) (room : Nat) :
    ∃ cs : List γ, src = cs.flatMap encode ++ (t.run src room).source ∧
      (t.run src room).target = cs.flatMap encode' ∧
      (t.run src room).target.length ≤ room ∧
      ((t.run src room).result = t.done ∧ (t.run src room).source = [] ∨
        (t.run src room).result = t.full ∧ (∃ c rest, (t.run src room).source = encode c ++ rest ∧
            room < (t.run src room).target.length + (encode' c).length) ∨
        (t.run src room).source ≠ [] ∧
          t.next (t.run src room).source = .inl (t.run src room).result) := by
  induction src using t.induction_on generalizing room with
  | nil => exact ⟨[], by simp⟩
  | stop src r hs hr =>
    rw [t.run_stop _ hs hr]
    exact ⟨[], by simp, by simp, by simp, .inr (.inr ⟨hs, hr⟩)⟩
  | step src out rest hs hr ih =>
    obtain ⟨c, hsr, ho⟩ := h.encode_of_next _ _ _ hr
    rw [t.run_next _ hs hr]
    by_cases hft : out.length ≤ room
    · obtain ⟨cs, hcs, ht, hl, hca⟩ := ih (room - out.length)
      simp only [if_pos hft]
      refine ⟨c :: cs, ?_, ?_, ?_, ?_⟩
      · rw [flatMap_cons, append_assoc, ← hcs, ← hsr]
      · rw [flatMap_cons, ← ht, ho]
      · rw [length_append]; omega
      · rcases hca with hdn | ⟨hf, d, tail, hd, hrm⟩ | hp
        · exact .inl hdn
        · refine .inr (.inl ⟨hf, d, tail, hd, ?_⟩)
          rw [length_append]; omega
        · exact .inr (.inr hp)
    · simp only [if_neg hft]
      have hrm : room < ([] : List β).length + (encode' c).length := by
        rw [← ho, length_nil]; omega
      exact ⟨[], by simp, by simp, by simp, .inr (.inl ⟨trivial, c, rest, hsr, hrm⟩)⟩

namespace Converts

variable {t : Transcoder α β R} {encode : γ → List α} {encode' : γ → List β}
variable (h : Converts t encode encode')

include h

theorem encode_ne_nil (c : γ) : encode c ≠ [] := by
  intro hnl
  have hnx := h.next_encode c []
  rw [hnl] at hnx
  exact absurd (t.shorter hnx) (by simp)

/-- A sequence of characters that fits is converted before the rest. -/
theorem run_append (cs : List γ) (rest : List α) {room} (hrm : (cs.flatMap encode').length ≤ room) :
    t.run (cs.flatMap encode ++ rest) room =
      ⟨(t.run rest (room - (cs.flatMap encode').length)).result,
        (t.run rest (room - (cs.flatMap encode').length)).source,
        cs.flatMap encode' ++ (t.run rest (room - (cs.flatMap encode').length)).target⟩ := by
  induction cs generalizing room with
  | nil => simp
  | cons c cs ih =>
    rw [flatMap_cons, length_append] at hrm
    have hne : encode c ++ (cs.flatMap encode ++ rest) ≠ [] := by
      simp [h.encode_ne_nil c]
    rw [flatMap_cons, append_assoc, t.run_next _ hne (h.next_encode c _),
      if_pos (by omega), ih (by omega), flatMap_cons, length_append,
      Nat.sub_sub, append_assoc]

/-- A whole sequence of characters that fits is converted. -/
theorem run_encode (cs : List γ) {room} (hrm : (cs.flatMap encode').length ≤ room) :
    t.run (cs.flatMap encode) room = ⟨t.done, [], cs.flatMap encode'⟩ := by
  simpa using h.run_append cs [] hrm

/-- A call leaves no source exactly when it succeeds. -/
theorem run_source_eq_nil_iff (src : List α) (room : Nat) :
    (t.run src room).source = [] ↔ (t.run src room).result = t.done := by
  obtain ⟨cs, hsr, ht, hl, hca⟩ := h.run_spec src room
  rcases hca with ⟨hdn, hnl⟩ | ⟨hf, c, rest, hc, _⟩ | ⟨hne, hp⟩
  · exact ⟨fun _ => hdn, fun _ => hnl⟩
  · refine ⟨fun hnl => ?_, fun hdn => absurd (hdn.symm.trans hf) t.done_ne_full⟩
    rw [hnl] at hc
    exact absurd (append_eq_nil_iff.mp hc.symm).1 (h.encode_ne_nil c)
  · exact ⟨fun hnl => absurd hnl hne, fun hdn => absurd hdn (t.stop_ne_done hp)⟩

/-- A text has one target form. -/
theorem flatMap_target_eq {cs cs' : List γ} (heq : cs.flatMap encode = cs'.flatMap encode) :
    cs.flatMap encode' = cs'.flatMap encode' := by
  have hon := h.run_encode cs (Nat.le_max_left _ (cs'.flatMap encode').length)
  have htw := h.run_encode cs' (Nat.le_max_right (cs.flatMap encode').length _)
  rw [heq, htw] at hon
  exact (congrArg Conversion.target hon).symm

/-- A text has one reading. -/
theorem flatMap_injective (hi : Function.Injective encode) {cs cs' : List γ}
    (heq : cs.flatMap encode = cs'.flatMap encode) : cs = cs' := by
  induction cs generalizing cs' with
  | nil =>
    cases cs' with
    | nil => rfl
    | cons c' cs' =>
      rw [flatMap_nil, flatMap_cons] at heq
      exact absurd (append_eq_nil_iff.mp heq.symm).1 (h.encode_ne_nil c')
  | cons c cs ih =>
    cases cs' with
    | nil =>
      rw [flatMap_nil, flatMap_cons] at heq
      exact absurd (append_eq_nil_iff.mp heq).1 (h.encode_ne_nil c)
    | cons c' cs' =>
      rw [flatMap_cons, flatMap_cons] at heq
      have hnx := h.next_encode c (cs.flatMap encode)
      rw [heq, h.next_encode c' (cs'.flatMap encode)] at hnx
      simp only [Sum.inr.injEq, Prod.mk.injEq] at hnx
      rw [hnx.2] at heq
      rw [hi (append_cancel_right heq), ih hnx.2.symm]

end Converts

end QtWebKit.Transcoding
