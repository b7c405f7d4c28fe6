import Mathlib.Computability.EpsilonNFA
import Mathlib.Order.CompletePartialOrder

/-!
# Graphs with silent and lettered transitions

The words between two states of a graph are those that label its paths. A
fragment is a set of transitions that leaves its source, never comes back to it,
and ends in its target; fragments compose as regular expressions do.
-/

namespace QtWebKit.EpsilonGraph

open List Set

open scoped Computability

variable {α σ : Type*}

/-- The targets of each state, on a letter or silently. -/
abbrev Transitions (α σ : Type*) : Type _ := σ → Option α → Set σ

def automaton (T : Transitions α σ) : εNFA α σ := ⟨T, ∅, ∅⟩

/-- The words that label the paths from one state to another. -/
def words (T : Transitions α σ) (p q : σ) : Language α :=
  {word | q ∈ (automaton T).evalFrom {p} word}

/-- The transitions from one state to another on some letters, or silently. -/
def edges (p : σ) (labels : Set (Option α)) (q : σ) : Transitions α σ :=
  fun p' label => {q' | p' = p ∧ label ∈ labels ∧ q' = q}

/-- The words of single transitions. -/
def labelWords (labels : Set (Option α)) : Language α :=
  {word | ∃ label ∈ labels, word = label.toList}

@[simp] theorem labelWords_none : labelWords {(none : Option α)} = 1 := by
  ext word
  simp [labelWords, Language.mem_one]
  exact Iff.rfl

theorem mem_edges {p p' q q' : σ} {labels} {label : Option α} :
    q' ∈ edges p labels q p' label ↔ p' = p ∧ label ∈ labels ∧ q' = q :=
  Iff.rfl

/-- The transitions that repeat those between two states. -/
def repeatEdges (T : Transitions α σ) (source first last target : σ) : Transitions α σ :=
  edges source {none} first ⊔ T ⊔ edges last {none} first ⊔ edges last {none} target

theorem mem_sup {T T' : Transitions α σ} {p q} {label : Option α} :
    q ∈ (T ⊔ T') p label ↔ q ∈ T p label ∨ q ∈ T' p label :=
  Iff.rfl

theorem edges_union (p q : σ) (labels labels' : Set (Option α)) :
    edges p (labels ∪ labels') q = edges p labels q ⊔ edges p labels' q := by
  ext p' label q'
  rw [mem_sup, mem_edges, mem_edges, mem_edges, mem_union]
  tauto

@[simp] theorem edges_empty (p q : σ) : edges p (∅ : Set (Option α)) q = ⊥ := by
  ext p' label q'
  simp [mem_edges]

/-! ### Words of paths -/

section

variable {T T' : Transitions α σ} {p q r : σ}

theorem mem_words {word} :
    word ∈ words T p q ↔
      ∃ labels : List (Option α), labels.reduceOption = word ∧ (automaton T).IsPath p q labels :=
  (automaton T).mem_evalFrom_iff_exists_path

theorem nil_mem_words (T : Transitions α σ) (p : σ) : [] ∈ words T p p :=
  mem_words.mpr ⟨[], rfl, .nil p⟩

theorem reduceOption_cons (label : Option α) (labels : List (Option α)) :
    (label :: labels).reduceOption = label.toList ++ labels.reduceOption := by
  cases label <;> rfl

/-- A transition in front of the words of its target. -/
theorem cons_mem_words {label : Option α} (h : q ∈ T p label) {word}
    (hwd : word ∈ words T q r) : label.toList ++ word ∈ words T p r := by
  obtain ⟨labels, rfl, hpt⟩ := mem_words.mp hwd
  exact mem_words.mpr ⟨label :: labels, reduceOption_cons label labels,
    .cons q p r label labels h hpt⟩

theorem toList_mem_words {label : Option α} (h : q ∈ T p label) : label.toList ∈ words T p q := by
  have hwd := cons_mem_words h (nil_mem_words T q)
  rwa [append_nil] at hwd

/-- What holds of the empty word at the end of a path and is kept backwards along
every transition holds of the words of paths. -/
theorem words_induction (residual : σ → List α → Prop) (hn : residual q [])
    (hs : ∀ p p' label, p' ∈ T p label → ∀ word, residual p' word →
      residual p (label.toList ++ word))
    {word} (hwd : word ∈ words T p q) : residual p word := by
  obtain ⟨labels, rfl, hpt⟩ := mem_words.mp hwd
  clear hwd
  induction hpt with
  | nil => exact hn
  | cons p' p q label labels h _ ih =>
    rw [reduceOption_cons]
    exact hs p p' label h _ (ih hn)

theorem mul_words_le (T : Transitions α σ) (p q r : σ) :
    words T p q * words T q r ≤ words T p r := by
  rintro _ ⟨word, hwd, word', hwd', rfl⟩
  obtain ⟨labels, rfl, hpt⟩ := mem_words.mp hwd
  obtain ⟨labels', rfl, hpt'⟩ := mem_words.mp hwd'
  refine mem_words.mpr ⟨labels ++ labels', reduceOption_append _ _, ?_⟩
  exact (automaton T).isPath_append.mpr ⟨q, hpt, hpt'⟩

theorem append_mem_words {word word'} (h : word ∈ words T p q) (h' : word' ∈ words T q r) :
    word ++ word' ∈ words T p r :=
  mul_words_le T p q r ⟨word, h, word', h', rfl⟩

theorem words_le_of_silent (h : q ∈ T p none) (r : σ) : words T q r ≤ words T p r :=
  fun _ hwd => cons_mem_words h hwd

theorem words_le_of_silent_last (h : r ∈ T q none) (p : σ) : words T p q ≤ words T p r := by
  intro word hwd
  have hap := append_mem_words hwd (toList_mem_words h)
  rwa [Option.toList_none, append_nil] at hap

theorem words_mono (h : T ≤ T') (p q : σ) : words T p q ≤ words T' p q := by
  intro word
  apply words_induction fun p word => word ∈ words T' p q
  · exact nil_mem_words T' q
  · intro p p' label hs word hwd
    exact cons_mem_words (h p label hs) hwd

end

/-! ### Closures -/

section

variable (T : Transitions α σ)

theorem closure_union (S S' : Set σ) :
    (automaton T).εClosure (S ∪ S') = (automaton T).εClosure S ∪ (automaton T).εClosure S' := by
  ext p
  rw [mem_union, εNFA.mem_εClosure_iff_exists, εNFA.mem_εClosure_iff_exists,
    εNFA.mem_εClosure_iff_exists]
  constructor
  · rintro ⟨q, hq | hq, hp⟩
    · exact .inl ⟨q, hq, hp⟩
    · exact .inr ⟨q, hq, hp⟩
  · rintro (⟨q, hq, hp⟩ | ⟨q, hq, hp⟩)
    · exact ⟨q, .inl hq, hp⟩
    · exact ⟨q, .inr hq, hp⟩

theorem closure_closure (S : Set σ) :
    (automaton T).εClosure ((automaton T).εClosure S) = (automaton T).εClosure S := by
  apply Set.Subset.antisymm
  · intro p hp
    induction hp with
    | base p hp => exact hp
    | step p q hs _ ih => exact εNFA.εClosure.step p q hs ih
  · exact (automaton T).subset_εClosure _

theorem closure_subset_of_mem {S} (hc : (automaton T).εClosure S = S) {p} (hp : p ∈ S) :
    (automaton T).εClosure {p} ⊆ S := by
  intro q hq
  rw [← hc, εNFA.mem_εClosure_iff_exists]
  exact ⟨p, hp, hq⟩

theorem stepSet_union (S S' : Set σ) (c : α) :
    (automaton T).stepSet (S ∪ S') c = (automaton T).stepSet S c ∪ (automaton T).stepSet S' c :=
  biUnion_union S S' _

theorem stepSet_singleton (p : σ) (c : α) :
    (automaton T).stepSet {p} c = (automaton T).εClosure (T p (some c)) := by
  simp [εNFA.stepSet, automaton]

/-- What a step leads to is closed. -/
theorem closure_stepSet (S : Set σ) (c : α) :
    (automaton T).εClosure ((automaton T).stepSet S c) = (automaton T).stepSet S c := by
  apply Set.Subset.antisymm
  · intro p hp
    rw [εNFA.mem_εClosure_iff_exists] at hp
    obtain ⟨q, hq, hp⟩ := hp
    rw [εNFA.mem_stepSet_iff] at hq ⊢
    obtain ⟨r, hr, hq⟩ := hq
    exact ⟨r, hr, closure_subset_of_mem T (closure_closure T _) hq hp⟩
  · exact (automaton T).subset_εClosure _

end

/-! ### Fragments -/

/-- Transitions from a source to a target over inner states of their own, with the
words of a language between the two. -/
structure Fragment (T : Transitions α σ) (inner : Set σ) (source target : σ) (L : Language α) :
    Prop where
  source_ne_target : source ≠ target
  source_notMem : source ∉ inner
  target_notMem : target ∉ inner
  leaves {p q : σ} {label : Option α} : q ∈ T p label → p = source ∨ p ∈ inner
  enters {p q : σ} {label : Option α} : q ∈ T p label → q = target ∨ q ∈ inner
  words_eq : words T source target = L

namespace Fragment

variable {T T' : Transitions α σ} {inner inner' : Set σ} {src middle tgt : σ}
  {L L' : Language α}

/-- No transition comes back to the source. -/
theorem notMem_source (h : Fragment T inner src tgt L) (p : σ) (label : Option α) :
    src ∉ T p label := by
  intro hm
  rcases h.enters hm with heq | hi
  · exact h.source_ne_target heq
  · exact h.source_notMem hi

/-- No transition leaves the target. -/
theorem eq_nil_of_mem_words_target (h : Fragment T inner src tgt L) {word}
    (hwd : word ∈ words T tgt tgt) : word = [] := by
  refine words_induction (fun p word => p = tgt → word = []) (fun _ => rfl) ?_ hwd rfl
  rintro p p' label hs word _ rfl
  rcases h.leaves hs with heq | hi
  · exact absurd heq.symm h.source_ne_target
  · exact absurd hi h.target_notMem

/-- No transitions at all. -/
theorem bot (hne : src ≠ tgt) : Fragment (⊥ : Transitions α σ) ∅ src tgt 0 where
  source_ne_target := hne
  source_notMem := notMem_empty src
  target_notMem := notMem_empty tgt
  leaves h := absurd h (notMem_empty _)
  enters h := absurd h (notMem_empty _)
  words_eq := by
    apply le_antisymm _ bot_le
    intro word hwd
    refine absurd (words_induction (fun p _ => p = tgt) rfl ?_ hwd) hne
    intro p p' label hs
    exact absurd hs (notMem_empty p')

/-- Transitions from the source straight to the target. -/
theorem sup_edges (h : Fragment T inner src tgt L) (labels : Set (Option α)) :
    Fragment (T ⊔ edges src labels tgt) inner src tgt (L + labelWords labels) where
  source_ne_target := h.source_ne_target
  source_notMem := h.source_notMem
  target_notMem := h.target_notMem
  leaves hm := hm.elim h.leaves fun hed => .inl hed.1
  enters hm := hm.elim h.enters fun hed => .inl hed.2.2
  words_eq := by
    apply le_antisymm
    · intro word hwd
      have hrs := words_induction
        (fun p word => word ∈ words T p tgt ∨ p = src ∧ word ∈ labelWords labels)
        (.inl (nil_mem_words T tgt)) ?_ hwd
      · rw [h.words_eq] at hrs
        exact hrs.imp_right And.right
      · rintro p p' label (hs | ⟨rfl, hlb, rfl⟩) word (hrt | ⟨rfl, _⟩)
        · exact .inl (cons_mem_words hs hrt)
        · exact absurd hs (h.notMem_source p label)
        · rw [h.eq_nil_of_mem_words_target hrt, append_nil]
          exact .inr ⟨rfl, label, hlb, rfl⟩
        · exact absurd rfl h.source_ne_target
    · apply sup_le
      · rw [← h.words_eq]
        exact words_mono le_sup_left src tgt
      · rintro _ ⟨label, hlb, rfl⟩
        exact toList_mem_words (.inr ⟨rfl, hlb, rfl⟩)

/-- Only transitions from the source straight to the target. -/
theorem direct (hne : src ≠ tgt) (labels : Set (Option α)) :
    Fragment (edges src labels tgt) ∅ src tgt (labelWords labels) := by
  have hfg := (bot (α := α) hne).sup_edges labels
  rwa [bot_sup_eq, zero_add] at hfg

section

variable (h : Fragment T inner src middle L) (h' : Fragment T' inner' middle tgt L')
  (hsr : src ∉ inner') (ht : tgt ∉ inner) (hd : Disjoint inner inner')

include h h' hsr hd in
/-- A state of the first fragment is none of the second. -/
theorem not_leaves_both {p} (hp : p = src ∨ p ∈ inner) (hp' : p = middle ∨ p ∈ inner') : False := by
  rcases hp with rfl | hp
  · exact hp'.elim h.source_ne_target hsr
  · rcases hp' with rfl | hp'
    · exact h.target_notMem hp
    · exact disjoint_left.mp hd hp hp'

include h h' hsr ht hd in
/-- The words of a state of the first fragment end with one of the second. -/
theorem words_append_le (hne : src ≠ tgt) : words (T ⊔ T') src tgt ≤ L * L' := by
  intro word hwd
  have hrs := words_induction
    (fun p word =>
      (p = src ∨ p ∈ inner → word ∈ words T p middle * L') ∧
        (p = middle ∨ p ∈ inner' → word ∈ words T' p tgt) ∧ (p = tgt → word = []))
    ?_ ?_ hwd
  · rw [h.words_eq] at hrs
    exact hrs.1 (.inl rfl)
  · refine ⟨fun hp => absurd hp ?_, fun _ => nil_mem_words T' tgt, fun _ => rfl⟩
    exact not_or.mpr ⟨hne.symm, ht⟩
  · rintro p p' label (hs | hs) word ⟨hf, hsn, he⟩
    · have hp := h.leaves hs
      refine ⟨fun _ => ?_, fun hp' => (not_leaves_both h h' hsr hd hp hp').elim, ?_⟩
      · rcases h.enters hs with rfl | hi
        · rw [← h'.words_eq]
          exact ⟨label.toList, toList_mem_words hs, word, hsn (.inl rfl), rfl⟩
        · obtain ⟨front, hfr, rest, hrt, rfl⟩ := hf (.inr hi)
          exact ⟨_, cons_mem_words hs hfr, rest, hrt, append_assoc _ _ _⟩
      · rintro rfl
        exact (hp.elim hne.symm ht).elim
    · have hp' := h'.leaves hs
      refine ⟨fun hp => (not_leaves_both h h' hsr hd hp hp').elim, fun _ => ?_, ?_⟩
      · apply cons_mem_words hs
        rcases h'.enters hs with rfl | hi
        · rw [he rfl]
          exact nil_mem_words T' p'
        · exact hsn (.inr hi)
      · rintro rfl
        exact (hp'.elim h'.source_ne_target.symm h'.target_notMem).elim

include h h' hsr ht hd in
/-- A fragment behind another. -/
theorem append (hne : src ≠ tgt) :
    Fragment (T ⊔ T') (insert middle (inner ∪ inner')) src tgt (L * L') where
  source_ne_target := hne
  source_notMem := by
    rintro (heq | hm | hm)
    · exact h.source_ne_target heq
    · exact h.source_notMem hm
    · exact hsr hm
  target_notMem := by
    rintro (heq | hm | hm)
    · exact h'.source_ne_target heq.symm
    · exact ht hm
    · exact h'.target_notMem hm
  leaves := by
    rintro p q label (hs | hs)
    · exact (h.leaves hs).imp_right fun hp => .inr (.inl hp)
    · exact .inr ((h'.leaves hs).imp_right .inr)
  enters := by
    rintro p q label (hs | hs)
    · exact .inr ((h.enters hs).imp_right .inl)
    · exact (h'.enters hs).imp_right fun hq => .inr (.inr hq)
  words_eq := by
    apply le_antisymm (words_append_le h h' hsr ht hd hne)
    calc
      L * L' = words T src middle * words T' middle tgt := by rw [h.words_eq, h'.words_eq]
      _ ≤ words (T ⊔ T') src middle * words (T ⊔ T') middle tgt :=
        mul_le_mul' (words_mono le_sup_left _ _) (words_mono le_sup_right _ _)
      _ ≤ words (T ⊔ T') src tgt := mul_words_le _ _ _ _

end

/-! ### Repetition -/

variable {first last : σ} (h : Fragment T inner first last L)
  (hsr : src ∉ insert first (insert last inner))
  (ht : tgt ∉ insert first (insert last inner))

include h hsr ht in
theorem words_repeated_le (hne : src ≠ tgt) :
    words (repeatEdges T src first last tgt) src tgt ≤ L * L∗ := by
  intro word hwd
  have hrs := words_induction
    (fun p word =>
      (p = src → word ∈ L * L∗) ∧ (p = first ∨ p ∈ inner → word ∈ words T p last * L∗) ∧
        (p = last → word ∈ L∗) ∧ (p = tgt → word = []))
    ?_ ?_ hwd
  · exact hrs.1 rfl
  · simp only [mem_insert_iff, not_or] at ht
    refine ⟨fun heq => absurd heq hne.symm, fun hp => ?_, fun _ => Language.nil_mem_kstar L,
      fun _ => rfl⟩
    exact (hp.elim ht.1 ht.2.2).elim
  · simp only [mem_insert_iff, not_or] at hsr ht
    have hf := h.source_ne_target
    rintro p p' label (((⟨rfl, rfl, rfl⟩ | hs) | ⟨rfl, rfl, rfl⟩) | ⟨rfl, rfl, rfl⟩) word
      ⟨-, his, hl, he⟩
    · refine ⟨fun _ => h.words_eq ▸ his (.inl rfl), fun hp => ?_, fun hp => ?_, fun hp => ?_⟩
      · exact (hp.elim hsr.1 hsr.2.2).elim
      · exact absurd hp hsr.2.1
      · exact absurd hp hne
    · have hp := h.leaves hs
      refine ⟨?_, fun _ => ?_, ?_, ?_⟩
      · rintro rfl
        exact (hp.elim hsr.1 hsr.2.2).elim
      · rcases h.enters hs with rfl | hi
        · exact ⟨label.toList, toList_mem_words hs, word, hl rfl, rfl⟩
        · obtain ⟨front, hfr, rest, hrt, rfl⟩ := his (.inr hi)
          exact ⟨_, cons_mem_words hs hfr, rest, hrt, append_assoc _ _ _⟩
      · rintro rfl
        exact (hp.elim hf.symm h.target_notMem).elim
      · rintro rfl
        exact (hp.elim ht.1 ht.2.2).elim
    · refine ⟨fun hp => absurd hp.symm hsr.2.1, fun hp => ?_, fun _ => ?_, fun hp => ?_⟩
      · exact (hp.elim hf.symm h.target_notMem).elim
      · have hrp : L * L∗ ≤ L∗ := mul_kstar_le_kstar
        exact hrp (h.words_eq ▸ his (.inl rfl))
      · exact absurd hp.symm ht.2.1
    · refine ⟨fun hp => absurd hp.symm hsr.2.1, fun hp => ?_, fun _ => ?_, fun hp => ?_⟩
      · exact (hp.elim hf.symm h.target_notMem).elim
      · rw [he rfl]
        exact Language.nil_mem_kstar L
      · exact absurd hp.symm ht.2.1

include h hsr ht in
/-- A fragment between two new states that is repeated at least once. -/
theorem repeated (hne : src ≠ tgt) :
    Fragment (repeatEdges T src first last tgt) (insert first (insert last inner)) src tgt
      (L * L∗) where
  source_ne_target := hne
  source_notMem := hsr
  target_notMem := ht
  leaves := by
    rintro p q label (((⟨rfl, _⟩ | hs) | ⟨rfl, _⟩) | ⟨rfl, _⟩)
    · exact .inl rfl
    · exact .inr ((h.leaves hs).imp_right .inr)
    · exact .inr (.inr (.inl rfl))
    · exact .inr (.inr (.inl rfl))
  enters := by
    rintro p q label (((⟨_, _, rfl⟩ | hs) | ⟨_, _, rfl⟩) | ⟨_, _, rfl⟩)
    · exact .inr (.inl rfl)
    · exact .inr (.inr (h.enters hs))
    · exact .inr (.inl rfl)
    · exact .inl rfl
  words_eq := by
    apply le_antisymm (words_repeated_le h hsr ht hne)
    let U := repeatEdges T src first last tgt
    have hb : first ∈ U last none := .inl (.inr ⟨rfl, rfl, rfl⟩)
    have hot : tgt ∈ U last none := .inr ⟨rfl, rfl, rfl⟩
    have hin : first ∈ U src none := .inl (.inl (.inl ⟨rfl, rfl, rfl⟩))
    have ho : L ≤ words U first last := by
      rw [← h.words_eq]
      exact words_mono (le_sup_of_le_left (le_sup_of_le_left le_sup_right)) first last
    have ha := calc
        words U first last * L ≤ words U first last * words U last last :=
          mul_le_mul_right (ho.trans (words_le_of_silent hb last)) _
        _ ≤ words U first last := mul_words_le U first last last
    calc
      L * L∗ ≤ words U first last * L∗ := mul_le_mul_left ho _
      _ ≤ words U first last := mul_kstar_le_self ha
      _ ≤ words U src last := words_le_of_silent hin last
      _ ≤ words U src tgt := words_le_of_silent_last hot src

end Fragment

end QtWebKit.EpsilonGraph
