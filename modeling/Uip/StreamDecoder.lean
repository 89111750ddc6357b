import Mathlib.Data.List.Basic

/-!
# Decoders over a growing buffer

A decoder is called on a buffer. It answers with a frame, with nothing yet or with an error, and
leaves a buffer; `none` stands for a panic. A reader drains its buffer after each chunk of input
until the decoder has nothing more to say.
-/
namespace StreamDecoder

abbrev Decoder (α φ η : Type*) := List α → Option (Except η (Option φ) × List α)

/-- Why draining stops; `running` where the fuel is used up. -/
inductive Stop (η : Type*)
  | more
  | error (e : η)
  | panic
  | running
  deriving DecidableEq

structure Drained (α φ η : Type*) where
  frames : List φ
  stop : Stop η
  rest : List α
  deriving DecidableEq

variable {α φ η : Type*}

namespace Drained

def prepend (fs : List φ) (r : Drained α φ η) : Drained α φ η := { r with frames := fs ++ r.frames }

theorem prepend_prepend (fs gs : List φ) (r : Drained α φ η) :
    (r.prepend gs).prepend fs = r.prepend (fs ++ gs) := by
  simp [prepend]

/-- The same frames and the same end; the rest counts where more input is awaited. -/
def Same (r r' : Drained α φ η) : Prop :=
  r.frames = r'.frames ∧ r.stop = r'.stop ∧ (r.stop = .more → r.rest = r'.rest)

theorem Same.prepend {r r' : Drained α φ η} (h : r.Same r') (fs : List φ) :
    (r.prepend fs).Same (r'.prepend fs) :=
  ⟨congrArg (fs ++ ·) h.1, h.2⟩

theorem Same.symm {r r' : Drained α φ η} (h : r.Same r') : r'.Same r :=
  ⟨h.1.symm, h.2.1.symm, fun hm => (h.2.2 (h.2.1.trans hm)).symm⟩

theorem Same.trans {r r' r'' : Drained α φ η} (h : r.Same r') (h' : r'.Same r'') : r.Same r'' :=
  ⟨h.1.trans h'.1, h.2.1.trans h'.2.1, fun hm => (h.2.2 hm).trans (h'.2.2 (h.2.1.symm.trans hm))⟩

end Drained

def drainFuel (d : Decoder α φ η) : ℕ → List α → Drained α φ η
  | 0, b => ⟨[], .running, b⟩
  | n + 1, b =>
    match d b with
    | some (.ok (some f), rest) => (drainFuel d n rest).prepend [f]
    | some (.ok none, rest) => ⟨[], .more, rest⟩
    | some (.error e, rest) => ⟨[], .error e, rest⟩
    | none => ⟨[], .panic, b⟩

def drain (d : Decoder α φ η) (b : List α) : Drained α φ η := drainFuel d (b.length + 1) b

/-- Add the chunks to the buffer one after another and drain it after each. -/
def feed (d : Decoder α φ η) : List (List α) → List α → Drained α φ η
  | [], b => ⟨[], .more, b⟩
  | chunk :: chunks, b =>
    match drain d (b ++ chunk) with
    | ⟨fs, .more, rest⟩ => (feed d chunks rest).prepend fs
    | r => r

/-- Every frame uses up some of the buffer. -/
def Progress (d : Decoder α φ η) : Prop :=
  ∀ b f rest, d b = some (.ok (some f), rest) → rest.length < b.length

variable {d : Decoder α φ η}

theorem drainFuel_eq (hp : Progress d) {n m : ℕ} {b : List α} (hn : b.length < n)
    (hm : b.length < m) : drainFuel d n b = drainFuel d m b := by
  induction n generalizing m b with
  | zero => omega
  | succ n ih =>
    cases m with
    | zero => omega
    | succ m =>
      unfold drainFuel
      rcases hd : d b with _ | ⟨_ | _ | f, rest⟩
      · rfl
      · rfl
      · rfl
      · have hlt := hp b f rest hd
        have hrest : drainFuel d n rest = drainFuel d m rest := ih (by omega) (by omega)
        simp only [hrest]

theorem drain_frame (hp : Progress d) {b rest : List α} {f : φ}
    (h : d b = some (.ok (some f), rest)) : drain d b = (drain d rest).prepend [f] := by
  have hlt := hp b f rest h
  rw [drain, drainFuel, h, drain, ← drainFuel_eq hp hlt (Nat.lt_succ_self _)]

theorem drain_more {b rest : List α} (h : d b = some (.ok none, rest)) :
    drain d b = ⟨[], .more, rest⟩ := by
  rw [drain, drainFuel, h]

theorem drain_error {b rest : List α} {e : η} (h : d b = some (.error e, rest)) :
    drain d b = ⟨[], .error e, rest⟩ := by
  rw [drain, drainFuel, h]

theorem feed_more {b chunk rest : List α} {fs : List φ} {chunks : List (List α)}
    (h : drain d (b ++ chunk) = ⟨fs, .more, rest⟩) :
    feed d (chunk :: chunks) b = (feed d chunks rest).prepend fs := by
  rw [feed, h]

/-- Induction along the frames of a buffer. -/
theorem Progress.induct (hp : Progress d) {P : List α → Prop}
    (h : ∀ b, (∀ f rest, d b = some (.ok (some f), rest) → P rest) → P b) (b : List α) : P b := by
  induction hn : b.length using Nat.strongRecOn generalizing b with
  | _ n ih =>
    apply h b
    intro f rest hd
    exact ih rest.length (hn ▸ hp b f rest hd) rest rfl

theorem exists_of_mem_drain (hp : Progress d) {b : List α} {f : φ} (h : f ∈ (drain d b).frames) :
    ∃ b' rest, d b' = some (.ok (some f), rest) := by
  induction b using hp.induct with
  | h b ih =>
    rcases hd : d b with _ | ⟨e | _ | g, rest⟩
    · rw [drain, drainFuel, hd] at h
      simp at h
    · rw [drain_error hd] at h
      simp at h
    · rw [drain_more hd] at h
      simp at h
    · rw [drain_frame hp hd] at h
      rcases List.mem_cons.mp h with rfl | h
      · exact ⟨b, rest, hd⟩
      · exact ih g rest hd h

section Encoder
variable {enc : φ → List α}

/-- What was encoded in front of a buffer is drained first. -/
theorem drain_encoded (hp : Progress d) {fs : List φ}
    (hinv : ∀ f ∈ fs, ∀ rest, d (enc f ++ rest) = some (.ok (some f), rest)) (rest : List α) :
    drain d (fs.flatMap enc ++ rest) = (drain d rest).prepend fs := by
  induction fs with
  | nil => rfl
  | cons f fs ih =>
    have hf := hinv f List.mem_cons_self (fs.flatMap enc ++ rest)
    have hfs := ih fun g hg => hinv g (List.mem_cons_of_mem f hg)
    rw [List.flatMap_cons, List.append_assoc, drain_frame hp hf, hfs, Drained.prepend_prepend,
      List.singleton_append]

theorem drain_flatMap (hp : Progress d) (hnil : d [] = some (.ok none, [])) {fs : List φ}
    (hinv : ∀ f ∈ fs, ∀ rest, d (enc f ++ rest) = some (.ok (some f), rest)) :
    drain d (fs.flatMap enc) = ⟨fs, .more, []⟩ := by
  have h := drain_encoded hp hinv []
  rw [drain_more hnil, List.append_nil] at h
  rw [h, Drained.prepend, List.append_nil]

theorem append_eq_flatMap {fs : List φ} {c rest : List α} (h : c ++ rest = fs.flatMap enc) :
    (∃ front back, fs = front ++ back ∧ c = front.flatMap enc ∧ rest = back.flatMap enc) ∨
    ∃ front f back part, fs = front ++ f :: back ∧ c = front.flatMap enc ++ part ∧
      part <+: enc f ∧ part ≠ enc f ∧ part ≠ [] := by
  induction fs generalizing c with
  | nil =>
    obtain ⟨rfl, rfl⟩ := List.append_eq_nil_iff.mp h
    exact .inl ⟨[], [], rfl, rfl, rfl⟩
  | cons f fs ih =>
    rw [List.flatMap_cons] at h
    rcases List.append_eq_append_iff.mp h with ⟨tail, hf, hrest⟩ | ⟨c', hc, hfs⟩
    · by_cases hnil : c = []
      · exact .inl ⟨[], f :: fs, rfl, hnil, by rw [hrest, List.flatMap_cons, hf, hnil]; rfl⟩
      · by_cases hwhole : c = enc f
        · have htail : tail = [] := by simpa [← hwhole] using hf
          exact .inl ⟨[f], fs, rfl, by simpa using hwhole, by simpa [htail] using hrest⟩
        · exact .inr ⟨[], f, fs, c, rfl, rfl, ⟨tail, hf.symm⟩, hwhole, hnil⟩
    · rcases ih hfs.symm with ⟨front, back, rfl, rfl, hb⟩ | ⟨front, g, back, part, rfl, rfl, hp⟩
      · exact .inl ⟨f :: front, back, rfl, hc, hb⟩
      · refine .inr ⟨f :: front, g, back, part, rfl, ?_, hp⟩
        rw [hc, List.flatMap_cons, List.append_assoc]

/-- Every chunk is the encoding of whole frames. -/
def AtBoundaries (enc : φ → List α) (fs : List φ) (chunks : List (List α)) : Prop :=
  ∃ groups : List (List φ), groups.flatten = fs ∧ groups.map (List.flatMap enc) = chunks

theorem feed_of_boundaries (hp : Progress d) (hnil : d [] = some (.ok none, [])) {fs : List φ}
    (hinv : ∀ f ∈ fs, ∀ rest, d (enc f ++ rest) = some (.ok (some f), rest))
    {chunks : List (List α)} (h : AtBoundaries enc fs chunks) :
    feed d chunks [] = ⟨fs, .more, []⟩ := by
  obtain ⟨groups, rfl, rfl⟩ := h
  induction groups with
  | nil => rfl
  | cons group groups ih =>
    have hgroup : drain d (group.flatMap enc) = ⟨group, .more, []⟩ :=
      drain_flatMap hp hnil fun f hf => hinv f (by simp [hf])
    have hgroups := ih fun f hf => hinv f (List.mem_append_right group hf)
    rw [List.map_cons, feed_more hgroup, hgroups, List.flatten_cons]
    rfl

/-- Where a decoder refuses the beginning of a frame, only chunks of whole frames are read without
an error. -/
theorem boundaries_of_feed (hp : Progress d) (hnil : d [] = some (.ok none, [])) {fs : List φ}
    (hinv : ∀ f ∈ fs, ∀ rest, d (enc f ++ rest) = some (.ok (some f), rest))
    (hpart : ∀ f ∈ fs, ∀ part, part <+: enc f → part ≠ enc f → part ≠ [] →
      ∃ e rest, d part = some (.error e, rest))
    {chunks : List (List α)} (hchunks : chunks.flatten = fs.flatMap enc)
    (hne : ∀ f ∈ fs, enc f ≠ []) (h : ∀ e, (feed d chunks []).stop ≠ .error e) :
    AtBoundaries enc fs chunks := by
  induction chunks generalizing fs with
  | nil =>
    have hfs : fs = [] := by
      cases fs with
      | nil => rfl
      | cons f fs =>
        rw [List.flatten_nil, List.flatMap_cons] at hchunks
        exact absurd (List.append_eq_nil_iff.mp hchunks.symm).1 (hne f List.mem_cons_self)
    exact ⟨[], hfs ▸ rfl, rfl⟩
  | cons chunk chunks ih =>
    rw [List.flatten_cons] at hchunks
    rcases append_eq_flatMap hchunks with ⟨front, back, rfl, rfl, hback⟩ |
      ⟨front, f, back, part, rfl, rfl, hpre, hproper, hnonempty⟩
    · have hfront : drain d (front.flatMap enc) = ⟨front, .more, []⟩ :=
        drain_flatMap hp hnil fun f hf => hinv f (List.mem_append_left _ hf)
      rw [feed_more hfront] at h
      have hmem : ∀ f ∈ back, f ∈ front ++ back := fun f => List.mem_append_right front
      obtain ⟨groups, hgroups, hmap⟩ := ih (fun f hf => hinv f (hmem f hf))
        (fun f hf => hpart f (hmem f hf)) hback (fun f hf => hne f (hmem f hf)) h
      exact ⟨front :: groups, by rw [List.flatten_cons, hgroups], by rw [List.map_cons, hmap]⟩
    · obtain ⟨e, rest, he⟩ := hpart f (by simp) part hpre hproper hnonempty
      have hdrain : drain d (front.flatMap enc ++ part) = (drain d part).prepend front :=
        drain_encoded hp (fun g hg => hinv g (List.mem_append_left _ hg)) part
      rw [drain_error he] at hdrain
      rw [feed, List.nil_append, hdrain] at h
      exact absurd rfl (h e)

end Encoder

/-- A decoder whose answers other than "nothing yet" stay the same when more input follows. -/
structure Incremental (d : Decoder α φ η) : Prop where
  progress : Progress d
  total : ∀ b, d b ≠ none
  more : ∀ b rest, d b = some (.ok none, rest) → rest = b
  frame : ∀ b f rest, d b = some (.ok (some f), rest) →
    ∀ input, d (b ++ input) = some (.ok (some f), rest ++ input)
  error : ∀ b e rest, d b = some (.error e, rest) →
    ∀ input, ∃ rest', d (b ++ input) = some (.error e, rest')

namespace Incremental

variable (h : Incremental d)
include h

theorem drain_append (b input : List α) :
    (drain d (b ++ input)).Same
      (match drain d b with
        | ⟨fs, .more, rest⟩ => (drain d (rest ++ input)).prepend fs
        | r => r) := by
  induction b using h.progress.induct with
  | h b ih =>
    rcases hd : d b with _ | ⟨e | _ | f, rest⟩
    · exact absurd hd (h.total b)
    · obtain ⟨rest', hd'⟩ := h.error b e rest hd input
      rw [drain_error hd, drain_error hd']
      exact ⟨rfl, rfl, by simp⟩
    · obtain rfl := h.more b rest hd
      rw [drain_more hd]
      exact ⟨rfl, rfl, fun _ => rfl⟩
    · rw [drain_frame h.progress hd, drain_frame h.progress (h.frame b f rest hd input)]
      have hi := (ih f rest hd).prepend [f]
      rcases hr : drain d rest with ⟨fs, stop, rest'⟩
      rw [hr] at hi
      cases stop <;> exact hi

/-- The decoder waits for the rest of a frame that has arrived in part. -/
theorem drain_part {part tail : List α} {f : φ} (hf : d (part ++ tail) = some (.ok (some f), []))
    (ht : tail ≠ []) : drain d part = ⟨[], .more, part⟩ := by
  rcases hd : d part with _ | ⟨e | _ | g, rest⟩
  · exact absurd hd (h.total part)
  · obtain ⟨rest', he⟩ := h.error part e rest hd tail
    simp [he] at hf
  · obtain rfl := h.more part rest hd
    exact drain_more hd
  · rw [h.frame part g rest hd tail] at hf
    have hrest : rest ++ tail = [] := by simpa using congrArg (Option.map Prod.snd) hf
    exact absurd (List.append_eq_nil_iff.mp hrest).2 ht

theorem drain_rest {b : List α} (hm : (drain d b).stop = .more) :
    drain d (drain d b).rest = ⟨[], .more, (drain d b).rest⟩ := by
  induction b using h.progress.induct with
  | h b ih =>
    rcases hd : d b with _ | ⟨e | _ | f, rest⟩
    · exact absurd hd (h.total b)
    · simp [drain_error hd] at hm
    · obtain rfl := h.more b rest hd
      rw [drain_more hd, drain_more hd]
    · rw [drain_frame h.progress hd] at hm ⊢
      exact ih f rest hd hm

/-- Decoding does not depend on how the input is cut into chunks. -/
theorem feed_same {b : List α} (hb : drain d b = ⟨[], .more, b⟩) (chunks : List (List α)) :
    (feed d chunks b).Same (drain d (b ++ chunks.flatten)) := by
  induction chunks generalizing b with
  | nil =>
    rw [List.flatten_nil, List.append_nil, hb]
    exact ⟨rfl, rfl, fun _ => rfl⟩
  | cons chunk chunks ih =>
    have happ := h.drain_append (b ++ chunk) chunks.flatten
    have hrest := h.drain_rest (b := b ++ chunk)
    rw [List.flatten_cons, ← List.append_assoc, feed]
    rcases hr : drain d (b ++ chunk) with ⟨fs, stop, rest⟩
    rw [hr] at happ hrest
    cases stop with
    | more =>
      exact ((ih (hrest rfl)).prepend fs).trans happ.symm
    | error e => exact happ.symm
    | panic => exact happ.symm
    | running => exact happ.symm

end Incremental

end StreamDecoder
