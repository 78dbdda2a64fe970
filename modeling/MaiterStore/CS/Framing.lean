/-
# Frames with a length in front

A reader that is asked again and again until it reports the end reads a list. It is run with
fuel; that it reads a list is also a relation, which knows no fuel.

A frame is a length field of fixed width and that many symbols. The reader of frames tells
the end of the stream from a length field that is not complete. It does not notice when the
symbols of a frame are not complete: what is missing is then filled up.

On a stream of frames that has been cut off, the reader finds the complete frames. If the cut
is behind the length field of a frame, it finds this frame too, with its end filled up; so
what it finds is a prefix of the frames if and only if the lost symbols are those filled in.
-/

import Mathlib.Algebra.GroupWithZero.Nat
import Mathlib.Data.List.Basic
import Mathlib.Data.List.Flatten
import Mathlib.Data.List.Infix

namespace CS.Framing

/-! ## Reading to the end -/

section Reads

variable {ε δ σ τ β : Type*}

/-- Asks `next` until it reports the end. The result is `none` when the fuel ran out. -/
def readAll (next : σ → Except ε (Option (β × σ))) : ℕ → σ → Except ε (Option (List β))
  | 0, _ => .ok none
  | fuel + 1, s =>
    (next s).bind fun
      | none => .ok (some [])
      | some r => (readAll next fuel r.2).map (Option.map (r.1 :: ·))

/-- From `s` on, `next` reads `xs` and then reports the end. -/
inductive Reads (next : σ → Except ε (Option (β × σ))) : σ → List β → Prop
  | done {s : σ} (hnext : next s = .ok none) : Reads next s []
  | more {s s' : σ} {x : β} {xs : List β} (hnext : next s = .ok (some (x, s')))
      (hrest : Reads next s' xs) : Reads next s (x :: xs)

variable {next : σ → Except ε (Option (β × σ))} {s : σ} {xs : List β}

theorem Reads.readAll_eq (hreads : Reads next s xs) {fuel : ℕ} (hfuel : xs.length < fuel) :
    readAll next fuel s = .ok (some xs) := by
  induction hreads generalizing fuel with
  | done hnext =>
    cases fuel with
    | zero => cases hfuel
    | succ fuel => rw [readAll, hnext]; rfl
  | more hnext hrest ih =>
    cases fuel with
    | zero => cases hfuel
    | succ fuel =>
      rw [readAll, hnext]
      simp only [Except.bind]
      rw [ih (Nat.lt_of_succ_lt_succ hfuel)]
      rfl

theorem reads_of_readAll {fuel : ℕ} (hread : readAll next fuel s = .ok (some xs)) :
    Reads next s xs := by
  induction fuel generalizing s xs with
  | zero => cases hread
  | succ fuel ih =>
    rw [readAll] at hread
    cases hnext : next s with
    | error e => rw [hnext] at hread; cases hread
    | ok r =>
      rw [hnext] at hread
      cases r with
      | none => cases hread; exact .done hnext
      | some r =>
        simp only [Except.bind] at hread
        cases hrest : readAll next fuel r.2 with
        | error e => rw [hrest] at hread; cases hread
        | ok ys =>
          rw [hrest] at hread
          cases ys with
          | none => cases hread
          | some ys => cases hread; exact .more hnext (ih hrest)

/-- The relation is what the reader does with enough fuel. -/
theorem reads_iff : Reads next s xs ↔ ∃ fuel, readAll next fuel s = .ok (some xs) :=
  ⟨fun hreads => ⟨xs.length + 1, hreads.readAll_eq (Nat.lt_succ_self _)⟩,
    fun ⟨_, hread⟩ => reads_of_readAll hread⟩

theorem Reads.unique {ys : List β} (hxs : Reads next s xs) (hys : Reads next s ys) : xs = ys := by
  induction hxs generalizing ys with
  | done hnext =>
    cases hys with
    | done hnext' => rfl
    | more hnext' hrest => rw [hnext] at hnext'; cases hnext'
  | more hnext hrest ih =>
    cases hys with
    | done hnext' => rw [hnext] at hnext'; cases hnext'
    | more hnext' hrest' =>
      rw [hnext] at hnext'
      cases hnext'
      rw [ih hrest']

/-- A reader that follows another one, in related states, reads the same. -/
theorem Reads.simulation {next' : τ → Except δ (Option (β × τ))} {R : σ → τ → Prop}
    (hdone : ∀ s t, R s t → next s = .ok none → next' t = .ok none)
    (hmore : ∀ s t x s', R s t → next s = .ok (some (x, s')) →
      ∃ t', next' t = .ok (some (x, t')) ∧ R s' t')
    {t : τ} (hR : R s t) (hreads : Reads next s xs) : Reads next' t xs := by
  induction hreads generalizing t with
  | done hnext => exact .done (hdone _ t hR hnext)
  | more hnext hrest ih =>
    obtain ⟨t', hnext', hR'⟩ := hmore _ t _ _ hR hnext
    exact .more hnext' (ih hR')

theorem reads_mapError_iff {f : ε → δ} :
    Reads (fun s => (next s).mapError f) s xs ↔ Reads next s xs := by
  constructor
  · intro hreads
    refine hreads.simulation (R := Eq) ?_ ?_ rfl
    · rintro s _ rfl hnone
      cases hnext : next s with
      | error e => rw [hnext] at hnone; cases hnone
      | ok r => rw [hnext] at hnone; cases hnone; rfl
    · rintro s _ x s' rfl hsome
      cases hnext : next s with
      | error e => rw [hnext] at hsome; cases hsome
      | ok r => rw [hnext] at hsome; cases hsome; exact ⟨s', rfl, rfl⟩
  · intro hreads
    refine hreads.simulation (R := Eq) ?_ ?_ rfl
    · rintro s _ rfl hnone
      rw [hnone]
      rfl
    · rintro s _ x s' rfl hsome
      refine ⟨s', ?_, rfl⟩
      rw [hsome]
      rfl

end Reads

/-! ## Frames -/

/-- Lengths as symbols. -/
structure LengthField (α : Type*) where
  width : ℕ
  width_pos : 0 < width
  /-- Lengths below `limit` can be written. -/
  limit : ℕ
  encode : ℕ → List α
  decode : List α → Option ℕ
  length_encode : ∀ n, (encode n).length = width
  decode_encode : ∀ n < limit, decode (encode n) = some n

variable {α : Type*} (h : LengthField α) (pad : α)

/-- A frame with the symbols `c`. -/
def frame (c : List α) : List α := h.encode c.length ++ c

/-- The symbols `s` filled up to length `len`. -/
def fill (len : ℕ) (s : List α) : List α := s ++ List.replicate (len - s.length) pad

/-- The next frame and the rest of the stream, or `none` at its end. The error is a length
field that is no length. -/
def readFrame (s : List α) : Except (List α) (Option (List α × List α)) :=
  if s.length < h.width then .ok none
  else
    match h.decode (s.take h.width) with
    | none => .error (s.take h.width)
    | some len =>
      let rest := s.drop h.width
      .ok (some (fill pad len (rest.take len), rest.drop len))

variable {h pad} {c s : List α} {cs : List (List α)}

theorem length_frame (c : List α) : (frame h c).length = h.width + c.length := by
  rw [frame, List.length_append, h.length_encode]

/-- An incomplete length field ends the stream. -/
theorem reads_of_length_lt (hs : s.length < h.width) : Reads (readFrame h pad) s [] := by
  apply Reads.done
  rw [readFrame, if_pos hs]

theorem length_lt_of_readFrame_eq_none (hread : readFrame h pad s = .ok none) :
    s.length < h.width := by
  rw [readFrame] at hread
  split_ifs at hread with hwidth
  · exact hwidth
  · split at hread <;> cases hread

/-- A frame has been read behind a complete length field. -/
theorem exists_decode_of_readFrame_eq_some {r : List α × List α}
    (hread : readFrame h pad s = .ok (some r)) :
    h.width ≤ s.length ∧ ∃ len, h.decode (s.take h.width) = some len ∧
      r = (fill pad len ((s.drop h.width).take len), (s.drop h.width).drop len) := by
  rw [readFrame] at hread
  split_ifs at hread with hwidth
  · cases hread
  · apply And.intro (Nat.le_of_not_lt hwidth)
    split at hread
    case h_1 => cases hread
    case h_2 len hdecode =>
      cases hread
      exact ⟨len, hdecode, rfl⟩

/-- What is read behind a length field. -/
theorem readFrame_encode_append {len : ℕ} (hlen : len < h.limit) (s : List α) :
    readFrame h pad (h.encode len ++ s) = .ok (some (fill pad len (s.take len), s.drop len)) := by
  have hlength := h.length_encode len
  have htake : (h.encode len ++ s).take h.width = h.encode len := by
    rw [← hlength, List.take_left]
  have hdrop : (h.encode len ++ s).drop h.width = s := by
    rw [← hlength, List.drop_left]
  have hwidth : ¬ (h.encode len ++ s).length < h.width := by
    rw [List.length_append, hlength]
    omega
  rw [readFrame, if_neg hwidth, htake, h.decode_encode len hlen, hdrop]

theorem fill_of_length_le {len : ℕ} (hlen : len ≤ s.length) : fill pad len s = s := by
  rw [fill, Nat.sub_eq_zero_of_le hlen, List.replicate_zero, List.append_nil]

theorem readFrame_frame_append (hc : c.length < h.limit) (s : List α) :
    readFrame h pad (frame h c ++ s) = .ok (some (c, s)) := by
  rw [frame, List.append_assoc, readFrame_encode_append hc, List.take_left, List.drop_left,
    fill_of_length_le (le_refl _)]

/-- The reader finds the frames in front of a stream. -/
theorem Reads.frames_append (hcs : ∀ c ∈ cs, c.length < h.limit) {xs : List (List α)}
    (hs : Reads (readFrame h pad) s xs) :
    Reads (readFrame h pad) (cs.flatMap (frame h) ++ s) (cs ++ xs) := by
  induction cs with
  | nil => exact hs
  | cons c cs ih =>
    have hc := hcs c List.mem_cons_self
    have hrest := ih fun c' hc' => hcs c' (List.mem_cons_of_mem _ hc')
    rw [List.flatMap_cons, List.append_assoc]
    exact .more (readFrame_frame_append hc _) hrest

theorem reads_frames (hcs : ∀ c ∈ cs, c.length < h.limit) :
    Reads (readFrame h pad) (cs.flatMap (frame h)) cs := by
  have hnil : Reads (readFrame h pad) [] [] := reads_of_length_lt h.width_pos
  simpa using hnil.frames_append hcs

/-- A frame that is cut off within its symbols. -/
theorem reads_encode_append_take {k : ℕ} (hc : c.length < h.limit) (hk : k ≤ c.length) :
    Reads (readFrame h pad) (h.encode c.length ++ c.take k) [fill pad c.length (c.take k)] := by
  have hlength : (c.take k).length = k := List.length_take_of_le hk
  have htake : (c.take k).take c.length = c.take k :=
    List.take_of_length_le (by rw [hlength]; exact hk)
  have hdrop : (c.take k).drop c.length = [] :=
    List.drop_eq_nil_of_le (by rw [hlength]; exact hk)
  have hnext : readFrame h pad (h.encode c.length ++ c.take k) =
      .ok (some (fill pad c.length (c.take k), [])) := by
    rw [readFrame_encode_append hc, htake, hdrop]
  apply Reads.more hnext
  exact reads_of_length_lt h.width_pos

/-! ## A stream that is cut off -/

section Cut

variable {β : Type*} (size : β → ℕ)

/-- The length of pieces of the given sizes. -/
def extent (xs : List β) : ℕ := (xs.map size).sum

variable {size}

@[simp] theorem extent_nil : extent size [] = 0 := rfl

@[simp] theorem extent_append (xs ys : List β) :
    extent size (xs ++ ys) = extent size xs + extent size ys := by
  rw [extent, List.map_append, List.sum_append, extent, extent]

@[simp] theorem extent_cons (x : β) (xs : List β) :
    extent size (x :: xs) = size x + extent size xs := by
  rw [extent, List.map_cons, List.sum_cons, extent]

/-- Where a cut falls: behind all pieces, or within one. -/
inductive Cut (size : β → ℕ) (xs : List β) (n : ℕ) : Prop
  | behind (hn : extent size xs ≤ n)
  | within (before : List β) (x : β) (after : List β) (hxs : xs = before ++ x :: after)
      (hlow : extent size before ≤ n) (hhigh : n < extent size before + size x)

theorem cut (size : β → ℕ) (xs : List β) (n : ℕ) : Cut size xs n := by
  induction xs using List.reverseRecOn with
  | nil => exact .behind (Nat.zero_le n)
  | append_singleton xs x ih =>
    cases ih with
    | behind hn =>
      rcases Nat.lt_or_ge n (extent size xs + size x) with hlt | hge
      · exact .within xs x [] rfl hn hlt
      · exact .behind (by simpa using hge)
    | within before x' after hxs hlow hhigh =>
      exact .within before x' (after ++ [x]) (by rw [hxs]; simp) hlow hhigh

end Cut

/-- The length of a frame. -/
def frameSize (h : LengthField α) (c : List α) : ℕ := h.width + c.length

theorem length_frames (cs : List (List α)) :
    (cs.flatMap (frame h)).length = extent (frameSize h) cs := by
  simp only [List.length_flatMap, length_frame]
  rfl

theorem take_frames_of_extent_le {n : ℕ} (hn : extent (frameSize h) cs ≤ n) :
    (cs.flatMap (frame h)).take n = cs.flatMap (frame h) :=
  List.take_of_length_le (by rwa [length_frames])

/-- What is left of a stream that is cut within a frame. -/
theorem take_frames {before after : List (List α)} {n : ℕ} (hlow : extent (frameSize h) before ≤ n)
    (hhigh : n < extent (frameSize h) before + frameSize h c) :
    ((before ++ c :: after).flatMap (frame h)).take n =
      before.flatMap (frame h) ++ (frame h c).take (n - extent (frameSize h) before) := by
  have hlength := length_frames (h := h) before
  have hle : n - (before.flatMap (frame h)).length ≤ (frame h c).length := by
    rw [hlength, length_frame]
    rw [frameSize] at hhigh
    omega
  rw [List.flatMap_append, List.flatMap_cons, List.take_append, List.take_append_of_le_length hle,
    List.take_of_length_le (hlength ▸ hlow), hlength]

/-- The reader on a stream that is cut within a frame. -/
theorem reads_take_within {before after : List (List α)} {n : ℕ}
    (hcs : ∀ c' ∈ before ++ c :: after, c'.length < h.limit)
    (hlow : extent (frameSize h) before ≤ n)
    (hhigh : n < extent (frameSize h) before + frameSize h c) :
    Reads (readFrame h pad) (((before ++ c :: after).flatMap (frame h)).take n)
      (if n < extent (frameSize h) before + h.width then before
      else before ++ [fill pad c.length (c.take (n - extent (frameSize h) before - h.width))]) := by
  have hbefore : ∀ c' ∈ before, c'.length < h.limit :=
    fun c' hc' => hcs c' (List.mem_append_left _ hc')
  have hc : c.length < h.limit := hcs c (by simp)
  have hsize : frameSize h c = h.width + c.length := rfl
  rw [take_frames hlow hhigh]
  split_ifs with hfield
  · have hend : ((frame h c).take (n - extent (frameSize h) before)).length < h.width := by
      rw [List.length_take]
      omega
    simpa using (reads_of_length_lt hend).frames_append hbefore
  -- the length field is complete
  · have hfront : (h.encode c.length).length ≤ n - extent (frameSize h) before := by
      rw [h.length_encode]
      omega
    rw [frame, List.take_append, List.take_of_length_le hfront, h.length_encode]
    exact (reads_encode_append_take hc (by omega)).frames_append hbefore

theorem fill_take_eq_iff {k : ℕ} (hk : k ≤ c.length) :
    fill pad c.length (c.take k) = c ↔ ∀ x ∈ c.drop k, x = pad := by
  have hlength : (c.take k).length = k := List.length_take_of_le hk
  have hsplit : c = c.take k ++ c.drop k := (List.take_append_drop k c).symm
  calc fill pad c.length (c.take k) = c
      ↔ c.take k ++ List.replicate (c.length - k) pad = c.take k ++ c.drop k := by
        rw [fill, hlength, ← hsplit]
    _ ↔ c.drop k = List.replicate (c.length - k) pad := by
        rw [List.append_cancel_left_eq]
        exact eq_comm
    _ ↔ ∀ x ∈ c.drop k, x = pad := by
        rw [List.eq_replicate_iff, List.length_drop]
        exact and_iff_right rfl

/-- A stream that has been cut off gives a prefix of its frames if and only if the symbols
lost from a frame with a complete length field are those the reader fills in. -/
theorem reads_prefix_iff (hcs : ∀ c ∈ cs, c.length < h.limit) (n : ℕ) :
    (∃ got, Reads (readFrame h pad) ((cs.flatMap (frame h)).take n) got ∧ got <+: cs) ↔
      ∀ before c after, cs = before ++ c :: after → extent (frameSize h) before + h.width ≤ n →
        n < extent (frameSize h) before + frameSize h c →
        ∀ x ∈ c.drop (n - extent (frameSize h) before - h.width), x = pad := by
  have hsize : ∀ c, frameSize h c = h.width + c.length := fun _ => rfl
  constructor
  · rintro ⟨got, hreads, hgot⟩ before c after rfl hlow hhigh
    specialize hsize c
    have hwithin := hreads.unique (reads_take_within hcs (by omega) hhigh)
    rw [if_neg (by omega)] at hwithin
    rw [hwithin, List.prefix_append_right_inj, List.cons_prefix_cons] at hgot
    exact (fill_take_eq_iff (by omega)).mp hgot.1
  · intro hlost
    cases cut (frameSize h) cs n with
    | behind hn =>
      refine ⟨cs, ?_, List.prefix_refl cs⟩
      rw [take_frames_of_extent_le hn]
      exact reads_frames hcs
    | within before c after hsplit hlow hhigh =>
      subst hsplit
      specialize hsize c
      refine ⟨_, reads_take_within hcs hlow hhigh, ?_⟩
      split_ifs with hfield
      · exact List.prefix_append _ _
      · have hfill := hlost before c after rfl (by omega) hhigh
        rw [(fill_take_eq_iff (by omega)).mpr hfill]
        exact ⟨after, by simp⟩

end CS.Framing
