import Mathlib.Data.List.Basic

/-!
# Streams

A reader that takes messages off the front of a buffer: what it makes of a stream does not depend on
the chunks that the stream comes in.
-/

namespace Infra

variable {σ α : Type*}

/-- Takes a message off the front of a buffer, if a whole one is there. -/
structure Cutter (σ α : Type*) where
  cut : σ → List α → Option (σ × List α)
  shorter : ∀ {s s' : σ} {buffer rest : List α}, cut s buffer = some (s', rest) →
    rest.length < buffer.length
  /-- What comes later does not change a message that is there. -/
  append : ∀ {s s' : σ} {buffer rest : List α}, cut s buffer = some (s', rest) →
    ∀ more, cut s (buffer ++ more) = some (s', rest ++ more)

namespace Cutter

variable (c : Cutter σ α)

/-- Takes off all the messages. -/
def drain (s : σ) (buffer : List α) : σ × List α :=
  match _ : c.cut s buffer with
  | none => (s, buffer)
  | some (s', rest) => drain s' rest
termination_by buffer.length
decreasing_by exact c.shorter (by assumption)

/-- A chunk at the end of the buffer. -/
def feed (state : σ × List α) (chunk : List α) : σ × List α := c.drain state.1 (state.2 ++ chunk)

theorem drain_of_none {s : σ} {buffer : List α} (h : c.cut s buffer = none) :
    c.drain s buffer = (s, buffer) := by
  rw [drain]
  split
  · rfl
  · next hsome =>
    rw [h] at hsome
    cases hsome

theorem drain_of_some {s s' : σ} {buffer rest : List α} (h : c.cut s buffer = some (s', rest)) :
    c.drain s buffer = c.drain s' rest := by
  rw [drain]
  split
  · next hnone =>
    rw [h] at hnone
    cases hnone
  · next hsome =>
    rw [h] at hsome
    cases hsome
    rfl

theorem cut_nil (s : σ) : c.cut s [] = none := by
  cases h : c.cut s [] with
  | none => rfl
  | some cut => exact absurd (c.shorter h) (Nat.not_lt_zero _)

/-- Messages can be taken off before more comes. -/
theorem drain_append (s : σ) (buffer more : List α) :
    c.drain s (buffer ++ more) = c.drain (c.drain s buffer).1 ((c.drain s buffer).2 ++ more) := by
  fun_induction c.drain s buffer with
  | case1 s buffer h => rfl
  | case2 s buffer s' rest h ih => rw [c.drain_of_some (c.append h more), ih]

/-- A stream's chunks are as good as the stream. -/
theorem foldl_feed (s : σ) (chunks : List (List α)) :
    chunks.foldl c.feed (s, []) = c.drain s chunks.flatten := by
  have hdrained : ∀ (chunks : List (List α)) (s : σ) (buffer : List α),
      chunks.foldl c.feed (c.drain s buffer) = c.drain s (buffer ++ chunks.flatten) := by
    intro chunks
    induction chunks with
    | nil => intro s buffer; rw [List.flatten_nil, List.append_nil, List.foldl_nil]
    | cons chunk chunks ih =>
      intro s buffer
      rw [List.foldl_cons, feed, ← c.drain_append, ih, List.flatten_cons, List.append_assoc]
  have hstart := hdrained chunks s []
  rwa [c.drain_of_none (c.cut_nil s), List.nil_append] at hstart

end Cutter

end Infra
