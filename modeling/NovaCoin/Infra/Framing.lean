import Mathlib.Data.List.Basic

/-!
# Messages in a stream of bytes

A receiver cuts messages off the front of a buffer that is filled in pieces. `Framing` is one look
at the buffer, with what makes the pieces not matter: a message that is complete stays the same
when more bytes follow, and what is kept of an incomplete one leads to the same next look as all
of it. A receiver that looks as often as it can then does with the pieces what it does with the
whole stream (`foldl_feed_eq_run`).
-/

namespace Framing

inductive Next (β μ ε : Type)
  /-- nothing complete: wait for more, with this much of the buffer kept -/
  | wait (kept : List β)
  /-- an error -/
  | stop (e : ε)
  /-- something to leave out -/
  | skip (rest : List β)
  /-- a message, and what is behind it -/
  | frame (m : μ) (rest : List β)

structure Format (β μ ε : Type) where
  next : List β → Next β μ ε
  next_nil : next [] = .wait []
  skip_lt : ∀ {l rest}, next l = .skip rest → rest.length < l.length
  frame_lt : ∀ {l m rest}, next l = .frame m rest → rest.length < l.length
  stop_append : ∀ {l e}, next l = .stop e → ∀ more, next (l ++ more) = .stop e
  skip_append : ∀ {l rest}, next l = .skip rest → ∀ more, next (l ++ more) = .skip (rest ++ more)
  frame_append : ∀ {l m rest}, next l = .frame m rest →
    ∀ more, next (l ++ more) = .frame m (rest ++ more)
  wait_append : ∀ {l kept}, next l = .wait kept → ∀ more, next (kept ++ more) = next (l ++ more)

/-- Where a receiver is: waiting with bytes in its buffer, or closed, by an error or (`none`) by the
handler. -/
inductive Status (β ε : Type)
  | waiting (kept : List β)
  | closed (e : Option ε)

namespace Format

variable {β μ ε σ : Type} (F : Format β μ ε) (handle : σ → μ → σ × Bool)

def run (s : σ) (l : List β) : σ × Status β ε :=
  match _h : F.next l with
  | .wait kept => (s, .waiting kept)
  | .stop e => (s, .closed (some e))
  | .skip rest => run s rest
  | .frame m rest =>
    match handle s m with
    | (s', true) => run s' rest
    | (s', false) => (s', .closed none)
termination_by l.length
decreasing_by
  · exact F.skip_lt _h
  · exact F.frame_lt _h

def feed : σ × Status β ε → List β → σ × Status β ε
  | (s, .waiting kept), piece => F.run handle s (kept ++ piece)
  | (s, .closed e), _ => (s, .closed e)

variable {F handle}

variable {s s' : σ} {l rest : List β}

theorem run_of_wait {kept : List β} (h : F.next l = .wait kept) :
    F.run handle s l = (s, .waiting kept) := by
  rw [run]
  split <;> simp_all

theorem run_of_stop {e : ε} (h : F.next l = .stop e) :
    F.run handle s l = (s, .closed (some e)) := by
  rw [run]
  split <;> simp_all

theorem run_of_skip (h : F.next l = .skip rest) : F.run handle s l = F.run handle s rest := by
  rw [run]
  split <;> simp_all

theorem run_of_frame {m : μ} (h : F.next l = .frame m rest) (hm : handle s m = (s', true)) :
    F.run handle s l = F.run handle s' rest := by
  rw [run]
  split <;> simp_all

theorem run_of_refused {m : μ} (h : F.next l = .frame m rest) (hm : handle s m = (s', false)) :
    F.run handle s l = (s', .closed none) := by
  rw [run]
  split <;> simp_all

/-- What is done depends on the look alone. -/
theorem run_congr {l' : List β} (h : F.next l = F.next l') :
    F.run handle s l = F.run handle s l' := by
  cases hn : F.next l with
  | wait kept => rw [run_of_wait hn, run_of_wait (h ▸ hn)]
  | stop e => rw [run_of_stop hn, run_of_stop (h ▸ hn)]
  | skip rest => exact (run_of_skip hn).trans (run_of_skip (h ▸ hn)).symm
  | frame m rest =>
    rcases hm : handle s m with ⟨s', _ | _⟩
    · rw [run_of_refused hn hm, run_of_refused (h ▸ hn) hm]
    · exact (run_of_frame hn hm).trans (run_of_frame (h ▸ hn) hm).symm

theorem run_append (s : σ) (l more : List β) :
    F.run handle s (l ++ more) = F.feed handle (F.run handle s l) more := by
  cases hn : F.next l with
  | wait kept =>
    rw [run_of_wait hn]
    exact run_congr (F.wait_append hn more).symm
  | stop e =>
    rw [run_of_stop hn, run_of_stop (F.stop_append hn more)]
    rfl
  | skip rest =>
    rw [run_of_skip hn, run_of_skip (F.skip_append hn more)]
    exact run_append s rest more
  | frame m rest =>
    rcases hm : handle s m with ⟨s', _ | _⟩
    · rw [run_of_refused hn hm, run_of_refused (F.frame_append hn more) hm]
      rfl
    · rw [run_of_frame hn hm, run_of_frame (F.frame_append hn more) hm]
      exact run_append s' rest more
termination_by l.length
decreasing_by
  · exact F.skip_lt hn
  · exact F.frame_lt hn

theorem foldl_feed_eq_run (s : σ) (pieces : List (List β)) :
    pieces.foldl (F.feed handle) (s, .waiting []) = F.run handle s pieces.flatten := by
  have hstart : ((s, .waiting []) : σ × Status β ε) = F.run handle s [] :=
    (run_of_wait F.next_nil).symm
  have hfold : ∀ (pieces : List (List β)) (l : List β),
      pieces.foldl (F.feed handle) (F.run handle s l) = F.run handle s (l ++ pieces.flatten) := by
    intro pieces
    induction pieces with
    | nil => simp
    | cons piece pieces ih =>
      intro l
      rw [List.foldl_cons, ← run_append, ih, List.flatten_cons, List.append_assoc]
  rw [hstart, hfold, List.nil_append]

end Format

end Framing
